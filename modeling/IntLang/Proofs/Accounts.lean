import IntLang.Proofs.Building

/-! Accounts of lowering. What is said of the building steps, of addresses and of callees is put together
along the code that is lowered, and so said of every tree. -/
namespace IntLang
open IntLang.Flow

namespace Flow

def blockBases : List String :=
  ["entry", "zero", "nonzero", "zero.cont", "if.then", "if.else", "if.end", "while.cond", "while.body",
    "while.end", "after.ret"]

def Instr.slotName? : Instr → Option String
  | .alloca name => some name
  | _ => none

def Function.complaint (f : Function) (name : String) (given : Nat) : Option CompileError :=
  if f.synthetic then some (.unknownFunction name)
  else if given = f.paramCount || (f.variadic && f.paramCount ≤ given) then none
  else some (.argumentCount name f.paramCount given)

def Module.complaint (m : Module) (name : String) (given : Nat) : Option CompileError :=
  match (m.find? name).bind m.function? with
  | none => some (.unknownFunction name)
  | some f => f.complaint name given

end Flow

namespace Lower
variable {α β : Type}

/-- A callee is found exactly if there is no complaint about the call, and nothing changes. -/
theorem resolve_cases (σ : Lowering) (name : String) (n : Nat) :
    (∃ id, resolve name n σ = .ok id σ ∧ σ.builder.module.complaint name n = none) ∨
      ∃ e, resolve name n σ = .error (.rejected e) σ ∧ σ.builder.module.complaint name n = some e := by
  unfold Module.complaint
  simp only [resolve, bind, EStateM.bind, get_apply]
  cases σ.builder.module.find? name with
  | none => exact .inr ⟨_, rfl, rfl⟩
  | some id =>
    simp only [Option.bind_some]
    cases σ.builder.module.function? id with
    | none => exact .inr ⟨_, rfl, rfl⟩
    | some f =>
      simp only [Option.map_some, Function.complaint]
      by_cases hs : f.synthetic = true
      · simp only [hs, ↓reduceIte]
        exact .inr ⟨_, rfl, rfl⟩
      · by_cases hn : (n = f.paramCount || (f.variadic && f.paramCount ≤ n)) = true
        · simp only [hs, hn, ↓reduceIte]
          exact .inl ⟨id, rfl, rfl⟩
        · simp only [hs, hn]
          exact .inr ⟨_, rfl, rfl⟩

theorem exists_of_bind {x : Lower α} {f : α → Lower β} {σ σ' : Lowering} {c : β}
    (h : (x >>= f) σ = .ok c σ') : ∃ a σ₁, x σ = .ok a σ₁ ∧ f a σ₁ = .ok c σ' := by
  change EStateM.bind x f σ = _ at h
  unfold EStateM.bind at h
  cases hx : x σ with
  | ok a σ₁ =>
    rw [hx] at h
    exact ⟨a, σ₁, rfl, h⟩
  | error e σ₁ =>
    rw [hx] at h
    cases h

/-- A way to speak of lowering, such as the cells it makes or the errors it stops with. `holds x w` stands
for saying `w` of the step `x`. -/
structure Account (W : Type) where
  holds : {α : Type} → Lower α → W → Prop
  nothing : W
  andThen : W → W → W
  nothing_andThen : ∀ w, andThen nothing w = w
  andThen_nothing : ∀ w, andThen w nothing = w
  bind : ∀ {α β : Type} {x : Lower α} {f : α → Lower β} {w w' : W}, holds x w → (∀ a, holds (f a) w') →
    holds (x >>= f) (andThen w w')
  pure : ∀ {α : Type} (a : α), holds (pure a) nothing
  append : ∀ base ∈ blockBases, holds (build (Builder.appendBlock base)) nothing
  push : ∀ i : Instr, i.slotName? = none → holds (build (Builder.push i)) nothing
  arith : ∀ op l r, holds (build (Builder.arith op l r)) nothing
  store : ∀ v slot, holds (build (Builder.store v slot)) nothing
  terminate : ∀ t, holds (build (Builder.terminate t)) nothing
  position : ∀ id, holds (build (Builder.positionAt id)) nothing

/-- What an account has to say of trees. -/
structure Account.OfTrees {W : Type} (A : Account W) where
  name : String → W
  operation : BinaryOp → W
  callee : String → Nat → W
  print : W
  expr : Expr → W
  exprs : List Expr → W
  stmt : Stmt → W
  stmts : List Stmt → W
  arms : List (Expr × List Stmt) → W
  holds_address : ∀ x, A.holds (address x) (name x)
  holds_power : A.holds (build (Builder.onModule (·.declare Machine.powerSymbol 2 false))) (operation .pow)
  holds_reject : ∀ op ∈ [BinaryOp.in_, .notIn],
    A.holds (reject (.unsupported op) : Lower Operand) (operation op)
  holds_resolve : ∀ f n, A.holds (resolve f n) (callee f n)
  holds_print : A.holds (build (Builder.onModule (·.declare Machine.printSymbol 1 true))) print
  operation_eq : ∀ op ∉ [BinaryOp.pow, .in_, .notIn], operation op = A.nothing
  expr_eq : ∀ e, expr e = match e with
    | .number _ => A.nothing
    | .var x => name x
    | .unary _ e => expr e
    | .binary op l r => A.andThen (expr l) (A.andThen (expr r) (operation op))
    | .call f args => A.andThen (callee f args.length) (exprs args)
  exprs_eq : ∀ es, exprs es = match es with
    | [] => A.nothing
    | e :: es => A.andThen (expr e) (exprs es)
  stmt_eq : ∀ s, stmt s = match s with
    | .assign x e => A.andThen (name x) (expr e)
    | .eval e | .ret e => expr e
    | .branch c b elifs o => A.andThen (expr c) (A.andThen (stmts b) (A.andThen (arms elifs) (stmts o)))
    | .loop c b => A.andThen (expr c) (stmts b)
    | .print args => A.andThen print (exprs args)
    | .pass => A.nothing
  stmts_eq : ∀ ss, stmts ss = match ss with
    | [] => A.nothing
    | s :: ss => A.andThen (stmt s) (stmts ss)
  arms_eq : ∀ as, arms as = match as with
    | [] => A.nothing
    | (c, b) :: as => A.andThen (expr c) (A.andThen (stmts b) (arms as))

namespace Account
variable {W : Type} {w : W}

section Steps
variable (A : Account W)

theorem before {x : Lower α} {f : α → Lower β} (h : A.holds x w) (hf : ∀ a, A.holds (f a) A.nothing) :
    A.holds (x >>= f) w := by
  rw [← A.andThen_nothing w]
  exact A.bind h hf

theorem after {x : Lower α} {f : α → Lower β} (h : A.holds x A.nothing) (hf : ∀ a, A.holds (f a) w) :
    A.holds (x >>= f) w := by
  rw [← A.nothing_andThen w]
  exact A.bind h hf

theorem zeroTest (v : Operand) (whenZero : Bool) : A.holds (zeroTest v whenZero) A.nothing :=
  A.after (A.append _ (by decide)) fun _ => A.after (A.append _ (by decide)) fun _ =>
    A.after (A.append _ (by decide)) fun _ => A.after (A.push _ rfl) fun _ =>
    A.after (A.terminate _) fun _ => A.after (A.position _) fun _ => A.after (A.terminate _) fun _ =>
    A.after (A.position _) fun _ => A.after (A.terminate _) fun _ => A.after (A.position _) fun _ =>
    A.push _ rfl

theorem unary (op : UnaryOp) (v : Operand) : A.holds (unary op v) A.nothing := by
  cases op with
  | negate => exact A.arith _ _ _
  | identity => exact A.pure v
  | not => exact A.after (A.zeroTest v true) fun _ => A.push _ rfl

theorem logical (op : ArithOp) (l r : Operand) : A.holds (logical op l r) A.nothing :=
  A.after (A.zeroTest l false) fun _ => A.after (A.zeroTest r false) fun _ =>
    A.after (A.arith _ _ _) fun _ => A.push _ rfl

theorem comparison (op : CmpOp) (l r : Operand) : A.holds (comparison op l r) A.nothing :=
  A.after (A.push _ rfl) fun _ => A.push _ rfl

theorem test {cond : Expr} (h : A.holds (expr cond) w) : A.holds (test cond) w :=
  A.before h fun _ => A.after (A.zeroTest _ _) fun _ => A.after (A.append _ (by decide)) fun _ =>
    A.after (A.append _ (by decide)) fun _ => A.after (A.terminate _) fun _ =>
    A.after (A.position _) fun _ => A.pure _

theorem body {params : List String} {ss : List Stmt} (hp : A.holds (parameters params 0) A.nothing)
    (h : A.holds (stmts ss) w) : A.holds (body params ss) w :=
  A.after (A.append _ (by decide)) fun _ => A.after (A.position _) fun _ => A.after hp fun _ =>
    A.before h fun _ => A.terminate _

end Steps

namespace OfTrees
variable {A : Account W} (T : A.OfTrees)

theorem holds_binary (op : BinaryOp) (l r : Operand) : A.holds (binary op l r) (T.operation op) := by
  cases op with
  | pow => exact A.before T.holds_power fun _ => A.push _ rfl
  | in_ | notIn => exact T.holds_reject _ (by decide)
  | and | or =>
    rw [T.operation_eq _ (by decide)]
    exact A.logical _ l r
  | lt | gt | le | ge | eq | ne =>
    rw [T.operation_eq _ (by decide)]
    exact A.comparison _ l r
  | add | sub | mul | div | mod =>
    rw [T.operation_eq _ (by decide)]
    exact A.arith _ l r

mutual

theorem holds_expr : ∀ e : Expr, A.holds (Lower.expr e) (T.expr e)
  | .number _ => T.expr_eq _ ▸ A.pure _
  | .var x => T.expr_eq _ ▸ A.before (T.holds_address x) fun _ => A.push _ rfl
  | .unary op e => T.expr_eq _ ▸ A.before (holds_expr e) fun _ => A.unary op _
  | .binary op l r => T.expr_eq _ ▸ A.bind (holds_expr l) fun _ => A.bind (holds_expr r) fun _ =>
      T.holds_binary op _ _
  | .call f args => T.expr_eq _ ▸ A.bind (T.holds_resolve f _) fun _ => A.before (holds_exprs args) fun _ =>
      A.push _ rfl

theorem holds_exprs : ∀ es : List Expr, A.holds (Lower.exprs es) (T.exprs es)
  | [] => T.exprs_eq _ ▸ A.pure _
  | e :: es => T.exprs_eq _ ▸ A.bind (holds_expr e) fun _ => A.before (holds_exprs es) fun _ => A.pure _

end

mutual

theorem holds_stmt : ∀ s : Stmt, A.holds (Lower.stmt s) (T.stmt s)
  | .assign x e => T.stmt_eq _ ▸ A.bind (T.holds_address x) fun _ => A.before (T.holds_expr e) fun _ =>
      A.store _ _
  | .eval e => T.stmt_eq _ ▸ A.before (T.holds_expr e) fun _ => A.pure _
  | .branch cond body elifs otherwise => T.stmt_eq _ ▸
      A.after (A.append _ (by decide)) fun _ => A.bind (A.test (T.holds_expr cond)) fun _ =>
      A.bind (holds_stmts body) fun _ => A.after (A.terminate _) fun _ => A.after (A.position _) fun _ =>
      A.bind (holds_arms elifs _) fun _ => A.before (holds_stmts otherwise) fun _ =>
      A.after (A.terminate _) fun _ => A.position _
  | .loop cond body => T.stmt_eq _ ▸
      A.after (A.append _ (by decide)) fun _ => A.after (A.append _ (by decide)) fun _ =>
      A.after (A.append _ (by decide)) fun _ => A.after (A.terminate _) fun _ =>
      A.after (A.position _) fun _ => A.bind (T.holds_expr cond) fun _ => A.after (A.zeroTest _ _) fun _ =>
      A.after (A.terminate _) fun _ => A.after (A.position _) fun _ => A.before (holds_stmts body) fun _ =>
      A.after (A.terminate _) fun _ => A.position _
  | .print args => T.stmt_eq _ ▸ A.bind T.holds_print fun _ => A.before (T.holds_exprs args) fun _ =>
      A.after (A.push _ rfl) fun _ => A.pure _
  | .ret e => T.stmt_eq _ ▸ A.before (T.holds_expr e) fun _ => A.after (A.terminate _) fun _ =>
      A.after (A.append _ (by decide)) fun _ => A.position _
  | .pass => T.stmt_eq _ ▸ A.pure _

theorem holds_stmts : ∀ ss : List Stmt, A.holds (Lower.stmts ss) (T.stmts ss)
  | [] => T.stmts_eq _ ▸ A.pure _
  | s :: ss => T.stmts_eq _ ▸ A.bind (holds_stmt s) fun _ => holds_stmts ss

theorem holds_arms : ∀ (as : List (Expr × List Stmt)) (cont : BlockId),
    A.holds (Lower.arms as cont) (T.arms as)
  | [], _ => T.arms_eq _ ▸ A.pure _
  | (cond, body) :: rest, cont => T.arms_eq _ ▸ A.bind (A.test (T.holds_expr cond)) fun _ =>
      A.bind (holds_stmts body) fun _ => A.after (A.terminate _) fun _ => A.after (A.position _) fun _ =>
      holds_arms rest cont

end
end OfTrees
end Account
end Lower
end IntLang
