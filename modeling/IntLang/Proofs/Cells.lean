import IntLang.Proofs.Accounts

/-! Which global cells lowering makes, and in which order: one for every variable of a top-level
statement that has none yet, in the order in which the code first speaks of them. -/
namespace IntLang
open IntLang.Flow

mutual

def Expr.names : Expr → List String
  | .number _ => []
  | .var x => [x]
  | .unary _ e => e.names
  | .binary _ l r => l.names ++ r.names
  | .call _ args => Exprs.names args

def Exprs.names : List Expr → List String
  | [] => []
  | e :: es => e.names ++ Exprs.names es

end

mutual

def Stmt.names : Stmt → List String
  | .assign x e => x :: e.names
  | .eval e | .ret e => e.names
  | .branch cond body elifs otherwise =>
    cond.names ++ Stmts.names body ++ Arms.names elifs ++ Stmts.names otherwise
  | .loop cond body => cond.names ++ Stmts.names body
  | .print args => Exprs.names args
  | .pass => []

def Stmts.names : List Stmt → List String
  | [] => []
  | s :: ss => s.names ++ Stmts.names ss

def Arms.names : List (Expr × List Stmt) → List String
  | [] => []
  | (cond, body) :: rest => cond.names ++ Stmts.names body ++ Arms.names rest

end

theorem Stmts.names_append (ss ss' : List Stmt) :
    Stmts.names (ss ++ ss') = Stmts.names ss ++ Stmts.names ss' := by
  induction ss with
  | nil => rfl
  | cons s ss ih => simp only [List.cons_append, Stmts.names, ih, List.append_assoc]

def addCell (gs : Array Global) (x : String) : Array Global :=
  if gs.any (·.name == x) then gs else gs.push ⟨x, 0⟩

def addCells (gs : Array Global) (xs : List String) : Array Global :=
  xs.foldl addCell gs

theorem addCells_append (gs : Array Global) (xs ys : List String) :
    addCells gs (xs ++ ys) = addCells (addCells gs xs) ys :=
  List.foldl_append

/-- New cells come after the ones that are there. -/
theorem addCells_eq (gs : Array Global) (xs : List String) :
    ∃ ys : List String, (addCells gs xs).toList = gs.toList ++ ys.map fun y => ⟨y, 0⟩ := by
  induction xs generalizing gs with
  | nil => exact ⟨[], by simp [addCells]⟩
  | cons x xs ih =>
    obtain ⟨ys, hys⟩ := ih (addCell gs x)
    by_cases hx : gs.any (·.name == x) = true
    · exact ⟨ys, by simpa [addCells, addCell, hx] using hys⟩
    · exact ⟨x :: ys, by simpa [addCells, addCell, hx] using hys⟩

theorem globals_globalCell (m : Module) (x : String) :
    (m.globalCell x 0).2.globals = addCell m.globals x := by
  unfold Module.globalCell addCell Module.findGlobal?
  cases h : m.globals.findIdx? (·.name == x) with
  | none =>
    have hno : m.globals.any (·.name == x) = false :=
      Array.any_eq_false'.2 (by simpa using Array.findIdx?_eq_none_iff.1 h)
    simp [hno]
  | some g =>
    obtain ⟨hlt, hg, -⟩ := Array.findIdx?_eq_some_iff_getElem.1 h
    have hyes : m.globals.any (·.name == x) = true := Array.any_eq_true.2 ⟨g, hlt, hg⟩
    simp [hyes]

def Scope.isGlobal : Scope → Bool
  | .globals => true
  | .slots _ => false

namespace Lower
variable {α β : Type} {xs ys : List String}

/-- A step that makes cells for `xs` if the variables are the global cells, and none otherwise. -/
def Makes (x : Lower α) (xs : List String) : Prop :=
  ∀ σ a σ', x σ = .ok a σ' → σ'.scope.isGlobal = σ.scope.isGlobal ∧
    σ'.builder.module.globals =
      if σ.scope.isGlobal then addCells σ.builder.module.globals xs else σ.builder.module.globals

theorem Makes.bind {x : Lower α} {f : α → Lower β} (h : Makes x xs) (hf : ∀ a, Makes (f a) ys) :
    Makes (x >>= f) (xs ++ ys) := by
  intro σ c σ' hrun
  obtain ⟨a, σ₁, hx, hrest⟩ := exists_of_bind hrun
  obtain ⟨hs₁, hg₁⟩ := h σ a σ₁ hx
  obtain ⟨hs₂, hg₂⟩ := hf a σ₁ c σ' hrest
  refine ⟨hs₂.trans hs₁, ?_⟩
  rw [hg₂, hs₁, hg₁, addCells_append]
  split <;> rfl

theorem makes_pure (a : α) : Makes (pure a) [] := by
  intro σ c σ' hrun
  cases hrun
  exact ⟨rfl, by simp [addCells]⟩

theorem makes_reject (e : CompileError) (xs : List String) : Makes (reject e : Lower α) xs := by
  intro σ c σ' hrun
  cases hrun

theorem makes_build {step : Build α} (h : Reworks step) : Makes (build step) [] := by
  intro σ c σ' hrun
  have hb := h σ.builder
  unfold build at hrun
  split at hrun
  · next hstep =>
    cases hrun
    rw [hstep] at hb
    refine ⟨rfl, ?_⟩
    rcases hb with hb | ⟨f, g, -, -, hb⟩ <;> simp [addCells, hb, Module.update]
  · cases hrun

theorem makes_declare (name : String) (n : Nat) (variadic : Bool) :
    Makes (build (Builder.onModule (·.declare name n variadic))) [] := by
  intro σ c σ' hrun
  have hglobals : (σ.builder.module.declare name n variadic).2.globals = σ.builder.module.globals := by
    unfold Module.declare
    split <;> rfl
  cases hrun
  exact ⟨rfl, hglobals.trans (by simp [addCells])⟩

theorem makes_address (x : String) : Makes (address x) [x] := by
  intro σ a σ' hrun
  cases hscope : σ.scope with
  | globals =>
    rw [address_globals hscope] at hrun
    cases hrun
    exact ⟨congrArg Scope.isGlobal hscope, globals_globalCell _ x⟩
  | slots known =>
    cases hx : known.lookup x with
    | some p =>
      rw [address_slots hscope hx] at hrun
      cases hrun
      exact ⟨congrArg Scope.isGlobal hscope, rfl⟩
    | none =>
      have hslot := makes_build (.entrySlot x (.int 0))
      rw [address_new hscope hx] at hrun
      change EStateM.bind (build _) _ σ = _ at hrun
      unfold EStateM.bind at hrun
      cases hb : build (Builder.entrySlot x (.int 0)) σ with
      | ok p σ₁ =>
        rw [hb] at hrun
        cases hrun
        have hglobals := (hslot σ _ σ₁ hb).2
        rw [hscope] at hglobals
        exact ⟨rfl, hglobals⟩
      | error e σ₁ =>
        rw [hb] at hrun
        cases hrun

theorem makes_resolve (name : String) (n : Nat) : Makes (resolve name n) [] := by
  intro σ id σ' hrun
  rcases resolve_cases σ name n with ⟨id', hok, -⟩ | ⟨e, herror, -⟩
  · rw [hok] at hrun
    cases hrun
    exact ⟨rfl, by simp [addCells]⟩
  · rw [herror] at hrun
    cases hrun

def cellAccount : Account (List String) where
  holds x xs := Makes x xs
  nothing := []
  andThen xs ys := xs ++ ys
  nothing_andThen _ := rfl
  andThen_nothing := List.append_nil
  bind h hf := h.bind hf
  pure := makes_pure
  append _ _ := makes_build (.appendBlock _)
  push _ _ := makes_build (.push _)
  arith _ _ _ := makes_build (.arith _ _ _)
  store _ _ := makes_build (Reworks.push _).discard
  terminate _ := makes_build (.terminate _)
  position _ := makes_build (.positionAt _)

def cellTrees : cellAccount.OfTrees where
  name x := [x]
  operation _ := []
  callee _ _ := []
  print := []
  expr := Expr.names
  exprs := Exprs.names
  stmt := Stmt.names
  stmts := Stmts.names
  arms := Arms.names
  holds_address := makes_address
  holds_power := makes_declare _ _ _
  holds_reject _ _ := makes_reject _ _
  holds_resolve := makes_resolve
  holds_print := makes_declare _ _ _
  operation_eq _ _ := rfl
  expr_eq e := by cases e <;> simp [Expr.names, cellAccount]
  exprs_eq es := by cases es <;> rfl
  stmt_eq s := by cases s <;> simp [Stmt.names, cellAccount]
  stmts_eq ss := by cases ss <;> rfl
  arms_eq as := by cases as <;> simp [Arms.names, cellAccount]

theorem makes_parameters : ∀ (names : List String) (i : Nat), Makes (parameters names i) []
  | [], _ => makes_pure _
  | name :: names, i => by
    refine cellAccount.after (makes_build (.entrySlot _ _)) fun slot => cellAccount.after ?_ fun _ =>
      makes_parameters names (i + 1)
    intro σ a σ' hrun
    rw [modify_apply] at hrun
    cases hrun
    cases hscope : σ.scope with
    | slots known => exact ⟨rfl, rfl⟩
    | globals => exact ⟨congrArg Scope.isGlobal hscope, rfl⟩

theorem makes_body (params : List String) (ss : List Stmt) :
    Makes (body params ss) (Stmts.names ss) :=
  cellAccount.body (makes_parameters params 0) (cellTrees.holds_stmts ss)

end Lower

/-- The cells that a body leaves in the module. -/
theorem lowerBody_globals {m m' : Module} {id : FuncId} {scope : Scope} {params : List String}
    {ss : List Stmt} {u : Unit} (h : lowerBody m id scope params ss = (.ok u, m')) :
    m'.globals = if scope.isGlobal then addCells m.globals (Stmts.names ss) else m.globals := by
  unfold lowerBody at h
  split at h
  · next hrun =>
    obtain ⟨-, rfl⟩ := Prod.mk.inj h
    exact (Lower.makes_body params ss _ _ _ hrun).2
  · cases h

end IntLang
