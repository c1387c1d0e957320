import IntLang.Proofs.Compiled

/-! Which programs compile, told by what occurs in them. Names of functions are free and differ, every
call names a function with as many parameters, and membership is not asked for. It makes no
difference where a call stands, nor whether it can ever be reached. -/
namespace IntLang
open IntLang.Machine IntLang.Code

mutual

def Expr.parts : Expr → List Expr
  | .number n => [.number n]
  | .var x => [.var x]
  | .unary op e => .unary op e :: e.parts
  | .binary op l r => .binary op l r :: (l.parts ++ r.parts)
  | .call f args => .call f args :: Exprs.parts args

def Exprs.parts : List Expr → List Expr
  | [] => []
  | e :: es => e.parts ++ Exprs.parts es

end

mutual

def Stmt.parts : Stmt → List Expr
  | .assign _ e | .eval e | .ret e => e.parts
  | .branch cond body elifs otherwise =>
    cond.parts ++ (Stmts.parts body ++ (Arms.parts elifs ++ Stmts.parts otherwise))
  | .loop cond body => cond.parts ++ Stmts.parts body
  | .print args => Exprs.parts args
  | .pass => []

def Stmts.parts : List Stmt → List Expr
  | [] => []
  | s :: ss => s.parts ++ Stmts.parts ss

def Arms.parts : List (Expr × List Stmt) → List Expr
  | [] => []
  | (cond, body) :: rest => cond.parts ++ (Stmts.parts body ++ Arms.parts rest)

end

/-- All expressions that occur in a program: in the body of a function, or at top level. -/
def Program.parts (p : Program) : List Expr :=
  p.functions.flatMap (Stmts.parts ·.body) ++ Stmts.parts p.statements

section Parts
variable {callable : String → Nat → Prop}

def Expr.Suits (callable : String → Nat → Prop) : Expr → Prop
  | .call f args => callable f args.length
  | .binary op _ _ => op.Supported
  | _ => True

theorem BinaryOp.supported_iff (op : BinaryOp) : op.Supported ↔ op ≠ .in_ ∧ op ≠ .notIn := by
  cases op <;> simp [BinaryOp.Supported]

mutual

theorem Expr.accepted_iff : ∀ e : Expr, e.Accepted callable ↔ ∀ x ∈ e.parts, x.Suits callable
  | .number _ => by simp [Expr.Accepted, Expr.parts, Expr.Suits]
  | .var _ => by simp [Expr.Accepted, Expr.parts, Expr.Suits]
  | .unary op e => by
    rw [Expr.Accepted, Expr.parts, List.forall_mem_cons, Expr.accepted_iff e]
    exact iff_of_eq (true_and _).symm
  | .binary op l r => by
    rw [Expr.Accepted, Expr.parts, List.forall_mem_cons, List.forall_mem_append,
      Expr.accepted_iff l, Expr.accepted_iff r, ← and_assoc]
    exact and_comm
  | .call f args => by
    rw [Expr.Accepted, Expr.parts, List.forall_mem_cons, Exprs.accepted_iff args]
    exact Iff.rfl

theorem Exprs.accepted_iff : ∀ es : List Expr,
    Exprs.Accepted callable es ↔ ∀ x ∈ Exprs.parts es, x.Suits callable
  | [] => by simp [Exprs.Accepted, Exprs.parts]
  | e :: es => by
    rw [Exprs.Accepted, Exprs.parts, List.forall_mem_append, Expr.accepted_iff e,
      Exprs.accepted_iff es]

end

mutual

theorem Stmt.accepted_iff : ∀ s : Stmt, s.Accepted callable ↔ ∀ x ∈ s.parts, x.Suits callable
  | .assign _ e => Expr.accepted_iff e
  | .eval e => Expr.accepted_iff e
  | .ret e => Expr.accepted_iff e
  | .branch cond body elifs otherwise => by
    rw [Stmt.Accepted, Stmt.parts, List.forall_mem_append, List.forall_mem_append,
      List.forall_mem_append, Expr.accepted_iff cond, Stmts.accepted_iff body,
      Arms.accepted_iff elifs, Stmts.accepted_iff otherwise]
  | .loop cond body => by
    rw [Stmt.Accepted, Stmt.parts, List.forall_mem_append, Expr.accepted_iff cond,
      Stmts.accepted_iff body]
  | .print args => Exprs.accepted_iff args
  | .pass => by simp [Stmt.Accepted, Stmt.parts]

theorem Stmts.accepted_iff : ∀ ss : List Stmt,
    Stmts.Accepted callable ss ↔ ∀ x ∈ Stmts.parts ss, x.Suits callable
  | [] => by simp [Stmts.Accepted, Stmts.parts]
  | s :: ss => by
    rw [Stmts.Accepted, Stmts.parts, List.forall_mem_append, Stmt.accepted_iff s,
      Stmts.accepted_iff ss]

theorem Arms.accepted_iff : ∀ as : List (Expr × List Stmt),
    Arms.Accepted callable as ↔ ∀ x ∈ Arms.parts as, x.Suits callable
  | [] => by simp [Arms.Accepted, Arms.parts]
  | (cond, body) :: rest => by
    rw [Arms.Accepted, Arms.parts, List.forall_mem_append, List.forall_mem_append,
      Expr.accepted_iff cond, Stmts.accepted_iff body, Arms.accepted_iff rest]

end

/-- Bodies and statements are accepted exactly if everything that occurs in the program suits. -/
theorem Program.forall_parts_iff (p : Program) (callable : String → Nat → Prop) :
    (∀ x ∈ p.parts, x.Suits callable) ↔
      (∀ d ∈ p.functions, Stmts.Accepted callable d.body) ∧
        Stmts.Accepted callable p.statements := by
  rw [Program.parts, List.forall_mem_append, Stmts.accepted_iff]
  refine and_congr_left' ?_
  constructor
  · intro h d hd
    rw [Stmts.accepted_iff]
    intro x hx
    exact h x (List.mem_flatMap.2 ⟨d, hd, hx⟩)
  · intro h x hx
    obtain ⟨d, hd, hmem⟩ := List.mem_flatMap.1 hx
    exact (Stmts.accepted_iff d.body).1 (h d hd) x hmem

end Parts

structure Program.Admissible (p : Program) : Prop where
  unreserved : ∀ d ∈ p.functions, ¬ reservedStart.toList <+: d.name.toList
  distinct : p.functions.Pairwise fun d d' => d.name ≠ d'.name
  notMain : ∀ d ∈ p.functions, d.name ≠ entryPoint
  calls : ∀ f args, .call f args ∈ p.parts →
    ∃ d ∈ p.functions, d.name = f ∧ d.params.length = args.length
  operators : ∀ op l r, .binary op l r ∈ p.parts → op ≠ .in_ ∧ op ≠ .notIn

theorem reserved_iff (name : String) : Reserved name ↔ reservedStart.toList <+: name.toList :=
  List.isPrefixOf_iff_prefix

theorem Program.forall_suits_iff (p : Program) :
    (∀ x ∈ p.parts, x.Suits (Arity p.functions)) ↔
      (∀ f args, .call f args ∈ p.parts →
        ∃ d ∈ p.functions, d.name = f ∧ d.params.length = args.length) ∧
      ∀ op l r, .binary op l r ∈ p.parts → op ≠ .in_ ∧ op ≠ .notIn := by
  constructor
  · intro h
    refine ⟨fun f args hx => h _ hx, ?_⟩
    intro op l r hx
    exact op.supported_iff.1 (h _ hx)
  · rintro ⟨hcalls, hops⟩ x hx
    cases x with
    | call f args => exact hcalls f args hx
    | binary op l r => exact op.supported_iff.2 (hops op l r hx)
    | number | var | unary => trivial

theorem Program.compiles_iff_admissible (p : Program) : p.Compiles ↔ p.Admissible := by
  have hparts := (p.forall_parts_iff (Arity p.functions)).symm.trans p.forall_suits_iff
  constructor
  · intro h
    obtain ⟨hcalls, hops⟩ := hparts.1 ⟨h.bodies, h.statements⟩
    refine ⟨fun d hd hr => h.unreserved d hd ((reserved_iff d.name).2 hr),
      List.pairwise_map.1 h.distinct, ?_, hcalls, hops⟩
    intro d hd hmain
    exact h.notMain (hmain ▸ List.mem_map_of_mem hd)
  · intro h
    obtain ⟨hbodies, hstatements⟩ := hparts.2 ⟨h.calls, h.operators⟩
    refine ⟨fun d hd hr => h.unreserved d hd ((reserved_iff d.name).1 hr),
      List.pairwise_map.2 h.distinct, ?_, hbodies, hstatements⟩
    intro hmem
    obtain ⟨d, hd, hmain⟩ := List.mem_map.1 hmem
    exact h.notMain d hd hmain

/-- A program is compiled exactly if it is admissible. Whatever is wrong with it, the complaint is
about its meaning, and never about what has been generated. -/
theorem compile_ok_iff_admissible (name : String) (e : Engine) (p : Program) :
    (((Session.new name e).compile p).1 = .ok () ↔ p.Admissible) ∧
      ∀ d, ((Session.new name e).compile p).1 = .error d → d.stage = .semantic := by
  have hspec := compileInto_spec name p
  have hrun : ((Session.new name e).compile p).1 = (Session.compileInto { name } p).1 := rfl
  rw [hrun, ← p.compiles_iff_admissible]
  revert hspec
  rcases Session.compileInto { name } p with ⟨d | u, m⟩ <;> intro hspec
  · refine ⟨⟨fun h => (by cases h), fun h => absurd h hspec.1⟩, ?_⟩
    intro d' hd
    rw [← Except.error.inj hd]
    exact hspec.2
  · exact ⟨⟨fun _ => hspec.1, fun _ => rfl⟩, fun d hd => (by cases hd)⟩

end IntLang
