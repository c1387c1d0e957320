import IntLang.Proofs.Settled

/-! Which trees are accepted: every operator is supported, and every call names a function that can
be called with as many arguments. Lowering either accepts or rejects, and misuses the builder in no
case. -/
namespace IntLang
open IntLang.Flow IntLang.Code

def BinaryOp.Supported : BinaryOp → Prop
  | .in_ | .notIn => False
  | _ => True

mutual

/-- The calls of an expression are among those that `callable` allows. -/
def Expr.Accepted (callable : String → Nat → Prop) : Expr → Prop
  | .number _ | .var _ => True
  | .unary _ e => e.Accepted callable
  | .binary op l r => l.Accepted callable ∧ r.Accepted callable ∧ op.Supported
  | .call f args => callable f args.length ∧ Exprs.Accepted callable args

def Exprs.Accepted (callable : String → Nat → Prop) : List Expr → Prop
  | [] => True
  | e :: es => e.Accepted callable ∧ Exprs.Accepted callable es

end

mutual

def Stmt.Accepted (callable : String → Nat → Prop) : Stmt → Prop
  | .assign _ e | .eval e | .ret e => e.Accepted callable
  | .branch cond body elifs otherwise =>
    cond.Accepted callable ∧ Stmts.Accepted callable body ∧ Arms.Accepted callable elifs ∧
      Stmts.Accepted callable otherwise
  | .loop cond body => cond.Accepted callable ∧ Stmts.Accepted callable body
  | .print args => Exprs.Accepted callable args
  | .pass => True

def Stmts.Accepted (callable : String → Nat → Prop) : List Stmt → Prop
  | [] => True
  | s :: ss => s.Accepted callable ∧ Stmts.Accepted callable ss

def Arms.Accepted (callable : String → Nat → Prop) : List (Expr × List Stmt) → Prop
  | [] => True
  | (cond, body) :: rest =>
    cond.Accepted callable ∧ Stmts.Accepted callable body ∧ Arms.Accepted callable rest

end

def Callable (m : Module) (name : String) (n : Nat) : Prop :=
  ∃ id, Callee m name n id

theorem Flow.Extends.callable_eq {m m' : Module} (h : Extends m m') (ht : m.Tidy) :
    Callable m' = Callable m := by
  funext name n
  exact propext (exists_congr fun _ => h.callee_iff ht)

namespace Lower

/-- A step succeeds exactly if `accepted` holds, and leaves what `post` says. -/
def Spec {α : Type} (x : Lower α) (σ : Lowering) (accepted : Prop) (post : α → Lowering → Prop) :
    Prop :=
  match x σ with
  | .ok a σ' => accepted ∧ post a σ'
  | .error (.rejected _) _ => ¬ accepted
  | .error (.misuse _) _ => False

namespace Spec
variable {α β : Type} {x : Lower α} {f : α → Lower β} {σ σ' : Lowering} {acc acc' : Prop}
  {post post' : α → Lowering → Prop} {post₂ : β → Lowering → Prop}

theorem ok {a : α} (h : x σ = .ok a σ') (hp : post a σ') : Spec x σ True post := by
  rw [Spec, h]
  exact ⟨trivial, hp⟩

theorem imp (h : Spec x σ acc post) (hp : ∀ a σ', post a σ' → post' a σ') : Spec x σ acc post' := by
  unfold Spec at h ⊢
  split at h
  · exact ⟨h.1, hp _ _ h.2⟩
  · exact h
  · exact h

theorem congr (h : Spec x σ acc post) (hacc : acc ↔ acc') : Spec x σ acc' post :=
  propext hacc ▸ h

theorem bind (h : Spec x σ acc post) (hf : ∀ a σ', post a σ' → Spec (f a) σ' acc' post₂) :
    Spec (x >>= f) σ (acc ∧ acc') post₂ := by
  unfold Spec at h
  unfold Spec
  change match EStateM.bind x f σ with
    | .ok a σ' => _
    | .error (.rejected _) _ => _
    | .error (.misuse _) _ => _
  unfold EStateM.bind
  split at h
  · next a σ' hx =>
    have hf' := hf a σ' h.2
    unfold Spec at hf'
    simp only [hx]
    split at hf'
    · exact ⟨⟨h.1, hf'.1⟩, hf'.2⟩
    · exact fun hacc => hf' hacc.2
    · exact hf'
  · next e σ' hx =>
    simp only [hx]
    exact fun hacc => h hacc.1
  · exact h.elim

/-- A step that always succeeds comes first. -/
theorem after (h : Spec x σ True post) (hf : ∀ a σ', post a σ' → Spec (f a) σ' acc post₂) :
    Spec (x >>= f) σ acc post₂ :=
  (h.bind hf).congr (iff_of_eq (true_and _))

theorem before (h : Spec x σ acc post) (hf : ∀ a σ', post a σ' → Spec (f a) σ' True post₂) :
    Spec (x >>= f) σ acc post₂ :=
  (h.bind hf).congr (iff_of_eq (and_true _))

theorem pure {a : α} (hp : post a σ) : Spec (pure a) σ True post :=
  ok rfl hp

end Spec
end Lower
end IntLang
