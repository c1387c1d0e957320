import IntLang.Proofs.Runs

/-! What evaluating a tree can change and how it can fail. A statement changes the variables that it
assigns and no other, whatever it calls; and it fails in a division, in a call, or when its text
cannot be written. -/
namespace IntLang

mutual

def Stmt.assigned : Stmt → List String
  | .assign x _ => [x]
  | .branch _ body elifs otherwise =>
    Stmts.assigned body ++ Arms.assigned elifs ++ Stmts.assigned otherwise
  | .loop _ body => Stmts.assigned body
  | .eval _ | .print _ | .ret _ | .pass => []

def Stmts.assigned : List Stmt → List String
  | [] => []
  | s :: ss => s.assigned ++ Stmts.assigned ss

def Arms.assigned : List (Expr × List Stmt) → List String
  | [] => []
  | (_, body) :: rest => Stmts.assigned body ++ Arms.assigned rest

end

namespace Meaning
open IntLang.Machine

/-- No variable changes but those in `xs`, and no fault occurs but those in `faults`. -/
def Within {α : Type} (xs : List String) (faults : Fault → Prop) (x : Eval α) : Prop :=
  ∀ s r s', x s = some (r, s') →
    (∀ y, y ∉ xs → s'.vars y = s.vars y) ∧ ∀ f, r = .error f → faults f

namespace Within
variable {α β : Type} {xs ys : List String} {faults : Fault → Prop}

theorem mono {x : Eval α} (h : Within xs faults x) (hsub : xs ⊆ ys) : Within ys faults x :=
  fun s r s' hx => (h s r s' hx).imp_left fun hv y hy => hv y fun hmem => hy (hsub hmem)

theorem pure (a : α) : Within xs faults (Pure.pure a) := by
  intro s r s' h
  obtain ⟨rfl, rfl⟩ := Prod.mk.inj (Option.some.inj h)
  exact ⟨fun _ _ => rfl, fun f hf => by cases hf⟩

theorem bind {x : Eval α} {f : α → Eval β} (hx : Within xs faults x)
    (hf : ∀ a, Within xs faults (f a)) : Within xs faults (x >>= f) := by
  intro s r s' h
  rw [bind_apply] at h
  rcases hrun : x s with _ | ⟨e | a, s₁⟩
  · simp [hrun] at h
  · rw [hrun] at h
    obtain ⟨rfl, rfl⟩ := Prod.mk.inj (Option.some.inj h)
    exact ⟨(hx s _ _ hrun).1, fun g hg => (hx s _ _ hrun).2 g (by cases hg; rfl)⟩
  · rw [hrun] at h
    obtain ⟨hvars, hfault⟩ := hf a s₁ r s' h
    exact ⟨fun y hy => (hvars y hy).trans ((hx s _ _ hrun).1 y hy), hfault⟩

theorem ite {p : Prop} [Decidable p] {x y : Eval α} (hx : Within xs faults x)
    (hy : Within xs faults y) : Within xs faults (if p then x else y) := by
  split
  · exact hx
  · exact hy

end Within

/-- The faults that may occur while a tree is evaluated. -/
structure Allows (faults : Fault → Prop) (w : World) (call : Calls) : Prop where
  zero : faults .divisionByZero
  overflow : faults .divisionOverflow
  unwritten : ∀ text line part reason, w.sink.refuses text line = some (part, reason) →
    faults (.nativeFailed printSymbol (.unwritten reason))
  call : ∀ name args text f text', call name args text = some (.error f, text') → faults f

section Trees
variable {faults : Fault → Prop} {w : World} {call : Calls}

theorem within_given (h : Allows faults w call) (op : BinaryOp) (a b : Int32) (xs : List String) :
    Within xs faults (given (binaryValue op a b)) := by
  intro s r s' hrun
  obtain ⟨v, hv, heq⟩ := Option.map_eq_some_iff.1 hrun
  obtain ⟨rfl, rfl⟩ := Prod.mk.inj heq
  refine ⟨fun _ _ => rfl, fun f hf => ?_⟩
  subst hf
  have hdivide (rounded : Int → Int → Int) (hd : divide rounded a b = .error f) : faults f := by
    unfold divide at hd
    split at hd
    · cases hd
      exact h.zero
    · split at hd
      · cases hd
        exact h.overflow
      · cases hd
  cases op with
  | div | mod => exact hdivide _ (Option.some.inj hv)
  | _ => cases hv

theorem within_called (h : Allows faults w call) (name : String) (args : List Int32)
    (xs : List String) : Within xs faults (called (call name args)) := by
  intro s r s' hrun
  obtain ⟨⟨v, text⟩, hv, heq⟩ := Option.map_eq_some_iff.1 hrun
  obtain ⟨rfl, rfl⟩ := Prod.mk.inj heq
  refine ⟨fun _ _ => rfl, fun f hf => ?_⟩
  subst hf
  exact h.call name args _ f text hv

mutual

theorem within_expr (h : Allows faults w call) (xs : List String) :
    ∀ e : Expr, Within xs faults (expr call e)
  | .number n => by
    rw [expr]
    exact .pure n
  | .var x => by
    intro s r s' hrun
    rw [expr] at hrun
    obtain ⟨rfl, rfl⟩ := Prod.mk.inj (Option.some.inj hrun)
    exact ⟨fun _ _ => rfl, fun f hf => by cases hf⟩
  | .unary op e => by
    rw [expr]
    exact (within_expr h xs e).bind fun _ => .pure _
  | .binary op l r => by
    rw [expr]
    exact (within_expr h xs l).bind fun a => (within_expr h xs r).bind fun b =>
      within_given h op a b xs
  | .call f args => by
    rw [expr]
    exact (within_exprs h xs args).bind fun vs => within_called h f vs xs

theorem within_exprs (h : Allows faults w call) (xs : List String) :
    ∀ es : List Expr, Within xs faults (exprs call es)
  | [] => by
    rw [exprs]
    exact .pure []
  | e :: es => by
    rw [exprs]
    exact (within_expr h xs e).bind fun _ => (within_exprs h xs es).bind fun _ => .pure _

end

theorem within_set (x : String) (v : Int32) :
    Within [x] faults (modify fun s => s.set x v : Eval PUnit) := by
  intro s r s' hrun
  obtain ⟨rfl, rfl⟩ := Prod.mk.inj (Option.some.inj hrun)
  refine ⟨fun y hy => ?_, fun f hf => by cases hf⟩
  exact Function.update_of_ne (fun he => hy (List.mem_singleton.2 he)) v s.vars

theorem within_printed (h : Allows faults w call) (vs : List Int32) (xs : List String) :
    Within xs faults (printed w vs) := by
  intro s r s' hrun
  unfold printed at hrun
  dsimp only at hrun
  split at hrun
  · obtain ⟨rfl, rfl⟩ := Prod.mk.inj (Option.some.inj hrun)
    exact ⟨fun _ _ => rfl, fun f hf => by cases hf⟩
  · next part reason hr =>
    obtain ⟨rfl, rfl⟩ := Prod.mk.inj (Option.some.inj hrun)
    refine ⟨fun _ _ => rfl, fun f hf => ?_⟩
    cases hf
    exact h.unwritten _ _ part reason hr

theorem within_repeated {xs : List String} {cond : Eval Int32} {body : Eval (Option Int32)}
    (hc : Within xs faults cond) (hb : Within xs faults body) (n : Nat) :
    Within xs faults (repeated cond body n) := by
  induction n with
  | zero =>
    intro s r s' h
    cases h
  | succ n ih =>
    rw [repeated]
    refine hc.bind fun _ => .ite (.pure _) (hb.bind fun v => ?_)
    cases v with
    | none => exact ih
    | some v => exact .pure _

mutual

theorem within_stmt (h : Allows faults w call) (n : Nat) :
    ∀ s : Stmt, Within s.assigned faults (stmt w call n s)
  | .assign x e => by
    rw [stmt]
    exact (within_expr h _ e).bind fun v => (within_set x v).bind fun _ => .pure _
  | .eval e => by
    rw [stmt]
    exact (within_expr h _ e).bind fun _ => .pure _
  | .branch cond body elifs otherwise => by
    rw [stmt]
    refine (within_expr h _ cond).bind fun _ => .ite ((within_stmts h n body).mono ?_)
      (within_arms h n elifs ((within_stmts h n otherwise).mono ?_) ?_)
    all_goals
      intro x hx
      simp [Stmt.assigned, hx]
  | .loop cond body => by
    rw [stmt]
    exact within_repeated (within_expr h _ cond) (within_stmts h n body) n
  | .print args => by
    rw [stmt]
    exact (within_exprs h _ args).bind fun vs => (within_printed h vs _).bind fun _ => .pure _
  | .ret e => by
    rw [stmt]
    exact (within_expr h _ e).bind fun _ => .pure _
  | .pass => by
    rw [stmt]
    exact .pure _

theorem within_stmts (h : Allows faults w call) (n : Nat) :
    ∀ ss : List Stmt, Within (Stmts.assigned ss) faults (stmts w call n ss)
  | [] => by
    rw [stmts]
    exact .pure _
  | s :: ss => by
    rw [stmts]
    refine ((within_stmt h n s).mono (List.subset_append_left _ _)).bind fun v => ?_
    cases v with
    | none => exact (within_stmts h n ss).mono (List.subset_append_right _ _)
    | some v => exact .pure _

theorem within_arms (h : Allows faults w call) (n : Nat) {xs : List String}
    {otherwise : Eval (Option Int32)} : ∀ as : List (Expr × List Stmt),
    Within xs faults otherwise → Arms.assigned as ⊆ xs → Within xs faults (arms w call n otherwise as)
  | [], ho, _ => by
    rw [arms]
    exact ho
  | (cond, body) :: rest, ho, hsub => by
    rw [arms]
    refine (within_expr h _ cond).bind fun _ => .ite ((within_stmts h n body).mono ?_)
      (within_arms h n rest ho ?_)
    · exact fun x hx => hsub (List.mem_append_left _ hx)
    · exact fun x hx => hsub (List.mem_append_right _ hx)

end

end Trees

section Calls
variable {faults : Fault → Prop} {w : World}

/-- Calls are allowed the faults of their bodies. -/
theorem allows_call (zero : faults .divisionByZero) (overflow : faults .divisionOverflow)
    (depth : faults .callDepth)
    (unwritten : ∀ text line part reason, w.sink.refuses text line = some (part, reason) →
      faults (.nativeFailed printSymbol (.unwritten reason)))
    (foreign : ∀ d ∈ w.functions, d.isDeclaration = true → ∀ args text f text',
      foreign w d.name args text = (.error f, text') → faults f) (n : Nat) :
    ∀ k, Allows faults w (call w n k) := by
  induction n with
  | zero => exact fun k => ⟨zero, overflow, unwritten, fun name args text f text' h => by cases h⟩
  | succ n ih =>
    refine fun k => ⟨zero, overflow, unwritten, fun name args text f text' h => ?_⟩
    rw [Meaning.call] at h
    cases hfind : w.functions.find? (·.name = name) with
    | none => simp [hfind] at h
    | some d =>
      have hname : d.name = name := by simpa using List.find?_some hfind
      simp only [hfind] at h
      split at h
      · next hd =>
        refine foreign d (List.mem_of_find?_eq_some hfind) hd args text f text' ?_
        rw [hname]
        exact Option.some.inj h
      · split at h
        · cases h
          exact depth
        · obtain ⟨⟨r, s⟩, hrun, heq⟩ := Option.map_eq_some_iff.1 h
          obtain ⟨hr, -⟩ := Prod.mk.inj heq
          refine (within_stmts (ih (k + 1)) n d.body _ r s hrun).2 f ?_
          cases r with
          | error g =>
            cases hr
            rfl
          | ok v => cases hr

end Calls

/-- Statements change the variables that they assign and no other. -/
theorem vars_of_topLevel {w : World} {n : Nat} {ss : List Stmt} {s s' : Store}
    {v : Except Fault Int32} (h : (topLevel w n ss s).map outcome = some (v, s')) {x : String}
    (hx : x ∉ Stmts.assigned ss) : s'.vars x = s.vars x := by
  obtain ⟨⟨r, s₁⟩, hrun, heq⟩ := Option.map_eq_some_iff.1 h
  obtain ⟨-, rfl⟩ := Prod.mk.inj heq
  have hallow : Allows (fun _ => True) w (call w n 1) := allows_call trivial trivial trivial
    (fun _ _ _ _ _ => trivial) (fun _ _ _ _ _ _ _ _ => trivial) n 1
  exact (within_stmts hallow n ss s r _ hrun).1 x hx

end Meaning
end IntLang
