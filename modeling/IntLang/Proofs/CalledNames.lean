import IntLang.Proofs.Linking

/-! The functions that a tree calls by name. Whether it is accepted and what it evaluates to depends on
these functions only, so more definitions make no difference to it. Statements without a return go
on to the next one. -/
namespace IntLang
open IntLang.Machine IntLang.Meaning IntLang.Code

mutual

def Expr.calls : Expr → List String
  | .number _ | .var _ => []
  | .unary _ e => e.calls
  | .binary _ l r => l.calls ++ r.calls
  | .call f args => f :: Exprs.calls args

def Exprs.calls : List Expr → List String
  | [] => []
  | e :: es => e.calls ++ Exprs.calls es

end

mutual

def Stmt.calls : Stmt → List String
  | .assign _ e | .eval e | .ret e => e.calls
  | .branch cond body elifs otherwise =>
    cond.calls ++ Stmts.calls body ++ Arms.calls elifs ++ Stmts.calls otherwise
  | .loop cond body => cond.calls ++ Stmts.calls body
  | .print args => Exprs.calls args
  | .pass => []

def Stmts.calls : List Stmt → List String
  | [] => []
  | s :: ss => s.calls ++ Stmts.calls ss

def Arms.calls : List (Expr × List Stmt) → List String
  | [] => []
  | (cond, body) :: rest => cond.calls ++ Stmts.calls body ++ Arms.calls rest

end

section Acceptance
variable {c c' : String → Nat → Prop}

/-- Two rules allow the same calls of the functions `fs`. -/
def SameCalls (c c' : String → Nat → Prop) (fs : List String) : Prop :=
  ∀ f ∈ fs, ∀ n, c f n ↔ c' f n

theorem SameCalls.left {fs gs : List String} (h : SameCalls c c' (fs ++ gs)) : SameCalls c c' fs :=
  fun f hf => h f (List.mem_append_left gs hf)

theorem SameCalls.right {fs gs : List String} (h : SameCalls c c' (fs ++ gs)) : SameCalls c c' gs :=
  fun f hf => h f (List.mem_append_right fs hf)

mutual

theorem Expr.accepted_congr : ∀ (e : Expr), SameCalls c c' e.calls → (e.Accepted c ↔ e.Accepted c')
  | .number _, _ => Iff.rfl
  | .var _, _ => Iff.rfl
  | .unary _ e, h => Expr.accepted_congr e h
  | .binary _ l r, h =>
    and_congr (Expr.accepted_congr l h.left) (and_congr_left' (Expr.accepted_congr r h.right))
  | .call f args, h => and_congr (h f List.mem_cons_self args.length)
      (Exprs.accepted_congr args fun g hg => h g (List.mem_cons_of_mem f hg))

theorem Exprs.accepted_congr : ∀ (es : List Expr), SameCalls c c' (Exprs.calls es) →
    (Exprs.Accepted c es ↔ Exprs.Accepted c' es)
  | [], _ => Iff.rfl
  | e :: es, h => and_congr (Expr.accepted_congr e h.left) (Exprs.accepted_congr es h.right)

end

mutual

theorem Stmt.accepted_congr : ∀ (s : Stmt), SameCalls c c' s.calls → (s.Accepted c ↔ s.Accepted c')
  | .assign _ e, h => Expr.accepted_congr e h
  | .eval e, h => Expr.accepted_congr e h
  | .branch cond body elifs otherwise, h =>
    and_congr (Expr.accepted_congr cond h.left.left.left)
      (and_congr (Stmts.accepted_congr body h.left.left.right)
        (and_congr (Arms.accepted_congr elifs h.left.right) (Stmts.accepted_congr otherwise h.right)))
  | .loop cond body, h =>
    and_congr (Expr.accepted_congr cond h.left) (Stmts.accepted_congr body h.right)
  | .print args, h => Exprs.accepted_congr args h
  | .ret e, h => Expr.accepted_congr e h
  | .pass, _ => Iff.rfl

theorem Stmts.accepted_congr : ∀ (ss : List Stmt), SameCalls c c' (Stmts.calls ss) →
    (Stmts.Accepted c ss ↔ Stmts.Accepted c' ss)
  | [], _ => Iff.rfl
  | s :: ss, h => and_congr (Stmt.accepted_congr s h.left) (Stmts.accepted_congr ss h.right)

theorem Arms.accepted_congr : ∀ (as : List (Expr × List Stmt)), SameCalls c c' (Arms.calls as) →
    (Arms.Accepted c as ↔ Arms.Accepted c' as)
  | [], _ => Iff.rfl
  | (cond, body) :: rest, h =>
    and_congr (Expr.accepted_congr cond h.left.left)
      (and_congr (Stmts.accepted_congr body h.left.right) (Arms.accepted_congr rest h.right))

end

end Acceptance

namespace Meaning
section Evaluation
variable {call call' : Calls}

/-- Two ways to call agree on the functions `fs`. -/
def Agree (call call' : Calls) (fs : List String) : Prop :=
  ∀ f ∈ fs, call f = call' f

theorem Agree.left {fs gs : List String} (h : Agree call call' (fs ++ gs)) : Agree call call' fs :=
  fun f hf => h f (List.mem_append_left gs hf)

theorem Agree.right {fs gs : List String} (h : Agree call call' (fs ++ gs)) : Agree call call' gs :=
  fun f hf => h f (List.mem_append_right fs hf)

mutual

theorem expr_congr : ∀ (e : Expr), Agree call call' e.calls → expr call e = expr call' e
  | .number _, _ => by simp only [expr]
  | .var _, _ => by simp only [expr]
  | .unary _ e, h => by simp only [expr, expr_congr e h]
  | .binary _ l r, h => by simp only [expr, expr_congr l h.left, expr_congr r h.right]
  | .call f args, h => by
    simp only [expr, h f List.mem_cons_self,
      exprs_congr args fun g hg => h g (List.mem_cons_of_mem f hg)]

theorem exprs_congr : ∀ (es : List Expr), Agree call call' (Exprs.calls es) →
    exprs call es = exprs call' es
  | [], _ => by simp only [exprs]
  | e :: es, h => by simp only [exprs, expr_congr e h.left, exprs_congr es h.right]

end

variable {w w' : World}

theorem printed_congr (hw : w.sink = w'.sink) (vs : List Int32) : printed w vs = printed w' vs := by
  unfold printed
  rw [hw]

mutual

theorem stmt_congr (hw : w.sink = w'.sink) (n : Nat) : ∀ (s : Stmt), Agree call call' s.calls →
    stmt w call n s = stmt w' call' n s
  | .assign _ e, h => by simp only [stmt, expr_congr e h]
  | .eval e, h => by simp only [stmt, expr_congr e h]
  | .branch cond body elifs otherwise, h => by
    simp only [stmt, expr_congr cond h.left.left.left, stmts_congr hw n body h.left.left.right,
      stmts_congr hw n otherwise h.right, arms_congr hw n elifs h.left.right]
  | .loop cond body, h => by
    simp only [stmt, expr_congr cond h.left, stmts_congr hw n body h.right]
  | .print args, h => by simp only [stmt, exprs_congr args h, printed_congr hw]
  | .ret e, h => by simp only [stmt, expr_congr e h]
  | .pass, _ => by simp only [stmt]

theorem stmts_congr (hw : w.sink = w'.sink) (n : Nat) : ∀ (ss : List Stmt),
    Agree call call' (Stmts.calls ss) → stmts w call n ss = stmts w' call' n ss
  | [], _ => by simp only [stmts]
  | s :: ss, h => by simp only [stmts, stmt_congr hw n s h.left, stmts_congr hw n ss h.right]

theorem arms_congr (hw : w.sink = w'.sink) (n : Nat) :
    ∀ (as : List (Expr × List Stmt)) {otherwise : Eval (Option Int32)},
      Agree call call' (Arms.calls as) → arms w call n otherwise as = arms w' call' n otherwise as
  | [], _, _ => by simp only [arms]
  | (cond, body) :: rest, _, h => by
    simp only [arms, expr_congr cond h.left.left, stmts_congr hw n body h.left.right,
      arms_congr hw n rest h.right]

end

end Evaluation

def names (ds : List FunctionDef) : List String :=
  ds.map (·.name)

def Selfcontained (ds : List FunctionDef) : Prop :=
  ∀ d ∈ ds, ∀ f ∈ Stmts.calls d.body, f ∈ names ds

section More
variable {ds more : List FunctionDef} {natives : List (String × Native)} {sink : Sink}

theorem find?_append (more : List FunctionDef) {f : String} (hf : f ∈ names ds) :
    ∃ d ∈ ds, ds.find? (·.name = f) = some d ∧ (ds ++ more).find? (·.name = f) = some d := by
  obtain ⟨d, hd, rfl⟩ := List.mem_map.1 hf
  have hsome : (ds.find? (·.name = d.name)).isSome := List.find?_isSome.2 ⟨d, hd, by simp⟩
  obtain ⟨d', hd'⟩ := Option.isSome_iff_exists.1 hsome
  exact ⟨d', List.mem_of_find?_eq_some hd', hd', by rw [List.find?_append, hd']; rfl⟩

/-- Definitions added at the end do not change a call of an earlier one. -/
theorem call_append (hds : Selfcontained ds) (n : Nat) : ∀ (depth : Nat) (f : String), f ∈ names ds →
    call ⟨ds, natives, sink⟩ n depth f = call ⟨ds ++ more, natives, sink⟩ n depth f := by
  induction n with
  | zero =>
    intro depth f _
    funext args text
    simp only [call]
  | succ n ih =>
    intro depth f hf
    funext args text
    obtain ⟨d, hd, h₁, h₂⟩ := find?_append more hf
    have hbody : stmts ⟨ds, natives, sink⟩ (call ⟨ds, natives, sink⟩ n (depth + 1)) n d.body =
        stmts ⟨ds ++ more, natives, sink⟩ (call ⟨ds ++ more, natives, sink⟩ n (depth + 1)) n d.body := by
      refine stmts_congr ?_ n d.body fun g hg => ih (depth + 1) g (hds d hd g hg)
      rfl
    simp only [call, h₁, h₂, hbody]
    rfl

theorem topLevel_append (hds : Selfcontained ds) (n : Nat) {ss : List Stmt}
    (hss : ∀ f ∈ Stmts.calls ss, f ∈ names ds) :
    topLevel ⟨ds, natives, sink⟩ n ss = topLevel ⟨ds ++ more, natives, sink⟩ n ss := by
  refine stmts_congr ?_ n ss fun f hf => call_append hds n 1 f (hss f hf)
  rfl

end More
end Meaning

mutual

def Stmt.NoReturn : Stmt → Prop
  | .assign .. | .eval _ | .print _ | .pass => True
  | .branch _ body elifs otherwise =>
    Stmts.NoReturn body ∧ Arms.NoReturn elifs ∧ Stmts.NoReturn otherwise
  | .loop _ body => Stmts.NoReturn body
  | .ret _ => False

def Stmts.NoReturn : List Stmt → Prop
  | [] => True
  | s :: ss => s.NoReturn ∧ Stmts.NoReturn ss

def Arms.NoReturn : List (Expr × List Stmt) → Prop
  | [] => True
  | (_, body) :: rest => Stmts.NoReturn body ∧ Arms.NoReturn rest

end

namespace Meaning
variable {w : World} {call : Calls} {n : Nat}

def GoesOn (x : Eval (Option Int32)) : Prop :=
  ∀ s r s', x s = some (.ok r, s') → r = none

theorem goesOn_pure : GoesOn (pure none) := by
  intro s r s' h
  cases h
  rfl

theorem GoesOn.bind {α : Type} (x : Eval α) {f : α → Eval (Option Int32)}
    (hf : ∀ a, GoesOn (f a)) : GoesOn (x >>= f) := by
  intro s r s' h
  rw [bind_apply] at h
  rcases hx : x s with _ | ⟨e | a, s₁⟩
  · simp [hx] at h
  · simp [hx] at h
  · rw [hx] at h
    exact hf a s₁ r s' h

theorem GoesOn.seq {x : Eval (Option Int32)} {f : Option Int32 → Eval (Option Int32)} (hx : GoesOn x)
    (hf : GoesOn (f none)) : GoesOn (x >>= f) := by
  intro s r s' h
  rw [bind_apply] at h
  rcases hrun : x s with _ | ⟨e | a, s₁⟩
  · simp [hrun] at h
  · simp [hrun] at h
  · obtain rfl := hx s a s₁ hrun
    rw [hrun] at h
    exact hf s₁ r s' h

theorem goesOn_ite {p : Prop} [Decidable p] {x y : Eval (Option Int32)} (hx : GoesOn x)
    (hy : GoesOn y) : GoesOn (if p then x else y) := by
  split
  · exact hx
  · exact hy

theorem goesOn_repeated (cond : Eval Int32) {body : Eval (Option Int32)} (hb : GoesOn body)
    (n : Nat) : GoesOn (repeated cond body n) := by
  induction n with
  | zero =>
    intro s r s' h
    cases h
  | succ n ih =>
    rw [repeated]
    exact .bind cond fun _ => goesOn_ite goesOn_pure (hb.seq ih)

mutual

theorem goesOn_stmt : ∀ s : Stmt, s.NoReturn → GoesOn (stmt w call n s)
  | .assign _ e, _ => by
    rw [stmt]
    exact .bind _ fun _ => .bind _ fun _ => goesOn_pure
  | .eval e, _ => by
    rw [stmt]
    exact .bind _ fun _ => goesOn_pure
  | .branch cond body elifs otherwise, h => by
    rw [stmt]
    exact .bind _ fun _ => goesOn_ite (goesOn_stmts body h.1)
      (goesOn_arms elifs (goesOn_stmts otherwise h.2.2) h.2.1)
  | .loop cond body, h => by
    rw [stmt]
    exact goesOn_repeated _ (goesOn_stmts body h) n
  | .print args, _ => by
    rw [stmt]
    exact .bind _ fun _ => .bind _ fun _ => goesOn_pure
  | .pass, _ => by
    rw [stmt]
    exact goesOn_pure

theorem goesOn_stmts : ∀ ss : List Stmt, Stmts.NoReturn ss → GoesOn (stmts w call n ss)
  | [], _ => by
    rw [stmts]
    exact goesOn_pure
  | s :: ss, h => by
    rw [stmts]
    exact (goesOn_stmt s h.1).seq (goesOn_stmts ss h.2)

theorem goesOn_arms : ∀ (as : List (Expr × List Stmt)) {otherwise : Eval (Option Int32)},
    GoesOn otherwise → Arms.NoReturn as → GoesOn (arms w call n otherwise as)
  | [], _, ho, _ => by
    rw [arms]
    exact ho
  | (cond, body) :: rest, _, ho, h => by
    rw [arms]
    exact .bind _ fun _ => goesOn_ite (goesOn_stmts body h.1) (goesOn_arms rest ho h.2)

end

/-- Statements without a return, and then others. -/
theorem stmts_append : ∀ (ss : List Stmt) (ss' : List Stmt) (s : Store), Stmts.NoReturn ss →
    stmts w call n (ss ++ ss') s = (stmts w call n ss >>= fun _ => stmts w call n ss') s
  | [], ss', s, _ => by
    simp only [stmts, List.nil_append, bind_apply]
    rfl
  | st :: ss, ss', s, h => by
    have hgo : GoesOn (stmt w call n st) := goesOn_stmt st h.1
    simp only [List.cons_append, stmts, bind_apply]
    rcases hrun : stmt w call n st s with _ | ⟨e | r, s₁⟩
    · rfl
    · rfl
    · obtain rfl := hgo s r s₁ hrun
      have ih := stmts_append ss ss' s₁ h.2
      rw [bind_apply] at ih
      exact ih

end Meaning
end IntLang
