import IntLang.Proofs.Lockstep

/-! Parsers whose sources are side by side take the same tokens, build the same trees and fail with the
same errors. Their bounds may differ: a rule with a bound above the number of tokens left never stops at
it, as each repetition and each level of nesting takes a token. -/
namespace IntLang
open Grammar

namespace Parser

section Exprs
variable {k : Pairing} {n f f' : Nat} {inner inner' : Parse Expr}

theorem exprList_takes (hi : ∀ m ≤ n, Takes k m inner inner') (hf : n < min f f') :
    Takes k n (exprList inner f) (exprList inner' f') := by
  induction f generalizing n f' with
  | zero => omega
  | succ f ih =>
    obtain ⟨f', rfl⟩ := exists_succ (Nat.lt_min.1 hf).2
    refine (hi n (Nat.le_refl n)).bind fun e m hm => keeps_eat (by simp) (fun j hj => ?_) (keeps_pure _)
    refine (Takes.bind (ih (fun i hij => hi i (by omega)) (by omega)) ?_).keeps
    exact fun es i hij => keeps_pure _

theorem exprsUpTo_takes (hi : ∀ m ≤ n, Takes k m inner inner') (hf : n < min f f') (c : Symbol)
    (e : Expected) : Takes k n (exprsUpTo c e inner f) (exprsUpTo c e inner' f') := by
  refine takes_eat (by simp) (fun m hm => keeps_pure _) ?_
  refine (exprList_takes hi hf).bind fun args m hm => ?_
  exact ((expectSymbol_takes c e m).bind fun _ j hj => keeps_pure _).keeps

theorem primary_takes (hi : ∀ m < n, Takes k m inner inner') (hf : n ≤ min f f') :
    Takes k n (primary inner f) (primary inner' f') := by
  refine alike_current? fun l l' hnear => ?_
  rw [hnear.token]
  cases ht : l.token with
  | number value => exact alike_bump_of_next (by simp) fun _ _ m hm => (keeps_pure _).below hm
  | ident name =>
    refine Takes.known ?_
    refine (expectIdent_takes _ n).bind fun name m hm => ?_
    refine keeps_eat (by simp) (fun j hj => ?_) (keeps_pure _)
    refine ((exprsUpTo_takes (fun i hij => hi i (by omega)) (by omega) _ _).bind ?_).keeps
    exact fun args i hij => keeps_pure _
  | symbol s =>
    by_cases hs : s = .lparen
    · subst hs
      refine alike_bump_of_next (by simp) fun _ _ m hm => Keeps.below ?_ hm
      refine ((hi m hm).bind fun e j hj => ?_).keeps
      exact ((expectSymbol_takes _ _ j).bind fun _ i hij => keeps_pure _).keeps
    · cases s <;> first | exact unexpected_alike _ | exact absurd rfl hs
  | keyword | invalid | endOfFile => exact unexpected_alike _

theorem power_takes (hi : ∀ m < n, Takes k m inner inner') (hf : n ≤ min f f')
    (hu : ∀ m < n, Takes k m (unary inner f) (unary inner' f')) :
    Takes k n (power inner f) (power inner' f') := by
  refine (primary_takes hi hf).bind fun base m hm => ?_
  refine keeps_eat (by simp) (fun j hj => ?_) (keeps_pure _)
  exact ((hu j (by omega)).bind fun exponent i hij => keeps_pure _).keeps

theorem unary_takes (hi : ∀ m < n, Takes k m inner inner') (hf : n < min f f') :
    Takes k n (unary inner f) (unary inner' f') := by
  induction f generalizing n f' with
  | zero => omega
  | succ f ih =>
    obtain ⟨f', rfl⟩ := exists_succ (Nat.lt_min.1 hf).2
    have hu : ∀ m < n, Takes k m (unary inner f) (unary inner' f') := fun m hm =>
      ih (fun i hij => hi i (by omega)) (by omega)
    refine alike_current? fun l l' hnear => ?_
    rw [hnear.token]
    cases hsign : signOf l.token with
    | some op =>
      have hne : l.token ≠ .endOfFile := by
        intro h
        rw [h] at hsign
        cases hsign
      refine alike_bump_of_next hne fun _ _ m hm => Keeps.below ?_ hm
      exact ((hu m hm).bind fun e j hj => keeps_pure _).keeps
    | none => exact (power_takes hi (by omega) hu).known

theorem operatorBy_alike (l : Level) (n : Nat) :
    Alike k (AtMost n) (operatorBy (operator? l)) (operatorBy (operator? l))
      fun o => Remains n o.isSome := by
  refine alike_current? fun x x' hnear => ?_
  rw [hnear.token]
  cases hop : operator? l x.token with
  | some op =>
    exact alike_bump_of_next (operator?_spec hop).2.2 fun _ _ m hm =>
      alike_pure fun _ hts => Nat.lt_of_le_of_lt hts hm
  | none => exact alike_pure fun _ hts => hts.1

theorem comparisonOperator_alike (n : Nat) :
    Alike k (AtMost n) comparisonOperator comparisonOperator fun o => Remains n o.isSome := by
  rw [comparisonOperator_eq]
  refine alike_current? fun l l' hnear => ?_
  rw [hnear.token]
  by_cases ht : l.token = .keyword .not
  · rw [if_pos ht, ht]
    refine alike_peek fun l₂ l₂' hnear => ?_
    rw [hnear.token]
    by_cases hin : l₂.token = .keyword .in_
    · rw [if_pos hin]
      refine alike_bump fun l₃ _ _ => alike_bump fun l₄ _ _ => alike_pure fun ts hts => ?_
      obtain ⟨⟨hlength, hnot⟩, hnext⟩ := hts
      rw [next_held_some] at hnot
      rw [held_some_of_ne (by simp [hnot])] at hlength hnext
      have htoken := hnext _ _ rfl
      rw [next_held_some, hin] at htoken
      rw [held_some_of_ne (by simp [htoken])] at hlength
      exact Nat.lt_of_succ_lt hlength
    · rw [if_neg hin]
      exact alike_pure fun _ hts => hts.1.1
  · rw [if_neg ht]
    exact (operatorBy_alike .comparison n).before fun _ hts => hts.1

theorem operatorRule_alike (l : Level) (n : Nat) :
    Alike k (AtMost n) (operatorRule l) (operatorRule l) fun o => Remains n o.isSome := by
  by_cases hl : l = .comparison
  · subst hl
    exact comparisonOperator_alike n
  · have hrule : operatorRule l = operatorBy (operator? l) := by
      cases l <;> first | rfl | exact absurd rfl hl
    rw [hrule]
    exact operatorBy_alike l n

theorem leftAssocFrom_keeps (l : Level) {x x' : Parse Expr} (hx : ∀ m < n, Takes k m x x')
    (hf : n < min f f') (lhs : Expr) :
    Keeps k n (leftAssocFrom (operatorRule l) x f lhs) (leftAssocFrom (operatorRule l) x' f' lhs) := by
  induction f generalizing n f' lhs with
  | zero => omega
  | succ f ih =>
    obtain ⟨f', rfl⟩ := exists_succ (Nat.lt_min.1 hf).2
    refine Alike.bind (operatorRule_alike l n) fun o => ?_
    cases o with
    | none => exact keeps_pure lhs
    | some op =>
      refine alike_below fun m hm => Alike.after (Takes.bind (hx m hm) fun rhs j hj => ?_)
        fun _ _ h => Nat.le_of_lt (Nat.lt_trans h hm)
      exact ih (fun i hij => hx i (by omega)) (by omega) _

theorem chain_takes {l : Level} (hl : l.IsChain) {j j' : Nat} (hf : n < min f f')
    (hx : ∀ m ≤ n, Takes k m (rule inner f l.next f) (rule inner' f' l.next f')) :
    Takes k n (rule inner f l j) (rule inner' f' l j') := by
  rw [rule_chain hl, rule_chain hl]
  refine (hx n (Nat.le_refl n)).bind fun lhs m hm => ?_
  exact leftAssocFrom_keeps l (fun i hij => hx i (by omega)) (by omega) lhs

theorem negation_takes {j j' : Nat} (hx : ∀ m ≤ n, Takes k m (comparison inner f) (comparison inner' f'))
    (hj : n < min j j') : Takes k n (negation inner j f) (negation inner' j' f') := by
  induction j generalizing n j' with
  | zero => omega
  | succ j ih =>
    obtain ⟨j', rfl⟩ := exists_succ (Nat.lt_min.1 hj).2
    refine takes_eat (by simp) (fun m hm => ?_) (hx n (Nat.le_refl n))
    refine (Takes.bind (ih (fun i hij => hx i (by omega)) (by omega)) ?_).keeps
    exact fun e i hij => keeps_pure _

theorem disjunction_takes (hi : ∀ m < n, Takes k m inner inner') (hf : n < min f f') :
    Takes k n (disjunction inner f) (disjunction inner' f') := by
  have hunary : ∀ m ≤ n, Takes k m (rule inner f .unary f) (rule inner' f' .unary f') := fun m hm =>
    unary_takes (fun i hij => hi i (by omega)) (by omega)
  have hchain {l : Level} (hl : l.IsChain)
      (hx : ∀ m ≤ n, Takes k m (rule inner f l.next f) (rule inner' f' l.next f')) :
      ∀ m ≤ n, Takes k m (rule inner f l f) (rule inner' f' l f') := fun m hm =>
    chain_takes hl (by omega) fun i hij => hx i (by omega)
  have hmul := hchain (l := .multiplicative) trivial hunary
  have hadd := hchain (l := .additive) trivial hmul
  have hcmp := hchain (l := .comparison) trivial hadd
  have hnot : ∀ m ≤ n, Takes k m (rule inner f .not f) (rule inner' f' .not f') := fun m hm =>
    negation_takes (fun i hij => hcmp i (by omega)) (by omega)
  have hand := hchain (l := .and) trivial hnot
  exact hchain (l := .or) trivial hand n (Nat.le_refl n)

theorem expr_takes (hf : n + 1 < min f f') : Takes k n (expr f) (expr f') := by
  induction f generalizing n f' with
  | zero => omega
  | succ f ih =>
    obtain ⟨f', rfl⟩ := exists_succ (Nat.lt_min.1 hf).2
    exact disjunction_takes (fun m hm => ih (by omega)) (by omega)

end Exprs

section Statements
variable {k : Pairing} {n f f' : Nat} {st st' : Parse Stmt}

theorem block_keeps (hs : ∀ m ≤ n, Takes k m st st') (hf : n < min f f')
    (others : List Keyword) (closer : Keyword) :
    Keeps k n (block st others closer f) (block st' others closer f') := by
  induction f generalizing n f' with
  | zero => omega
  | succ f ih =>
    obtain ⟨f', rfl⟩ := exists_succ (Nat.lt_min.1 hf).2
    refine alike_current? fun l l' hnear => Keeps.known ?_
    rw [hnear.token]
    by_cases hend : endsBlock others closer l.token = true
    · rw [if_pos hend, if_pos hend]
      exact keeps_pure []
    · rw [if_neg hend, if_neg hend]
      by_cases heof : l.token = .endOfFile
      · rw [if_pos heof, if_pos heof]
        exact unexpected_alike _
      · rw [if_neg heof, if_neg heof]
        refine ((hs n (Nat.le_refl n)).bind fun s m hm => ?_).keeps
        refine Alike.bind (ih (fun i hij => hs i (by omega)) (by omega)) fun ss => ?_
        exact keeps_pure _

theorem arm_takes (hs : ∀ m < n, Takes k m st st') (hf : n + 1 < min f f') :
    Takes k n (arm st f) (arm st' f') := by
  refine (expr_takes hf).bind fun cond m hm => ?_
  refine ((expectSymbol_takes _ _ m).bind fun _ j hj => ?_).keeps
  refine Alike.bind (block_keeps (fun i hij => hs i (by omega)) (by omega) _ _) fun body => ?_
  exact keeps_pure _

theorem elifs_keeps (hs : ∀ m < n, Takes k m st st') (hf : n + 1 < min f f') :
    Keeps k n (elifs st f) (elifs st' f') := by
  induction f generalizing n f' with
  | zero => omega
  | succ f ih =>
    obtain ⟨f', rfl⟩ := exists_succ (Nat.lt_min.1 hf).2
    refine keeps_eat (by simp) (fun m hm => ?_) (keeps_pure [])
    refine ((arm_takes (fun i hij => hs i (by omega)) (by omega)).bind fun a j hj => ?_).keeps
    refine Alike.bind (ih (fun i hij => hs i (by omega)) (by omega)) fun rest => ?_
    exact keeps_pure _

theorem fallback_keeps (hs : ∀ m < n, Takes k m st st') (hf : n < min f f') :
    Keeps k n (fallback st f) (fallback st' f') := by
  refine keeps_eat (by simp) (fun m hm => ?_) (keeps_pure [])
  refine ((expectSymbol_takes _ _ m).bind fun _ j hj => ?_).keeps
  exact block_keeps (fun i hij => hs i (by omega)) (by omega) _ _

theorem branch_takes (hs : ∀ m < n, Takes k m st st') (hf : n < min f f') :
    Takes k n (branch st f) (branch st' f') := by
  rw [branch_eq, branch_eq]
  refine (expectKeyword_takes _ n).bind fun _ m hm => ?_
  refine ((arm_takes (fun i hij => hs i (by omega)) (by omega)).bind fun a j hj => ?_).keeps
  refine Alike.bind (elifs_keeps (fun i hij => hs i (by omega)) (by omega)) fun arms => ?_
  refine Alike.bind (fallback_keeps (fun i hij => hs i (by omega)) (by omega)) fun ss => ?_
  exact ((expectKeyword_takes _ j).bind fun _ i hij => keeps_pure _).keeps

theorem loop_takes (hs : ∀ m < n, Takes k m st st') (hf : n < min f f') :
    Takes k n (loop st f) (loop st' f') := by
  refine (expectKeyword_takes _ n).bind fun _ m hm => ?_
  refine ((expr_takes (by omega)).bind fun cond j hj => ?_).keeps
  refine ((expectSymbol_takes _ _ j).bind fun _ i hij => ?_).keeps
  refine Alike.bind (block_keeps (fun i hij => hs i (by omega)) (by omega) _ _) fun body => ?_
  exact ((expectKeyword_takes _ i).bind fun _ _ _ => keeps_pure _).keeps

theorem print_takes (hf : n < min f f') : Takes k n (print f) (print f') := by
  rw [print_eq, print_eq]
  refine (expectKeyword_takes _ n).bind fun _ m hm => ?_
  refine Takes.keeps (Takes.bind (exprsUpTo_takes (fun i hi => ?_) (by omega) _ _)
    fun args j hj => keeps_pure _)
  exact expr_takes (by omega)

theorem exprStatement_takes (hf : n + 1 < min f f') :
    Takes k n (exprStatement f) (exprStatement f') := by
  refine (expr_takes hf).bind fun e m hm => ?_
  exact ((expectSymbol_takes _ _ m).bind fun _ _ _ => keeps_pure _).keeps

theorem assignment_takes (hf : n + 1 < min f f') :
    Takes k n (assignment f) (assignment f') := by
  refine alike_peek fun l l' hnear => ?_
  rw [hnear.token]
  by_cases heq : l.token = .symbol .equal
  · rw [if_pos heq, if_pos heq]
    refine Alike.bind (expectIdent_alike _) fun target => ?_
    have hequal : Alike k (fun ts => AtMost n ts ∧ next ts = .symbol .equal)
        (bump >>= fun _ => expr f >>= fun value => expectSymbol .semicolon .endOfAssignment >>= fun _ =>
          pure (Stmt.assign target value))
        (bump >>= fun _ => expr f' >>= fun value => expectSymbol .semicolon .endOfAssignment >>= fun _ =>
          pure (Stmt.assign target value)) fun _ => Below n := by
      refine alike_bump_of_next (by simp) fun _ _ m hm => Keeps.below ?_ hm
      refine ((expr_takes (by omega)).bind fun value j hj => ?_).keeps
      exact ((expectSymbol_takes _ _ j).bind fun _ _ _ => keeps_pure _).keeps
    refine hequal.before fun ts hts => ⟨Nat.le_of_succ_le hts.1, ?_⟩
    rw [hts.2 _ _ rfl, heq]
  · rw [if_neg heq, if_neg heq]
    exact (exprStatement_takes hf).before fun _ hts => hts.1

theorem statement_takes (hf : n + 2 < min f f') :
    Takes k n (statement f) (statement f') := by
  induction f generalizing n f' with
  | zero => omega
  | succ f ih =>
    obtain ⟨f', rfl⟩ := exists_succ (Nat.lt_min.1 hf).2
    have hs : ∀ m < n, Takes k m (statement f) (statement f') := fun m hm => ih (by omega)
    refine alike_current? fun l l' hnear => ?_
    rw [hnear.token]
    cases ht : l.token with
    | keyword w =>
      cases w with
      | if_ => exact (branch_takes hs (by omega)).known
      | while_ => exact (loop_takes hs (by omega)).known
      | print => exact (print_takes (by omega)).known
      | not => exact (exprStatement_takes (by omega)).known
      | return_ =>
        refine alike_bump_of_next (by simp) fun _ _ m hm => Keeps.below ?_ hm
        refine ((expr_takes (by omega)).bind fun value j hj => ?_).keeps
        exact ((expectSymbol_takes _ _ j).bind fun _ _ _ => keeps_pure _).keeps
      | pass =>
        refine alike_bump_of_next (by simp) fun _ _ m hm => Keeps.below ?_ hm
        exact ((expectSymbol_takes _ _ m).bind fun _ _ _ => keeps_pure _).keeps
      | _ => exact unexpected_alike _
    | ident x => exact (assignment_takes (by omega)).known
    | endOfFile => exact unexpected_alike _
    | number | symbol | invalid => exact (exprStatement_takes (by omega)).known

end Statements

section Items
variable {k : Pairing} {n f f' : Nat}

theorem parameters_takes (function : String) (hf : n < min f f') (seen : List String) :
    Takes k n (parameters function f seen) (parameters function f' seen) := by
  induction f generalizing n f' seen with
  | zero => omega
  | succ f ih =>
    obtain ⟨f', rfl⟩ := exists_succ (Nat.lt_min.1 hf).2
    refine alike_current? fun l l' hnear => Takes.known ?_
    refine (expectIdent_takes _ n).bind fun param m hm => ?_
    by_cases hseen : param ∈ seen
    · rw [if_pos hseen, if_pos hseen]
      exact alike_throw (.duplicateParameter param function hnear.position)
    · rw [if_neg hseen, if_neg hseen]
      refine keeps_eat (by simp) (fun j hj => ?_) (keeps_pure _)
      exact (Takes.bind (ih (by omega) _) fun rest i hij => keeps_pure _).keeps

theorem paramList_keeps (function : String) (hf : n < min f f') :
    Keeps k n (paramList function f) (paramList function f') := by
  refine Alike.bind (check_alike _) fun b => ?_
  cases b with
  | true => exact alike_pure fun _ hts => hts.1
  | false => exact (parameters_takes function hf []).keeps.before fun _ hts => hts.1

theorem function_takes (hf : n + 1 < min f f') : Takes k n (function f) (function f') := by
  rw [function_eq, function_eq]
  have heat : Keeps k n (eat (.keyword .extern_)) (eat (.keyword .extern_)) := by
    refine (eat_alike (by simp) n).after fun b ts hts => ?_
    cases b with
    | true => exact Nat.le_of_lt hts
    | false => exact hts
  refine Alike.bind heat fun exported => ?_
  refine (expectKeyword_takes _ n).bind fun _ m hm => ?_
  refine ((expectIdent_takes _ m).bind fun name j hj => ?_).keeps
  refine ((expectSymbol_takes _ _ j).bind fun _ i hij => ?_).keeps
  refine Alike.bind (paramList_keeps name (by omega)) fun params => ?_
  refine ((expectSymbol_takes _ _ i).bind fun _ a ha => ?_).keeps
  refine ((expectSymbol_takes _ _ a).bind fun _ b hb => ?_).keeps
  refine Alike.bind (block_keeps (fun c hc => statement_takes (by omega)) (by omega) _ _) fun body => ?_
  exact ((expectKeyword_takes _ b).bind fun _ _ _ => keeps_pure _).keeps

theorem itemWithin_alike (hf : n + 2 < min f f') :
    Alike k (AtMost n) (itemWithin f) (itemWithin f') fun o ts => o.isSome → Below n ts := by
  have hfunction : Takes k n (function f >>= fun d => pure (some (Item.function d)))
      (function f' >>= fun d => pure (some (Item.function d))) :=
    (function_takes (by omega)).bind fun _ _ _ => keeps_pure _
  have hstatement : Takes k n (statement f >>= fun s => pure (some (Item.statement s)))
      (statement f' >>= fun s => pure (some (Item.statement s))) :=
    (statement_takes hf).bind fun _ _ _ => keeps_pure _
  refine alike_current? fun l l' hnear => ?_
  rw [hnear.token]
  cases l.token with
  | endOfFile =>
    intro n p q hpq _
    refine .ok (Nat.le_refl n) hpq.left (by simp) fun _ => ⟨_, rfl, ?_⟩
    exact ⟨hpq.left, hpq.right, hpq.current, hpq.lookahead⟩
  | keyword w =>
    cases w with
    | def_ | extern_ => exact hfunction.known.after fun _ _ h _ => h
    | _ => exact hstatement.known.after fun _ _ h _ => h
  | _ => exact hstatement.known.after fun _ _ h _ => h

end Items

def onBothSides (s : Source) : Pairing :=
  ⟨Eq, fun p => ⟨p, rfl⟩, s, s⟩

theorem same_onBothSides (s : Source) (n : Nat) : (onBothSides s).Same n :=
  fun _ _ => ⟨rfl, rfl⟩

theorem eq_of_near_eq {l l' : Lexeme} (h : l.Near Eq l') : l' = l := by
  obtain ⟨htoken, hposition⟩ := h
  cases l
  cases l'
  cases htoken
  cases hposition
  rfl

theorem eq_of_rel_eq {o o' : Option Lexeme} (h : Option.Rel (Lexeme.Near Eq) o o') : o' = o := by
  cases h with
  | none => rfl
  | some h => rw [eq_of_near_eq h]

theorem paired_onBothSides (p : Parser) : Paired (onBothSides p.source) 0 p p := by
  have hrel (o : Option Lexeme) : Option.Rel (Lexeme.Near Eq) o o := by
    cases o with
    | none => exact .none
    | some l => exact .some ⟨rfl, rfl⟩
  exact ⟨rfl, fun _ => rfl, fun _ => hrel _, fun _ => hrel _⟩

/-- What a rule does on one source may be put in the place of what it does with another bound. -/
theorem Follows.trans_onBothSides {α : Type} {k : Pairing} {s : Source} {n i : Nat}
    {post post' : α → List Token → Prop} {r r' r'' : EStateM.Result ParseError Parser α}
    (h : Follows k n post r r') (h' : Follows (onBothSides s) i post' r' r'') :
    Follows k n post r r'' := by
  cases h with
  | @ok a p _ m hm hp hpost h =>
    refine .ok hm hp hpost fun hs => ?_
    obtain ⟨q, rfl, hpair⟩ := h hs
    cases h' with
    | @ok _ _ _ j _ hleft _ hright =>
      obtain ⟨q', rfl, hself⟩ := hright (same_onBothSides s j)
      have hs' := same_onBothSides s j
      have hsource : q'.source = q.source := (hself.right hs').trans hleft.symm
      have hcurrent := eq_of_rel_eq (hself.current hs')
      have hlookahead := eq_of_rel_eq (hself.lookahead hs')
      refine ⟨q', rfl, hpair.left, ?_, ?_, ?_⟩
      · rw [hsource]
        exact hpair.right
      · rw [hcurrent]
        exact hpair.current
      · rw [hlookahead]
        exact hpair.lookahead
  | error hm hp he h =>
    refine .error hm hp he fun hs => ?_
    obtain ⟨e', q, rfl, hnear⟩ := h hs
    cases h' with
    | @error _ _ _ j _ _ _ hright =>
      obtain ⟨e'', q', rfl, hself⟩ := hright (same_onBothSides s j)
      refine ⟨e'', q', rfl, ?_⟩
      cases hself with
      | invalid e hp => exact hp ▸ hnear
      | mismatch expected found hp => exact hp ▸ hnear
      | duplicateParameter param function hp => exact hp ▸ hnear

/-- Both sides find the same next item, and an item takes a token at least. -/
theorem Paired.item {k : Pairing} {n : Nat} {p q : Parser} (h : Paired k n p q) :
    Follows k n (fun o ts => o.isSome → Below p.rest.length ts) (Parser.item p) (Parser.item q) := by
  have hp := p.length_rest_lt
  have hq := q.length_rest_lt
  have hboth : Follows k n (fun o ts => o.isSome → Below p.rest.length ts) (itemWithin p.bound p)
      (itemWithin (p.bound + q.bound) q) := itemWithin_alike (by omega) h (Nat.le_refl _)
  have hself : Follows (onBothSides q.source) 0 (fun o ts => o.isSome → Below q.rest.length ts)
      (itemWithin (p.bound + q.bound) q) (itemWithin q.bound q) :=
    itemWithin_alike (by omega) (paired_onBothSides q) (Nat.le_refl _)
  rw [item_apply, item_apply]
  exact hboth.trans_onBothSides hself

end Parser

def ParseError.down (k : Nat) : ParseError → ParseError
  | .invalid e p => .invalid e (p.down k)
  | .mismatch expected found p => .mismatch expected found (p.down k)
  | .duplicateParameter param function p => .duplicateParameter param function (p.down k)
  | .tooDeep => .tooDeep

@[simp] theorem ParseError.down_zero (e : ParseError) : e.down 0 = e := by
  cases e <;> rfl

theorem Source.Beside.tokens {k : Nat} {s t : Source} (h : Source.Beside k s t) :
    t.tokens = s.tokens := by
  have hdown : (fun l : Lexeme => l.token) ∘ Lexeme.down k = fun l => l.token := rfl
  rw [Source.tokens, Source.tokens, h.lexemes, List.map_map, hdown]

theorem Source.Beside.after {k : Nat} {s t : Source} (h : Source.Beside k s t) (n : Nat) :
    Source.Beside k (s.after n) (t.after n) := by
  induction n generalizing s t with
  | zero => exact h
  | succ n ih => exact ih h.nextLexeme.2

namespace Parser

/-- The right source has its tokens `k` lines further down. -/
def linesApart (k : Nat) (s t : Source) : Pairing :=
  ⟨fun p q => q = p.down k, fun p => ⟨p.down k, rfl⟩, s, t⟩

theorem near_linesApart {k : Nat} {l l' : Lexeme} :
    l.Near (fun p q => q = p.down k) l' ↔ l' = l.down k := by
  constructor
  · intro h
    cases l'
    cases h.token
    cases h.position
    rfl
  · rintro rfl
    exact ⟨rfl, rfl⟩

theorem rel_linesApart {k : Nat} {o o' : Option Lexeme} :
    Option.Rel (Lexeme.Near fun p q => q = p.down k) o o' ↔ o' = o.map (Lexeme.down k) := by
  constructor
  · intro h
    cases h with
    | none => rfl
    | some h => rw [near_linesApart.1 h, Option.map_some]
  · rintro rfl
    cases o with
    | none => exact .none
    | some l => exact .some (near_linesApart.2 rfl)

theorem eq_down_of_near {k : Nat} {e e' : ParseError} (h : e.Near (fun p q => q = p.down k) e') :
    e' = e.down k := by
  cases h with
  | invalid e h => rw [h]; rfl
  | mismatch expected found h => rw [h]; rfl
  | duplicateParameter param function h => rw [h]; rfl

/-- `q` reads what `p` reads, `k` lines further down. -/
structure Beside (k : Nat) (p q : Parser) : Prop where
  source : Source.Beside k p.source q.source
  current : q.current = p.current.map (Lexeme.down k)
  lookahead : q.lookahead = p.lookahead.map (Lexeme.down k)

theorem held_down (k : Nat) (l : Option Lexeme) (ts : List Token) :
    held (l.map (Lexeme.down k)) ts = held l ts := by
  cases l <;> rfl

theorem Beside.rest {k : Nat} {p q : Parser} (h : Beside k p q) : q.rest = p.rest := by
  rw [Parser.rest, Parser.rest, h.current, h.lookahead, held_down, held_down, h.source.tokens]

/-- Two outcomes are the same: a value and parsers side by side, of whose rest `post` holds; or an error,
but not that a bound is used up. -/
inductive Agree {α : Type} (k : Nat) (post : α → List Token → Prop) :
    EStateM.Result ParseError Parser α → EStateM.Result ParseError Parser α → Prop where
  | ok {a : α} {p q : Parser} (h : Beside k p q) (hpost : post a p.rest) :
      Agree k post (.ok a p) (.ok a q)
  | error {e : ParseError} {p q : Parser} (h : e ≠ .tooDeep) :
      Agree k post (.error e p) (.error (e.down k) q)

/-- Parsers side by side find the same next item, and an item takes a token at least. -/
theorem Beside.item {k : Nat} {p q : Parser} (h : Beside k p q) :
    Agree k (fun o ts => o.isSome → Below p.rest.length ts) (Parser.item p) (Parser.item q) := by
  have hsame (n : Nat) : (linesApart k p.source q.source).Same n := fun i _ =>
    near_linesApart.2 (h.source.after i).nextLexeme.1
  have hpair : Paired (linesApart k p.source q.source) 0 p q :=
    ⟨rfl, fun _ => rfl, fun _ => rel_linesApart.2 h.current, fun _ => rel_linesApart.2 h.lookahead⟩
  have hfollows := hpair.item
  revert hfollows
  generalize Parser.item p = r
  generalize Parser.item q = r'
  intro hfollows
  cases hfollows with
  | @ok a p' _ m _ hp hpost hright =>
    obtain ⟨q', rfl, hpair'⟩ := hright (hsame m)
    refine .ok ⟨?_, rel_linesApart.1 (hpair'.current (hsame m)),
      rel_linesApart.1 (hpair'.lookahead (hsame m))⟩ hpost
    rw [hp, hpair'.right (hsame m)]
    exact h.source.after m
  | @error e p' _ m _ _ he hright =>
    obtain ⟨e', q', rfl, hnear⟩ := hright (hsame m)
    rw [eq_down_of_near hnear]
    exact .error he

end Parser
end IntLang
