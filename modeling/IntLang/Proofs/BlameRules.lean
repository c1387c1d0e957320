import IntLang.Proofs.Blame
import IntLang.Proofs.LockstepRules

/-! Every rule blames the first token that cannot be: what it has taken when it fails is the start of a
phrase. Statements and functions leave nothing held when they end. -/
namespace IntLang
open Grammar

/-- A phrase starts with these tokens, and can be completed by tokens that can be written down. -/
def Phrase.Begins (ph : Phrase) (ts : List Token) : Prop :=
  ∃ (t : Tree ph) (c : List Token), t.tokens = ts ++ c ∧ c.all Token.writable = true

theorem Tree.exists_zero (l : Level) : ∃ t : Tree (.expr l), t.tokens = [.number 0] := by
  have hunary : (Tree.unsigned (.base (.number 0))).tokens = [.number 0] := rfl
  have hchain {l : Level} (h : l.IsChain) (ht : ∃ t : Tree (.expr l.next), t.tokens = [.number 0]) :
      ∃ t : Tree (.expr l), t.tokens = [.number 0] := by
    obtain ⟨t, ht⟩ := ht
    exact ⟨.chain h t .done, by rw [Tree.tokens, ht]; rfl⟩
  have hmul := hchain (l := .multiplicative) trivial ⟨_, hunary⟩
  have hadd := hchain (l := .additive) trivial hmul
  have hcmp := hchain (l := .comparison) trivial hadd
  have hnot : ∃ t : Tree (.expr .not), t.tokens = [.number 0] := hcmp.imp' .affirmed fun _ h => h
  have hand := hchain (l := .and) trivial hnot
  cases l with
  | primary => exact ⟨.number 0, rfl⟩
  | power => exact ⟨.base (.number 0), rfl⟩
  | unary => exact ⟨_, hunary⟩
  | multiplicative => exact hmul
  | additive => exact hadd
  | comparison => exact hcmp
  | not => exact hnot
  | and => exact hand
  | or => exact hchain (l := .or) trivial hand

namespace Phrase
variable {ph ph' : Phrase} {ts us : List Token}

theorem Begins.within (h : ph.Begins us) (f : Tree ph → Tree ph') (post : List Token)
    (hf : ∀ t c, t.tokens = us ++ c → (f t).tokens = ts ++ (c ++ post))
    (hpost : post.all Token.writable = true) : ph'.Begins ts := by
  obtain ⟨t, c, ht, hc⟩ := h
  refine ⟨f t, c ++ post, hf t c ht, ?_⟩
  rw [List.all_append, hc, hpost]
  rfl

theorem Begins.of_tree (t : Tree ph) : ph.Begins t.tokens :=
  ⟨t, [], (List.append_nil _).symm, rfl⟩

theorem begins_nil (ph : Phrase) : ph.Begins [] := by
  have hzero (l : Level) : (expr l).Begins [] := by
    obtain ⟨t, ht⟩ := Tree.exists_zero l
    exact ⟨t, [.number 0], ht, rfl⟩
  cases ph with
  | expr l => exact hzero l
  | tail l => exact .of_tree .done
  | list => exact (hzero .or).within .last [] (by simp [Tree.tokens]) rfl
  | arguments => exact .of_tree .none
  | stmt => exact ⟨.pass, _, rfl, rfl⟩
  | block => exact .of_tree .empty
  | elifs => exact .of_tree .noElif
  | otherwise => exact .of_tree .noElse

end Phrase

namespace Parser
open Phrase

section Exprs
variable {u : Source} {inner : Parse Expr} {n : Nat}

def Blaming (ph : Phrase) (x : Parse ph.Value) : Prop :=
  ∀ u, Goes u .named x .usual ph.Begins

theorem exprList_goes (hs : Sound (.expr .or) inner) (hi : Blaming (.expr .or) inner) (n : Nat) :
    Blaming .list (exprList inner n) := by
  induction n with
  | zero => exact fun u => goes_tooDeep
  | succ n ih =>
    intro u
    refine Goes.phrase hs ((hi u).imp fun ts h => ?_) fun e t v => ?_
    · exact h.within .last [] (by simp [Tree.tokens]) rfl
    refine goes_eat (by simp) (by simp) ?_ ?_ (goes_pure _)
    · exact ⟨.last t, [], by simp [Tree.tokens], rfl⟩
    · refine Goes.phrase (exprList_sound hs n) ((ih _).of_clear.imp fun us h => ?_) fun es ts w => goes_pure _
      exact h.within (.comma t) [] (by simp +contextual [Tree.tokens]) rfl

theorem exprsUpTo_goes (hs : Sound (.expr .or) inner) (hi : Blaming (.expr .or) inner) (c : Symbol)
    (e : Expected) (n : Nat) (u : Source) :
    Goes u .named (exprsUpTo c e inner n) .clear Phrase.arguments.Begins := by
  refine goes_eat (by simp) (by simp) (begins_nil _) (goes_pure _) ?_
  refine Goes.phrase (exprList_sound hs n) ((exprList_goes hs hi n u).imp fun ts h => ?_) fun es t v => ?_
  · exact h.within .some [] (by simp [Tree.tokens]) rfl
  · refine goes_expectSymbol ?_ (goes_pure _)
    exact ⟨.some t, [], by simp [Tree.tokens], rfl⟩

theorem primary_goes (hs : Sound (.expr .or) inner) (hi : Blaming (.expr .or) inner) (n : Nat) :
    Blaming (.expr .primary) (primary inner n) := by
  intro u
  have hnil := begins_nil (.expr .primary)
  refine goes_current (by simp) hnil ?_
  cases ht : u.nextLexeme.1.token with
  | number value =>
    refine Goes.to_usual (goes_bump ht (by simp) hnil ?_)
    exact goes_pure _
  | ident name =>
    refine goes_expectIdent hnil fun name => ?_
    have hname : (Phrase.expr .primary).Begins [.ident name] := .of_tree (.var name)
    refine goes_eat (by simp [Hold.without, Hold.twice]) (by simp) hname ?_ (goes_pure _)
    refine (Goes.bind (exprsUpTo_sound hs _ _ n) ((exprsUpTo_goes hs hi _ _ n _).of_clear.imp fun us h => ?_)
      fun es ts v _ => goes_pure _).to_usual
    exact h.within (.call name) [.symbol .rparen] (by simp +contextual [Tree.tokens]) rfl
  | symbol s =>
    have hunexpected :
        Goes u .named (unexpected .expression : Parse Expr) .usual (Phrase.expr .primary).Begins :=
      (unexpected_goes _ hnil).of_named (by simp [ht])
    by_cases hparen : s = .lparen
    · subst hparen
      refine goes_bump ht (by simp) hnil ?_
      refine Goes.phrase hs ((hi _).of_clear.imp fun us h => ?_) fun e t v => ?_
      · exact h.within .paren [.symbol .rparen] (by simp +contextual [Tree.tokens]) rfl
      · refine Goes.to_usual (goes_expectSymbol ?_ ?_)
        · exact ⟨.paren t, [.symbol .rparen], by simp [Tree.tokens], rfl⟩
        · exact goes_pure _
    · cases s <;> first | exact hunexpected | exact absurd rfl hparen
  | keyword | invalid | endOfFile => exact (unexpected_goes _ hnil).of_named (by simp [ht])

theorem power_goes (hs : Sound (.expr .or) inner) (hi : Blaming (.expr .or) inner)
    (hus : Sound (.expr .unary) (unary inner n)) (hu : Blaming (.expr .unary) (unary inner n)) :
    Blaming (.expr .power) (power inner n) := by
  intro u
  refine Goes.phrase (primary_sound hs n) ((primary_goes hs hi n u).imp fun ts h => ?_) fun e t v => ?_
  · exact h.within .base [] (by simp [Tree.tokens]) rfl
  refine goes_eat (by simp) (by simp) ?_ ?_ (goes_pure _)
  · exact ⟨.base t, [], by simp [Tree.tokens], rfl⟩
  · refine Goes.phrase hus ((hu _).of_clear.imp fun us h => ?_) fun e' t' w => goes_pure _
    exact h.within (.raised t) [] (by simp +contextual [Tree.tokens]) rfl

theorem unary_goes (hs : Sound (.expr .or) inner) (hi : Blaming (.expr .or) inner) (n : Nat) :
    Blaming (.expr .unary) (unary inner n) := by
  induction n with
  | zero => exact fun u => goes_tooDeep
  | succ n ih =>
    intro u
    have hnil := begins_nil (.expr .unary)
    refine goes_current (by simp) hnil ?_
    cases hsign : signOf u.nextLexeme.1.token with
    | none =>
      refine (power_goes hs hi (unary_sound hs n) ih u).imp fun ts h => ?_
      exact h.within .unsigned [] (by simp [Tree.tokens]) rfl
    | some op =>
      have hsigned {t : Token} {f : Tree (.expr .unary) → Tree (.expr .unary)}
          (ht : u.nextLexeme.1.token = t) (hne : t ≠ .endOfFile)
          (hclear : Hold.named.without t = .clear) (hf : ∀ e, (f e).tokens = t :: e.tokens) :
          Goes u .named (bump >>= fun _ => unary inner n >>= fun e => pure (Expr.unary op e)) .usual
            (Phrase.expr .unary).Begins := by
        refine goes_bump ht hne hnil ?_
        rw [hclear]
        refine Goes.phrase (unary_sound hs n) ((ih _).of_clear.imp fun us h => ?_) fun e t v => goes_pure _
        exact h.within f [] (by simp +contextual [hf]) rfl
      unfold signOf at hsign
      split at hsign
      · next ht => exact hsigned ht (by simp) rfl (f := .minus) fun e => rfl
      · next ht => exact hsigned ht (by simp) rfl (f := .plus) fun e => rfl
      · cases hsign

theorem operatorBy_goes (l : Level) (u : Source) :
    Goes u .usual (operatorBy (operator? l)) .usual (tail l).Begins := by
  have hnil := begins_nil (tail l)
  refine goes_current (by simp) hnil ?_
  cases hop : operator? l u.nextLexeme.1.token with
  | none => exact goes_pure _
  | some op =>
    refine goes_bump rfl (operator?_spec hop).2.2 hnil ?_
    have hclear : Hold.usual.without u.nextLexeme.1.token = .clear := by
      refine if_neg fun htwice => ?_
      rcases Hold.twice_cases htwice with ht | ⟨hnamed, -⟩
      · rw [ht] at hop
        cases l <;> cases hop
      · cases hnamed
    rw [hclear]
    exact Goes.to_usual (goes_pure _)

theorem comparisonOperator_goes (u : Source) :
    Goes u .usual comparisonOperator .usual (tail .comparison).Begins := by
  have hnil := begins_nil (tail .comparison)
  rw [comparisonOperator_eq]
  refine goes_current (by simp) hnil ?_
  by_cases ht : u.nextLexeme.1.token = .keyword .not
  · rw [if_pos ht]
    obtain ⟨zero, hzero⟩ := Tree.exists_zero Level.comparison.next
    have hnot : (tail .comparison).Begins [.keyword .not] :=
      ⟨.more .notIn rfl zero .done, [.keyword .in_, .number 0], by simp [Tree.tokens, hzero, BinaryOp.tokens],
        rfl⟩
    refine goes_peek ht rfl hnil hnot ?_
    by_cases hin : u.nextLexeme.2.nextLexeme.1.token = .keyword .in_
    · rw [if_pos hin]
      refine goes_bump ht (by simp) hnil (goes_bump hin (by simp) hnot ?_)
      exact Goes.to_usual (goes_pure _)
    · rw [if_neg hin]
      exact goes_pure _
  · rw [if_neg ht]
    exact operatorBy_goes .comparison u

theorem operatorRule_goes (l : Level) (u : Source) :
    Goes u .usual (operatorRule l) .usual (tail l).Begins := by
  cases l with
  | comparison => exact comparisonOperator_goes u
  | _ => exact operatorBy_goes _ u

theorem leftAssocFrom_goes {l : Level} {x : Parse Expr} (hs : Sound (.expr l.next) x)
    (hx : Blaming (.expr l.next) x) (n : Nat) (lhs : Expr) (u : Source) :
    Goes u .usual (leftAssocFrom (operatorRule l) x n lhs) .usual (tail l).Begins := by
  induction n generalizing lhs u with
  | zero => exact goes_tooDeep
  | succ n ih =>
    refine Goes.bind (operatorRule_sound l) (operatorRule_goes l u) fun o ts v htaken => ?_
    rcases htaken with ⟨rfl, rfl⟩ | ⟨op, rfl, hlevel, rfl⟩
    · exact goes_pure lhs
    · refine Goes.phrase hs ((hx v).of_usual.imp fun us h => ?_) fun rhs t w => ?_
      · exact h.within (.more op hlevel · .done) [] (by simp +contextual [Tree.tokens]) rfl
      · refine (ih _ w).imp fun us h => ?_
        exact h.within (.more op hlevel t) [] (by simp +contextual [Tree.tokens]) rfl

theorem chain_goes {l : Level} (hl : l.IsChain) {k : Nat}
    (hs : Sound (.expr l.next) (rule inner n l.next n))
    (hx : Blaming (.expr l.next) (rule inner n l.next n)) : Blaming (.expr l) (rule inner n l k) := by
  intro u
  rw [rule_chain hl]
  refine Goes.phrase hs ((hx u).imp fun ts h => ?_) fun lhs t v => ?_
  · exact h.within (.chain hl · .done) [] (by simp [Tree.tokens]) rfl
  · refine (leftAssocFrom_goes hs hx n lhs v).imp fun us h => ?_
    exact h.within (.chain hl t) [] (by simp +contextual [Tree.tokens]) rfl

theorem negation_goes (hs : Sound (.expr .comparison) (comparison inner n))
    (hx : Blaming (.expr .comparison) (comparison inner n)) (k : Nat) :
    Blaming (.expr .not) (negation inner k n) := by
  induction k with
  | zero => exact fun u => goes_tooDeep
  | succ k ih =>
    intro u
    refine goes_eat (by simp) (by simp) (begins_nil _) ?_ ((hx u).imp fun ts h => ?_)
    · refine Goes.phrase (negation_sound hs k) ((ih _).of_usual.imp fun us h => ?_) fun e t v => goes_pure _
      exact h.within .not [] (by simp +contextual [Tree.tokens]) rfl
    · exact h.within .affirmed [] (by simp [Tree.tokens]) rfl

theorem disjunction_goes (hs : Sound (.expr .or) inner) (hi : Blaming (.expr .or) inner) (n : Nat) :
    Blaming (.expr .or) (disjunction inner n) := by
  have hunary : Sound (.expr .unary) (rule inner n .unary n) := unary_sound hs n
  have hmul := chain_sound (l := .multiplicative) (k := n) trivial hunary
  have hadd := chain_sound (l := .additive) (k := n) trivial hmul
  have hcmp := chain_sound (l := .comparison) (k := n) trivial hadd
  have hnot : Sound (.expr .not) (rule inner n .not n) := negation_sound hcmp n
  have hand := chain_sound (l := .and) (k := n) trivial hnot
  have hmul' := chain_goes (l := .multiplicative) (k := n) trivial hunary (unary_goes hs hi n)
  have hadd' := chain_goes (l := .additive) (k := n) trivial hmul hmul'
  have hcmp' := chain_goes (l := .comparison) (k := n) trivial hadd hadd'
  have hand' := chain_goes (l := .and) (k := n) trivial hnot (negation_goes hcmp hcmp' n)
  exact chain_goes (l := .or) (k := n) trivial hand hand'

theorem expr_goes (n : Nat) : Blaming (.expr .or) (expr n) := by
  induction n with
  | zero => exact fun u => goes_tooDeep
  | succ n ih => exact disjunction_goes (expr_sound n) ih n

end Exprs

section Statements
variable {u : Source} {st : Parse Stmt}

/-- A rule for statements that blames the first token that cannot be, and holds nothing when it is done. -/
def Closing (x : Parse Stmt) : Prop :=
  ∀ u, Goes u .usual x .clear stmt.Begins

theorem block_goes (hs : Sound .stmt st) (hst : Closing st) (others : List Keyword) (closer : Keyword)
    (n : Nat) (u : Source) : Goes u .usual (block st others closer n) .usual Phrase.block.Begins := by
  induction n generalizing u with
  | zero => exact goes_tooDeep
  | succ n ih =>
    refine goes_current (by simp) (begins_nil _) ?_
    by_cases hend : endsBlock others closer u.nextLexeme.1.token = true
    · rw [if_pos hend]
      exact goes_pure []
    · rw [if_neg hend]
      by_cases heof : u.nextLexeme.1.token = .endOfFile
      · rw [if_pos heof]
        exact unexpected_goes _ (begins_nil _)
      · rw [if_neg heof]
        refine Goes.phrase hs ((hst u).imp fun ts h => ?_) fun s t v => ?_
        · exact h.within (.cons · .empty) [] (by simp [Tree.tokens]) rfl
        · refine Goes.phrase (block_sound hs others closer n) ((ih v).of_clear.imp fun us h => ?_)
            fun ss t' w => goes_pure _
          exact h.within (.cons t) [] (by simp +contextual [Tree.tokens]) rfl

theorem arm_goes (hs : Sound .stmt st) (hst : Closing st) {good : List Token → Prop} (n : Nat)
    (hcond : ∀ ts, (Phrase.expr .or).Begins ts → good ts)
    (hbody : ∀ (cond : Tree (.expr .or)) us, Phrase.block.Begins us →
      good (cond.tokens ++ .symbol .colon :: us)) (u : Source) :
    Goes u .usual (arm st n) .usual good := by
  refine Goes.phrase (expr_sound n) ((expr_goes n u).of_usual.imp hcond) fun cond t v => ?_
  refine goes_expectSymbol ?_ ?_
  · rw [List.append_nil]
    exact hcond _ (.of_tree t)
  · refine Goes.phrase (block_sound hs _ _ n) ((block_goes hs hst _ _ n _).of_clear.imp ?_)
      fun body t' w => goes_pure _
    exact fun us h => hbody t us h

theorem elifs_goes (hs : Sound .stmt st) (hst : Closing st) (n : Nat) (u : Source) :
    Goes u .usual (elifs st n) .usual Phrase.elifs.Begins := by
  induction n generalizing u with
  | zero => exact goes_tooDeep
  | succ n ih =>
    refine goes_eat (by simp) (by simp) (begins_nil _) ?_ (goes_pure _)
    refine Goes.bind (arm_sound hs n) (arm_goes hs hst n ?_ ?_ _).of_clear ?_
    · intro ts h
      exact h.within (.elif · .empty .noElif) [.symbol .colon] (by simp +contextual [Tree.tokens]) rfl
    · intro cond us h
      exact h.within (.elif cond · .noElif) [] (by simp +contextual [Tree.tokens]) rfl
    · rintro a _ v ⟨cond, body, -, rfl⟩
      refine Goes.phrase (elifs_sound hs n) ((ih v).imp fun us h => ?_) fun as t w => goes_pure _
      exact h.within (.elif cond body) [] (by simp +contextual [Tree.tokens]) rfl

theorem fallback_goes (hs : Sound .stmt st) (hst : Closing st) (n : Nat) (u : Source) :
    Goes u .usual (fallback st n) .usual Phrase.otherwise.Begins := by
  refine goes_eat (by simp) (by simp) (begins_nil _) ?_ (goes_pure _)
  refine Goes.of_clear (goes_expectSymbol ?_ ?_)
  · exact ⟨.else_ .empty, [.symbol .colon], rfl, rfl⟩
  · refine (block_goes hs hst _ _ n _).of_clear.imp fun us h => ?_
    exact h.within .else_ [] (by simp +contextual [Tree.tokens]) rfl

theorem branch_goes (hs : Sound .stmt st) (hst : Closing st) (n : Nat) : Closing (branch st n) := by
  intro u
  rw [branch_eq]
  refine goes_expectKeyword (by simp) (begins_nil _) ?_
  refine Goes.bind (arm_sound hs n) (arm_goes hs hst n ?_ ?_ _).of_clear ?_
  · intro ts h
    exact h.within (.branch · .empty .noElif .noElse) [.symbol .colon, .keyword .endIf]
      (by simp +contextual [Tree.tokens]) rfl
  · intro cond us h
    exact h.within (.branch cond · .noElif .noElse) [.keyword .endIf]
      (by simp +contextual [Tree.tokens]) rfl
  · rintro a _ v ⟨cond, body, -, rfl⟩
    refine Goes.phrase (elifs_sound hs n) ((elifs_goes hs hst n v).imp fun us h => ?_) fun as arms w => ?_
    · exact h.within (.branch cond body · .noElse) [.keyword .endIf]
        (by simp +contextual [Tree.tokens]) rfl
    refine Goes.phrase (fallback_sound hs n) ((fallback_goes hs hst n w).imp fun us h => ?_)
      fun ss other z => ?_
    · exact h.within (.branch cond body arms) [.keyword .endIf] (by simp +contextual [Tree.tokens]) rfl
    · refine goes_expectKeyword (by simp) ?_ (goes_pure _)
      exact ⟨.branch cond body arms other, [.keyword .endIf], by simp [Tree.tokens], rfl⟩

theorem loop_goes (hs : Sound .stmt st) (hst : Closing st) (n : Nat) : Closing (loop st n) := by
  intro u
  refine goes_expectKeyword (by simp) (begins_nil _) ?_
  refine Goes.phrase (expr_sound n) ((expr_goes n _).of_clear.imp fun us h => ?_) fun e cond v => ?_
  · exact h.within (.loop · .empty) [.symbol .colon, .keyword .endWhile]
      (by simp +contextual [Tree.tokens]) rfl
  refine goes_expectSymbol ?_ ?_
  · exact ⟨.loop cond .empty, [.symbol .colon, .keyword .endWhile], by simp [Tree.tokens], rfl⟩
  refine Goes.phrase (block_sound hs _ _ n) ((block_goes hs hst _ _ n _).of_clear.imp fun us h => ?_)
    fun ss body w => ?_
  · exact h.within (.loop cond) [.keyword .endWhile] (by simp +contextual [Tree.tokens]) rfl
  · refine goes_expectKeyword (by simp) ?_ (goes_pure _)
    exact ⟨.loop cond body, [.keyword .endWhile], by simp [Tree.tokens], rfl⟩

theorem print_goes (n : Nat) : Closing (print n) := by
  intro u
  rw [print_eq]
  refine goes_expectKeyword (by simp) (begins_nil _) ?_
  refine Goes.bind (exprsUpTo_sound (expr_sound n) _ _ n)
    ((exprsUpTo_goes (expr_sound n) (expr_goes n) _ _ n _).of_clear.imp fun us h => ?_)
    fun es ts v _ => goes_pure _
  exact h.within .print [.symbol .semicolon] (by simp +contextual [Tree.tokens]) rfl

/-- An expression and the semicolon after it, in the place where a statement has them. -/
theorem goes_expr_semicolon {f : Expr → Unit → Stmt} {e : Expected} (g : Tree (.expr .or) → Tree .stmt)
    (pre : List Token) (hg : ∀ t, (g t).tokens = pre ++ (t.tokens ++ [Token.symbol .semicolon])) (n : Nat)
    (u : Source) :
    Goes u .named (expr n >>= fun a => expectSymbol .semicolon e >>= fun x => pure (f a x)) .clear
      fun us => stmt.Begins (pre ++ us) := by
  refine Goes.phrase (expr_sound n) ((expr_goes n u).imp fun us h => ?_) fun a t v => ?_
  · exact h.within g [.symbol .semicolon] (by simp +contextual [hg]) rfl
  · refine goes_expectSymbol ?_ (goes_pure _)
    exact ⟨g t, [.symbol .semicolon], by simp [hg], rfl⟩

theorem exprStatement_goes (n : Nat) (u : Source) :
    Goes u .named (exprStatement n) .clear stmt.Begins :=
  goes_expr_semicolon .eval [] (fun _ => rfl) n u

theorem assignment_goes (n : Nat) {name : String} (ht : u.nextLexeme.1.token = .ident name) :
    Goes u .usual (assignment n) .clear stmt.Begins := by
  obtain ⟨zero, hzero⟩ := Tree.exists_zero .or
  have hname : stmt.Begins [.ident name] :=
    ⟨.assign name zero, [.symbol .equal, .number 0, .symbol .semicolon], by simp [Tree.tokens, hzero], rfl⟩
  refine Goes.of_usual (goes_peek ht rfl (begins_nil _) hname ?_)
  by_cases heq : u.nextLexeme.2.nextLexeme.1.token = .symbol .equal
  · rw [if_pos heq]
    refine goes_expectIdent (begins_nil _) fun target => ?_
    refine goes_bump heq (by simp) ?_ ?_
    · exact ⟨.assign target zero, [.symbol .equal, .number 0, .symbol .semicolon],
        by simp [Tree.tokens, hzero], rfl⟩
    · exact (goes_expr_semicolon (.assign target) [.ident target, .symbol .equal] (fun _ => rfl) n _).of_clear
  · rw [if_neg heq]
    exact exprStatement_goes n u

theorem statement_goes (n : Nat) : Closing (statement n) := by
  induction n with
  | zero => exact fun u => goes_tooDeep
  | succ n ih =>
    intro u
    have hnil := begins_nil .stmt
    have hs := statement_sound n
    refine goes_current (by simp) hnil ?_
    cases ht : u.nextLexeme.1.token with
    | keyword w =>
      cases w with
      | if_ => exact branch_goes hs ih n u
      | while_ => exact loop_goes hs ih n u
      | print => exact print_goes n u
      | not => exact (exprStatement_goes n u).of_usual
      | return_ =>
        refine goes_bump ht (by simp) hnil ?_
        exact (goes_expr_semicolon .ret [.keyword .return_] (fun _ => rfl) n _).of_clear
      | pass =>
        refine goes_bump ht (by simp) hnil (Goes.of_clear (goes_expectSymbol ?_ ?_))
        · exact ⟨.pass, [.symbol .semicolon], rfl, rfl⟩
        · exact goes_pure _
      | _ => exact unexpected_goes _ hnil
    | ident name => exact assignment_goes n ht
    | endOfFile => exact unexpected_goes _ hnil
    | number | symbol | invalid => exact (exprStatement_goes n u).of_usual

end Statements

theorem exists_fresh (seen : List String) : ∃ name, name ∉ seen ∧ (Token.ident name).writable = true := by
  obtain ⟨k, hk⟩ : ∃ k, ∀ x ∈ seen, x.toList.length < k := by
    induction seen with
    | nil => exact ⟨0, by simp⟩
    | cons x seen ih =>
      obtain ⟨k, hk⟩ := ih
      refine ⟨k + x.toList.length + 1, List.forall_mem_cons.2 ⟨by omega, fun y hy => ?_⟩⟩
      have hlt := hk y hy
      omega
  refine ⟨String.ofList ('x' :: List.replicate k 'x'), fun hmem => ?_, ?_⟩
  · have hlt := hk _ hmem
    rw [String.toList_ofList, List.length_cons, List.length_replicate] at hlt
    omega
  · have hkeyword : Keyword.all.any (·.spelling.toList == 'x' :: List.replicate k 'x') = false := by
      rw [List.any_eq_false]
      intro w _ hw
      have hne : w.spelling.toList.head? ≠ some 'x' := by cases w <;> decide
      exact hne (by rw [beq_iff_eq.1 hw]; rfl)
    rw [Token.writable, String.toList_ofList, isName, hkeyword]
    simp [isNameStart, isNameChar]

end Parser

/-- Names of parameters, none of which is in `seen`, start with these tokens and can be completed. -/
def ParamsBegin (seen : List String) (ts : List Token) : Prop :=
  ∃ params c, params ≠ [] ∧ params.Nodup ∧ (∀ x ∈ params, x ∉ seen) ∧
    ItemTree.paramTokens params = ts ++ c ∧ c.all Token.writable = true

/-- An item starts with these tokens and can be completed, with no parameter named twice. -/
def ItemTree.Begins (ts : List Token) : Prop :=
  ∃ (i : ItemTree) (c : List Token), i.Distinct ∧ i.tokens = ts ++ c ∧ c.all Token.writable = true

namespace Parser
open Phrase

section Items
variable {u v : Source} {p p' : Parser}

theorem paramsBegin_nil (seen : List String) : ParamsBegin seen [] := by
  obtain ⟨name, hfresh, hwritable⟩ := exists_fresh seen
  refine ⟨[name], [.ident name], by simp, by simp, by simpa using hfresh, rfl, ?_⟩
  rw [List.all_cons, hwritable]
  rfl

theorem paramsBegin_cons {seen : List String} {param : String} {us : List Token}
    (h : ParamsBegin (param :: seen) us) (hseen : param ∉ seen) :
    ParamsBegin seen (.ident param :: .symbol .comma :: us) := by
  obtain ⟨params, c, hne, hnodup, hfresh, htokens, hc⟩ := h
  cases params with
  | nil => exact absurd rfl hne
  | cons x params =>
    refine ⟨param :: x :: params, c, by simp, ?_, ?_, ?_, hc⟩
    · exact List.nodup_cons.2 ⟨fun hmem => hfresh param hmem List.mem_cons_self, hnodup⟩
    · exact List.forall_mem_cons.2 ⟨hseen, fun y hy hmem => hfresh y hy (List.mem_cons_of_mem _ hmem)⟩
    · rw [ItemTree.paramTokens_cons_cons, htokens]
      rfl

theorem parameters_goes (function : String) (n : Nat) (seen : List String) (u : Source) :
    Goes u .usual (parameters function n seen) .usual (ParamsBegin seen) := by
  induction n generalizing seen u with
  | zero => exact goes_tooDeep
  | succ n ih =>
    have hnil := paramsBegin_nil seen
    refine goes_current (by simp) hnil (goes_expectIdent_at hnil fun param ht p hpast => ?_)
    by_cases hseen : param ∈ seen
    · rw [if_pos hseen]
      refine .error (.nil u) ⟨rfl, hpast.source.imp And.left fun hboth => ?_⟩ hnil
      rw [ht] at hboth
      cases hboth.1
    · rw [if_neg hseen]
      have hstands := hpast.stands
      rw [ht] at hstands
      have hparam : ParamsBegin seen [.ident param] :=
        ⟨[param], [], by simp, by simp, by simpa using hseen, rfl, rfl⟩
      refine Fate.back (.single ht (by simp)) (Goes.of_clear (h := .usual) ?_ hstands)
      refine goes_eat (by simp) (by simp) hparam ?_ (goes_pure _)
      exact ((ih (param :: seen) _).of_clear.imp fun us h => paramsBegin_cons h hseen).map (param :: ·)

theorem paramList_goes (function : String) (n : Nat) (u : Source) :
    Goes u .usual (paramList function n) .usual (ParamsBegin []) :=
  goes_check (by simp) (paramsBegin_nil []) (fun _ => goes_pure _) fun _ =>
    parameters_goes function n [] u

def signatureEnd : List Token :=
  [.symbol .rparen, .symbol .colon, .keyword .endDef]

/-- A function after the word `extern`, or without it. -/
theorem definition_goes (n : Nat) (exported : Bool) (u : Source) :
    Goes u .usual (definition n exported) .clear
      fun us => ItemTree.Begins ((if exported then [Token.keyword .extern_] else []) ++ us) := by
  refine goes_expectKeyword (by simp) ?_ (Goes.of_clear (h := .usual) (goes_expectIdent ?_ fun name => ?_))
  · exact ⟨.function exported "f" [] .empty, .keyword .def_ :: .ident "f" :: .symbol .lparen :: signatureEnd,
      List.nodup_nil, by simp [ItemTree.tokens, ItemTree.paramTokens, Tree.tokens, signatureEnd], rfl⟩
  · exact ⟨.function exported "f" [] .empty, .ident "f" :: .symbol .lparen :: signatureEnd, List.nodup_nil,
      by simp [ItemTree.tokens, ItemTree.paramTokens, Tree.tokens, signatureEnd], rfl⟩
  refine Goes.of_clear (goes_expectSymbol ?_ ?_)
  · exact ⟨.function exported name [] .empty, .symbol .lparen :: signatureEnd, List.nodup_nil,
      by simp [ItemTree.tokens, ItemTree.paramTokens, Tree.tokens, signatureEnd], rfl⟩
  refine Goes.bind (paramList_sound name n) ((paramList_goes name n _).of_clear.imp ?_) ?_
  · rintro us ⟨params, c, -, hnodup, -, htokens, hc⟩
    refine ⟨.function exported name params .empty, c ++ signatureEnd, hnodup,
      by simp [ItemTree.tokens, Tree.tokens, htokens, signatureEnd], ?_⟩
    rw [List.all_append, hc]
    rfl
  rintro params ts v ⟨hnodup, rfl⟩
  refine goes_expectSymbol ?_ (Goes.of_clear (goes_expectSymbol ?_ ?_))
  · exact ⟨.function exported name params .empty, signatureEnd, hnodup,
      by simp [ItemTree.tokens, Tree.tokens, signatureEnd], rfl⟩
  · exact ⟨.function exported name params .empty, [.symbol .colon, .keyword .endDef], hnodup,
      by simp [ItemTree.tokens, Tree.tokens], rfl⟩
  refine Goes.phrase (block_sound (statement_sound n) _ _ n)
    ((block_goes (statement_sound n) (statement_goes n) _ _ n _).of_clear.imp ?_) fun ss body w => ?_
  · rintro us ⟨t, c, htokens, hc⟩
    refine ⟨.function exported name params t, c ++ [Token.keyword .endDef], hnodup,
      by simp [ItemTree.tokens, htokens], ?_⟩
    rw [List.all_append, hc]
    rfl
  · refine goes_expectKeyword (by simp) ?_ (goes_pure _)
    exact ⟨.function exported name params body, [.keyword .endDef], hnodup, by simp [ItemTree.tokens], rfl⟩

theorem function_goes (n : Nat) (u : Source) : Goes u .usual (function n) .clear ItemTree.Begins := by
  rw [function_eq]
  refine goes_eat (by simp) (by simp) ?_ (definition_goes n true _).of_clear (definition_goes n false u)
  exact ⟨.function true "f" [] .empty, _, List.nodup_nil, rfl, rfl⟩

theorem itemWithin_goes (n : Nat) (hu : u.nextLexeme.1.token ≠ .endOfFile) :
    Goes u .usual (itemWithin n) .clear ItemTree.Begins := by
  have hnil : ItemTree.Begins [] := ⟨.statement .pass, _, trivial, rfl, rfl⟩
  have hfunction : Goes u .usual (function n >>= fun d => pure (some (Item.function d))) .clear
      ItemTree.Begins :=
    (function_goes n u).map _
  have hstatement : Goes u .usual (statement n >>= fun s => pure (some (Item.statement s))) .clear
      ItemTree.Begins := by
    refine ((statement_goes n u).imp ?_).map _
    rintro ts ⟨t, c, htokens, hc⟩
    exact ⟨.statement t, c, trivial, htokens, hc⟩
  refine goes_current (by simp) hnil ?_
  cases ht : u.nextLexeme.1.token with
  | endOfFile => exact absurd ht hu
  | keyword w =>
    cases w with
    | def_ | extern_ => exact hfunction
    | _ => exact hstatement
  | _ => exact hstatement

/-- At the end of the input there is no item. -/
theorem At.item_of_end (hp : At u .clear p) (hu : u.nextLexeme.1.token = .endOfFile) :
    ∃ p', item p = .ok none p' := by
  obtain ⟨p', hcurrent, -⟩ := (hp.of_clear .usual).keepCurrent (by simp)
  have hvalid : u.nextLexeme.1.token.Valid := by simp [hu, Token.Valid]
  rw [valid_of_valid hvalid] at hcurrent
  refine ⟨{ p' with finished := true }, ?_⟩
  rw [item_apply, itemWithin, bind_of_ok hcurrent, hu]
  rfl

/-- An item ends at the point after its last token, with nothing held. -/
theorem At.item_ok (hp : At u .clear p) {i : Item} (h : item p = .ok (some i) p') :
    ∃ (t : ItemTree) (v : Source), t.value = i ∧ t.Distinct ∧ u.Gives t.tokens v ∧ At v .clear p' := by
  by_cases hu : u.nextLexeme.1.token = .endOfFile
  · obtain ⟨q, hq⟩ := hp.item_of_end hu
    rw [h] at hq
    cases hq
  · have hfate := (itemWithin_goes p.bound hu).of_clear hp
    rw [← item_apply, h] at hfate
    cases hfate with
    | @ok _ _ ts v gives stands =>
      obtain ⟨hnone, -⟩ | ⟨t, hvalue, hdistinct, hrest⟩ := item_sound h
      · cases hnone
      · rw [hp.rest, stands.rest, gives.tokens] at hrest
        obtain rfl := List.append_cancel_right hrest
        exact ⟨t, v, (Option.some.inj hvalue).symm, hdistinct, gives, stands⟩

/-- An item that fails has taken the start of an item, and blames the token after it. -/
theorem At.item_error (hp : At u .clear p) {e : ParseError} (h : item p = .error e p') :
    ∃ ts v, u.Gives ts v ∧ Blames v e p' ∧ ItemTree.Begins ts := by
  by_cases hu : u.nextLexeme.1.token = .endOfFile
  · obtain ⟨q, hq⟩ := hp.item_of_end hu
    rw [h] at hq
    cases hq
  · have hfate := (itemWithin_goes p.bound hu).of_clear hp
    have hself := (paired_onBothSides p).item
    rw [← item_apply] at hfate
    rw [h] at hfate hself
    cases hfate with
    | error gives blames hgood => exact ⟨_, _, gives, blames, hgood⟩
    | tooDeep =>
      cases hself with
      | error _ _ he => exact absurd rfl he

end Items

end Parser
end IntLang
