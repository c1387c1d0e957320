import IntLang.Proofs.TokenStream

/-! What a parser accepts, the grammar derives. A rule that succeeds has read the tokens of a derivation tree,
and returns the value of that tree. -/
namespace IntLang
open Grammar

namespace Parser

/-- A rule that reads such tokens and nothing else. -/
def Consumes {α : Type} (x : Parse α) (P : α → List Token → Prop) : Prop :=
  ∀ r, Leaves r x fun a r' => ∃ ts, P a ts ∧ r = ts ++ r'

def Sound (s : Phrase) (x : Parse s.Value) : Prop :=
  Consumes x fun a ts => ∃ t : Tree s, t.value = a ∧ t.tokens = ts

section Rules
variable {α : Type} {r : List Token} {s : Phrase} {Q : α → List Token → Prop}

theorem Sound.bind {x : Parse s.Value} {f : s.Value → Parse α} (hs : Sound s x)
    (hf : ∀ (t : Tree s) r', r = t.tokens ++ r' → Leaves r' (f t.value) Q) : Leaves r (x >>= f) Q := by
  refine (hs r).bind ?_
  rintro _ r' ⟨_, ⟨t, rfl, rfl⟩, hr⟩
  exact hf t r' hr

theorem Sound.imp {x : Parse s.Value} {Q : s.Value → List Token → Prop} (hs : Sound s x)
    (hQ : ∀ (t : Tree s) r', r = t.tokens ++ r' → Q t.value r') : Leaves r x Q := by
  intro p a p' hp h
  obtain ⟨_, ⟨t, rfl, rfl⟩, hr⟩ := hs r p a p' hp h
  exact hQ t _ hr

theorem leaves_tree {r' : List Token} (t : Tree s) (h : r = t.tokens ++ r') :
    Leaves r' (pure t.value) fun a r' => ∃ ts, (∃ t : Tree s, t.value = a ∧ t.tokens = ts) ∧ r = ts ++ r' :=
  .pure ⟨_, ⟨t, rfl, rfl⟩, h⟩

end Rules

def exprsUpTo (c : Symbol) (e : Expected) (inner : Parse Expr) (n : Nat) : Parse (List Expr) := do
  if ← eat (.symbol c) then return []
  else
    let args ← exprList inner n
    expectSymbol c e
    return args

section Exprs
variable {inner : Parse Expr}

theorem exprList_sound (hi : Sound (.expr .or) inner) (n : Nat) : Sound .list (exprList inner n) := by
  induction n with
  | zero => exact fun r => leaves_throw
  | succ n ih =>
    intro r
    refine hi.bind ?_
    rintro t r rfl
    refine leaves_eat (by simp) ?_ (leaves_tree (.last t) rfl)
    rintro r rfl
    refine ih.bind ?_
    rintro ts r rfl
    exact leaves_tree (.comma t ts) (by simp [Tree.tokens])

theorem exprsUpTo_sound (hi : Sound (.expr .or) inner) (c : Symbol) (e : Expected) (n : Nat) :
    Consumes (exprsUpTo c e inner n) fun es ts =>
      ∃ t : Tree .arguments, t.value = es ∧ t.tokens ++ [Token.symbol c] = ts := by
  intro r
  refine leaves_eat (by simp) ?_ ((exprList_sound hi n).bind ?_)
  · rintro r rfl
    exact .pure ⟨_, ⟨.none, rfl, rfl⟩, rfl⟩
  · rintro t r rfl
    refine leaves_symbol ?_
    rintro r rfl
    exact .pure ⟨_, ⟨.some t, rfl, rfl⟩, by simp [Tree.tokens]⟩

theorem primary_sound (hi : Sound (.expr .or) inner) (n : Nat) :
    Sound (.expr .primary) (primary inner n) := by
  intro r
  refine leaves_current fun l hl => ?_
  cases ht : l.token with
  | number value =>
    refine leaves_token (hl.symm.trans ht) (by simp) ?_
    rintro _ r rfl
    exact leaves_tree (.number value) rfl
  | ident name =>
    refine leaves_ident ?_
    rintro name r rfl
    refine leaves_eat (by simp) ?_ (leaves_tree (.var name) rfl)
    rintro r rfl
    refine Leaves.bind (exprsUpTo_sound hi .rparen .endOfArguments n r) ?_
    rintro _ r ⟨_, ⟨t, rfl, rfl⟩, rfl⟩
    exact leaves_tree (.call name t) (by simp [Tree.tokens])
  | symbol s =>
    by_cases hs : s = .lparen
    · subst hs
      refine leaves_token (hl.symm.trans ht) (by simp) ?_
      rintro _ r rfl
      refine hi.bind ?_
      rintro t r rfl
      refine leaves_symbol ?_
      rintro r rfl
      exact leaves_tree (.paren t) (by simp [Tree.tokens])
    · cases s <;> first | exact leaves_unexpected | exact absurd rfl hs
  | keyword | invalid | endOfFile => exact leaves_unexpected

def power (inner : Parse Expr) (n : Nat) : Parse Expr := do
  let base ← primary inner n
  if ← eat (.symbol .starStar) then
    let exponent ← unary inner n
    return .binary .pow base exponent
  else return base

theorem power_sound (hi : Sound (.expr .or) inner) {n : Nat}
    (hu : Sound (.expr .unary) (unary inner n)) : Sound (.expr .power) (power inner n) := by
  intro r
  refine (primary_sound hi n).bind ?_
  rintro t r rfl
  refine leaves_eat (by simp) ?_ (leaves_tree (.base t) rfl)
  rintro r rfl
  refine hu.bind ?_
  rintro t' r rfl
  exact leaves_tree (.raised t t') (by simp [Tree.tokens])

theorem unary_sound (hi : Sound (.expr .or) inner) (n : Nat) :
    Sound (.expr .unary) (unary inner n) := by
  induction n with
  | zero => exact fun r => leaves_throw
  | succ n ih =>
    intro r
    refine leaves_current fun l hl => ?_
    cases hsign : signOf l.token with
    | some op =>
      have hne : l.token ≠ .endOfFile := by
        intro ht
        rw [ht] at hsign
        cases hsign
      refine leaves_token hl.symm hne ?_
      rintro _ r rfl
      refine ih.bind ?_
      rintro t r rfl
      unfold signOf at hsign
      split at hsign
      · next ht =>
        cases hsign
        exact leaves_tree (.minus t) (by rw [ht]; rfl)
      · next ht =>
        cases hsign
        exact leaves_tree (.plus t) (by rw [ht]; rfl)
      · cases hsign
    | none => exact (power_sound hi ih).imp fun t r' hr => ⟨_, ⟨.unsigned t, rfl, rfl⟩, hr⟩

end Exprs

def operator? : Level → Token → Option BinaryOp
  | .or => orOp
  | .and => andOp
  | .comparison => comparisonOp
  | .additive => additiveOp
  | .multiplicative => multiplicativeOp
  | .not | .unary | .power | .primary => fun _ => none

def operatorRule : Level → OperatorRule
  | .comparison => comparisonOperator
  | l => operatorBy (operator? l)

/-- The rule for expressions of a level. Negations have a bound `k` of their own. -/
def rule (inner : Parse Expr) (n : Nat) : Level → Nat → Parse Expr
  | .or, _ => disjunction inner n
  | .and, _ => conjunction inner n
  | .not, k => negation inner k n
  | .comparison, _ => comparison inner n
  | .additive, _ => additive inner n
  | .multiplicative, _ => multiplicative inner n
  | .unary, _ => unary inner n
  | .power, _ => power inner n
  | .primary, _ => primary inner n

/-- Operands and operators of a level have rules of their own. -/
theorem rule_chain {l : Level} (h : l.IsChain) (inner : Parse Expr) (n k : Nat) :
    rule inner n l k = leftAssoc (operatorRule l) (rule inner n l.next n) n := by
  cases l with
  | or | and | comparison | additive | multiplicative => rfl
  | not | unary | power | primary => exact h.elim

section Levels
variable {l : Level} {inner : Parse Expr}

theorem operator?_spec {t : Token} {op : BinaryOp} (h : operator? l t = some op) :
    op.level = l ∧ op.tokens = [t] ∧ t ≠ .endOfFile := by
  cases l with
  | or | and | comparison | additive | multiplicative =>
    simp only [operator?, orOp, andOp, comparisonOp, additiveOp, multiplicativeOp] at h
    split at h <;> cases h <;> exact ⟨rfl, rfl, by simp⟩
  | not | unary | power | primary => cases h

def OperatorSound (l : Level) (x : OperatorRule) : Prop :=
  Consumes x fun o ts => o = none ∧ ts = [] ∨ ∃ op, o = some op ∧ op.level = l ∧ ts = op.tokens

theorem operatorBy_sound (l : Level) : OperatorSound l (operatorBy (operator? l)) := by
  intro r
  refine leaves_current fun l' hl => ?_
  cases hop : operator? l l'.token with
  | none => exact .pure ⟨[], .inl ⟨rfl, rfl⟩, rfl⟩
  | some op =>
    obtain ⟨hlevel, htokens, hne⟩ := operator?_spec hop
    refine leaves_token hl.symm hne ?_
    rintro _ r rfl
    exact .pure ⟨_, .inr ⟨op, rfl, hlevel, htokens.symm⟩, rfl⟩

/-- Only a negation is not an operator by itself. -/
theorem comparisonOperator_eq : comparisonOperator = (do
    let l ← current?
    if l.token = .keyword .not then
      if (← peek).token = .keyword .in_ then
        let _ ← bump
        let _ ← bump
        return some .notIn
      else return none
    else operatorBy (operator? .comparison)) := by
  unfold comparisonOperator
  refine bind_congr fun l => ?_
  cases l.token with
  | keyword k => cases k <;> rfl
  | _ => rfl

theorem comparisonOperator_sound : OperatorSound .comparison comparisonOperator := by
  intro r
  rw [comparisonOperator_eq]
  refine leaves_current fun l hl => ?_
  by_cases ht : l.token = .keyword .not
  · rw [if_pos ht]
    obtain ⟨r, rfl⟩ := eq_cons_of_next (hl.symm.trans ht) (by simp)
    refine leaves_peek fun l' hl' => ?_
    by_cases hin : l'.token = .keyword .in_
    · rw [if_pos hin]
      refine leaves_token rfl (by simp) ?_
      rintro _ _ ⟨⟩
      refine leaves_token (hl'.symm.trans hin) (by simp) ?_
      rintro _ r rfl
      exact .pure ⟨_, .inr ⟨.notIn, rfl, rfl, rfl⟩, rfl⟩
    · rw [if_neg hin]
      exact .pure ⟨[], .inl ⟨rfl, rfl⟩, rfl⟩
  · rw [if_neg ht]
    exact operatorBy_sound .comparison r

theorem operatorRule_sound (l : Level) : OperatorSound l (operatorRule l) := by
  cases l with
  | comparison => exact comparisonOperator_sound
  | _ => exact operatorBy_sound _

theorem leftAssocFrom_sound {operator : OperatorRule} {operand : Parse Expr}
    (ho : OperatorSound l operator) (hx : Sound (.expr l.next) operand) (n : Nat) (lhs : Expr) :
    Consumes (leftAssocFrom operator operand n lhs) fun e ts =>
      ∃ t : Tree (.tail l), t.value lhs = e ∧ t.tokens = ts := by
  induction n generalizing lhs with
  | zero => exact fun r => leaves_throw
  | succ n ih =>
    intro r
    refine (ho r).bind ?_
    rintro _ r ⟨_, ⟨rfl, rfl⟩ | ⟨op, rfl, hlevel, rfl⟩, rfl⟩
    · exact .pure ⟨_, ⟨.done, rfl, rfl⟩, rfl⟩
    · refine hx.bind ?_
      rintro t r rfl p e p' hp h
      obtain ⟨_, ⟨ts, rfl, rfl⟩, rfl⟩ := ih _ r p e p' hp h
      exact ⟨_, ⟨.more op hlevel t ts, rfl, rfl⟩, by simp [Tree.tokens]⟩

theorem chain_sound (hl : l.IsChain) {n k : Nat} (hx : Sound (.expr l.next) (rule inner n l.next n)) :
    Sound (.expr l) (rule inner n l k) := by
  intro r
  rw [rule_chain hl]
  refine hx.bind ?_
  rintro t r rfl p e p' hp h
  obtain ⟨_, ⟨ts, rfl, rfl⟩, rfl⟩ := leftAssocFrom_sound (operatorRule_sound l) hx n t.value r p e p' hp h
  exact ⟨_, ⟨.chain hl t ts, rfl, rfl⟩, by simp [Tree.tokens]⟩

theorem negation_sound {n : Nat} (hx : Sound (.expr .comparison) (comparison inner n)) (k : Nat) :
    Sound (.expr .not) (negation inner k n) := by
  induction k with
  | zero => exact fun r => leaves_throw
  | succ k ih =>
    intro r
    refine leaves_eat (by simp) ?_ (hx.imp fun t r' hr => ⟨_, ⟨.affirmed t, rfl, rfl⟩, hr⟩)
    rintro r rfl
    refine ih.bind ?_
    rintro t r rfl
    exact leaves_tree (.not t) rfl

theorem disjunction_sound (hi : Sound (.expr .or) inner) (n : Nat) :
    Sound (.expr .or) (disjunction inner n) := by
  have hunary : Sound (.expr .unary) (rule inner n .unary n) := unary_sound hi n
  have hmul : Sound (.expr .multiplicative) (rule inner n .multiplicative n) :=
    chain_sound (l := .multiplicative) trivial hunary
  have hadd : Sound (.expr .additive) (rule inner n .additive n) :=
    chain_sound (l := .additive) trivial hmul
  have hcmp : Sound (.expr .comparison) (rule inner n .comparison n) :=
    chain_sound (l := .comparison) trivial hadd
  have hnot : Sound (.expr .not) (rule inner n .not n) := negation_sound hcmp n
  have hand : Sound (.expr .and) (rule inner n .and n) :=
    chain_sound (l := .and) trivial hnot
  exact chain_sound (l := .or) (k := n) trivial hand

theorem expr_sound (n : Nat) : Sound (.expr .or) (expr n) := by
  induction n with
  | zero => exact fun r => leaves_throw
  | succ n ih => exact disjunction_sound ih n

end Levels

section Statements
variable {statement : Parse Stmt}

theorem block_sound (hs : Sound .stmt statement) (others : List Keyword) (closer : Keyword)
    (n : Nat) : Sound .block (block statement others closer n) := by
  induction n with
  | zero => exact fun r => leaves_throw
  | succ n ih =>
    intro r
    refine leaves_current fun l _ => ?_
    by_cases hend : endsBlock others closer l.token = true
    · rw [if_pos hend]
      exact leaves_tree .empty rfl
    · rw [if_neg hend]
      by_cases heof : l.token = .endOfFile
      · rw [if_pos heof]
        exact leaves_unexpected
      · rw [if_neg heof]
        refine hs.bind ?_
        rintro t r rfl
        refine ih.bind ?_
        rintro ts r rfl
        exact leaves_tree (.cons t ts) (by simp [Tree.tokens])

/-- A condition and its body, with the colon between them. -/
theorem arm_sound (hs : Sound .stmt statement) (n : Nat) : Consumes (arm statement n) fun a ts =>
    ∃ (cond : Tree (.expr .or)) (body : Tree .block), (cond.value, body.value) = a ∧
      cond.tokens ++ .symbol .colon :: body.tokens = ts := by
  intro r
  refine (expr_sound n).bind ?_
  rintro cond r rfl
  refine leaves_symbol ?_
  rintro r rfl
  refine (block_sound hs _ _ n).bind ?_
  rintro body r rfl
  exact .pure ⟨_, ⟨cond, body, rfl, rfl⟩, by simp⟩

theorem elifs_sound (hs : Sound .stmt statement) (n : Nat) : Sound .elifs (elifs statement n) := by
  induction n with
  | zero => exact fun r => leaves_throw
  | succ n ih =>
    intro r
    refine leaves_eat (by simp) ?_ (leaves_tree .noElif rfl)
    rintro r rfl
    refine (arm_sound hs n r).bind ?_
    rintro _ r ⟨_, ⟨cond, body, rfl, rfl⟩, rfl⟩
    refine ih.bind ?_
    rintro ts r rfl
    exact leaves_tree (.elif cond body ts) (by simp [Tree.tokens])

def fallback (statement : Parse Stmt) (n : Nat) : Parse (List Stmt) := do
  if ← eat (.keyword .else_) then do
    expectSymbol .colon .colonAfterElse
    block statement [] .endIf n
  else pure []

theorem fallback_sound (hs : Sound .stmt statement) (n : Nat) :
    Sound .otherwise (fallback statement n) := by
  intro r
  refine leaves_eat (by simp) ?_ (leaves_tree .noElse rfl)
  rintro r rfl
  refine leaves_symbol ?_
  rintro r rfl
  exact (block_sound hs _ _ n).imp fun t r' hr => ⟨_, ⟨.else_ t, rfl, rfl⟩, by rw [hr]; rfl⟩

theorem branch_eq (statement : Parse Stmt) (n : Nat) : branch statement n = do
    expectKeyword .if_
    let a ← arm statement n
    let arms ← elifs statement n
    let otherwise ← fallback statement n
    expectKeyword .endIf
    return .branch a.1 a.2 arms otherwise := by
  unfold branch fallback
  refine bind_congr fun _ => bind_congr fun a => bind_congr fun arms => ?_
  rw [bind_assoc]
  refine bind_congr fun b => ?_
  cases b with
  | true => simp
  | false => simp

theorem branch_sound (hs : Sound .stmt statement) (n : Nat) : Sound .stmt (branch statement n) := by
  intro r
  rw [branch_eq]
  refine leaves_keyword ?_
  rintro r rfl
  refine (arm_sound hs n r).bind ?_
  rintro _ r ⟨_, ⟨cond, body, rfl, rfl⟩, rfl⟩
  refine (elifs_sound hs n).bind ?_
  rintro arms r rfl
  refine (fallback_sound hs n).bind ?_
  rintro other r rfl
  refine leaves_keyword ?_
  rintro r rfl
  exact leaves_tree (.branch cond body arms other) (by simp [Tree.tokens])

theorem loop_sound (hs : Sound .stmt statement) (n : Nat) : Sound .stmt (loop statement n) := by
  intro r
  refine leaves_keyword ?_
  rintro r rfl
  refine (expr_sound n).bind ?_
  rintro cond r rfl
  refine leaves_symbol ?_
  rintro r rfl
  refine (block_sound hs _ _ n).bind ?_
  rintro body r rfl
  refine leaves_keyword ?_
  rintro r rfl
  exact leaves_tree (.loop cond body) (by simp [Tree.tokens])

theorem print_eq (n : Nat) : print n = do
    expectKeyword .print
    let args ← exprsUpTo .semicolon .endOfPrint (expr n) n
    return .print args := by
  unfold print exprsUpTo
  refine bind_congr fun _ => ?_
  rw [bind_assoc]
  refine bind_congr fun b => ?_
  cases b with
  | true => simp
  | false => simp

theorem print_sound (n : Nat) : Sound .stmt (print n) := by
  intro r
  rw [print_eq]
  refine leaves_keyword ?_
  rintro r rfl
  refine (exprsUpTo_sound (expr_sound n) _ _ n r).bind ?_
  rintro _ r ⟨_, ⟨t, rfl, rfl⟩, rfl⟩
  exact leaves_tree (.print t) (by simp [Tree.tokens])

/-- An expression and the semicolon after it, in the place where a statement has them. -/
theorem leaves_expr_semicolon {f : Expr → Unit → Stmt} {e : Expected} {r r' : List Token}
    (g : Tree (.expr .or) → Tree .stmt) (hg : ∀ t, (g t).value = f t.value ()) (n : Nat)
    (hr : ∀ t r'', r' = t.tokens ++ .symbol .semicolon :: r'' → r = (g t).tokens ++ r'') :
    Leaves r' (expr n >>= fun a => expectSymbol .semicolon e >>= fun x => pure (f a x)) fun s r'' =>
      ∃ ts, (∃ t : Tree .stmt, t.value = s ∧ t.tokens = ts) ∧ r = ts ++ r'' := by
  refine (expr_sound n).bind ?_
  rintro t r rfl
  refine leaves_symbol ?_
  rintro r rfl
  exact .pure ⟨_, ⟨g t, hg t, rfl⟩, hr t r rfl⟩

theorem exprStatement_sound (n : Nat) : Sound .stmt (exprStatement n) := fun r =>
  leaves_expr_semicolon .eval (fun _ => rfl) n fun t r' hr => by simp [hr, Tree.tokens]

theorem assignment_sound (n : Nat) (x : String) (r : List Token) : Leaves (.ident x :: r) (assignment n)
    fun s r' => ∃ ts, (∃ t : Tree .stmt, t.value = s ∧ t.tokens = ts) ∧ .ident x :: r = ts ++ r' := by
  refine leaves_peek fun l hl => ?_
  by_cases heq : l.token = .symbol .equal
  · rw [if_pos heq]
    refine leaves_ident ?_
    rintro _ _ ⟨⟩
    refine leaves_token (hl.symm.trans heq) (by simp) ?_
    rintro _ r rfl
    exact leaves_expr_semicolon (.assign x) (fun _ => rfl) n fun t r' hr => by simp [hr, Tree.tokens]
  · rw [if_neg heq]
    exact exprStatement_sound n _

theorem statement_sound (n : Nat) : Sound .stmt (Parser.statement n) := by
  induction n with
  | zero => exact fun r => leaves_throw
  | succ n ih =>
    intro r
    refine leaves_current fun l hl => ?_
    cases ht : l.token with
    | keyword k =>
      cases k with
      | if_ => exact branch_sound ih n r
      | while_ => exact loop_sound ih n r
      | print => exact print_sound n r
      | not => exact exprStatement_sound n r
      | return_ =>
        refine leaves_token (hl.symm.trans ht) (by simp) ?_
        rintro _ r rfl
        exact leaves_expr_semicolon .ret (fun _ => rfl) n fun t r' hr => by simp [hr, Tree.tokens]
      | pass =>
        refine leaves_token (hl.symm.trans ht) (by simp) ?_
        rintro _ r rfl
        refine leaves_symbol ?_
        rintro r rfl
        exact leaves_tree .pass rfl
      | _ => exact leaves_unexpected
    | ident x =>
      obtain ⟨r, rfl⟩ := eq_cons_of_next (hl.symm.trans ht) (by simp)
      exact assignment_sound n x r
    | endOfFile => exact leaves_unexpected
    | number | symbol | invalid => exact exprStatement_sound n r

end Statements

section Items

/-- Parameters have names of their own, and none that has been seen. -/
theorem parameters_sound (function : String) (n : Nat) (seen : List String) :
    Consumes (parameters function n seen) fun params ts =>
      params ≠ [] ∧ ts = ItemTree.paramTokens params ∧ params.Nodup ∧ ∀ x ∈ params, x ∉ seen := by
  induction n generalizing seen with
  | zero => exact fun r => leaves_throw
  | succ n ih =>
    intro r
    refine leaves_current fun l _ => leaves_ident ?_
    rintro x r rfl
    by_cases hseen : x ∈ seen
    · rw [if_pos hseen]
      exact leaves_throw
    · rw [if_neg hseen]
      refine leaves_eat (by simp) ?_ (.pure ⟨[.ident x], ⟨by simp, rfl, by simp, by simpa using hseen⟩, rfl⟩)
      rintro r rfl
      refine (ih _ r).bind ?_
      rintro rest r ⟨_, ⟨hne, rfl, hnodup, hfresh⟩, rfl⟩
      refine .pure ⟨ItemTree.paramTokens (x :: rest), ⟨by simp, rfl, ?_, ?_⟩, ?_⟩
      · exact List.nodup_cons.2 ⟨fun hmem => hfresh x hmem List.mem_cons_self, hnodup⟩
      · exact List.forall_mem_cons.2 ⟨hseen, fun y hy hmem => hfresh y hy (List.mem_cons_of_mem x hmem)⟩
      · cases rest with
        | nil => exact absurd rfl hne
        | cons y rest => rfl

def paramList (function : String) (n : Nat) : Parse (List String) := do
  if ← check (.symbol .rparen) then pure [] else parameters function n []

theorem paramList_sound (name : String) (n : Nat) : Consumes (paramList name n) fun params ts =>
    params.Nodup ∧ ts = ItemTree.paramTokens params := by
  intro r
  refine leaves_check fun b _ => ?_
  cases b with
  | true => exact .pure ⟨[], ⟨List.nodup_nil, rfl⟩, rfl⟩
  | false =>
    intro p params p' hp h
    obtain ⟨ts, ⟨-, hts, hnodup, -⟩, hr⟩ := parameters_sound name n [] r p params p' hp h
    exact ⟨ts, ⟨hnodup, hts⟩, hr⟩

def definition (n : Nat) (exported : Bool) : Parse FunctionDef := do
  expectKeyword .def_
  let name ← expectIdent .functionName
  expectSymbol .lparen (.symbol .lparen)
  let params ← paramList name n
  expectSymbol .rparen .endOfParameters
  expectSymbol .colon .colonAfterSignature
  let body ← block (statement n) [] .endDef n
  expectKeyword .endDef
  return { name, params, body, exported }

theorem function_eq (n : Nat) : function n = eat (.keyword .extern_) >>= definition n := by
  unfold function definition paramList
  refine bind_congr fun _ => bind_congr fun _ => bind_congr fun _ => bind_congr fun _ => ?_
  rw [bind_assoc]
  refine bind_congr fun b => ?_
  cases b with
  | true => simp
  | false => simp

theorem definition_sound (n : Nat) (exported : Bool) : Consumes (definition n exported) fun d ts =>
    ∃ i : ItemTree, i.value = .function d ∧ i.Distinct ∧
      i.tokens = (if exported then [Token.keyword .extern_] else []) ++ ts := by
  intro r
  refine leaves_keyword ?_
  rintro r rfl
  refine leaves_ident ?_
  rintro name r rfl
  refine leaves_symbol ?_
  rintro r rfl
  refine (paramList_sound name n r).bind ?_
  rintro params r ⟨_, ⟨hnodup, rfl⟩, rfl⟩
  refine leaves_symbol ?_
  rintro r rfl
  refine leaves_symbol ?_
  rintro r rfl
  refine (block_sound (statement_sound n) _ _ n).bind ?_
  rintro body r rfl
  refine leaves_keyword ?_
  rintro r rfl
  refine .pure ⟨_, ⟨.function exported name params body, rfl, hnodup, rfl⟩, ?_⟩
  simp

theorem function_sound (n : Nat) : Consumes (function n) fun d ts =>
    ∃ i : ItemTree, i.value = .function d ∧ i.Distinct ∧ i.tokens = ts := by
  intro r
  rw [function_eq]
  refine leaves_eat (by simp) ?_ (definition_sound n false r)
  rintro r rfl p d p' hp h
  obtain ⟨ts, hi, rfl⟩ := definition_sound n true r p d p' hp h
  exact ⟨.keyword .extern_ :: ts, hi, rfl⟩

def itemWithin (n : Nat) : Parse (Option Item) := do
  match (← current?).token with
  | .endOfFile =>
    modify ({ · with finished := true })
    return none
  | .keyword .def_ | .keyword .extern_ =>
    let f ← function n
    return some (.function f)
  | _ =>
    let s ← statement n
    return some (.statement s)

theorem item_apply (p : Parser) : item p = itemWithin p.bound p :=
  rfl

/-- From the tokens `r` on there was this item, and then `r'`; or there was nothing. -/
def ItemFrom (r : List Token) (o : Option Item) (r' : List Token) : Prop :=
  o = none ∧ r = [] ∨ ∃ i : ItemTree, o = some i.value ∧ i.Distinct ∧ r = i.tokens ++ r'

theorem itemWithin_sound (n : Nat) (r : List Token) : Leaves r (itemWithin n) (ItemFrom r) := by
  have hstatement : Leaves r (do let s ← statement n; return some (Item.statement s)) (ItemFrom r) :=
    (statement_sound n).bind fun t r' hr => .pure (.inr ⟨.statement t, rfl, trivial, hr⟩)
  have hfunction : Leaves r (do let f ← function n; return some (Item.function f)) (ItemFrom r) := by
    refine (function_sound n r).bind ?_
    rintro d r' ⟨_, ⟨i, hi, hdistinct, rfl⟩, hr⟩
    exact .pure (.inr ⟨i, by rw [hi], hdistinct, hr⟩)
  refine leaves_current fun l hl => ?_
  cases ht : l.token with
  | endOfFile =>
    rintro p o p' rfl h
    cases h
    exact .inl ⟨rfl, rest_eq_nil (hl.symm.trans ht)⟩
  | keyword k =>
    cases k with
    | def_ | extern_ => exact hfunction
    | _ => exact hstatement
  | _ => exact hstatement

theorem item_sound {p p' : Parser} {o : Option Item} (h : item p = .ok o p') :
    ItemFrom p.rest o p'.rest :=
  itemWithin_sound p.bound p.rest p o p' rfl (item_apply p ▸ h)

theorem itemsUpTo_sound (n : Nat) (r : List Token) : Leaves r (itemsUpTo n) fun is _ =>
    ∃ t : ProgramTree, t.value = is ∧ t.Distinct ∧ r = t.tokens := by
  induction n generalizing r with
  | zero => exact leaves_throw
  | succ n ih =>
    refine Leaves.bind (P := ItemFrom r) (fun p o p' hp h => hp ▸ item_sound h) ?_
    rintro _ r' (⟨rfl, rfl⟩ | ⟨i, rfl, hdistinct, rfl⟩)
    · exact .pure ⟨[], rfl, by simp [ProgramTree.Distinct], rfl⟩
    · refine (ih r').bind ?_
      rintro _ _ ⟨t, rfl, hall, rfl⟩
      exact .pure ⟨i :: t, rfl, List.forall_mem_cons.2 ⟨hdistinct, hall⟩, rfl⟩

/-- A program that is accepted has a derivation. -/
theorem program_sound {p p' : Parser} {is : Program} (h : program p = .ok is p') :
    ∃ t : ProgramTree, t.value = is ∧ t.Distinct ∧ p.rest = t.tokens :=
  itemsUpTo_sound p.bound p.rest p is p' rfl h

end Items
end Parser

theorem exists_tree {cs : List Char} {program : Program} (h : parseProgram cs = .ok program) :
    ∃ t : ProgramTree, t.value = program ∧ t.Distinct ∧ (Source.ofText cs).tokens = t.tokens := by
  unfold parseProgram at h
  cases hrun : Parser.program { source := Source.ofText cs } with
  | error e q =>
    rw [hrun] at h
    cases h
  | ok p q =>
    rw [hrun] at h
    cases h
    exact Parser.program_sound hrun

end IntLang
