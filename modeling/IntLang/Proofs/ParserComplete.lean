import IntLang.Proofs.ParserSound

/-! What the grammar derives, a parser accepts. Before anything that does not go on with a phrase, the rule
for the phrase reads exactly its tokens and returns the value of its tree. -/
namespace IntLang
open Grammar

namespace Parser

/-- A token that can be taken: neither the end of the input nor what could not be read as a token. -/
def Proper : Token → Prop
  | .invalid _ | .endOfFile => False
  | _ => True

theorem Proper.valid {t : Token} (h : Proper t) : t.Valid := by
  rintro e rfl
  exact h

theorem Proper.ne_end {t : Token} (h : Proper t) : t ≠ .endOfFile := by
  rintro rfl
  exact h

/-- The rule leads from the tokens `ts` to the tokens `r`. -/
def Reads {α : Type} (x : Parse α) (ts : List Token) (a : α) (r : List Token) : Prop :=
  ∀ p, p.rest = ts → ∃ p', x p = .ok a p' ∧ p'.rest = r

section Reads
variable {α β : Type} {ts r mid : List Token} {t : Token} {a : α} {b : β} {e : Expected}

theorem Reads.pure (a : α) (r : List Token) : Reads (pure a) r a r :=
  fun p hp => ⟨p, rfl, hp⟩

theorem Reads.bind {x : Parse α} {f : α → Parse β} (hx : Reads x ts a mid)
    (hf : Reads (f a) mid b r) : Reads (x >>= f) ts b r := by
  intro p hp
  obtain ⟨p₁, h₁, hr₁⟩ := hx p hp
  obtain ⟨p₂, h₂, hr₂⟩ := hf p₁ hr₁
  exact ⟨p₂, (bind_of_ok h₁).trans h₂, hr₂⟩

/-- A rule that looks at the next token first. -/
theorem Reads.current {f : Lexeme → Parse β} (ht : (next ts).Valid)
    (hf : ∀ l, l.token = next ts → Reads (f l) ts b r) : Reads (current? >>= f) ts b r := by
  rintro p rfl
  obtain ⟨l, p₁, h₁, -, htoken, hr₁⟩ := current?_of_next ht
  obtain ⟨p₂, h₂, hr₂⟩ := hf l htoken p₁ hr₁
  exact ⟨p₂, (bind_of_ok h₁).trans h₂, hr₂⟩

theorem Reads.first {f : Lexeme → Parse β} (ht : Proper t)
    (hf : ∀ l, l.token = t → Reads (f l) (t :: ts) b r) : Reads (current? >>= f) (t :: ts) b r := by
  have hnext : (next (t :: ts)).Valid := ht.valid
  exact .current hnext hf

/-- A rule that looks at the token after the next one first. -/
theorem Reads.peek {f : Lexeme → Parse β} (ht : Proper t) (hts : (next ts).Valid)
    (hf : ∀ l, l.token = next ts → Reads (f l) (t :: ts) b r) :
    Reads (Parser.peek >>= f) (t :: ts) b r := by
  intro p hp
  obtain ⟨l, p₁, h₁, htoken, hr₁⟩ := peek_of_next hp ht.valid hts
  obtain ⟨p₂, h₂, hr₂⟩ := hf l htoken p₁ (hr₁.trans hp)
  exact ⟨p₂, (bind_of_ok h₁).trans h₂, hr₂⟩

theorem Reads.bump {f : Lexeme → Parse β} (ht : Proper t)
    (hf : ∀ l, l.token = t → Reads (f l) ts b r) : Reads (Parser.bump >>= f) (t :: ts) b r := by
  intro p hp
  obtain ⟨l, p₁, h₁, htoken, hr₁⟩ := bump_of_next ht.valid ht.ne_end hp
  obtain ⟨p₂, h₂, hr₂⟩ := hf l htoken p₁ hr₁
  exact ⟨p₂, (bind_of_ok h₁).trans h₂, hr₂⟩

theorem Reads.check (ht : (next r).Valid) (t : Token) :
    Reads (Parser.check t) r (decide (next r = t)) r :=
  .current ht fun _ htoken => htoken ▸ .pure _ r

theorem Reads.eat {f : Bool → Parse β} (ht : Proper t) (hf : Reads (f true) ts b r) :
    Reads (Parser.eat t >>= f) (t :: ts) b r := by
  refine Reads.bind ?_ hf
  refine (Reads.check (r := t :: ts) ht.valid t).bind ?_
  rw [next_cons, decide_eq_true rfl]
  exact .bump ht fun _ _ => .pure true ts

theorem Reads.notEat (ht : (next r).Valid) (hne : next r ≠ t) : Reads (Parser.eat t) r false r := by
  refine (Reads.check ht t).bind ?_
  rw [decide_eq_false hne]
  exact .pure false r

theorem Reads.expect (ht : Proper t) (r : List Token) : Reads (Parser.expect t e) (t :: r) () r := by
  refine (Reads.check (r := t :: r) ht.valid t).bind ?_
  rw [next_cons, decide_eq_true rfl]
  exact .bump ht fun _ _ => .pure () r

theorem Reads.expectSymbol (s : Symbol) (e : Expected) (r : List Token) :
    Reads (Parser.expectSymbol s e) (.symbol s :: r) () r :=
  .expect (t := .symbol s) trivial r

theorem Reads.expectKeyword (k : Keyword) (r : List Token) :
    Reads (Parser.expectKeyword k) (.keyword k :: r) () r :=
  .expect (t := .keyword k) trivial r

theorem Reads.expectIdent (name : String) (e : Expected) (r : List Token) :
    Reads (Parser.expectIdent e) (.ident name :: r) name r := by
  refine .bump trivial fun l hl => ?_
  rw [hl]
  exact .pure name r

end Reads

/-- A token that binds less than a parenthesis has been read well. -/
theorem valid_of_stops {l : Level} {r : List Token} (h : (Phrase.expr l).Stops r) :
    (next r).Valid := by
  intro e he
  have hlt : (next r).binds < l.binds := h
  have hl : l.binds ≤ 8 := by cases l <;> decide
  rw [he] at hlt
  change 9 < l.binds at hlt
  omega

theorem valid_of_opens {l : Level} {t : Token} (h : t.Opens l) : t.Valid := by
  rintro e rfl
  exact h

/-- By how much a phrase may exceed the bound that is left for it. A sign has been looked for before. -/
def slack : Level → Nat
  | .power | .primary => 1
  | _ => 0

theorem operator?_eq_none {l : Level} {t : Token} (h : t.binds < l.binds) :
    operator? l t = none := by
  cases hop : operator? l t with
  | none => rfl
  | some op =>
    obtain ⟨rfl, htokens, -⟩ := operator?_spec hop
    have hbinds := op.binds_next []
    rw [htokens] at hbinds
    exact absurd h (Nat.not_lt.2 (Nat.le_of_eq hbinds.symm))

theorem operatorBy_reads {l : Level} {t : Token} {op : BinaryOp} (ho : operator? l t = some op)
    (r : List Token) : Reads (operatorBy (operator? l)) (t :: r) (some op) r := by
  have ht : Proper t := by
    cases t <;> first | exact trivial | cases l <;> cases ho
  refine .first ht fun l' hl' => ?_
  rw [hl', ho]
  exact .bump ht fun _ _ => .pure (some op) r

theorem operatorBy_stops {l : Level} {r : List Token} (ht : (next r).Valid)
    (ho : operator? l (next r) = none) : Reads (operatorBy (operator? l)) r none r := by
  refine .current ht fun l' hl' => ?_
  rw [hl', ho]
  exact .pure none r

theorem comparisonOperator_reads_notIn (r : List Token) :
    Reads comparisonOperator (BinaryOp.notIn.tokens ++ r) (some .notIn) r := by
  rw [comparisonOperator_eq]
  refine .first trivial fun l hl => ?_
  rw [if_pos hl]
  refine .peek trivial (by simp [Token.Valid]) fun l' (hl' : l'.token = .keyword .in_) => ?_
  rw [if_pos hl']
  exact .bump trivial fun _ _ => .bump trivial fun _ _ => .pure _ r

/-- Where no negation comes, comparisons are like other operators. -/
theorem comparisonOperator_reads {ts r : List Token} {o : Option BinaryOp} (ht : (next ts).Valid)
    (hne : next ts ≠ .keyword .not) (h : Reads (operatorBy (operator? .comparison)) ts o r) :
    Reads comparisonOperator ts o r := by
  rw [comparisonOperator_eq]
  refine .current ht fun l hl => ?_
  rw [if_neg (hl ▸ hne)]
  exact h

/-- The operator rule of a level reads its operators. -/
theorem operatorRule_reads (op : BinaryOp) (hl : op.level.IsChain) (r : List Token) :
    Reads (operatorRule op.level) (op.tokens ++ r) (some op) r := by
  cases op with
  | notIn => exact comparisonOperator_reads_notIn r
  | pow => exact hl.elim
  | lt | gt | le | ge | eq | ne | in_ =>
    exact comparisonOperator_reads (by simp [BinaryOp.tokens, Token.Valid])
      (by simp [BinaryOp.tokens]) (operatorBy_reads rfl r)
  | _ => exact operatorBy_reads rfl r

/-- The operator rule of a level reads nothing where there is no operator of it. -/
theorem operatorRule_stops {l : Level} {r : List Token} (h : (Phrase.tail l).Stops r) :
    Reads (operatorRule l) r none r := by
  have ht := valid_of_stops (l := l) h
  have hstops := operatorBy_stops ht (operator?_eq_none h)
  cases l with
  | comparison =>
    refine comparisonOperator_reads ht (fun hnot => ?_) hstops
    rw [Phrase.Stops, hnot] at h
    exact absurd h (by decide)
  | _ => exact hstops

/-- The rule for a phrase reads the tree, before anything that does not go on with it. The bounds on
repetition and on nesting have to allow for the tokens of the tree. -/
def Accepted : {s : Phrase} → Tree s → Prop
  | .expr l, t => ∀ m n k r, t.tokens.length ≤ m → t.tokens.length ≤ n + slack l →
      t.tokens.length ≤ k → (Phrase.expr l).Stops r →
      Reads (rule (expr m) n l k) (t.tokens ++ r) t.value r
  | .tail l, t => ∀ m n k lhs r, t.tokens.length ≤ m → t.tokens.length ≤ n →
      t.tokens.length < k → l.IsChain → (Phrase.tail l).Stops r →
      Reads (leftAssocFrom (operatorRule l) (rule (expr m) n l.next n) k lhs) (t.tokens ++ r)
        (t.value lhs) r
  | .list, t => ∀ m n r, t.tokens.length < m → t.tokens.length ≤ n → Phrase.list.Stops r →
      Reads (exprList (expr m) n) (t.tokens ++ r) t.value r
  | .arguments, t => ∀ c e m n r, c = .rparen ∨ c = .semicolon → t.tokens.length < m →
      t.tokens.length ≤ n →
      Reads (exprsUpTo c e (expr m) n) (t.tokens ++ .symbol c :: r) t.value r
  | .stmt, t => ∀ n r, t.tokens.length < n → Reads (statement n) (t.tokens ++ r) t.value r
  | .block, t => ∀ n k others closer r, t.tokens.length < n → t.tokens.length < k →
      (∀ c ∈ closer :: others, (Token.keyword c).Ends) → endsBlock others closer (next r) = true →
      Reads (block (statement n) others closer k) (t.tokens ++ r) t.value r
  | .elifs, t => ∀ n k r, t.tokens.length < n → t.tokens.length < k → Phrase.elifs.Stops r →
      Reads (elifs (statement n) k) (t.tokens ++ r) t.value r
  | .otherwise, t => ∀ n k r, t.tokens.length < n → t.tokens.length < k →
      Phrase.otherwise.Stops r → Reads (fallback (statement n) k) (t.tokens ++ r) t.value r

namespace Accepted
section Exprs
variable {l : Level}

theorem length_pos (e : Tree (.expr l)) : 0 < e.tokens.length := by
  obtain ⟨t, ts, htokens, -⟩ := e.opens
  simp [htokens]

theorem chain (hl : l.IsChain) {first : Tree (.expr l.next)} {rest : Tree (.tail l)}
    (h₁ : Accepted first) (h₂ : Accepted rest) : Accepted (.chain hl first rest) := by
  intro m n k r hm hn _ hr
  simp only [Tree.tokens, List.length_append] at hm hn
  have hpos := length_pos first
  have hslack : slack l = 0 := by
    cases l with
    | power | primary => exact hl.elim
    | _ => rfl
  rw [rule_chain hl, Tree.tokens, List.append_assoc]
  refine (h₁ m n n _ (by omega) (by omega) (by omega) (rest.stops_operand hl.binds_lt hr)).bind ?_
  exact h₂ m n n first.value r (by omega) (by omega) (by omega) hl hr

theorem done : Accepted (.done : Tree (.tail l)) := by
  intro m n k lhs r _ _ hk _ hr
  obtain ⟨k, rfl⟩ := Nat.exists_eq_add_one.2 hk
  exact (operatorRule_stops hr).bind (.pure lhs r)

theorem more {op : BinaryOp} (hop : op.level = l) {operand : Tree (.expr l.next)}
    {rest : Tree (.tail l)} (h₁ : Accepted operand) (h₂ : Accepted rest) :
    Accepted (.more op hop operand rest) := by
  intro m n k lhs r hm hn hk hl hr
  subst hop
  simp only [Tree.tokens, List.length_append] at hm hn hk
  have hpos : 0 < op.tokens.length := by cases op <;> decide
  obtain ⟨k, rfl⟩ := exists_succ hk
  rw [Tree.tokens, List.append_assoc, List.append_assoc]
  refine (operatorRule_reads op hl _).bind ?_
  refine (h₁ m n n _ (by omega) (by omega) (by omega) (rest.stops_operand hl.binds_lt hr)).bind ?_
  exact h₂ m n k (.binary op lhs operand.value) r (by omega) (by omega) (by omega) hl hr

theorem next_opens (e : Tree (.expr l)) (r : List Token) : (next (e.tokens ++ r)).Opens l := by
  obtain ⟨t, ts, htokens, ht⟩ := e.opens
  rw [htokens]
  exact ht

theorem not {e : Tree (.expr .not)} (h₁ : Accepted e) : Accepted (.not e) := by
  intro m n k r hm hn hk hr
  simp only [Tree.tokens, List.length_cons] at hm hn hk
  obtain ⟨k, rfl⟩ := exists_succ hk
  refine .eat trivial ?_
  exact (h₁ m n k r (by omega) (by omega) (by omega) hr).bind (.pure _ r)

theorem affirmed {e : Tree (.expr .comparison)} (h₁ : Accepted e) : Accepted (.affirmed e) := by
  intro m n k r hm hn hk hr
  have hopens := next_opens e r
  simp only [Tree.tokens] at hm hn hk
  obtain ⟨k, rfl⟩ := exists_succ (Nat.lt_of_lt_of_le (length_pos e) hk)
  have hne : next (e.tokens ++ r) ≠ .keyword .not := by
    intro hnot
    rw [hnot] at hopens
    exact absurd hopens (by decide : ¬ 4 ≤ 3)
  refine (Reads.notEat (valid_of_opens hopens) hne).bind ?_
  exact h₁ m n n r hm hn hn (Nat.lt_succ_of_lt hr)

theorem signed {t : Token} {op : UnaryOp} (hsign : signOf t = Option.some op) (ht : Proper t)
    {e : Tree (.expr .unary)} (h₁ : Accepted e) {m n : Nat} {r : List Token} (hm : e.tokens.length < m)
    (hn : e.tokens.length < n) (hr : (Phrase.expr .unary).Stops r) :
    Reads (unary (Parser.expr m) n) (t :: (e.tokens ++ r)) (.unary op e.value) r := by
  obtain ⟨n, rfl⟩ := exists_succ hn
  refine .first ht fun l' hl' => ?_
  rw [hl', hsign]
  refine .bump ht fun _ _ => ?_
  exact (h₁ m n n r (by omega) (by simp only [slack]; omega) (by omega) hr).bind (.pure _ r)

theorem minus {e : Tree (.expr .unary)} (h₁ : Accepted e) : Accepted (.minus e) :=
  fun _ _ _ _ hm hn _ hr => h₁.signed (t := .symbol .minus) rfl trivial hm hn hr

theorem plus {e : Tree (.expr .unary)} (h₁ : Accepted e) : Accepted (.plus e) :=
  fun _ _ _ _ hm hn _ hr => h₁.signed (t := .symbol .plus) rfl trivial hm hn hr

theorem signOf_eq_none {t : Token} (h : t.Opens .power) : signOf t = none := by
  unfold signOf
  split
  · exact absurd rfl h.1
  · exact absurd rfl h.1
  · rfl

theorem unsigned {e : Tree (.expr .power)} (h₁ : Accepted e) : Accepted (.unsigned e) := by
  intro m n k r hm hn hk hr
  have hopens := next_opens e r
  simp only [Tree.tokens, slack, Nat.add_zero] at hm hn hk
  obtain ⟨n, rfl⟩ := exists_succ (Nat.lt_of_lt_of_le (length_pos e) hn)
  refine .current (valid_of_opens hopens) fun l' hl' => ?_
  have hsign : signOf l'.token = none := signOf_eq_none (hl' ▸ hopens)
  rw [hsign]
  exact h₁ m n k r hm hn hk hr

theorem base {e : Tree (.expr .primary)} (h₁ : Accepted e) : Accepted (.base e) := by
  intro m n k r hm hn hk hr
  refine (h₁ m n k r hm hn hk (Nat.lt_succ_of_lt hr)).bind ?_
  refine (Reads.notEat (valid_of_stops hr) fun hpow => ?_).bind (.pure _ r)
  rw [Phrase.Stops, hpow] at hr
  exact absurd hr (by decide)

theorem raised {e : Tree (.expr .primary)} {exponent : Tree (.expr .unary)} (h₁ : Accepted e)
    (h₂ : Accepted exponent) : Accepted (.raised e exponent) := by
  intro m n k r hm hn hk hr
  have hpos := length_pos e
  simp only [Tree.tokens, List.length_append, List.length_cons, slack] at hm hn hk
  rw [Tree.tokens, List.append_assoc]
  refine (h₁ m n k _ (by omega) (by simp only [slack]; omega) (by omega)
    (Phrase.stops_base _)).bind ?_
  refine .eat trivial ?_
  exact (h₂ m n n r (by omega) (by simp only [slack]; omega) (by omega) hr).bind (.pure _ r)

theorem number (value : Int32) : Accepted (.number value) := by
  intro m n k r hm hn hk hr
  refine .first trivial fun l' hl' => ?_
  rw [hl']
  exact .bump trivial fun _ _ => .pure _ r

theorem var (name : String) : Accepted (.var name) := by
  intro m n k r hm hn hk hr
  refine .first trivial fun l' hl' => ?_
  rw [hl']
  refine (Reads.expectIdent name _ r).bind ?_
  refine (Reads.notEat (valid_of_stops hr) fun hopen => ?_).bind (.pure _ r)
  rw [Phrase.Stops, hopen] at hr
  exact absurd hr (by decide)

theorem call (name : String) {args : Tree .arguments} (h₁ : Accepted args) :
    Accepted (.call name args) := by
  intro m n k r hm hn hk hr
  simp only [Tree.tokens, List.length_append, List.length_cons, slack] at hm hn hk
  rw [Tree.tokens, List.cons_append, List.cons_append, List.append_assoc]
  refine .first trivial fun l' hl' => ?_
  rw [hl']
  refine (Reads.expectIdent name _ _).bind ?_
  refine .eat trivial ?_
  exact (h₁ .rparen .endOfArguments m n r (.inl rfl) (by omega) (by omega)).bind (.pure _ r)

/-- A whole expression is read if its nesting is allowed for. -/
theorem expr {e : Tree (.expr .or)} (h : Accepted e) {n : Nat} {r : List Token}
    (hn : e.tokens.length < n) (hr : (Phrase.expr .or).Stops r) :
    Reads (Parser.expr n) (e.tokens ++ r) e.value r := by
  obtain ⟨n, rfl⟩ := exists_succ hn
  exact h n n n r (by omega) (by simp only [slack]; omega) (by omega) hr

theorem paren {e : Tree (.expr .or)} (h₁ : Accepted e) : Accepted (.paren e) := by
  intro m n k r hm hn hk hr
  simp only [Tree.tokens, List.length_append, List.length_cons, slack] at hm hn hk
  rw [Tree.tokens, List.cons_append, List.append_assoc]
  refine .first trivial fun l' hl' => ?_
  rw [hl']
  refine .bump trivial fun _ _ => ?_
  refine (h₁.expr (by omega) (Phrase.stops_expr rfl r)).bind ?_
  exact (Reads.expectSymbol .rparen _ r).bind (.pure _ r)

end Exprs

variable {e cond : Tree (.expr .or)} {body : Tree .block} {args : Tree .arguments} {r : List Token} {n : Nat}

theorem last (h₁ : Accepted e) : Accepted (.last e) := by
  intro m n r hm hn hr
  simp only [Tree.tokens] at hm hn
  obtain ⟨n, rfl⟩ := exists_succ (Nat.lt_of_lt_of_le (length_pos e) hn)
  refine (h₁.expr hm hr.expr_of_list).bind ?_
  exact (Reads.notEat (valid_of_stops hr.expr_of_list) hr.2).bind (.pure _ r)

theorem comma {rest : Tree .list} (h₁ : Accepted e) (h₂ : Accepted rest) : Accepted (.comma e rest) := by
  intro m n r hm hn hr
  simp only [Tree.tokens, List.length_append, List.length_cons] at hm hn
  obtain ⟨n, rfl⟩ := exists_succ hn
  rw [Tree.tokens, List.append_assoc]
  refine (h₁.expr (by omega) (Phrase.stops_expr rfl _)).bind ?_
  refine .eat trivial ?_
  exact (h₂ m n r (by omega) (by omega) hr).bind (.pure _ r)

theorem none : Accepted .none := by
  intro c e m n r hc hm hn
  exact .eat trivial (.pure _ r)

theorem some {es : Tree .list} (h₁ : Accepted es) : Accepted (.some es) := by
  intro c e m n r hc hm hn
  have hstops : Phrase.list.Stops (.symbol c :: r) := by
    rcases hc with rfl | rfl
    · exact ⟨rfl, by simp⟩
    · exact ⟨rfl, by simp⟩
  have hopens : (next (es.tokens ++ .symbol c :: r)).Opens .or := by
    cases es with
    | last e => exact next_opens e _
    | comma e rest =>
      rw [Tree.tokens, List.append_assoc]
      exact next_opens e _
  have hne : next (es.tokens ++ .symbol c :: r) ≠ .symbol c := by
    intro heq
    rw [heq] at hopens
    rcases hc with rfl | rfl
    · exact hopens
    · exact hopens
  refine (Reads.notEat (valid_of_opens hopens) hne).bind ?_
  refine (h₁ m n _ hm hn hstops).bind ?_
  exact (Reads.expectSymbol c e r).bind (.pure _ r)

theorem exprStatement (h₁ : Accepted e) (hn : (Tree.eval e).tokens.length ≤ n) :
    Reads (Parser.exprStatement n) ((Tree.eval e).tokens ++ r) (.eval e.value) r := by
  simp only [Tree.tokens, List.length_append, List.length_cons] at hn
  rw [Tree.tokens, List.append_assoc]
  refine (h₁.expr (by omega) (Phrase.stops_expr rfl _)).bind ?_
  exact (Reads.expectSymbol .semicolon _ r).bind (.pure _ r)

theorem assign (name : String) (h₁ : Accepted e) : Accepted (.assign name e) := by
  intro n r hn
  simp only [Tree.tokens, List.length_append, List.length_cons] at hn
  obtain ⟨n, rfl⟩ := exists_succ hn
  rw [Tree.tokens, List.cons_append, List.cons_append, List.append_assoc]
  refine .first trivial fun l' hl' => ?_
  rw [hl']
  refine .peek trivial (by simp [Token.Valid]) fun l₂ hl₂ => ?_
  rw [next_cons] at hl₂
  rw [if_pos hl₂]
  refine (Reads.expectIdent name _ _).bind ?_
  refine .bump trivial fun _ _ => ?_
  refine (h₁.expr (by omega) (Phrase.stops_expr rfl _)).bind ?_
  exact (Reads.expectSymbol .semicolon _ r).bind (.pure _ r)

theorem eval (h₁ : Accepted e) : Accepted (.eval e) := by
  intro n r hn
  obtain ⟨n, rfl⟩ := exists_succ hn
  have hread := h₁.exprStatement (r := r) (Nat.le_of_lt_succ hn)
  have hopens : (next ((Tree.eval e).tokens ++ r)).Opens .or := by
    rw [Tree.tokens, List.append_assoc]
    exact next_opens e _
  refine .current (valid_of_opens hopens) fun l' hl' => ?_
  cases ht : next ((Tree.eval e).tokens ++ r) with
  | number value =>
    rw [hl', ht]
    exact hread
  | symbol s =>
    rw [hl', ht]
    exact hread
  | keyword k =>
    rw [ht] at hopens
    cases k with
    | not =>
      rw [hl', ht]
      exact hread
    | _ => exact hopens.elim
  | ident x =>
    rw [hl', ht]
    obtain ⟨ts, hts⟩ := eq_cons_of_next ht (by simp)
    have hinner : (next ts).Inner := by
      rw [Tree.tokens, List.append_assoc] at hts
      have hsemicolon : (Token.symbol .semicolon).Inner := trivial
      exact e.inner_second hsemicolon hts
    have hvalid : (next ts).Valid := by
      intro err herr
      rw [herr] at hinner
      exact hinner
    rw [hts] at hread ⊢
    refine .peek trivial hvalid fun l₂ hl₂ => ?_
    rw [if_neg]
    · exact hread
    · intro heq
      rw [← hl₂, heq] at hinner
      exact hinner
  | invalid | endOfFile =>
    rw [ht] at hopens
    exact hopens.elim

theorem ret (h₁ : Accepted e) : Accepted (.ret e) := by
  intro n r hn
  simp only [Tree.tokens, List.length_append, List.length_cons] at hn
  obtain ⟨n, rfl⟩ := exists_succ hn
  rw [Tree.tokens, List.cons_append, List.append_assoc]
  refine .first trivial fun l' hl' => ?_
  rw [hl']
  refine .bump trivial fun _ _ => ?_
  refine (h₁.expr (by omega) (Phrase.stops_expr rfl _)).bind ?_
  exact (Reads.expectSymbol .semicolon _ r).bind (.pure _ r)

theorem pass : Accepted .pass := by
  intro n r hn
  simp only [Tree.tokens, List.length_cons] at hn
  obtain ⟨n, rfl⟩ := exists_succ hn
  refine .first trivial fun l' hl' => ?_
  rw [hl']
  refine .bump trivial fun _ _ => ?_
  exact (Reads.expectSymbol .semicolon _ r).bind (.pure _ r)

theorem print (h₁ : Accepted args) : Accepted (.print args) := by
  intro n r hn
  simp only [Tree.tokens, List.length_append, List.length_cons] at hn
  obtain ⟨n, rfl⟩ := exists_succ hn
  rw [Tree.tokens, List.cons_append, List.append_assoc]
  refine .first trivial fun l' hl' => ?_
  rw [hl']
  change Reads (Parser.print n) _ _ r
  rw [print_eq]
  refine (Reads.expectKeyword .print _).bind ?_
  exact (h₁ .semicolon .endOfPrint n n r (.inr rfl) (by omega) (by omega)).bind (.pure _ r)

theorem loop (h₁ : Accepted cond) (h₂ : Accepted body) : Accepted (.loop cond body) := by
  intro n r hn
  simp only [Tree.tokens, List.length_append, List.length_cons] at hn
  obtain ⟨n, rfl⟩ := exists_succ hn
  rw [Tree.tokens, List.cons_append, List.append_assoc, List.cons_append, List.append_assoc]
  refine .first trivial fun l' hl' => ?_
  rw [hl']
  refine (Reads.expectKeyword .while_ _).bind ?_
  refine (h₁.expr (by omega) (Phrase.stops_expr rfl _)).bind ?_
  refine (Reads.expectSymbol .colon _ _).bind ?_
  refine (h₂ n n [] .endWhile _ (by omega) (by omega) (by simp [Token.Ends]) rfl).bind ?_
  exact (Reads.expectKeyword .endWhile r).bind (.pure _ r)

theorem arm (h₁ : Accepted cond) (h₂ : Accepted body) {k : Nat} (hn : body.tokens.length < n)
    (hcond : cond.tokens.length < k) (hbody : body.tokens.length < k)
    (hr : next r = .keyword .elif ∨ next r = .keyword .else_ ∨ next r = .keyword .endIf) :
    Reads (Parser.arm (statement n) k) (cond.tokens ++ .symbol .colon :: (body.tokens ++ r))
      (cond.value, body.value) r := by
  have hends : endsBlock [.elif, .else_] .endIf (next r) = true := by
    rcases hr with hr | hr | hr <;> rw [hr] <;> rfl
  refine (h₁.expr hcond (Phrase.stops_expr rfl _)).bind ?_
  refine (Reads.expectSymbol .colon _ _).bind ?_
  exact (h₂ n k [.elif, .else_] .endIf r hn hbody (by simp [Token.Ends]) hends).bind (.pure _ r)

theorem next_elifs (arms : Tree .elifs) (hr : Phrase.elifs.Stops r) :
    next (arms.tokens ++ r) = .keyword .elif ∨ next (arms.tokens ++ r) = .keyword .else_ ∨
      next (arms.tokens ++ r) = .keyword .endIf := by
  cases arms with
  | noElif => exact .inr hr
  | elif cond body rest => exact .inl rfl

theorem branch {arms : Tree .elifs}
    {fallback : Tree .otherwise} (h₁ : Accepted cond) (h₂ : Accepted body) (h₃ : Accepted arms)
    (h₄ : Accepted fallback) : Accepted (.branch cond body arms fallback) := by
  intro n r hn
  simp only [Tree.tokens, List.length_append, List.length_cons] at hn
  obtain ⟨n, rfl⟩ := exists_succ hn
  have helifs := fallback.stops_elifs r
  rw [Tree.tokens]
  simp only [List.cons_append, List.append_assoc, List.nil_append]
  refine .first trivial fun l' hl' => ?_
  rw [hl', branch_eq]
  refine (Reads.expectKeyword .if_ _).bind ?_
  refine (h₁.arm h₂ (by omega) (by omega) (by omega) (next_elifs arms helifs)).bind ?_
  refine (h₃ n n _ (by omega) (by omega) helifs).bind ?_
  have hend : Phrase.otherwise.Stops (.keyword .endIf :: r) := rfl
  refine (h₄ n n _ (by omega) (by omega) hend).bind ?_
  exact (Reads.expectKeyword .endIf r).bind (.pure _ r)

theorem ends_of_endsBlock {others : List Keyword} {closer : Keyword} {t : Token}
    (hends : ∀ c ∈ closer :: others, (Token.keyword c).Ends)
    (h : endsBlock others closer t = true) : t.Ends := by
  unfold endsBlock at h
  split at h
  · next k =>
    refine hends k ?_
    simpa using h
  · cases h

theorem empty : Accepted .empty := by
  intro n k others closer r hn hk hends hr
  obtain ⟨k, rfl⟩ := exists_succ hk
  have hvalid : (next r).Valid := by
    intro e he
    rw [he] at hr
    cases hr
  refine .current hvalid fun l' (hl' : l'.token = next r) => ?_
  rw [hl', if_pos hr]
  exact .pure _ r

theorem cons {s : Tree .stmt} {rest : Tree .block} (h₁ : Accepted s) (h₂ : Accepted rest) :
    Accepted (.cons s rest) := by
  intro n k others closer r hn hk hends hr
  simp only [Tree.tokens, List.length_append] at hn hk
  obtain ⟨k, rfl⟩ := exists_succ hk
  obtain ⟨t, ts, htokens, ht⟩ := s.stmt_opens
  have hpos : 0 < s.tokens.length := by simp [htokens]
  have hnext : next ((Tree.cons s rest).tokens ++ r) = t := by simp [Tree.tokens, htokens]
  have hvalid : t.Valid := by
    rintro e rfl
    exact ht
  refine .current (hnext ▸ hvalid) fun l' hl' => ?_
  rw [hl', hnext, if_neg fun hend => (ends_of_endsBlock hends hend).not_opensStatement ht, if_neg]
  · rw [Tree.tokens, List.append_assoc]
    refine (h₁ n _ (by omega)).bind ?_
    exact (h₂ n k others closer r (by omega) (by omega) hends hr).bind (.pure _ r)
  · rintro rfl
    exact ht

theorem noElif : Accepted .noElif := by
  intro n k r hn hk hr
  obtain ⟨k, rfl⟩ := exists_succ hk
  have hvalid : (next r).Valid ∧ next r ≠ .keyword .elif := by
    rcases hr with hr | hr <;> rw [hr] <;> simp [Token.Valid]
  exact (Reads.notEat hvalid.1 hvalid.2).bind (.pure _ r)

theorem elif {rest : Tree .elifs} (h₁ : Accepted cond) (h₂ : Accepted body) (h₃ : Accepted rest) :
    Accepted (.elif cond body rest) := by
  intro n k r hn hk hr
  simp only [Tree.tokens, List.length_append, List.length_cons] at hn hk
  obtain ⟨k, rfl⟩ := exists_succ hk
  rw [Tree.tokens]
  simp only [List.cons_append, List.append_assoc]
  refine .eat trivial ?_
  refine (h₁.arm h₂ (by omega) (by omega) (by omega) (next_elifs rest hr)).bind ?_
  exact (h₃ n k r (by omega) (by omega) hr).bind (.pure _ r)

theorem noElse : Accepted .noElse := by
  intro n k r hn hk hr
  have hnext : next r = .keyword .endIf := hr
  have hvalid : (next r).Valid ∧ next r ≠ .keyword .else_ := by
    rw [hnext]
    simp [Token.Valid]
  exact (Reads.notEat hvalid.1 hvalid.2).bind (.pure _ r)

theorem else_ (h₁ : Accepted body) : Accepted (.else_ body) := by
  intro n k r hn hk hr
  have hnext : next r = .keyword .endIf := hr
  simp only [Tree.tokens, List.length_cons] at hn hk
  refine .eat trivial ?_
  refine (Reads.expectSymbol .colon _ _).bind ?_
  exact h₁ n k [] .endIf r (by omega) (by omega) (by simp [Token.Ends]) (by rw [hnext]; rfl)

end Accepted

/-- The rule for a phrase reads every tree of it. -/
theorem accepted {s : Phrase} (t : Tree s) : Accepted t := by
  induction t with
  | chain h first rest ih₁ ih₂ => exact .chain h ih₁ ih₂
  | done => exact .done
  | more op h operand rest ih₁ ih₂ => exact .more h ih₁ ih₂
  | not e ih => exact .not ih
  | affirmed e ih => exact .affirmed ih
  | minus e ih => exact .minus ih
  | plus e ih => exact .plus ih
  | unsigned e ih => exact .unsigned ih
  | base e ih => exact .base ih
  | raised e exponent ih₁ ih₂ => exact .raised ih₁ ih₂
  | number value => exact .number value
  | var name => exact .var name
  | call name args ih => exact .call name ih
  | paren e ih => exact .paren ih
  | last e ih => exact .last ih
  | comma e rest ih₁ ih₂ => exact .comma ih₁ ih₂
  | none => exact .none
  | some es ih => exact .some ih
  | assign name e ih => exact .assign name ih
  | eval e ih => exact .eval ih
  | branch cond body arms fallback ih₁ ih₂ ih₃ ih₄ => exact .branch ih₁ ih₂ ih₃ ih₄
  | loop cond body ih₁ ih₂ => exact .loop ih₁ ih₂
  | print args ih => exact .print ih
  | ret e ih => exact .ret ih
  | pass => exact .pass
  | empty => exact .empty
  | cons s rest ih₁ ih₂ => exact .cons ih₁ ih₂
  | noElif => exact .noElif
  | elif cond body rest ih₁ ih₂ ih₃ => exact .elif ih₁ ih₂ ih₃
  | noElse => exact .noElse
  | else_ body ih => exact .else_ ih

section Items

theorem parameters_reads (function : String) {r : List Token} (hvalid : (next r).Valid)
    (hcomma : next r ≠ .symbol .comma) : ∀ (params seen : List String) (n : Nat), params ≠ [] →
    params.length ≤ n → params.Nodup → (∀ x ∈ params, x ∉ seen) →
    Reads (parameters function n seen) (ItemTree.paramTokens params ++ r) params r
  | [], _, _, hne, _, _, _ => absurd rfl hne
  | [x], seen, 0, _, hn, _, _ => by simp at hn
  | [x], seen, n + 1, _, _, _, hseen => by
    refine .current (by simp [ItemTree.paramTokens, Token.Valid]) fun l' _ => ?_
    refine (Reads.expectIdent x _ r).bind ?_
    rw [if_neg (hseen x List.mem_cons_self)]
    exact (Reads.notEat hvalid hcomma).bind (.pure _ r)
  | x :: y :: params, seen, 0, _, hn, _, _ => by simp at hn
  | x :: y :: params, seen, n + 1, _, hn, hnodup, hseen => by
    obtain ⟨hx, hrest⟩ := List.nodup_cons.1 hnodup
    refine .current (by simp [ItemTree.paramTokens, Token.Valid]) fun l' _ => ?_
    refine (Reads.expectIdent x _ _).bind ?_
    rw [if_neg (hseen x List.mem_cons_self)]
    refine .eat trivial ?_
    refine (parameters_reads function hvalid hcomma (y :: params) (x :: seen) n (by simp)
      (Nat.le_of_succ_le_succ hn) hrest fun z hz hmem => ?_).bind (.pure _ r)
    rcases List.mem_cons.1 hmem with rfl | hmem
    · exact hx hz
    · exact hseen z (List.mem_cons_of_mem x hz) hmem

theorem paramList_reads (function : String) {params : List String} {n : Nat}
    (hn : params.length ≤ n) (hnodup : params.Nodup) (r : List Token) :
    Reads (paramList function n) (ItemTree.paramTokens params ++ .symbol .rparen :: r) params
      (.symbol .rparen :: r) := by
  have hvalid : (Token.symbol .rparen).Valid := by simp [Token.Valid]
  cases params with
  | nil => exact (Reads.check (r := .symbol .rparen :: r) hvalid _).bind (.pure _ _)
  | cons x params =>
    have hnext : next (ItemTree.paramTokens (x :: params) ++ .symbol .rparen :: r) = .ident x := by
      cases params <;> rfl
    refine (Reads.check (by simp [hnext, Token.Valid]) (.symbol .rparen)).bind ?_
    rw [hnext]
    exact parameters_reads function (r := .symbol .rparen :: r) hvalid (by simp) (x :: params) [] n
      (by simp) hn hnodup (by simp)

theorem length_paramTokens (params : List String) :
    params.length ≤ (ItemTree.paramTokens params).length := by
  induction params with
  | nil => exact Nat.le_refl 0
  | cons x params ih =>
    cases params with
    | nil => exact Nat.le_refl 1
    | cons y params =>
      simp only [ItemTree.paramTokens, List.map_cons, List.intersperse_cons_cons, List.length_cons] at ih ⊢
      omega

theorem function_reads {exported : Bool} {name : String} {params : List String}
    {body : Tree .block} (hnodup : params.Nodup) {n : Nat}
    (hn : (ItemTree.function exported name params body).tokens.length < n) (r : List Token) :
    Reads (function n) ((ItemTree.function exported name params body).tokens ++ r)
      ⟨name, params, body.value, exported⟩ r := by
  have hparams := length_paramTokens params
  have hlength : params.length < n ∧ body.tokens.length < n := by
    cases exported <;> simp [ItemTree.tokens] at hn <;> omega
  rw [function_eq]
  have hrest : Reads (definition n exported)
      (.keyword .def_ :: .ident name :: .symbol .lparen :: (ItemTree.paramTokens params ++
        .symbol .rparen :: .symbol .colon :: (body.tokens ++ .keyword .endDef :: r)))
      ⟨name, params, body.value, exported⟩ r := by
    refine (Reads.expectKeyword .def_ _).bind ?_
    refine (Reads.expectIdent name _ _).bind ?_
    refine (Reads.expectSymbol .lparen _ _).bind ?_
    refine (paramList_reads name (Nat.le_of_lt hlength.1) hnodup _).bind ?_
    refine (Reads.expectSymbol .rparen _ _).bind ?_
    refine (Reads.expectSymbol .colon _ _).bind ?_
    refine (accepted body n n [] .endDef _ hlength.2 hlength.2 (by simp [Token.Ends]) rfl).bind ?_
    exact (Reads.expectKeyword .endDef r).bind (.pure _ r)
  simp only [ItemTree.tokens, List.append_assoc, List.cons_append, List.nil_append]
  cases exported with
  | true => exact .eat trivial hrest
  | false => exact (Reads.notEat (by simp [Token.Valid]) (by simp)).bind hrest

theorem itemWithin_reads : ∀ (i : ItemTree) {n : Nat}, i.Distinct → i.tokens.length < n →
    ∀ r, Reads (itemWithin n) (i.tokens ++ r) (some i.value) r
  | .function exported name params body, n, hdistinct, hn, r => by
    have hread := function_reads hdistinct hn r
    cases exported with
    | true =>
      refine .first trivial fun l' hl' => ?_
      rw [hl']
      exact hread.bind (.pure _ r)
    | false =>
      refine .first trivial fun l' hl' => ?_
      rw [hl']
      exact hread.bind (.pure _ r)
  | .statement s, n, _, hn, r => by
    have hread : Reads (statement n) (s.tokens ++ r) s.value r := accepted s n r hn
    obtain ⟨t, ts, htokens, ht⟩ := s.stmt_opens
    have hnext : next ((ItemTree.statement s).tokens ++ r) = t := by
      simp [ItemTree.tokens, htokens]
    have hvalid : t.Valid := by
      rintro e rfl
      exact ht
    refine .current (hnext ▸ hvalid) fun l' hl' => ?_
    rw [hl', hnext]
    cases t with
    | keyword k =>
      cases k with
      | def_ | extern_ => exact ht.elim
      | _ => exact hread.bind (.pure _ r)
    | endOfFile => exact ht.elim
    | _ => exact hread.bind (.pure _ r)

theorem item_reads {i : ItemTree} (hdistinct : i.Distinct) (r : List Token) :
    Reads item (i.tokens ++ r) (some i.value) r := by
  intro p hp
  have hlength := p.length_rest_lt
  rw [hp, List.length_append] at hlength
  rw [item_apply]
  exact itemWithin_reads i hdistinct (by omega) r p hp

theorem item_stops : Reads item [] none [] := by
  intro p hp
  obtain ⟨l, p₁, hcurrent, -, htoken, hr₁⟩ :=
    current?_of_next (p := p) (by simp [hp, next, Token.Valid])
  have heof : l.token = .endOfFile := by rw [htoken, hp]; rfl
  refine ⟨{ p₁ with finished := true }, ?_, hr₁.trans hp⟩
  rw [item_apply, itemWithin, bind_of_ok hcurrent, heof]
  rfl

theorem itemsUpTo_reads : ∀ (t : ProgramTree) (n : Nat), t.Distinct → t.length < n →
    Reads (itemsUpTo n) t.tokens t.value []
  | _, 0, _, hn => by simp at hn
  | [], n + 1, _, _ => item_stops.bind (.pure [] [])
  | i :: t, n + 1, hdistinct, hn => by
    have hall := List.forall_mem_cons.1 hdistinct
    refine (item_reads hall.1 _).bind ?_
    exact (itemsUpTo_reads t n hall.2 (Nat.lt_of_succ_lt_succ hn)).bind (.pure _ [])

/-- A program that has a derivation is accepted. -/
theorem program_reads {t : ProgramTree} (hdistinct : t.Distinct) :
    Reads program t.tokens t.value [] := by
  intro p hp
  have hlength := p.length_rest_lt
  have hle := t.length_le
  rw [hp] at hlength
  exact itemsUpTo_reads t p.bound hdistinct (by omega) p hp

end Items
end Parser

theorem parseProgram_of_tree {cs : List Char} (t : ProgramTree) (ht : t.Distinct)
    (h : (Source.ofText cs).tokens = t.tokens) : parseProgram cs = .ok t.value := by
  have hrest : ({ source := Source.ofText cs } : Parser).rest = t.tokens := h
  obtain ⟨q, hrun, -⟩ := Parser.program_reads ht _ hrest
  rw [parseProgram, hrun]

end IntLang
