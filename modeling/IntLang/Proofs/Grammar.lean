import IntLang.Token
import IntLang.Tree.Basic

/-! The grammar, as a type of derivation trees. A tree has the tokens it derives and the syntax tree that
the grammar assigns to it. -/
namespace IntLang

inductive Level where
  | or | and | not | comparison | additive | multiplicative | unary | power | primary
  deriving DecidableEq

namespace Level

def next : Level → Level
  | or => and
  | and => not
  | not => comparison
  | comparison => additive
  | additive => multiplicative
  | multiplicative => unary
  | unary => power
  | power | primary => primary

/-- Expressions of the level are operands with operators between them, grouped to the left. -/
def IsChain : Level → Prop
  | or | and | comparison | additive | multiplicative => True
  | not | unary | power | primary => False

end Level

def BinaryOp.level : BinaryOp → Level
  | or => .or
  | and => .and
  | lt | gt | le | ge | eq | ne | in_ | notIn => .comparison
  | add | sub => .additive
  | mul | div | mod => .multiplicative
  | pow => .power

def BinaryOp.tokens : BinaryOp → List Token
  | or => [.keyword .or]
  | and => [.keyword .and]
  | lt => [.symbol .less]
  | gt => [.symbol .greater]
  | le => [.symbol .lessEq]
  | ge => [.symbol .greaterEq]
  | eq => [.symbol .eqEq]
  | ne => [.symbol .notEq]
  | in_ => [.keyword .in_]
  | notIn => [.keyword .not, .keyword .in_]
  | add => [.symbol .plus]
  | sub => [.symbol .minus]
  | mul => [.symbol .star]
  | div => [.symbol .slash]
  | mod => [.symbol .percent]
  | pow => [.symbol .starStar]

inductive Phrase where
  | expr (l : Level)
  | tail (l : Level)
  | list
  | arguments
  | stmt
  | block
  | elifs
  | otherwise

/-- What a phrase stands for. -/
abbrev Phrase.Value : Phrase → Type
  | expr _ => Expr
  | tail _ => Expr → Expr
  | list | arguments => List Expr
  | stmt => Stmt
  | block | otherwise => List Stmt
  | elifs => List (Expr × List Stmt)

inductive Tree : Phrase → Type where
  | chain {l : Level} (h : l.IsChain) (first : Tree (.expr l.next)) (rest : Tree (.tail l)) :
      Tree (.expr l)
  | done {l : Level} : Tree (.tail l)
  | more {l : Level} (op : BinaryOp) (h : op.level = l) (operand : Tree (.expr l.next))
      (rest : Tree (.tail l)) : Tree (.tail l)
  | not (e : Tree (.expr .not)) : Tree (.expr .not)
  | affirmed (e : Tree (.expr .comparison)) : Tree (.expr .not)
  | minus (e : Tree (.expr .unary)) : Tree (.expr .unary)
  | plus (e : Tree (.expr .unary)) : Tree (.expr .unary)
  | unsigned (e : Tree (.expr .power)) : Tree (.expr .unary)
  | base (e : Tree (.expr .primary)) : Tree (.expr .power)
  | raised (e : Tree (.expr .primary)) (exponent : Tree (.expr .unary)) : Tree (.expr .power)
  | number (value : Int32) : Tree (.expr .primary)
  | var (name : String) : Tree (.expr .primary)
  | call (name : String) (args : Tree .arguments) : Tree (.expr .primary)
  | paren (e : Tree (.expr .or)) : Tree (.expr .primary)
  | last (e : Tree (.expr .or)) : Tree .list
  | comma (e : Tree (.expr .or)) (rest : Tree .list) : Tree .list
  | none : Tree .arguments
  | some (es : Tree .list) : Tree .arguments
  | assign (name : String) (e : Tree (.expr .or)) : Tree .stmt
  | eval (e : Tree (.expr .or)) : Tree .stmt
  | branch (cond : Tree (.expr .or)) (body : Tree .block) (arms : Tree .elifs)
      (fallback : Tree .otherwise) : Tree .stmt
  | loop (cond : Tree (.expr .or)) (body : Tree .block) : Tree .stmt
  | print (args : Tree .arguments) : Tree .stmt
  | ret (e : Tree (.expr .or)) : Tree .stmt
  | pass : Tree .stmt
  | empty : Tree .block
  | cons (s : Tree .stmt) (rest : Tree .block) : Tree .block
  | noElif : Tree .elifs
  | elif (cond : Tree (.expr .or)) (body : Tree .block) (rest : Tree .elifs) : Tree .elifs
  | noElse : Tree .otherwise
  | else_ (body : Tree .block) : Tree .otherwise

namespace Tree

def tokens : {s : Phrase} → Tree s → List Token
  | _, chain _ first rest => first.tokens ++ rest.tokens
  | _, done => []
  | _, more op _ operand rest => op.tokens ++ (operand.tokens ++ rest.tokens)
  | _, not e => .keyword .not :: e.tokens
  | _, affirmed e => e.tokens
  | _, minus e => .symbol .minus :: e.tokens
  | _, plus e => .symbol .plus :: e.tokens
  | _, unsigned e => e.tokens
  | _, base e => e.tokens
  | _, raised e exponent => e.tokens ++ .symbol .starStar :: exponent.tokens
  | _, number value => [.number value]
  | _, var name => [.ident name]
  | _, call name args => .ident name :: .symbol .lparen :: (args.tokens ++ [.symbol .rparen])
  | _, paren e => .symbol .lparen :: (e.tokens ++ [.symbol .rparen])
  | _, last e => e.tokens
  | _, comma e rest => e.tokens ++ .symbol .comma :: rest.tokens
  | _, none => []
  | _, some es => es.tokens
  | _, assign name e => .ident name :: .symbol .equal :: (e.tokens ++ [.symbol .semicolon])
  | _, eval e => e.tokens ++ [.symbol .semicolon]
  | _, branch cond body arms fallback =>
    .keyword .if_ :: (cond.tokens ++ .symbol .colon :: (body.tokens ++ (arms.tokens ++
      (fallback.tokens ++ [.keyword .endIf]))))
  | _, loop cond body =>
    .keyword .while_ :: (cond.tokens ++ .symbol .colon :: (body.tokens ++ [.keyword .endWhile]))
  | _, print args => .keyword .print :: (args.tokens ++ [.symbol .semicolon])
  | _, ret e => .keyword .return_ :: (e.tokens ++ [.symbol .semicolon])
  | _, pass => [.keyword .pass, .symbol .semicolon]
  | _, empty => []
  | _, cons s rest => s.tokens ++ rest.tokens
  | _, noElif => []
  | _, elif cond body rest =>
    .keyword .elif :: (cond.tokens ++ .symbol .colon :: (body.tokens ++ rest.tokens))
  | _, noElse => []
  | _, else_ body => .keyword .else_ :: .symbol .colon :: body.tokens

def value : {s : Phrase} → Tree s → s.Value
  | _, chain _ first rest => rest.value first.value
  | _, done => id
  | _, more op _ operand rest => fun lhs => rest.value (.binary op lhs operand.value)
  | _, not e => Expr.unary .not e.value
  | _, affirmed e => e.value
  | _, minus e => Expr.unary .negate e.value
  | _, plus e => Expr.unary .identity e.value
  | _, unsigned e => e.value
  | _, base e => e.value
  | _, raised e exponent => Expr.binary .pow e.value exponent.value
  | _, number value => Expr.number value
  | _, var name => Expr.var name
  | _, call name args => Expr.call name args.value
  | _, paren e => e.value
  | _, last e => [e.value]
  | _, comma e rest => e.value :: rest.value
  | _, none => []
  | _, some es => es.value
  | _, assign name e => Stmt.assign name e.value
  | _, eval e => Stmt.eval e.value
  | _, branch cond body arms fallback => Stmt.branch cond.value body.value arms.value fallback.value
  | _, loop cond body => Stmt.loop cond.value body.value
  | _, print args => Stmt.print args.value
  | _, ret e => Stmt.ret e.value
  | _, pass => Stmt.pass
  | _, empty => []
  | _, cons s rest => s.value :: rest.value
  | _, noElif => []
  | _, elif cond body rest => (cond.value, body.value) :: rest.value
  | _, noElse => []
  | _, else_ body => body.value

end Tree

inductive ItemTree where
  | function (exported : Bool) (name : String) (params : List String) (body : Tree .block)
  | statement (s : Tree .stmt)

namespace ItemTree

def paramTokens (params : List String) : List Token :=
  (params.map .ident).intersperse (.symbol .comma)

def tokens : ItemTree → List Token
  | function exported name params body =>
    (if exported then [.keyword .extern_] else []) ++ .keyword .def_ :: .ident name ::
      .symbol .lparen :: (paramTokens params ++ .symbol .rparen :: .symbol .colon ::
        (body.tokens ++ [.keyword .endDef]))
  | statement s => s.tokens

def value : ItemTree → Item
  | function exported name params body => .function ⟨name, params, body.value, exported⟩
  | statement s => .statement s.value

def Distinct : ItemTree → Prop
  | function _ _ params _ => params.Nodup
  | statement _ => True

end ItemTree

abbrev ProgramTree := List ItemTree

namespace ProgramTree

def tokens (t : ProgramTree) : List Token :=
  t.flatMap ItemTree.tokens

def value (t : ProgramTree) : Program :=
  t.map ItemTree.value

def Distinct (t : ProgramTree) : Prop :=
  ∀ i ∈ t, i.Distinct

end ProgramTree

namespace Grammar

def next (ts : List Token) : Token :=
  ts.headD .endOfFile

end Grammar
open Grammar

def Token.binds : Token → Nat
  | .keyword .or => 1
  | .keyword .and => 2
  | .keyword .in_ | .keyword .not => 4
  | .symbol .less | .symbol .lessEq | .symbol .greater | .symbol .greaterEq => 4
  | .symbol .eqEq | .symbol .notEq => 4
  | .symbol .plus | .symbol .minus => 5
  | .symbol .star | .symbol .slash | .symbol .percent => 6
  | .symbol .starStar => 7
  | .symbol .lparen => 8
  | .invalid _ => 9
  | _ => 0

def Level.binds : Level → Nat
  | or => 1
  | and => 2
  | not => 3
  | comparison => 4
  | additive => 5
  | multiplicative => 6
  | unary | power => 7
  | primary => 8

def Token.Opens (l : Level) : Token → Prop
  | .number _ | .ident _ | .symbol .lparen => True
  | .symbol .plus | .symbol .minus => l ≠ .power ∧ l ≠ .primary
  | .keyword .not => l.binds ≤ 3
  | _ => False

/-- A token that ends the statements of a block. -/
def Token.Ends : Token → Prop
  | .keyword .elif | .keyword .else_ => True
  | .keyword .endIf | .keyword .endWhile | .keyword .endDef => True
  | _ => False

/-- What is left after a phrase does not go on with it. -/
def Phrase.Stops : Phrase → List Token → Prop
  | expr l, r | tail l, r => (next r).binds < l.binds
  | list, r => (next r).binds = 0 ∧ next r ≠ .symbol .comma
  | arguments, r => next r = .symbol .rparen ∨ next r = .symbol .semicolon
  | stmt, _ => True
  | block, r => (next r).Ends
  | elifs, r => next r = .keyword .else_ ∨ next r = .keyword .endIf
  | otherwise, r => next r = .keyword .endIf

section Ends
variable {l : Level} {r : List Token}

@[simp] theorem Grammar.next_cons (t : Token) (ts : List Token) : next (t :: ts) = t :=
  rfl

theorem Level.IsChain.binds_lt (h : l.IsChain) : l.binds < l.next.binds := by
  cases l with
  | or | and | comparison | additive | multiplicative => decide
  | not | unary | power | primary => exact h.elim

theorem Level.binds_pos (l : Level) : 0 < l.binds := by
  cases l <;> decide

theorem BinaryOp.binds_next (op : BinaryOp) (ts : List Token) :
    (next (op.tokens ++ ts)).binds = op.level.binds := by
  cases op <;> rfl

theorem BinaryOp.level_binds_lt (op : BinaryOp) : op.level.binds < op.level.next.binds := by
  cases op <;> decide

theorem BinaryOp.tokens_append_inj {op op' : BinaryOp} {ts ts' : List Token}
    (h : op.tokens ++ ts = op'.tokens ++ ts') : op = op' ∧ ts = ts' := by
  cases op <;> cases op' <;> simp_all [BinaryOp.tokens]

/-- An operand ends where its operator or the end of the chain comes. -/
theorem Tree.stops_operand (h : l.binds < l.next.binds) :
    ∀ t : Tree (.tail l), (Phrase.tail l).Stops r → (Phrase.expr l.next).Stops (t.tokens ++ r)
  | .done, hr => Nat.lt_trans hr h
  | .more op hop operand rest, _ => by
    have hbinds := op.binds_next (operand.tokens ++ rest.tokens ++ r)
    rw [hop] at hbinds
    simp only [Phrase.Stops, Tree.tokens, List.append_assoc] at hbinds ⊢
    rw [hbinds]
    exact h

namespace Phrase

/-- Any expression ends where a token comes that binds nothing. -/
theorem stops_expr {t : Token} (ht : t.binds = 0) (r : List Token) : (expr l).Stops (t :: r) :=
  Nat.lt_of_le_of_lt (Nat.le_of_eq ht) l.binds_pos

theorem stops_base (r : List Token) : (expr .primary).Stops (.symbol .starStar :: r) :=
  (by decide : 7 < 8)

theorem Stops.expr_of_list (h : list.Stops r) : (expr .or).Stops r :=
  Nat.lt_of_le_of_lt (Nat.le_of_eq h.1) (Level.binds_pos .or)

theorem Stops.list_of_arguments (h : arguments.Stops r) : list.Stops r := by
  rcases h with h | h
  · exact ⟨by rw [h]; rfl, by rw [h]; simp⟩
  · exact ⟨by rw [h]; rfl, by rw [h]; simp⟩

theorem Stops.block_of_otherwise (h : otherwise.Stops r) : block.Stops r := by
  change next r = _ at h
  change (next r).Ends
  rw [h]
  trivial

end Phrase

/-- The body of a branch ends where the other arms come. -/
theorem Tree.stops_block (hr : Phrase.elifs.Stops r) (arms : Tree .elifs) :
    Phrase.block.Stops (arms.tokens ++ r) := by
  cases arms with
  | noElif =>
    change (next r).Ends
    rcases hr with hr | hr
    · rw [hr]
      trivial
    · rw [hr]
      trivial
  | elif cond body rest => trivial

theorem Tree.stops_elifs (fallback : Tree .otherwise) (r : List Token) :
    Phrase.elifs.Stops (fallback.tokens ++ .keyword .endIf :: r) := by
  cases fallback with
  | noElse => exact .inr rfl
  | else_ body => exact .inl rfl

end Ends

theorem Token.Opens.loosen {l l' : Level} {t : Token} (h : t.Opens l') (hl : l.binds ≤ l'.binds)
    (hpower : l = .power ∨ l = .primary → l' = .power ∨ l' = .primary) : t.Opens l := by
  have hsign (hs : l' ≠ .power ∧ l' ≠ .primary) : l ≠ .power ∧ l ≠ .primary :=
    ⟨fun he => (hpower (.inl he)).elim hs.1 hs.2, fun he => (hpower (.inr he)).elim hs.1 hs.2⟩
  cases t with
  | number | ident => trivial
  | symbol s =>
    cases s with
    | lparen => trivial
    | plus | minus => exact hsign h
    | _ => exact h.elim
  | keyword k =>
    cases k with
    | not => exact Nat.le_trans hl h
    | _ => exact h.elim
  | invalid | endOfFile => exact h.elim

/-- An expression starts with a token that its level allows. -/
theorem Tree.opens : ∀ {l : Level} (e : Tree (.expr l)), ∃ t ts, e.tokens = t :: ts ∧ t.Opens l
  | l, .chain h first rest => by
    obtain ⟨t, ts, htokens, ht⟩ := first.opens
    refine ⟨t, ts ++ rest.tokens, by simp [Tree.tokens, htokens], ht.loosen (Nat.le_of_lt h.binds_lt) ?_⟩
    rintro (rfl | rfl)
    · exact h.elim
    · exact h.elim
  | _, .not e => ⟨_, _, rfl, Nat.le_refl 3⟩
  | _, .affirmed e => by
    obtain ⟨t, ts, htokens, ht⟩ := e.opens
    exact ⟨t, ts, htokens, ht.loosen (by decide) (by simp)⟩
  | _, .minus e => ⟨_, _, rfl, ⟨by decide, by decide⟩⟩
  | _, .plus e => ⟨_, _, rfl, ⟨by decide, by decide⟩⟩
  | _, .unsigned e => by
    obtain ⟨t, ts, htokens, ht⟩ := e.opens
    exact ⟨t, ts, htokens, ht.loosen (by decide) (by simp)⟩
  | _, .base e => by
    obtain ⟨t, ts, htokens, ht⟩ := e.opens
    exact ⟨t, ts, htokens, ht.loosen (by decide) (by simp)⟩
  | _, .raised e exponent => by
    obtain ⟨t, ts, htokens, ht⟩ := e.opens
    refine ⟨t, ts ++ .symbol .starStar :: exponent.tokens, ?_, ht.loosen (by decide) (by simp)⟩
    simp [Tree.tokens, htokens]
  | _, .number _ => ⟨_, _, rfl, trivial⟩
  | _, .var _ => ⟨_, _, rfl, trivial⟩
  | _, .call _ _ => ⟨_, _, rfl, trivial⟩
  | _, .paren _ => ⟨_, _, rfl, trivial⟩

theorem Tree.opens_of_eq {l : Level} (e : Tree (.expr l)) {t : Token} {r ts : List Token}
    (h : e.tokens ++ r = t :: ts) : t.Opens l := by
  obtain ⟨t', ts', htokens, ht⟩ := e.opens
  rw [htokens] at h
  exact (List.cons.inj h).1 ▸ ht

theorem Tree.list_opens (es : Tree .list) {t : Token} {r ts : List Token}
    (h : es.tokens ++ r = t :: ts) : t.Opens .or := by
  cases es with
  | last e => exact e.opens_of_eq h
  | comma e rest =>
    rw [Tree.tokens, List.append_assoc] at h
    exact e.opens_of_eq h

def Phrase.IsExpression : Phrase → Prop
  | expr _ | tail _ | list | arguments => True
  | stmt | block | elifs | otherwise => False

def Token.Inner : Token → Prop
  | .symbol .equal | .invalid _ => False
  | _ => True

theorem BinaryOp.inner (op : BinaryOp) : ∀ t ∈ op.tokens, t.Inner := by
  cases op <;> simp [BinaryOp.tokens, Token.Inner]

/-- There is no assignment inside an expression. -/
theorem Tree.inner {s : Phrase} (t : Tree s) (hs : s.IsExpression) : ∀ x ∈ t.tokens, x.Inner := by
  induction t with
  | chain h first rest ih₁ ih₂ =>
    exact List.forall_mem_append.2 ⟨ih₁ trivial, ih₂ trivial⟩
  | more op h operand rest ih₁ ih₂ =>
    exact List.forall_mem_append.2 ⟨op.inner, List.forall_mem_append.2 ⟨ih₁ trivial, ih₂ trivial⟩⟩
  | raised e exponent ih₁ ih₂ | comma e rest ih₁ ih₂ =>
    exact List.forall_mem_append.2 ⟨ih₁ trivial, List.forall_mem_cons.2 ⟨trivial, ih₂ trivial⟩⟩
  | not e ih | minus e ih | plus e ih => exact List.forall_mem_cons.2 ⟨trivial, ih trivial⟩
  | affirmed e ih | unsigned e ih | base e ih | last e ih | some e ih => exact ih trivial
  | call name args ih =>
    simpa [Tree.tokens, or_imp, forall_and, Token.Inner] using ih trivial
  | paren e ih =>
    simpa [Tree.tokens, or_imp, forall_and, Token.Inner] using ih trivial
  | done | number | var | none => simp [Tree.tokens, Token.Inner]
  | assign | eval | branch | loop | print | ret | pass | empty | cons | noElif | elif | noElse
  | else_ => exact hs.elim

/-- The second token of an expression, or what ends it, does not make it an assignment. -/
theorem Tree.inner_second {l : Level} (e : Tree (.expr l)) {t t' : Token} {r ts : List Token}
    (ht : t'.Inner) (h : e.tokens ++ t' :: r = t :: ts) : (next ts).Inner := by
  obtain ⟨x, xs, htokens, -⟩ := e.opens
  have hinner := e.inner trivial
  rw [htokens] at h hinner
  obtain ⟨-, rfl⟩ := List.cons.inj h
  cases xs with
  | nil => exact ht
  | cons y ys => exact hinner y (List.mem_cons_of_mem x List.mem_cons_self)

def Token.OpensStatement : Token → Prop
  | .keyword .if_ | .keyword .while_ | .keyword .print | .keyword .return_ | .keyword .pass => True
  | t => t.Opens .or

theorem Tree.stmt_opens (s : Tree .stmt) :
    ∃ t ts, s.tokens = t :: ts ∧ t.OpensStatement := by
  cases s with
  | eval e =>
    obtain ⟨t, ts, htokens, ht⟩ := e.opens
    refine ⟨t, ts ++ [Token.symbol .semicolon], by simp [Tree.tokens, htokens], ?_⟩
    unfold Token.OpensStatement
    split
    · trivial
    · trivial
    · trivial
    · trivial
    · trivial
    · exact ht
  | _ => exact ⟨_, _, rfl, trivial⟩

theorem ItemTree.tokens_ne_nil (i : ItemTree) : i.tokens ≠ [] := by
  cases i with
  | statement s =>
    obtain ⟨t, ts, htokens, -⟩ := s.stmt_opens
    simp [ItemTree.tokens, htokens]
  | function => simp [ItemTree.tokens]

theorem Token.Ends.not_opensStatement {t : Token} (h : t.Ends) : ¬ t.OpensStatement := by
  unfold Token.Ends at h
  split at h
  all_goals first | exact h.elim | exact id

theorem ProgramTree.length_le (t : ProgramTree) : t.length ≤ t.tokens.length := by
  induction t with
  | nil => exact Nat.le_refl 0
  | cons i t ih =>
    have hpos := List.length_pos_iff.2 i.tokens_ne_nil
    simp only [ProgramTree.tokens, List.flatMap_cons, List.length_append, List.length_cons] at ih ⊢
    omega

end IntLang
