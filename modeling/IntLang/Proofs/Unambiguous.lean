import IntLang.Proofs.Grammar

/-! The grammar is unambiguous: a derivation tree is known from its tokens. A phrase inside a longer text
is known too, wherever the text does not go on with it. -/
namespace IntLang
open Grammar Phrase

namespace Tree

/-- A tree is known from its tokens, wherever it stops. -/
def Determined {s : Phrase} (t : Tree s) : Prop :=
  ∀ (t' : Tree s) (r r' : List Token), t.tokens ++ r = t'.tokens ++ r' → s.Stops r → s.Stops r' →
    t = t' ∧ r = r'

namespace Determined

section Exprs
variable {l : Level}

theorem chain (hl : l.IsChain) {first : Tree (.expr l.next)} {rest : Tree (.tail l)}
    (h₁ : first.Determined) (h₂ : rest.Determined) : (chain hl first rest).Determined := by
  intro t' r r' h hr hr'
  cases t' with
  | chain hl' first' rest' =>
    simp only [tokens, List.append_assoc] at h
    obtain ⟨rfl, hrest⟩ := h₁ first' _ _ h (rest.stops_operand hl.binds_lt hr)
      (rest'.stops_operand hl.binds_lt hr')
    obtain ⟨rfl, rfl⟩ := h₂ rest' _ _ hrest hr hr'
    exact ⟨rfl, rfl⟩
  | _ => exact hl.elim

/-- What ends a chain is no operator of its level. -/
theorem ne_operator {op : BinaryOp} (hop : op.level = l) {r ts : List Token}
    (hr : (Phrase.tail l).Stops r) : r ≠ op.tokens ++ ts := by
  rintro rfl
  have hbinds := op.binds_next ts
  rw [hop] at hbinds
  exact absurd hr (Nat.not_lt.2 (Nat.le_of_eq hbinds.symm))

theorem done : (done : Tree (.tail l)).Determined := by
  intro t' r r' h hr hr'
  cases t' with
  | done => exact ⟨rfl, h⟩
  | more op hop operand rest =>
    simp only [tokens, List.append_assoc] at h
    exact absurd h (ne_operator hop hr)

theorem more {op : BinaryOp} (hop : op.level = l) {operand : Tree (.expr l.next)}
    {rest : Tree (.tail l)} (h₁ : operand.Determined) (h₂ : rest.Determined) :
    (more op hop operand rest).Determined := by
  intro t' r r' h hr hr'
  have hl : l.binds < l.next.binds := hop ▸ op.level_binds_lt
  cases t' with
  | done =>
    simp only [tokens, List.append_assoc] at h
    exact absurd h.symm (ne_operator hop hr')
  | more op' hop' operand' rest' =>
    simp only [tokens, List.append_assoc] at h
    obtain ⟨rfl, htail⟩ := BinaryOp.tokens_append_inj h
    obtain ⟨rfl, hrest⟩ := h₁ operand' _ _ htail (rest.stops_operand hl hr)
      (rest'.stops_operand hl hr')
    obtain ⟨rfl, rfl⟩ := h₂ rest' _ _ hrest hr hr'
    exact ⟨rfl, rfl⟩

theorem not {e : Tree (.expr .not)} (h₁ : e.Determined) : (not e).Determined := by
  intro t' r r' h hr hr'
  cases t' with
  | chain hl => exact hl.elim
  | not e' =>
    obtain ⟨rfl, rfl⟩ := h₁ e' r r' (List.cons.inj h).2 hr hr'
    exact ⟨rfl, rfl⟩
  | affirmed e' => exact absurd (e'.opens_of_eq h.symm) (by decide : ¬ 4 ≤ 3)

theorem affirmed {e : Tree (.expr .comparison)} (h₁ : e.Determined) : (affirmed e).Determined := by
  intro t' r r' h hr hr'
  cases t' with
  | chain hl => exact hl.elim
  | not e' => exact absurd (e.opens_of_eq h) (by decide : ¬ 4 ≤ 3)
  | affirmed e' =>
    obtain ⟨rfl, rfl⟩ := h₁ e' r r' h (Nat.lt_succ_of_lt hr) (Nat.lt_succ_of_lt hr')
    exact ⟨rfl, rfl⟩

theorem minus {e : Tree (.expr .unary)} (h₁ : e.Determined) : (minus e).Determined := by
  intro t' r r' h hr hr'
  cases t' with
  | chain hl => exact hl.elim
  | minus e' =>
    obtain ⟨rfl, rfl⟩ := h₁ e' r r' (List.cons.inj h).2 hr hr'
    exact ⟨rfl, rfl⟩
  | plus e' => cases (List.cons.inj h).1
  | unsigned e' => exact absurd rfl (e'.opens_of_eq h.symm).1

theorem plus {e : Tree (.expr .unary)} (h₁ : e.Determined) : (plus e).Determined := by
  intro t' r r' h hr hr'
  cases t' with
  | chain hl => exact hl.elim
  | minus e' => cases (List.cons.inj h).1
  | plus e' =>
    obtain ⟨rfl, rfl⟩ := h₁ e' r r' (List.cons.inj h).2 hr hr'
    exact ⟨rfl, rfl⟩
  | unsigned e' => exact absurd rfl (e'.opens_of_eq h.symm).1

theorem unsigned {e : Tree (.expr .power)} (h₁ : e.Determined) : (unsigned e).Determined := by
  intro t' r r' h hr hr'
  cases t' with
  | chain hl => exact hl.elim
  | minus e' => exact absurd rfl (e.opens_of_eq h).1
  | plus e' => exact absurd rfl (e.opens_of_eq h).1
  | unsigned e' =>
    obtain ⟨rfl, rfl⟩ := h₁ e' r r' h hr hr'
    exact ⟨rfl, rfl⟩

theorem base {e : Tree (.expr .primary)} (h₁ : e.Determined) : (base e).Determined := by
  intro t' r r' h hr hr'
  cases t' with
  | chain hl => exact hl.elim
  | base e' =>
    obtain ⟨rfl, rfl⟩ := h₁ e' r r' h (Nat.lt_succ_of_lt hr) (Nat.lt_succ_of_lt hr')
    exact ⟨rfl, rfl⟩
  | raised e' exponent =>
    simp only [tokens, List.append_assoc] at h
    obtain ⟨-, rfl⟩ := h₁ e' _ _ h (Nat.lt_succ_of_lt hr) (stops_base _)
    exact absurd hr (Nat.lt_irrefl 7)

theorem raised {e : Tree (.expr .primary)} {exponent : Tree (.expr .unary)} (h₁ : e.Determined)
    (h₂ : exponent.Determined) : (raised e exponent).Determined := by
  intro t' r r' h hr hr'
  cases t' with
  | chain hl => exact hl.elim
  | base e' =>
    simp only [tokens, List.append_assoc] at h
    obtain ⟨-, rfl⟩ := h₁ e' _ _ h (stops_base _) (Nat.lt_succ_of_lt hr')
    exact absurd hr' (Nat.lt_irrefl 7)
  | raised e' exponent' =>
    simp only [tokens, List.append_assoc] at h
    obtain ⟨rfl, hrest⟩ := h₁ e' _ _ h (stops_base _) (stops_base _)
    obtain ⟨rfl, rfl⟩ := h₂ exponent' r r' (List.cons.inj hrest).2 hr hr'
    exact ⟨rfl, rfl⟩

theorem number (value : Int32) : (number value).Determined := by
  intro t' r r' h hr hr'
  cases t' with
  | chain hl => exact hl.elim
  | number value' =>
    obtain ⟨hvalue, rfl⟩ := List.cons.inj h
    cases hvalue
    exact ⟨rfl, rfl⟩
  | var | call | paren => cases (List.cons.inj h).1

theorem var (name : String) : (var name).Determined := by
  intro t' r r' h hr hr'
  cases t' with
  | chain hl => exact hl.elim
  | var name' =>
    obtain ⟨hname, rfl⟩ := List.cons.inj h
    cases hname
    exact ⟨rfl, rfl⟩
  | call name' args =>
    obtain ⟨-, rfl⟩ := List.cons.inj h
    exact absurd hr (Nat.lt_irrefl 8)
  | number | paren => cases (List.cons.inj h).1

theorem call (name : String) {args : Tree .arguments} (h₁ : args.Determined) :
    (call name args).Determined := by
  intro t' r r' h hr hr'
  cases t' with
  | chain hl => exact hl.elim
  | var name' =>
    obtain ⟨-, rfl⟩ := List.cons.inj h
    exact absurd hr' (Nat.lt_irrefl 8)
  | call name' args' =>
    simp only [tokens, List.cons_append, List.append_assoc, List.cons.injEq, Token.ident.injEq,
      true_and, List.nil_append] at h
    obtain ⟨rfl, h⟩ := h
    obtain ⟨rfl, hrest⟩ := h₁ args' _ _ h (.inl rfl) (.inl rfl)
    exact ⟨rfl, (List.cons.inj hrest).2⟩
  | number | paren => cases (List.cons.inj h).1

theorem paren {e : Tree (.expr .or)} (h₁ : e.Determined) : (paren e).Determined := by
  intro t' r r' h hr hr'
  cases t' with
  | chain hl => exact hl.elim
  | paren e' =>
    simp only [tokens, List.cons_append, List.append_assoc, List.cons.injEq, true_and,
      List.nil_append] at h
    obtain ⟨rfl, hrest⟩ := h₁ e' _ _ h (stops_expr rfl r) (stops_expr rfl r')
    exact ⟨rfl, (List.cons.inj hrest).2⟩
  | number | var | call => cases (List.cons.inj h).1

end Exprs

variable {e cond : Tree (.expr .or)} {body : Tree .block} {r r' : List Token}

theorem last (h₁ : e.Determined) : (last e).Determined := by
  intro t' r r' h hr hr'
  cases t' with
  | last e' =>
    obtain ⟨rfl, rfl⟩ := h₁ e' r r' h (.expr_of_list hr) (.expr_of_list hr')
    exact ⟨rfl, rfl⟩
  | comma e' rest' =>
    simp only [tokens, List.append_assoc] at h
    obtain ⟨-, rfl⟩ := h₁ e' _ _ h (.expr_of_list hr) (stops_expr rfl _)
    exact absurd rfl hr.2

theorem comma {rest : Tree .list} (h₁ : e.Determined) (h₂ : rest.Determined) : (comma e rest).Determined := by
  intro t' r r' h hr hr'
  cases t' with
  | last e' =>
    simp only [tokens, List.append_assoc] at h
    obtain ⟨-, rfl⟩ := h₁ e' _ _ h (stops_expr rfl _) (.expr_of_list hr')
    exact absurd rfl hr'.2
  | comma e' rest' =>
    simp only [tokens, List.append_assoc] at h
    obtain ⟨rfl, hrest⟩ := h₁ e' _ _ h (stops_expr rfl _) (stops_expr rfl _)
    obtain ⟨rfl, rfl⟩ := h₂ rest' r r' (List.cons.inj hrest).2 hr hr'
    exact ⟨rfl, rfl⟩

theorem ne_list (hr : Phrase.arguments.Stops r) (es : Tree .list) : r ≠ es.tokens ++ r' := by
  intro h
  cases r with
  | nil => rcases hr with hr | hr <;> cases hr
  | cons t ts =>
    have hopens := es.list_opens h.symm
    rcases hr with rfl | rfl
    · exact hopens
    · exact hopens

theorem none : none.Determined := by
  intro t' r r' h hr hr'
  cases t' with
  | none => exact ⟨rfl, h⟩
  | some es => exact absurd h (ne_list hr es)

theorem some {es : Tree .list} (h₁ : es.Determined) : (some es).Determined := by
  intro t' r r' h hr hr'
  cases t' with
  | none => exact absurd h.symm (ne_list hr' es)
  | some es' =>
    obtain ⟨rfl, rfl⟩ := h₁ es' r r' h (.list_of_arguments hr) (.list_of_arguments hr')
    exact ⟨rfl, rfl⟩

/-- A keyword other than a negation does not start an expression. -/
theorem ne_eval {t : Token} (ht : ¬ t.Opens .or) (e : Tree (.expr .or)) {ts : List Token} :
    t :: ts ≠ (eval e).tokens ++ r := by
  intro h
  rw [tokens, List.append_assoc] at h
  exact ht (e.opens_of_eq h.symm)

theorem assign_ne_eval {name : String} {e' : Tree (.expr .or)} :
    (assign name e).tokens ++ r ≠ (eval e').tokens ++ r' := by
  intro h
  simp only [tokens, List.append_assoc, List.cons_append] at h
  have hsemicolon : (Token.symbol .semicolon).Inner := trivial
  exact e'.inner_second hsemicolon h.symm

theorem assign (name : String) (h₁ : e.Determined) : (assign name e).Determined := by
  intro t' r r' h hr hr'
  cases t' with
  | assign name' e' =>
    simp only [tokens, List.cons_append, List.append_assoc, List.cons.injEq, Token.ident.injEq,
      true_and, List.nil_append] at h
    obtain ⟨rfl, h⟩ := h
    obtain ⟨rfl, hrest⟩ := h₁ e' _ _ h (stops_expr rfl r) (stops_expr rfl r')
    exact ⟨rfl, (List.cons.inj hrest).2⟩
  | eval e' => exact absurd h assign_ne_eval
  | branch | loop | print | ret | pass => cases (List.cons.inj h).1

theorem eval (h₁ : e.Determined) : (eval e).Determined := by
  intro t' r r' h hr hr'
  cases t' with
  | assign name e' => exact absurd h.symm assign_ne_eval
  | eval e' =>
    simp only [tokens, List.append_assoc] at h
    obtain ⟨rfl, hrest⟩ := h₁ e' _ _ h (stops_expr rfl r) (stops_expr rfl r')
    exact ⟨rfl, (List.cons.inj hrest).2⟩
  | branch | loop | print | ret | pass => exact absurd h.symm (ne_eval id e)

theorem loop (h₁ : cond.Determined) (h₂ : body.Determined) : (loop cond body).Determined := by
  intro t' r r' h hr hr'
  cases t' with
  | loop cond' body' =>
    simp only [tokens, List.cons_append, List.append_assoc, List.cons.injEq, true_and,
      List.nil_append] at h
    obtain ⟨rfl, hbody⟩ := h₁ cond' _ _ h (stops_expr rfl _) (stops_expr rfl _)
    obtain ⟨rfl, hrest⟩ := h₂ body' _ _ (List.cons.inj hbody).2 trivial trivial
    exact ⟨rfl, (List.cons.inj hrest).2⟩
  | eval e' => exact absurd h (ne_eval id e')
  | assign | branch | print | ret | pass => cases (List.cons.inj h).1

theorem print {args : Tree .arguments} (h₁ : args.Determined) : (print args).Determined := by
  intro t' r r' h hr hr'
  cases t' with
  | print args' =>
    simp only [tokens, List.cons_append, List.append_assoc, List.cons.injEq, true_and,
      List.nil_append] at h
    obtain ⟨rfl, hrest⟩ := h₁ args' _ _ h (.inr rfl) (.inr rfl)
    exact ⟨rfl, (List.cons.inj hrest).2⟩
  | eval e' => exact absurd h (ne_eval id e')
  | assign | branch | loop | ret | pass => cases (List.cons.inj h).1

theorem ret (h₁ : e.Determined) : (ret e).Determined := by
  intro t' r r' h hr hr'
  cases t' with
  | ret e' =>
    simp only [tokens, List.cons_append, List.append_assoc, List.cons.injEq, true_and,
      List.nil_append] at h
    obtain ⟨rfl, hrest⟩ := h₁ e' _ _ h (stops_expr rfl r) (stops_expr rfl r')
    exact ⟨rfl, (List.cons.inj hrest).2⟩
  | eval e' => exact absurd h (ne_eval id e')
  | assign | branch | loop | print | pass => cases (List.cons.inj h).1

theorem pass : pass.Determined := by
  intro t' r r' h hr hr'
  cases t' with
  | pass => exact ⟨rfl, (List.cons.inj (List.cons.inj h).2).2⟩
  | eval e' => exact absurd h (ne_eval id e')
  | assign | branch | loop | print | ret => cases (List.cons.inj h).1

theorem branch {arms : Tree .elifs} {fallback : Tree .otherwise} (h₁ : cond.Determined) (h₂ : body.Determined)
    (h₃ : arms.Determined) (h₄ : fallback.Determined) :
    (branch cond body arms fallback).Determined := by
  intro t' r r' h hr hr'
  cases t' with
  | branch cond' body' arms' fallback' =>
    simp only [tokens, List.cons_append, List.append_assoc, List.cons.injEq, true_and,
      List.nil_append] at h
    obtain ⟨rfl, hbody⟩ := h₁ cond' _ _ h (stops_expr rfl _) (stops_expr rfl _)
    obtain ⟨rfl, harms⟩ := h₂ body' _ _ (List.cons.inj hbody).2
      (arms.stops_block (fallback.stops_elifs r)) (arms'.stops_block (fallback'.stops_elifs r'))
    obtain ⟨rfl, hlast⟩ := h₃ arms' _ _ harms (fallback.stops_elifs r) (fallback'.stops_elifs r')
    obtain ⟨rfl, hrest⟩ := h₄ fallback' _ _ hlast rfl rfl
    exact ⟨rfl, (List.cons.inj hrest).2⟩
  | eval e' => exact absurd h (ne_eval id e')
  | assign | loop | print | ret | pass => cases (List.cons.inj h).1

/-- What ends a block does not start a statement. -/
theorem ne_cons (hr : Phrase.block.Stops r) (s : Tree .stmt)
    (rest : Tree .block) : r ≠ (cons s rest).tokens ++ r' := by
  rintro rfl
  obtain ⟨t, ts, htokens, ht⟩ := s.stmt_opens
  rw [tokens, htokens] at hr
  exact Token.Ends.not_opensStatement hr ht

theorem empty : empty.Determined := by
  intro t' r r' h hr hr'
  cases t' with
  | empty => exact ⟨rfl, h⟩
  | cons s rest => exact absurd h (ne_cons hr s rest)

theorem cons {s : Tree .stmt} {rest : Tree .block} (h₁ : s.Determined) (h₂ : rest.Determined) :
    (cons s rest).Determined := by
  intro t' r r' h hr hr'
  cases t' with
  | empty => exact absurd h.symm (ne_cons hr' s rest)
  | cons s' rest' =>
    simp only [tokens, List.append_assoc] at h
    obtain ⟨rfl, hrest⟩ := h₁ s' _ _ h trivial trivial
    obtain ⟨rfl, rfl⟩ := h₂ rest' r r' hrest hr hr'
    exact ⟨rfl, rfl⟩

theorem noElif : noElif.Determined := by
  intro t' r r' h hr hr'
  cases t' with
  | noElif => exact ⟨rfl, h⟩
  | elif cond body rest =>
    obtain rfl : r = _ := h
    rcases hr with hr | hr <;> cases hr

theorem elif {rest : Tree .elifs} (h₁ : cond.Determined) (h₂ : body.Determined) (h₃ : rest.Determined) :
    (elif cond body rest).Determined := by
  intro t' r r' h hr hr'
  cases t' with
  | noElif =>
    obtain rfl : _ = r' := h
    rcases hr' with hr' | hr' <;> cases hr'
  | elif cond' body' rest' =>
    simp only [tokens, List.cons_append, List.append_assoc, List.cons.injEq, true_and] at h
    obtain ⟨rfl, hbody⟩ := h₁ cond' _ _ h (stops_expr rfl _) (stops_expr rfl _)
    obtain ⟨rfl, hrest⟩ := h₂ body' _ _ (List.cons.inj hbody).2 (rest.stops_block hr)
      (rest'.stops_block hr')
    obtain ⟨rfl, rfl⟩ := h₃ rest' r r' hrest hr hr'
    exact ⟨rfl, rfl⟩

theorem noElse : noElse.Determined := by
  intro t' r r' h hr hr'
  cases t' with
  | noElse => exact ⟨rfl, h⟩
  | else_ body =>
    obtain rfl : r = _ := h
    cases hr

theorem else_ (h₁ : body.Determined) : (else_ body).Determined := by
  intro t' r r' h hr hr'
  cases t' with
  | noElse =>
    obtain rfl : _ = r' := h
    cases hr'
  | else_ body' =>
    simp only [tokens, List.cons_append, List.cons.injEq, true_and] at h
    obtain ⟨rfl, rfl⟩ := h₁ body' r r' h (.block_of_otherwise hr) (.block_of_otherwise hr')
    exact ⟨rfl, rfl⟩

end Determined

theorem determined {s : Phrase} (t : Tree s) : t.Determined := by
  induction t with
  | chain h first rest ih₁ ih₂ => exact .chain h ih₁ ih₂
  | done => exact .done
  | more op h operand rest ih₁ ih₂ => exact .more h ih₁ ih₂
  | not e ih => exact .not ih
  | affirmed e ih => exact .affirmed ih
  | minus e ih => exact .minus ih
  | plus e ih => exact .plus ih
  | unsigned e ih => exact .unsigned ih
  | base e ih => exact .base ih
  | raised e exponent ih₁ ih₂ => exact .raised ih₁ ih₂
  | number value => exact .number value
  | var name => exact .var name
  | call name args ih => exact .call name ih
  | paren e ih => exact .paren ih
  | last e ih => exact .last ih
  | comma e rest ih₁ ih₂ => exact .comma ih₁ ih₂
  | none => exact .none
  | some es ih => exact .some ih
  | assign name e ih => exact .assign name ih
  | eval e ih => exact .eval ih
  | branch cond body arms fallback ih₁ ih₂ ih₃ ih₄ => exact .branch ih₁ ih₂ ih₃ ih₄
  | loop cond body ih₁ ih₂ => exact .loop ih₁ ih₂
  | print args ih => exact .print ih
  | ret e ih => exact .ret ih
  | pass => exact .pass
  | empty => exact .empty
  | cons s rest ih₁ ih₂ => exact .cons ih₁ ih₂
  | noElif => exact .noElif
  | elif cond body rest ih₁ ih₂ ih₃ => exact .elif ih₁ ih₂ ih₃
  | noElse => exact .noElse
  | else_ body ih => exact .else_ ih

end Tree

namespace ItemTree

theorem paramTokens_cons_cons (x y : String) (params : List String) :
    paramTokens (x :: y :: params) = .ident x :: .symbol .comma :: paramTokens (y :: params) :=
  rfl

/-- Parameters are known from their tokens, up to the parenthesis. -/
theorem paramTokens_append_inj : ∀ (params params' : List String) {r r' : List Token},
    paramTokens params ++ .symbol .rparen :: r = paramTokens params' ++ .symbol .rparen :: r' →
    params = params' ∧ r = r'
  | [], [], _, _, h => ⟨rfl, (List.cons.inj h).2⟩
  | [], [x], _, _, h => by cases (List.cons.inj h).1
  | [], x :: y :: params, _, _, h => by cases (List.cons.inj h).1
  | [x], [], _, _, h => by cases (List.cons.inj h).1
  | x :: y :: params, [], _, _, h => by cases (List.cons.inj h).1
  | [x], [x'], _, _, h => by
    obtain ⟨hx, hclose⟩ := List.cons.inj h
    cases hx
    exact ⟨rfl, (List.cons.inj hclose).2⟩
  | [x], x' :: y' :: params', _, _, h => by cases (List.cons.inj (List.cons.inj h).2).1
  | x :: y :: params, [x'], _, _, h => by cases (List.cons.inj (List.cons.inj h).2).1
  | x :: y :: params, x' :: y' :: params', _, _, h => by
    rw [paramTokens_cons_cons, paramTokens_cons_cons] at h
    obtain ⟨hx, hcomma⟩ := List.cons.inj h
    obtain ⟨hparams, hr⟩ := paramTokens_append_inj (y :: params) (y' :: params')
      (List.cons.inj hcomma).2
    cases hx
    rw [hparams]
    exact ⟨rfl, hr⟩

theorem statement_ne_function {s : Tree .stmt} {exported : Bool} {name : String}
    {params : List String} {body : Tree .block} {r r' : List Token} :
    (statement s).tokens ++ r ≠ (function exported name params body).tokens ++ r' := by
  intro h
  obtain ⟨t, ts, htokens, ht⟩ := s.stmt_opens
  simp only [tokens] at h
  rw [htokens] at h
  cases exported with
  | true =>
    rw [(List.cons.inj h).1] at ht
    exact ht
  | false =>
    rw [(List.cons.inj h).1] at ht
    exact ht

/-- An item is known from its tokens, whatever comes after it. -/
theorem determined : ∀ (i i' : ItemTree) {r r' : List Token}, i.tokens ++ r = i'.tokens ++ r' →
    i = i' ∧ r = r'
  | statement s, statement s', r, r', h => by
    obtain ⟨rfl, rfl⟩ := s.determined s' r r' h trivial trivial
    exact ⟨rfl, rfl⟩
  | statement s, function _ _ _ _, r, r', h => absurd h statement_ne_function
  | function _ _ _ _, statement s, r, r', h => absurd h.symm statement_ne_function
  | function exported name params body, function exported' name' params' body', r, r', h => by
    obtain rfl : exported = exported' := by
      cases exported <;> cases exported' <;> first | rfl | cases (List.cons.inj h).1
    simp only [tokens, List.append_assoc, List.append_cancel_left_eq, List.cons_append,
      List.cons.injEq, true_and, Token.ident.injEq] at h
    obtain ⟨rfl, hparams⟩ := h
    obtain ⟨rfl, hcolon⟩ := paramTokens_append_inj params params' hparams
    obtain ⟨rfl, hclose⟩ := body.determined body' _ _ (List.cons.inj hcolon).2 trivial trivial
    exact ⟨rfl, (List.cons.inj hclose).2⟩

end ItemTree

theorem ProgramTree.tokens_inj : ∀ {t t' : ProgramTree}, t.tokens = t'.tokens → t = t'
  | [], [], _ => rfl
  | [], i :: t', h => absurd (List.append_eq_nil_iff.1 h.symm).1 i.tokens_ne_nil
  | i :: t, [], h => absurd (List.append_eq_nil_iff.1 h).1 i.tokens_ne_nil
  | i :: t, i' :: t', h => by
    obtain ⟨rfl, hrest⟩ := i.determined i' h
    rw [tokens_inj (t := t) hrest]

end IntLang
