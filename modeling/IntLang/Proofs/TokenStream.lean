import IntLang.Proofs.Grammar
import IntLang.Tree.Parser

/-! What a parser has still to read, as a list of tokens. The tokens it holds and those that its source has
not given away yet are one list, and each operation of a parser is described by what it does to that
list. -/
namespace IntLang
open Grammar

/-- The tokens from a lexeme on, if one is held. There are none from the end of the input on. -/
def held : Option Lexeme → List Token → List Token
  | none, ts => ts
  | some l, ts => if l.token = .endOfFile then [] else l.token :: ts

def Source.tokens (s : Source) : List Token :=
  (s.lexemes.1.map (·.token)).takeWhile (· ≠ .endOfFile)

def Parser.rest (p : Parser) : List Token :=
  held p.current (held p.lookahead p.source.tokens)

def Token.Valid (t : Token) : Prop :=
  ∀ e, t ≠ .invalid e

theorem Token.exists_invalid {t : Token} (h : ¬ t.Valid) : ∃ e, t = .invalid e := by
  simpa [Token.Valid] using h

theorem Parser.exists_succ {m n : Nat} (h : m < n) : ∃ k, n = k + 1 :=
  Nat.exists_eq_add_one_of_ne_zero (Nat.ne_zero_of_lt h)

section Streams

theorem Source.tokens_eq (s : Source) :
    s.tokens = held (some s.nextLexeme.1) s.nextLexeme.2.tokens := by
  rw [tokens, lexemes, held]
  split
  · next h => simp [h]
  · next h => simp [h, tokens]

theorem Source.length_tokens_le (s : Source) : s.tokens.length ≤ s.size := by
  induction hn : s.size using Nat.strongRecOn generalizing s with
  | ind n ih =>
    rw [tokens_eq, held]
    split
    · exact Nat.zero_le n
    · next h =>
      have hlt := s.size_nextLexeme_lt h
      have hle := ih _ (hn ▸ hlt) s.nextLexeme.2 rfl
      simp only [List.length_cons]
      omega

theorem length_held_le (l : Option Lexeme) (ts : List Token) : (held l ts).length ≤ ts.length + 1 := by
  cases l with
  | none => exact Nat.le_succ _
  | some l =>
    rw [held]
    split
    · exact Nat.zero_le _
    · exact Nat.le_refl _

/-- The bound of a parser allows for all it has to read. -/
theorem Parser.length_rest_lt (p : Parser) : p.rest.length + 5 < p.bound := by
  have h₁ := length_held_le p.current (held p.lookahead p.source.tokens)
  have h₂ := length_held_le p.lookahead p.source.tokens
  have h₃ := p.source.length_tokens_le
  unfold rest bound
  omega

@[simp] theorem next_held_some (l : Lexeme) (ts : List Token) : next (held (some l) ts) = l.token := by
  rw [held]
  split
  · next h => exact h.symm
  · rfl

theorem eq_cons_of_next {ts : List Token} {t : Token} (h : next ts = t) (hne : t ≠ .endOfFile) :
    ∃ r, ts = t :: r := by
  cases ts with
  | nil => exact absurd h.symm hne
  | cons t' r => exact ⟨r, congrArg (· :: r) h⟩

theorem held_some_of_ne {l : Lexeme} {ts : List Token} (h : l.token ≠ .endOfFile) :
    held (some l) ts = l.token :: ts :=
  if_neg h

end Streams

namespace Parser

section Sequences
variable {α β : Type} {p p' : Parser}

theorem bind_eq_ok {x : Parse α} {f : α → Parse β} {b : β} :
    (x >>= f) p = .ok b p' ↔ ∃ a p₁, x p = .ok a p₁ ∧ f a p₁ = .ok b p' := by
  change EStateM.bind x f p = _ ↔ _
  unfold EStateM.bind
  cases x p with
  | error e p₁ => simp
  | ok a p₁ =>
    constructor
    · intro h
      exact ⟨a, p₁, rfl, h⟩
    · rintro ⟨a', p₂, hx, hf⟩
      cases hx
      exact hf

theorem bind_of_ok {x : Parse α} {f : α → Parse β} {a : α} (h : x p = .ok a p') :
    (x >>= f) p = f a p' := by
  change EStateM.bind x f p = _
  unfold EStateM.bind
  rw [h]

theorem bind_of_error {x : Parse α} {f : α → Parse β} {e : ParseError} (h : x p = .error e p') :
    (x >>= f) p = .error e p' := by
  change EStateM.bind x f p = _
  unfold EStateM.bind
  rw [h]

theorem pure_eq_ok {a b : α} : (pure a : Parse α) p = .ok b p' ↔ a = b ∧ p = p' := by
  change EStateM.Result.ok a p = .ok b p' ↔ _
  simp

end Sequences

section Tokens
variable {p p' : Parser} {l : Lexeme} {t : Token}

theorem fetch_spec (p : Parser) : ∃ l p', fetch p = .ok l p' ∧ p'.current = p.current ∧
    p'.lookahead = none ∧ held p.lookahead p.source.tokens = held (some l) p'.source.tokens := by
  cases hl : p.lookahead with
  | some l =>
    refine ⟨l, { p with lookahead := none }, ?_, rfl, rfl, rfl⟩
    unfold fetch
    rw [hl]
  | none =>
    refine ⟨p.source.nextLexeme.1, { p with source := p.source.nextLexeme.2 }, ?_, rfl, hl,
      p.source.tokens_eq⟩
    unfold fetch
    rw [hl]

theorem takeCurrent_spec (p : Parser) : ∃ l p', takeCurrent p = .ok l p' ∧ p'.current = none ∧
    p.rest = held (some l) p'.rest := by
  have hget : (get : Parse Parser) p = .ok p p := rfl
  cases hc : p.current with
  | some l =>
    refine ⟨l, { p with current := none }, ?_, rfl, ?_⟩
    · rw [takeCurrent, bind_of_ok hget, hc]
      rfl
    · rw [rest, hc]
      rfl
  | none =>
    obtain ⟨l, p', hfetch, hcurrent, hlook, hheld⟩ := fetch_spec p
    refine ⟨l, p', ?_, hcurrent.trans hc, ?_⟩
    · rw [takeCurrent, bind_of_ok hget, hc]
      exact hfetch
    · rw [rest, rest, hcurrent, hc, hlook]
      exact hheld

theorem rest_eq_nil (h : next p.rest = .endOfFile) : p.rest = [] := by
  obtain ⟨l, p', -, -, hr⟩ := takeCurrent_spec p
  rw [hr, next_held_some] at h
  rw [hr, held, if_pos h]

theorem valid_of_valid (h : l.token.Valid) (p : Parser) : valid l p = .ok l p := by
  unfold valid
  cases ht : l.token with
  | invalid e => exact absurd ht (h e)
  | _ => rfl

theorem valid_of_invalid {e : LexError} (h : l.token = .invalid e) (p : Parser) :
    valid l p = .error (.invalid e l.position) p := by
  rw [valid, h]
  rfl

theorem valid_eq_ok {l' : Lexeme} (h : valid l p = .ok l' p') : l' = l ∧ p' = p := by
  unfold valid at h
  cases ht : l.token with
  | invalid e =>
    rw [ht] at h
    cases h
  | _ =>
    rw [ht] at h
    cases h
    exact ⟨rfl, rfl⟩

/-- Holding the token that has just been taken changes nothing. -/
theorem rest_hold (hc : p'.current = none) (hr : p.rest = held (some l) p'.rest) :
    ({ p' with current := some l } : Parser).rest = p.rest := by
  rw [hr, rest, rest, hc]
  rfl

theorem current?_of_next (ht : (next p.rest).Valid) :
    ∃ l p', current? p = .ok l p' ∧ p'.current = some l ∧ l.token = next p.rest ∧
      p'.rest = p.rest := by
  obtain ⟨l, p', htake, hc, hr⟩ := takeCurrent_spec p
  have htoken : l.token = next p.rest := by rw [hr, next_held_some]
  refine ⟨l, { p' with current := some l }, ?_, rfl, htoken, rest_hold hc hr⟩
  rw [current?, bind_of_ok htake]
  exact valid_of_valid (htoken ▸ ht) _

theorem current?_eq_ok (h : current? p = .ok l p') :
    p'.current = some l ∧ l.token = next p.rest ∧ p'.rest = p.rest := by
  obtain ⟨l', p₁, htake, hc, hr⟩ := takeCurrent_spec p
  rw [current?, bind_of_ok htake] at h
  obtain ⟨rfl, rfl⟩ := valid_eq_ok h
  exact ⟨rfl, by rw [hr, next_held_some], rest_hold hc hr⟩

theorem bump_of_next (ht : t.Valid) (hne : t ≠ .endOfFile) {r : List Token} (hr : p.rest = t :: r) :
    ∃ l p', bump p = .ok l p' ∧ l.token = t ∧ p'.rest = r := by
  obtain ⟨l, p', htake, -, hheld⟩ := takeCurrent_spec p
  have htoken : l.token = t := by rw [← next_held_some l p'.rest, ← hheld, hr, next_cons]
  rw [held_some_of_ne (htoken ▸ hne), hr] at hheld
  refine ⟨l, p', ?_, htoken, (List.cons.inj hheld).2.symm⟩
  rw [bump, bind_of_ok htake]
  exact valid_of_valid (htoken ▸ ht) p'

theorem bump_eq_ok (h : bump p = .ok l p') : p.rest = held (some l) p'.rest := by
  obtain ⟨l', p₁, htake, -, hheld⟩ := takeCurrent_spec p
  rw [bump, bind_of_ok htake] at h
  obtain ⟨rfl, rfl⟩ := valid_eq_ok h
  exact hheld

/-- Holding the token after the current one changes nothing. -/
theorem fetch_hold {r : List Token} (hc : p.current = some l) (hr : p.rest = t :: r) :
    ∃ l' p', fetch p = .ok l' p' ∧ l'.token = next r ∧
      ({ p' with lookahead := some l' } : Parser).rest = p.rest := by
  obtain ⟨l', p', hfetch, hcurrent, -, hheld⟩ := fetch_spec p
  have hne : l.token ≠ .endOfFile := by
    intro hl
    rw [rest, hc, held, if_pos hl] at hr
    cases hr
  refine ⟨l', p', hfetch, ?_, ?_⟩
  · rw [rest, hc, held_some_of_ne hne, hheld] at hr
    rw [← (List.cons.inj hr).2, next_held_some]
  · rw [rest, rest, hcurrent, hheld]

theorem peek_of_next {r : List Token} (hr : p.rest = t :: r) (ht : t.Valid)
    (hnext : (next r).Valid) :
    ∃ l p', peek p = .ok l p' ∧ l.token = next r ∧ p'.rest = p.rest := by
  obtain ⟨l, p₁, hcurrent, hc, -, hr₁⟩ := current?_of_next (p := p) (by rwa [hr, next_cons])
  obtain ⟨l', p₂, hfetch, htoken, hhold⟩ := fetch_hold hc (hr₁.trans hr)
  refine ⟨l', { p₂ with lookahead := some l' }, ?_, htoken, hhold.trans hr₁⟩
  rw [peek, bind_of_ok hcurrent, bind_of_ok hfetch]
  exact valid_of_valid (htoken ▸ hnext) _

theorem peek_eq_ok (h : peek p = .ok l p') {r : List Token} (hr : p.rest = t :: r) :
    l.token = next r ∧ p'.rest = p.rest := by
  obtain ⟨l₁, p₁, hcurrent, h₁⟩ := bind_eq_ok.1 h
  obtain ⟨hc, -, hr₁⟩ := current?_eq_ok hcurrent
  obtain ⟨l₂, p₂, hfetch, htoken, hhold⟩ := fetch_hold hc (hr₁.trans hr)
  rw [bind_of_ok hfetch] at h₁
  obtain ⟨rfl, rfl⟩ := valid_eq_ok h₁
  exact ⟨htoken, hhold.trans hr₁⟩

end Tokens

/-- With the tokens `r` to read, the rule succeeds in no other way. -/
def Leaves {α : Type} (r : List Token) (x : Parse α) (Q : α → List Token → Prop) : Prop :=
  ∀ p a p', p.rest = r → x p = .ok a p' → Q a p'.rest

section Success
variable {α β : Type} {r : List Token} {t : Token} {e : Expected} {Q : β → List Token → Prop}

theorem Leaves.bind {x : Parse α} {f : α → Parse β} {P : α → List Token → Prop} (hx : Leaves r x P)
    (hf : ∀ a r', P a r' → Leaves r' (f a) Q) : Leaves r (x >>= f) Q := by
  intro p b p' hp h
  obtain ⟨a, p₁, h₁, h₂⟩ := bind_eq_ok.1 h
  exact hf a _ (hx p a p₁ hp h₁) p₁ b p' rfl h₂

theorem Leaves.pure {b : β} (h : Q b r) : Leaves r (pure b) Q := by
  rintro p a p' rfl hp
  obtain ⟨rfl, rfl⟩ := pure_eq_ok.1 hp
  exact h

theorem leaves_throw {e : ParseError} : Leaves r (throw e) Q := by
  intro p a p' _ h
  cases h

theorem leaves_current {f : Lexeme → Parse β} (hf : ∀ l, l.token = next r → Leaves r (f l) Q) :
    Leaves r (current? >>= f) Q := by
  refine Leaves.bind (P := fun l r' => l.token = next r ∧ r' = r) ?_ ?_
  · rintro p l p' rfl h
    exact (current?_eq_ok h).2
  · rintro l _ ⟨hl, rfl⟩
    exact hf l hl

theorem leaves_unexpected : Leaves r (unexpected e) Q :=
  leaves_current fun _ _ => leaves_throw

theorem leaves_peek {f : Lexeme → Parse β} (hf : ∀ l, l.token = next r → Leaves (t :: r) (f l) Q) :
    Leaves (t :: r) (peek >>= f) Q := by
  refine Leaves.bind (P := fun l r' => l.token = next r ∧ r' = t :: r) ?_ ?_
  · intro p l p' hp h
    rw [← hp]
    exact peek_eq_ok h hp
  · rintro l _ ⟨hl, rfl⟩
    exact hf l hl

theorem leaves_bump {f : Lexeme → Parse β} (hf : ∀ l r', r = held (some l) r' → Leaves r' (f l) Q) :
    Leaves r (bump >>= f) Q := by
  refine Leaves.bind (P := fun l r' => r = held (some l) r') ?_ hf
  rintro p l p' rfl h
  exact bump_eq_ok h

theorem leaves_token {f : Lexeme → Parse β} (ht : next r = t) (hne : t ≠ .endOfFile)
    (hf : ∀ l r', r = t :: r' → Leaves r' (f l) Q) : Leaves r (bump >>= f) Q := by
  refine leaves_bump fun l r' hr => hf l r' ?_
  have htoken : l.token = t := by rw [← ht, hr, next_held_some]
  rw [hr, held_some_of_ne (htoken ▸ hne), htoken]

theorem leaves_check {f : Bool → Parse β} (hf : ∀ b, (b = true ↔ next r = t) → Leaves r (f b) Q) :
    Leaves r (check t >>= f) Q := by
  refine Leaves.bind (P := fun b r' => (b = true ↔ next r = t) ∧ r' = r) ?_ ?_
  · exact leaves_current fun l hl => .pure ⟨by rw [decide_eq_true_iff, hl], rfl⟩
  · rintro b _ ⟨hb, rfl⟩
    exact hf b hb

theorem leaves_eat {f : Bool → Parse β} (hne : t ≠ .endOfFile)
    (htrue : ∀ r', r = t :: r' → Leaves r' (f true) Q) (hfalse : Leaves r (f false) Q) :
    Leaves r (eat t >>= f) Q := by
  refine Leaves.bind (P := fun b r' => b = true ∧ r = t :: r' ∨ b = false ∧ r' = r) ?_ ?_
  · refine leaves_check fun b hb => ?_
    cases b with
    | true => exact leaves_token (hb.1 rfl) hne fun l r' hr => .pure (.inl ⟨rfl, hr⟩)
    | false => exact .pure (.inr ⟨rfl, rfl⟩)
  · rintro b r' (⟨rfl, hr⟩ | ⟨rfl, rfl⟩)
    · exact htrue r' hr
    · exact hfalse

theorem leaves_expect {f : Unit → Parse β} (hne : t ≠ .endOfFile)
    (hf : ∀ r', r = t :: r' → Leaves r' (f ()) Q) : Leaves r (expect t e >>= f) Q := by
  refine Leaves.bind (P := fun _ r' => r = t :: r') ?_ fun _ => hf
  refine leaves_check fun b hb => ?_
  cases b with
  | true => exact leaves_token (hb.1 rfl) hne fun l r' hr => .pure hr
  | false => exact leaves_unexpected

theorem leaves_symbol {s : Symbol} {f : Unit → Parse β}
    (hf : ∀ r', r = .symbol s :: r' → Leaves r' (f ()) Q) : Leaves r (expectSymbol s e >>= f) Q :=
  leaves_expect (by simp) hf

theorem leaves_keyword {k : Keyword} {f : Unit → Parse β}
    (hf : ∀ r', r = .keyword k :: r' → Leaves r' (f ()) Q) : Leaves r (expectKeyword k >>= f) Q :=
  leaves_expect (by simp) hf

theorem leaves_ident {f : String → Parse β} (hf : ∀ name r', r = .ident name :: r' → Leaves r' (f name) Q) :
    Leaves r (expectIdent e >>= f) Q := by
  refine Leaves.bind (P := fun name r' => r = .ident name :: r') ?_ hf
  refine leaves_bump fun l r' hr => ?_
  cases ht : l.token with
  | ident name => exact .pure (by rw [hr, held_some_of_ne (by simp [ht]), ht])
  | _ => exact leaves_throw

end Success

end Parser
end IntLang
