import IntLang.Proofs.Spending
import IntLang.Proofs.TokenStream
import Mathlib.Order.Monotone.Basic

/-! Points in a source: where it stands after some of its tokens have been read. No two of these points are
the same, so that a point tells how many tokens have been read to get there. -/
namespace IntLang.Source

/-- The source after `n` tokens have been read from it. -/
def after (s : Source) : Nat → Source
  | 0 => s
  | n + 1 => s.nextLexeme.2.after n

/-- The token number `n`, counted from zero. At the end of the input it stays the same. -/
def lexeme (s : Source) (n : Nat) : Lexeme :=
  (s.after n).nextLexeme.1

theorem after_succ (s : Source) (n : Nat) : s.after (n + 1) = (s.after n).nextLexeme.2 := by
  induction n generalizing s with
  | zero => rfl
  | succ n ih => exact ih s.nextLexeme.2

/-- Reading a token takes an event away, or it asks once more for an event where there is none. -/
theorem size_add_requests_lt (s : Source) :
    s.nextLexeme.2.size + s.requests < s.size + s.nextLexeme.2.requests := by
  obtain ⟨es, hes⟩ := s.exists_spent_nextLexeme
  have hle := hes.requests
  by_cases hend : s.nextLexeme.1.token = .endOfFile
  · cases s.read with
    | @token c before t pending requests token rest =>
      exact absurd (token ▸ hend) (t.tokenFrom_fst c).1
    | broken token => simp [token] at hend
    | ended token spent pending position requests =>
      simp only [size, pending, List.length_nil]
      omega
  · have hlt := s.size_nextLexeme_lt hend
    omega

theorem after_injective (s : Source) : Function.Injective s.after := by
  have hanti : StrictAnti fun n => ((s.after n).size : Int) - (s.after n).requests := by
    apply strictAnti_nat_of_succ_lt
    intro n
    have hlt := (s.after n).size_add_requests_lt
    rw [after_succ]
    omega
  intro m n h
  apply hanti.injective
  simp only [h]

theorem lexemes_head (s : Source) : ∃ ls, s.lexemes.1 = s.nextLexeme.1 :: ls := by
  by_cases hend : s.nextLexeme.1.token = .endOfFile
  · exact ⟨[], lexemes_of_end hend⟩
  · exact ⟨_, lexemes_of_ne hend⟩

theorem lexeme_of_getElem? {s : Source} {n : Nat} {l : Lexeme} (h : s.lexemes.1[n]? = some l) :
    s.lexeme n = l := by
  induction n generalizing s with
  | zero =>
    obtain ⟨ls, hls⟩ := s.lexemes_head
    rw [hls] at h
    exact Option.some.inj h
  | succ n ih =>
    by_cases hend : s.nextLexeme.1.token = .endOfFile
    · rw [lexemes_of_end hend] at h
      simp at h
    · rw [lexemes_of_ne hend, List.getElem?_cons_succ] at h
      exact ih h

/-- The end of the input is met again at the same place. -/
theorem nextLexeme_of_end {s : Source} (h : s.nextLexeme.1.token = .endOfFile) :
    s.nextLexeme.2.nextLexeme.1 = s.nextLexeme.1 := by
  cases s.read with
  | @token c before t pending requests token rest =>
    exact absurd (token ▸ h) (t.tokenFrom_fst c).1
  | broken token => simp [token] at h
  | ended token spent pending position requests =>
    have hnil : s.nextLexeme.2 = ⟨[], s.nextLexeme.2.requests, s.nextLexeme.1.position⟩ := by
      rw [← pending, ← position]
    have hlexeme : s.nextLexeme.1 = ⟨.endOfFile, s.nextLexeme.1.position⟩ := by rw [← h]
    rw [hnil, hlexeme]
    rfl

/-- Sources whose lists of tokens differ in their places only differ so at each number. -/
theorem lexeme_eq_of_map {f : Lexeme → Lexeme} (hf : ∀ l, (f l).token = l.token) {s t : Source}
    (h : t.lexemes.1 = s.lexemes.1.map f) (n : Nat) : t.lexeme n = f (s.lexeme n) := by
  induction n generalizing s t with
  | zero =>
    obtain ⟨ls, hls⟩ := s.lexemes_head
    obtain ⟨ls', hls'⟩ := t.lexemes_head
    rw [hls, hls', List.map_cons] at h
    exact (List.cons.inj h).1
  | succ n ih =>
    apply ih
    by_cases hend : s.nextLexeme.1.token = .endOfFile
    · rw [lexemes_of_end hend] at h
      obtain ⟨ls', hls'⟩ := t.lexemes_head
      rw [hls'] at h
      have hnext : t.nextLexeme.1 = f s.nextLexeme.1 := (List.cons.inj h).1
      have hend' : t.nextLexeme.1.token = .endOfFile := by rw [hnext, hf, hend]
      have hs := nextLexeme_of_end hend
      have ht := nextLexeme_of_end hend'
      rw [lexemes_of_end (by rwa [ht]), lexemes_of_end (by rwa [hs]), hs, ht, hnext]
      rfl
    · have hend' : t.nextLexeme.1.token ≠ .endOfFile := by
        intro heof
        obtain ⟨ls, hls⟩ := s.nextLexeme.2.lexemes_head
        rw [lexemes_of_end heof, lexemes_of_ne hend, hls] at h
        simp at h
      rw [lexemes_of_ne hend, lexemes_of_ne hend', List.map_cons] at h
      exact (List.cons.inj h).2

/-- The tokens that lie between two points. -/
inductive Gives : Source → List Token → Source → Prop where
  | nil (s : Source) : Gives s [] s
  | cons {s t : Source} {ts : List Token} (h : s.nextLexeme.1.token ≠ .endOfFile)
      (rest : Gives s.nextLexeme.2 ts t) : Gives s (s.nextLexeme.1.token :: ts) t

namespace Gives
variable {s t u : Source} {ts us : List Token} {x : Token}

theorem trans (h : Gives s ts t) (h' : Gives t us u) : Gives s (ts ++ us) u := by
  induction h with
  | nil => exact h'
  | cons hne rest ih => exact .cons hne (ih h')

theorem single (h : s.nextLexeme.1.token = x) (hx : x ≠ .endOfFile) : Gives s [x] s.nextLexeme.2 := by
  subst h
  exact .cons hx (.nil _)

theorem of_single (h : Gives s [x] t) : s.nextLexeme.1.token = x ∧ t = s.nextLexeme.2 := by
  generalize hxs : [x] = xs at h
  cases h with
  | nil => cases hxs
  | cons hne rest =>
    obtain ⟨rfl, rfl⟩ := List.cons.inj hxs
    cases rest
    exact ⟨rfl, rfl⟩

theorem split (h : Gives s (ts ++ us) u) : ∃ t, Gives s ts t ∧ Gives t us u := by
  induction ts generalizing s with
  | nil => exact ⟨s, .nil s, h⟩
  | cons x ts ih =>
    cases h with
    | cons hne rest =>
      obtain ⟨t, hts, hus⟩ := ih rest
      exact ⟨t, .cons hne hts, hus⟩

theorem tokens (h : Gives s ts t) : s.tokens = ts ++ t.tokens := by
  induction h with
  | nil => rfl
  | cons hne rest ih => rw [Source.tokens_eq, held_some_of_ne hne, ih, List.cons_append]

theorem after_eq (h : Gives s ts t) : t = s.after ts.length := by
  induction h with
  | nil => rfl
  | cons hne rest ih => exact ih

theorem lexemes (h : Gives s ts t) :
    ∃ ls, ls.map (·.token) = ts ∧ s.lexemes.1 = ls ++ t.lexemes.1 := by
  induction h with
  | nil => exact ⟨[], rfl, rfl⟩
  | cons hne rest ih =>
    obtain ⟨ls, htokens, hls⟩ := ih
    exact ⟨_ :: ls, by rw [List.map_cons, htokens], by rw [lexemes_of_ne hne, hls, List.cons_append]⟩

end Gives
end IntLang.Source
