import IntLang.Proofs.Scanning

/-! Two sources side by side. Scanning depends on the characters of a source and not on when its lines are
requested, and reports places relative to where it started: a source that gives the same characters, with
other requests between them and some lines further down, gives the same tokens that many lines further
down. -/
namespace IntLang
open IntLang.Text

def Position.down (k : Nat) (p : Position) : Position :=
  ⟨p.line + k, p.col⟩

@[simp] theorem Position.down_zero (p : Position) : p.down 0 = p := rfl

theorem Position.after_down (k : Nat) (p : Position) (c : Char) :
    (p.down k).after c = (p.after c).down k := by
  unfold after
  split
  · simp only [down, Nat.add_right_comm]
  · rfl

def Lexeme.down (k : Nat) (l : Lexeme) : Lexeme :=
  ⟨l.token, l.position.down k⟩

@[simp] theorem Lexeme.token_down (k : Nat) (l : Lexeme) : (l.down k).token = l.token := rfl

namespace Source

def withoutRequests (es : List Event) : List Event :=
  es.filter (· ≠ .request)

@[simp] theorem withoutRequests_nil : withoutRequests [] = [] := rfl

@[simp] theorem withoutRequests_request (es : List Event) :
    withoutRequests (.request :: es) = withoutRequests es := rfl

@[simp] theorem withoutRequests_char (c : Char) (es : List Event) :
    withoutRequests (.char c :: es) = .char c :: withoutRequests es := rfl

@[simp] theorem withoutRequests_broken (e : ReadError) (es : List Event) :
    withoutRequests (.broken e :: es) = .broken e :: withoutRequests es := rfl

theorem withoutRequests_idem (es : List Event) :
    withoutRequests (withoutRequests es) = withoutRequests es := by
  simp [withoutRequests]

theorem request_not_mem_withoutRequests (es : List Event) : .request ∉ withoutRequests es := by
  simp [withoutRequests]

/-- `t` gives what `s` gives, `k` lines further down. -/
structure Beside (k : Nat) (s t : Source) : Prop where
  heard : withoutRequests t.pending = withoutRequests s.pending
  position : t.position = s.position.down k

/-- What `s` gives, without any requests and `k` lines further down. -/
def plain (k : Nat) (s : Source) : Source :=
  ⟨withoutRequests s.pending, 0, s.position.down k⟩

/-- Sources side by side give the same result and are side by side afterwards. -/
def Respects {α : Type} (f : Source → α × Source) : Prop :=
  ∀ ⦃k : Nat⦄ ⦃s t : Source⦄, Beside k s t → (f t).1 = (f s).1 ∧ Beside k (f s).2 (f t).2

/-- It is enough to compare a source with its plain form. -/
theorem respects_of_plain {α : Type} {f : Source → α × Source}
    (h : ∀ k s, (f (s.plain k)).1 = (f s).1 ∧ Beside k (f s).2 (f (s.plain k)).2) : Respects f := by
  intro k s t hst
  have hplain : t.plain 0 = s.plain k := by
    rw [plain, plain, hst.heard, hst.position, Position.down_zero]
  obtain ⟨hs, hs'⟩ := h k s
  obtain ⟨ht, ht'⟩ := h 0 t
  rw [hplain] at ht ht'
  exact ⟨ht.symm.trans hs, ht'.heard.symm.trans hs'.heard, ht'.position.symm.trans hs'.position⟩

theorem demandFrom_plain (k : Nat) (es : List Event) (n : Nat) (p : Position) :
    (demandFrom (withoutRequests es) 0 (p.down k)).1 = (demandFrom es n p).1 ∧
      Beside k (demandFrom es n p).2 (demandFrom (withoutRequests es) 0 (p.down k)).2 := by
  induction es generalizing n with
  | nil => exact ⟨rfl, rfl, rfl⟩
  | cons e es ih =>
    cases e with
    | request => exact ih (n + 1)
    | char c => exact ⟨rfl, by simp [demandFrom, withoutRequests_idem], rfl⟩
    | broken e => exact ⟨rfl, by simp [demandFrom, withoutRequests_idem], rfl⟩

theorem drop_demandFrom_plain (k : Nat) (es : List Event) (n : Nat) (p : Position) :
    Beside k (demandFrom es n p).2.drop (demandFrom (withoutRequests es) 0 (p.down k)).2.drop := by
  induction es generalizing n with
  | nil => exact ⟨rfl, rfl⟩
  | cons e es ih =>
    cases e with
    | request => exact ih (n + 1)
    | char c => exact ⟨by simp [demandFrom, drop, withoutRequests_idem], Position.after_down k p c⟩
    | broken e => exact ⟨by simp [demandFrom, drop, withoutRequests_idem], rfl⟩

/-- Sources side by side find the same when the next character is asked for, and stay side by side
whether it is taken or not. -/
theorem Beside.demand {k : Nat} {s t : Source} (h : Beside k s t) :
    ∃ x s' t', s.demand = (x, s') ∧ t.demand = (x, t') ∧ Beside k s' t' ∧ Beside k s'.drop t'.drop := by
  have hdemand : Respects Source.demand :=
    respects_of_plain fun k s => demandFrom_plain k s.pending s.requests s.position
  have hdrop : Respects fun s => ((), s.demand.2.drop) :=
    respects_of_plain fun k s => ⟨rfl, drop_demandFrom_plain k s.pending s.requests s.position⟩
  refine ⟨s.demand.1, s.demand.2, t.demand.2, rfl, ?_, (hdemand h).2, (hdrop h).2⟩
  rw [← (hdemand h).1]

theorem takeWhileFrom_plain (keep : Char → Bool) (k : Nat) (es : List Event) (n : Nat) (p : Position) :
    (takeWhileFrom keep (withoutRequests es) 0 (p.down k)).1 = (takeWhileFrom keep es n p).1 ∧
      Beside k (takeWhileFrom keep es n p).2
        (takeWhileFrom keep (withoutRequests es) 0 (p.down k)).2 := by
  induction es generalizing n p with
  | nil => exact ⟨rfl, rfl, rfl⟩
  | cons e es ih =>
    cases e with
    | request => exact ih (n + 1) p
    | broken e => exact ⟨rfl, by simp [takeWhileFrom, withoutRequests_idem], rfl⟩
    | char c =>
      rw [withoutRequests_char, takeWhileFrom, takeWhileFrom, Position.after_down]
      obtain ⟨htaken, hbeside⟩ := ih n (p.after c)
      split
      · exact ⟨congrArg (c :: ·) htaken, hbeside⟩
      · exact ⟨rfl, by simp [withoutRequests_idem], rfl⟩

theorem respects_takeWhile (keep : Char → Bool) : Respects (takeWhile · keep) :=
  respects_of_plain fun k s => takeWhileFrom_plain keep k s.pending s.requests s.position

theorem skipBlankFrom_plain (comment : Bool) (k : Nat) (es : List Event) (n : Nat) (p : Position) :
    Beside k (skipBlankFrom comment es n p)
      (skipBlankFrom comment (withoutRequests es) 0 (p.down k)) := by
  induction es generalizing comment n p with
  | nil => exact ⟨rfl, rfl⟩
  | cons e es ih =>
    cases e with
    | request => cases comment <;> exact ih _ (n + 1) p
    | broken e => cases comment <;> exact ⟨by simp [skipBlankFrom, withoutRequests_idem], rfl⟩
    | char c =>
      rw [withoutRequests_char]
      cases comment with
      | true =>
        rw [skipBlankFrom, skipBlankFrom, Position.after_down]
        exact ih _ n _
      | false =>
        rw [skipBlankFrom, skipBlankFrom, Position.after_down]
        split
        · exact ih _ n _
        split
        · exact ih _ n _
        · exact ⟨by simp [withoutRequests_idem], rfl⟩

theorem Beside.skipBlank {k : Nat} {s t : Source} (h : Beside k s t) :
    Beside k s.skipBlank t.skipBlank :=
  (respects_of_plain (f := fun s => ((), s.skipBlank)) (fun k s =>
    ⟨rfl, skipBlankFrom_plain false k s.pending s.requests s.position⟩) h).2

theorem simulation_beside (k : Nat) : Scanner.Simulation (Beside k) where
  look h := by
    obtain ⟨x, s', t', hs, ht, hdemand, -⟩ := h.demand
    change (Source.look _).1 = (Source.look _).1 ∧ Beside k (Source.look _).2 (Source.look _).2
    simp only [look, hs, ht]
    cases x <;> exact ⟨rfl, hdemand⟩
  drop h hsome := by
    obtain ⟨x, s', t', hs, ht, -, hdrop⟩ := h.demand
    change Beside k (Source.look _).2.drop (Source.look _).2.drop
    rwa [look_snd, look_snd, hs, ht]
  takeWhile keep h := respects_takeWhile keep h

/-- The next token of a source is the next one of a source beside it. -/
theorem Beside.nextLexeme {k : Nat} {s t : Source} (h : Beside k s t) :
    t.nextLexeme.1 = s.nextLexeme.1.down k ∧ Beside k s.nextLexeme.2 t.nextLexeme.2 := by
  obtain ⟨x, s', t', hs, ht, hdemand, hdrop⟩ := h.skipBlank.demand
  have hposition := h.skipBlank.position
  simp only [Source.nextLexeme, hs, ht]
  cases x with
  | char c =>
    obtain ⟨htoken, hbeside⟩ := (simulation_beside k).tokenFrom hdrop c
    exact ⟨by simp only [Lexeme.down, hposition, htoken], hbeside⟩
  | broken e => exact ⟨by simp only [Lexeme.down, hposition], hdrop⟩
  | done => exact ⟨by simp only [Lexeme.down, hposition], hdemand⟩

theorem lexemes_of_end {s : Source} (h : s.nextLexeme.1.token = .endOfFile) :
    s.lexemes.1 = [s.nextLexeme.1] := by
  rw [Source.lexemes, dif_pos h]

theorem lexemes_of_ne {s : Source} (h : s.nextLexeme.1.token ≠ .endOfFile) :
    s.lexemes.1 = s.nextLexeme.1 :: s.nextLexeme.2.lexemes.1 := by
  rw [Source.lexemes, dif_neg h]

/-- All tokens of a source are those of a source beside it. -/
theorem Beside.lexemes {k : Nat} {s t : Source} (h : Beside k s t) :
    t.lexemes.1 = s.lexemes.1.map (Lexeme.down k) := by
  induction hn : s.size using Nat.strongRecOn generalizing s t with
  | ind n ih =>
    obtain ⟨hnext, hbeside⟩ := h.nextLexeme
    have htoken : t.nextLexeme.1.token = s.nextLexeme.1.token := by rw [hnext]; rfl
    by_cases hend : s.nextLexeme.1.token = .endOfFile
    · rw [lexemes_of_end hend, lexemes_of_end (htoken.trans hend), hnext]
      rfl
    · have hlt := s.size_nextLexeme_lt hend
      rw [lexemes_of_ne hend, lexemes_of_ne (htoken ▸ hend), List.map_cons, hnext,
        ih _ (hn ▸ hlt) hbeside rfl]

end Source
end IntLang
