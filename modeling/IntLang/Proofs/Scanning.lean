import IntLang.Token.Scan
import Mathlib.Data.List.TakeWhile

/-! What scanning does, told by the characters. A gap is a run of blanks and comments; what is not a gap
starts with a stretch that is one token, given the character after it. Scanning passes over a gap and
takes exactly that stretch. -/
namespace IntLang

def blanks : List Char :=
  [' ', '\t', '\n', '\r', '\x0b', '\x0c']

/-- The characters that can start no number and no word, but have a meaning of their own. -/
def specials : List Char :=
  ['(', ')', ':', ';', ',', '+', '-', '/', '%', '*', '=', '<', '>', '!', '\x00']

/-- A character that is neither blank nor opens a comment. -/
def Solid (c : Char) : Prop :=
  c ∉ blanks ∧ c ≠ '#'

instance (c : Char) : Decidable (Solid c) :=
  inferInstanceAs (Decidable (_ ∧ _))

section Classes
variable {c : Char}

theorem isBlank_iff : isBlank c = true ↔ c ∈ blanks := by
  simp [isBlank, blanks, or_assoc]

theorem Solid.ne_newline (h : Solid c) : c ≠ '\n' := by
  rintro rfl
  exact h.1 (by decide)

theorem not_word_of_special (h : c ∈ specials) : isDigit c = false ∧ isWordStart c = false := by
  have hall : specials.all (fun c => !isDigit c && !isWordStart c) = true := by decide
  simpa using List.all_eq_true.1 hall c h

theorem not_word_of_gap (h : c ∈ '#' :: blanks) : isDigit c = false ∧ isWordStart c = false := by
  have hall : ('#' :: blanks).all (fun c => !isDigit c && !isWordStart c) = true := by decide
  simpa using List.all_eq_true.1 hall c h

theorem solid_of_not_gap (h : c ∉ '#' :: blanks) : Solid c := by
  rw [List.mem_cons, not_or] at h
  exact ⟨h.2, h.1⟩

theorem solid_of_isDigit (h : isDigit c = true) : Solid c := by
  refine solid_of_not_gap fun hc => ?_
  rw [(not_word_of_gap hc).1] at h
  cases h

theorem solid_of_isWordStart (h : isWordStart c = true) : Solid c := by
  refine solid_of_not_gap fun hc => ?_
  rw [(not_word_of_gap hc).2] at h
  cases h

theorem isWordChar_eq (c : Char) : isWordChar c = (isWordStart c || isDigit c) := rfl

theorem solid_of_isWordChar (h : isWordChar c = true) : Solid c := by
  rw [isWordChar_eq, Bool.or_eq_true] at h
  exact h.elim solid_of_isWordStart solid_of_isDigit

theorem isDigit_eq_false_of_isWordStart (h : isWordStart c = true) : isDigit c = false := by
  by_contra hd
  rw [Bool.not_eq_false] at hd
  simp only [isDigit, isWordStart, Bool.and_eq_true, Bool.or_eq_true, decide_eq_true_eq, Char.le_def,
    UInt32.le_iff_toNat_le] at h hd
  have hn : c ≠ '_' := by
    rintro rfl
    revert hd
    decide
  simp only [hn, or_false] at h
  have h₀ : 'a'.val.toNat = 97 := rfl
  have h₁ : 'A'.val.toNat = 65 := rfl
  have h₂ : '9'.val.toNat = 57 := rfl
  omega

end Classes

/-- Blanks and comments. A comment ends with its line. -/
inductive Gap : List Char → Prop where
  | nil : Gap []
  | blank {c : Char} {cs : List Char} (h : c ∈ blanks) (rest : Gap cs) : Gap (c :: cs)
  | comment (text : List Char) {cs : List Char} (h : '\n' ∉ text) (rest : Gap cs) :
      Gap ('#' :: (text ++ '\n' :: cs))

def Position.afterAll (p : Position) (cs : List Char) : Position :=
  cs.foldl Position.after p

@[simp] theorem Position.afterAll_nil (p : Position) : p.afterAll [] = p := rfl

@[simp] theorem Position.afterAll_cons (p : Position) (c : Char) (cs : List Char) :
    p.afterAll (c :: cs) = (p.after c).afterAll cs := rfl

@[simp] theorem Position.afterAll_append (p : Position) (cs ds : List Char) :
    p.afterAll (cs ++ ds) = (p.afterAll cs).afterAll ds :=
  List.foldl_append

/-- Every text is a gap, followed by nothing, by a solid character or by a comment to its end. -/
theorem exists_gap (cs : List Char) : ∃ gap rest, cs = gap ++ rest ∧ Gap gap ∧
    (rest = [] ∨ (∃ c ds, rest = c :: ds ∧ Solid c) ∨ ∃ text, rest = '#' :: text ∧ '\n' ∉ text) := by
  induction hn : cs.length using Nat.strongRecOn generalizing cs with
  | ind n ih =>
    cases cs with
    | nil => exact ⟨[], [], rfl, .nil, .inl rfl⟩
    | cons c cs =>
      rw [List.length_cons] at hn
      by_cases hb : c ∈ blanks
      · obtain ⟨gap, rest, rfl, hgap, hrest⟩ := ih cs.length (by omega) cs rfl
        exact ⟨c :: gap, rest, rfl, .blank hb hgap, hrest⟩
      · by_cases hc : c = '#'
        · subst hc
          by_cases hline : '\n' ∈ cs
          · obtain ⟨text, more, rfl, htext⟩ := List.eq_append_cons_of_mem hline
            rw [List.length_append, List.length_cons] at hn
            obtain ⟨gap, rest, rfl, hgap, hrest⟩ := ih more.length (by omega) more rfl
            exact ⟨'#' :: (text ++ '\n' :: gap), rest, by simp, .comment text htext hgap, hrest⟩
          · exact ⟨[], '#' :: cs, rfl, .nil, .inr (.inr ⟨cs, rfl, hline⟩)⟩
        · exact ⟨[], c :: cs, rfl, .nil, .inr (.inl ⟨c, cs, rfl, hb, hc⟩)⟩

/-- A gap starts with a character that no token goes on with. -/
theorem Gap.head_not_word {gap : List Char} (h : Gap gap) {c : Char} (hc : gap.head? = some c) :
    isWordChar c = false ∧ c ≠ '*' ∧ c ≠ '=' := by
  have hmem : c ∈ '#' :: blanks := by
    cases h with
    | nil => cases hc
    | blank hb _ =>
      obtain rfl := Option.some.inj hc
      exact List.mem_cons_of_mem _ hb
    | comment => exact Option.some.inj hc ▸ List.mem_cons_self
  have hall : ('#' :: blanks).all (fun c => !isWordChar c && c != '*' && c != '=') = true := by decide
  simpa [and_assoc] using List.all_eq_true.1 hall c hmem

namespace Source

theorem skipBlankFrom_comment {text : List Char} (h : '\n' ∉ text) (es : List Event) (n : Nat)
    (p : Position) :
    skipBlankFrom true (text.map .char ++ es) n p = skipBlankFrom true es n (p.afterAll text) := by
  induction text generalizing p with
  | nil => rfl
  | cons c text ih =>
    rw [List.mem_cons, not_or] at h
    rw [List.map_cons, List.cons_append, skipBlankFrom, bne_iff_ne.2 (Ne.symm h.1), ih h.2]
    rfl

theorem skipBlankFrom_gap {gap : List Char} (h : Gap gap) (es : List Event) (n : Nat)
    (p : Position) :
    skipBlankFrom false (gap.map .char ++ es) n p = skipBlankFrom false es n (p.afterAll gap) := by
  induction h generalizing p with
  | nil => rfl
  | blank hb _ ih =>
    rw [List.map_cons, List.cons_append, skipBlankFrom, if_pos (isBlank_iff.2 hb), ih]
    rfl
  | comment text ht _ ih =>
    have hopen : isBlank '#' = false := by decide
    rw [List.map_cons, List.cons_append, skipBlankFrom, if_neg (by simp [hopen]), if_pos rfl,
      List.map_append, List.append_assoc, skipBlankFrom_comment ht, List.map_cons, List.cons_append,
      skipBlankFrom]
    simp only [bne_self_eq_false]
    rw [ih]
    simp

theorem skipBlankFrom_solid {c : Char} (h : Solid c) (es : List Event) (n : Nat) (p : Position) :
    skipBlankFrom false (.char c :: es) n p = ⟨.char c :: es, n, p⟩ := by
  rw [skipBlankFrom, if_neg (fun hb => h.1 (isBlank_iff.1 hb)), if_neg h.2]

theorem nextLexeme_gap {gap : List Char} (h : Gap gap) (es : List Event) (n : Nat) (p : Position) :
    (Source.mk (gap.map .char ++ es) n p).nextLexeme = (Source.mk es n (p.afterAll gap)).nextLexeme := by
  have hskip : (Source.mk (gap.map .char ++ es) n p).skipBlank =
      (Source.mk es n (p.afterAll gap)).skipBlank := skipBlankFrom_gap h es n p
  rw [nextLexeme, nextLexeme, hskip]

end Source

def Symbol.longer? : Symbol → Option Char
  | .star => some '*'
  | .equal | .less | .greater => some '='
  | _ => none

/-- The characters `w` are the token `t` when `next` is the character after them. -/
inductive Scans : List Char → Option Char → Token → Prop where
  | symbol (s : Symbol) {next : Option Char} (h : ∀ c, next = some c → s.longer? ≠ some c) :
      Scans s.spelling.toList next (.symbol s)
  | bang {next : Option Char} (h : next ≠ some '=') :
      Scans ['!'] next (.invalid (.bangWithoutEq next))
  | null (next : Option Char) : Scans ['\x00'] next (.invalid .embeddedNull)
  | number {c : Char} {w : List Char} {next : Option Char} (hc : isDigit c = true)
      (hw : ∀ d ∈ w, isDigit d = true) (h : ∀ d, next = some d → isDigit d = false) :
      Scans (c :: w) next (numberToken (c :: w))
  | word {c : Char} {w : List Char} {next : Option Char} (hc : isWordStart c = true)
      (hw : ∀ d ∈ w, isWordChar d = true) (h : ∀ d, next = some d → isWordChar d = false) :
      Scans (c :: w) next (wordToken (c :: w))
  | stray {c : Char} (next : Option Char) (hs : Solid c) (hspecial : c ∉ specials)
      (hd : isDigit c = false) (hw : isWordStart c = false) :
      Scans [c] next (.invalid (.unexpectedChar c))

def following : List Event → Option Char
  | .char c :: _ => some c
  | _ => none

/-- No line has to be requested at once. -/
def AtHand (es : List Event) : Prop :=
  es.head? ≠ some .request

namespace Scans
variable {c : Char} {w : List Char} {next : Option Char} {t : Token}

theorem token_ne_endOfFile (h : Scans w next t) : t ≠ .endOfFile := by
  cases h with
  | number => unfold numberToken; split <;> simp
  | word => unfold wordToken; dsimp only; split <;> simp
  | _ => simp

theorem solid (h : Scans w next t) : ∃ c v, w = c :: v ∧ Solid c := by
  cases h with
  | symbol s h =>
    cases s <;> exact ⟨_, _, rfl, by decide⟩
  | bang | null => exact ⟨_, _, rfl, by decide⟩
  | number hc => exact ⟨_, _, rfl, solid_of_isDigit hc⟩
  | word hc => exact ⟨_, _, rfl, solid_of_isWordStart hc⟩
  | stray _ hs => exact ⟨_, _, rfl, hs⟩

end Scans

section Existence
variable {c : Char} {cs : List Char}

/-- The text starts with a token, which lies within its line. -/
def StartsToken (cs : List Char) : Prop :=
  ∃ w rest t, cs = w ++ rest ∧ Scans w rest.head? t ∧ '\n' ∉ w

theorem startsToken_symbol (s : Symbol) (hs : s.spelling.toList = [c]) (hl : s.longer? = none) :
    StartsToken (c :: cs) := by
  have hscan : Scans [c] cs.head? (.symbol s) := hs ▸ .symbol s (by simp [hl])
  obtain ⟨d, v, hw, hd⟩ := hscan.solid
  obtain ⟨rfl, rfl⟩ := List.cons.inj hw
  exact ⟨[c], cs, _, rfl, hscan, by simpa using hd.ne_newline.symm⟩

/-- Of two symbols with the same first character, the text starts with the longer one if it can. -/
theorem startsToken_either {d : Char} (long short : Symbol) (hlong : long.spelling.toList = [c, d])
    (hshort : short.spelling.toList = [c]) (hl : long.longer? = none) (hs : short.longer? = some d)
    (hc : c ≠ '\n') (hd : d ≠ '\n') : StartsToken (c :: cs) := by
  by_cases hnext : cs.head? = some d
  · obtain ⟨rest, rfl⟩ := List.head?_eq_some_iff.1 hnext
    have hscan : Scans [c, d] rest.head? (.symbol long) := hlong ▸ .symbol long (by simp [hl])
    exact ⟨[c, d], rest, _, rfl, hscan, by simp [hc.symm, hd.symm]⟩
  · have hscan : Scans [c] cs.head? (.symbol short) := by
      refine hshort ▸ .symbol short fun e he hle => ?_
      rw [hs] at hle
      exact hnext (he.trans hle.symm)
    exact ⟨[c], cs, _, rfl, hscan, by simp [hc.symm]⟩

theorem startsToken_bang (cs : List Char) : StartsToken ('!' :: cs) := by
  by_cases hnext : cs.head? = some '='
  · obtain ⟨rest, rfl⟩ := List.head?_eq_some_iff.1 hnext
    have hscan : Scans ['!', '='] rest.head? (.symbol .notEq) :=
      .symbol .notEq (by simp [Symbol.longer?])
    exact ⟨['!', '='], rest, _, rfl, hscan, by decide⟩
  · exact ⟨['!'], cs, _, rfl, .bang hnext, by decide⟩

theorem startsToken_special (h : c ∈ specials) : StartsToken (c :: cs) := by
  simp only [specials, List.mem_cons, List.not_mem_nil, or_false] at h
  rcases h with rfl | rfl | rfl | rfl | rfl | rfl | rfl | rfl | rfl | rfl | rfl | rfl | rfl | rfl | rfl
  · exact startsToken_symbol .lparen rfl rfl
  · exact startsToken_symbol .rparen rfl rfl
  · exact startsToken_symbol .colon rfl rfl
  · exact startsToken_symbol .semicolon rfl rfl
  · exact startsToken_symbol .comma rfl rfl
  · exact startsToken_symbol .plus rfl rfl
  · exact startsToken_symbol .minus rfl rfl
  · exact startsToken_symbol .slash rfl rfl
  · exact startsToken_symbol .percent rfl rfl
  · exact startsToken_either .starStar .star rfl rfl rfl rfl (by decide) (by decide)
  · exact startsToken_either .eqEq .equal rfl rfl rfl rfl (by decide) (by decide)
  · exact startsToken_either .lessEq .less rfl rfl rfl rfl (by decide) (by decide)
  · exact startsToken_either .greaterEq .greater rfl rfl rfl rfl (by decide) (by decide)
  · exact startsToken_bang cs
  · exact ⟨['\x00'], cs, _, rfl, .null _, by decide⟩

theorem head?_dropWhile_eq_false {keep : Char → Bool} {d : Char}
    (h : (cs.dropWhile keep).head? = some d) : keep d = false := by
  have hnot := List.head?_dropWhile_not keep cs
  rw [h] at hnot
  exact hnot

/-- A run of characters of one class, after a first character. -/
theorem newline_notMem_run {keep : Char → Bool} (hkeep : ∀ d, keep d = true → Solid d) (hc : Solid c) :
    '\n' ∉ c :: cs.takeWhile keep := by
  rw [List.mem_cons, not_or]
  exact ⟨hc.ne_newline.symm, fun h => (hkeep _ (List.mem_takeWhile_imp h)).ne_newline rfl⟩

/-- Every text that starts with a solid character starts with a token. -/
theorem Solid.startsToken (h : Solid c) : StartsToken (c :: cs) := by
  by_cases hd : isDigit c = true
  · refine ⟨c :: cs.takeWhile isDigit, cs.dropWhile isDigit, _, by simp, .number hd ?_ ?_,
      newline_notMem_run (fun d => solid_of_isDigit) h⟩
    · exact fun d hd' => List.mem_takeWhile_imp hd'
    · exact fun d hd' => head?_dropWhile_eq_false hd'
  · by_cases hw : isWordStart c = true
    · refine ⟨c :: cs.takeWhile isWordChar, cs.dropWhile isWordChar, _, by simp, .word hw ?_ ?_,
        newline_notMem_run (fun d => solid_of_isWordChar) h⟩
      · exact fun d hd' => List.mem_takeWhile_imp hd'
      · exact fun d hd' => head?_dropWhile_eq_false hd'
    · by_cases hs : c ∈ specials
      · exact startsToken_special hs
      · refine ⟨[c], cs, _, rfl, .stray _ h hs (by simpa using hd) (by simpa using hw), ?_⟩
        simpa using h.ne_newline.symm

end Existence

/-- A character without a meaning of its own starts a number or a word, or it is out of place. -/
theorem Scanner.tokenFrom_of_not_special {σ : Type} [Scanner σ] {c : Char} (h : c ∉ specials) (s : σ) :
    tokenFrom s c =
      if isDigit c then (numberToken (c :: (takeWhile s isDigit).1), (takeWhile s isDigit).2)
      else if isWordStart c then
        (wordToken (c :: (takeWhile s isWordChar).1), (takeWhile s isWordChar).2)
      else (.invalid (.unexpectedChar c), s) := by
  unfold tokenFrom
  split <;> first | rfl | exact absurd (by decide) h

/-- Related sources find the same next character and the same runs of characters, and stay related. -/
structure Scanner.Simulation {σ τ : Type} [Scanner σ] [Scanner τ] (R : σ → τ → Prop) : Prop where
  look : ∀ {s t}, R s t → (look t).1 = (look s).1 ∧ R (look s).2 (look t).2
  drop : ∀ {s t c}, R s t → (Scanner.look s).1 = some c →
    R (drop (Scanner.look s).2) (drop (Scanner.look t).2)
  takeWhile : ∀ {s t} keep, R s t →
    (takeWhile t keep).1 = (takeWhile s keep).1 ∧ R (takeWhile s keep).2 (takeWhile t keep).2

theorem Scanner.Simulation.tokenFrom {σ τ : Type} [Scanner σ] [Scanner τ] {R : σ → τ → Prop}
    (h : Simulation R) {s : σ} {t : τ} (hst : R s t) (c : Char) :
    (tokenFrom t c).1 = (tokenFrom s c).1 ∧ R (tokenFrom s c).2 (tokenFrom t c).2 := by
  obtain ⟨hnext, hlook⟩ := h.look hst
  by_cases hc : c ∈ specials
  · simp only [specials, List.mem_cons, List.not_mem_nil, or_false] at hc
    rcases hc with rfl | rfl | rfl | rfl | rfl | rfl | rfl | rfl | rfl | rfl | rfl | rfl | rfl | rfl | rfl
    all_goals simp only [Scanner.tokenFrom, either, hnext]
    all_goals first
      | exact ⟨trivial, hst⟩
      | split
        · next hsome => exact ⟨rfl, h.drop hst hsome⟩
        · exact ⟨rfl, hlook⟩
  · simp only [tokenFrom_of_not_special hc]
    split
    · exact ⟨by rw [(h.takeWhile isDigit hst).1], (h.takeWhile isDigit hst).2⟩
    split
    · exact ⟨by rw [(h.takeWhile isWordChar hst).1], (h.takeWhile isWordChar hst).2⟩
    · exact ⟨rfl, hst⟩

namespace Source
open Scanner
variable {es : List Event} {n : Nat} {p : Position}

theorem takeWhile_run {keep : Char → Bool} {w : List Char} (hw : ∀ d ∈ w, keep d = true)
    (hes : AtHand es) (hnext : ∀ d, following es = some d → keep d = false) :
    ∃ n', Scanner.takeWhile (Source.mk (w.map .char ++ es) n p) keep = (w, ⟨es, n', p.afterAll w⟩) := by
  change ∃ n', takeWhileFrom keep (w.map .char ++ es) n p = _
  induction w generalizing p with
  | nil =>
    cases es with
    | nil => exact ⟨n + 1, rfl⟩
    | cons e es =>
      cases e with
      | request => exact absurd rfl hes
      | char c =>
        refine ⟨n, ?_⟩
        rw [List.map_nil, List.nil_append, takeWhileFrom, if_neg (by simp [hnext c rfl])]
        rfl
      | broken e => exact ⟨n, rfl⟩
  | cons c w ih =>
    rw [List.forall_mem_cons] at hw
    obtain ⟨n', hrun⟩ := ih hw.2 (p := p.after c)
    refine ⟨n', ?_⟩
    rw [List.map_cons, List.cons_append, takeWhileFrom, if_pos hw.1, hrun]
    rfl

theorem either_short {second : Char} (long short : Symbol) (hes : AtHand es)
    (h : ∀ d, following es = some d → d ≠ second) :
    ∃ n', Scanner.either (Source.mk es n p) second long short = (.symbol short, ⟨es, n', p⟩) := by
  cases es with
  | nil => exact ⟨n + 1, rfl⟩
  | cons e es =>
    cases e with
    | request => exact absurd rfl hes
    | char c => exact ⟨n, if_neg fun hc => h c rfl (Option.some.inj hc)⟩
    | broken e => exact ⟨n, rfl⟩

theorem tokenFrom_bang (hes : AtHand es) (h : following es ≠ some '=') :
    ∃ n', tokenFrom (Source.mk es n p) '!' =
      (.invalid (.bangWithoutEq (following es)), ⟨es, n', p⟩) := by
  cases es with
  | nil => exact ⟨n + 1, rfl⟩
  | cons e es =>
    cases e with
    | request => exact absurd rfl hes
    | broken e => exact ⟨n, rfl⟩
    | char c =>
      have hc : c ≠ '=' := fun hc => h (congrArg some hc)
      exact ⟨n, if_neg fun hc' => hc (Option.some.inj hc')⟩

theorem tokenFrom_symbol {c : Char} {w : List Char} {s : Symbol} (hw : s.spelling.toList = c :: w)
    (h : ∀ d, following es = some d → s.longer? ≠ some d) (hes : AtHand es) :
    ∃ n', tokenFrom (Source.mk (w.map .char ++ es) n p) c = (.symbol s, ⟨es, n', p.afterAll w⟩) := by
  have hshort (d : Char) (hs : s.longer? = some d) (e : Char) (he : following es = some e) : e ≠ d := by
    rintro rfl
    exact h e he hs
  cases s <;> cases hw
  case star => exact either_short _ _ hes (hshort _ rfl)
  case equal => exact either_short _ _ hes (hshort _ rfl)
  case less => exact either_short _ _ hes (hshort _ rfl)
  case greater => exact either_short _ _ hes (hshort _ rfl)
  all_goals exact ⟨n, rfl⟩

/-- Exactly the stretch that is a token is taken. -/
theorem tokenFrom_scans {c : Char} {w : List Char} {t : Token} (h : Scans (c :: w) (following es) t)
    (hes : AtHand es) :
    ∃ n', tokenFrom (Source.mk (w.map .char ++ es) n p) c = (t, ⟨es, n', p.afterAll w⟩) := by
  generalize hw : c :: w = v at h
  generalize hf : following es = next at h
  cases h with
  | symbol s h =>
    subst hf
    exact tokenFrom_symbol hw.symm h hes
  | bang h =>
    subst hf
    cases hw
    exact tokenFrom_bang hes h
  | null =>
    cases hw
    exact ⟨n, rfl⟩
  | number hc hd h =>
    cases hw
    have hspecial : c ∉ specials := fun hs => by simp [(not_word_of_special hs).1] at hc
    obtain ⟨n', hrun⟩ := takeWhile_run (n := n) (p := p) hd hes (hf ▸ h)
    refine ⟨n', ?_⟩
    rw [tokenFrom_of_not_special hspecial, if_pos hc, hrun]
  | word hc hd h =>
    cases hw
    have hspecial : c ∉ specials := fun hs => by simp [(not_word_of_special hs).2] at hc
    have hdigit : ¬ isDigit c = true := by simp [isDigit_eq_false_of_isWordStart hc]
    obtain ⟨n', hrun⟩ := takeWhile_run (n := n) (p := p) hd hes (hf ▸ h)
    refine ⟨n', ?_⟩
    rw [tokenFrom_of_not_special hspecial, if_neg hdigit, if_pos hc, hrun]
  | stray next hs hspecial hd hw' =>
    cases hw
    refine ⟨n, ?_⟩
    rw [tokenFrom_of_not_special hspecial, if_neg (by simp [hd]), if_neg (by simp [hw'])]
    rfl

/-- A stretch that is a token is the next one, and its place is that of its first character. -/
theorem nextLexeme_scans {w : List Char} {t : Token} (h : Scans w (following es) t)
    (hes : AtHand es) (n : Nat) (p : Position) :
    ∃ n', (Source.mk (w.map .char ++ es) n p).nextLexeme = (⟨t, p⟩, ⟨es, n', p.afterAll w⟩) := by
  obtain ⟨c, v, rfl, hc⟩ := h.solid
  have hskip : (Source.mk ((c :: v).map .char ++ es) n p).skipBlank =
      ⟨.char c :: (v.map .char ++ es), n, p⟩ := skipBlankFrom_solid hc _ n p
  obtain ⟨n', htoken⟩ := tokenFrom_scans (n := n) (p := p.after c) h hes
  refine ⟨n', ?_⟩
  rw [nextLexeme, hskip]
  simp only [demand, demandFrom, drop]
  rw [htoken]
  rfl

end Source
end IntLang
