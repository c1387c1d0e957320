import IntLang.Proofs.Literals
import IntLang.Proofs.Parsing
import Mathlib.Data.List.Chain

/-! Scanning undoes spelling. Tokens that are written down one after the other, with gaps between them
wherever two would fuse, are read back as they were. -/
namespace IntLang

def Token.spelling : Token → List Char
  | .ident name => name.toList
  | .number value => (toString value.toInt).toList
  | .keyword k => k.spelling.toList
  | .symbol s => s.spelling.toList
  | .invalid _ | .endOfFile => []

def isNameStart (c : Char) : Bool :=
  c.isAlpha || c = '_'

def isNameChar (c : Char) : Bool :=
  c.isAlphanum || c = '_'

def isName (w : List Char) : Bool :=
  w.head?.any isNameStart && w.all isNameChar && !Keyword.all.any (·.spelling.toList == w)

def Token.writable : Token → Bool
  | .ident name => isName name.toList
  | .number value => 0 ≤ value
  | .keyword _ | .symbol _ => true
  | .invalid _ | .endOfFile => false

def Token.fuses : Token → Token → Bool
  | .ident _, t | .keyword _, t => t.spelling.head?.any isNameChar
  | .number _, .number _ => true
  | .symbol .star, t => t.spelling.head? = some '*'
  | .symbol .equal, t | .symbol .less, t | .symbol .greater, t => t.spelling.head? = some '='
  | _, _ => false

/-- The text that has each token after the gap that comes with it, and one more gap at the end. -/
def written : List (List Char × Token) → List Char → List Char
  | [], last => last
  | (gap, t) :: parts, last => gap ++ (t.spelling ++ written parts last)

/-- What is written down can be read again. -/
structure Legible (parts : List (List Char × Token)) (last : List Char) : Prop where
  tokens : ∀ x ∈ parts, x.2.writable = true
  gaps : ∀ x ∈ parts, Gap x.1
  last : Gap last
  apart : parts.IsChain fun x y => y.1 = [] → x.2.fuses y.2 = false

section Names
variable {c : Char}

theorem isWordStart_eq (c : Char) : isWordStart c = isNameStart c := by
  have hlower : (decide ('a' ≤ c) && decide (c ≤ 'z')) = c.isLower := rfl
  have hupper : (decide ('A' ≤ c) && decide (c ≤ 'Z')) = c.isUpper := (Bool.decide_and ..).symm
  have halpha : c.isAlpha = (c.isUpper || c.isLower) := rfl
  rw [isWordStart, isNameStart, hlower, hupper, halpha, Bool.or_comm c.isLower]

theorem isWordChar_eq_isNameChar (c : Char) : isWordChar c = isNameChar c := by
  have hdigit : isDigit c = c.isDigit := rfl
  rw [isWordChar_eq, isWordStart_eq, isNameStart, isNameChar, Char.isAlphanum, hdigit]
  cases c.isAlpha <;> cases c.isDigit <;> simp

end Names

/-- The character `c` after the token would be read as a part of it. -/
def Token.GoesOn : Token → Char → Prop
  | .ident _, c | .keyword _, c => isWordChar c = true
  | .number _, c => isDigit c = true
  | .symbol s, c => s.longer? = some c
  | _, _ => False

theorem digitsValue_toDigits (n : Nat) : digitsValue (Nat.toDigits 10 n) = n := by
  calc digitsValue (Nat.toDigits 10 n)
      = Nat.ofDigitChars 10 (Nat.toDigits 10 n) 0 := by
        simp only [digitsValue_eq_foldl, digitValue, Nat.ofDigitChars_eq_foldl, Nat.mul_comm]
    _ = n := Nat.ofDigitChars_ten_toDigits

theorem spelling_number {value : Int32} (h : 0 ≤ value) :
    (Token.number value).spelling = Nat.toDigits 10 value.toInt.toNat := by
  have hnonneg : 0 ≤ value.toInt := Int32.le_iff_toInt_le.1 h
  obtain ⟨n, hn⟩ := Int.eq_ofNat_of_zero_le hnonneg
  rw [Token.spelling, hn]
  change n.repr.toList = _
  rw [Nat.repr_eq_ofList_toDigits, String.toList_ofList]
  rfl

theorem numberToken_toDigits {value : Int32} (h : 0 ≤ value) :
    numberToken (Nat.toDigits 10 value.toInt.toNat) = .number value := by
  have hnonneg : 0 ≤ value.toInt := Int32.le_iff_toInt_le.1 h
  have hlt := value.toInt_lt
  have hmax : digitsValue (Nat.toDigits 10 value.toInt.toNat) ≤ maxInteger := by
    rw [digitsValue_toDigits]
    unfold maxInteger
    omega
  rw [numberToken_of_le Nat.toDigits_ne_nil hmax]
  congr 1
  apply Int32.toInt_inj.1
  rw [toInt_ofNat_of_le hmax, digitsValue_toDigits, Int.toNat_of_nonneg hnonneg]

theorem isDigit_of_mem_toDigits {n : Nat} {c : Char} (h : c ∈ Nat.toDigits 10 n) :
    isDigit c = true :=
  Nat.isDigit_of_mem_toDigits (by decide) (by decide) h

theorem scans_number {value : Int32} (h : 0 ≤ value) {next : Option Char}
    (hnext : ∀ c, next = some c → isDigit c = false) :
    Scans (Token.number value).spelling next (.number value) := by
  rw [spelling_number h, ← numberToken_toDigits h]
  exact scans_digits Nat.toDigits_ne_nil (fun c hc => isDigit_of_mem_toDigits hc) hnext

def IsWord (w : List Char) : Prop :=
  ∃ c cs, w = c :: cs ∧ isNameStart c = true ∧ ∀ d ∈ cs, isNameChar d = true

theorem Keyword.isWord_spelling (k : Keyword) : IsWord k.spelling.toList := by
  cases k <;> exact ⟨_, _, rfl, rfl, List.all_eq_true.1 rfl⟩

theorem isWord_of_isName {w : List Char} (h : isName w = true) :
    IsWord w ∧ ∀ k : Keyword, k.spelling.toList ≠ w := by
  simp only [isName, Bool.and_eq_true, Bool.not_eq_true'] at h
  obtain ⟨⟨hstart, hall⟩, hkey⟩ := h
  constructor
  · cases w with
    | nil => cases hstart
    | cons c cs =>
      rw [List.all_cons, Bool.and_eq_true, List.all_eq_true] at hall
      exact ⟨c, cs, rfl, hstart, hall.2⟩
  · intro k hk
    rw [List.any_eq_false] at hkey
    exact hkey k k.mem_all (beq_iff_eq.2 hk)

theorem IsWord.scans {w : List Char} (h : IsWord w) (next : Option Char)
    (hnext : ∀ d, next = some d → isWordChar d = false) : Scans w next (wordToken w) := by
  obtain ⟨c, cs, rfl, hc, hcs⟩ := h
  refine .word ?_ ?_ hnext
  · rw [isWordStart_eq, hc]
  · intro d hd
    rw [isWordChar_eq_isNameChar, hcs d hd]

theorem wordToken_keyword (k : Keyword) : wordToken k.spelling.toList = .keyword k := by
  rw [wordToken, String.ofList_toList, Keyword.ofWord?_spelling]

theorem wordToken_ident {name : String} (h : ∀ k : Keyword, k.spelling.toList ≠ name.toList) :
    wordToken name.toList = .ident name := by
  have hnone : Keyword.ofWord? name = none := by
    refine List.find?_eq_none.2 fun k _ hk => h k ?_
    rw [beq_iff_eq.1 hk]
  rw [wordToken, String.ofList_toList, hnone]

/-- The spelling of a token is that token, unless the next character goes on with it. -/
theorem Token.scans_spelling {t : Token} (h : t.writable = true) (next : Option Char)
    (hnext : ∀ c, next = some c → ¬ t.GoesOn c) : Scans t.spelling next t := by
  cases t with
  | ident name =>
    obtain ⟨hword, hkey⟩ := isWord_of_isName h
    have hscan := hword.scans next fun d hd => Bool.eq_false_iff.2 (hnext d hd)
    rw [wordToken_ident hkey] at hscan
    exact hscan
  | number value => exact scans_number (of_decide_eq_true h) fun d hd => Bool.eq_false_iff.2 (hnext d hd)
  | keyword k =>
    have hscan := k.isWord_spelling.scans next fun d hd => Bool.eq_false_iff.2 (hnext d hd)
    rw [wordToken_keyword] at hscan
    exact hscan
  | symbol s => exact .symbol s hnext
  | invalid | endOfFile => cases h

theorem Gap.not_goesOn {gap : List Char} (h : Gap gap) (t : Token) {c : Char}
    (hc : gap.head? = some c) : ¬ t.GoesOn c := by
  obtain ⟨hword, hstar, hequal⟩ := h.head_not_word hc
  cases t with
  | ident | keyword => simp [Token.GoesOn, hword]
  | number =>
    rw [isWordChar_eq, Bool.or_eq_false_iff] at hword
    simp [Token.GoesOn, hword.2]
  | symbol s => cases s <;> simp [Token.GoesOn, Symbol.longer?, hstar.symm, hequal.symm]
  | invalid | endOfFile => exact fun h => h

theorem IsWord.head_not_isDigit {w : List Char} (h : IsWord w) {c : Char} (hc : w.head? = some c) :
    isDigit c = false := by
  obtain ⟨d, cs, rfl, hd, -⟩ := h
  obtain rfl := Option.some.inj hc
  exact isDigit_eq_false_of_isWordStart ((isWordStart_eq d).trans hd)

theorem Token.number_of_isDigit {t : Token} (h : t.writable = true) {c : Char}
    (hc : t.spelling.head? = some c) (hd : isDigit c = true) : ∃ value, t = .number value := by
  cases t with
  | number value => exact ⟨value, rfl⟩
  | ident name =>
    rw [(isWord_of_isName h).1.head_not_isDigit hc] at hd
    cases hd
  | keyword k =>
    rw [k.isWord_spelling.head_not_isDigit hc] at hd
    cases hd
  | symbol s =>
    cases s <;> obtain rfl := Option.some.inj hc <;> exact absurd hd (by decide)
  | invalid | endOfFile => cases h

/-- What goes on with a token fuses with it. -/
theorem Token.fuses_of_goesOn {t u : Token} (hu : u.writable = true) {c : Char}
    (hc : u.spelling.head? = some c) (h : t.GoesOn c) : t.fuses u = true := by
  cases t with
  | ident | keyword =>
    rw [Token.GoesOn, isWordChar_eq_isNameChar] at h
    simp [Token.fuses, hc, h]
  | number =>
    obtain ⟨value, rfl⟩ := Token.number_of_isDigit hu hc h
    rfl
  | symbol s =>
    cases s with
    | star | equal | less | greater => exact decide_eq_true (hc.trans h.symm)
    | _ => cases h
  | invalid | endOfFile => exact h.elim

variable {parts : List (List Char × Token)} {last : List Char}

theorem Legible.tail {x : List Char × Token} (h : Legible (x :: parts) last) : Legible parts last :=
  ⟨fun y hy => h.tokens y (List.mem_cons_of_mem x hy), fun y hy => h.gaps y (List.mem_cons_of_mem x hy),
    h.last, h.apart.tail⟩

/-- What is written after a token does not go on with it. -/
theorem Legible.not_goesOn {gap : List Char} {t : Token} (h : Legible ((gap, t) :: parts) last) {c : Char}
    (hc : (written parts last).head? = some c) : ¬ t.GoesOn c := by
  cases parts with
  | nil => exact h.last.not_goesOn t hc
  | cons y parts =>
    obtain ⟨gap', u⟩ := y
    have hy : (gap', u) ∈ (gap, t) :: (gap', u) :: parts := List.mem_cons_of_mem _ List.mem_cons_self
    cases gap' with
    | cons d gap' => exact (h.gaps _ hy).not_goesOn t hc
    | nil =>
      have hu : u.writable = true := h.tokens _ hy
      obtain ⟨d, cs, hspell, -⟩ := (Token.scans_spelling hu none (by simp)).solid
      have hd : u.spelling.head? = some d := by rw [hspell]; rfl
      have hcd : c = d := by
        rw [written, List.nil_append, hspell] at hc
        exact (Option.some.inj hc).symm
      intro hgo
      have hfuse := Token.fuses_of_goesOn hu hd (hcd ▸ hgo)
      rw [(List.isChain_cons_cons.1 h.apart).1 rfl] at hfuse
      cases hfuse

theorem following_map (cs : List Char) : following (cs.map .char) = cs.head? := by
  cases cs <;> rfl

theorem atHand_map (cs : List Char) : AtHand (cs.map .char) := by
  cases cs <;> simp [AtHand]

theorem Token.valid_of_writable {t : Token} (h : t.writable = true) : t.Valid := by
  rintro e rfl
  cases h

/-- What is written down is read back, wherever it starts. -/
theorem Legible.tokenize (h : Legible parts last) (n : Nat) (p : Position) :
    ∃ ls, (Source.mk ((written parts last).map .char) n p).tokenize.1 = .ok ls ∧
      ls.map (·.token) = parts.map (·.2) ++ [Token.endOfFile] := by
  induction parts generalizing n p with
  | nil =>
    have hnext := Source.nextLexeme_gap h.last [] n p
    rw [List.append_nil] at hnext
    refine ⟨[⟨.endOfFile, p.afterAll last⟩], ?_, rfl⟩
    rw [Source.tokenize, written, hnext]
    rfl
  | cons x parts ih =>
    obtain ⟨gap, t⟩ := x
    have ht : t.writable = true := h.tokens _ List.mem_cons_self
    have hscan : Scans t.spelling (following ((written parts last).map .char)) t := by
      refine Token.scans_spelling ht _ fun c hc => h.not_goesOn ?_
      rwa [following_map] at hc
    obtain ⟨n', htaken⟩ := Source.nextLexeme_scans hscan (atHand_map _) n (p.afterAll gap)
    have hnext : (Source.mk ((written ((gap, t) :: parts) last).map .char) n p).nextLexeme =
        (⟨t, p.afterAll gap⟩,
          ⟨(written parts last).map .char, n', (p.afterAll gap).afterAll t.spelling⟩) := by
      rw [written, List.map_append, List.map_append, Source.nextLexeme_gap (h.gaps _ List.mem_cons_self),
        htaken]
    obtain ⟨ls, hls, htokens⟩ := ih h.tail n' ((p.afterAll gap).afterAll t.spelling)
    refine ⟨⟨t, p.afterAll gap⟩ :: ls, ?_, by simp [htokens]⟩
    have hne : t ≠ .endOfFile := hscan.token_ne_endOfFile
    have hvalid : t.Valid := Token.valid_of_writable ht
    rw [Source.tokenize_of_valid (by rwa [hnext]) (by rwa [hnext]), hnext, hls]
    rfl

/-- Scanning gives back exactly the tokens that have been written down, and the end of the input. -/
theorem tokenize_written {parts : List (List Char × Token)} {last : List Char} (h : Legible parts last) :
    ∃ ls, (Source.ofText (written parts last)).tokenize.1 = .ok ls ∧
      ls.map (·.token) = parts.map (·.2) ++ [.endOfFile] :=
  h.tokenize 0 {}

def crowdedTokens : List (List Char × Token) :=
  [(['#', 'x', '\n', ' '], .ident "a"), ([], .symbol .starStar), ([], .symbol .star), ([], .number 70),
    ([], .ident "ifx"), ([], .symbol .equal), ([], .symbol .notEq), ([], .symbol .eqEq),
    (['\t'], .keyword .not), (['#', '=', '\n'], .ident "b"), ([], .symbol .semicolon)]

theorem tokenize_written_crowdedTokens : Legible crowdedTokens ['\n'] ∧
    written crowdedTokens ['\n'] = "#x\n a***70ifx=!===\tnot#=\nb;\n".toList ∧
    ∃ ls, (Source.ofText (written crowdedTokens ['\n'])).tokenize.1 = .ok ls ∧
      ls.map (·.token) = crowdedTokens.map (·.2) ++ [.endOfFile] := by
  have hlegible : Legible crowdedTokens ['\n'] := by
    refine ⟨by decide, ?_, .blank (by decide) .nil, by decide⟩
    have hfirst : Gap ['#', 'x', '\n', ' '] :=
      .comment ['x'] (by decide) (.blank (by decide) .nil)
    have hlast : Gap ['#', '=', '\n'] := .comment ['='] (by decide) .nil
    have htab : Gap ['\t'] := .blank (by decide) .nil
    simp [crowdedTokens, hfirst, hlast, htab, Gap.nil]
  exact ⟨hlegible, by decide, tokenize_written hlegible⟩

end IntLang
