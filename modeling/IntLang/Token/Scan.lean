import IntLang.Source
import IntLang.Token

/-! Scanning: the next token of a source, and all of them. Tokens are read on demand, and reading
one asks for no character beyond the one that ends it. -/
namespace IntLang
open IntLang.Text

def isBlank (c : Char) : Bool :=
  c = ' ' || c = '\t' || c = '\n' || c = '\r' || c = '\x0b' || c = '\x0c'

def isDigit (c : Char) : Bool :=
  '0' ≤ c && c ≤ '9'

def isWordStart (c : Char) : Bool :=
  ('a' ≤ c && c ≤ 'z') || ('A' ≤ c && c ≤ 'Z') || c = '_'

def isWordChar (c : Char) : Bool :=
  isWordStart c || isDigit c

def digitValue (c : Char) : Nat :=
  c.toNat - '0'.toNat

def fit? (n : Int) : Option Int32 :=
  if Int32.minValue.toInt ≤ n ∧ n ≤ Int32.maxValue.toInt then some (Int32.ofInt n) else none

/-- A number with one more digit at its end. Both the product and the sum have to fit. -/
def appendDigit (n : Int32) (c : Char) : Option Int32 := do
  let tens ← fit? (n.toInt * 10)
  fit? (tens.toInt + digitValue c)

/-- The number of a run of digits, taken in one by one. Once it does not fit, it never will. -/
def runNumber? : List Char → Option Int32
  | [] => none
  | c :: cs => cs.foldl (fun n d => n.bind (appendDigit · d)) (some (Int32.ofNat (digitValue c)))

def numberToken (cs : List Char) : Token :=
  match runNumber? cs with
  | some n => .number n
  | none => .invalid .integerTooLarge

def wordToken (cs : List Char) : Token :=
  let w := String.ofList cs
  match Keyword.ofWord? w with
  | some k => .keyword k
  | none => .ident w

/-- What scanning a token asks of its source: to look at the next character, to drop it after that, and to
take a run of characters. -/
class Scanner (σ : Type) where
  look : σ → Option Char × σ
  drop : σ → σ
  takeWhile : σ → (Char → Bool) → List Char × σ

namespace Scanner
variable {σ : Type} [Scanner σ]

/-- One of two symbols, the longer if `second` comes next. -/
def either (s : σ) (second : Char) (long short : Symbol) : Token × σ :=
  let (next, s) := look s
  if next = some second then (.symbol long, drop s) else (.symbol short, s)

/-- The token that starts with `c`, which has been taken already. -/
def tokenFrom (s : σ) (c : Char) : Token × σ :=
  match c with
  | '(' => (.symbol .lparen, s)
  | ')' => (.symbol .rparen, s)
  | ':' => (.symbol .colon, s)
  | ';' => (.symbol .semicolon, s)
  | ',' => (.symbol .comma, s)
  | '+' => (.symbol .plus, s)
  | '-' => (.symbol .minus, s)
  | '/' => (.symbol .slash, s)
  | '%' => (.symbol .percent, s)
  | '*' => either s '*' .starStar .star
  | '=' => either s '=' .eqEq .equal
  | '<' => either s '=' .lessEq .less
  | '>' => either s '=' .greaterEq .greater
  | '!' =>
    let (next, s) := look s
    if next = some '=' then (.symbol .notEq, drop s) else (.invalid (.bangWithoutEq next), s)
  | '\x00' => (.invalid .embeddedNull, s)
  | c =>
    if isDigit c then
      let (cs, s) := takeWhile s isDigit
      (numberToken (c :: cs), s)
    else if isWordStart c then
      let (cs, s) := takeWhile s isWordChar
      (wordToken (c :: cs), s)
    else (.invalid (.unexpectedChar c), s)

/-- What can be left after a token. -/
theorem tokenFrom_snd (s : σ) (c : Char) : (tokenFrom s c).2 = s ∨ (tokenFrom s c).2 = (look s).2 ∨
    (tokenFrom s c).2 = drop (look s).2 ∨ ∃ keep, (tokenFrom s c).2 = (takeWhile s keep).2 := by
  unfold tokenFrom
  split <;> try exact .inl rfl
  case h_10 | h_11 | h_12 | h_13 | h_14 =>
    simp only [either]
    split
    · exact .inr (.inr (.inl rfl))
    · exact .inr (.inl rfl)
  · split
    · exact .inr (.inr (.inr ⟨_, rfl⟩))
    · split
      · exact .inr (.inr (.inr ⟨_, rfl⟩))
      · exact .inl rfl

end Scanner

namespace Source

def skipBlankFrom : Bool → List Event → Nat → Position → Source
  | comment, [], n, p => ⟨[], if comment then n + 2 else n + 1, p⟩
  | comment, .request :: es, n, p => skipBlankFrom comment es (n + 1) p
  | _, .broken e :: es, n, p => ⟨.broken e :: es, n, p⟩
  | true, .char c :: es, n, p => skipBlankFrom (c != '\n') es n (p.after c)
  | false, .char c :: es, n, p =>
    if isBlank c then skipBlankFrom false es n (p.after c)
    else if c = '#' then skipBlankFrom true es n (p.after c)
    else ⟨.char c :: es, n, p⟩

/-- Skips blanks and comments. A comment runs from `#` to the end of its line. -/
def skipBlank (s : Source) : Source :=
  skipBlankFrom false s.pending s.requests s.position

def look (s : Source) : Option Char × Source :=
  match s.demand with
  | (.char c, s) => (some c, s)
  | (_, s) => (none, s)

instance : Scanner Source := ⟨look, drop, takeWhile⟩

/-- The next token. At the end of the input this is `endOfFile`, however often it is asked for. -/
def nextLexeme (s : Source) : Lexeme × Source :=
  let s := s.skipBlank
  match s.demand with
  | (.char c, t) =>
    let (token, u) := Scanner.tokenFrom t.drop c
    (⟨token, s.position⟩, u)
  | (.broken e, t) => (⟨.invalid (.unreadable e), s.position⟩, t.drop)
  | (.done, t) => (⟨.endOfFile, s.position⟩, t)

theorem size_skipBlankFrom_le (comment : Bool) (es : List Event) (n : Nat) (p : Position) :
    (skipBlankFrom comment es n p).size ≤ es.length := by
  induction es generalizing comment n p with
  | nil => simp [skipBlankFrom, size]
  | cons e es ih =>
    cases e with
    | request => cases comment <;> exact Nat.le_succ_of_le (ih _ _ _)
    | broken e => cases comment <;> simp [skipBlankFrom, size]
    | char c =>
      cases comment with
      | true => exact Nat.le_succ_of_le (ih _ _ _)
      | false =>
        rw [skipBlankFrom]
        split
        · exact Nat.le_succ_of_le (ih _ _ _)
        · split
          · exact Nat.le_succ_of_le (ih _ _ _)
          · simp [size]

theorem size_skipBlank_le (s : Source) : s.skipBlank.size ≤ s.size :=
  size_skipBlankFrom_le _ _ _ _

theorem size_drop_le (s : Source) : s.drop.size ≤ s.size := by
  unfold drop
  split <;> simp_all [size]

theorem look_snd (s : Source) : s.look.2 = s.demand.2 := by
  unfold look
  split <;> simp_all

theorem size_tokenFrom_le (s : Source) (c : Char) : (Scanner.tokenFrom s c).2.size ≤ s.size := by
  have hlook : s.look.2.size ≤ s.size := s.look_snd ▸ s.size_demand_le
  rcases Scanner.tokenFrom_snd s c with h | h | h | ⟨keep, h⟩
  · exact Nat.le_of_eq (congrArg size h)
  · exact h ▸ hlook
  · exact h ▸ Nat.le_trans (size_drop_le _) hlook
  · exact h ▸ size_takeWhile_le s keep

/-- A token other than `endOfFile` uses up some of the source. -/
theorem size_nextLexeme_lt (s : Source) (h : s.nextLexeme.1.token ≠ .endOfFile) :
    s.nextLexeme.2.size < s.size := by
  refine Nat.lt_of_lt_of_le ?_ s.size_skipBlank_le
  unfold nextLexeme at h ⊢
  simp only at h ⊢
  split at h
  · next c t heq => exact Nat.lt_of_le_of_lt (t.drop.size_tokenFrom_le c) (size_drop_lt heq (by simp))
  · next e t heq => exact size_drop_lt heq (by simp)
  · simp at h

/-- All tokens of a source, up to and including the first `endOfFile`, and the source after them. -/
def lexemes (s : Source) : List Lexeme × Source :=
  if _h : s.nextLexeme.1.token = .endOfFile then ([s.nextLexeme.1], s.nextLexeme.2)
  else
    let (ls, u) := s.nextLexeme.2.lexemes
    (s.nextLexeme.1 :: ls, u)
termination_by s.size
decreasing_by exact s.size_nextLexeme_lt _h

/-- All tokens of a source, or the report of the first stretch that is no token; and the source
where scanning stopped. -/
def tokenize (s : Source) : Except Diagnostic (List Lexeme) × Source :=
  if _h : s.nextLexeme.1.token = .endOfFile then (.ok [s.nextLexeme.1], s.nextLexeme.2)
  else
    match s.nextLexeme.1.token with
    | .invalid e => (.error (e.diagnostic s.nextLexeme.1.position), s.nextLexeme.2)
    | _ =>
      let (r, u) := s.nextLexeme.2.tokenize
      (r.map (s.nextLexeme.1 :: ·), u)
termination_by s.size
decreasing_by exact s.size_nextLexeme_lt _h

end Source
end IntLang
