import IntLang.Proofs.Alignment

/-! Scanning with one character of lookahead. A lexer takes its characters from a text or from a reader of
lines, and keeps a character that it has seen and not yet used and an error that it has met and not yet
reported. It finds the tokens of the source that is left to it, and asks for input as often. -/
namespace IntLang
open IntLang.Text

/-- What a demand finds, where `f` came to `a` before it: a function that counts requests and depends on them
in no other way comes to the same after it. -/
inductive Source.Finds {α : Type} (f : List Event → Nat → Position → α) (a : α) (p : Position) :
    Source.Head × Source → Prop
  | done {n} (eq : a = f [] n p) : Finds f a p (.done, ⟨[], n + 1, p⟩)
  | char {c es n} (eq : a = f (.char c :: es) n p) : Finds f a p (.char c, ⟨.char c :: es, n, p⟩)
  | broken {e es n} (eq : a = f (.broken e :: es) n p) : Finds f a p (.broken e, ⟨.broken e :: es, n, p⟩)

theorem Source.finds {α : Type} {f : List Event → Nat → Position → α}
    (hf : ∀ es n p, f (.request :: es) n p = f es (n + 1) p) (es : List Event) (n : Nat) (p : Position) :
    Finds f (f es n p) p (demandFrom es n p) := by
  induction es generalizing n with
  | nil => exact .done rfl
  | cons e es ih =>
    cases e with
    | request =>
      rw [hf]
      exact ih (n + 1)
    | char c => exact .char rfl
    | broken e => exact .broken rfl

/-- What a demand finds, by the answer to it and what is left then. -/
def Source.found {σ : Type} (events : σ → List Event) (requests : σ → Nat) (p : Position) :
    Option (Except ReadError Char) × σ → Source.Head × Source
  | (none, s) => (.done, ⟨events s, requests s, p⟩)
  | (some (.ok c), s) => (.char c, ⟨.char c :: events s, requests s, p⟩)
  | (some (.error e), s) => (.broken e, ⟨.broken e :: events s, requests s, p⟩)

/-- Characters that are computed one by one, the events that they come to, and how often they have been
asked for without being at hand. -/
class CharSource (σ : Type) where
  next : σ → Option (Except ReadError Char) × σ
  events : σ → List Event
  requests : σ → Nat
  demand_eq : ∀ s p, Source.demandFrom (events s) (requests s) p = Source.found events requests p (next s)

structure TextChars where
  rest : List Char
  requests : Nat := 0

def TextChars.next (t : TextChars) : Option (Except ReadError Char) × TextChars :=
  match t.rest with
  | [] => (none, { t with requests := t.requests + 1 })
  | c :: cs => (some (.ok c), { t with rest := cs })

instance : CharSource TextChars where
  next := TextChars.next
  events t := t.rest.map .char
  requests := TextChars.requests
  demand_eq t p := by
    obtain ⟨_ | ⟨c, cs⟩, n⟩ := t <;> rfl

/-- The characters of a reader: the lines that it has not read yet, and the place in the one that it has. -/
structure ReaderChars where
  reader : List (List UInt8)
  line : List Char := []
  pos : Nat := 0
  requests : Nat := 0

namespace ReaderChars

/-- Reads the next line and gives its first character. The lines of a reader are not empty. -/
def refill (line : List Char) (pos : Nat) :
    List (List UInt8) → Nat → Option (Except ReadError Char) × ReaderChars
  | [], n => (none, ⟨[], line, pos, n + 1⟩)
  | l :: ls, n =>
    let asked := if l.getLast? = some newline then n + 1 else n + 2
    match decodeLine l with
    | .error e => (some (.error e), ⟨ls, line, pos, n + 1⟩)
    | .ok [] => refill line pos ls asked
    | .ok (c :: cs) => (some (.ok c), ⟨ls, c :: cs, 1, asked⟩)

def next (r : ReaderChars) : Option (Except ReadError Char) × ReaderChars :=
  match r.line[r.pos]? with
  | some c => (some (.ok c), { r with pos := r.pos + 1 })
  | none => refill r.line r.pos r.reader r.requests

def events (r : ReaderChars) : List Event :=
  (r.line.drop r.pos).map .char ++ r.reader.flatMap Source.lineEvents

theorem demandFrom_lines {line : List Char} {pos : Nat} (h : line.drop pos = []) (ls : List (List UInt8))
    (n : Nat) (p : Position) : Source.demandFrom (ls.flatMap Source.lineEvents) n p =
      Source.found events requests p (refill line pos ls n) := by
  induction ls generalizing n with
  | nil => simp [Source.demandFrom, Source.found, refill, events, h]
  | cons l ls ih =>
    rw [List.flatMap_cons, Source.lineEvents, refill]
    cases decodeLine l with
    | error e => simp [Source.demandFrom, Source.found, events, h]
    | ok cs =>
      by_cases hl : l.getLast? = some newline <;> simp only [hl, if_true, if_false] <;> cases cs with
        | nil => exact ih _
        | cons c cs => rfl

instance : CharSource ReaderChars where
  next := next
  events := events
  requests := requests
  demand_eq r p := by
    rw [next]
    cases hc : r.line[r.pos]? with
    | none =>
      have hdrop : r.line.drop r.pos = [] := List.drop_eq_nil_of_le (List.getElem?_eq_none_iff.1 hc)
      rw [events, hdrop]
      exact demandFrom_lines hdrop r.reader r.requests p
    | some c =>
      obtain ⟨hlt, rfl⟩ := List.getElem?_eq_some_iff.1 hc
      rw [events, List.drop_eq_getElem_cons hlt]
      rfl

end ReaderChars

structure Lexer (σ : Type) where
  chars : σ
  peeked : Option Char := none
  readError : Option ReadError := none
  position : Position := {}

namespace Lexer

def ofText (cs : List Char) : Lexer TextChars := { chars := { rest := cs } }

def ofBytes (bs : List UInt8) : Lexer ReaderChars := { chars := { reader := splitLines bs } }

variable {σ : Type} [CharSource σ]

def peek (x : Lexer σ) : Option Char × Lexer σ :=
  if x.peeked.isNone && x.readError.isNone then
    match CharSource.next x.chars with
    | (some (.ok c), cs) => (some c, { x with chars := cs, peeked := some c })
    | (some (.error e), cs) => (none, { x with chars := cs, readError := some e })
    | (none, cs) => (none, { x with chars := cs })
  else (x.peeked, x)

def advance (x : Lexer σ) : Option Char × Lexer σ :=
  match x.peek with
  | (some c, y) => (some c, { y with peeked := none, position := y.position.after c })
  | (none, y) => (none, y)

/-- The source that is left to a lexer. -/
def source (x : Lexer σ) : Source where
  pending := x.peeked.toList.map .char ++ (x.readError.toList.map .broken ++ CharSource.events x.chars)
  requests := CharSource.requests x.chars
  position := x.position

/-- What a lexer sees ahead is what its source finds on demand. -/
inductive Looks (x : Lexer σ) : Prop where
  | char {c y} (peek : x.peek = (some c, y)) (advance : x.advance = (some c, y.advance.2))
    (demand : x.source.demand = (.char c, y.source)) (drop : y.source.drop = y.advance.2.source)
  | broken {e y} (peek : x.peek = (none, y)) (readError : y.readError = some e)
    (demand : x.source.demand = (.broken e, y.source))
    (drop : y.source.drop = { y with readError := none }.source)
  | done {y} (peek : x.peek = (none, y)) (readError : y.readError = none)
    (demand : x.source.demand = (.done, y.source))

theorem looks (x : Lexer σ) : x.Looks := by
  obtain ⟨chars, peeked, readError, position⟩ := x
  rcases peeked with _ | c
  · rcases readError with _ | e
    · have hdemand := CharSource.demand_eq chars position
      rcases hn : CharSource.next chars with ⟨_ | e | c, cs⟩ <;> rw [hn] at hdemand
      · exact .done (y := ⟨cs, none, none, position⟩) (by simp [peek, hn]) rfl hdemand
      · exact .broken (y := ⟨cs, none, some e, position⟩) (by simp [peek, hn]) rfl hdemand rfl
      · exact .char (y := ⟨cs, some c, none, position⟩) (by simp [peek, hn]) (by simp [advance, peek, hn])
          hdemand rfl
    · exact .broken rfl rfl rfl rfl
  · exact .char rfl rfl rfl rfl

theorem peek_source (x : Lexer σ) : x.peek.2.source = x.source.demand.2 := by
  cases x.looks with
  | char peek _ demand => rw [peek, demand]
  | broken peek _ demand => rw [peek, demand]
  | done peek _ demand => rw [peek, demand]

theorem size_advance_lt {x y : Lexer σ} {c : Char} (h : x.peek = (some c, y)) :
    y.advance.2.source.size < x.source.size := by
  cases x.looks with
  | char peek _ demand drop =>
    cases h.symm.trans peek
    exact drop ▸ Source.size_drop_lt demand (by simp)
  | broken peek => simp [h] at peek
  | done peek => simp [h] at peek

def takeWhile (keep : Char → Bool) (x : Lexer σ) : List Char × Lexer σ :=
  match _h : x.peek with
  | (none, y) => ([], y)
  | (some c, y) =>
    if keep c then
      let (cs, z) := takeWhile keep y.advance.2
      (c :: cs, z)
    else ([], y)
termination_by x.source.size
decreasing_by exact size_advance_lt _h

/-- Skips blanks, and comments up to their newline. A comment that is over looks ahead once more. -/
def skipBlank (comment : Bool) (x : Lexer σ) : Lexer σ :=
  match _h : x.peek with
  | (none, y) => if comment then y.peek.2 else y
  | (some c, y) =>
    if comment then skipBlank (c != '\n') y.advance.2
    else if isBlank c then skipBlank false y.advance.2
    else if c = '#' then skipBlank true y.advance.2
    else y
termination_by x.source.size
decreasing_by all_goals exact size_advance_lt _h

instance : Scanner (Lexer σ) := ⟨peek, (·.advance.2), fun x keep => x.takeWhile keep⟩

def nextLexeme (x : Lexer σ) : Lexeme × Lexer σ :=
  let x := x.skipBlank false
  match x.advance with
  | (some c, y) =>
    let (token, z) := Scanner.tokenFrom y c
    (⟨token, x.position⟩, z)
  | (none, y) =>
    match y.readError with
    | some e => (⟨.invalid (.unreadable e), x.position⟩, { y with readError := none })
    | none => (⟨.endOfFile, x.position⟩, y)

section Counting
variable {α : Type} {f : List Event → Nat → Position → α} {x y : Lexer σ} {c : Char}
  (hf : ∀ es n p, f (.request :: es) n p = f es (n + 1) p)
include hf

theorem of_peek_some (h : x.peek = (some c, y)) :
    ∃ es n, y.source = ⟨.char c :: es, n, x.position⟩ ∧ y.advance.2.source = ⟨es, n, x.position.after c⟩ ∧
      f x.source.pending x.source.requests x.position = f (.char c :: es) n x.position := by
  have hfinds := Source.finds hf x.source.pending x.source.requests x.source.position
  rw [← Source.demand] at hfinds
  cases x.looks with
  | char peek _ demand drop =>
    cases h.symm.trans peek
    rw [demand] at hfinds
    rw [← drop]
    generalize y.source = t at hfinds ⊢
    cases hfinds with
    | char eq => exact ⟨_, _, rfl, rfl, eq⟩
  | broken peek => simp [h] at peek
  | done peek => simp [h] at peek

theorem of_peek_none (h : x.peek = (none, y)) :
    (∃ e es n, y.source = ⟨.broken e :: es, n, x.position⟩ ∧
      f x.source.pending x.source.requests x.position = f (.broken e :: es) n x.position) ∨
    ∃ n, y.source = ⟨[], n + 1, x.position⟩ ∧
      f x.source.pending x.source.requests x.position = f [] n x.position := by
  have hfinds := Source.finds hf x.source.pending x.source.requests x.source.position
  rw [← Source.demand] at hfinds
  cases x.looks with
  | char peek => simp [h] at peek
  | broken peek _ demand =>
    cases h.symm.trans peek
    rw [demand] at hfinds
    generalize y.source = t at hfinds ⊢
    cases hfinds with
    | broken eq => exact .inl ⟨_, _, _, rfl, eq⟩
  | done peek _ demand =>
    cases h.symm.trans peek
    rw [demand] at hfinds
    generalize y.source = t at hfinds ⊢
    cases hfinds with
    | done eq => exact .inr ⟨_, rfl, eq⟩

end Counting

theorem takeWhile_source (keep : Char → Bool) (x : Lexer σ) :
    x.source.takeWhile keep = ((x.takeWhile keep).1, (x.takeWhile keep).2.source) := by
  have hcount : ∀ es n p, Source.takeWhileFrom keep (.request :: es) n p =
    Source.takeWhileFrom keep es (n + 1) p := fun _ _ _ => rfl
  fun_induction Lexer.takeWhile keep x with
  | case1 x y hx =>
    rcases of_peek_none hcount hx with ⟨e, es, n, hy, hfound⟩ | ⟨n, hy, hfound⟩
    · exact hfound.trans (hy ▸ rfl)
    · exact hfound.trans (hy ▸ rfl)
  | case2 x c y hx hkeep cs z hrest ih =>
    obtain ⟨es, n, -, hy, hfound⟩ := of_peek_some hcount hx
    rw [hy, hrest] at ih
    refine hfound.trans ?_
    rw [Source.takeWhileFrom, if_pos hkeep]
    simp only [show Source.takeWhileFrom keep es n _ = _ from ih]
  | case3 x c y hx hkeep =>
    obtain ⟨es, n, hy, -, hfound⟩ := of_peek_some hcount hx
    exact hfound.trans (by rw [Source.takeWhileFrom, if_neg hkeep, hy])

theorem skipBlank_source (comment : Bool) (x : Lexer σ) :
    Source.skipBlankFrom comment x.source.pending x.source.requests x.source.position =
      (x.skipBlank comment).source := by
  have hcount (comment) : ∀ es n p, Source.skipBlankFrom comment (.request :: es) n p =
    Source.skipBlankFrom comment es (n + 1) p := by cases comment <;> exact fun _ _ _ => rfl
  fun_induction Lexer.skipBlank comment x with
  | case1 x y hx =>
    rw [peek_source]
    rcases of_peek_none (hcount true) hx with ⟨e, es, n, hy, hfound⟩ | ⟨n, hy, hfound⟩
    · exact hfound.trans (hy ▸ rfl)
    · exact hfound.trans (hy ▸ rfl)
  | case2 comment x y hx hcomment =>
    rw [Bool.eq_false_iff.2 hcomment]
    rcases of_peek_none (hcount false) hx with ⟨e, es, n, hy, hfound⟩ | ⟨n, hy, hfound⟩
    · exact hfound.trans (hy ▸ rfl)
    · exact hfound.trans (hy ▸ rfl)
  | case3 x c y hx ih =>
    obtain ⟨es, n, -, hy, hfound⟩ := of_peek_some (hcount true) hx
    rw [← ih, hy]
    exact hfound
  | case4 comment x c y hx hcomment hblank ih =>
    obtain ⟨es, n, -, hy, hfound⟩ := of_peek_some (hcount false) hx
    rw [← ih, hy, Bool.eq_false_iff.2 hcomment]
    exact hfound.trans (by rw [Source.skipBlankFrom, if_pos hblank])
  | case5 comment x y hcomment hx hblank ih =>
    obtain ⟨es, n, -, hy, hfound⟩ := of_peek_some (hcount false) hx
    rw [← ih, hy, Bool.eq_false_iff.2 hcomment]
    exact hfound.trans (by rw [Source.skipBlankFrom, if_neg hblank, if_pos rfl])
  | case6 comment x c y hx hcomment hblank hhash =>
    obtain ⟨es, n, hy, -, hfound⟩ := of_peek_some (hcount false) hx
    rw [hy, Bool.eq_false_iff.2 hcomment]
    exact hfound.trans (by rw [Source.skipBlankFrom, if_neg hblank, if_neg hhash])

theorem simulation_source : Scanner.Simulation fun (x : Lexer σ) s => s = x.source where
  look := by
    rintro x _ rfl
    change x.source.look.1 = x.peek.1 ∧ x.source.look.2 = x.peek.2.source
    rw [Source.look]
    cases x.looks with
    | char peek _ demand => simp [peek, demand]
    | broken peek _ demand => simp [peek, demand]
    | done peek _ demand => simp [peek, demand]
  drop := by
    rintro x _ c rfl h
    change x.source.look.2.drop = x.peek.2.advance.2.source
    change x.peek.1 = some c at h
    rw [Source.look_snd]
    cases x.looks with
    | char peek _ demand drop => simp [peek, demand, drop]
    | broken peek => simp [peek] at h
    | done peek => simp [peek] at h
  takeWhile := by
    rintro x _ keep rfl
    exact Prod.ext_iff.1 (x.takeWhile_source keep)

/-- The next token is the one of the source that is left. -/
theorem nextLexeme_source (x : Lexer σ) :
    x.source.nextLexeme = (x.nextLexeme.1, x.nextLexeme.2.source) := by
  have hskip : x.source.skipBlank = (x.skipBlank false).source := x.skipBlank_source false
  rw [Source.nextLexeme, nextLexeme, hskip]
  cases (x.skipBlank false).looks with
  | char peek advance demand drop =>
    have htoken := fun y : Lexer σ => simulation_source.tokenFrom (s := y) rfl
    simp only [advance, demand, drop, htoken]
    rfl
  | broken peek readError demand drop =>
    simp only [advance, peek, readError, demand, drop]
    rfl
  | done peek readError demand =>
    simp only [advance, peek, readError, demand]
    rfl

/-- All tokens up to the end of the input, and the lexer after them. -/
def lexemes (x : Lexer σ) : List Lexeme × Lexer σ :=
  if _h : x.nextLexeme.1.token = .endOfFile then ([x.nextLexeme.1], x.nextLexeme.2)
  else
    let (ls, y) := x.nextLexeme.2.lexemes
    (x.nextLexeme.1 :: ls, y)
termination_by x.source.size
decreasing_by
  have hlt := x.source.size_nextLexeme_lt (by rwa [nextLexeme_source])
  rwa [nextLexeme_source] at hlt

/-- A lexer finds the tokens of its source, and asks for input as often. -/
theorem lexemes_source (x : Lexer σ) : x.source.lexemes = (x.lexemes.1, x.lexemes.2.source) := by
  fun_induction lexemes x with
  | case1 x h =>
    rw [Source.lexemes, dif_pos (by rwa [nextLexeme_source]), nextLexeme_source]
  | case2 x h ls y hrest ih =>
    rw [Source.lexemes, dif_neg (by rwa [nextLexeme_source]), nextLexeme_source]
    simp only [ih, hrest]

theorem ofText_lexemes (cs : List Char) :
    (Source.ofText cs).lexemes = ((ofText cs).lexemes.1, (ofText cs).lexemes.2.source) :=
  (ofText cs).lexemes_source

theorem ofBytes_lexemes (bs : List UInt8) :
    (Source.ofBytes bs).lexemes = ((ofBytes bs).lexemes.1, (ofBytes bs).lexemes.2.source) :=
  (ofBytes bs).lexemes_source

end Lexer
end IntLang
