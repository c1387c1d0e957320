import IntLang.Diagnostic
import IntLang.Text.Line

/-! Character sources. A source is the sequence of what happens as its characters are asked for one
by one: a line is requested, a character arrives, a line turns out to be unreadable. A text that is
at hand as a whole never requests a line; a reader requests each line just before its first
character. When nothing is left, every further demand is one more request. -/
namespace IntLang
open IntLang.Text

inductive Event where
  | request
  | char (c : Char)
  | broken (e : ReadError)
  deriving DecidableEq, Repr

/-- A source at some point: what is still to come, how many lines have been requested so far, and
the place of the next character. -/
structure Source where
  pending : List Event
  requests : Nat := 0
  position : Position := {}
  deriving Repr

namespace Source

def ofText (cs : List Char) : Source :=
  ⟨cs.map .char, 0, {}⟩

/-- The events of one line. A last line without newline takes a second request, because only the
answer to that one shows that the line is over. -/
def lineEvents (l : List UInt8) : List Event :=
  match decodeLine l with
  | .error e => [.request, .broken e]
  | .ok cs =>
    (if l.getLast? = some newline then [.request] else [.request, .request]) ++ cs.map .char

def ofBytes (bs : List UInt8) : Source :=
  ⟨(splitLines bs).flatMap lineEvents, 0, {}⟩

def unreadable (e : ReadError) : Source :=
  ⟨[.request, .broken e], 0, {}⟩

inductive Head where
  | char (c : Char)
  | broken (e : ReadError)
  | done
  deriving DecidableEq, Repr

def demandFrom : List Event → Nat → Position → Head × Source
  | [], n, p => (.done, ⟨[], n + 1, p⟩)
  | .request :: es, n, p => demandFrom es (n + 1) p
  | .char c :: es, n, p => (.char c, ⟨.char c :: es, n, p⟩)
  | .broken e :: es, n, p => (.broken e, ⟨.broken e :: es, n, p⟩)

def demand (s : Source) : Head × Source :=
  demandFrom s.pending s.requests s.position

/-- Takes what `demand` found. -/
def drop (s : Source) : Source :=
  match s.pending with
  | .char c :: es => ⟨es, s.requests, s.position.after c⟩
  | .broken _ :: es => ⟨es, s.requests, s.position⟩
  | _ => s

def takeWhileFrom (keep : Char → Bool) : List Event → Nat → Position → List Char × Source
  | [], n, p => ([], ⟨[], n + 1, p⟩)
  | .request :: es, n, p => takeWhileFrom keep es (n + 1) p
  | .broken e :: es, n, p => ([], ⟨.broken e :: es, n, p⟩)
  | .char c :: es, n, p =>
    if keep c then
      let (cs, s) := takeWhileFrom keep es n (p.after c)
      (c :: cs, s)
    else ([], ⟨.char c :: es, n, p⟩)

/-- Takes the longest run of characters that satisfy `keep`. -/
def takeWhile (s : Source) (keep : Char → Bool) : List Char × Source :=
  takeWhileFrom keep s.pending s.requests s.position

def size (s : Source) : Nat :=
  s.pending.length

theorem size_demandFrom_le (es : List Event) (n : Nat) (p : Position) :
    (demandFrom es n p).2.size ≤ es.length := by
  induction es generalizing n with
  | nil => simp [demandFrom, size]
  | cons e es ih =>
    cases e with
    | request => exact Nat.le_succ_of_le (ih (n + 1))
    | _ => simp [demandFrom, size]

theorem size_demand_le (s : Source) : s.demand.2.size ≤ s.size :=
  size_demandFrom_le _ _ _

theorem size_drop_demandFrom_lt {es : List Event} {n : Nat} {p : Position}
    (h : (demandFrom es n p).1 ≠ .done) : (demandFrom es n p).2.drop.size < es.length := by
  induction es generalizing n with
  | nil => exact absurd rfl h
  | cons e es ih =>
    cases e with
    | request => exact Nat.lt_succ_of_lt (ih h)
    | _ => simp [demandFrom, drop, size]

/-- Taking what was found on demand makes a source smaller. -/
theorem size_drop_lt {s t : Source} {x : Head} (h : s.demand = (x, t)) (hx : x ≠ .done) :
    t.drop.size < s.size := by
  have hlt := size_drop_demandFrom_lt (h ▸ hx : s.demand.1 ≠ .done)
  rwa [← demand, h] at hlt

theorem size_takeWhileFrom_le (keep : Char → Bool) (es : List Event) (n : Nat) (p : Position) :
    (takeWhileFrom keep es n p).2.size ≤ es.length := by
  induction es generalizing n p with
  | nil => simp [takeWhileFrom, size]
  | cons e es ih =>
    cases e with
    | request => exact Nat.le_succ_of_le (ih (n + 1) p)
    | broken e => simp [takeWhileFrom, size]
    | char c =>
      rw [takeWhileFrom]
      split
      · exact Nat.le_succ_of_le (ih n (p.after c))
      · simp [size]

theorem size_takeWhile_le (s : Source) (keep : Char → Bool) :
    (s.takeWhile keep).2.size ≤ s.size :=
  size_takeWhileFrom_le _ _ _ _

end Source
end IntLang
