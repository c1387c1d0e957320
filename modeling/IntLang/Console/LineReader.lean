import IntLang.Text.Line

/-! A reader that takes its input one line at a time and hands it on in pieces of any size. A line
that is not text is dropped as a whole when it is its turn. -/
namespace IntLang.Console
open IntLang.Text

/-- Lines still to come, the line being handed on, and how far into it the reader is. -/
structure LineReader where
  lines : List (List UInt8)
  line : List UInt8 := []
  pos : Nat := 0
  pos_le : pos ≤ line.length := by exact Nat.zero_le _
  deriving DecidableEq, Repr

namespace LineReader

def ofBytes (bs : List UInt8) : LineReader :=
  { lines := splitLines bs }

def buffer (r : LineReader) : List UInt8 :=
  r.line.drop r.pos

def fill (r : LineReader) : Except ReadError (List UInt8) × LineReader :=
  if r.line.length ≤ r.pos then
    match r.lines with
    | [] => (.ok [], { lines := [] })
    | l :: ls =>
      match decodeLine l with
      | .ok _ => (.ok l, { lines := ls, line := l })
      | .error e => (.error e, { lines := ls })
  else (.ok r.buffer, r)

def consume (r : LineReader) (n : Nat) : LineReader :=
  { r with pos := min (r.pos + n) r.line.length, pos_le := Nat.min_le_right _ _ }

/-- Takes at most `n` bytes, and none beyond the line at hand. -/
def read (r : LineReader) (n : Nat) : Except ReadError (List UInt8) × LineReader :=
  match r.fill with
  | (.ok bs, r) => let k := min bs.length n; (.ok (bs.take k), r.consume k)
  | (.error e, r) => (.error e, r)

def endsLine (bs : List UInt8) : Bool :=
  bs.getLast? = some newline

/-- Takes the rest of a line, `buffer` being what is at hand. -/
def lineFrom (buffer : List UInt8) :
    List (List UInt8) → Except ReadError (List UInt8) × LineReader
  | [] => (.ok buffer, { lines := [] })
  | l :: ls =>
    if endsLine buffer then (.ok buffer, { lines := l :: ls })
    else
      match decodeLine l with
      | .error e => (.error e, { lines := ls })
      | .ok _ =>
        let (r, reader) := lineFrom l ls
        (r.map (buffer ++ ·), reader)

def restFrom (buffer : List UInt8) :
    List (List UInt8) → Except ReadError (List UInt8) × LineReader
  | [] => (.ok buffer, { lines := [] })
  | l :: ls =>
    match decodeLine l with
    | .error e => (.error e, { lines := ls })
    | .ok _ =>
      let (r, reader) := restFrom l ls
      (r.map (buffer ++ ·), reader)

/-- Bytes as text. Bytes that are no text are used up all the same. -/
def asText : Except ReadError (List UInt8) × LineReader →
    Except ReadError (List UInt8 × List Char) × LineReader
  | (.error e, r) => (.error e, r)
  | (.ok bs, r) =>
    match decodeLine bs with
    | .ok cs => (.ok (bs, cs), r)
    | .error e => (.error e, r)

def readLine (r : LineReader) : Except ReadError (List UInt8 × List Char) × LineReader :=
  asText (lineFrom r.buffer r.lines)

def readRest (r : LineReader) : Except ReadError (List UInt8 × List Char) × LineReader :=
  asText (restFrom r.buffer r.lines)

end LineReader
end IntLang.Console
