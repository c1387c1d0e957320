/-! Decoding of UTF-8, one byte at a time. The decoder never gets stuck: where the bytes stop being
the start of a character it gives up on the longest piece that could have been one and goes on. -/
namespace IntLang.Text.Utf8

/-- Where the decoder stands: between characters, or inside one that still needs `need + 1` bytes,
the next of which lies between `lo` and `hi`. -/
inductive State where
  | between
  | inside (need : Nat) (lo hi : UInt8) (value : Nat)
  deriving DecidableEq, Repr

/-- What a byte gives: `some c` for a finished character, `none` for a piece that is no character. -/
abbrev Piece := Option Char

/-- A byte read between two characters. The bounds of the second byte exclude overlong forms,
surrogates and values past the last code point. -/
def start (b : UInt8) : List Piece × State :=
  let v := b.toNat
  if v < 0x80 then ([some (Char.ofNat v)], .between)
  else if v < 0xc2 then ([none], .between)
  else if v < 0xe0 then ([], .inside 0 0x80 0xbf (v % 32))
  else if v = 0xe0 then ([], .inside 1 0xa0 0xbf (v % 16))
  else if v = 0xed then ([], .inside 1 0x80 0x9f (v % 16))
  else if v < 0xf0 then ([], .inside 1 0x80 0xbf (v % 16))
  else if v = 0xf0 then ([], .inside 2 0x90 0xbf (v % 8))
  else if v < 0xf4 then ([], .inside 2 0x80 0xbf (v % 8))
  else if v = 0xf4 then ([], .inside 2 0x80 0x8f (v % 8))
  else ([none], .between)

/-- One byte, read in any state. A byte that cannot go on with the character being read ends that
piece and starts anew. -/
def feed : State → UInt8 → List Piece × State
  | .between, b => start b
  | .inside need lo hi value, b =>
    if lo ≤ b && b ≤ hi then
      let v := value * 64 + b.toNat % 64
      match need with
      | 0 => ([some (Char.ofNat v)], .between)
      | need + 1 => ([], .inside need 0x80 0xbf v)
    else
      let (ps, s) := start b
      (none :: ps, s)

def State.close : State → List Piece
  | .between => []
  | .inside .. => [none]

def piecesFrom : State → List UInt8 → List Piece
  | s, [] => s.close
  | s, b :: bs =>
    let (ps, s) := feed s b
    ps ++ piecesFrom s bs

/-- The characters of a byte sequence, with `none` for each piece that is no character. -/
def pieces (bs : List UInt8) : List Piece :=
  piecesFrom .between bs

def decode? (bs : List UInt8) : Option (List Char) :=
  (pieces bs).mapM id

/-- The text of any byte sequence, with the replacement character for what is no character. -/
def decodeLossy (bs : List UInt8) : List Char :=
  (pieces bs).map (·.getD '\ufffd')

def encode (s : String) : List UInt8 :=
  s.toUTF8.toList

end IntLang.Text.Utf8
