import IntLang.Text.CharClass

/-! How a single character is shown between quotes in a message. -/
namespace IntLang.Text

def hex (n : Nat) : String :=
  String.ofList (Nat.toDigits 16 n)

/-- A character needs its code point spelled out: it would join the quote before it, or show
nothing at all. -/
def needsCodePoint (c : Char) : Bool :=
  extendingMark.has c.toNat || unprintable.has c.toNat || filler.has c.toNat

/-- A character as a message shows it. Seven characters have a short escape, characters that cannot
stand alone are written by code point, and every other character stands for itself. -/
def escape (c : Char) : String :=
  if c = '\x00' then "\\0"
  else if c = '\t' then "\\t"
  else if c = '\r' then "\\r"
  else if c = '\n' then "\\n"
  else if c = '\x27' then "\\'"
  else if c = '\x22' then "\\\""
  else if c = '\x5c' then "\\\\"
  else if needsCodePoint c then "\\u\x7b" ++ hex c.toNat ++ "\x7d"
  else c.toString

end IntLang.Text
