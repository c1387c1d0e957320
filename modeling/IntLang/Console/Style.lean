/-! Text attributes of a terminal. Each attribute is switched on before a text and off after it, so
the one applied last encloses the others. -/
namespace IntLang.Console

inductive Style where
  | bold | dimmed | red | green | yellow | cyan | gray
  deriving DecidableEq, Repr

namespace Style

def onCode : Style → Nat
  | bold => 1
  | dimmed => 2
  | red => 31
  | green => 32
  | yellow => 33
  | cyan => 36
  | gray => 90

def offCode : Style → Nat
  | bold | dimmed => 0
  | _ => 39

def escape (code : Nat) : String :=
  "\x1b[" ++ toString code ++ "m"

def apply (s : Style) (text : String) : String :=
  escape s.onCode ++ text ++ escape s.offCode

end Style
end IntLang.Console
