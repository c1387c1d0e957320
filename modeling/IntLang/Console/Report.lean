import IntLang.Console.Style
import IntLang.Diagnostic

/-! How a diagnostic is shown on a terminal: a heading, the place, and for some a hint. -/
namespace IntLang.Console

def cutLines : List Char → List (List Char)
  | [] => []
  | c :: cs =>
    if c = '\n' then [c] :: cutLines cs
    else
      match cutLines cs with
      | [] => [[c]]
      | l :: ls => (c :: l) :: ls

/-- A line without its ending, which is a newline or a carriage return and a newline. -/
def chomp (l : List Char) : List Char :=
  match l.reverse with
  | '\n' :: '\r' :: r => r.reverse
  | '\n' :: r => r.reverse
  | _ => l

def sourceLines (cs : List Char) : List (List Char) :=
  (cutLines cs).map chomp

def padded (n : Nat) : String :=
  let s := toString n
  String.ofList (List.replicate (3 - s.length) ' ') ++ s

def excerpt (p : Position) (line : List Char) : String :=
  let gutter := padded p.line ++ " | "
  let caret := String.ofList (List.replicate (gutter.length + (p.col - 1)) ' ') ++ "^"
  "  --> line " ++ toString p.line ++ ", column " ++ toString p.col ++ "\n" ++
    Style.gray.apply gutter ++ String.ofList line ++ "\n" ++ Style.red.apply caret ++ "\n"

/-- Where a diagnostic points. Without the source at hand, or past its last line, only the position
is given. -/
def placeText (source : Option (List Char)) (p : Position) : String :=
  match source.bind fun cs => (sourceLines cs)[p.line - 1]? with
  | some line => excerpt p line
  | none => "  at " ++ toString p.line ++ ":" ++ toString p.col ++ "\n"

def startsWith (text start : String) : Bool :=
  start.toList.isPrefixOf text.toList

def containsText (text part : String) : Bool :=
  occurs text.toList
where
  occurs : List Char → Bool
    | [] => part.toList.isEmpty
    | c :: cs => part.toList.isPrefixOf (c :: cs) || occurs cs

def hint? (d : Diagnostic) : Option String :=
  match d.stage with
  | .semantic =>
    if startsWith d.message "Unknown function" then
      some "Functions must be defined before the statement that calls them runs; 'main' is reserved."
    else if startsWith d.message "Duplicate definition" then
      some "Every function name may be defined once; top-level code already occupies 'main'."
    else if containsText d.message "is not supported" then
      some "Membership tests parse but have no meaning for integers."
    else none
  | .lexical =>
    if containsText d.message "too large" then
      some "Integer literals must fit in a signed 32-bit integer (at most 2147483647)."
    else none
  | .runtime =>
    if startsWith d.message "Unresolved external" then
      some ("Declared-only 'extern' functions can be called from compiled programs linked against " ++
        "them, not from the REPL.")
    else none
  | _ => none

def hintText (d : Diagnostic) : String :=
  match hint? d with
  | some h => Style.bold.apply (Style.yellow.apply "help:") ++ " " ++ Style.yellow.apply h ++ "\n"
  | none => ""

def report (source : Option (List Char)) (d : Diagnostic) : String :=
  Style.bold.apply (Style.red.apply d.stage.label) ++ ": " ++ Style.red.apply d.message ++ "\n" ++
    (match d.position with
      | some p => placeText source p
      | none => "") ++
    hintText d

end IntLang.Console
