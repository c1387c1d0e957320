import IntLang.Console.Files
import IntLang.Console.Report
import IntLang.Session
import IntLang.Tree.Parser

/-! The interactive loop: items are read, executed and reported on one by one. A prompt is shown
whenever a line is requested. -/
namespace IntLang.Console

structure Transcript where
  stdout : String := ""
  stderr : String := ""
  deriving DecidableEq, Repr

namespace Transcript

def out (t : Transcript) (text : String) : Transcript :=
  { t with stdout := t.stdout ++ text }

def err (t : Transcript) (text : String) : Transcript :=
  { t with stderr := t.stderr ++ text }

end Transcript

namespace Repl

def prompt : String :=
  Style.cyan.apply "garter> "

def banner : String :=
  Style.green.apply (Style.bold.apply "garter REPL. Press Ctrl-D to exit.") ++ "\n"

def prompts (interactive : Bool) (before after : Parser) : String :=
  if interactive then
    String.join (List.replicate (after.source.requests - before.source.requests) prompt)
  else ""

/-- What one turn of the loop comes to. Each case holds the parser after it. -/
inductive Turn where
  | ended (p : Parser)
  | stopped (p : Parser) (d : Diagnostic)
  | executed (p : Parser) (s : Session) (printed : String) (failure : Option Diagnostic)

/-- Reads an item and executes it. `none` if it does not finish in the given number of steps. -/
def turn (steps : Nat) (p : Parser) (s : Session) : Option Turn :=
  match Parser.item p with
  | .error e q => some (.stopped q e.diagnostic)
  | .ok none q => some (.ended q)
  | .ok (some i) q => do
    let (r, s) ← s.execute steps i
    let shown := { s with engine := { s.engine with output := "" } }
    return .executed q shown s.engine.output (match r with
      | .ok _ => none
      | .error d => some d)

/-- Takes at most `turns` turns. Gives the exit code: 0 at the end of the input, 1 where the input
cannot be parsed. An item that fails is reported, and the loop goes on. -/
def loop (interactive : Bool) (steps : Nat) :
    Nat → Parser → Session → Transcript → Option (Nat × Transcript)
  | 0, _, _, _ => none
  | turns + 1, p, s, t => do
    match ← turn steps p s with
    | .ended q => return (0, t.out (prompts interactive p q ++ (if interactive then "\n" else "")))
    | .stopped q d => return (1, (t.out (prompts interactive p q)).err (report none d))
    | .executed q s printed failure =>
      loop interactive steps turns q s
        ((t.out (prompts interactive p q ++ printed)).err ((failure.map (report none)).getD ""))

def start : Session :=
  Session.new "garteri" {}

/-- Executes everything in a source. Each turn but the last takes an item out of it, so that the
parser's bound is a bound on the turns. -/
def run (input : Source) (interactive : Bool) (steps : Nat) : Option (Nat × Transcript) :=
  let p : Parser := { source := input }
  loop interactive steps p.bound p start { stdout := if interactive then banner else "" }

/-- Whether the parser has asked for a line after the last one on its way from one state to
another. -/
def starved (before after : Parser) : Bool :=
  before.source.requests + before.source.pending.count .request < after.source.requests

def afterItem (p : Parser) : Parser :=
  match Parser.item p with
  | .error _ q => q
  | .ok _ q => q

def feed (p : Parser) (es : List Event) : Parser :=
  { p with source := { p.source with pending := p.source.pending ++ es } }

/-- What a reader of a file finds. A directory can be opened but not read. -/
def sourceOf (fs : Files) (p : Path) : Except FileError Source :=
  match fs.read p with
  | .ok bytes => .ok (Source.ofBytes bytes)
  | .error .isDirectory => .ok (Source.unreadable .isDirectory)
  | .error e => .error e

def readFailure (p : Path) (e : FileError) : Diagnostic :=
  ⟨.io, "Failed to read " ++ p.text ++ ": " ++ e.message, none⟩

def runFile (fs : Files) (p : Path) (steps : Nat) : Option (Nat × Transcript) :=
  match sourceOf fs p with
  | .ok s => run s false steps
  | .error e => some (1, { stderr := report none (readFailure p e) })

end Repl
end IntLang.Console
