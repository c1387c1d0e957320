/-! Diagnostics: what is reported when a stage of the toolchain rejects its input. -/
namespace IntLang

structure Position where
  line : Nat := 1
  col : Nat := 1
  deriving DecidableEq, Repr, Inhabited

/-- The place after a character: a newline starts the next line. -/
def Position.after (p : Position) (c : Char) : Position :=
  if c = '\n' then ⟨p.line + 1, 1⟩ else ⟨p.line, p.col + 1⟩

inductive Stage where
  | lexical
  | syntactic
  | semantic
  | backend
  | runtime
  | io
  deriving DecidableEq, Repr

def Stage.label : Stage → String
  | .lexical => "Lex error"
  | .syntactic => "Parse error"
  | .semantic => "Compile error"
  | .backend => "Backend error"
  | .runtime => "Runtime error"
  | .io => "I/O error"

def Stage.isFrontend : Stage → Bool
  | .lexical | .syntactic => true
  | _ => false

/-- One report: the stage, its message, and the place it speaks of if there is one. -/
structure Diagnostic where
  stage : Stage
  message : String
  position : Option Position := none
  deriving DecidableEq, Repr

def Diagnostic.describe (d : Diagnostic) : String :=
  match d.position with
  | some p => s!"{d.message} at {p.line}:{p.col}"
  | none => d.message

end IntLang
