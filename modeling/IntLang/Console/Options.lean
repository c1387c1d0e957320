import IntLang.Assembly.Target
import IntLang.Console.Files

/-! Command lines. An option is given once; its value follows it as the next word, after `=`, or in
the case of a single letter directly. A word that is no option names a file, and so does every word
after `--`. -/
namespace IntLang.Console
open IntLang.Assembly

inductive Emit where
  | object | assembly | flow | tree
  deriving DecidableEq, Repr

namespace Emit

def all : List Emit := [object, assembly, flow, tree]

def name : Emit → String
  | object => "obj"
  | assembly => "asm"
  | flow => "ir"
  | tree => "ast"

def ofName? (s : String) : Option Emit :=
  all.find? (·.name == s)

def extension : Emit → String
  | object => "o"
  | assembly => "s"
  | flow => "ll"
  | tree => "ast"

end Emit

structure Given where
  files : List Path := []
  output : Option Path := none
  emit : Option Emit := none
  target : Option Target := none
  verbose : Bool := false
  deriving Repr

inductive Valued where
  | output | emit | target
  deriving DecidableEq, Repr

namespace Given

def addFile (g : Given) (s : String) : Option Given :=
  if s = "" then none else some { g with files := g.files ++ [⟨s⟩] }

def setVerbose (g : Given) : Option Given :=
  if g.verbose then none else some { g with verbose := true }

def setValue (g : Given) (o : Valued) (s : String) : Option Given :=
  match o with
  | .output => if g.output.isSome || s = "" then none else some { g with output := some ⟨s⟩ }
  | .emit => if g.emit.isSome then none else (Emit.ofName? s).map fun e => { g with emit := some e }
  | .target =>
    if g.target.isSome then none else (Target.ofName? s).map fun t => { g with target := some t }

end Given

inductive Word where
  | file (name : String)
  | verbose
  | valued (o : Valued) (value : Option String) (verbose : Bool)
  | endOfOptions
  | unknown
  deriving DecidableEq, Repr

namespace Word

/-- A long option's name and the value after its `=`. -/
def cutValue (cs : List Char) : List Char × Option (List Char) :=
  match cs.dropWhile (· ≠ '=') with
  | [] => (cs, none)
  | _ :: value => (cs.takeWhile (· ≠ '='), some value)

def long (cs : List Char) : Word :=
  let (name, value) := cutValue cs
  let value := value.map String.ofList
  match String.ofList name with
  | "verbose" => if value.isSome then unknown else verbose
  | "output" => valued .output value false
  | "emit" => valued .emit value false
  | "target" => valued .target value false
  | _ => unknown

def attached : List Char → Option String
  | [] => none
  | '=' :: cs => some (String.ofList cs)
  | cs => some (String.ofList cs)

def short : List Char → Word
  | ['v'] => verbose
  | 'o' :: cs => valued .output (attached cs) false
  | 'v' :: 'o' :: cs => valued .output (attached cs) true
  | _ => unknown

def ofString (s : String) : Word :=
  match s.toList with
  | ['-', '-'] => endOfOptions
  | '-' :: '-' :: cs => long cs
  | ['-'] => file s
  | '-' :: cs => short cs
  | _ => file s

def isValue (s : String) : Bool :=
  match s.toList with
  | ['-'] => true
  | '-' :: _ => false
  | _ => true

end Word

namespace Given

def addAll (g : Given) (args : List String) : Option Given :=
  match args with
  | [] => some g
  | s :: rest => do addAll (← g.addFile s) rest

def add (g : Given) : List String → Option Given
  | [] => some g
  | s :: rest =>
    match Word.ofString s with
    | .file name => do add (← g.addFile name) rest
    | .verbose => do add (← g.setVerbose) rest
    | .valued o (some value) v => do
      let g ← if v then g.setVerbose else some g
      add (← g.setValue o value) rest
    | .valued o none v =>
      match rest with
      | [] => none
      | value :: rest => do
        let g ← if v then g.setVerbose else some g
        if Word.isValue value then add (← g.setValue o value) rest else none
    | .endOfOptions => g.addAll rest
    | .unknown => none

end Given

structure CompileOptions where
  file : Path
  output : Option Path := none
  emit : Emit := .object
  target : Target := .host
  verbose : Bool := false
  deriving Repr

def CompileOptions.ofArgs? (args : List String) : Option CompileOptions := do
  let g ← ({} : Given).add args
  match g.files with
  | [file] =>
    return { file, output := g.output, emit := g.emit.getD .object,
             target := g.target.getD .host, verbose := g.verbose }
  | _ => none

def fileWords : List String → Option (List Path)
  | [] => some []
  | s :: rest =>
    match Word.ofString s with
    | .file _ => do
      if s = "" then none else return ⟨s⟩ :: (← fileWords rest)
    | .endOfOptions => if rest.contains "" then none else some (rest.map Path.mk)
    | _ => none

/-- The command line of the interpreter: a file, or nothing. -/
def replFile? (args : List String) : Option (Option Path) :=
  match fileWords args with
  | some [] => some none
  | some [p] => some (some p)
  | _ => none

end IntLang.Console
