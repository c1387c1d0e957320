import IntLang.Assembly.Emit
import IntLang.Console.Options
import IntLang.Console.Repl
import IntLang.Flow.Printer
import IntLang.Tree.Printer

/-! The compiler as a command: it reads one file and makes another. What is made is settled from the
source text alone; only then is it written or given to the system's assembler. -/
namespace IntLang.Console
open IntLang.Assembly

structure Artifact where
  path : Path
  text : String
  assembleFor : Option Target := none
  deriving Repr

/-- The words that ask the assembler for an object file, the text being in the file `source`. -/
def assemblerArguments (target : Target) (source : String) (output : Path) : List String :=
  (if target = Target.host then [] else ["--target=" ++ target.triple]) ++
    ["-c", "-x", "assembler", source, "-o", output.text]

inductive AssemblerReply where
  | notStarted (e : FileError)
  | ended (status : Nat) (complaints : String) (object : Option (List UInt8))
  deriving Repr

structure Assembler where
  name : String
  run : Target → Path → String → AssemblerReply

def isSpace (c : Char) : Bool :=
  let n := c.toNat
  (0x9 ≤ n && n ≤ 0xd) || n = 0x20 || n = 0x85 || n = 0xa0 || n = 0x1680 ||
    (0x2000 ≤ n && n ≤ 0x200a) || n = 0x2028 || n = 0x2029 || n = 0x202f || n = 0x205f || n = 0x3000

def trimEnd (s : String) : String :=
  String.ofList (s.toList.reverse.dropWhile isSpace).reverse

inductive CommandError where
  | noOutputName (file : Path)
  | cannotWrite (path : Path) (e : FileError)
  | cannotRun (assembler : String) (e : FileError)
  | notAssembled (assembler : String) (status : Nat) (complaints : String)
  deriving Repr

def CommandError.diagnostic : CommandError → Diagnostic
  | noOutputName file =>
    ⟨.io, "Cannot derive an output name from '" ++ file.text ++ "'; pass -o", none⟩
  | cannotWrite path e => ⟨.backend, "Could not write '" ++ path.text ++ "': " ++ e.message, none⟩
  | cannotRun assembler e =>
    ⟨.backend, "Could not run '" ++ assembler ++ "': " ++ e.message, none⟩
  | notAssembled assembler status complaints =>
    ⟨.backend, "'" ++ assembler ++ "' failed to assemble the module (exit status: " ++
      toString status ++ "):\n" ++ trimEnd complaints, none⟩

namespace CompileOptions

/-- Where the output goes. Without an explicit place it goes beside the input, and never over it. -/
def outputPath (o : CompileOptions) : Except CommandError Path :=
  match o.output, o.file.withExtension? o.emit.extension with
  | some p, _ => .ok p
  | none, some p => if p = o.file then .error (.noOutputName o.file) else .ok p
  | none, none => .error (.noOutputName o.file)

def progress (o : CompileOptions) (text : String) : String :=
  if o.verbose then Style.dimmed.apply text ++ "\n" else ""

def make (o : CompileOptions) (source : List Char) : Except Diagnostic Artifact × String :=
  match o.outputPath, parseProgram source with
  | .error e, _ => (.error e.diagnostic, "")
  | .ok _, .error d => (.error d, "")
  | .ok path, .ok program =>
    let parsed := o.progress ("parsed " ++ toString program.length ++ " top-level items")
    if o.emit = .tree then (.ok { path, text := program.render }, parsed)
    else
      match Session.compileInto { name := o.file.fileName?.getD "garter" } program with
      | (.error d, _) => (.error d, parsed)
      | (.ok _, module) =>
        let generated :=
          parsed ++ o.progress ("generated " ++ toString module.live.length ++ " functions")
        if o.emit = .flow then (.ok { path, text := module.render }, generated)
        else
          match assemblyText module o.target with
          | .error d => (.error d, generated)
          | .ok text =>
            let assembleFor := if o.emit = .object then some o.target else none
            (.ok { path, text, assembleFor }, generated)

/-- The last line on progress. A syntax tree is written without a word. -/
def farewell (o : CompileOptions) (path : Path) : String :=
  if o.emit = .tree then "" else o.progress ("wrote " ++ path.text)

end CompileOptions

namespace Files

/-- Has a text assembled. Whatever is in the place of the output is taken away if that fails. -/
def assemble (fs : Files) (a : Assembler) (target : Target) (path : Path) (text : String) :
    Except CommandError Unit × Files :=
  match a.run target path text with
  | .notStarted e => (.error (.cannotRun a.name e), fs.remove path)
  | .ended status complaints object =>
    let after := match object.map (fs.write path) with
      | some (.ok written) => written
      | _ => fs
    if status = 0 then (.ok (), after)
    else (.error (.notAssembled a.name status complaints), after.remove path)

def deliver (fs : Files) (a : Assembler) (x : Artifact) : Except CommandError Unit × Files :=
  match x.assembleFor with
  | some target => fs.assemble a target x.path x.text
  | none =>
    match fs.write x.path (Text.Utf8.encode x.text) with
    | .ok after => (.ok (), after)
    | .error e => (.error (.cannotWrite x.path e), fs)

end Files

/-- Runs the compiler: gives the exit code, what it says, and the files after it. -/
def compileFile (a : Assembler) (o : CompileOptions) (fs : Files) : Nat × Transcript × Files :=
  match fs.readText o.file with
  | .error e => (1, { stderr := report none (Repl.readFailure o.file e) }, fs)
  | .ok source =>
    match o.make source with
    | (.error d, said) => (1, { stderr := said ++ report (some source) d }, fs)
    | (.ok x, said) =>
      match fs.deliver a x with
      | (.ok _, after) => (0, { stderr := said ++ o.farewell x.path }, after)
      | (.error e, after) => (1, { stderr := said ++ report (some source) e.diagnostic }, after)

end IntLang.Console
