import IntLang.Flow.Check
import IntLang.Lowering
import IntLang.Machine.Basic

/-! Sessions: a module that grows, and an engine that runs what is in it. A program is compiled as
a whole, or its items are executed one by one. -/
namespace IntLang
open IntLang.Flow IntLang.Machine

def entryPoint : String := "main"

def reservedStart : String := "__garter_"

structure Session where
  module : Module
  statements : Nat := 0
  engine : Engine := {}

def LowerError.diagnostic : LowerError → Diagnostic
  | rejected e => e.diagnostic
  | misuse _ => ⟨.backend, "Malformed control flow", none⟩

namespace Session

def new (name : String) (engine : Engine) : Session :=
  { module := { name }, engine := engine.mapAll }

def linkage (d : FunctionDef) : Linkage :=
  if d.isDeclaration then .weak else if d.exported then .external else .internal

def prototype (m : Module) (d : FunctionDef) : Except CompileError (FuncId × Module) :=
  if reservedStart.toList.isPrefixOf d.name.toList then .error (.reservedName d.name)
  else
    match m.add? { name := d.name, paramCount := d.params.length, linkage := linkage d } with
    | some r => .ok r
    | none => .error (.duplicateFunction d.name)

def prototypes (m : Module) : List FunctionDef → Except CompileError (List FuncId) × Module
  | [] => (.ok [], m)
  | d :: ds =>
    match prototype m d with
    | .error e => (.error e, m)
    | .ok (id, m) =>
      match prototypes m ds with
      | (.ok ids, m) => (.ok (id :: ids), m)
      | (.error e, m) => (.error e, m)

def define (m : Module) (id : FuncId) (d : FunctionDef) : Except LowerError Unit × Module :=
  if d.isDeclaration then (.ok (), m) else lowerBody m id (.slots []) d.params d.body

def defineAll (m : Module) : List (FuncId × FunctionDef) → Except LowerError Unit × Module
  | [] => (.ok (), m)
  | (id, d) :: rest =>
    match define m id d with
    | (.ok _, m) => defineAll m rest
    | (.error e, m) => (.error e, m)

/-- Compiles a program into a module. What has been generated stays there if it is rejected. -/
def compileInto (m : Module) (p : Program) : Except Diagnostic Unit × Module :=
  match prototypes m p.functions with
  | (.error e, m) => (.error e.diagnostic, m)
  | (.ok ids, m) =>
    match m.add? { name := entryPoint, paramCount := 0, linkage := .external, synthetic := true } with
    | none => (.error (CompileError.duplicateFunction entryPoint).diagnostic, m)
    | some (main, m) =>
      match defineAll m (ids.zip p.functions) with
      | (.error e, m) => (.error e.diagnostic, m)
      | (.ok _, m) =>
        match lowerBody m main .globals [] p.statements with
        | (.error e, m) => (.error e.diagnostic, m)
        | (.ok _, m) => (m.verify, m)

def compile (s : Session) (p : Program) : Except Diagnostic Unit × Session :=
  let (r, m) := compileInto s.module p
  (r, { s with module := m })

/-- Adds a function. One whose body is rejected is taken out again. -/
def addFunction (s : Session) (d : FunctionDef) : Except Diagnostic Unit × Session :=
  match prototype s.module d with
  | .error e => (.error e.diagnostic, s)
  | .ok (id, m) =>
    match define m id d with
    | (.ok _, m) => (.ok (), { s with module := m })
    | (.error e, m) => (.error e.diagnostic, { s with module := (m.erase id).2 })

def runIn (s : Session) (steps : Nat) (id : FuncId) (st : Stmt) :
    Option (Except Diagnostic Unit × Session) :=
  match lowerBody s.module id .globals [] [st] with
  | (.error e, m) => some (.error e.diagnostic, { s with module := m })
  | (.ok _, m) =>
    let s := { s with module := m }
    match m.verify with
    | .error d => some (.error d, s)
    | .ok _ => do
      let (r, e) ← s.engine.run steps m id []
      return (match r with
        | .ok _ => .ok ()
        | .error f => .error f.diagnostic, { s with engine := e })

def anonymousName (n : Nat) : String :=
  reservedStart ++ "anonymous" ++ toString n

/-- Runs a statement at once. The function it is wrapped in does not outlive it. -/
def runStatement (s : Session) (steps : Nat) (st : Stmt) :
    Option (Except Diagnostic Unit × Session) :=
  let s := { s with statements := s.statements + 1 }
  let name := anonymousName s.statements
  match s.module.add? { name, paramCount := 0, linkage := .internal, synthetic := true } with
  | none => some (.error (CompileError.duplicateFunction name).diagnostic, s)
  | some (id, m) => do
    let (r, s) ← runIn { s with module := m } steps id st
    return (r, { s with module := (s.module.erase id).2 })

/-- Executes one item: a function is added, a statement is run. `none` if a statement does not
finish in the given number of steps. -/
def execute (s : Session) (steps : Nat) : Item → Option (Except Diagnostic Unit × Session)
  | .function d => some (s.addFunction d)
  | .statement st => s.runStatement steps st

def call (s : Session) (steps : Nat) (name : String) (args : List Int32) :
    Option (Except Diagnostic Int32 × Session) :=
  match s.module.find? name with
  | none => some (.error ⟨.runtime, "Unknown function '" ++ name ++ "'", none⟩, s)
  | some id => do
    let (r, e) ← s.engine.run steps s.module id args
    return (match r with
      | .ok n => .ok n
      | .error f => .error f.diagnostic, { s with engine := e })

def globalValue (s : Session) (name : String) : Option Int32 :=
  s.engine.globalValue s.module name

def globalValues (s : Session) : List (String × Int32) :=
  (s.module.globals.toList.map (·.name)).zip (s.engine.sync s.module).globals.toList

end Session
end IntLang
