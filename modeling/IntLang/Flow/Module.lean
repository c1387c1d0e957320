import IntLang.Flow.Basic

/-! Modules: a store of functions and global cells. Indices are handed out in order of creation and
never again, so erasing a function leaves its place empty. -/
namespace IntLang.Flow

structure Global where
  name : String
  init : Int32
  deriving DecidableEq, Repr

structure Module where
  name : String
  functions : Array (Option Function) := #[]
  globals : Array Global := #[]
  deriving Repr

namespace Module

def function? (m : Module) (id : FuncId) : Option Function :=
  m.functions[id]?.join

def find? (m : Module) (name : String) : Option FuncId :=
  m.functions.findIdx? fun
    | some f => f.name == name
    | none => false

def live (m : Module) : List (FuncId × Function) :=
  (m.functions.toList.zipIdx).filterMap fun (f?, id) => f?.map (id, ·)

def push (m : Module) (f : Function) : FuncId × Module :=
  (m.functions.size, { m with functions := m.functions.push (some f) })

def add? (m : Module) (f : Function) : Option (FuncId × Module) :=
  match m.find? f.name with
  | some _ => none
  | none => some (m.push f)

def declare (m : Module) (name : String) (paramCount : Nat) (variadic : Bool) : FuncId × Module :=
  match m.find? name with
  | some id => (id, m)
  | none => m.push { name, paramCount, linkage := .external, variadic, synthetic := true }

def erase (m : Module) (id : FuncId) : Option Function × Module :=
  match m.function? id with
  | some f => (some f, { m with functions := m.functions.setIfInBounds id none })
  | none => (none, m)

def update (m : Module) (id : FuncId) (f : Function) : Module :=
  { m with functions := m.functions.setIfInBounds id (some f) }

def findGlobal? (m : Module) (name : String) : Option GlobalId :=
  m.globals.findIdx? (·.name == name)

/-- The cell of a name, created if there is none. Only creation looks at `init`. -/
def globalCell (m : Module) (name : String) (init : Int32) : GlobalId × Module :=
  match m.findGlobal? name with
  | some id => (id, m)
  | none => (m.globals.size, { m with globals := m.globals.push { name, init } })

end Module
end IntLang.Flow
