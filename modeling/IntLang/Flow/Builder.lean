import IntLang.Flow.Module

/-! Building a function: appending blocks, and instructions at the end of one block. -/
namespace IntLang.Flow

structure Builder where
  module : Module
  function : FuncId
  block : Option BlockId := none
  slots : Nat := 0
  deriving Repr

inductive Misuse where
  | erasedFunction
  | noBlock
  | missingBlock
  | terminatedBlock
  | noEntry
  deriving DecidableEq, Repr

/-- A building step. An impossible step changes nothing. -/
abbrev Build := EStateM Misuse Builder

namespace Builder

def new? (m : Module) (id : FuncId) : Option Builder :=
  (m.function? id).map fun _ => { module := m, function := id }

def getFunction : Build Function := fun b =>
  match b.module.function? b.function with
  | some f => .ok f b
  | none => .error .erasedFunction b

def setFunction (f : Function) : Build Unit :=
  modify fun b => { b with module := b.module.update b.function f }

/-- A name no other block has had, if `name` itself is taken: the block's index is added to it. -/
def blockName (f : Function) (name : String) : String :=
  if f.blocks.any (·.name == name) then name ++ toString f.blocks.size else name

def appendBlock (name : String) : Build BlockId := do
  let f ← getFunction
  setFunction { f with blocks := f.blocks.push { name := blockName f name } }
  return f.blocks.size

def positionAt (id : BlockId) : Build Unit :=
  modify ({ · with block := some id })

def openBlock (f : Function) : Build (BlockId × Block) := do
  match (← get).block with
  | none => throw .noBlock
  | some id =>
    match f.blocks[id]? with
    | none => throw .missingBlock
    | some b => if b.terminator.isSome then throw .terminatedBlock else return (id, b)

def isTerminated : Build Bool := do
  match (← get).block with
  | none => return false
  | some id =>
    let f ← getFunction
    match f.blocks[id]? with
    | none => throw .missingBlock
    | some b => return b.terminator.isSome

def typeOf (v : Operand) : Build Ty := do
  return (← getFunction).typeOf v

def push (i : Instr) : Build Operand := do
  let f ← getFunction
  let (id, b) ← openBlock f
  setFunction { f with
    instrs := f.instrs.push i
    blocks := f.blocks.setIfInBounds id { b with instrs := b.instrs.push f.instrs.size } }
  return .instr f.instrs.size

def terminate (t : Terminator) : Build Unit := do
  let f ← getFunction
  let (id, b) ← openBlock f
  setFunction { f with blocks := f.blocks.setIfInBounds id { b with terminator := some t } }

/-- A slot in the entry block, initialised there. The entry block holds all slots first, then the
stores that initialise them, then everything else, whatever the insertion block is. -/
def entrySlot (name : String) (init : Operand) : Build Operand := do
  let f ← getFunction
  let k := (← get).slots
  match f.blocks[0]? with
  | none => throw .noEntry
  | some entry =>
    let slot := f.instrs.size
    let instrs := (f.instrs.push (.alloca name)).push (.store init (.instr slot))
    let order := (entry.instrs.insertIdxIfInBounds k slot).insertIdxIfInBounds (k + 1 + k) (slot + 1)
    setFunction { f with
      instrs := instrs
      blocks := f.blocks.setIfInBounds 0 { entry with instrs := order } }
    modify ({ · with slots := k + 1 })
    return .instr slot

def load (address : Operand) : Build Operand :=
  push (.load address)

def store (value address : Operand) : Build Unit := do
  let _ ← push (.store value address)

def arith (op : ArithOp) (lhs rhs : Operand) : Build Operand := do
  let ty ← typeOf lhs
  push (.arith op ty lhs rhs)

def compare (op : CmpOp) (lhs rhs : Operand) : Build Operand :=
  push (.compare op lhs rhs)

def widen (value : Operand) : Build Operand :=
  push (.widen value)

def call (callee : FuncId) (args : List Operand) : Build Operand :=
  push (.call callee args)

def phi (ty : Ty) (incoming : List (Operand × BlockId)) : Build Operand :=
  push (.phi ty incoming)

def jump (dest : BlockId) : Build Unit :=
  terminate (.jump dest)

def branch (cond : Operand) (onTrue onFalse : BlockId) : Build Unit :=
  terminate (.branch cond onTrue onFalse)

def ret (value : Operand) : Build Unit :=
  terminate (.ret value)

def onModule {α : Type} (change : Module → α × Module) : Build α := fun b =>
  let (a, m) := change b.module
  .ok a { b with module := m }

end Builder
end IntLang.Flow
