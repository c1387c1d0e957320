/-! Control-flow graphs: operands, instructions, blocks and functions. A function owns its
instructions in one store and its blocks refer to them by index, so an instruction keeps its index
whatever happens to the block it stands in. -/
namespace IntLang.Flow

abbrev FuncId := Nat
abbrev BlockId := Nat
abbrev InstrId := Nat
abbrev GlobalId := Nat

/-- The types of values: a truth value, an integer, the address of an integer. -/
inductive Ty where
  | i1 | i32 | ptr
  deriving DecidableEq, Repr

def Ty.name : Ty → String
  | i1 => "i1"
  | i32 => "i32"
  | ptr => "ptr"

/-- Who can see a function's symbol. A weak symbol is declared only, and may stay unresolved. -/
inductive Linkage where
  | external | internal | weak
  deriving DecidableEq, Repr

inductive Operand where
  | bool (b : Bool)
  | int (n : Int32)
  | param (index : Nat)
  | instr (id : InstrId)
  | global (id : GlobalId)
  deriving DecidableEq, Repr

inductive ArithOp where
  | add | sub | mul | div | rem | and | or
  deriving DecidableEq, Repr

def ArithOp.mnemonic : ArithOp → String
  | add => "add"
  | sub => "sub"
  | mul => "mul"
  | div => "sdiv"
  | rem => "srem"
  | and => "and"
  | or => "or"

inductive CmpOp where
  | eq | ne | lt | gt | le | ge
  deriving DecidableEq, Repr

namespace CmpOp

def mnemonic : CmpOp → String
  | eq => "eq"
  | ne => "ne"
  | lt => "slt"
  | gt => "sgt"
  | le => "sle"
  | ge => "sge"

def holds (op : CmpOp) (a b : Int32) : Bool :=
  match op with
  | eq => a = b
  | ne => a ≠ b
  | lt => a < b
  | gt => b < a
  | le => a ≤ b
  | ge => b ≤ a

end CmpOp

inductive Instr where
  | alloca (name : String)
  | load (address : Operand)
  | store (value address : Operand)
  | arith (op : ArithOp) (ty : Ty) (lhs rhs : Operand)
  | compare (op : CmpOp) (lhs rhs : Operand)
  | widen (value : Operand)
  | call (callee : FuncId) (args : List Operand)
  | phi (ty : Ty) (incoming : List (Operand × BlockId))
  deriving DecidableEq, Repr

def Instr.resultTy? : Instr → Option Ty
  | alloca _ => some .ptr
  | load _ | widen _ | call .. => some .i32
  | store .. => none
  | arith _ ty _ _ => some ty
  | phi ty _ => some ty
  | compare .. => some .i1

inductive Terminator where
  | jump (dest : BlockId)
  | branch (cond : Operand) (onTrue onFalse : BlockId)
  | ret (value : Operand)
  deriving DecidableEq, Repr

def Terminator.successors : Terminator → List BlockId
  | jump dest => [dest]
  | branch _ onTrue onFalse => [onTrue, onFalse]
  | ret _ => []

structure Block where
  name : String
  instrs : Array InstrId := #[]
  terminator : Option Terminator := none
  deriving DecidableEq, Repr, Inhabited

structure Function where
  name : String
  paramCount : Nat
  linkage : Linkage
  variadic : Bool := false
  synthetic : Bool := false
  blocks : Array Block := #[]
  instrs : Array Instr := #[]
  deriving DecidableEq, Repr

namespace Function

def isDeclaration (f : Function) : Bool :=
  f.blocks.isEmpty

def entry? (f : Function) : Option BlockId :=
  if f.blocks.isEmpty then none else some 0

/-- The type of an operand. What gives nothing counts as an integer. -/
def typeOf (f : Function) : Operand → Ty
  | .bool _ => .i1
  | .int _ | .param _ => .i32
  | .global _ => .ptr
  | .instr id => (f.instrs[id]?.bind Instr.resultTy?).getD .i32

def successors (f : Function) (b : BlockId) : List BlockId :=
  match f.blocks[b]?.bind (·.terminator) with
  | some t => t.successors
  | none => []

end Function
end IntLang.Flow
