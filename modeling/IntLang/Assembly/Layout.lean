import IntLang.Assembly.Basic

/-! Stack frames. Each parameter that arrives in a register and each result has a cell of four
bytes below the frame pointer; further parameters stay where the caller put them. -/
namespace IntLang.Assembly
open IntLang.Flow

/-- Which cell each result has. Cell `k` is the one at `-4 * (k + 1)`. -/
structure Layout where
  params : Nat
  results : Array (Option Nat)
  cells : Nat
  deriving Repr

namespace Layout

def offset (cell : Nat) : Int :=
  -(4 * (cell + 1) : Nat)

def add (f : Function) (l : Layout) (id : InstrId) : Layout :=
  if (f.instrs[id]?.bind Instr.resultTy?).isSome then
    { l with results := l.results.setIfInBounds id (some l.cells), cells := l.cells + 1 }
  else l

/-- The frame of a function. Blocks that control cannot reach have their cells too. -/
def ofFunction (f : Function) : Layout :=
  let params := min f.paramCount argRegs.length
  let start : Layout := ⟨params, Array.replicate f.instrs.size none, params⟩
  f.blocks.foldl (fun l b => b.instrs.foldl (add f) l) start

/-- The size of a frame. It keeps the stack aligned to sixteen bytes. -/
def size (l : Layout) : Nat :=
  (4 * l.cells + 15) / 16 * 16

def result? (l : Layout) (id : InstrId) : Option Place :=
  l.results[id]?.join.map fun cell => .frame (offset cell)

/-- Where a parameter is. Between the frame pointer and the caller's arguments lie the saved frame
pointer and the return address. -/
def param (l : Layout) (i : Nat) : Place :=
  if i < l.params then .frame (offset i) else .frame (16 + 8 * (i - argRegs.length) : Nat)

/-- Where an operand is. The result of a slot is the variable itself. There is no place for the
result of an instruction that has none, nor for a global cell that is not there. -/
def place? (l : Layout) (m : Array String) : Operand → Option Place
  | .int n => some (.imm n)
  | .bool b => some (.imm (if b then 1 else 0))
  | .param i => some (l.param i)
  | .instr id => l.result? id
  | .global g => m[g]?.map .global

end Layout
end IntLang.Assembly
