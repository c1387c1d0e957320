import IntLang.Diagnostic
import IntLang.Flow.Graph
import IntLang.Flow.Module

/-! Structural well-formedness of a module: every block ends, every branch has a target, and every
phi has one value for each predecessor of its block. -/
namespace IntLang.Flow

inductive Defect where
  | noTerminator (block : String)
  | missingTarget (block : String)
  | phiMismatch (block : String)
  deriving DecidableEq, Repr

def Defect.message : Defect → String
  | noTerminator b => "block '" ++ b ++ "' has no terminator"
  | missingTarget b => "block '" ++ b ++ "' branches to a missing block"
  | phiMismatch b => "phi in block '" ++ b ++ "' does not match its predecessors"

def Function.endDefect? (f : Function) (b : Block) : Option Defect :=
  match b.terminator with
  | none => some (.noTerminator b.name)
  | some t =>
    if t.successors.any (f.blocks.size ≤ ·) then some (.missingTarget b.name) else none

/-- Whether an instruction of a block with predecessors `preds` is a phi for other ones. -/
def Instr.mismatched (preds : List BlockId) : Instr → Bool
  | .phi _ incoming => !(incoming.map (·.2)).isPerm preds
  | _ => false

def Function.phiDefect? (f : Function) (preds : List BlockId) (b : Block) : Option Defect :=
  if b.instrs.any fun id => (f.instrs[id]?.map (·.mismatched preds)).getD false then
    some (.phiMismatch b.name)
  else none

/-- The first defect of a function: first how its blocks end, then its phis. -/
def Function.defect? (f : Function) : Option Defect :=
  let blocks := f.blocks.toList
  blocks.findSome? f.endDefect? <|>
    (f.predecessors.toList.zip blocks).findSome? fun (preds, b) => f.phiDefect? preds b

def Module.defect? (m : Module) : Option (String × Defect) :=
  m.live.findSome? fun (_, f) => f.defect?.map (f.name, ·)

def Module.verify (m : Module) : Except Diagnostic Unit :=
  match m.defect? with
  | some (f, d) => .error ⟨.backend, "Invalid IR in function '" ++ f ++ "': " ++ d.message, none⟩
  | none => .ok ()

end IntLang.Flow
