import IntLang.Assembly.Layout
import IntLang.Diagnostic
import IntLang.Flow.Graph
import IntLang.Flow.Module

/-! From control-flow graphs to assembly. Every instruction loads its operands from the frame and
stores its result there. A phi is resolved by copies on the edges that lead to it. -/
namespace IntLang.Assembly
open IntLang.Flow

structure Context where
  module : Module
  globals : Array String
  id : FuncId
  function : Function
  layout : Layout

/-- Lines to emit, or `none` where an operand has no value. -/
abbrev Emitted := Option Listing

def code (is : List Ins) : Listing :=
  is.map fun i => .ok (.ins i)

namespace Context

def place? (c : Context) (v : Operand) : Option Place :=
  c.layout.place? c.globals v

def copy (c : Context) (v : Operand) (dest : Place) : Emitted := do
  return code [.load (← c.place? v) .eax, .store .eax dest]

def loadBoth (c : Context) (lhs rhs : Operand) : Emitted := do
  return code [.load (← c.place? lhs) .eax, .load (← c.place? rhs) .ecx]

/-- What arithmetic does once its operands are loaded, and where its result is. -/
def arith : ArithOp → List Ins × Reg
  | .add => ([.alu .add], .eax)
  | .sub => ([.alu .sub], .eax)
  | .mul => ([.alu .mul], .eax)
  | .and => ([.alu .and], .eax)
  | .or => ([.alu .or], .eax)
  | .div => ([.signExtend, .divide], .eax)
  | .rem => ([.signExtend, .divide], .edx)

def pushArgs (c : Context) (args : List Operand) : Emitted := do
  let places ← (args.drop argRegs.length).reverse.mapM c.place?
  return code (places.flatMap fun p => [.load p .eax, .pushAcc])

def loadArgs (c : Context) (args : List Operand) : Emitted := do
  let places ← (args.take argRegs.length).mapM c.place?
  return code ((places.zip argRegs).map fun (p, r) => .load p r)

def padding (stackArgs : Nat) : Nat :=
  if stackArgs % 2 = 1 then 8 else 0

/-- A call: arguments, the call itself, and the stack as it was before. A function that takes any
number of arguments is told that none is in a vector register. -/
def call (c : Context) (target : Function) (args : List Operand) (result : Place) : Emitted := do
  let onStack := args.length - argRegs.length
  let pad := padding onStack
  let pushed ← c.pushArgs args
  let loaded ← c.loadArgs args
  return code (if pad = 0 then [] else [.lowerStack pad]) ++ pushed ++ loaded ++
    code (if target.variadic then [.clearAcc] else []) ++
    code [.call target.name target.isDeclaration] ++
    code (if onStack = 0 then [] else [.raiseStack (8 * onStack + pad)]) ++
    code [.store .eax result]

/-- One instruction. Slots and phis need no code of their own. -/
def instr (c : Context) (id : InstrId) : Instr → Emitted
  | .alloca _ | .phi .. => some []
  | .load address => do c.copy address (← c.layout.result? id)
  | .store value address => do
    let from_ ← c.place? value
    let dest ← c.place? address
    return code [.load from_ .eax, .store .eax dest]
  | .arith op _ lhs rhs => do
    let (is, r) := arith op
    return (← c.loadBoth lhs rhs) ++ code (is ++ [.store r (← c.layout.result? id)])
  | .compare op lhs rhs => do
    return (← c.loadBoth lhs rhs) ++
      code [.compare, .setFlag op, .widenFlag, .store .eax (← c.layout.result? id)]
  | .widen value => do c.copy value (← c.layout.result? id)
  | .call callee args =>
    match c.module.function? callee with
    | none => some [.error (.erasedCallee c.function.name)]
    | some target => do c.call target args (← c.layout.result? id)

def instrsOf (c : Context) (b : BlockId) : List (InstrId × Instr) :=
  match c.function.blocks[b]? with
  | some b => b.instrs.toList.filterMap fun id => c.function.instrs[id]?.map (id, ·)
  | none => []

/-- The value a phi takes when control comes from `source`. -/
def incoming? (source : BlockId) : Instr → Option Operand
  | .phi _ incoming => (incoming.find? (·.2 == source)).map (·.1)
  | _ => none

/-- Copies for the phis of `target` when control comes from `source`. -/
def edgeCopies (c : Context) (source target : BlockId) : Emitted := do
  let copies ← (c.instrsOf target).mapM fun (id, i) =>
    match incoming? source i with
    | some v => do c.copy v (← c.layout.result? id)
    | none => some []
  return copies.flatten

def needsCopies (c : Context) (source target : BlockId) : Bool :=
  (c.instrsOf target).any fun (_, i) => (incoming? source i).isSome

def blockLabel (c : Context) (b : BlockId) : Label :=
  .block c.id b

def goto (c : Context) (source target : BlockId) : Emitted := do
  return (← c.edgeCopies source target) ++ code [.jump (c.blockLabel target)]

/-- A terminator. `edges` counts the labelled edges emitted so far. -/
def terminator (c : Context) (source : BlockId) (edges : Nat) :
    Terminator → Option (Listing × Nat)
  | .jump dest => do return (← c.goto source dest, edges)
  | .ret value => do return (code [.load (← c.place? value) .eax, .leave, .ret], edges)
  | .branch cond onTrue onFalse => do
    let test := code [.load (← c.place? cond) .eax, .test]
    if c.needsCopies source onFalse then
      let edge := Label.edge c.id edges
      return (test ++ code [.jumpIfZero edge] ++ (← c.goto source onTrue) ++
        [.ok (.label edge)] ++ (← c.goto source onFalse), edges + 1)
    else
      return (test ++ code [.jumpIfZero (c.blockLabel onFalse)] ++ (← c.goto source onTrue), edges)

def block (c : Context) (id : BlockId) (b : Block) (edges : Nat) : Option (Listing × Nat) := do
  let body ← (c.instrsOf id).mapM fun (i, x) => c.instr i x
  let (last, edges) ← match b.terminator with
    | some t => c.terminator id edges t
    | none => some ([.error (.noTerminator b.name c.function.name)], edges)
  return (.ok (.label (c.blockLabel id)) :: body.flatten ++ last, edges)

def blocks (c : Context) : List (BlockId × Block) → Nat → Option (Listing × Nat)
  | [], edges => some ([], edges)
  | (id, b) :: rest, edges => do
    let (first, edges) ← c.block id b edges
    let (others, edges) ← c.blocks rest edges
    return (first ++ others, edges)

def reachableBlocks (c : Context) : List (BlockId × Block) :=
  let reachable := c.function.reachable
  (c.function.blocks.toList.zipIdx).filterMap fun (b, id) =>
    if reachable[id]?.getD false then some (id, b) else none

/-- Entry code: the frame, and the parameters that arrive in registers. -/
def prologue (c : Context) : List Ins :=
  [.pushFrame, .setFrame] ++
    (if c.layout.size = 0 then [] else [.lowerStack c.layout.size]) ++
    ((List.range c.layout.params).zip argRegs).map fun (i, r) => .store r (.frame (Layout.offset i))

def definition (c : Context) (edges : Nat) : Option (Listing × Nat) := do
  let f := c.function
  let head : List Line :=
    (if f.linkage = .external then [.global f.name] else []) ++ [.alignCode, .symbol f.name]
  let (body, edges) ← c.blocks c.reachableBlocks edges
  return (head.map .ok ++ code c.prologue ++ body ++ [.ok .blank], edges)

end Context

def globalNames (m : Module) : Array String :=
  m.globals.map (·.name)

def functions (m : Module) : List (FuncId × Function) → Nat → Emitted
  | [], _ => some []
  | (id, f) :: rest, edges =>
    if f.isDeclaration then do
      let others ← functions m rest edges
      return (if f.linkage = .weak then [.ok (.weak f.name)] else []) ++ others
    else do
      let (first, edges) ← (Context.mk m (globalNames m) id f (.ofFunction f)).definition edges
      return first ++ (← functions m rest edges)

def dataLines (m : Module) : List Line :=
  if m.globals.isEmpty then []
  else [.data, .alignData] ++
    m.globals.toList.flatMap fun g => [.label (.global g.name), .long g.init, .blank]

def listing? (m : Module) : Option Listing := do
  let body ← functions m m.live 0
  return [.ok .opening, .ok .code] ++ body ++ [.ok .blank] ++ (dataLines m).map .ok

def assemblyText (m : Module) (t : Target) : Except Diagnostic String :=
  let failure (text : String) : Diagnostic :=
    ⟨.backend, "Could not generate code for " ++ t.name ++ ": " ++ text, none⟩
  match listing? m with
  | none => .error (failure "operand without a value")
  | some ls =>
    match ls.write t with
    | .ok text => .ok text
    | .error e => .error (failure e.message)

end IntLang.Assembly
