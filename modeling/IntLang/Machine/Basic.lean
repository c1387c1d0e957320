import IntLang.Diagnostic
import IntLang.Flow.Module
import IntLang.Machine.Native

/-! Execution of control-flow graphs, one step at a time. The state of a run is the stack of frames
together with what outlives the run: global cells and the printed text. -/
namespace IntLang.Machine
open IntLang.Flow

inductive Slot where
  | undef
  | int (n : Int32)
  | bool (b : Bool)
  | cell (index : Nat)
  | global (id : GlobalId)
  deriving DecidableEq, Repr, Inhabited

def Slot.describe : Slot → String
  | undef => "Undef"
  | int n => "Int(" ++ toString n.toInt ++ ")"
  | bool b => "Bool(" ++ (if b then "true" else "false") ++ ")"
  | cell i => "Local(" ++ toString i ++ ")"
  | global g => "Global(GlobalId(" ++ toString g ++ "))"

inductive Fault where
  | erasedCallee
  | erasedFrame
  | unresolved (name : String)
  | nativeFailed (name : String) (e : NativeError)
  | callDepth
  | notInteger (s : Slot)
  | loadThrough (s : Slot)
  | storeThrough (s : Slot)
  | noIncoming (function : String)
  | noTerminator (block function : String)
  | missingBlock (function : String)
  | divisionByZero
  | divisionOverflow
  deriving DecidableEq, Repr

def maxCallDepth : Nat := 10000

def Fault.message : Fault → String
  | erasedCallee => "Call to a function that has been erased"
  | erasedFrame => "Executing a function that has been erased"
  | unresolved name => "Unresolved external function '" ++ name ++ "'"
  | nativeFailed name e => "'" ++ name ++ "' failed: " ++ e.message
  | callDepth => "Maximum call depth of " ++ toString maxCallDepth ++ " exceeded"
  | notInteger s => "Expected an integer operand, found " ++ s.describe
  | loadThrough s => "Load through a non-pointer " ++ s.describe
  | storeThrough s => "Store through a non-pointer " ++ s.describe
  | noIncoming f => "Phi in '" ++ f ++ "' has no value for the incoming edge"
  | noTerminator b f => "Block '" ++ b ++ "' in '" ++ f ++ "' has no terminator"
  | missingBlock f => "Missing block in '" ++ f ++ "'"
  | divisionByZero => "Division by zero"
  | divisionOverflow => "Integer overflow in division"

def Fault.diagnostic (f : Fault) : Diagnostic :=
  ⟨.runtime, f.message, none⟩

structure Frame where
  function : FuncId
  block : BlockId := 0
  previous : Option BlockId := none
  next : Nat := 0
  args : List Int32
  results : Array Slot
  cells : Array Int32 := #[]
  pending : Option InstrId := none
  deriving Repr

namespace Frame

def eval (fr : Frame) : Operand → Slot
  | .bool b => .bool b
  | .int n => .int n
  | .param i =>
    match fr.args[i]? with
    | some n => .int n
    | none => .undef
  | .instr id => fr.results[id]?.getD .undef
  | .global g => .global g

/-- The integer an operand stands for. A truth value counts as 0 or 1. -/
def int (fr : Frame) (v : Operand) : Except Fault Int32 :=
  match fr.eval v with
  | .int n => .ok n
  | .bool b => .ok (if b then 1 else 0)
  | s => .error (.notInteger s)

def ints (fr : Frame) : List Operand → Except Fault (List Int32)
  | [] => .ok []
  | v :: vs => do
    let n ← fr.int v
    let ns ← fr.ints vs
    return n :: ns

def advance (fr : Frame) : Frame :=
  { fr with next := fr.next + 1 }

def give (fr : Frame) (id : InstrId) (s : Slot) : Frame :=
  { fr with next := fr.next + 1, results := fr.results.setIfInBounds id s }

def goto (fr : Frame) (dest : BlockId) : Frame :=
  { fr with previous := some fr.block, block := dest, next := 0 }

def resume (fr : Frame) (n : Int32) : Frame :=
  match fr.pending with
  | some id => { fr with pending := none, results := fr.results.setIfInBounds id (.int n) }
  | none => fr

end Frame

def minInteger : Int32 := Int32.ofInt (-2147483648)

/-- Wrapping arithmetic; division truncates. -/
def arith (op : ArithOp) (a b : Int32) : Except Fault Int32 :=
  match op with
  | .add => .ok (a + b)
  | .sub => .ok (a - b)
  | .mul => .ok (a * b)
  | .div =>
    if b = 0 then .error .divisionByZero
    else if a = minInteger ∧ b = -1 then .error .divisionOverflow
    else .ok (a / b)
  | .rem =>
    if b = 0 then .error .divisionByZero
    else if a = minInteger ∧ b = -1 then .error .divisionOverflow
    else .ok (a % b)
  | .and => .ok (a &&& b)
  | .or => .ok (a ||| b)

inductive Action where
  | proceed (frame : Frame) (globals : Array Int32)
  | call (frame : Frame) (callee : FuncId) (args : List Int32)
  | ret (value : Int32)

namespace Frame

def arithSlot (fr : Frame) (op : ArithOp) (lhs rhs : Operand) : Except Fault Slot :=
  match op, fr.eval lhs, fr.eval rhs with
  | .and, .bool a, .bool b => .ok (.bool (a && b))
  | .or, .bool a, .bool b => .ok (.bool (a || b))
  | _, _, _ => do
    let a ← fr.int lhs
    let b ← fr.int rhs
    return .int (← arith op a b)

def exec (fr : Frame) (function : String) (globals : Array Int32) (id : InstrId) :
    Instr → Except Fault Action
  | .alloca _ =>
    let index := fr.cells.size
    .ok (.proceed ({ fr with cells := fr.cells.push 0 }.give id (.cell index)) globals)
  | .load address =>
    match fr.eval address with
    | .cell i => .ok (.proceed (fr.give id (.int (fr.cells[i]?.getD 0))) globals)
    | .global g => .ok (.proceed (fr.give id (.int (globals[g]?.getD 0))) globals)
    | s => .error (.loadThrough s)
  | .store value address => do
    let n ← fr.int value
    match fr.eval address with
    | .cell i => .ok (.proceed { fr with cells := fr.cells.setIfInBounds i n }.advance globals)
    | .global g => .ok (.proceed fr.advance (globals.setIfInBounds g n))
    | s => .error (.storeThrough s)
  | .arith op _ lhs rhs => do
    let s ← fr.arithSlot op lhs rhs
    return .proceed (fr.give id s) globals
  | .compare op lhs rhs => do
    let a ← fr.int lhs
    let b ← fr.int rhs
    return .proceed (fr.give id (.bool (op.holds a b))) globals
  | .widen value => do
    let n ← fr.int value
    return .proceed (fr.give id (.int n)) globals
  | .phi _ incoming =>
    match incoming.find? (fun (_, b) => fr.previous = some b) with
    | some (v, _) => .ok (.proceed (fr.give id (fr.eval v)) globals)
    | none => .error (.noIncoming function)
  | .call callee args => do
    let ns ← fr.ints args
    return .call { fr.advance with pending := some id } callee ns

def leave (fr : Frame) (f : Function) (b : Block) (globals : Array Int32) : Except Fault Action :=
  match b.terminator with
  | some (.jump dest) => .ok (.proceed (fr.goto dest) globals)
  | some (.branch cond onTrue onFalse) => do
    let n ← fr.int cond
    return .proceed (fr.goto (if n = 0 then onFalse else onTrue)) globals
  | some (.ret value) => do
    return .ret (← fr.int value)
  | none => .error (.noTerminator b.name f.name)

def step (fr : Frame) (m : Module) (globals : Array Int32) : Except Fault Action :=
  match m.function? fr.function with
  | none => .error .erasedFrame
  | some f =>
    match f.blocks[fr.block]? with
    | none => .error (.missingBlock f.name)
    | some b =>
      match b.instrs[fr.next]?.bind fun id => f.instrs[id]?.map (id, ·) with
      | some (id, i) => fr.exec f.name globals id i
      | none => fr.leave f b globals

end Frame

structure Engine where
  globals : Array Int32 := #[]
  natives : List (String × Native) := []
  output : String := ""
  sink : Sink := {}

namespace Engine

def map (e : Engine) (symbol : String) (native : Native) : Engine :=
  { e with natives := (symbol, native) :: e.natives }

def mapAll (e : Engine) : Engine :=
  (e.map printSymbol .print).map powerSymbol .power

def sync (e : Engine) (m : Module) : Engine :=
  { e with globals := e.globals ++ (m.globals.extract e.globals.size m.globals.size).map (·.init) }

def print (e : Engine) (text : String) : Engine :=
  { e with output := e.output ++ text }

def globalValue (e : Engine) (m : Module) (name : String) : Option Int32 :=
  (m.findGlobal? name).bind fun g => (e.sync m).globals[g]?

end Engine

/-- What a routine comes to: its value, or its failure, and the text it has written. -/
def Engine.callNative (e : Engine) (symbol : String) (native : Native) (args : List Int32) :
    Except Fault Int32 × String :=
  match native.run args with
  | .error err => (.error (.nativeFailed symbol err), "")
  | .ok (n, text) =>
    if text = "" then (.ok n, "")
    else
      match e.sink.refuses e.output text with
      | none => (.ok n, text)
      | some (part, reason) => (.error (.nativeFailed symbol (.unwritten reason)), part)

/-- What calling a function leads to: a frame to execute, or the result of a routine. -/
inductive Entered where
  | frame (fr : Frame)
  | result (r : Except Fault Int32) (text : String)

def Engine.enter (e : Engine) (m : Module) (callee : FuncId) (args : List Int32) :
    Except Fault Entered :=
  match m.function? callee with
  | none => .error .erasedCallee
  | some f =>
    if f.isDeclaration then
      match e.natives.lookup f.name with
      | none => .error (.unresolved f.name)
      | some native => let (r, text) := e.callNative f.name native args; .ok (.result r text)
    else
      .ok (.frame { function := callee, args, results := Array.replicate f.instrs.size .undef })

/-- The state of a run: the frame being executed and those that wait for it, the oldest first. -/
structure Config where
  engine : Engine
  top : Frame
  below : Array Frame := #[]

inductive Progress where
  | running (c : Config)
  | finished (result : Except Fault Int32) (engine : Engine)

namespace Config

def step (m : Module) : Config → Progress
  | ⟨engine, top, below⟩ =>
    match top.step m engine.globals with
    | .error f => .finished (.error f) engine
    | .ok (.proceed top globals) => .running ⟨{ engine with globals }, top, below⟩
    | .ok (.ret n) =>
      match below.back? with
      | none => .finished (.ok n) engine
      | some caller => let rest := below.pop; .running ⟨engine, caller.resume n, rest⟩
    | .ok (.call top callee args) =>
      match engine.enter m callee args with
      | .error f => .finished (.error f) engine
      | .ok (.result r text) =>
        let engine := engine.print text
        match r with
        | .error f => .finished (.error f) engine
        | .ok n => .running ⟨engine, top.resume n, below⟩
      | .ok (.frame fr) =>
        if below.size + 1 ≥ maxCallDepth then .finished (.error .callDepth) engine
        else .running ⟨engine, fr, below.push top⟩

def run (m : Module) : Nat → Config → Option (Except Fault Int32 × Engine)
  | 0, _ => none
  | n + 1, c =>
    match c.step m with
    | .running c => run m n c
    | .finished r e => some (r, e)

end Config

/-- Runs a function to its end, if that takes no more than `steps` steps. -/
def Engine.run (e : Engine) (steps : Nat) (m : Module) (f : FuncId) (args : List Int32) :
    Option (Except Fault Int32 × Engine) :=
  let e := e.sync m
  match e.enter m f args with
  | .error fault => some (.error fault, e)
  | .ok (.result r text) => some (r, e.print text)
  | .ok (.frame top) => Config.run m steps ⟨e, top, #[]⟩

end IntLang.Machine
