import IntLang.Flow.Module

/-! The textual form of a module. Slots are shown under their variables' names; all other results
are numbered in order of appearance, after the parameters. -/
namespace IntLang.Flow

def Linkage.keyword : Linkage → String
  | external => ""
  | internal => "internal "
  | weak => "extern_weak "

namespace Function

structure Numbering where
  names : Array (Option String)
  next : Nat

def Numbering.add (f : Function) (n : Numbering) (id : InstrId) : Numbering :=
  match f.instrs[id]? with
  | some (.alloca name) => { n with names := n.names.setIfInBounds id (some name) }
  | some i =>
    if i.resultTy?.isSome then
      ⟨n.names.setIfInBounds id (some (toString n.next)), n.next + 1⟩
    else n
  | none => n

def resultNames (f : Function) : Array (Option String) :=
  let start : Numbering := ⟨Array.replicate f.instrs.size none, f.paramCount⟩
  (f.blocks.foldl (fun n b => b.instrs.foldl (Numbering.add f) n) start).names

end Function

structure Naming where
  module : Module
  function : Function
  results : Array (Option String)

namespace Naming

def operand (n : Naming) : Operand → String
  | .bool b => if b then "true" else "false"
  | .int k => toString k.toInt
  | .param i => "%" ++ toString i
  | .instr id =>
    match n.results[id]?.join with
    | some name => "%" ++ name
    | none => "%<unnamed " ++ toString id ++ ">"
  | .global g => "@" ++ (n.module.globals[g]?.map (·.name)).getD ""

def typed (n : Naming) (v : Operand) : String :=
  (n.function.typeOf v).name ++ " " ++ n.operand v

def block (n : Naming) (b : BlockId) : String :=
  "%" ++ (n.function.blocks[b]?.map (·.name)).getD ""

def commas (xs : List String) : String :=
  ", ".intercalate xs

def instr (n : Naming) : Instr → String
  | .alloca _ => "alloca i32"
  | .load address => "load i32, " ++ n.typed address
  | .store value address => "store " ++ n.typed value ++ ", " ++ n.typed address
  | .arith op ty lhs rhs =>
    op.mnemonic ++ " " ++ ty.name ++ " " ++ n.operand lhs ++ ", " ++ n.operand rhs
  | .compare op lhs rhs => "icmp " ++ op.mnemonic ++ " " ++ n.typed lhs ++ ", " ++ n.operand rhs
  | .widen value => "zext " ++ n.typed value ++ " to i32"
  | .call callee args =>
    let target := match n.module.function? callee with
      | some f => (if f.variadic then "(i32, ...) " else "") ++ "@" ++ f.name
      | none => "@<erased>"
    "call i32 " ++ target ++ "(" ++ commas (args.map n.typed) ++ ")"
  | .phi ty incoming =>
    "phi " ++ ty.name ++ " " ++
      commas (incoming.map fun (v, b) => "[ " ++ n.operand v ++ ", " ++ n.block b ++ " ]")

def terminator (n : Naming) : Option Terminator → String
  | some (.jump dest) => "br label " ++ n.block dest
  | some (.branch cond onTrue onFalse) =>
    "br " ++ n.typed cond ++ ", label " ++ n.block onTrue ++ ", label " ++ n.block onFalse
  | some (.ret value) => "ret " ++ n.typed value
  | none => "; missing terminator"

def instrLine (n : Naming) (id : InstrId) : String :=
  match n.function.instrs[id]? with
  | some i =>
    "  " ++ (if i.resultTy?.isSome then n.operand (.instr id) ++ " = " else "") ++ n.instr i ++ "\n"
  | none => ""

def blockText (n : Naming) (b : Block) : String :=
  b.name ++ ":\n" ++ String.join (b.instrs.toList.map n.instrLine) ++
    "  " ++ n.terminator b.terminator ++ "\n"

end Naming

namespace Function

/-- Linkage, name and parameters, the latter numbered if the body can refer to them. -/
def signature (f : Function) (numbered : Bool) : String :=
  let fixed := (List.range f.paramCount).map fun i =>
    if numbered then "i32 %" ++ toString i else "i32"
  let params := if f.variadic then fixed ++ ["..."] else fixed
  f.linkage.keyword ++ "i32 @" ++ f.name ++ "(" ++ Naming.commas params ++ ")"

/-- The text of a function of module `m`. -/
def render (f : Function) (m : Module) : String :=
  if f.isDeclaration then "declare " ++ f.signature false ++ "\n"
  else
    let n : Naming := ⟨m, f, f.resultNames⟩
    "define " ++ f.signature true ++ " \x7b\n" ++
      "\n".intercalate (f.blocks.toList.map n.blockText) ++ "\x7d\n"

end Function

namespace Module

def renderGlobals (m : Module) : String :=
  if m.globals.isEmpty then ""
  else "\n" ++ String.join (m.globals.toList.map fun g =>
    "@" ++ g.name ++ " = internal global i32 " ++ toString g.init.toInt ++ "\n")

def render (m : Module) : String :=
  "; ModuleID = '" ++ m.name ++ "'\n" ++ m.renderGlobals ++
    String.join (m.live.map fun (_, f) => "\n" ++ f.render m)

end Module
end IntLang.Flow
