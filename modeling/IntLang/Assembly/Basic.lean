import IntLang.Assembly.Target
import IntLang.Flow.Basic

/-! Assembly listings: the instructions in use, the lines of a listing, and their text. A listing
says what is defined and executed; only its text depends on the target. -/
namespace IntLang.Assembly
open IntLang.Flow

inductive Reg where
  | eax | ecx | edx | esi | edi | r8d | r9d
  deriving DecidableEq, Repr

def Reg.name : Reg → String
  | eax => "%eax"
  | ecx => "%ecx"
  | edx => "%edx"
  | esi => "%esi"
  | edi => "%edi"
  | r8d => "%r8d"
  | r9d => "%r9d"

def argRegs : List Reg := [.edi, .esi, .edx, .ecx, .r8d, .r9d]

inductive Label where
  | block (function : FuncId) (block : BlockId)
  | edge (function : FuncId) (number : Nat)
  | global (name : String)
  deriving DecidableEq, Repr

def Label.render (t : Target) : Label → String
  | block f b => t.privateMark ++ "BB" ++ toString f ++ "_" ++ toString b
  | edge f n => t.privateMark ++ "edge" ++ toString f ++ "_" ++ toString n
  | global name => t.privateMark ++ "var_" ++ name

inductive Place where
  | imm (n : Int32)
  | frame (offset : Int)
  | global (name : String)
  deriving DecidableEq, Repr

def Place.render (t : Target) : Place → String
  | imm n => "$" ++ toString n.toInt
  | frame offset => toString offset ++ "(%rbp)"
  | global name => (Label.global name).render t ++ "(%rip)"

/-- Operations on `%eax` with `%ecx` as the second operand. -/
inductive AluOp where
  | add | sub | mul | and | or
  deriving DecidableEq, Repr

def AluOp.mnemonic : AluOp → String
  | add => "addl"
  | sub => "subl"
  | mul => "imull"
  | and => "andl"
  | or => "orl"

inductive Ins where
  | pushFrame
  | setFrame
  | lowerStack (bytes : Nat)
  | raiseStack (bytes : Nat)
  | load (place : Place) (reg : Reg)
  | store (reg : Reg) (place : Place)
  | pushAcc
  | alu (op : AluOp)
  | signExtend
  | divide
  | compare
  | setFlag (op : CmpOp)
  | widenFlag
  | test
  | clearAcc
  | jumpIfZero (target : Label)
  | jump (target : Label)
  | call (symbol : String) (foreign : Bool)
  | leave
  | ret
  deriving DecidableEq, Repr

def flagMnemonic : CmpOp → String
  | .eq => "sete"
  | .ne => "setne"
  | .lt => "setl"
  | .gt => "setg"
  | .le => "setle"
  | .ge => "setge"

def Ins.render (t : Target) : Ins → String
  | pushFrame => "pushq %rbp"
  | setFrame => "movq %rsp, %rbp"
  | lowerStack n => "subq $" ++ toString n ++ ", %rsp"
  | raiseStack n => "addq $" ++ toString n ++ ", %rsp"
  | load p r => "movl " ++ p.render t ++ ", " ++ r.name
  | store r p => "movl " ++ r.name ++ ", " ++ p.render t
  | pushAcc => "pushq %rax"
  | alu op => op.mnemonic ++ " %ecx, %eax"
  | signExtend => "cltd"
  | divide => "idivl %ecx"
  | compare => "cmpl %ecx, %eax"
  | setFlag op => flagMnemonic op ++ " %al"
  | widenFlag => "movzbl %al, %eax"
  | test => "testl %eax, %eax"
  | clearAcc => "xorl %eax, %eax"
  | jumpIfZero l => "je " ++ l.render t
  | jump l => "jmp " ++ l.render t
  | call s foreign => "call " ++ t.symbolMark ++ s ++ (if foreign then t.foreignMark else "")
  | leave => "leave"
  | ret => "ret"

inductive Line where
  | opening
  | code
  | data
  | weak (symbol : String)
  | global (symbol : String)
  | alignCode
  | alignData
  | symbol (name : String)
  | label (l : Label)
  | ins (i : Ins)
  | long (n : Int32)
  | blank
  deriving DecidableEq, Repr

def Line.render (t : Target) : Line → String
  | opening => t.opening ++ "\n"
  | code => ".section " ++ t.codeSection ++ "\n"
  | data => ".section " ++ t.dataSection ++ "\n"
  | weak s => t.weakDirective ++ " " ++ t.symbolMark ++ s ++ "\n"
  | global s => ".globl " ++ t.symbolMark ++ s ++ "\n"
  | alignCode => ".p2align 4, 0x90\n"
  | alignData => ".p2align 2\n"
  | symbol s => t.symbolMark ++ s ++ ":\n"
  | label l => l.render t ++ ":\n"
  | ins i => "    " ++ i.render t ++ "\n"
  | long n => "    .long " ++ toString n.toInt ++ "\n"
  | blank => "\n"

inductive EmitError where
  | noTerminator (block function : String)
  | erasedCallee (function : String)
  | noRoom
  deriving DecidableEq, Repr

def EmitError.message : EmitError → String
  | noTerminator b f => "block '" ++ b ++ "' in '" ++ f ++ "' has no terminator"
  | erasedCallee f => "'" ++ f ++ "' calls an erased function"
  | noRoom => "sink full"

/-- A listing in order of emission. What could not be emitted keeps its place in it. -/
abbrev Listing := List (Except EmitError Line)

namespace Listing

/-- Appends the text of a listing to `text`, which may grow to `room` bytes. The first failure wins,
be it a line that finds no room or one that could not be emitted. -/
def writeFrom (t : Target) (room : Option Nat) (text : String) : Listing → Except EmitError String
  | [] => .ok text
  | .error e :: _ => .error e
  | .ok l :: rest =>
    let text := text ++ l.render t
    if room.any (· < text.utf8ByteSize) then .error .noRoom else writeFrom t room text rest

def write (ls : Listing) (t : Target) : Except EmitError String :=
  writeFrom t none "" ls

def writeWithin (ls : Listing) (t : Target) (bytes : Nat) : Except EmitError String :=
  writeFrom t (some bytes) "" ls

end Listing
end IntLang.Assembly
