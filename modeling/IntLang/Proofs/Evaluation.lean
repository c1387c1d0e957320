import IntLang.Machine.Basic
import IntLang.Tree.Basic
import Mathlib.Logic.Function.Basic

/-! The meaning of syntax trees, without any graph: an expression has a value, a statement changes
the variables in sight and may return, a call runs a body on variables of its own. Every loop and
every call is followed to a bounded depth, and an evaluation that needs more gives nothing. -/
namespace IntLang.Meaning
open IntLang.Machine

/-- What stays the same while a program runs. -/
structure World where
  functions : List FunctionDef
  natives : List (String × Native)
  sink : Sink

/-- What changes: the variables in sight and the text written so far. -/
structure Store where
  vars : String → Int32
  output : String

def Store.set (s : Store) (x : String) (v : Int32) : Store :=
  { s with vars := Function.update s.vars x v }

def Store.print (s : Store) (text : String) : Store :=
  { s with output := s.output ++ text }

/-- An evaluation: nothing within the bound, or a fault or a value, and the store it leaves. -/
abbrev Eval := ExceptT Fault (StateT Store Option)

/-- What a call gives: nothing within the bound, or a fault or a value, and the text after it. -/
abbrev Called := Option (Except Fault Int32 × String)

/-- How calls are made: from the name, the arguments and the text written so far. -/
abbrev Calls := String → List Int32 → String → Called

def truth (p : Prop) [Decidable p] : Int32 :=
  if p then 1 else 0

/-- A quotient or a remainder, both rounded towards zero. There is neither when the quotient does
not exist or is too large for an integer. -/
def divide (rounded : Int → Int → Int) (a b : Int32) : Except Fault Int32 :=
  if b.toInt = 0 then .error .divisionByZero
  else if 2147483647 < a.toInt.tdiv b.toInt then .error .divisionOverflow
  else .ok (Int32.ofInt (rounded a.toInt b.toInt))

def unaryValue : UnaryOp → Int32 → Int32
  | .negate, a => Int32.ofInt (-a.toInt)
  | .identity, a => a
  | .not, a => truth (a = 0)

/-- The value of an operator; `in` and `not in` have none. -/
def binaryValue (op : BinaryOp) (a b : Int32) : Option (Except Fault Int32) :=
  match op with
  | .or => some (.ok (truth (a ≠ 0 ∨ b ≠ 0)))
  | .and => some (.ok (truth (a ≠ 0 ∧ b ≠ 0)))
  | .lt => some (.ok (truth (a.toInt < b.toInt)))
  | .gt => some (.ok (truth (a.toInt > b.toInt)))
  | .le => some (.ok (truth (a.toInt ≤ b.toInt)))
  | .ge => some (.ok (truth (a.toInt ≥ b.toInt)))
  | .eq => some (.ok (truth (a = b)))
  | .ne => some (.ok (truth (a ≠ b)))
  | .add => some (.ok (Int32.ofInt (a.toInt + b.toInt)))
  | .sub => some (.ok (Int32.ofInt (a.toInt - b.toInt)))
  | .mul => some (.ok (Int32.ofInt (a.toInt * b.toInt)))
  | .div => some (divide Int.tdiv a b)
  | .mod => some (divide Int.tmod a b)
  | .pow => some (.ok (power a b))
  | .in_ | .notIn => none

/-- A result that the store has no part in. -/
def given (r : Option (Except Fault Int32)) : Eval Int32 :=
  fun s => r.map fun v => (v, s)

/-- A call leaves the variables of its caller alone. -/
def called (c : String → Called) : Eval Int32 :=
  fun s => (c s.output).map fun (v, text) => (v, { s with output := text })

mutual

/-- The value of an expression. Operands and arguments are evaluated from left to right, and both
operands of every operator are. -/
def expr (call : Calls) : Expr → Eval Int32
  | .number n => pure n
  | .var x => return (← get).vars x
  | .unary op e => return unaryValue op (← expr call e)
  | .binary op l r => do
    let a ← expr call l
    let b ← expr call r
    given (binaryValue op a b)
  | .call f args => do
    let vs ← exprs call args
    called (call f vs)

def exprs (call : Calls) : List Expr → Eval (List Int32)
  | [] => return []
  | e :: es => do
    let v ← expr call e
    let vs ← exprs call es
    return v :: vs

end

/-- Repeats `body` as long as `cond` is not zero, at most `n` times. -/
def repeated (cond : Eval Int32) (body : Eval (Option Int32)) : Nat → Eval (Option Int32)
  | 0 => fun _ => none
  | n + 1 => do
    if (← cond) = 0 then return none
    else
      match ← body with
      | some v => return some v
      | none => repeated cond body n

/-- Writes the values of a print statement, as many as their 32-bit count says. -/
def printed (w : World) (vs : List Int32) : Eval Unit := fun s =>
  let line := printedLine (Int32.ofNat vs.length :: vs)
  match w.sink.refuses s.output line with
  | none => some (.ok (), s.print line)
  | some (part, reason) =>
    some (.error (.nativeFailed printSymbol (.unwritten reason)), s.print part)

mutual

/-- Executes a statement. The result is the value returned, if the statement returns. -/
def stmt (w : World) (call : Calls) (bound : Nat) : Stmt → Eval (Option Int32)
  | .assign x e => do
    let v ← expr call e
    modify (·.set x v)
    return none
  | .eval e => do
    let _ ← expr call e
    return none
  | .branch cond body elifs otherwise => do
    if (← expr call cond) ≠ 0 then stmts w call bound body
    else arms w call bound (stmts w call bound otherwise) elifs
  | .loop cond body => repeated (expr call cond) (stmts w call bound body) bound
  | .print args => do
    let vs ← exprs call args
    printed w vs
    return none
  | .ret e => return some (← expr call e)
  | .pass => return none

def stmts (w : World) (call : Calls) (bound : Nat) : List Stmt → Eval (Option Int32)
  | [] => return none
  | s :: ss => do
    match ← stmt w call bound s with
    | some v => return some v
    | none => stmts w call bound ss

def arms (w : World) (call : Calls) (bound : Nat) (otherwise : Eval (Option Int32)) :
    List (Expr × List Stmt) → Eval (Option Int32)
  | [] => otherwise
  | (cond, body) :: rest => do
    if (← expr call cond) ≠ 0 then stmts w call bound body
    else arms w call bound otherwise rest

end

/-- The variables of a call: the parameters bound from left to right, and zero everywhere else. -/
def parameters (params : List String) (args : List Int32) : String → Int32 :=
  (params.zip args).foldl (fun vars p => Function.update vars p.1 p.2) fun _ => 0

/-- What the caller of a body sees: its result, which is zero without a return, and its text. -/
def outcome (r : Except Fault (Option Int32) × Store) : Except Fault Int32 × Store :=
  (r.1.map (·.getD 0), r.2)

def foreign (w : World) (name : String) (args : List Int32) (text : String) :
    Except Fault Int32 × String :=
  match w.natives.lookup name with
  | none => (.error (.unresolved name), text)
  | some native =>
    match native.run args with
    | .error err => (.error (.nativeFailed name err), text)
    | .ok (n, line) =>
      if line = "" then (.ok n, text)
      else
        match w.sink.refuses text line with
        | none => (.ok n, text ++ line)
        | some (part, reason) => (.error (.nativeFailed name (.unwritten reason)), text ++ part)

/-- Calls from a body that has `depth` bodies active, itself included. -/
def call (w : World) : Nat → Nat → Calls
  | 0, _, _, _, _ => none
  | n + 1, depth, name, args, text =>
    match w.functions.find? (·.name = name) with
    | none => none
    | some d =>
      if d.isDeclaration then some (foreign w name args text)
      else if maxCallDepth ≤ depth then some (.error .callDepth, text)
      else
        (stmts w (call w n (depth + 1)) n d.body ⟨parameters d.params args, text⟩).map fun r =>
          ((outcome r).1, r.2.output)

/-- Executes top-level statements. Their variables are the global ones. -/
def topLevel (w : World) (bound : Nat) (ss : List Stmt) : Eval (Option Int32) :=
  stmts w (call w bound 1) bound ss

def program (natives : List (String × Native)) (sink : Sink) (text : String) (bound : Nat)
    (p : Program) : Option (Except Fault Int32 × Store) :=
  (topLevel ⟨p.functions, natives, sink⟩ bound p.statements ⟨fun _ => 0, text⟩).map outcome

end IntLang.Meaning
