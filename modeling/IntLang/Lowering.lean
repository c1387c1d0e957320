import IntLang.Diagnostic
import IntLang.Flow.Builder
import IntLang.Machine.Native
import IntLang.Tree.Basic

/-! Lowering of syntax trees to control-flow graphs. Operands are evaluated from left to right, and
both operands of `and` and `or` always are. -/
namespace IntLang
open IntLang.Flow

inductive CompileError where
  | duplicateFunction (name : String)
  | reservedName (name : String)
  | unknownFunction (name : String)
  | argumentCount (name : String) (expected given : Nat)
  | unsupported (op : BinaryOp)
  deriving DecidableEq, Repr

def CompileError.message : CompileError → String
  | duplicateFunction name => "Duplicate definition of function '" ++ name ++ "'"
  | reservedName name => "Function name '" ++ name ++ "' is reserved for the runtime"
  | unknownFunction name => "Unknown function '" ++ name ++ "'"
  | argumentCount name expected given =>
    "Function '" ++ name ++ "' takes " ++ toString expected ++ " argument(s) but " ++
      toString given ++ " were given"
  | unsupported op => "Operator '" ++ op.symbol ++ "' is not supported"

def CompileError.diagnostic (e : CompileError) : Diagnostic :=
  ⟨.semantic, e.message, none⟩

/-- Where the variables of a body live: in slots of its own, or in the module's global cells. -/
inductive Scope where
  | slots (known : List (String × Operand))
  | globals
  deriving Repr

structure Lowering where
  builder : Builder
  scope : Scope
  deriving Repr

/-- Why lowering stops. A misuse of the builder would be a mistake of this module. -/
inductive LowerError where
  | rejected (e : CompileError)
  | misuse (m : Misuse)
  deriving DecidableEq, Repr

abbrev Lower := EStateM LowerError Lowering

namespace Lower

def build {α : Type} (step : Build α) : Lower α := fun s =>
  match step s.builder with
  | .ok a b => .ok a { s with builder := b }
  | .error e b => .error (.misuse e) { s with builder := b }

def reject {α : Type} (e : CompileError) : Lower α :=
  throw (.rejected e)

def address (name : String) : Lower Operand := do
  match (← get).scope with
  | .globals =>
    let g ← build (Builder.onModule (·.globalCell name 0))
    return .global g
  | .slots known =>
    match known.lookup name with
    | some slot => return slot
    | none =>
      let slot ← build (Builder.entrySlot name (.int 0))
      modify ({ · with scope := .slots ((name, slot) :: known) })
      return slot

/-- A truth value: whether `v` is zero, or whether it is not. Both outcomes have a block of their
own, and a phi joins them. -/
def zeroTest (v : Operand) (whenZero : Bool) : Lower Operand := do
  let onZero ← build (Builder.appendBlock "zero")
  let onNonzero ← build (Builder.appendBlock "nonzero")
  let cont ← build (Builder.appendBlock "zero.cont")
  let c ← build (Builder.compare .eq (.int 0) v)
  build (Builder.branch c onZero onNonzero)
  build (Builder.positionAt onZero)
  build (Builder.jump cont)
  build (Builder.positionAt onNonzero)
  build (Builder.jump cont)
  build (Builder.positionAt cont)
  build (Builder.phi .i1 [(.bool whenZero, onZero), (.bool !whenZero, onNonzero)])

def isNonzero (v : Operand) : Lower Operand :=
  zeroTest v false

def unary (op : UnaryOp) (v : Operand) : Lower Operand := do
  match op with
  | .negate => build (Builder.arith .sub (.int 0) v)
  | .identity => return v
  | .not =>
    let z ← zeroTest v true
    build (Builder.widen z)

def arithmetic (op : ArithOp) (l r : Operand) : Lower Operand :=
  build (Builder.arith op l r)

def logical (op : ArithOp) (l r : Operand) : Lower Operand := do
  let l ← isNonzero l
  let r ← isNonzero r
  let both ← build (Builder.arith op l r)
  build (Builder.widen both)

def comparison (op : CmpOp) (l r : Operand) : Lower Operand := do
  let c ← build (Builder.compare op l r)
  build (Builder.widen c)

def binary (op : BinaryOp) (l r : Operand) : Lower Operand := do
  match op with
  | .add => arithmetic .add l r
  | .sub => arithmetic .sub l r
  | .mul => arithmetic .mul l r
  | .div => arithmetic .div l r
  | .mod => arithmetic .rem l r
  | .and => logical .and l r
  | .or => logical .or l r
  | .pow =>
    let f ← build (Builder.onModule (·.declare Machine.powerSymbol 2 false))
    build (Builder.call f [l, r])
  | .in_ | .notIn => reject (.unsupported op)
  | .lt => comparison .lt l r
  | .gt => comparison .gt l r
  | .le => comparison .le l r
  | .ge => comparison .ge l r
  | .eq => comparison .eq l r
  | .ne => comparison .ne l r

/-- The function a call names. Only functions of the program can be called by name. -/
def resolve (name : String) (given : Nat) : Lower FuncId := do
  let m := (← get).builder.module
  match (m.find? name).bind fun id => (m.function? id).map (id, ·) with
  | none => reject (.unknownFunction name)
  | some (id, f) =>
    if f.synthetic then reject (.unknownFunction name)
    else if given = f.paramCount || (f.variadic && f.paramCount ≤ given) then return id
    else reject (.argumentCount name f.paramCount given)

mutual

def expr : Expr → Lower Operand
  | .number value => return .int value
  | .var name => do
    let slot ← address name
    build (Builder.load slot)
  | .unary op operand => do
    let v ← expr operand
    unary op v
  | .binary op lhs rhs => do
    let l ← expr lhs
    let r ← expr rhs
    binary op l r
  | .call callee args => do
    let f ← resolve callee args.length
    let vs ← exprs args
    build (Builder.call f vs)

def exprs : List Expr → Lower (List Operand)
  | [] => return []
  | e :: es => do
    let v ← expr e
    let vs ← exprs es
    return v :: vs

end

/-- Branches on a condition and goes on in the block for `true`. Gives the block for `false`. -/
def test (cond : Expr) : Lower BlockId := do
  let v ← expr cond
  let c ← isNonzero v
  let onTrue ← build (Builder.appendBlock "if.then")
  let onFalse ← build (Builder.appendBlock "if.else")
  build (Builder.branch c onTrue onFalse)
  build (Builder.positionAt onTrue)
  return onFalse

mutual

def stmt : Stmt → Lower Unit
  | .assign target value => do
    let slot ← address target
    let v ← expr value
    build (Builder.store v slot)
  | .eval value => do
    let _ ← expr value
  | .branch cond body elifs otherwise => do
    let cont ← build (Builder.appendBlock "if.end")
    let next ← test cond
    stmts body
    build (Builder.jump cont)
    build (Builder.positionAt next)
    arms elifs cont
    stmts otherwise
    build (Builder.jump cont)
    build (Builder.positionAt cont)
  | .loop cond body => do
    let head ← build (Builder.appendBlock "while.cond")
    let work ← build (Builder.appendBlock "while.body")
    let after ← build (Builder.appendBlock "while.end")
    build (Builder.jump head)
    build (Builder.positionAt head)
    let v ← expr cond
    let c ← isNonzero v
    build (Builder.branch c work after)
    build (Builder.positionAt work)
    stmts body
    build (Builder.jump head)
    build (Builder.positionAt after)
  | .print args => do
    let f ← build (Builder.onModule (·.declare Machine.printSymbol 1 true))
    let vs ← exprs args
    let _ ← build (Builder.call f (.int (Int32.ofNat args.length) :: vs))
  | .ret value => do
    let v ← expr value
    build (Builder.ret v)
    let dead ← build (Builder.appendBlock "after.ret")
    build (Builder.positionAt dead)
  | .pass => return ()

def stmts : List Stmt → Lower Unit
  | [] => return ()
  | s :: ss => do
    stmt s
    stmts ss

/-- The arms of a branch after the first. Each tests in the block where the one before failed. -/
def arms : List (Expr × List Stmt) → BlockId → Lower Unit
  | [], _ => return ()
  | (cond, body) :: rest, cont => do
    let next ← test cond
    stmts body
    build (Builder.jump cont)
    build (Builder.positionAt next)
    arms rest cont

end

def parameters : List String → Nat → Lower Unit
  | [], _ => return ()
  | name :: names, i => do
    let slot ← build (Builder.entrySlot name (.param i))
    modify fun s => match s.scope with
      | .slots known => { s with scope := .slots ((name, slot) :: known) }
      | .globals => s
    parameters names (i + 1)

/-- A whole body: the entry block, the parameters, the statements, and a final return of zero. -/
def body (params : List String) (ss : List Stmt) : Lower Unit := do
  let entry ← build (Builder.appendBlock "entry")
  build (Builder.positionAt entry)
  parameters params 0
  stmts ss
  build (Builder.ret (.int 0))

end Lower

/-- Lowers a body into a function of a module. What has been built stays there even if lowering
stops. -/
def lowerBody (m : Module) (f : FuncId) (scope : Scope) (params : List String) (ss : List Stmt) :
    Except LowerError Unit × Module :=
  match Lower.body params ss ⟨{ module := m, function := f }, scope⟩ with
  | .ok _ s => (.ok (), s.builder.module)
  | .error e s => (.error e, s.builder.module)

end IntLang
