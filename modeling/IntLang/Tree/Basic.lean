/-! Syntax trees. Every value of the language is a 32-bit signed integer, so expressions carry no
types. -/
namespace IntLang

inductive UnaryOp where
  | negate | identity | not
  deriving DecidableEq, Repr

def UnaryOp.symbol : UnaryOp → String
  | negate => "neg"
  | identity => "pos"
  | not => "not"

inductive BinaryOp where
  | or | and | lt | gt | le | ge | eq | ne | in_ | notIn | add | sub | mul | div | mod | pow
  deriving DecidableEq, Repr

namespace BinaryOp

def all : List BinaryOp :=
  [or, and, lt, gt, le, ge, eq, ne, in_, notIn, add, sub, mul, div, mod, pow]

def symbol : BinaryOp → String
  | or => "or"
  | and => "and"
  | lt => "<"
  | gt => ">"
  | le => "<="
  | ge => ">="
  | eq => "=="
  | ne => "!="
  | in_ => "in"
  | notIn => "not in"
  | add => "+"
  | sub => "-"
  | mul => "*"
  | div => "/"
  | mod => "%"
  | pow => "**"

def isComparison : BinaryOp → Bool
  | lt | gt | le | ge | eq | ne | in_ | notIn => true
  | _ => false

end BinaryOp

inductive Expr where
  | number (value : Int32)
  | var (name : String)
  | unary (op : UnaryOp) (operand : Expr)
  | binary (op : BinaryOp) (lhs rhs : Expr)
  | call (callee : String) (args : List Expr)
  deriving Repr, Inhabited

/-- Statements. A branch has its first arm, any number of further arms, and a last resort that is
empty when it is not written. -/
inductive Stmt where
  | assign (target : String) (value : Expr)
  | eval (value : Expr)
  | branch (cond : Expr) (body : List Stmt) (elifs : List (Expr × List Stmt))
      (otherwise : List Stmt)
  | loop (cond : Expr) (body : List Stmt)
  | print (args : List Expr)
  | ret (value : Expr)
  | pass
  deriving Repr, Inhabited

structure FunctionDef where
  name : String
  params : List String
  body : List Stmt
  exported : Bool
  deriving Repr, Inhabited

/-- An exported definition without a body only declares that the function exists elsewhere. -/
def FunctionDef.isDeclaration (f : FunctionDef) : Bool :=
  f.exported && f.body.isEmpty

inductive Item where
  | function (f : FunctionDef)
  | statement (s : Stmt)
  deriving Repr, Inhabited

abbrev Program := List Item

namespace Program

def functions (p : Program) : List FunctionDef :=
  p.filterMap fun
    | .function f => some f
    | .statement _ => none

def statements (p : Program) : List Stmt :=
  p.filterMap fun
    | .statement s => some s
    | .function _ => none

end Program
end IntLang
