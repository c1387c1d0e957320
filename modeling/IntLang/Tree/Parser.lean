import IntLang.Token.Scan
import IntLang.Tree.Basic

/-! Parsing. A parser reads its source one token at a time, holds at most the current token and the
one after it, and reads neither before a rule has to look at it. A failed parse leaves the parser
where it stopped.

Rules that repeat or nest take a bound on how often they do so. Each repetition and each level of
nesting uses up a token, so the number of events left in the source is always enough. -/
namespace IntLang

inductive Expected where
  | keyword (k : Keyword)
  | symbol (s : Symbol)
  | functionName
  | parameterName
  | endOfParameters
  | colonAfterSignature
  | statement
  | endOfReturn
  | endOfPass
  | assignmentTarget
  | endOfAssignment
  | endOfExpression
  | colonAfterCondition
  | colonAfterElse
  | endOfPrint
  | expression
  | identifier
  | endOfArguments
  deriving DecidableEq, Repr

def Expected.describe : Expected → String
  | keyword k => (Token.keyword k).describe
  | symbol s => (Token.symbol s).describe
  | functionName => "function name after 'def'"
  | parameterName => "parameter name"
  | endOfParameters => "',' or ')' in parameter list"
  | colonAfterSignature => "':' after function signature"
  | statement => "statement"
  | endOfReturn => "';' after return value"
  | endOfPass => "';' after 'pass'"
  | assignmentTarget => "assignment target"
  | endOfAssignment => "';' after assignment"
  | endOfExpression => "';' after expression"
  | colonAfterCondition => "':' after condition"
  | colonAfterElse => "':' after 'else'"
  | endOfPrint => "',' or ';' in print statement"
  | expression => "expression"
  | identifier => "identifier"
  | endOfArguments => "',' or ')' in argument list"

inductive ParseError where
  | invalid (e : LexError) (position : Position)
  | mismatch (expected : Expected) (found : Token) (position : Position)
  | duplicateParameter (param function : String) (position : Position)
  | tooDeep
  deriving DecidableEq, Repr

def ParseError.diagnostic : ParseError → Diagnostic
  | invalid e p => e.diagnostic p
  | mismatch expected found p =>
    ⟨.syntactic, "Expected " ++ expected.describe ++ ", found " ++ found.describe, some p⟩
  | duplicateParameter param function p =>
    ⟨.syntactic, "Duplicate parameter '" ++ param ++ "' in function '" ++ function ++ "'", some p⟩
  | tooDeep => ⟨.syntactic, "Nesting too deep", none⟩

structure Parser where
  source : Source
  current : Option Lexeme := none
  lookahead : Option Lexeme := none
  finished : Bool := false
  deriving Repr

abbrev Parse := EStateM ParseError Parser

namespace Parser

def bound (p : Parser) : Nat :=
  p.source.size + 8

def fetch : Parse Lexeme := fun p =>
  match p.lookahead with
  | some l => .ok l { p with lookahead := none }
  | none => let (l, s) := p.source.nextLexeme; .ok l { p with source := s }

def valid (l : Lexeme) : Parse Lexeme :=
  match l.token with
  | .invalid e => throw (.invalid e l.position)
  | _ => pure l

def takeCurrent : Parse Lexeme := do
  match (← get).current with
  | some l => modify ({ · with current := none }); return l
  | none => fetch

def current? : Parse Lexeme := do
  let l ← takeCurrent
  modify ({ · with current := some l })
  valid l

def peek : Parse Lexeme := do
  let _ ← current?
  let l ← fetch
  modify ({ · with lookahead := some l })
  valid l

def bump : Parse Lexeme := do
  valid (← takeCurrent)

def check (t : Token) : Parse Bool := do
  return (← current?).token = t

/-- Takes the current token if it is `t`. -/
def eat (t : Token) : Parse Bool := do
  if ← check t then
    let _ ← bump
    return true
  else return false

def unexpected {α : Type} (e : Expected) : Parse α := do
  let l ← current?
  throw (.mismatch e l.token l.position)

/-- Takes the current token, which must be `t`. -/
def expect (t : Token) (e : Expected) : Parse Unit := do
  if ← check t then
    let _ ← bump
  else unexpected e

def expectSymbol (s : Symbol) (e : Expected) : Parse Unit :=
  expect (.symbol s) e

def expectKeyword (k : Keyword) : Parse Unit :=
  expect (.keyword k) (.keyword k)

def expectIdent (e : Expected) : Parse String := do
  let l ← bump
  match l.token with
  | .ident name => return name
  | t => throw (.mismatch e t l.position)

/-- Expressions with commas between them. Here and below `inner` is the rule for a whole expression. -/
def exprList (inner : Parse Expr) : Nat → Parse (List Expr)
  | 0 => throw .tooDeep
  | n + 1 => do
    let e ← inner
    if ← eat (.symbol .comma) then
      let es ← exprList inner n
      return e :: es
    else return [e]

def callArgs (inner : Parse Expr) (n : Nat) : Parse (List Expr) := do
  if ← eat (.symbol .rparen) then return []
  else
    let args ← exprList inner n
    expectSymbol .rparen .endOfArguments
    return args

def primary (inner : Parse Expr) (n : Nat) : Parse Expr := do
  match (← current?).token with
  | .number value =>
    let _ ← bump
    return .number value
  | .ident _ =>
    let name ← expectIdent .identifier
    if ← eat (.symbol .lparen) then
      let args ← callArgs inner n
      return .call name args
    else return .var name
  | .symbol .lparen =>
    let _ ← bump
    let e ← inner
    expectSymbol .rparen (.symbol .rparen)
    return e
  | _ => unexpected .expression

def signOf : Token → Option UnaryOp
  | .symbol .minus => some .negate
  | .symbol .plus => some .identity
  | _ => none

/-- Signs, then `primary` or `primary ** unary`: a power binds tighter than a sign before it, and
its exponent may have a sign of its own. -/
def unary (inner : Parse Expr) : Nat → Parse Expr
  | 0 => throw .tooDeep
  | n + 1 => do
    match signOf (← current?).token with
    | some op =>
      let _ ← bump
      let e ← unary inner n
      return .unary op e
    | none =>
      let base ← primary inner n
      if ← eat (.symbol .starStar) then
        let exponent ← unary inner n
        return .binary .pow base exponent
      else return base

abbrev OperatorRule := Parse (Option BinaryOp)

def leftAssocFrom (operator : OperatorRule) (operand : Parse Expr) : Nat → Expr → Parse Expr
  | 0, _ => throw .tooDeep
  | n + 1, lhs => do
    match ← operator with
    | some op =>
      let rhs ← operand
      leftAssocFrom operator operand n (.binary op lhs rhs)
    | none => return lhs

def leftAssoc (operator : OperatorRule) (operand : Parse Expr) (n : Nat) : Parse Expr := do
  let lhs ← operand
  leftAssocFrom operator operand n lhs

def operatorBy (op : Token → Option BinaryOp) : OperatorRule := do
  match op (← current?).token with
  | some o =>
    let _ ← bump
    return some o
  | none => return none

def multiplicativeOp : Token → Option BinaryOp
  | .symbol .star => some .mul
  | .symbol .slash => some .div
  | .symbol .percent => some .mod
  | _ => none

def additiveOp : Token → Option BinaryOp
  | .symbol .plus => some .add
  | .symbol .minus => some .sub
  | _ => none

def comparisonOp : Token → Option BinaryOp
  | .symbol .less => some .lt
  | .symbol .greater => some .gt
  | .symbol .lessEq => some .le
  | .symbol .greaterEq => some .ge
  | .symbol .eqEq => some .eq
  | .symbol .notEq => some .ne
  | .keyword .in_ => some .in_
  | _ => none

/-- Comparison operators. A `not` belongs here only as the first half of `not in`. -/
def comparisonOperator : OperatorRule := do
  match (← current?).token with
  | .keyword .not =>
    if (← peek).token = .keyword .in_ then
      let _ ← bump
      let _ ← bump
      return some .notIn
    else return none
  | _ => operatorBy comparisonOp

def andOp : Token → Option BinaryOp
  | .keyword .and => some .and
  | _ => none

def orOp : Token → Option BinaryOp
  | .keyword .or => some .or
  | _ => none

def multiplicative (inner : Parse Expr) (n : Nat) : Parse Expr :=
  leftAssoc (operatorBy multiplicativeOp) (unary inner n) n

def additive (inner : Parse Expr) (n : Nat) : Parse Expr :=
  leftAssoc (operatorBy additiveOp) (multiplicative inner n) n

def comparison (inner : Parse Expr) (n : Nat) : Parse Expr :=
  leftAssoc comparisonOperator (additive inner n) n

def negation (inner : Parse Expr) : Nat → Nat → Parse Expr
  | 0, _ => throw .tooDeep
  | m + 1, n => do
    if ← eat (.keyword .not) then
      let e ← negation inner m n
      return .unary .not e
    else comparison inner n

def conjunction (inner : Parse Expr) (n : Nat) : Parse Expr :=
  leftAssoc (operatorBy andOp) (negation inner n n) n

def disjunction (inner : Parse Expr) (n : Nat) : Parse Expr :=
  leftAssoc (operatorBy orOp) (conjunction inner n) n

/-- Expressions nested at most `n` deep. -/
def expr : Nat → Parse Expr
  | 0 => throw .tooDeep
  | n + 1 => disjunction (expr n) n

/-- A keyword that ends a block: its closer, or one that opens the next part. -/
def endsBlock (others : List Keyword) (closer : Keyword) : Token → Bool
  | .keyword k => k = closer || k ∈ others
  | _ => false

def block (statement : Parse Stmt) (others : List Keyword) (closer : Keyword) :
    Nat → Parse (List Stmt)
  | 0 => throw .tooDeep
  | n + 1 => do
    let l ← current?
    if endsBlock others closer l.token then return []
    else if l.token = .endOfFile then unexpected (.keyword closer)
    else
      let s ← statement
      let ss ← block statement others closer n
      return s :: ss

def arm (statement : Parse Stmt) (n : Nat) : Parse (Expr × List Stmt) := do
  let cond ← expr n
  expectSymbol .colon .colonAfterCondition
  let body ← block statement [.elif, .else_] .endIf n
  return (cond, body)

def elifs (statement : Parse Stmt) : Nat → Parse (List (Expr × List Stmt))
  | 0 => throw .tooDeep
  | n + 1 => do
    if ← eat (.keyword .elif) then
      let a ← arm statement n
      let rest ← elifs statement n
      return a :: rest
    else return []

def branch (statement : Parse Stmt) (n : Nat) : Parse Stmt := do
  expectKeyword .if_
  let (cond, body) ← arm statement n
  let arms ← elifs statement n
  let otherwise ← if ← eat (.keyword .else_) then do
      expectSymbol .colon .colonAfterElse
      block statement [] .endIf n
    else pure []
  expectKeyword .endIf
  return .branch cond body arms otherwise

def loop (statement : Parse Stmt) (n : Nat) : Parse Stmt := do
  expectKeyword .while_
  let cond ← expr n
  expectSymbol .colon .colonAfterCondition
  let body ← block statement [] .endWhile n
  expectKeyword .endWhile
  return .loop cond body

def print (n : Nat) : Parse Stmt := do
  expectKeyword .print
  if ← eat (.symbol .semicolon) then return .print []
  else
    let args ← exprList (expr n) n
    expectSymbol .semicolon .endOfPrint
    return .print args

def exprStatement (n : Nat) : Parse Stmt := do
  let e ← expr n
  expectSymbol .semicolon .endOfExpression
  return .eval e

/-- A statement that starts with an identifier is an assignment if `=` follows. -/
def assignment (n : Nat) : Parse Stmt := do
  if (← peek).token = .symbol .equal then
    let target ← expectIdent .assignmentTarget
    let _ ← bump
    let value ← expr n
    expectSymbol .semicolon .endOfAssignment
    return .assign target value
  else exprStatement n

def statement : Nat → Parse Stmt
  | 0 => throw .tooDeep
  | n + 1 => do
    match (← current?).token with
    | .keyword .if_ => branch (statement n) n
    | .keyword .while_ => loop (statement n) n
    | .keyword .print => print n
    | .keyword .return_ =>
      let _ ← bump
      let value ← expr n
      expectSymbol .semicolon .endOfReturn
      return .ret value
    | .keyword .pass =>
      let _ ← bump
      expectSymbol .semicolon .endOfPass
      return .pass
    | .ident _ => assignment n
    | .keyword .not => exprStatement n
    | .keyword _ => unexpected .statement
    | .endOfFile => unexpected .statement
    | _ => exprStatement n

/-- Parameter names with commas between them, none of which is in `seen`. -/
def parameters (function : String) : Nat → List String → Parse (List String)
  | 0, _ => throw .tooDeep
  | n + 1, seen => do
    let l ← current?
    let param ← expectIdent .parameterName
    if param ∈ seen then throw (.duplicateParameter param function l.position)
    else if ← eat (.symbol .comma) then
      let rest ← parameters function n (param :: seen)
      return param :: rest
    else return [param]

def function (n : Nat) : Parse FunctionDef := do
  let exported ← eat (.keyword .extern_)
  expectKeyword .def_
  let name ← expectIdent .functionName
  expectSymbol .lparen (.symbol .lparen)
  let params ← if ← check (.symbol .rparen) then pure [] else parameters name n []
  expectSymbol .rparen .endOfParameters
  expectSymbol .colon .colonAfterSignature
  let body ← block (statement n) [] .endDef n
  expectKeyword .endDef
  return { name, params, body, exported }

/-- The next function or statement, or `none` at the end of the input. -/
def item : Parse (Option Item) := do
  let n := (← get).bound
  match (← current?).token with
  | .endOfFile =>
    modify ({ · with finished := true })
    return none
  | .keyword .def_ | .keyword .extern_ =>
    let f ← function n
    return some (.function f)
  | _ =>
    let s ← statement n
    return some (.statement s)

def expression : Parse Expr := do
  expr (← get).bound

def itemsUpTo : Nat → Parse Program
  | 0 => throw .tooDeep
  | n + 1 => do
    match ← item with
    | some i =>
      let is ← itemsUpTo n
      return i :: is
    | none => return []

def program : Parse Program := do
  itemsUpTo (← get).bound

end Parser

def parseProgram (cs : List Char) : Except Diagnostic Program :=
  match Parser.program { source := Source.ofText cs } with
  | .ok p _ => .ok p
  | .error e _ => .error e.diagnostic

end IntLang
