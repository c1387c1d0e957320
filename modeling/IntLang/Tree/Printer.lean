import IntLang.Tree.Basic

/-! The parenthesised form of a syntax tree, one top-level item to a line. -/
namespace IntLang

mutual

def Expr.render : Expr → String
  | .number value => toString value.toInt
  | .var name => name
  | .unary op operand => "(" ++ op.symbol ++ " " ++ operand.render ++ ")"
  | .binary op lhs rhs => "(" ++ op.symbol ++ " " ++ lhs.render ++ " " ++ rhs.render ++ ")"
  | .call callee args => "(call " ++ callee ++ Expr.renderArgs args ++ ")"

def Expr.renderArgs : List Expr → String
  | [] => ""
  | e :: es => " " ++ e.render ++ Expr.renderArgs es

end

mutual

def Stmt.render : Stmt → String
  | .assign target value => "(= " ++ target ++ " " ++ value.render ++ ")"
  | .eval value => "(expr " ++ value.render ++ ")"
  | .branch cond body elifs otherwise =>
    "(if " ++ cond.render ++ " (" ++ Stmt.renderBlock body ++ ")" ++ Stmt.renderElifs elifs ++
      (if otherwise.isEmpty then "" else " (else (" ++ Stmt.renderBlock otherwise ++ "))") ++ ")"
  | .loop cond body => "(while " ++ cond.render ++ " (" ++ Stmt.renderBlock body ++ "))"
  | .print args => "(print" ++ Expr.renderArgs args ++ ")"
  | .ret value => "(return " ++ value.render ++ ")"
  | .pass => "(pass)"

def Stmt.renderBlock : List Stmt → String
  | [] => ""
  | s :: ss => s.render ++ (if ss.isEmpty then "" else " ") ++ Stmt.renderBlock ss

def Stmt.renderElifs : List (Expr × List Stmt) → String
  | [] => ""
  | (cond, body) :: es =>
    " (elif " ++ cond.render ++ " (" ++ Stmt.renderBlock body ++ "))" ++ Stmt.renderElifs es

end

def FunctionDef.render (f : FunctionDef) : String :=
  (if f.exported then "(extern def " else "(def ") ++ f.name ++
    " (" ++ " ".intercalate f.params ++ ") (" ++ Stmt.renderBlock f.body ++ "))"

def Item.render : Item → String
  | .function f => f.render
  | .statement s => s.render

def Program.render : Program → String
  | [] => ""
  | i :: is => i.render ++ "\n" ++ Program.render is

end IntLang
