import IntLang.Diagnostic
import IntLang.Text.Escape
import IntLang.Text.Line

/-! Tokens, their spelling, and how messages name them. -/
namespace IntLang
open IntLang.Text

inductive Keyword where
  | and | def_ | elif | else_ | endDef | endFor | endIf | endWhile | extern_
  | for_ | if_ | in_ | not | or | pass | print | return_ | while_
  deriving DecidableEq, Repr

namespace Keyword

def all : List Keyword :=
  [and, def_, elif, else_, endDef, endFor, endIf, endWhile, extern_,
   for_, if_, in_, not, or, pass, print, return_, while_]

def spelling : Keyword → String
  | and => "and"
  | def_ => "def"
  | elif => "elif"
  | else_ => "else"
  | endDef => "enddef"
  | endFor => "endfor"
  | endIf => "endif"
  | endWhile => "endwhile"
  | extern_ => "extern"
  | for_ => "for"
  | if_ => "if"
  | in_ => "in"
  | not => "not"
  | or => "or"
  | pass => "pass"
  | print => "print"
  | return_ => "return"
  | while_ => "while"

def ofWord? (w : String) : Option Keyword :=
  all.find? (·.spelling == w)

theorem mem_all (k : Keyword) : k ∈ all := by
  cases k <;> decide

theorem ofWord?_spelling (k : Keyword) : ofWord? k.spelling = some k := by
  cases k <;> decide

end Keyword

inductive Symbol where
  | lparen | rparen | colon | semicolon | comma
  | equal | eqEq | notEq | less | lessEq | greater | greaterEq
  | plus | minus | star | starStar | slash | percent
  deriving DecidableEq, Repr

def Symbol.spelling : Symbol → String
  | lparen => "("
  | rparen => ")"
  | colon => ":"
  | semicolon => ";"
  | comma => ","
  | equal => "="
  | eqEq => "=="
  | notEq => "!="
  | less => "<"
  | lessEq => "<="
  | greater => ">"
  | greaterEq => ">="
  | plus => "+"
  | minus => "-"
  | star => "*"
  | starStar => "**"
  | slash => "/"
  | percent => "%"

inductive LexError where
  | unexpectedChar (c : Char)
  | bangWithoutEq (next : Option Char)
  | embeddedNull
  | integerTooLarge
  | unreadable (e : ReadError)
  deriving DecidableEq, Repr

def LexError.message : LexError → String
  | .unexpectedChar c => "Unexpected character '" ++ escape c ++ "'"
  | .bangWithoutEq (some c) => "Unexpected character '" ++ escape c ++ "' after '!'"
  | .bangWithoutEq none => "Unexpected end of input after '!'"
  | .embeddedNull => "Unexpected embedded null character"
  | .integerTooLarge => "Integer constant is too large"
  | .unreadable e => "Failed to read input: " ++ e.message

inductive Token where
  | ident (name : String)
  | number (value : Int32)
  | keyword (k : Keyword)
  | symbol (s : Symbol)
  | invalid (e : LexError)
  | endOfFile
  deriving DecidableEq, Repr

namespace Token

def describe : Token → String
  | ident name => "identifier '" ++ name ++ "'"
  | number value => s!"number {value.toInt}"
  | keyword k => "'" ++ k.spelling ++ "'"
  | symbol s => "'" ++ s.spelling ++ "'"
  | invalid e => "invalid token (" ++ e.message ++ ")"
  | endOfFile => "end of file"

def isKeyword : Token → Bool
  | keyword _ => true
  | _ => false

end Token

structure Lexeme where
  token : Token
  position : Position
  deriving DecidableEq, Repr

def LexError.diagnostic (e : LexError) (p : Position) : Diagnostic :=
  ⟨.lexical, e.message, some p⟩

end IntLang
