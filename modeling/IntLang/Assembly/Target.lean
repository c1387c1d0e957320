/-! Target platforms: the conventions of their object formats. -/
namespace IntLang.Assembly

inductive Target where
  | darwin | linux
  deriving DecidableEq, Repr

namespace Target

def all : List Target := [darwin, linux]

def host : Target := linux

def name : Target → String
  | darwin => "x86_64_darwin"
  | linux => "x86_64_linux"

def ofName? (s : String) : Option Target :=
  all.find? (·.name == s)

def triple : Target → String
  | darwin => "x86_64-apple-darwin"
  | linux => "x86_64-unknown-linux-gnu"

def symbolMark : Target → String
  | darwin => "_"
  | linux => ""

def privateMark : Target → String
  | darwin => "L"
  | linux => ".L"

/-- What follows the symbol in a call to a function that is defined elsewhere. -/
def foreignMark : Target → String
  | darwin => ""
  | linux => "@PLT"

def opening : Target → String
  | darwin => ".att_syntax\n"
  | linux => ".att_syntax\n.section .note.GNU-stack,\"\",@progbits\n"

def codeSection : Target → String
  | darwin => "__TEXT,__text,regular,pure_instructions"
  | linux => ".text"

def dataSection : Target → String
  | darwin => "__DATA,__data"
  | linux => ".data"

def weakDirective : Target → String
  | darwin => ".weak_reference"
  | linux => ".weak"

end Target
end IntLang.Assembly
