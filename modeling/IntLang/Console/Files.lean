import IntLang.Text.Utf8

/-! Files and directories as a command sees them, and paths into them. A path is followed step by
step from the working directory, and the first step that cannot be taken decides the error. -/
namespace IntLang.Console

inductive FileError where
  | notFound
  | notDirectory
  | isDirectory
  | nameTooLong
  | invalidUtf8
  | other (text : String)
  deriving DecidableEq, Repr

def FileError.message : FileError → String
  | notFound => "No such file or directory (os error 2)"
  | notDirectory => "Not a directory (os error 20)"
  | isDirectory => "Is a directory (os error 21)"
  | nameTooLong => "File name too long (os error 36)"
  | invalidUtf8 => "stream did not contain valid UTF-8"
  | other text => text

structure Path where
  text : String
  deriving DecidableEq, Repr

namespace Path

def maxBytes : Nat := 4095

def maxNameBytes : Nat := 255

def cut : List Char → List (List Char)
  | [] => [[]]
  | c :: cs =>
    if c = '/' then [] :: cut cs
    else
      match cut cs with
      | [] => [[c]]
      | l :: ls => (c :: l) :: ls

/-- The steps of a path. Slashes that follow each other count as one. -/
def steps (p : Path) : List String :=
  ((cut p.text.toList).map String.ofList).filter (· ≠ "")

/-- The last step. A path without steps stays where it is. -/
def lastStep (p : Path) : String :=
  p.steps.getLastD "."

def endsInSlash (p : Path) : Bool :=
  p.text.toList.getLast? = some '/'

def namesDirectory (p : Path) : Bool :=
  p.endsInSlash || p.lastStep = "." || p.lastStep = ".."

def fileName? (p : Path) : Option String :=
  match (p.steps.filter (· ≠ ".")).getLast? with
  | some s => if s = ".." then none else some s
  | none => none

/-- A name cut at its last dot. A name without a dot, or with its only dot in front, has no second
part. -/
def cutExtension (name : List Char) : List Char × Option (List Char) :=
  let after := name.reverse.takeWhile (· ≠ '.')
  match name.reverse.dropWhile (· ≠ '.') with
  | [] => (name, none)
  | _ :: before => if before.isEmpty then (name, none) else (before.reverse, some after.reverse)

/-- The path with another extension, if its file name has one. Where only two dots are left once the
old extension is gone, they lead upwards and take no other. -/
def withExtension? (p : Path) (extension : String) : Option Path := do
  let name ← p.fileName?
  let (stem, old) := cutExtension name.toList
  let old ← old
  let text := p.text.toList
  let kept := String.ofList (text.take (text.length - old.length))
  return ⟨if stem = ['.'] then kept else kept ++ extension⟩

end Path

inductive Node where
  | directory
  | file (bytes : List UInt8)
  deriving DecidableEq, Repr

/-- Where something is, by the names that lead to it from the working directory. A place outside
starts with a step upwards for each level above. -/
abbrev Location := List String

namespace Location

def parent (here : Location) : Location :=
  match here.getLast? with
  | none => [".."]
  | some name => if name = ".." then here ++ [".."] else here.dropLast

def step (here : Location) (s : String) : Except FileError Location :=
  if s = "." then .ok here
  else if s = ".." then .ok here.parent
  else if Path.maxNameBytes < s.utf8ByteSize then .error .nameTooLong
  else .ok (here ++ [s])

end Location

/-- Files and directories by their places. Of what is outside the working directory only the
directories above it are known. -/
abbrev Files := List (Location × Node)

namespace Files

/-- What a place holds. A place on the way to another one is a directory. -/
def node? (fs : Files) (place : Location) : Option Node :=
  match fs.lookup place with
  | some n => some n
  | none =>
    if place.all (· = "..") || fs.any (fun (q, _) => place.isPrefixOf q) then some .directory
    else none

def walk (fs : Files) (here : Location) : List String → Except FileError Location
  | [] => .ok here
  | s :: rest => do
    let next ← here.step s
    match fs.node? next with
    | some .directory => walk fs next rest
    | some (.file _) => .error .notDirectory
    | none => .error .notFound

def base (fs : Files) (p : Path) : Except FileError Location :=
  if Path.maxBytes < p.text.utf8ByteSize then .error .nameTooLong
  else fs.walk [] p.steps.dropLast

def read (fs : Files) (p : Path) : Except FileError (List UInt8) := do
  let here ← fs.base p
  match fs.node? (← here.step p.lastStep) with
  | some (.file bytes) => if p.endsInSlash then .error .notDirectory else .ok bytes
  | some .directory => .error .isDirectory
  | none => .error .notFound

def readText (fs : Files) (p : Path) : Except FileError (List Char) := do
  match Text.Utf8.decode? (← fs.read p) with
  | some cs => .ok cs
  | none => .error .invalidUtf8

def put (fs : Files) (place : Location) (bytes : List UInt8) : Files :=
  (place, .file bytes) :: fs.filter (·.1 ≠ place)

/-- The place where a path puts a file. What is written like a directory is refused before anything
is looked up in its base. -/
def target (fs : Files) (p : Path) : Except FileError Location := do
  let here ← fs.base p
  if p.namesDirectory then .error .isDirectory else here.step p.lastStep

def write (fs : Files) (p : Path) (bytes : List UInt8) : Except FileError Files := do
  let place ← fs.target p
  match fs.node? place with
  | some .directory => .error .isDirectory
  | _ => .ok (fs.put place bytes)

/-- Removes a file. What cannot be removed stays. -/
def remove (fs : Files) (p : Path) : Files :=
  match fs.target p with
  | .error _ => fs
  | .ok place =>
    match fs.node? place with
    | some (.file _) => fs.filter (·.1 ≠ place)
    | _ => fs

end Files
end IntLang.Console
