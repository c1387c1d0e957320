import IntLang.Console.Compile

/-! The command line. The first word names the program, `garterc` or `garteri`; the others are its
own. -/
namespace IntLang.Console

def ampleSteps : Nat := 4611686018427387904

/-- Whether a system code is `n`. It comes with either sign. -/
def isCode (code n : UInt32) : Bool :=
  code = n || 0 - code = n

def FileError.ofIO : IO.Error → FileError
  | .noFileOrDirectory .. => .notFound
  | .inappropriateType _ code _ => if isCode code 20 then .notDirectory else .isDirectory
  | .invalidArgument file code details =>
    if isCode code 36 then .nameTooLong else .other (toString (IO.Error.invalidArgument file code details))
  | e => .other (toString e)

partial def readLineBytes (input : IO.FS.Stream) (line : Array UInt8) : IO (List UInt8) := do
  let bytes ← input.read 1
  match bytes.toList with
  | [] => return line.toList
  | b :: _ =>
    if b = Text.newline then return (line.push b).toList
    else readLineBytes input (line.push b)

/-- The events of the next line of a stream; `none` at its end. -/
def nextLine (input : IO.FS.Stream) : IO (Option (List Event)) := do
  try
    let line ← readLineBytes input #[]
    return if line.isEmpty then none else some (Source.lineEvents line)
  catch _ => return some [.request, .broken .isDirectory]

def showPrompts (interactive : Bool) (shown wanted : Nat) : IO Unit := do
  if interactive then
    let out ← IO.getStdout
    out.putStr (String.join (List.replicate (wanted - shown) Repl.prompt))
    out.flush

/-- Reads, executes and reports item by item. A line is read from the stream only when the next item
cannot do without it. -/
partial def converse (input : IO.FS.Stream) (interactive ended : Bool) (shown : Nat) (p : Parser)
    (s : Session) : IO UInt32 := do
  let q := Repl.afterItem p
  if !ended && Repl.starved p q then
    let wanted := p.source.requests + p.source.pending.count .request + 1
    showPrompts interactive shown wanted
    match ← nextLine input with
    | none => converse input interactive true (max shown wanted) p s
    | some es => converse input interactive false (max shown wanted) (Repl.feed p es) s
  else
    showPrompts interactive shown q.source.requests
    match Repl.turn ampleSteps p s with
    | none => return 1
    | some (.ended _) =>
      if interactive then IO.println ""
      return 0
    | some (.stopped _ d) =>
      IO.eprint (report none d)
      return 1
    | some (.executed q s printed failure) =>
      IO.print printed
      (← IO.getStdout).flush
      if let some d := failure then IO.eprint (report none d)
      converse input interactive ended (max shown q.source.requests) q s

def interpret (args : List String) : IO UInt32 := do
  match replFile? args with
  | none =>
    IO.eprintln "usage: garteri [FILE]"
    return 2
  | some none =>
    let input ← IO.getStdin
    let interactive ← input.isTty
    if interactive then IO.print Repl.banner
    converse input interactive false 0 { source := Source.ofText [] } Repl.start
  | some (some p) =>
    try
      let handle ← IO.FS.Handle.mk p.text .read
      converse (IO.FS.Stream.ofHandle handle) false false 0 { source := Source.ofText [] } Repl.start
    catch e =>
      IO.eprint (report none (Repl.readFailure p (FileError.ofIO e)))
      return 1

/-- Writes an artifact. No other program is started from here, so that object files are refused. -/
def deliverHere (assembler : String) (x : Artifact) : IO (Except CommandError Unit) := do
  match x.assembleFor with
  | some _ =>
    try IO.FS.removeFile x.path.text catch _ => pure ()
    return .error (.cannotRun assembler (.other "Operation not permitted (os error 1)"))
  | none =>
    try
      IO.FS.writeFile x.path.text x.text
      return .ok ()
    catch e => return .error (.cannotWrite x.path (FileError.ofIO e))

def readSource (p : Path) : IO (Except FileError (List Char)) := do
  try
    let bytes ← IO.FS.readBinFile p.text
    match Text.Utf8.decode? bytes.toList with
    | some cs => return .ok cs
    | none => return .error .invalidUtf8
  catch e => return .error (FileError.ofIO e)

def compileHere (args : List String) : IO UInt32 := do
  match CompileOptions.ofArgs? args with
  | none =>
    IO.eprintln ("usage: garterc [-o OUTPUT] [--emit obj|asm|ir|ast] " ++
      "[--target x86_64_darwin|x86_64_linux] [-v] FILE")
    return 2
  | some o =>
    match ← readSource o.file with
    | .error e =>
      IO.eprint (report none (Repl.readFailure o.file e))
      return 1
    | .ok source =>
      let (made, said) := o.make source
      IO.eprint said
      match made with
      | .error d =>
        IO.eprint (report (some source) d)
        return 1
      | .ok x =>
        let assembler := (← IO.getEnv "GARTER_CC").getD "cc"
        match ← deliverHere assembler x with
        | .ok _ =>
          IO.eprint (o.farewell x.path)
          return 0
        | .error e =>
          IO.eprint (report (some source) e.diagnostic)
          return 1

end IntLang.Console

def main (args : List String) : IO UInt32 :=
  match args with
  | "garterc" :: rest => IntLang.Console.compileHere rest
  | "garteri" :: rest => IntLang.Console.interpret rest
  | _ => do
    IO.eprintln "usage: garterc ARGUMENTS | garteri ARGUMENTS"
    return 2
