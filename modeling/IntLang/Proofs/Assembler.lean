import IntLang.Proofs.PrintedText
import IntLang.Proofs.References

/-! Assembly text as an assembler reads it. A text is cut into lines and a line into words; the words are
looked up in tables of directives, instructions and registers. What is read from the text of a listing whose
names are words is the listing itself. -/
namespace IntLang

structure Flow.Module.NamedByWords (m : Flow.Module) : Prop where
  functions : ∀ x ∈ m.live, IsWord x.2.name.toList
  cells : ∀ g ∈ m.globals.toList, IsWord g.name.toList

namespace Assembly
open IntLang.Flow IntLang.Machine

def after? (start s : String) : Option String :=
  (start.toList.isPrefixOf? s.toList).map String.ofList

def before? (ending s : String) : Option String :=
  (ending.toList.isSuffixOf? s.toList).map String.ofList

def textRows? (s : String) : Option (List String) :=
  match (s.toList.splitOn '\n').getLast? with
  | some [] => some ((s.toList.splitOn '\n').dropLast.map String.ofList)
  | _ => none

def rowWords (s : String) : List String :=
  (s.toList.splitOn ' ').map String.ofList

def readNumber? (s : String) : Option Nat :=
  (readDigits? s.toList).filter fun n => toString n = s

def readOffset? (s : String) : Option Int :=
  match after? "-" s with
  | some digits => (readNumber? digits).map fun n : Nat => (-n : Int)
  | none => (readNumber? s).map fun n : Nat => (n : Int)

def readNumbers? (s : String) : Option (Nat × Nat) :=
  match s.toList.splitOn '_' with
  | [a, b] => do return (← readNumber? (String.ofList a), ← readNumber? (String.ofList b))
  | _ => none

def Target.private? : Target → String → Option String
  | .darwin, s => after? "L" s
  | .linux, s => after? ".L" s

def Target.public? : Target → String → Option String
  | .darwin, s => after? "_" s
  | .linux, s => some s

def readLabel? (t : Target) (s : String) : Option Label := do
  let name ← t.private? s
  match after? "BB" name, after? "edge" name, after? "var_" name with
  | some ns, _, _ => (readNumbers? ns).map fun x => .block x.1 x.2
  | _, some ns, _ => (readNumbers? ns).map fun x => .edge x.1 x.2
  | _, _, some x => some (.global x)
  | _, _, _ => none

def readReg? : String → Option Reg
  | "%eax" => some .eax
  | "%ecx" => some .ecx
  | "%edx" => some .edx
  | "%esi" => some .esi
  | "%edi" => some .edi
  | "%r8d" => some .r8d
  | "%r9d" => some .r9d
  | _ => none

/-- An immediate operand, a cell of the frame, or a cell that is addressed from the instruction. -/
def readPlace? (t : Target) (s : String) : Option Place :=
  match after? "$" s, before? "(%rbp)" s, before? "(%rip)" s with
  | some n, _, _ => (readDecimal? n.toList).map .imm
  | _, some n, _ => (readOffset? n).map .frame
  | _, _, some l =>
    match readLabel? t l with
    | some (.global x) => some (.global x)
    | _ => none
  | _, _, _ => none

def readMove? (t : Target) (source dest : String) : Option Ins :=
  match readReg? source with
  | some r => (readPlace? t dest).map (.store r)
  | none => do return .load (← readPlace? t source) (← readReg? dest)

def readCall? : Target → String → Option Ins
  | .darwin, s => (after? "_" s).map (.call · false)
  | .linux, s =>
    match before? "@PLT" s with
    | some x => some (.call x true)
    | none => some (.call s false)

def readBytes? (s : String) : Option Nat := do
  readNumber? (← after? "$" (← before? "," s))

def readPlain? : String → Option Ins
  | "cltd" => some .signExtend
  | "leave" => some .leave
  | "ret" => some .ret
  | _ => none

def readUnary? (t : Target) : String → String → Option Ins
  | "pushq", "%rbp" => some .pushFrame
  | "pushq", "%rax" => some .pushAcc
  | "idivl", "%ecx" => some .divide
  | "sete", "%al" => some (.setFlag .eq)
  | "setne", "%al" => some (.setFlag .ne)
  | "setl", "%al" => some (.setFlag .lt)
  | "setg", "%al" => some (.setFlag .gt)
  | "setle", "%al" => some (.setFlag .le)
  | "setge", "%al" => some (.setFlag .ge)
  | "je", l => (readLabel? t l).map .jumpIfZero
  | "jmp", l => (readLabel? t l).map .jump
  | "call", s => readCall? t s
  | _, _ => none

def readBinary? (t : Target) : String → String → String → Option Ins
  | "movq", "%rsp,", "%rbp" => some .setFrame
  | "subq", n, "%rsp" => (readBytes? n).map .lowerStack
  | "addq", n, "%rsp" => (readBytes? n).map .raiseStack
  | "movl", a, b => (before? "," a).bind (readMove? t · b)
  | "addl", "%ecx,", "%eax" => some (.alu .add)
  | "subl", "%ecx,", "%eax" => some (.alu .sub)
  | "imull", "%ecx,", "%eax" => some (.alu .mul)
  | "andl", "%ecx,", "%eax" => some (.alu .and)
  | "orl", "%ecx,", "%eax" => some (.alu .or)
  | "cmpl", "%ecx,", "%eax" => some .compare
  | "movzbl", "%al,", "%eax" => some .widenFlag
  | "testl", "%eax,", "%eax" => some .test
  | "xorl", "%eax,", "%eax" => some .clearAcc
  | _, _, _ => none

def readIns? (t : Target) : List String → Option Ins
  | [w] => readPlain? w
  | [w, a] => readUnary? t w a
  | [w, a, b] => readBinary? t w a b
  | _ => none

def readSection? : Target → String → Option Line
  | .darwin, "__TEXT,__text,regular,pure_instructions" => some .code
  | .darwin, "__DATA,__data" => some .data
  | .linux, ".text" => some .code
  | .linux, ".data" => some .data
  | _, _ => none

def readMark? (t : Target) (s : String) : Option Line :=
  match t.private? s with
  | some _ => (readLabel? t s).map .label
  | none => (t.public? s).map .symbol

def readData? : List String → Option Line
  | [".long", n] => (readDecimal? n.toList).map .long
  | _ => none

/-- A line by its words. Instructions and data are indented. -/
def readWords? (t : Target) : List String → Option Line
  | [s] => if s = "" then some .blank else (before? ":" s).bind (readMark? t)
  | "" :: "" :: "" :: "" :: ws => ((readIns? t ws).map .ins).or (readData? ws)
  | [".p2align", "4,", "0x90"] => some .alignCode
  | [".p2align", "2"] => some .alignData
  | [".globl", s] => (t.public? s).map .global
  | [".weak", s] => if t = .linux then some (.weak s) else none
  | [".weak_reference", s] => if t = .darwin then (after? "_" s).map .weak else none
  | [".section", s] => readSection? t s
  | _ => none

def readRow? (t : Target) (s : String) : Option Line :=
  readWords? t (rowWords s)

/-- Where calls bear no mark, the symbol is that of a function elsewhere if no line defines it. -/
def Line.resolve (t : Target) (lines : List Line) : Line → Line
  | .ins (.call s foreign) => .ins (.call s (if t = .darwin then !lines.contains (.symbol s) else foreign))
  | l => l

def Target.header : Target → List String
  | .darwin => [".att_syntax", ""]
  | .linux => [".att_syntax", ".section .note.GNU-stack,\"\",@progbits", ""]

def readText? (t : Target) (text : String) : Option (List Line) := do
  let lines ← (← t.header.isPrefixOf? (← textRows? text)).mapM (readRow? t)
  return .opening :: lines.map (Line.resolve t lines)

section Texts
variable {t : Target} {s rest : String} {l : Label}

theorem after?_eq_some {start : String} : after? start s = some rest ↔ s = start ++ rest := by
  simp only [after?, Option.map_eq_some_iff, List.isPrefixOf?_eq_some_iff_append_eq]
  constructor
  · rintro ⟨cs, hcs, rfl⟩
    rw [← String.toList_inj, String.toList_append, String.toList_ofList, hcs]
  · rintro rfl
    exact ⟨rest.toList, by simp, String.ofList_toList⟩

theorem before?_eq_some {ending : String} : before? ending s = some rest ↔ s = rest ++ ending := by
  simp only [before?, Option.map_eq_some_iff, List.isSuffixOf?_eq_some_iff_append_eq]
  constructor
  · rintro ⟨cs, hcs, rfl⟩
    rw [← String.toList_inj, String.toList_append, String.toList_ofList, hcs]
  · rintro rfl
    exact ⟨rest.toList, by simp, String.ofList_toList⟩

theorem after?_append (start s : String) : after? start (start ++ s) = some s :=
  after?_eq_some.2 rfl

theorem before?_append (s ending : String) : before? ending (s ++ ending) = some s :=
  before?_eq_some.2 rfl

/-- A text with another first character does not begin so. -/
theorem after?_eq_none {start : String} (h : ∀ c ∈ start.toList.head?, s.toList.head? ≠ some c)
    (hne : start ≠ "") : after? start s = none := by
  rw [Option.eq_none_iff_forall_ne_some]
  intro rest hrest
  rw [after?_eq_some.1 hrest, String.toList_append] at h
  cases hs : start.toList with
  | nil => exact hne (String.toList_inj.1 hs)
  | cons c cs => exact h c (by simp [hs]) (by simp [hs])

/-- A text with another ending of the same length does not end so. -/
theorem before?_append_of_ne {a b : String} (hlen : a.toList.length = b.toList.length) (hne : a ≠ b)
    (s : String) : before? a (s ++ b) = none := by
  rw [Option.eq_none_iff_forall_ne_some]
  intro rest hrest
  have heq := congrArg String.toList (before?_eq_some.1 hrest)
  rw [String.toList_append, String.toList_append] at heq
  exact hne (String.toList_inj.1 (List.append_inj' heq hlen.symm).2.symm)

theorem rowWords_append (h : ' ' ∉ s.toList) (rest : String) :
    rowWords (s ++ (" " ++ rest)) = s :: rowWords rest := by
  have hlist : (s ++ (" " ++ rest)).toList = s.toList ++ ' ' :: rest.toList := by
    rw [String.toList_append, String.toList_append]
    rfl
  rw [rowWords, hlist, List.splitOn_append_cons_self_of_not_mem h, List.map_cons, String.ofList_toList]
  rfl

theorem readNumber?_eq_some {n : Nat} : readNumber? s = some n ↔ s = toString n := by
  have hdigits : (toString n).toList = Nat.toDigits 10 n := Nat.toList_repr
  simp only [readNumber?, Option.filter_eq_some_iff, decide_eq_true_eq]
  constructor
  · exact fun h => h.2.symm
  · rintro rfl
    exact ⟨by rw [hdigits, readDigits?_toDigits], rfl⟩

theorem readNumber?_toString (n : Nat) : readNumber? (toString n) = some n :=
  readNumber?_eq_some.2 rfl

theorem readOffset?_toString (z : Int) : readOffset? (toString z) = some z := by
  rw [Int.toString_eq_repr, Int.repr_eq_if]
  split
  · next h =>
    have hhead : ∀ c ∈ ("-" : String).toList.head?, (z.toNat.repr).toList.head? ≠ some c := by
      rintro c hc hz
      rw [Nat.toList_repr] at hz
      obtain rfl : '-' = c := Option.some.inj hc
      cases isDigit_of_mem_toDigits (List.mem_of_head? hz)
    rw [readOffset?, after?_eq_none hhead (by decide)]
    have := readNumber?_toString z.toNat
    rw [Nat.toString_eq_repr] at this
    simp [this, Int.toNat_of_nonneg h]
  · next h =>
    have := readNumber?_toString (-z).toNat
    rw [Nat.toString_eq_repr] at this
    simp only [readOffset?, after?_append, this, Option.map_some, Option.some.injEq]
    omega

theorem notMem_toDigits (n : Nat) : '_' ∉ Nat.toDigits 10 n := fun h => by
  cases isDigit_of_mem_toDigits h

theorem readNumbers?_eq_some {a b : Nat} :
    readNumbers? s = some (a, b) ↔ s = toString a ++ "_" ++ toString b := by
  have hlist (a b : String) : (a ++ "_" ++ b).toList = a.toList ++ '_' :: b.toList := by
    simp [String.toList_append]
  constructor
  · intro h
    unfold readNumbers? at h
    split at h
    · next x y hsplit =>
      obtain ⟨n, hn, h⟩ := Option.bind_eq_some_iff.1 h
      obtain ⟨k, hk, h⟩ := Option.bind_eq_some_iff.1 h
      obtain ⟨rfl, rfl⟩ := Prod.mk.inj (Option.some.inj h)
      rw [← readNumber?_eq_some.1 hn, ← readNumber?_eq_some.1 hk, ← String.toList_inj, hlist,
        String.toList_ofList, String.toList_ofList, ← @List.intercalate_splitOn _ s.toList _ _ '_', hsplit]
      simp [List.intercalate]
    · cases h
  · rintro rfl
    have hsplit : (toString a ++ "_" ++ toString b).toList.splitOn '_' =
        [(toString a).toList, (toString b).toList] := by
      rw [hlist, List.splitOn_append_cons_self_of_not_mem, List.splitOn_eq_singleton]
      · exact Nat.toList_repr ▸ notMem_toDigits b
      · exact Nat.toList_repr ▸ notMem_toDigits a
    simp only [readNumbers?, hsplit, String.ofList_toList, readNumber?_toString]
    rfl

theorem Target.private?_eq_some : t.private? s = some rest ↔ s = t.privateMark ++ rest := by
  cases t <;> exact after?_eq_some

theorem Label.render_eq (t : Target) (l : Label) : l.render t = t.privateMark ++ match l with
    | .block f b => "BB" ++ (toString f ++ "_" ++ toString b)
    | .edge f n => "edge" ++ (toString f ++ "_" ++ toString n)
    | .global x => "var_" ++ x := by
  cases l <;> simp only [Label.render, String.append_assoc]

/-- A label is read off its own text and off no other. -/
theorem readLabel?_eq_some : readLabel? t s = some l ↔ s = l.render t := by
  have hhead {a b x : String} {c d : Char} (ha : a.toList.head? = some c) (hb : b.toList.head? = some d)
      (hne : c ≠ d) : after? a (b ++ x) = none := by
    refine after?_eq_none (fun e he => ?_) (by rintro rfl; cases ha)
    rw [String.toList_append, List.head?_append, hb, ← Option.some.inj (ha.symm.trans he)]
    exact fun h => hne (Option.some.inj h).symm
  rw [Label.render_eq]
  constructor
  · intro h
    obtain ⟨name, hname, h⟩ := Option.bind_eq_some_iff.1 h
    rw [Target.private?_eq_some.1 hname]
    cases hblock : after? "BB" name with
    | some ns =>
      simp only [hblock] at h
      obtain ⟨x, hx, rfl⟩ := Option.map_eq_some_iff.1 h
      rw [after?_eq_some.1 hblock, readNumbers?_eq_some.1 hx]
    | none =>
      cases hedge : after? "edge" name with
      | some ns =>
        simp only [hblock, hedge] at h
        obtain ⟨x, hx, rfl⟩ := Option.map_eq_some_iff.1 h
        rw [after?_eq_some.1 hedge, readNumbers?_eq_some.1 hx]
      | none =>
        cases hvar : after? "var_" name with
        | some x =>
          simp only [hblock, hedge, hvar] at h
          rw [← Option.some.inj h, after?_eq_some.1 hvar]
        | none => simp only [hblock, hedge, hvar, reduceCtorEq] at h
  · rintro rfl
    rw [readLabel?, Target.private?_eq_some.2 rfl]
    cases l with
    | block f b =>
      simp only [Option.bind_eq_bind, Option.bind_some, after?_append, readNumbers?_eq_some.2 rfl,
        Option.map_some]
    | edge f n =>
      have hblock (x : String) : after? "BB" ("edge" ++ x) = none := hhead rfl rfl (by decide)
      simp only [Option.bind_eq_bind, Option.bind_some, hblock, after?_append, readNumbers?_eq_some.2 rfl,
        Option.map_some]
    | global x =>
      have hblock : after? "BB" ("var_" ++ x) = none := hhead rfl rfl (by decide)
      have hedge : after? "edge" ("var_" ++ x) = none := hhead rfl rfl (by decide)
      simp only [Option.bind_eq_bind, Option.bind_some, hblock, hedge, after?_append]

end Texts

section Renders
variable {t : Target} {s : String}

theorem readReg?_eq_some {r : Reg} : readReg? s = some r ↔ s = r.name := by
  constructor
  · intro h
    unfold readReg? at h
    split at h <;> cases h <;> rfl
  · rintro rfl
    cases r <;> rfl

/-- A place starts like none of the registers, and with a dollar sign only if it is a number. -/
theorem Place.head_render (t : Target) (p : Place) : ∃ c, (p.render t).toList.head? = some c ∧
    c ≠ '%' ∧ (c = '$' → ∃ n, p = .imm n) := by
  cases p with
  | imm n => exact ⟨'$', by simp [Place.render], by decide, fun _ => ⟨n, rfl⟩⟩
  | frame offset =>
    obtain ⟨c, cs, hcs, hc, -⟩ := exists_toString_cons offset
    refine ⟨c, by rw [Place.render, String.toList_append, hcs]; rfl, ?_, ?_⟩
    · rintro rfl
      exact absurd hc (by decide)
    · rintro rfl
      exact absurd hc (by decide)
  | global x =>
    cases t with
    | darwin => exact ⟨'L', by simp [Place.render, Label.render, Target.privateMark], by decide, by simp⟩
    | linux => exact ⟨'.', by simp [Place.render, Label.render, Target.privateMark], by decide, by simp⟩

theorem readPlace?_render (t : Target) (p : Place) : readPlace? t (p.render t) = some p := by
  have hdollar (hp : ∀ n, p ≠ .imm n) : after? "$" (p.render t) = none := by
    obtain ⟨c, hc, -, himm⟩ := p.head_render t
    refine after?_eq_none (fun d hd => ?_) (by decide)
    obtain rfl : '$' = d := Option.some.inj hd
    rw [hc]
    rintro he
    obtain ⟨n, hn⟩ := himm (Option.some.inj he)
    exact hp n hn
  cases p with
  | imm n => simp only [readPlace?, Place.render, after?_append, readDecimal?_toString, Option.map_some]
  | frame offset =>
    rw [readPlace?, hdollar (by simp)]
    simp only [Place.render, before?_append, readOffset?_toString, Option.map_some]
  | global x =>
    have hframe (x : String) : before? "(%rbp)" (x ++ "(%rip)") = none :=
      before?_append_of_ne (by decide) (by decide) x
    rw [readPlace?, hdollar (by simp)]
    simp only [Place.render, before?_append, hframe, readLabel?_eq_some.2 rfl]

theorem readReg?_render (t : Target) (p : Place) : readReg? (p.render t) = none := by
  obtain ⟨c, hc, hne, -⟩ := p.head_render t
  rw [Option.eq_none_iff_forall_ne_some]
  intro r hr
  rw [readReg?_eq_some.1 hr] at hc
  apply hne
  cases r <;> exact (Option.some.inj hc).symm

theorem readMove?_load (t : Target) (p : Place) (r : Reg) :
    readMove? t (p.render t) r.name = some (.load p r) := by
  rw [readMove?, readReg?_render, readPlace?_render, readReg?_eq_some.2 rfl]
  rfl

theorem readMove?_store (t : Target) (r : Reg) (p : Place) :
    readMove? t r.name (p.render t) = some (.store r p) := by
  rw [readMove?, readReg?_eq_some.2 rfl, readPlace?_render]
  rfl

theorem readBytes?_eq_some {n : Nat} : readBytes? s = some n ↔ s = "$" ++ toString n ++ "," := by
  simp only [readBytes?, Option.bind_eq_bind, Option.bind_eq_some_iff, before?_eq_some, after?_eq_some,
    readNumber?_eq_some]
  constructor
  · rintro ⟨a, rfl, b, rfl, rfl⟩
    rfl
  · rintro rfl
    exact ⟨_, rfl, _, rfl, rfl⟩

theorem public?_symbolMark (t : Target) (s : String) : t.public? (t.symbolMark ++ s) = some s := by
  cases t with
  | darwin => exact after?_append "_" s
  | linux => exact congrArg some (String.empty_append)

def Ins.heard (t : Target) : Ins → Ins
  | .call s foreign => .call s (foreign && t = .linux)
  | i => i

def Line.heard (t : Target) : Line → Line
  | .ins i => .ins (i.heard t)
  | l => l

theorem readCall?_render (h : IsWord s.toList) (foreign : Bool) :
    readCall? t (t.symbolMark ++ s ++ if foreign then t.foreignMark else "") =
      some ((Ins.call s foreign).heard t) := by
  have hmark : before? "@PLT" s = none := by
    rw [Option.eq_none_iff_forall_ne_some]
    intro rest hrest
    obtain ⟨c, cs, hs, hc, hcs⟩ := h
    have hat : '@' ∈ s.toList := by
      rw [before?_eq_some.1 hrest]
      simp
    rw [hs, List.mem_cons] at hat
    rcases hat with rfl | hat
    · exact absurd hc (by decide)
    · exact absurd (hcs _ hat) (by decide)
  cases t with
  | darwin =>
    cases foreign <;> simp [readCall?, Target.symbolMark, Target.foreignMark, Ins.heard, after?_append]
  | linux =>
    cases foreign <;>
      simp [readCall?, Target.symbolMark, Target.foreignMark, Ins.heard, before?_append, hmark]

end Renders

def Free (cs : List Char) (s : String) : Prop :=
  ∀ c ∈ s.toList, c ∉ cs

instance (cs : List Char) (s : String) : Decidable (Free cs s) :=
  List.decidableBAll (· ∉ cs) s.toList

section Free
variable {cs ds : List Char} {a b s : String}

theorem free_append : Free cs (a ++ b) ↔ Free cs a ∧ Free cs b := by
  simp only [Free, String.toList_append, List.mem_append, or_imp, forall_and]

theorem Free.mono (h : Free cs s) (hsub : ds ⊆ cs) : Free ds s :=
  fun c hc hd => h c hc (hsub hd)

theorem free_word (h : IsWord s.toList) : Free breaks s :=
  (unbroken_of_isWord h).2

theorem free_int (n : Int) : Free breaks (toString n) :=
  (unbroken_toString n).2

theorem free_nat (n : Nat) : Free breaks (toString n) := by
  rw [toString_natCast]
  exact free_int n

end Free

def wordEnds : List Char := [' ', '\n', ':']

def Ins.places : Ins → List Place
  | .load p _ | .store _ p => [p]
  | _ => []

/-- The words of an instruction: what they are read as, and which of them are places. -/
structure Ins.Worded (t : Target) (i : Ins) (ws : List String) : Prop where
  text : i.render t = " ".intercalate ws
  free : ∀ w ∈ ws, Free wordEnds w
  places : ∀ w ∈ ws, '(' ∈ w.toList → ∃ p ∈ i.places, w = p.render t ∨ w = p.render t ++ ","
  read : readIns? t ws = some (i.heard t)

theorem Ins.Worded.of_free {t : Target} {i : Ins} {ws : List String}
    (text : i.render t = " ".intercalate ws) (hws : ∀ w ∈ ws, Free ('(' :: wordEnds) w)
    (read : readIns? t ws = some (i.heard t)) : i.Worded t ws where
  text := text
  free w hw := (hws w hw).mono (List.subset_cons_self _ _)
  places w hw hp := absurd List.mem_cons_self (hws w hw _ hp)
  read := read

section Words
variable {m : Module} {id : FuncId} (t : Target)

theorem Label.free_render {l : Label} (h : l.Inside id) : Free breaks (l.render t) := by
  cases l with
  | block | edge =>
    simp only [Label.render, free_append, free_nat, and_true]
    cases t <;> decide
  | global => exact h.elim

theorem Reg.free_name (r : Reg) : Free breaks r.name := by
  cases r <;> decide

section Names
variable (hw : m.NamedByWords)
include hw

theorem Place.free_render {p : Place} (h : p.Known m) : Free (',' :: wordEnds) (p.render t) := by
  cases p with
  | imm n => exact free_append.2 ⟨by decide, (free_int _).mono (by decide)⟩
  | frame offset => exact free_append.2 ⟨(free_int _).mono (by decide), by decide⟩
  | global x =>
    obtain ⟨g, hmem, rfl⟩ := h
    simp only [Place.render, Label.render, free_append,
      (free_word (hw.cells g hmem)).mono (show ',' :: wordEnds ⊆ breaks by decide), and_true]
    cases t <;> decide

omit hw in
theorem Ins.worded_bytes (n : Nat) : (Ins.lowerStack n).Worded t ["subq", "$" ++ toString n ++ ",", "%rsp"] ∧
    (Ins.raiseStack n).Worded t ["addq", "$" ++ toString n ++ ",", "%rsp"] := by
  have hfree : Free ('(' :: wordEnds) ("$" ++ toString n ++ ",") := by
    simp only [free_append, (free_nat n).mono (show '(' :: wordEnds ⊆ breaks by decide)]
    decide
  have hread : readBytes? ("$" ++ toString n ++ ",") = some n := readBytes?_eq_some.2 rfl
  constructor
  · refine .of_free (String.toList_inj.1 (by simp [Ins.render])) ?_
      (congrArg (Option.map Ins.lowerStack) hread)
    simp only [List.forall_mem_cons, hfree]
    decide
  · refine .of_free (String.toList_inj.1 (by simp [Ins.render])) ?_
      (congrArg (Option.map Ins.raiseStack) hread)
    simp only [List.forall_mem_cons, hfree]
    decide

omit hw in
theorem Ins.worded_jump {l : Label} (h : l.Inside id) :
    (Ins.jump l).Worded t ["jmp", l.render t] ∧ (Ins.jumpIfZero l).Worded t ["je", l.render t] := by
  have hfree := (l.free_render t h).mono (show '(' :: wordEnds ⊆ breaks by decide)
  have hread : readLabel? t (l.render t) = some l := readLabel?_eq_some.2 rfl
  constructor
  · refine .of_free (String.toList_inj.1 (by simp [Ins.render])) ?_
      (congrArg (Option.map Ins.jump) hread)
    simp only [List.forall_mem_cons, hfree]
    decide
  · refine .of_free (String.toList_inj.1 (by simp [Ins.render])) ?_
      (congrArg (Option.map Ins.jumpIfZero) hread)
    simp only [List.forall_mem_cons, hfree]
    decide

theorem Ins.worded_load {p : Place} (h : p.Known m) (r : Reg) :
    (Ins.load p r).Worded t ["movl", p.render t ++ ",", r.name] := by
  have hname := r.free_name
  have hp := (p.free_render t hw h).mono (List.subset_cons_self _ _)
  refine ⟨String.toList_inj.1 (by simp [Ins.render]), ?_, ?_, ?_⟩
  · simp only [List.forall_mem_cons, free_append, hp, hname.mono (show wordEnds ⊆ breaks by decide)]
    decide
  · simp only [List.forall_mem_cons, List.not_mem_nil, false_implies, implies_true, and_true]
    exact ⟨fun hp => absurd hp (by decide), fun _ => ⟨p, List.mem_cons_self, .inr rfl⟩,
      fun hp => absurd (show '(' ∈ breaks by decide) (hname _ hp)⟩
  · change (before? "," (p.render t ++ ",")).bind (readMove? t · r.name) = _
    rw [before?_append, Option.bind_some, readMove?_load]
    rfl

theorem Ins.worded_store {p : Place} (h : p.Known m) (r : Reg) :
    (Ins.store r p).Worded t ["movl", r.name ++ ",", p.render t] := by
  have hname : Free ('(' :: wordEnds) (r.name ++ ",") :=
    free_append.2 ⟨r.free_name.mono (by decide), by decide⟩
  have hp := (p.free_render t hw h).mono (List.subset_cons_self _ _)
  refine ⟨String.toList_inj.1 (by simp [Ins.render]), ?_, ?_, ?_⟩
  · simp only [List.forall_mem_cons, hp, hname.mono (List.subset_cons_self _ _)]
    decide
  · simp only [List.forall_mem_cons, List.not_mem_nil, false_implies, implies_true, and_true]
    exact ⟨fun hp => absurd hp (by decide), fun hp => absurd List.mem_cons_self (hname _ hp),
      fun _ => ⟨p, List.mem_cons_self, .inl rfl⟩⟩
  · change (before? "," (r.name ++ ",")).bind (readMove? t · (p.render t)) = _
    rw [before?_append, Option.bind_some, readMove?_store]
    rfl

theorem Ins.worded_call {j : FuncId} {g : Function} (h : m.function? j = some g) (foreign : Bool) :
    (Ins.call g.name foreign).Worded t
      ["call", t.symbolMark ++ g.name ++ if foreign then t.foreignMark else ""] := by
  have hword : IsWord g.name.toList := hw.functions _ (mem_live.2 h)
  refine .of_free (String.toList_inj.1 (by simp [Ins.render])) ?_ (readCall?_render hword foreign)
  simp only [List.forall_mem_cons, free_append,
    (free_word hword).mono (show '(' :: wordEnds ⊆ breaks by decide)]
  cases t <;> cases foreign <;> decide

theorem Ins.exists_worded {i : Ins} (h : i.Fits m id) : ∃ ws, i.Worded t ws := by
  cases i with
  | pushFrame => exact ⟨["pushq", "%rbp"], .of_free rfl (by decide) rfl⟩
  | setFrame => exact ⟨["movq", "%rsp,", "%rbp"], .of_free rfl (by decide) rfl⟩
  | lowerStack n => exact ⟨_, (worded_bytes t n).1⟩
  | raiseStack n => exact ⟨_, (worded_bytes t n).2⟩
  | load p r => exact ⟨_, worded_load t hw h r⟩
  | store r p => exact ⟨_, worded_store t hw h r⟩
  | pushAcc => exact ⟨["pushq", "%rax"], .of_free rfl (by decide) rfl⟩
  | alu op => exact ⟨[op.mnemonic, "%ecx,", "%eax"], by cases op <;> exact .of_free rfl (by decide) rfl⟩
  | signExtend => exact ⟨["cltd"], .of_free rfl (by decide) rfl⟩
  | divide => exact ⟨["idivl", "%ecx"], .of_free rfl (by decide) rfl⟩
  | compare => exact ⟨["cmpl", "%ecx,", "%eax"], .of_free rfl (by decide) rfl⟩
  | setFlag op => exact ⟨[flagMnemonic op, "%al"], by cases op <;> exact .of_free rfl (by decide) rfl⟩
  | widenFlag => exact ⟨["movzbl", "%al,", "%eax"], .of_free rfl (by decide) rfl⟩
  | test => exact ⟨["testl", "%eax,", "%eax"], .of_free rfl (by decide) rfl⟩
  | clearAcc => exact ⟨["xorl", "%eax,", "%eax"], .of_free rfl (by decide) rfl⟩
  | jumpIfZero l => exact ⟨_, (worded_jump t h).2⟩
  | jump l => exact ⟨_, (worded_jump t h).1⟩
  | call s foreign =>
    obtain ⟨j, g, hj, rfl, -⟩ := h
    exact ⟨_, worded_call t hw hj foreign⟩
  | leave => exact ⟨["leave"], .of_free rfl (by decide) rfl⟩
  | ret => exact ⟨["ret"], .of_free rfl (by decide) rfl⟩

end Names
end Words

theorem rowWords_intercalate {ws : List String} (hne : ws ≠ []) (h : ∀ w ∈ ws, ' ' ∉ w.toList) :
    rowWords (" ".intercalate ws) = ws := by
  have hsplit : ([' '].intercalate (ws.map String.toList)).splitOn ' ' = ws.map String.toList :=
    List.splitOn_intercalate ' ' (by simpa using h) (by simpa using hne)
  rw [rowWords, String.toList_intercalate]
  refine (congrArg (List.map String.ofList) hsplit).trans ?_
  simp [Function.comp_def]

def Line.places : Line → List Place
  | .ins i => i.places
  | _ => []

structure Line.Worded (t : Target) (l : Line) (ws : List String) : Prop where
  text : l.render t = " ".intercalate ws ++ "\n"
  free : ∀ w ∈ ws, Free [' ', '\n'] w
  colon : l.isMark = false → ∀ w ∈ ws, ':' ∉ w.toList
  places : ∀ w ∈ ws, '(' ∈ w.toList → ∃ p ∈ l.places, w = p.render t ∨ w = p.render t ++ ","
  read : readWords? t ws = some (l.heard t)

theorem Line.Worded.of_free {t : Target} {l : Line} {ws : List String}
    (text : l.render t = " ".intercalate ws ++ "\n") (hws : ∀ w ∈ ws, Free ('(' :: wordEnds) w)
    (read : readWords? t ws = some (l.heard t)) : l.Worded t ws where
  text := text
  free w hw := (hws w hw).mono (by decide)
  colon _ w hw hc := absurd (show ':' ∈ '(' :: wordEnds by decide) (hws w hw _ hc)
  places w hw hp := absurd List.mem_cons_self (hws w hw _ hp)
  read := read

theorem Line.Worded.of_name {t : Target} {l : Line} {s : String} (text : l.render t = s ++ ":\n")
    (hmark : l.isMark) (hs : Free breaks s) (read : readMark? t s = some (l.heard t)) :
    l.Worded t [s ++ ":"] where
  text := by rw [text]; exact String.toList_inj.1 (by simp)
  free w hw := by
    rw [List.mem_singleton.1 hw]
    exact free_append.2 ⟨hs.mono (by decide), by decide⟩
  colon h := by simp [hmark] at h
  places w hw hp := by
    rw [List.mem_singleton.1 hw] at hp
    have hfree : Free ['('] (s ++ ":") := free_append.2 ⟨hs.mono (by decide), by decide⟩
    exact absurd hp (hfree _ · (by decide))
  read := by
    have hne : s ++ ":" ≠ "" := fun h => by simpa using congrArg String.toList h
    simp only [readWords?, if_neg hne, before?_append, Option.bind_some, read]

section Lines
variable {m : Module} {id : FuncId} (t : Target) (hw : m.NamedByWords)
include hw

theorem Line.worded_symbol {f : Function} (h : m.function? id = some f) :
    (Line.symbol f.name).Worded t [t.symbolMark ++ f.name ++ ":"] := by
  have hword : IsWord f.name.toList := hw.functions _ (mem_live.2 h)
  have hprivate : t.private? (t.symbolMark ++ f.name) = none := by
    cases t with
    | darwin => exact after?_eq_none (by simp [Target.symbolMark]) (by decide)
    | linux =>
      refine after?_eq_none ?_ (by decide)
      rintro c hc hhead
      obtain rfl : '.' = c := Option.some.inj hc
      obtain ⟨d, ds, hname, hd, -⟩ := hword
      rw [Target.symbolMark, String.empty_append, hname] at hhead
      rw [Option.some.inj hhead] at hd
      cases hd
  refine .of_name rfl rfl (free_append.2 ⟨by cases t <;> decide, free_word hword⟩) ?_
  rw [readMark?, hprivate, public?_symbolMark]
  rfl

theorem Line.worded_label {l : Label} (h : Line.Belongs m (.label l)) :
    (Line.label l).Worded t [l.render t ++ ":"] := by
  have hfree : Free breaks (l.render t) := by
    cases l with
    | block j _ | edge j _ => exact Label.free_render t (show Label.Inside j _ from rfl)
    | global x =>
      obtain ⟨g, hmem, rfl⟩ := h
      simp only [Label.render, free_append, free_word (hw.cells g hmem), and_true]
      cases t <;> decide
  refine .of_name rfl rfl hfree ?_
  have hread : readLabel? t (l.render t) = some l := readLabel?_eq_some.2 rfl
  rw [readMark?, hread, l.render_eq, Target.private?_eq_some.2 rfl]
  rfl

omit hw in
theorem Line.worded_ins {i : Ins} {ws : List String} (h : i.Worded t ws) :
    (Line.ins i).Worded t ("" :: "" :: "" :: "" :: ws) := by
  have hne : ws ≠ [] := by
    rintro rfl
    cases h.read
  refine ⟨?_, ?_, ?_, ?_, ?_⟩
  · obtain ⟨w, ws, rfl⟩ := List.exists_cons_of_ne_nil hne
    rw [Line.render, h.text]
    exact String.toList_inj.1 (by simp)
  · simp only [List.forall_mem_cons]
    exact ⟨by decide, by decide, by decide, by decide, fun w hw => (h.free w hw).mono (by decide)⟩
  · simp only [List.forall_mem_cons]
    exact fun _ => ⟨by decide, by decide, by decide, by decide,
      fun w hw hc => absurd (show ':' ∈ wordEnds by decide) (h.free w hw _ hc)⟩
  · intro w hw hp
    have hempty : w ≠ "" := by
      rintro rfl
      cases hp
    simp only [List.mem_cons, hempty, false_or] at hw
    exact h.places w hw hp
  · change ((readIns? t ws).map Line.ins).or (readData? ws) = _
    rw [h.read]
    rfl

theorem Line.worded_linkage {f : Function} (h : m.function? id = some f) :
    (Line.weak f.name).Worded t [t.weakDirective, t.symbolMark ++ f.name] ∧
      (Line.global f.name).Worded t [".globl", t.symbolMark ++ f.name] := by
  have hfree : Free ('(' :: wordEnds) (t.symbolMark ++ f.name) :=
    free_append.2 ⟨by cases t <;> decide, (free_word (hw.functions _ (mem_live.2 h))).mono (by decide)⟩
  constructor
  · refine .of_free (String.toList_inj.1 (by simp [Line.render])) ?_ ?_
    · simp only [List.forall_mem_cons, hfree]
      cases t <;> decide
    · cases t with
      | darwin => exact congrArg (Option.map Line.weak) (after?_append "_" f.name)
      | linux =>
        rw [Target.weakDirective, readWords?, Target.symbolMark, String.empty_append]
        rfl
  · refine .of_free (String.toList_inj.1 (by simp [Line.render])) ?_ ?_
    · simp only [List.forall_mem_cons, hfree]
      decide
    · rw [readWords?, public?_symbolMark]
      rfl

/-- Every line after the first has its words, and is read off them. -/
theorem Line.exists_worded {l : Line} (h : l.Belongs m) (hne : l ≠ .opening) : ∃ ws, l.Worded t ws := by
  cases l with
  | opening => exact absurd rfl hne
  | code => exact ⟨[".section", t.codeSection], by cases t <;> exact .of_free rfl (by decide) rfl⟩
  | data => exact ⟨[".section", t.dataSection], by cases t <;> exact .of_free rfl (by decide) rfl⟩
  | weak s =>
    obtain ⟨id, f, hid, rfl⟩ := h
    exact ⟨_, (worded_linkage t hw hid).1⟩
  | global s =>
    obtain ⟨id, f, hid, rfl⟩ := h
    exact ⟨_, (worded_linkage t hw hid).2⟩
  | alignCode => exact ⟨[".p2align", "4,", "0x90"], .of_free rfl (by decide) rfl⟩
  | alignData => exact ⟨[".p2align", "2"], .of_free rfl (by decide) rfl⟩
  | symbol s =>
    obtain ⟨id, f, hid, rfl⟩ := h
    exact ⟨_, worded_symbol t hw hid⟩
  | label l => exact ⟨_, worded_label t hw h⟩
  | ins i =>
    obtain ⟨id, hfits⟩ := h
    obtain ⟨ws, hws⟩ := i.exists_worded t hw hfits
    exact ⟨_, worded_ins t hws⟩
  | long n =>
    refine ⟨["", "", "", "", ".long", toString n.toInt], .of_free ?_ ?_ ?_⟩
    · exact String.toList_inj.1 (by simp [Line.render])
    · simp only [List.forall_mem_cons, (free_int n.toInt).mono (show '(' :: wordEnds ⊆ breaks by decide)]
      decide
    · exact congrArg (Option.map Line.long) (readDecimal?_toString n)
  | blank => exact ⟨[""], .of_free rfl (by decide) rfl⟩

end Lines

def Line.row (t : Target) (l : Line) : String :=
  String.ofList (l.render t).toList.dropLast

section Texts
variable {t : Target} {l : Line} {ws : List String}

theorem Line.row_of_render {s : String} (h : l.render t = s ++ "\n") : l.row t = s := by
  rw [Line.row, h, String.toList_append]
  exact (congrArg String.ofList List.dropLast_concat).trans String.ofList_toList

theorem Line.Worded.row_eq (h : l.Worded t ws) : l.row t = " ".intercalate ws :=
  Line.row_of_render h.text

theorem Line.Worded.render_eq (h : l.Worded t ws) : l.render t = l.row t ++ "\n" := by
  rw [h.row_eq, h.text]

theorem mem_intercalate {c : Char} (hblank : c ≠ ' ') (h : c ∈ (" ".intercalate ws).toList) :
    ∃ w ∈ ws, c ∈ w.toList := by
  rw [String.toList_intercalate] at h
  induction ws with
  | nil => cases h
  | cons w ws ih =>
    cases ws with
    | nil => exact ⟨w, List.mem_cons_self, by simpa using h⟩
    | cons v ws =>
      simp only [List.map_cons, List.intercalate_cons_cons, List.mem_append] at h
      rcases h with (h | h) | h
      · exact ⟨w, List.mem_cons_self, h⟩
      · exact absurd (List.mem_singleton.1 h) hblank
      · obtain ⟨u, hu, hc⟩ := ih h
        exact ⟨u, List.mem_cons_of_mem w hu, hc⟩

theorem Line.Worded.newline_notMem (h : l.Worded t ws) : '\n' ∉ (l.row t).toList := by
  rw [h.row_eq]
  intro hc
  obtain ⟨w, hw, hc⟩ := mem_intercalate (by decide) hc
  exact h.free w hw _ hc (by decide)

/-- Only the definition of a name has a colon. -/
theorem Line.Worded.isMark (h : l.Worded t ws) (hc : ':' ∈ (l.row t).toList) : l.isMark := by
  by_contra hmark
  rw [h.row_eq] at hc
  obtain ⟨w, hw, hc⟩ := mem_intercalate (by decide) hc
  exact h.colon (Bool.eq_false_iff.2 hmark) w hw hc

theorem Line.Worded.rowWords_eq (h : l.Worded t ws) : rowWords (l.row t) = ws := by
  have hne : ws ≠ [] := by
    rintro rfl
    cases h.read
  rw [h.row_eq, rowWords_intercalate hne fun w hw hc => h.free w hw _ hc (by decide)]

theorem Line.Worded.readRow? (h : l.Worded t ws) : readRow? t (l.row t) = some (l.heard t) := by
  rw [Assembly.readRow?, h.rowWords_eq, h.read]

theorem toList_rendered (t : Target) (lines : List Line) :
    (rendered t lines).toList = lines.flatMap fun l => (l.render t).toList := by
  have hjoin : rendered t lines = String.join (lines.map (Line.render t)) := by
    rw [rendered, String.join, List.foldl_map]
  rw [hjoin, String.toList_join, List.flatMap_map]

theorem textRows?_join {rows : List String} (h : ∀ s ∈ rows, '\n' ∉ s.toList) :
    textRows? (String.join (rows.map (· ++ "\n"))) = some rows := by
  have hlist : (String.join (rows.map (· ++ "\n"))).toList =
      (rows.map String.toList).flatMap (· ++ ['\n']) := by
    rw [String.toList_join, List.flatMap_map, List.flatMap_map]
    simp only [String.toList_append]
    rfl
  have hsplit : (String.join (rows.map (· ++ "\n"))).toList.splitOn '\n' =
      rows.map String.toList ++ [[]] := by
    rw [hlist, splitOn_lines (by simpa using h)]
  rw [textRows?, hsplit, List.getLast?_concat, List.dropLast_concat]
  simp [Function.comp_def]

end Texts

section Listings
variable {m : Module} {lines : List Line} (h : Listed m lines) (t : Target) (hw : m.NamedByWords)
include h hw

theorem Listed.worded {l : Line} (hl : l ∈ lines) (hne : l ≠ .opening) : ∃ ws, l.Worded t ws :=
  l.exists_worded t hw (h.belongs hl) hne

omit hw in
theorem Listed.resolve_heard {rest : List Line} (hrest : lines = .opening :: rest) {l : Line}
    (hl : l ∈ lines) : (l.heard t).resolve t (rest.map (Line.heard t)) = l := by
  cases l with
  | ins i =>
    cases i with
    | call s foreign =>
      obtain ⟨j, id, g, hid, rfl, rfl⟩ := h.belongs hl
      cases t with
      | linux => simp [Line.heard, Ins.heard, Line.resolve]
      | darwin =>
        have hdefined : .symbol g.name ∈ rest.map (Line.heard .darwin) ↔ .symbol g.name ∈ lines := by
          rw [hrest, List.mem_map]
          constructor
          · rintro ⟨l, hl, he⟩
            cases l <;> cases he
            exact List.mem_cons_of_mem _ hl
          · exact fun hl => ⟨_, (List.mem_cons.1 hl).resolve_left (by simp), rfl⟩
        cases hd : g.isDeclaration with
        | true =>
          have hnone := List.idxOf?_eq_none_iff.1 (h.foreign hid hd)
          simp [Line.heard, Ins.heard, Line.resolve, hdefined, hnone]
        | false =>
          obtain ⟨pc, -, hpc, -⟩ := h.function hid hd
          simp [Line.heard, Ins.heard, Line.resolve, hdefined, List.mem_of_getElem? hpc]
    | _ => rfl
  | _ => rfl

/-- The rows of a listing: what the files of a target start with, and a row for every other line. -/
theorem Listed.textRows? : ∃ rest, lines = .opening :: rest ∧ .opening ∉ rest ∧
    textRows? (rendered t lines) = some (t.header ++ rest.map (Line.row t)) := by
  obtain ⟨rest, rfl, hrest⟩ := h.exists_rest
  have hopening : Line.opening ∉ rest := fun hl => by simpa using hrest _ hl rfl
  refine ⟨rest, rfl, hopening, ?_⟩
  have hword (l : Line) (hl : l ∈ rest) : ∃ ws, l.Worded t ws :=
    h.worded t hw (List.mem_cons_of_mem _ hl) (fun he => hopening (he ▸ hl))
  have hheader : (Line.opening.render t).toList = t.header.flatMap fun s => (s ++ "\n").toList := by
    cases t <;> decide
  have hrow (l : Line) (hl : l ∈ rest) : (l.render t).toList = (l.row t ++ "\n").toList := by
    obtain ⟨ws, hws⟩ := hword l hl
    rw [hws.render_eq]
  have hjoin : rendered t (.opening :: rest) =
      String.join ((t.header ++ rest.map (Line.row t)).map (· ++ "\n")) := by
    rw [← String.toList_inj, toList_rendered, String.toList_join, List.flatMap_cons, hheader,
      List.flatMap_map, List.flatMap_append, List.flatMap_map, List.flatMap_congr hrow]
  rw [hjoin]
  refine textRows?_join fun s hs => ?_
  rcases List.mem_append.1 hs with hs | hs
  · have hheader : ∀ s ∈ t.header, '\n' ∉ s.toList := by cases t <;> decide
    exact hheader s hs
  · obtain ⟨l, hl, rfl⟩ := List.mem_map.1 hs
    obtain ⟨ws, hws⟩ := hword l hl
    exact hws.newline_notMem

/-- What is read from the text of a listing whose names are words is the listing. -/
theorem Listed.readText? : readText? t (rendered t lines) = some lines := by
  obtain ⟨rest, rfl, hopening, hrows⟩ := h.textRows? t hw
  have hprefix : t.header.isPrefixOf? (t.header ++ rest.map (Line.row t)) = some (rest.map (Line.row t)) :=
    List.isPrefixOf?_eq_some_iff_append_eq.2 rfl
  have hread : (rest.map (Line.row t)).mapM (readRow? t) = some (rest.map (Line.heard t)) := by
    apply mapM_of_forall₂
    rw [List.forall₂_map_left_iff, List.forall₂_map_right_iff, List.forall₂_same]
    intro l hl
    obtain ⟨ws, hws⟩ := h.worded t hw (List.mem_cons_of_mem _ hl) (fun he => hopening (he ▸ hl))
    exact hws.readRow?
  have hresolve : (rest.map (Line.heard t)).map (Line.resolve t (rest.map (Line.heard t))) = rest := by
    rw [List.map_map]
    exact (List.map_congr_left fun l hl => h.resolve_heard t rfl (List.mem_cons_of_mem _ hl)).trans
      (List.map_id rest)
  rw [Assembly.readText?, hrows]
  simp only [Option.bind_eq_bind, Option.bind_some, hprefix, hread, hresolve]
  rfl

end Listings

end Assembly
end IntLang
