import IntLang.Assembly.Emit
import IntLang.Proofs.Arithmetic

/-! A processor that executes the lines of a listing. The stack has no end and lies apart from the
global cells. It is kept byte by byte, so a word that has been overwritten in part cannot be read.
What is not known stops the processor when it is read, and so does whatever has no meaning here. -/
namespace IntLang.Assembly
open IntLang.Flow IntLang.Machine

inductive Datum where
  | word (n : Int32)
  | frame (address : Int)
  | back (line : Option Nat)
  deriving DecidableEq, Repr

def Datum.size : Datum → Nat
  | word _ => 4
  | frame _ | back _ => 8

/-- What each byte is part of, and which byte of it. -/
abbrev Stack := Int → Option (Datum × Nat)

namespace Stack

def write (m : Stack) (a : Int) (x : Datum) : Stack := fun b =>
  if a ≤ b ∧ b < a + x.size then some (x, (b - a).toNat) else m b

/-- Makes the bytes from `a` to `b` unknown. -/
def forget (m : Stack) (a b : Int) : Stack := fun c =>
  if a ≤ c ∧ c < b then none else m c

def read (m : Stack) (a : Int) : Option Datum :=
  (m a).bind fun (x, _) => if ∀ i < x.size, m (a + i) = some (x, i) then some x else none

def word? (m : Stack) (a : Int) : Option Int32 :=
  match m.read a with
  | some (.word n) => some n
  | _ => none

end Stack

structure Flags where
  zero : Bool
  sign : Bool
  overflow : Bool
  deriving DecidableEq, Repr

namespace Flags

/-- The flags of the difference `a - b`. -/
def compare (a b : Int32) : Flags where
  zero := a - b = 0
  sign := a - b < 0
  overflow := (a - b).toInt ≠ a.toInt - b.toInt

def logic (a : Int32) : Flags where
  zero := a = 0
  sign := a < 0
  overflow := false

def holds (f : Flags) : CmpOp → Bool
  | .eq => f.zero
  | .ne => !f.zero
  | .lt => f.sign != f.overflow
  | .ge => f.sign == f.overflow
  | .gt => !f.zero && f.sign == f.overflow
  | .le => f.zero || f.sign != f.overflow

end Flags

def AluOp.apply (a b : Int32) : AluOp → Int32
  | add => a + b
  | sub => a - b
  | mul => a * b
  | and => a &&& b
  | or => a ||| b

def wide (upper lower : Int32) : Int :=
  upper.toInt * 4294967296 + lower.toUInt32.toNat

def divideWide (upper lower d : Int32) : Option (Int32 × Int32) :=
  let q := (wide upper lower).tdiv d.toInt
  if d = 0 ∨ q < -2147483648 ∨ 2147483647 < q then none
  else some (Int32.ofInt q, Int32.ofInt ((wide upper lower).tmod d.toInt))

def withLowByte (a : Int32) (b : Bool) : Int32 :=
  (a &&& ~~~255) ||| (if b then 1 else 0)

structure Processor where
  regs : Reg → Option Int32
  flags : Option Flags
  sp : Int
  fp : Int
  stack : Stack
  data : String → Option Int32
  output : String

namespace Processor

def set (s : Processor) (r : Reg) (n : Int32) : Processor :=
  { s with regs := fun r' => if r' = r then some n else s.regs r' }

def read (s : Processor) : Place → Option Int32
  | .imm n => some n
  | .frame offset => s.stack.word? (s.fp + offset)
  | .global name => s.data name

def write (s : Processor) (n : Int32) : Place → Option Processor
  | .imm _ => none
  | .frame offset => some { s with stack := s.stack.write (s.fp + offset) (.word n) }
  | .global name =>
    if (s.data name).isSome then
      some { s with data := fun x => if x = name then some n else s.data x }
    else none

/-- Pushes eight bytes. Those that `x` does not take are unknown. -/
def push (s : Processor) (x : Datum) : Processor :=
  { s with
    sp := s.sp - 8
    stack := (s.stack.forget (s.sp - 8) s.sp).write (s.sp - 8) x }

end Processor

def Ins.exec (s : Processor) : Ins → Option Processor
  | pushFrame => some (s.push (.frame s.fp))
  | setFrame => some { s with fp := s.sp }
  | lowerStack n => some { s with sp := s.sp - n, flags := none }
  | raiseStack n => some { s with sp := s.sp + n, flags := none }
  | load p r => (s.read p).map (s.set r)
  | store r p => (s.regs r).bind fun n => s.write n p
  | pushAcc => (s.regs .eax).map fun n => s.push (.word n)
  | alu op => do
    let a ← s.regs .eax
    let b ← s.regs .ecx
    return { s.set .eax (op.apply a b) with flags := none }
  | signExtend => (s.regs .eax).map fun a => s.set .edx (if a < 0 then -1 else 0)
  | divide => do
    let (q, r) ← divideWide (← s.regs .edx) (← s.regs .eax) (← s.regs .ecx)
    return { (s.set .eax q).set .edx r with flags := none }
  | compare => do
    let a ← s.regs .eax
    let b ← s.regs .ecx
    return { s with flags := some (.compare a b) }
  | setFlag op => do
    let f ← s.flags
    let a ← s.regs .eax
    return s.set .eax (withLowByte a (f.holds op))
  | widenFlag => (s.regs .eax).map fun a => s.set .eax (a &&& 255)
  | test => (s.regs .eax).map fun a => { s with flags := some (.logic a) }
  | clearAcc => some { s.set .eax 0 with flags := some (.logic 0) }
  | leave =>
    match s.stack.read s.fp with
    | some (.frame caller) => some { s with sp := s.fp + 8, fp := caller }
    | _ => none
  | jumpIfZero _ | jump _ | call .. | ret => none

namespace Processor

/-- Division has no result: the divisor is zero or the quotient is not a word. -/
def traps (s : Processor) : Bool :=
  match s.regs .edx, s.regs .eax, s.regs .ecx with
  | some upper, some lower, some d => (divideWide upper lower d).isNone
  | _, _, _ => false

/-- The argument of a call by its position. The first ones are in registers, the others on the
stack, eight bytes each. -/
def arg (s : Processor) (i : Nat) : Option Int32 :=
  match argRegs[i]? with
  | some r => s.regs r
  | none => s.stack.word? (s.sp + 8 * (i - argRegs.length : Nat))

/-- The arguments that a routine reads. Printing is told by the first one how many follow. -/
def argsOf (s : Processor) : Native → Option (List Int32)
  | .print => do
    let count ← s.arg 0
    (List.range (count.toInt.toNat + 1)).mapM s.arg
  | .power => (List.range 2).mapM s.arg

/-- The stack is aligned, and a routine with any number of arguments is told that none is in a vector
register. -/
def ready (s : Processor) : Native → Bool
  | .print => s.sp % 16 = 0 ∧ s.regs .eax = some 0
  | .power => s.sp % 16 = 0

/-- A call of a support routine. Both pointers are as before, and so is the stack above the arguments;
all else that it does not return is lost. -/
def callRoutine (s : Processor) (r : Native) : Option Processor := do
  if s.ready r then
    let args ← s.argsOf r
    match r.run args with
    | .ok (n, text) =>
      let kept := s.sp + 8 * (args.length - argRegs.length : Nat)
      return { s with
        regs := fun r => if r = .eax then some n else none
        flags := none
        stack := fun a => if kept ≤ a then s.stack a else none
        output := s.output ++ text }
    | .error _ => none
  else none

end Processor

def routine? (symbol : String) : Option Native :=
  ({} : Engine).mapAll.natives.lookup symbol

inductive Outcome where
  | running (line : Nat) (s : Processor)
  | returned (value : Int32) (s : Processor)
  | trapped (s : Processor)
  | stuck

section Execution
variable (lines : List Line)

def goto (target : Line) (s : Processor) : Outcome :=
  match lines.idxOf? target with
  | some k => .running k s
  | none => .stuck

/-- Executes the instruction on line `pc`. A symbol that the listing does not define is that of a
support routine. -/
def execute (pc : Nat) (s : Processor) : Ins → Outcome
  | .jump l => goto lines (.label l) s
  | .jumpIfZero l =>
    match s.flags with
    | some f => if f.zero then goto lines (.label l) s else .running (pc + 1) s
    | none => .stuck
  | .call symbol _ =>
    match lines.idxOf? (.symbol symbol) with
    | some k => .running k (s.push (.back (some (pc + 1))))
    | none =>
      match (routine? symbol).bind s.callRoutine with
      | some s' => .running (pc + 1) s'
      | none => .stuck
  | .ret =>
    let s' := { s with sp := s.sp + 8 }
    match s.stack.read s.sp, s.regs .eax with
    | some (.back (some k)), _ => .running k s'
    | some (.back none), some n => .returned n s'
    | _, _ => .stuck
  | i =>
    match i.exec s with
    | some s' => .running (pc + 1) s'
    | none => if i = .divide ∧ s.traps then .trapped s else .stuck

def step (pc : Nat) (s : Processor) : Outcome :=
  match lines[pc]? with
  | some (.ins i) => execute lines pc s i
  | some (.label _) | some (.symbol _) | some .alignCode => .running (pc + 1) s
  | _ => .stuck

def run : Nat → Nat → Processor → Option Outcome
  | 0, _, _ => none
  | n + 1, pc, s =>
    match step lines pc s with
    | .running pc' s' => run n pc' s'
    | o => some o

def cells : List Line → String → Option Int32
  | .label (.global name) :: .long n :: rest => fun x => if x = name then some n else cells rest x
  | _ :: rest => cells rest
  | [] => fun _ => none

/-- A processor that has just been called, with the cells as the listing has them. Nothing is known of the
registers, nor of the stack beyond the return address. -/
structure Entering (s : Processor) : Prop where
  back : s.stack.read s.sp = some (.back none)
  aligned : s.sp % 16 = 8
  data : s.data = cells lines

end Execution

namespace Stack
variable {m m' : Stack} {a b : Int} {x y : Datum}

theorem read_eq_some : m.read a = some x ↔ ∀ i < x.size, m (a + i) = some (x, i) := by
  have hpos : 0 < x.size := by cases x <;> simp [Datum.size]
  constructor
  · intro h
    obtain ⟨⟨y, j⟩, -, hy⟩ := Option.bind_eq_some_iff.1 h
    dsimp only at hy
    split at hy
    · next hall => exact Option.some.inj hy ▸ hall
    · cases hy
  · intro h
    have h0 : m a = some (x, 0) := by simpa using h 0 hpos
    simp only [read, h0, Option.bind_some, if_pos h]

theorem word?_eq_some {n : Int32} : m.word? a = some n ↔ m.read a = some (.word n) := by
  unfold word?
  constructor
  · intro h
    split at h
    · next n' hread => rw [hread, Option.some.inj h]
    · cases h
  · intro h
    rw [h]

theorem read_write_self (m : Stack) (a : Int) (x : Datum) : (m.write a x).read a = some x := by
  rw [read_eq_some]
  intro i hi
  rw [write, if_pos (by omega), show (a + i - a).toNat = i by omega]

/-- What was there stays there if none of its bytes changes. -/
theorem read_congr (h : m.read a = some x) (hm : ∀ c, a ≤ c → c < a + x.size → m' c = m c) :
    m'.read a = some x := by
  rw [read_eq_some] at h ⊢
  intro i hi
  rw [hm (a + i) (by omega) (by omega)]
  exact h i hi

theorem read_write_of_disjoint (h : m.read b = some y) (hd : b + y.size ≤ a ∨ a + x.size ≤ b) :
    (m.write a x).read b = some y := by
  apply read_congr h
  intro c _ _
  rw [write, if_neg (by omega)]

end Stack

theorem Flags.zero_compare (a b : Int32) : (compare a b).zero = decide (a = b) := by
  have ha := a.le_toInt
  have ha' := a.toInt_lt
  have hb := b.le_toInt
  have hb' := b.toInt_lt
  simp only [compare, decide_eq_decide, ← Int32.toInt_inj, Int32.toInt_sub, Int32.toInt_zero, Int.bmod_def]
  omega

/-- A difference is too large or too small exactly if it has the wrong sign. -/
theorem Flags.sign_ne_overflow_compare (a b : Int32) :
    ((compare a b).sign != (compare a b).overflow) = decide (a < b) := by
  have ha := a.le_toInt
  have ha' := a.toInt_lt
  have hb := b.le_toInt
  have hb' := b.toInt_lt
  have hsign : a - b < 0 ↔ (a.toInt - b.toInt).bmod (2 ^ 32) < 0 := by
    rw [Int32.lt_iff_toInt_lt, Int32.toInt_sub, Int32.toInt_zero]
  rw [Bool.eq_iff_iff, bne_iff_ne, decide_eq_true_eq, Int32.lt_iff_toInt_lt]
  simp only [compare, ne_eq, decide_eq_decide, Int32.toInt_sub, hsign, Int.bmod_def]
  omega

theorem Flags.holds_compare (op : CmpOp) (a b : Int32) : (compare a b).holds op = op.holds a b := by
  have hge : ((compare a b).sign == (compare a b).overflow) = !decide (a < b) := by
    rw [← sign_ne_overflow_compare, bne, Bool.not_not]
  simp only [Int32.lt_iff_toInt_lt] at hge
  cases op <;> simp only [holds, CmpOp.holds, zero_compare, sign_ne_overflow_compare, hge,
    Int32.le_iff_toInt_le, Int32.lt_iff_toInt_lt, ← Int32.toInt_inj, ne_eq,
    ← Bool.decide_and, ← Bool.decide_or, ← decide_not, decide_eq_decide]
  all_goals omega

theorem and_withLowByte (a : Int32) (b : Bool) : withLowByte a b &&& 255 = if b then 1 else 0 := by
  have hlow : ~~~(255 : Int32) &&& 255 = 0 := by decide
  have hbit : (if b then 1 else 0 : Int32) &&& 255 = if b then 1 else 0 := by cases b <;> decide
  rw [← Int32.toBitVec_inj] at hlow hbit ⊢
  rw [Int32.toBitVec_and] at hlow hbit
  rw [withLowByte, Int32.toBitVec_and, Int32.toBitVec_or, Int32.toBitVec_and,
    BitVec.and_or_distrib_right, BitVec.and_assoc, hlow, hbit, Int32.toBitVec_zero, BitVec.and_zero,
    BitVec.zero_or]

theorem wide_sign (a : Int32) : wide (if a < 0 then -1 else 0) a = a.toInt := by
  have hcond : a.toInt = if 2 * a.toUInt32.toNat < 2 ^ 32 then (a.toUInt32.toNat : Int)
      else a.toUInt32.toNat - (2 ^ 32 : Nat) := BitVec.toInt_eq_toNat_cond a.toBitVec
  have hlt : a.toUInt32.toNat < 2 ^ 32 := a.toUInt32.toNat_lt
  rw [wide]
  split
  · next hneg =>
    rw [Int32.lt_iff_toInt_lt, Int32.toInt_zero] at hneg
    rw [toInt_neg_one]
    omega
  · next hneg =>
    rw [Int32.lt_iff_toInt_lt, Int32.toInt_zero] at hneg
    rw [Int32.toInt_zero]
    omega

/-- Division of a word that has been extended fails where division of words does. -/
theorem divideWide_sign (a b : Int32) : divideWide (if a < 0 then -1 else 0) a b =
    if b = 0 ∨ a = minInteger ∧ b = -1 then none else some (a / b, a % b) := by
  have habs : (a.toInt.tdiv b.toInt).natAbs = a.toInt.natAbs / b.toInt.natAbs := Int.natAbs_tdiv _ _
  have hle := Nat.div_le_self a.toInt.natAbs b.toInt.natAbs
  have ha := a.le_toInt
  have ha' := a.toInt_lt
  have hlow : ¬ a.toInt.tdiv b.toInt < -2147483648 := by omega
  simp only [divideWide, wide_sign, quotient_overflow_iff, ofInt_tdiv_toInt, ofInt_tmod_toInt, hlow,
    false_or]

/-- From line `pc` on, the lines are those of a listing. -/
def Lies (lines : List Line) (pc : Nat) (ls : Listing) : Prop :=
  ls <+: (lines.drop pc).map .ok

inductive Runs (lines : List Line) : Nat → Processor → Nat → Processor → Prop where
  | refl (pc : Nat) (s : Processor) : Runs lines pc s pc s
  | head {pc pc₁ pc' : Nat} {s s₁ s' : Processor} (step : step lines pc s = .running pc₁ s₁)
      (rest : Runs lines pc₁ s₁ pc' s') : Runs lines pc s pc' s'

def execAll : List Ins → Processor → Option Processor
  | [], s => some s
  | i :: is, s => (i.exec s).bind (execAll is)

section Runs
variable {lines : List Line} {pc pc₁ pc' : Nat} {s s₁ s' : Processor}

namespace Lies
variable {l : Line} {a b c : Listing}

theorem of_eq (h : lines.map .ok = a ++ (b ++ c)) : Lies lines a.length b := by
  rw [Lies, List.map_drop, h, List.drop_left]
  exact List.prefix_append b c

theorem error_notMem (h : Lies lines pc a) (e : EmitError) : .error e ∉ a := by
  intro hmem
  obtain ⟨l, -, hl⟩ := List.mem_map.1 (h.subset hmem)
  cases hl

theorem drop_eq (h : Lies lines pc a) : ∃ ls rest, a = ls.map .ok ∧ lines.drop pc = ls ++ rest := by
  obtain ⟨rest, hrest⟩ := h
  obtain ⟨ls, rest', heq, rfl, -⟩ := List.map_eq_append_iff.1 hrest.symm
  exact ⟨ls, rest', rfl, heq⟩

theorem append_iff : Lies lines pc (a ++ b) ↔ Lies lines pc a ∧ Lies lines (pc + a.length) b := by
  unfold Lies
  rw [← List.drop_drop, List.map_drop (i := a.length)]
  constructor
  · rintro ⟨rest, hrest⟩
    rw [← hrest, List.append_assoc, List.drop_left]
    exact ⟨List.prefix_append a _, List.prefix_append b rest⟩
  · rintro ⟨⟨rest, hrest⟩, hb⟩
    rw [← hrest, List.drop_left] at hb
    rw [← hrest]
    exact (List.prefix_append_right_inj a).2 hb

theorem cons_iff : Lies lines pc (.ok l :: b) ↔ lines[pc]? = some l ∧ Lies lines (pc + 1) b := by
  rw [← List.singleton_append, append_iff, List.length_singleton]
  refine and_congr_left fun _ => ?_
  rw [Lies, ← List.head?_drop]
  cases lines.drop pc with
  | nil => simp
  | cons l' rest => simp [List.cons_prefix_cons, eq_comm]

end Lies

theorem Runs.trans (h : Runs lines pc s pc₁ s₁) (h' : Runs lines pc₁ s₁ pc' s') :
    Runs lines pc s pc' s' := by
  induction h with
  | refl => exact h'
  | head hs _ ih => exact .head hs (ih h')

/-- A run comes to what it comes to from a later line. -/
theorem Runs.run_eq (h : Runs lines pc s pc' s') {n : Nat} {o : Outcome}
    (ho : run lines n pc' s' = some o) : ∃ k, run lines k pc s = some o := by
  induction h with
  | refl => exact ⟨n, ho⟩
  | head hs _ ih =>
    obtain ⟨k, hk⟩ := ih ho
    exact ⟨k + 1, by rw [run, hs]; exact hk⟩

theorem execAll_append (is js : List Ins) (s : Processor) :
    execAll (is ++ js) s = (execAll is s).bind (execAll js) := by
  induction is generalizing s with
  | nil => rfl
  | cons i is ih =>
    rw [List.cons_append, execAll, execAll, Option.bind_assoc]
    exact congrArg _ (funext ih)

theorem step_of_exec {i : Ins} (hi : lines[pc]? = some (.ins i)) (h : i.exec s = some s') :
    step lines pc s = .running (pc + 1) s' := by
  rw [step, hi]
  cases i with
  | jump | jumpIfZero | call | ret => cases h
  | _ => simp only [execute, h]

theorem Runs.of_execAll {is : List Ins} (hl : Lies lines pc (code is))
    (h : execAll is s = some s') : Runs lines pc s (pc + is.length) s' := by
  induction is generalizing pc s with
  | nil =>
    rw [← Option.some.inj h]
    exact .refl pc s
  | cons i is ih =>
    obtain ⟨s₁, hi, his⟩ := Option.bind_eq_some_iff.1 h
    obtain ⟨hline, hrest⟩ := Lies.cons_iff.1 hl
    rw [List.length_cons, Nat.add_comm is.length, ← Nat.add_assoc]
    exact .head (step_of_exec hline hi) (ih hrest his)

end Runs
end IntLang.Assembly
