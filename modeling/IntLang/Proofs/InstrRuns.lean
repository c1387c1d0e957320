import IntLang.Proofs.StackFrames
import IntLang.Proofs.StmtRuns

/-! What the code of a single instruction does. It reads the words that its operands stand for and
stores the result in the cell it has, so a mirrored frame stays one. -/
namespace IntLang
open IntLang.Flow IntLang.Machine IntLang.Code IntLang.Assembly

def Machine.Fault.Division (e : Fault) : Prop :=
  e = .divisionByZero ∨ e = .divisionOverflow

namespace Assembly

structure Processor.Alike (s s' : Processor) : Prop where
  stack : s'.stack = s.stack
  fp : s'.fp = s.fp
  sp : s'.sp = s.sp
  data : s'.data = s.data
  output : s'.output = s.output

/-- The word `n` has been stored at an offset from the frame pointer. All else that lasts is as
before. -/
structure Stored (offset : Int) (n : Int32) (s s' : Processor) : Prop where
  stack : s'.stack = s.stack.write (s.fp + offset) (.word n)
  fp : s'.fp = s.fp
  sp : s'.sp = s.sp
  data : s'.data = s.data
  output : s'.output = s.output

section Storing
variable {s s₁ : Processor} {p q : Place} {r : Reg} {a b n : Int32} {offset : Int} {is : List Ins}

@[simp] theorem Processor.regs_set (s : Processor) (r r' : Reg) (n : Int32) :
    (s.set r n).regs r' = if r' = r then some n else s.regs r' := rfl

@[simp] theorem Processor.read_set (s : Processor) (r : Reg) (n : Int32) (p : Place) :
    (s.set r n).read p = s.read p := by
  cases p <;> rfl

theorem exec_store (h : execAll is s = some s₁) (hs : s.Alike s₁) (hr : s₁.regs r = some n) :
    ∃ s', execAll (is ++ [Ins.store r (.frame offset)]) s = some s' ∧ Stored offset n s s' := by
  refine ⟨{ s₁ with stack := s₁.stack.write (s₁.fp + offset) (.word n) }, ?_, ?_⟩
  · rw [execAll_append, h]
    simp [execAll, Ins.exec, hr, Processor.write]
  · refine ⟨?_, hs.fp, hs.sp, hs.data, hs.output⟩
    rw [hs.stack, hs.fp]

theorem execAll_load (h : s.read p = some n) : execAll [.load p r] s = some (s.set r n) := by
  simp [execAll, Ins.exec, h]

theorem exec_copy (h : s.read p = some n) :
    ∃ s', execAll [.load p .eax, .store .eax (.frame offset)] s = some s' ∧ Stored offset n s s' :=
  exec_store (execAll_load h) ⟨rfl, rfl, rfl, rfl, rfl⟩ (by simp)

def Processor.loaded (s : Processor) (a b : Int32) : Processor :=
  (s.set .eax a).set .ecx b

theorem execAll_loadBoth (hl : s.read p = some a) (hr : s.read q = some b) :
    execAll [.load p .eax, .load q .ecx] s = some (s.loaded a b) := by
  simp [execAll, Ins.exec, hl, hr, Processor.loaded]

theorem execAll_alu (s : Processor) (op : AluOp) (a b : Int32) : execAll [.alu op] (s.loaded a b) =
    some { (s.loaded a b).set .eax (op.apply a b) with flags := none } := by
  simp [execAll, Ins.exec, Processor.loaded]

def Processor.dividing (s : Processor) (a b : Int32) : Processor :=
  (s.loaded a b).set .edx (if a < 0 then -1 else 0)

theorem execAll_signExtend (s : Processor) (a b : Int32) :
    execAll [.signExtend] (s.loaded a b) = some (s.dividing a b) := by
  simp [execAll, Ins.exec, Processor.loaded, Processor.dividing]

theorem execAll_divide (s : Processor) {a b : Int32} (h : ¬ (b = 0 ∨ a = minInteger ∧ b = -1)) :
    execAll [.signExtend, .divide] (s.loaded a b) =
      some { ((s.dividing a b).set .eax (a / b)).set .edx (a % b) with flags := none } := by
  have hq := divideWide_sign a b
  rw [if_neg h] at hq
  rw [show [Ins.signExtend, .divide] = [.signExtend] ++ [.divide] from rfl, execAll_append,
    execAll_signExtend, Option.bind_some]
  have hedx : (s.dividing a b).regs .edx = some (if a < 0 then -1 else 0) := rfl
  have heax : (s.dividing a b).regs .eax = some a := rfl
  have hecx : (s.dividing a b).regs .ecx = some b := rfl
  simp only [execAll, Ins.exec, hedx, heax, hecx, hq, Option.pure_def, Option.bind_eq_bind,
    Option.bind_some]

theorem traps_dividing (s : Processor) {a b : Int32} (h : b = 0 ∨ a = minInteger ∧ b = -1) :
    (s.dividing a b).traps := by
  have hq := divideWide_sign a b
  rw [if_pos h] at hq
  have hedx : (s.dividing a b).regs .edx = some (if a < 0 then -1 else 0) := rfl
  have heax : (s.dividing a b).regs .eax = some a := rfl
  have hecx : (s.dividing a b).regs .ecx = some b := rfl
  simp only [Processor.traps, hedx, heax, hecx, hq, Option.isNone_none]

/-- Arithmetic on two operands that have been loaded. -/
theorem exec_arith {op : ArithOp} (h : Machine.arith op a b = .ok n) :
    ∃ s', execAll (Context.arith op).1 (s.loaded a b) = some s' ∧ s.Alike s' ∧
      s'.regs (Context.arith op).2 = some n := by
  have hok (r : Int32) (h : (if b = 0 then .error .divisionByZero else if a = minInteger ∧ b = -1 then
      .error .divisionOverflow else .ok r : Except Fault Int32) = .ok n) :
      r = n ∧ ¬ (b = 0 ∨ a = minInteger ∧ b = -1) := by
    split at h
    · cases h
    · split at h
      · cases h
      · exact ⟨Except.ok.inj h, by simp [*]⟩
  cases op with
  | add =>
    obtain rfl := Except.ok.inj h
    exact ⟨_, execAll_alu s .add a b, ⟨rfl, rfl, rfl, rfl, rfl⟩, by simp [Context.arith, AluOp.apply]⟩
  | sub =>
    obtain rfl := Except.ok.inj h
    exact ⟨_, execAll_alu s .sub a b, ⟨rfl, rfl, rfl, rfl, rfl⟩, by simp [Context.arith, AluOp.apply]⟩
  | mul =>
    obtain rfl := Except.ok.inj h
    exact ⟨_, execAll_alu s .mul a b, ⟨rfl, rfl, rfl, rfl, rfl⟩, by simp [Context.arith, AluOp.apply]⟩
  | and =>
    obtain rfl := Except.ok.inj h
    exact ⟨_, execAll_alu s .and a b, ⟨rfl, rfl, rfl, rfl, rfl⟩, by simp [Context.arith, AluOp.apply]⟩
  | or =>
    obtain rfl := Except.ok.inj h
    exact ⟨_, execAll_alu s .or a b, ⟨rfl, rfl, rfl, rfl, rfl⟩, by simp [Context.arith, AluOp.apply]⟩
  | div =>
    obtain ⟨rfl, hne⟩ := hok _ h
    exact ⟨_, execAll_divide s hne, ⟨rfl, rfl, rfl, rfl, rfl⟩, by simp [Context.arith]⟩
  | rem =>
    obtain ⟨rfl, hne⟩ := hok _ h
    exact ⟨_, execAll_divide s hne, ⟨rfl, rfl, rfl, rfl, rfl⟩, by simp [Context.arith]⟩

/-- A comparison of two operands that have been loaded. -/
theorem exec_compare (s : Processor) (op : CmpOp) (a b : Int32) :
    ∃ s', execAll [.compare, .setFlag op, .widenFlag] (s.loaded a b) = some s' ∧ s.Alike s' ∧
      s'.regs .eax = some (if op.holds a b then 1 else 0) := by
  let compared : Processor := { s.loaded a b with flags := some (.compare a b) }
  let tested := compared.set .eax (withLowByte a (op.holds a b))
  have hexec : execAll [.compare, .setFlag op, .widenFlag] (s.loaded a b) =
      some (tested.set .eax (withLowByte a (op.holds a b) &&& 255)) := by
    simp [execAll, Ins.exec, Processor.loaded, tested, compared, Flags.holds_compare]
  refine ⟨_, hexec, ⟨rfl, rfl, rfl, rfl, rfl⟩, ?_⟩
  rw [and_withLowByte]
  simp

end Storing

structure Shares (M : Module) (globals : Array Int32) (data : String → Option Int32) : Prop where
  size : globals.size = M.globals.size
  cell : ∀ x, data x = (M.findGlobal? x).bind fun g => globals[g]?

section Shared
variable {M : Module} {globals : Array Int32} {data : String → Option Int32} {g : Nat}

theorem Shares.read (h : Shares M globals data) (ht : M.Tidy) (hg : g < M.globals.size) :
    data M.globals[g].name = some (globals[g]?.getD 0) := by
  rw [h.cell, Module.findGlobal?_of_nodup ht.cells hg, Option.bind_some,
    Array.getElem?_eq_getElem (h.size ▸ hg)]
  rfl

theorem Shares.store (h : Shares M globals data) (ht : M.Tidy) (hg : g < M.globals.size) (n : Int32) :
    Shares M (globals.setIfInBounds g n) fun x =>
      if x = M.globals[g].name then some n else data x := by
  refine ⟨by rw [Array.size_setIfInBounds, h.size], fun x => ?_⟩
  have hfind := Module.findGlobal?_of_nodup ht.cells hg
  split
  · next hx =>
    rw [hx, hfind, Option.bind_some, Array.getElem?_setIfInBounds_self, if_pos (h.size ▸ hg)]
  · next hx =>
    rw [h.cell]
    refine Option.bind_congr fun g' hg' => ?_
    rw [Array.getElem?_setIfInBounds_ne]
    rintro rfl
    obtain ⟨cell, hcell, rfl⟩ := findGlobal?_name hg'
    rw [Array.getElem?_eq_getElem hg] at hcell
    exact hx (congrArg Global.name (Option.some.inj hcell)).symm

end Shared

/-- Nothing has changed from the frame pointer upwards, and nothing was printed. -/
structure Processor.Within (s s' : Processor) : Prop where
  fp : s'.fp = s.fp
  sp : s'.sp = s.sp
  output : s'.output = s.output
  stack : ∀ a, s.fp ≤ a → s'.stack a = s.stack a

theorem Stored.within {offset : Int} {n : Int32} {s s' : Processor} (h : Stored offset n s s')
    (hle : offset ≤ -4) : s.Within s' := by
  refine ⟨h.fp, h.sp, h.output, fun a ha => ?_⟩
  rw [h.stack, Stack.write, if_neg]
  simp only [Datum.size]
  omega

end Assembly

namespace Flow.Draft
variable {D : Draft} {M : Module} {f : FuncId} {fr fr' : Frame} {s s' : Processor} {v : Operand}
  {n : Int32} {p : Place} {id : InstrId} {cell j : Nat} {slot : Slot}

/-- A place holds the word that its operand stands for. -/
theorem Mirrors.read (h : D.Mirrors fr s.stack s.fp)
    (hp : (Context.ofFunction M f D.function).place? v = some p)
    (hv : ∀ i, v = .param i → i < D.head.paramCount) (hn : fr.int v = .ok n) : s.read p = some n := by
  rw [Frame.int_eq_ok] at hn
  cases v with
  | int k =>
    rw [← Option.some.inj hp]
    exact hn
  | bool b =>
    rw [← Option.some.inj hp]
    exact hn
  | param i =>
    rw [← Option.some.inj hp, Layout.param_eq]
    refine h.params i n (hv i rfl) ?_
    simp only [Frame.eval] at hn
    split at hn
    · next k hk =>
      rw [hk]
      exact hn
    · cases hn
  | instr id =>
    obtain ⟨cell, hcell, rfl⟩ := Layout.result?_eq_some.1 hp
    refine h.results id cell n hcell (.inl ?_)
    simp only [Frame.eval] at hn
    cases hr : fr.results[id]? with
    | none =>
      rw [hr] at hn
      cases hn
    | some slot =>
      rw [hr] at hn
      exact ⟨slot, rfl, hn⟩
  | global g => cases hn

theorem Value.ne_param (h : D.Value v) (i : Nat) : v = .param i → i < D.head.paramCount := by
  rintro rfl
  exact h.elim

theorem Mirrors.result (h : D.Mirrors fr s.stack s.fp)
    (hpast : fr.block = 0 → 2 * D.slots.length ≤ fr.next) (hid : D.layout.Gives id cell)
    (hs : slot.word? = some n) (hst : Stored (Layout.offset cell) n s s') :
    D.Mirrors (fr.give id slot) s'.stack s'.fp := by
  rw [hst.stack, hst.fp]
  exact (h.advance hpast).give hid hs

/-- The code of an instruction leads to the frame and the cells that are given. -/
def Renders (D : Draft) (M : Module) (f : FuncId) (s : Processor) (id : InstrId) (i : Instr)
    (fr : Frame) (globals : Array Int32) : Prop :=
  ∃ is s', (Context.ofFunction M f D.function).instr id i = some (Assembly.code is) ∧
    execAll is s = some s' ∧ D.Mirrors fr s'.stack s'.fp ∧ Shares M globals s'.data ∧ s.Within s'

section Execution
variable {globals globals' : Array Int32} {i : Instr} {name : String} {is : List Ins} {e : Fault}

/-- An instruction whose code stores its result. -/
theorem Mirrors.renders (h : D.Mirrors fr s.stack s.fp) (hg : Shares M globals s.data)
    (hpast : fr.block = 0 → 2 * D.slots.length ≤ fr.next) (hid : D.layout.Gives id cell)
    (hcode : (Context.ofFunction M f D.function).instr id i = some (Assembly.code is))
    (hexec : ∃ s', execAll is s = some s' ∧ Stored (Layout.offset cell) n s s')
    (hs : slot.word? = some n) : D.Renders M f s id i (fr.give id slot) globals := by
  obtain ⟨s', hexec, hst⟩ := hexec
  exact ⟨is, s', hcode, hexec, h.result hpast hid hs hst, hst.data ▸ hg,
    hst.within (D.sound_layout.le_offset hid).2⟩

theorem eval_eq_cell (h : fr.eval v = .cell j) :
    ∃ id : Nat, v = .instr id ∧ fr.results[id]? = some (.cell j) := by
  cases v with
  | instr id =>
    refine ⟨id, rfl, ?_⟩
    simp only [Frame.eval] at h
    cases hr : fr.results[id]? with
    | none =>
      rw [hr] at h
      cases h
    | some slot =>
      rw [hr] at h
      exact congrArg some h
  | param i =>
    simp only [Frame.eval] at h
    split at h <;> cases h
  | int | bool | global => cases h

theorem Mirrors.eval_eq_global (h : D.Mirrors fr s.stack s.fp) {g : GlobalId}
    (hv : fr.eval v = .global g) : v = .global g := by
  cases v with
  | instr id =>
    simp only [Frame.eval] at hv
    cases hr : fr.results[id]? with
    | none =>
      rw [hr] at hv
      cases hv
    | some slot =>
      rw [hr] at hv
      exact absurd (hr.trans (congrArg some hv)) (h.globals id g)
  | param i =>
    simp only [Frame.eval] at hv
    split at hv <;> cases hv
  | int | bool => cases hv
  | global g' => rw [Slot.global.inj hv]

/-- A variable of the frame is read where its slot is. -/
theorem Mirrors.read_variable (h : D.Mirrors fr s.stack s.fp)
    (hpast : fr.block = 0 → 2 * D.slots.length ≤ fr.next) (hid : D.layout.Gives id cell)
    (hj : fr.results[id]? = some (.cell j)) :
    s.read (.frame (Layout.offset cell)) = some (fr.cells[j]?.getD 0) := by
  have hlt := h.slot_lt hj
  have hsize : j < fr.cells.size := by
    rw [h.cells]
    split
    · next h0 =>
      have hle := hpast h0
      omega
    · exact hlt
  refine h.results id cell _ hid (.inr ⟨j, hj, fun h0 => ?_, ?_⟩)
  · have hle := hpast h0
    omega
  · rw [Array.getElem?_eq_getElem hsize]
    rfl

theorem Mirrors.renders_load (h : D.Mirrors fr s.stack s.fp) (ht : M.Tidy) (hg : Shares M globals s.data)
    (hpast : fr.block = 0 → 2 * D.slots.length ≤ fr.next) (ha : D.Address M v)
    (hp : (Context.ofFunction M f D.function).place? v = some p) (hid : D.layout.Gives id cell)
    (hstep : fr.exec name globals id (.load v) = .ok (.proceed fr' globals')) :
    D.Renders M f s id (.load v) fr' globals' := by
  have hcode : (Context.ofFunction M f D.function).instr id (.load v) =
      some (Assembly.code [.load p .eax, .store .eax (.frame (Layout.offset cell))]) := by
    have hr : (Context.ofFunction M f D.function).layout.result? id = some _ :=
      Layout.result?_eq_some.2 ⟨cell, hid, rfl⟩
    simp [Context.instr, Context.copy, hp, hr]
  simp only [Frame.exec] at hstep
  split at hstep
  · next j heval =>
    obtain ⟨slot, rfl, hj⟩ := eval_eq_cell heval
    obtain ⟨cell', hcell', rfl⟩ := Layout.result?_eq_some.1 hp
    cases hstep
    exact h.renders hg hpast hid hcode (exec_copy (h.read_variable hpast hcell' hj)) rfl
  · next g heval =>
    obtain rfl := h.eval_eq_global heval
    cases hstep
    obtain ⟨x, hx, rfl⟩ := Context.place?_global.1 hp
    obtain ⟨hlt, rfl⟩ := Array.getElem?_eq_some_iff.1 hx
    exact h.renders hg hpast hid hcode (exec_copy (hg.read ht hlt)) rfl
  · cases hstep

/-- A store to a variable of the frame, which may give the slot its first value. -/
theorem Mirrors.renders_storeCell (h : D.Mirrors fr s.stack s.fp) (hg : Shares M globals s.data)
    (hp : (Context.ofFunction M f D.function).place? v = some p)
    (hv : ∀ i, v = .param i → i < D.head.paramCount) (hn : fr.int v = .ok n) {at_ : InstrId}
    (hcell : D.layout.Gives at_ cell) (hj : fr.results[at_]? = some (.cell j))
    (hbegun : ∀ i < D.slots.length, i ≠ j → D.Begun fr.advance i → D.Begun fr i)
    (hsize : fr.cells.size =
      if fr.block = 0 then min (fr.next + 1) D.slots.length else D.slots.length) :
    D.Renders M f s id (.store v (.instr at_))
      { fr with cells := fr.cells.setIfInBounds j n }.advance globals := by
  have hq : (Context.ofFunction M f D.function).place? (.instr at_) = some _ :=
    Layout.result?_eq_some.2 ⟨cell, hcell, rfl⟩
  obtain ⟨s', hexec, hst⟩ : ∃ s', execAll _ s = some s' ∧ Stored (Layout.offset cell) n s s' :=
    exec_copy (h.read hp hv hn)
  refine ⟨_, s', by simp only [Context.instr, hp, hq]; rfl, hexec, ?_, hst.data ▸ hg,
    hst.within (D.sound_layout.le_offset hcell).2⟩
  rw [hst.stack, hst.fp]
  exact h.store hcell hj hbegun hsize

theorem Mirrors.renders_storeGlobal (h : D.Mirrors fr s.stack s.fp) (ht : M.Tidy)
    (hg : Shares M globals s.data) (hpast : fr.block = 0 → 2 * D.slots.length ≤ fr.next)
    (hp : (Context.ofFunction M f D.function).place? v = some p)
    (hv : ∀ i, v = .param i → i < D.head.paramCount) (hn : fr.int v = .ok n) {g : Nat}
    (hlt : g < M.globals.size) :
    D.Renders M f s id (.store v (.global g)) fr.advance (globals.setIfInBounds g n) := by
  have hcode : (Context.ofFunction M f D.function).instr id (.store v (.global g)) =
      some (Assembly.code [.load p .eax, .store .eax (.global M.globals[g].name)]) := by
    simp only [Context.instr, hp, Context.place?_global.2 ⟨_, Array.getElem?_eq_getElem hlt, rfl⟩]
    rfl
  refine ⟨_, { s.set .eax n with data := fun x =>
    if x = M.globals[g].name then some n else s.data x }, hcode, ?_, h.advance hpast,
    hg.store ht hlt n, ⟨rfl, rfl, rfl, fun _ _ => rfl⟩⟩
  have hdata : ((s.set .eax n).data M.globals[g].name).isSome := by
    change (s.data _).isSome
    rw [hg.read ht hlt]
    rfl
  simp only [execAll, Ins.exec, h.read hp hv hn, Option.map_some, Option.bind_some, Processor.regs_set,
    if_pos, Processor.write, hdata]
  rfl

theorem exec_store_eq_ok {u : Operand}
    (h : fr.exec name globals id (.store u v) = .ok (.proceed fr' globals')) :
    ∃ n, fr.int u = .ok n ∧
      ((∃ j, fr.eval v = .cell j ∧ fr' = { fr with cells := fr.cells.setIfInBounds j n }.advance ∧
          globals' = globals) ∨
        ∃ g, fr.eval v = .global g ∧ fr' = fr.advance ∧ globals' = globals.setIfInBounds g n) := by
  simp only [Frame.exec] at h
  obtain ⟨n, hn, h⟩ := except_bind_eq_ok.1 h
  refine ⟨n, hn, ?_⟩
  split at h
  · next j heval =>
    cases h
    exact .inl ⟨j, heval, rfl, rfl⟩
  · next g heval =>
    cases h
    exact .inr ⟨g, heval, rfl, rfl⟩
  · cases h

theorem Mirrors.renders_store (h : D.Mirrors fr s.stack s.fp) (ht : M.Tidy)
    (hg : Shares M globals s.data) (hpast : fr.block = 0 → 2 * D.slots.length ≤ fr.next)
    {u : Operand} (hu : D.Value u) (ha : D.Address M v)
    (hp : (Context.ofFunction M f D.function).place? u = some p)
    (hq : ∃ q, (Context.ofFunction M f D.function).place? v = some q)
    (hstep : fr.exec name globals id (.store u v) = .ok (.proceed fr' globals')) :
    D.Renders M f s id (.store u v) fr' globals' := by
  obtain ⟨n, hn, ⟨j, heval, rfl, rfl⟩ | ⟨g, heval, rfl, rfl⟩⟩ := exec_store_eq_ok hstep
  · obtain ⟨slot, rfl, hj⟩ := eval_eq_cell heval
    obtain ⟨q, hq⟩ := hq
    obtain ⟨cell, hcell, rfl⟩ := Layout.result?_eq_some.1 hq
    refine h.renders_storeCell hg hp hu.ne_param hn hcell hj (fun i hi _ _ h0 => ?_) (h.advance hpast).cells
    have hle := hpast h0
    omega
  · obtain rfl := h.eval_eq_global heval
    exact h.renders_storeGlobal ht hg hpast hp hu.ne_param hn ha

/-- Arithmetic that succeeds is arithmetic on words. -/
theorem arithSlot_eq_ok {op : ArithOp} {l r : Operand} (h : fr.arithSlot op l r = .ok slot) :
    ∃ a b n, fr.int l = .ok a ∧ fr.int r = .ok b ∧ arith op a b = .ok n ∧ slot.word? = some n := by
  unfold Frame.arithSlot at h
  split at h
  · next a b hl hr =>
    cases h
    refine ⟨_, _, _, int_of_eval_bool hl, int_of_eval_bool hr, rfl, ?_⟩
    cases a <;> cases b <;> rfl
  · next a b hl hr =>
    cases h
    refine ⟨_, _, _, int_of_eval_bool hl, int_of_eval_bool hr, rfl, ?_⟩
    cases a <;> cases b <;> rfl
  · obtain ⟨a, ha, h⟩ := except_bind_eq_ok.1 h
    obtain ⟨b, hb, h⟩ := except_bind_eq_ok.1 h
    obtain ⟨n, hn, h⟩ := except_bind_eq_ok.1 h
    cases h
    exact ⟨a, b, n, ha, hb, hn, rfl⟩

/-- Arithmetic and comparisons: two operands are loaded, worked on, and the result is stored. -/
theorem Mirrors.renders_binary (h : D.Mirrors fr s.stack s.fp) (hg : Shares M globals s.data)
    (hpast : fr.block = 0 → 2 * D.slots.length ≤ fr.next) {l r : Operand} (hl : D.Value l)
    (hr : D.Value r) {q : Place} (hp : (Context.ofFunction M f D.function).place? l = some p)
    (hq : (Context.ofFunction M f D.function).place? r = some q) {a b : Int32} (ha : fr.int l = .ok a)
    (hb : fr.int r = .ok b) (hid : D.layout.Gives id cell) {reg : Reg}
    (hcode : (Context.ofFunction M f D.function).instr id i = some (Assembly.code
      ([Ins.load p .eax, .load q .ecx] ++ is ++ [Ins.store reg (.frame (Layout.offset cell))])))
    (hexec : ∃ s', execAll is (s.loaded a b) = some s' ∧ s.Alike s' ∧ s'.regs reg = some n)
    (hs : slot.word? = some n) : D.Renders M f s id i (fr.give id slot) globals := by
  obtain ⟨s', hexec, hsame, hreg⟩ := hexec
  refine h.renders hg hpast hid hcode (exec_store ?_ hsame hreg) hs
  rw [execAll_append, execAll_loadBoth (h.read hp hl.ne_param ha) (h.read hq hr.ne_param hb)]
  exact hexec

/-- The store that gives a slot its first value. -/
theorem Finished.renders_initial (h : D.Finished M) (h0 : fr.block = 0) {j : Nat} {at_ : InstrId}
    {init : Operand} (hj : D.slots[j]? = some (at_, init)) (hk : fr.next = D.slots.length + j)
    (hstart : D.Starts init)
    (hops : ∀ v ∈ (Instr.store init (.instr at_)).operands,
      ∃ p, (Context.ofFunction M f D.function).place? v = some p)
    (hm : D.Mirrors fr s.stack s.fp) (hg : Shares M globals s.data)
    (hstep : fr.exec name globals id (.store init (.instr at_)) = .ok (.proceed fr' globals')) :
    D.Renders M f s id (.store init (.instr at_)) fr' globals' := by
  obtain ⟨p, hp⟩ := hops init (by simp [Instr.operands])
  obtain ⟨q, hq⟩ := hops (.instr at_) (by simp [Instr.operands])
  obtain ⟨cell, hcell, rfl⟩ := Layout.result?_eq_some.1 hq
  obtain ⟨n, hn, ⟨j', heval, rfl, rfl⟩ | ⟨g, heval, rfl, rfl⟩⟩ := exec_store_eq_ok hstep
  · obtain ⟨slot, he, hj'⟩ := eval_eq_cell heval
    obtain rfl := Operand.instr.inj he
    obtain ⟨init', hinit'⟩ := hm.slots at_ j' hj'
    obtain rfl := h.slots.distinct j j' at_ init init' hj hinit'
    have hlt := (List.getElem?_eq_some_iff.1 hj).1
    refine hm.renders_storeCell hg hp (fun i hi => ?_) hn hcell hj' (fun i hi hne hb _ => ?_) ?_
    · rcases hstart with rfl | ⟨k, rfl, hlt⟩
      · cases hi
      · rwa [← Operand.param.inj hi]
    · have hb : D.slots.length + i < fr.next + 1 := hb h0
      omega
    · rw [hm.cells, if_pos h0, if_pos h0]
      omega
  · cases hm.eval_eq_global heval

/-- What the machine does at an instruction, the code of the instruction does on the stack. -/
theorem Finished.renders (h : D.Finished M) (ht : M.Tidy) (hi : Holds D.function fr.block fr.next id i)
    (hphi : ¬ i.IsPhi) (hm : D.Mirrors fr s.stack s.fp) (hg : Shares M globals s.data)
    (hstep : fr.exec name globals id i = .ok (.proceed fr' globals')) :
    D.Renders M f s id i fr' globals' := by
  have hsup := h.supplied f
  have hmem := List.mem_of_getElem? (h.getElem?_instrsOf hi (f := f))
  have hops := hsup.operands _ _ hmem
  have hres := hsup.results _ _ hmem
  rcases h.position hi with ⟨h0, _, init, rfl, hslot⟩ | ⟨h0, j, at_, init, rfl, hj, hk, hstart⟩ |
    ⟨hfit, hpast⟩ | ⟨-, -, hjoins⟩
  · cases hstep
    exact ⟨[], s, rfl, rfl, hm.alloca h0 hslot, hg, ⟨rfl, rfl, rfl, fun _ _ => rfl⟩⟩
  · exact h.renders_initial h0 hj hk hstart hops hm hg hstep
  · cases i with
    | alloca | phi => exact hfit.elim
    | load a =>
      obtain ⟨p, hp⟩ := hops a (by simp [Instr.operands])
      obtain ⟨r, hr⟩ := hres rfl
      obtain ⟨cell, hcell, rfl⟩ := Layout.result?_eq_some.1 hr
      exact hm.renders_load ht hg hpast hfit hp hcell hstep
    | store u a =>
      obtain ⟨p, hp⟩ := hops u (by simp [Instr.operands])
      exact hm.renders_store ht hg hpast hfit.1 hfit.2 hp (hops a (by simp [Instr.operands])) hstep
    | arith op ty l r =>
      obtain ⟨p, hp⟩ := hops l (by simp [Instr.operands])
      obtain ⟨q, hq⟩ := hops r (by simp [Instr.operands])
      obtain ⟨d, hd⟩ := hres rfl
      obtain ⟨cell, hcell, rfl⟩ := Layout.result?_eq_some.1 hd
      obtain ⟨slot, hslot, hrest⟩ := except_bind_eq_ok.1 hstep
      cases hrest
      obtain ⟨a, b, n, ha, hb, hn, hword⟩ := arithSlot_eq_ok hslot
      refine hm.renders_binary hg hpast hfit.1.1 hfit.1.2 hp hq ha hb hcell ?_ (exec_arith hn) hword
      simp [Context.instr, Context.loadBoth, hp, hq, hd, Assembly.code]
    | compare op l r =>
      obtain ⟨p, hp⟩ := hops l (by simp [Instr.operands])
      obtain ⟨q, hq⟩ := hops r (by simp [Instr.operands])
      obtain ⟨d, hd⟩ := hres rfl
      obtain ⟨cell, hcell, rfl⟩ := Layout.result?_eq_some.1 hd
      obtain ⟨a, ha, hrest⟩ := except_bind_eq_ok.1 hstep
      obtain ⟨b, hb, hrest⟩ := except_bind_eq_ok.1 hrest
      cases hrest
      refine hm.renders_binary hg hpast hfit.1 hfit.2 hp hq ha hb hcell ?_ (exec_compare s op a b) rfl
      simp [Context.instr, Context.loadBoth, hp, hq, hd, Assembly.code]
    | widen u =>
      obtain ⟨p, hp⟩ := hops u (by simp [Instr.operands])
      obtain ⟨d, hd⟩ := hres rfl
      obtain ⟨cell, hcell, rfl⟩ := Layout.result?_eq_some.1 hd
      obtain ⟨n, hn, hrest⟩ := except_bind_eq_ok.1 hstep
      cases hrest
      refine hm.renders hg hpast hcell ?_ (exec_copy (hm.read hp (Value.ne_param hfit) hn)) rfl
      simp [Context.instr, Context.copy, hp, hd]
    | call callee args =>
      obtain ⟨ns, -, hrest⟩ := except_bind_eq_ok.1 hstep
      cases hrest
  · exact absurd hjoins.isPhi hphi

theorem int_ne_division (h : fr.int v = .error e) : ¬ e.Division := by
  obtain ⟨s, rfl⟩ := Frame.int_eq_error h
  rintro (he | he) <;> cases he

theorem exec_eq_division (h : fr.exec name globals id i = .error e) (he : e.Division) :
    ∃ op ty l r, i = .arith op ty l r ∧ fr.arithSlot op l r = .error e := by
  have hcomes := fr.comes_exec name globals id i
  rw [h] at hcomes
  cases hcomes with
  | arith slot => exact ⟨_, _, _, _, rfl, slot⟩
  | notInteger | loadThrough | storeThrough | noIncoming => rcases he with he | he <;> cases he

theorem arith_eq_error {op : ArithOp} {a b : Int32} (h : Machine.arith op a b = .error e) :
    (b = 0 ∨ a = minInteger ∧ b = -1) ∧ (Context.arith op).1 = [.signExtend, .divide] := by
  have hfail (r : Int32) (h : (if b = 0 then .error .divisionByZero else if a = minInteger ∧ b = -1 then
      .error .divisionOverflow else .ok r : Except Fault Int32) = .error e) :
      b = 0 ∨ a = minInteger ∧ b = -1 := by
    split at h
    · exact .inl ‹_›
    · split at h
      · exact .inr ‹_›
      · cases h
  cases op with
  | div => exact ⟨hfail _ h, rfl⟩
  | rem => exact ⟨hfail _ h, rfl⟩
  | add | sub | mul | and | or => cases h

theorem arithSlot_eq_division {op : ArithOp} {l r : Operand}
    (h : fr.arithSlot op l r = .error e) (he : e.Division) :
    ∃ a b, fr.int l = .ok a ∧ fr.int r = .ok b ∧ Machine.arith op a b = .error e := by
  unfold Frame.arithSlot at h
  split at h
  · cases h
  · cases h
  · rcases except_bind_eq_error.1 h with h | ⟨a, ha, h⟩
    · exact absurd he (int_ne_division h)
    · rcases except_bind_eq_error.1 h with h | ⟨b, hb, h⟩
      · exact absurd he (int_ne_division h)
      · rcases except_bind_eq_error.1 h with h | ⟨n, -, h⟩
        · exact ⟨a, b, ha, hb, h⟩
        · cases h

/-- Where the machine finds that a division has no result, the code of the instruction gets as far as
the division and stops there. -/
theorem Finished.traps (h : D.Finished M) (hi : Holds D.function fr.block fr.next id i)
    (hm : D.Mirrors fr s.stack s.fp) (hstep : fr.exec name globals id i = .error e)
    (he : e.Division) : ∃ is js s',
      (Context.ofFunction M f D.function).instr id i = some (Assembly.code (is ++ Ins.divide :: js)) ∧
      execAll is s = some s' ∧ s'.traps ∧ s'.output = s.output := by
  obtain ⟨op, ty, l, r, rfl, hslot⟩ := exec_eq_division hstep he
  obtain ⟨a, b, ha, hb, harith⟩ := arithSlot_eq_division hslot he
  obtain ⟨hbad, hcode⟩ := arith_eq_error harith
  have hsup := h.supplied f
  have hmem := List.mem_of_getElem? (h.getElem?_instrsOf hi (f := f))
  obtain ⟨p, hp⟩ := hsup.operands _ _ hmem l (by simp [Instr.operands])
  obtain ⟨q, hq⟩ := hsup.operands _ _ hmem r (by simp [Instr.operands])
  obtain ⟨d, hd⟩ := hsup.results _ _ hmem rfl
  rcases h.position hi with ⟨-, _, _, hno, -⟩ | ⟨-, _, _, _, hno, -⟩ | ⟨hfit, -⟩ | ⟨-, -, hjoins⟩
  · cases hno
  · cases hno
  · refine ⟨[Ins.load p .eax, .load q .ecx] ++ [Ins.signExtend], [.store (Context.arith op).2 d],
      s.dividing a b, ?_, ?_, traps_dividing s hbad, rfl⟩
    · simp [Context.instr, Context.loadBoth, hp, hq, hd, hcode, Assembly.code]
    · rw [execAll_append, execAll_loadBoth (hm.read hp hfit.1.1.ne_param ha)
        (hm.read hq hfit.1.2.ne_param hb)]
      exact execAll_signExtend s a b
  · exact hjoins.isPhi.elim

end Execution
end Flow.Draft
end IntLang
