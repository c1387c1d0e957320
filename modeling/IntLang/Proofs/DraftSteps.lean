import IntLang.Proofs.Building
import Mathlib.Logic.Relation

/-! Drafts grow step by step. `Step` says once what lowering can do to a draft, and what holds along
`Built` is shown of one step: nothing that was written changes, the blocks without an end are the
current one and those not begun yet, and a block that control may go to stays one. -/
namespace IntLang.Flow

def Instr.IsPhi : Instr → Prop
  | .phi .. => True
  | _ => False

/-- What an operation works on: truth values, or integers. -/
def ArithOp.operandTy : ArithOp → Ty
  | .and | .or => .i1
  | .add | .sub | .mul | .div | .rem => .i32

def Instr.needs : Instr → List (Operand × Ty)
  | .alloca _ => []
  | .load a => [(a, .ptr)]
  | .store v a => [(v, .i32), (a, .ptr)]
  | .arith op _ l r => [(l, op.operandTy), (r, op.operandTy)]
  | .compare _ l r => [(l, .i32), (r, .i32)]
  | .widen v => [(v, .i1)]
  | .call _ args => args.map (·, .i32)
  | .phi _ incoming => incoming.map (·.1, .i1)

def Terminator.needs : Terminator → List (Operand × Ty)
  | .jump _ => []
  | .branch c _ _ => [(c, .i1)]
  | .ret v => [(v, .i32)]

namespace Draft

/-- Block `b` was made while `c` was the current one. -/
def Hangs (d : Draft) (c b : Nat) : Prop :=
  0 < b ∧ ∃ p, d.blocks[b]? = some p ∧ p.parent = c

/-- Block `c` is `b`, or the one that `b` was made in, or the one that this was made in, and so on. -/
def Above (d : Draft) : Nat → Nat → Prop :=
  Relation.ReflTransGen d.Hangs

/-- The instruction `id` stands in block `b`. -/
def Placed (d : Draft) (b : Nat) (id : InstrId) : Prop :=
  ∃ p, d.blocks[b]? = some p ∧ id ∈ d.opening b ++ p.instrs

/-- An operand of this type that can be used in the current block: a constant, or the result of an
instruction in that block or in one above. -/
def Has (d : Draft) : Operand → Ty → Prop
  | .bool _, ty => ty = .i1
  | .int _, ty => ty = .i32
  | .global _, ty => ty = .ptr
  | .instr id, ty => (∃ i, d.code[id]? = some i ∧ i.resultTy? = some ty) ∧
      ∃ b, d.Placed b id ∧ d.Above b d.block
  | .param _, _ => False

def Serves (d : Draft) (needs : List (Operand × Ty)) : Prop :=
  ∀ v ty, (v, ty) ∈ needs → d.Has v ty

/-- Control can go on to blocks that were made in the current one or in one above. -/
def Admits (d : Draft) (t : Terminator) : Prop :=
  ∀ b ∈ t.successors, ∃ c, d.Hangs c b ∧ d.Above c d.block

/-- An operand that stands for an integer or a truth value. -/
def Value (d : Draft) : Operand → Prop
  | .int _ | .bool _ => True
  | .instr id => ∃ i, d.code[id]? = some i ∧ i.resultTy?.isSome ∧ ∀ name, i ≠ .alloca name
  | .param _ | .global _ => False

/-- An operand that stands for the address of a variable. -/
def Address (d : Draft) (m : Module) : Operand → Prop
  | .instr id => ∃ name, d.code[id]? = some (.alloca name)
  | .global g => (g : Nat) < m.globals.size
  | _ => False

/-- A function can be called with `n` arguments. -/
def Takes (m : Module) (id : FuncId) (n : Nat) : Prop :=
  ∃ f, m.function? id = some f ∧ (f.paramCount = n ∨ f.variadic = true ∧ f.paramCount ≤ n)

/-- A function that takes any number of arguments is told first how many follow. -/
def Counted (m : Module) (id : FuncId) (args : List Operand) : Prop :=
  ∃ f, m.function? id = some f ∧
    (f.variadic = true → ∃ vs, args = .int (Int32.ofNat vs.length) :: vs)

/-- An instruction that can be added to the current block. -/
def Fits (d : Draft) (m : Module) : Instr → Prop
  | .load a => d.Address m a
  | .store v a => d.Value v ∧ d.Address m a
  | .arith _ ty l r => (d.Value l ∧ d.Value r) ∧ ty = d.function.typeOf l
  | .compare _ l r => d.Value l ∧ d.Value r
  | .widen v => d.Value v
  | .call id args => Takes m id args.length ∧ Counted m id args ∧ ∀ v ∈ args, d.Value v
  | .alloca _ | .phi .. => False

/-- A block that control can go to. -/
def Target (d : Draft) (b : Nat) : Prop :=
  0 < b ∧ ∃ p, d.blocks[b]? = some p ∧ ∀ id ∈ p.instrs, ∃ i, d.code[id]? = some i ∧ ¬ i.IsPhi

/-- A way to end the current block. -/
def Ends (d : Draft) : Terminator → Prop
  | .jump dest => d.Target dest
  | .branch c onTrue onFalse => d.Value c ∧ d.Target onTrue ∧ d.Target onFalse
  | .ret v => d.Value v

/-- What a variable can start with. -/
def Starts (d : Draft) (init : Operand) : Prop :=
  init = .int 0 ∨ ∃ i, init = .param i ∧ i < d.head.paramCount

/-- What lowering can do to a draft. -/
inductive Step (m : Module) : Draft → Draft → Prop where
  | stay {d : Draft} : Step m d d
  | push {d : Draft} {i : Instr} : d.Fits m i → d.Serves i.needs → Step m d (d.push i)
  | slot {d : Draft} {name : String} {init : Operand} : d.Starts init → Step m d (d.slot name init)
  | append {d : Draft} (name : String) : Step m d (d.append name)
  | test {d : Draft} {v : Operand} (whenZero : Bool) :
      d.Has v .i32 → Step m d (d.zeroTest v whenZero)
  | close {d : Draft} {t : Terminator} {b : Nat} :
      d.Ends t → d.Serves t.needs → d.Admits t → b ∈ d.pending → Step m d ((d.close t).goto b)
  | leave {d : Draft} {v : Operand} (name : String) :
      d.Has v .i32 → Step m d (((d.close (.ret v)).append name).goto d.blocks.length)

/-- Any number of steps, while the module grows. -/
inductive Built (id : FuncId) : Module → Draft → Module → Draft → Prop where
  | refl (m : Module) (d : Draft) : Built id m d m d
  | step {m m₁ m₂ : Module} {d d₁ d₂ : Draft} :
      Built id m d m₁ d₁ → Step m₁ d₁ d₂ → Grows id m₁ m₂ → Built id m d m₂ d₂

namespace Built
variable {id : FuncId} {m m' m'' : Module} {d d' d'' : Draft}

theorem trans (h : Built id m d m' d') (h' : Built id m' d' m'' d'') : Built id m d m'' d'' := by
  induction h' with
  | refl => exact h
  | step _ hs hg ih => exact .step (ih h) hs hg

theorem one (hs : Step m d d') (hg : Grows id m m') : Built id m d m' d' :=
  .step (.refl m d) hs hg

theorem grows (h : Built id m d m' d') : Grows id m m' := by
  induction h with
  | refl => exact .refl id m
  | step _ _ hg ih => exact ih.trans hg

end Built

/-- `D` goes on from `d`. -/
structure Le (d D : Draft) : Prop where
  head : D.head = d.head
  code : d.code <+: D.code
  slots : d.slots <+: D.slots
  blocks : ∀ (b : Nat) p, d.blocks[b]? = some p → ∃ q, D.blocks[b]? = some q ∧
    p.instrs <+: q.instrs ∧
    (p.terminator ≠ none → q.instrs = p.instrs ∧ q.terminator = p.terminator)
  parents : ∀ (b : Nat) p q, d.blocks[b]? = some p → D.blocks[b]? = some q → q.parent = p.parent

namespace Le
variable {d d' d'' : Draft}

theorem refl (d : Draft) : Le d d :=
  ⟨rfl, List.prefix_rfl, List.prefix_rfl, fun _ p hp => ⟨p, hp, List.prefix_rfl, fun _ => ⟨rfl, rfl⟩⟩,
    fun _ _ _ hp hq => congrArg Piece.parent (Option.some.inj (hq.symm.trans hp))⟩

theorem trans (h : Le d d') (h' : Le d' d'') : Le d d'' := by
  refine ⟨h'.head.trans h.head, h.code.trans h'.code, h.slots.trans h'.slots, fun b p hp => ?_,
    fun b p r hp hr => ?_⟩
  · obtain ⟨q, hq, hpq, hend⟩ := h.blocks b p hp
    obtain ⟨r, hr, hqr, hend'⟩ := h'.blocks b q hq
    refine ⟨r, hr, hpq.trans hqr, fun ht => ?_⟩
    obtain ⟨hi, ht'⟩ := hend ht
    obtain ⟨hi', ht''⟩ := hend' (ht' ▸ ht)
    exact ⟨hi'.trans hi, ht''.trans ht'⟩
  · obtain ⟨q, hq, -⟩ := h.blocks b p hp
    exact (h'.parents b q r hq hr).trans (h.parents b p q hp hq)

theorem code_eq (h : Le d d') {id : Nat} {i : Instr} (hi : d.code[id]? = some i) :
    d'.code[id]? = some i := by
  obtain ⟨l, hl⟩ := h.code
  rw [← hl, List.getElem?_append_left (List.getElem?_eq_some_iff.1 hi).1, hi]

theorem push (h : d.Open) (i : Instr) : Le d (d.push i) := by
  refine ⟨rfl, List.prefix_append _ _, List.prefix_rfl, fun b p hp => ?_, fun b p q hp hq => ?_⟩
  · rw [blocks_push, hp]
    refine ⟨_, rfl, ?_⟩
    split
    · next hb =>
      obtain ⟨q, hq, ht⟩ := h
      obtain rfl : q = p := Option.some.inj (hq.symm.trans (hb ▸ hp))
      exact ⟨List.prefix_append _ _, fun hne => absurd ht hne⟩
    · exact ⟨List.prefix_rfl, fun _ => ⟨rfl, rfl⟩⟩
  · rw [blocks_push, hp] at hq
    obtain rfl := Option.some.inj hq
    split <;> rfl

theorem close (h : d.Open) (t : Terminator) : Le d (d.close t) := by
  refine ⟨rfl, List.prefix_rfl, List.prefix_rfl, fun b p hp => ?_, fun b p q hp hq => ?_⟩
  · rw [blocks_close, hp]
    refine ⟨_, rfl, ?_⟩
    split
    · next hb =>
      obtain ⟨q, hq, ht⟩ := h
      obtain rfl : q = p := Option.some.inj (hq.symm.trans (hb ▸ hp))
      exact ⟨List.prefix_rfl, fun hne => absurd ht hne⟩
    · exact ⟨List.prefix_rfl, fun _ => ⟨rfl, rfl⟩⟩
  · rw [blocks_close, hp] at hq
    obtain rfl := Option.some.inj hq
    split <;> rfl

theorem append (d : Draft) (name : String) : Le d (d.append name) := by
  have hold (b : Nat) (p : Piece) (hp : d.blocks[b]? = some p) : (d.append name).blocks[b]? = some p := by
    rw [blocks_append_of_lt name (List.getElem?_eq_some_iff.1 hp).1, hp]
  refine ⟨rfl, List.prefix_rfl, List.prefix_rfl,
    fun b p hp => ⟨p, hold b p hp, List.prefix_rfl, fun _ => ⟨rfl, rfl⟩⟩, fun b p q hp hq => ?_⟩
  rw [Option.some.inj (hq.symm.trans (hold b p hp))]

theorem goto (d : Draft) (b : Nat) : Le d (d.goto b) :=
  ⟨rfl, List.prefix_rfl, List.prefix_rfl, (refl d).blocks, (refl d).parents⟩

theorem slot (d : Draft) (name : String) (init : Operand) : Le d (d.slot name init) :=
  ⟨rfl, List.prefix_append _ _, List.prefix_append _ _, (refl d).blocks, (refl d).parents⟩

end Le

section Hanging
variable {d d' : Draft} {b c : Nat}

theorem hangs_push {i : Instr} : (d.push i).Hangs c b ↔ d.Hangs c b := by
  refine and_congr_right fun _ => ?_
  rw [blocks_push]
  rcases d.blocks[b]? with _ | p
  · rfl
  · simp only [Option.map_some, Option.some.injEq, exists_eq_left']
    split <;> rfl

theorem hangs_close {t : Terminator} : (d.close t).Hangs c b ↔ d.Hangs c b := by
  refine and_congr_right fun _ => ?_
  rw [blocks_close]
  rcases d.blocks[b]? with _ | p
  · rfl
  · simp only [Option.map_some, Option.some.injEq, exists_eq_left']
    split <;> rfl

theorem hangs_append {name : String} : (d.append name).Hangs c b ↔
    d.Hangs c b ∨ c = d.block ∧ b = d.blocks.length ∧ 0 < b := by
  simp only [Hangs, blocks_append]
  by_cases hb : b = d.blocks.length
  · have hnone : d.blocks[b]? = none := by simp [hb]
    simp [hb, and_comm, eq_comm]
  · simp [hb]

theorem Hangs.le (h : d.Hangs c b) (hle : Le d d') : d'.Hangs c b := by
  obtain ⟨h0, p, hp, hc⟩ := h
  obtain ⟨q, hq, -⟩ := hle.blocks b p hp
  exact ⟨h0, q, hq, (hle.parents b p q hp hq).trans hc⟩

theorem Above.trans {a : Nat} (h : d.Above a c) (h' : d.Above c b) : d.Above a b :=
  Relation.ReflTransGen.trans h h'

theorem Above.le (h : d.Above c b) (hle : Le d d') : d'.Above c b := by
  induction h with
  | refl => exact .refl
  | tail _ hlast ih => exact ih.tail (hlast.le hle)

theorem mem_opening_of_le {id : InstrId} (hle : Le d d') (h : id ∈ d.opening b) :
    id ∈ d'.opening b := by
  unfold opening at h ⊢
  split at h
  · next h0 =>
    rw [if_pos h0, List.mem_append]
    exact (List.mem_append.1 h).imp (fun h => (hle.slots.map _).subset h)
      fun h => (hle.slots.map _).subset h
  · cases h

theorem Placed.le {id : InstrId} (h : d.Placed b id) (hle : Le d d') : d'.Placed b id := by
  obtain ⟨p, hp, hid⟩ := h
  obtain ⟨q, hq, hpre, -⟩ := hle.blocks b p hp
  exact ⟨q, hq, List.mem_append.2 ((List.mem_append.1 hid).imp (mem_opening_of_le hle)
    fun hid => hpre.subset hid)⟩

theorem Has.le {v : Operand} {ty : Ty} (h : d.Has v ty) (hle : Le d d')
    (hblock : d'.Above d.block d'.block) : d'.Has v ty := by
  cases v with
  | instr id =>
    obtain ⟨⟨i, hi, hty⟩, b, hb, habove⟩ := h
    exact ⟨⟨i, hle.code_eq hi, hty⟩, b, hb.le hle, (habove.le hle).trans hblock⟩
  | bool | int | param | global => exact h

theorem Has.typeOf_eq {v : Operand} {ty : Ty} (h : d.Has v ty) : d.function.typeOf v = ty := by
  cases v with
  | instr id =>
    obtain ⟨⟨i, hi, hty⟩, -⟩ := h
    simp [Function.typeOf, hi, hty]
  | bool | int | global => exact h.symm
  | param => exact h.elim

theorem Has.value {v : Operand} {ty : Ty} (h : d.Has v ty) (hty : ty ≠ .ptr) : d.Value v := by
  cases v with
  | instr id =>
    obtain ⟨⟨i, hi, hres⟩, -⟩ := h
    refine ⟨i, hi, by simp [hres], ?_⟩
    rintro name rfl
    exact hty (Option.some.inj hres).symm
  | bool | int => trivial
  | param => exact h.elim
  | global => exact hty h

@[simp] theorem has_bool {x : Bool} {ty : Ty} : d.Has (.bool x) ty ↔ ty = .i1 := Iff.rfl

@[simp] theorem has_int {n : Int32} {ty : Ty} : d.Has (.int n) ty ↔ ty = .i32 := Iff.rfl

@[simp] theorem serves_nil : d.Serves [] := by
  simp [Serves]

@[simp] theorem serves_cons {v : Operand} {ty : Ty} {needs : List (Operand × Ty)} :
    d.Serves ((v, ty) :: needs) ↔ d.Has v ty ∧ d.Serves needs := by
  simp only [Serves, List.mem_cons, Prod.mk.injEq]
  constructor
  · exact fun h => ⟨h v ty (.inl ⟨rfl, rfl⟩), fun u t hu => h u t (.inr hu)⟩
  · rintro ⟨hv, hs⟩ u t (⟨rfl, rfl⟩ | hu)
    · exact hv
    · exact hs u t hu

theorem serves_map {vs : List Operand} {ty : Ty} (h : ∀ v ∈ vs, d.Has v ty) :
    d.Serves (vs.map (·, ty)) := by
  intro v t hv
  obtain ⟨u, hu, he⟩ := List.mem_map.1 hv
  obtain ⟨rfl, rfl⟩ := Prod.mk.inj he
  exact h u hu

@[simp] theorem admits_jump {b : Nat} :
    d.Admits (.jump b) ↔ ∃ c, d.Hangs c b ∧ d.Above c d.block := by
  simp [Admits, Terminator.successors]

@[simp] theorem admits_branch {v : Operand} {b c : Nat} :
    d.Admits (.branch v b c) ↔ d.Admits (.jump b) ∧ d.Admits (.jump c) := by
  simp [Admits, Terminator.successors]

/-- The result of an instruction that has just been added. -/
theorem has_push (hd : d.Open) {i : Instr} {ty : Ty} (hi : i.resultTy? = some ty) {n : Nat}
    (hn : d.code.length = n) : (d.push i).Has (.instr n) ty := by
  obtain ⟨p, hp, -⟩ := hd
  refine ⟨⟨i, by simp [← hn], hi⟩, d.block, ⟨_, by rw [blocks_push, hp]; rfl, ?_⟩, .refl⟩
  simp [hn]

end Hanging

structure Framed (d : Draft) : Prop where
  current : d.Open
  notMem : d.block ∉ d.pending
  nodup : d.pending.Nodup
  fresh : ∀ b ∈ d.pending, 0 < b ∧ d.Fresh b
  ended : ∀ (b : Nat) p, d.blocks[b]? = some p → p.terminator = none → b = d.block ∨ b ∈ d.pending
  rooted : ∀ c b, d.Hangs c b → c < b

namespace Framed
variable {d d' : Draft}

theorem push (h : d.Framed) (i : Instr) : (d.push i).Framed := by
  refine ⟨h.current.push i, h.notMem, h.nodup, fun b hb => ?_, fun b p hp ht => ?_,
    fun c b hcb => h.rooted c b (hangs_push.1 hcb)⟩
  · obtain ⟨h0, hf⟩ := h.fresh b hb
    exact ⟨h0, hf.push (fun e => h.notMem (e ▸ hb)) i⟩
  · rw [blocks_push] at hp
    obtain ⟨q, hq, rfl⟩ := Option.map_eq_some_iff.1 hp
    refine h.ended b q hq ?_
    split at ht <;> exact ht

theorem slot (h : d.Framed) (name : String) (init : Operand) : (d.slot name init).Framed :=
  ⟨h.current, h.notMem, h.nodup, h.fresh, h.ended, h.rooted⟩

theorem append (h : d.Framed) (name : String) : (d.append name).Framed := by
  have hlt := h.current.lt
  refine ⟨h.current.append name, ?_, ?_, fun b hb => ?_, fun b p hp ht => ?_, fun c b hcb => ?_⟩
  · exact fun hmem => (List.mem_cons.1 hmem).elim (Nat.ne_of_lt hlt) h.notMem
  · exact List.nodup_cons.2 ⟨fun hmem => Nat.lt_irrefl _ (h.fresh _ hmem).2.lt, h.nodup⟩
  · rcases List.mem_cons.1 hb with rfl | hb
    · exact ⟨Nat.lt_of_le_of_lt (Nat.zero_le _) hlt, fresh_append name rfl⟩
    · exact ⟨(h.fresh b hb).1, (h.fresh b hb).2.append name⟩
  · rw [blocks_append] at hp
    split at hp
    · next hb => exact .inr (List.mem_cons.2 (.inl hb))
    · exact (h.ended b p hp ht).imp id (List.mem_cons_of_mem _)
  · rcases hangs_append.1 hcb with hcb | ⟨rfl, rfl, -⟩
    · exact h.rooted c b hcb
    · exact hlt

/-- Ending the current block and beginning another. -/
theorem close (h : d.Framed) (t : Terminator) {b : Nat} (hb : b ∈ d.pending) :
    ((d.close t).goto b).Framed := by
  have hne (c : Nat) (hc : c ∈ d.pending) : d.block ≠ c := fun e => h.notMem (e ▸ hc)
  refine ⟨((h.fresh b hb).2.close (hne b hb) t).open_goto, ?_, h.nodup.erase b, fun c hc => ?_,
    fun c p hp ht => ?_, fun c b hcb => h.rooted c b (hangs_close.1 hcb)⟩
  · exact fun hmem => (h.nodup.mem_erase_iff.1 hmem).1 rfl
  · have hc' := List.mem_of_mem_erase hc
    exact ⟨(h.fresh c hc').1, ((h.fresh c hc').2.close (hne c hc') t).goto b⟩
  · rw [blocks_goto, blocks_close] at hp
    obtain ⟨q, hq, rfl⟩ := Option.map_eq_some_iff.1 hp
    by_cases hcb : c = b
    · exact .inl hcb
    · split at ht
      · cases ht
      · next hcur =>
        have hc := (h.ended c q hq ht).resolve_left fun e => hcur e.symm
        exact .inr (h.nodup.mem_erase_iff.2 ⟨hcb, hc⟩)

theorem above_entry (h : d.Framed) {b : Nat} (hb : b < d.blocks.length) : d.Above 0 b := by
  induction b using Nat.strongRecOn with
  | ind b ih =>
    rcases Nat.eq_zero_or_pos b with rfl | h0
    · exact .refl
    · have hhangs : d.Hangs d.blocks[b].parent b := ⟨h0, _, List.getElem?_eq_getElem hb, rfl⟩
      have hlt := h.rooted _ b hhangs
      exact (ih _ hlt (Nat.lt_trans hlt hb)).tail hhangs

end Framed

/-- Three blocks that are made where the draft stands hang below the current one. -/
theorem Framed.hangs_three {d : Draft} (h : d.Framed) (n₁ n₂ n₃ : String) {b : Nat}
    (hb : b = d.blocks.length ∨ b = d.blocks.length + 1 ∨ b = d.blocks.length + 2) :
    (((d.append n₁).append n₂).append n₃).Hangs d.block b := by
  have hlt := h.current.lt
  simp only [hangs_append, block_append, length_blocks_append, true_and]
  rcases hb with rfl | rfl | rfl
  · exact .inl (.inl (.inr ⟨rfl, by omega⟩))
  · exact .inl (.inr ⟨rfl, by omega⟩)
  · exact .inr ⟨rfl, by omega⟩

section Stages
variable {d : Draft} {v : Operand}

def testBlocks (d : Draft) : Draft :=
  ((d.append "zero").append "nonzero").append "zero.cont"

def compared (d : Draft) (v : Operand) : Draft :=
  d.testBlocks.push (.compare .eq (.int 0) v)

def onZero (d : Draft) (v : Operand) : Draft :=
  ((d.compared v).close (.branch (.instr d.code.length) d.blocks.length (d.blocks.length + 1))).goto
    d.blocks.length

def onNonzero (d : Draft) (v : Operand) : Draft :=
  ((d.onZero v).close (.jump (d.blocks.length + 2))).goto (d.blocks.length + 1)

def joining (d : Draft) (v : Operand) : Draft :=
  ((d.onNonzero v).close (.jump (d.blocks.length + 2))).goto (d.blocks.length + 2)

theorem Le.testBlocks (d : Draft) : Le d d.testBlocks :=
  ((Le.append d _).trans (.append _ _)).trans (.append _ _)

@[simp] theorem pending_compared : (d.compared v).pending =
    (d.blocks.length + 2) :: (d.blocks.length + 1) :: d.blocks.length :: d.pending := by
  simp [compared, testBlocks]

@[simp] theorem pending_onZero : (d.onZero v).pending =
    (d.blocks.length + 2) :: (d.blocks.length + 1) :: d.pending := by
  simp [onZero]

@[simp] theorem pending_onNonzero :
    (d.onNonzero v).pending = (d.blocks.length + 2) :: d.pending := by
  simp [onNonzero]

@[simp] theorem code_onNonzero : (d.onNonzero v).code = d.code ++ [Instr.compare .eq (.int 0) v] := rfl

@[simp] theorem code_joining : (d.joining v).code = d.code ++ [Instr.compare .eq (.int 0) v] := rfl

theorem Framed.stages (h : d.Framed) (v : Operand) :
    d.testBlocks.Framed ∧ (d.compared v).Framed ∧ (d.onZero v).Framed ∧ (d.onNonzero v).Framed ∧
      (d.joining v).Framed := by
  have hmade : d.testBlocks.Framed := ((h.append _).append _).append _
  have hasked : (d.compared v).Framed := hmade.push _
  have hzero : (d.onZero v).Framed := hasked.close _ (by simp)
  have hnonzero : (d.onNonzero v).Framed := hzero.close _ (by simp)
  exact ⟨hmade, hasked, hzero, hnonzero, hnonzero.close _ (by simp)⟩

end Stages

/-- A step on blocks, whatever is written. Every step of lowering is made of these. -/
inductive Raw : Draft → Draft → Prop where
  | push {d : Draft} (i : Instr) : Raw d (d.push i)
  | slot {d : Draft} (name : String) (init : Operand) : Raw d (d.slot name init)
  | append {d : Draft} (name : String) : Raw d (d.append name)
  | close {d : Draft} (t : Terminator) {b : Nat} : b ∈ d.pending → Raw d ((d.close t).goto b)

section Raw
variable {m : Module} {d d' : Draft}

theorem Framed.raw (h : d.Framed) (hs : Raw d d') : d'.Framed ∧ Le d d' := by
  cases hs with
  | push i => exact ⟨h.push i, .push h.current i⟩
  | slot name init => exact ⟨h.slot name init, .slot d name init⟩
  | append name => exact ⟨h.append name, .append d name⟩
  | close t hb => exact ⟨h.close t hb, (Le.close h.current t).trans (.goto _ _)⟩

theorem Framed.raws (h : d.Framed) (hs : Relation.ReflTransGen Raw d d') : d'.Framed ∧ Le d d' := by
  induction hs with
  | refl => exact ⟨h, .refl d⟩
  | tail _ hlast ih =>
    obtain ⟨hf, hle⟩ := ih
    obtain ⟨hf', hle'⟩ := hf.raw hlast
    exact ⟨hf', hle.trans hle'⟩

theorem blockName_close (t : Terminator) (name : String) :
    Builder.blockName (d.close t).function name = Builder.blockName d.function name := by
  have hnames : (d.close t).function.blocks.map (·.name) = d.function.blocks.map (·.name) := by
    apply Array.ext_getElem?
    intro b
    rw [Array.getElem?_map, Array.getElem?_map, function_blocks, function_blocks, blocks_close]
    rcases d.blocks[b]? with _ | p
    · rfl
    · simp only [Option.map_some, blockAt]
      split <;> rfl
  have hany : (d.close t).function.blocks.any (·.name == name) =
      d.function.blocks.any (·.name == name) := by
    have h := congrArg (Array.any · (· == name)) hnames
    simpa [Array.any_map] using h
  unfold Builder.blockName
  rw [hany, size_blocks, size_blocks, length_blocks_close]

theorem close_append (h : d.Open) (t : Terminator) (name : String) :
    (d.close t).append name = (d.append name).close t := by
  have hblocks : ((d.close t).append name).blocks = ((d.append name).close t).blocks := by
    apply List.ext_getElem?
    intro b
    rw [blocks_append, blocks_close, blocks_close, blocks_append, blockName_close,
      length_blocks_close]
    by_cases hb : b = d.blocks.length
    · simp [hb, Nat.ne_of_lt h.lt]
    · simp only [if_neg hb]
      rfl
  have hpending : ((d.close t).append name).pending = ((d.append name).close t).pending := by simp
  exact congr (congrArg (Draft.mk d.head d.code d.slots · d.block ·) hblocks) hpending

theorem raws_zeroTest (d : Draft) (v : Operand) (whenZero : Bool) :
    Relation.ReflTransGen Raw d (d.zeroTest v whenZero) := by
  have hmade : Relation.ReflTransGen Raw d (d.compared v) :=
    (((Relation.ReflTransGen.single (.append _)).tail (.append _)).tail (.append _)).tail (.push _)
  have hzero : Raw (d.compared v) (d.onZero v) := .close _ (by simp)
  have hnonzero : Raw (d.onZero v) (d.onNonzero v) := .close _ (by simp)
  have hjoining : Raw (d.onNonzero v) (d.joining v) := .close _ (by simp)
  exact (((hmade.tail hzero).tail hnonzero).tail hjoining).tail (.push _)

/-- The block after a test was made in the block before it, and holds the outcome. -/
theorem above_zeroTest (h : d.Framed) (v : Operand) (whenZero : Bool) :
    (d.zeroTest v whenZero).Above d.block (d.zeroTest v whenZero).block :=
  .single (hangs_push.2 (hangs_close.2 (hangs_close.2 (hangs_close.2 (hangs_push.2
    (h.hangs_three _ _ _ (.inr (.inr rfl))))))))

theorem has_zeroTest (h : d.Framed) (v : Operand) (whenZero : Bool) :
    (d.zeroTest v whenZero).Has (.instr (d.code.length + 1)) .i1 := by
  obtain ⟨-, -, -, -, hjoining⟩ := h.stages v
  exact has_push hjoining.current rfl (by simp)

theorem Framed.step (h : d.Framed) (hs : Step m d d') : d'.Framed ∧ Le d d' := by
  cases hs with
  | stay => exact ⟨h, .refl d⟩
  | push => exact h.raw (.push _)
  | slot => exact h.raw (.slot _ _)
  | append name => exact h.raw (.append name)
  | test whenZero => exact h.raws (raws_zeroTest d _ whenZero)
  | close _ _ _ hb => exact h.raw (.close _ hb)
  | leave name =>
    rw [close_append h.current]
    exact h.raws (.tail (.tail .refl (.append name)) (.close _ (List.mem_cons_self ..)))

theorem Framed.built {id : FuncId} {m' : Module} (h : d.Framed) (hs : Built id m d m' d') :
    d'.Framed ∧ Le d d' := by
  induction hs with
  | refl => exact ⟨h, .refl _⟩
  | step _ hlast _ ih =>
    obtain ⟨hf, hle⟩ := ih h
    obtain ⟨hf', hle'⟩ := hf.step hlast
    exact ⟨hf', hle.trans hle'⟩

end Raw

section Stays
variable {m m' : Module} {id : FuncId} {d d' : Draft} {b : Nat} {v : Operand}

theorem Value.le (h : d.Value v) (hle : Le d d') : d'.Value v := by
  cases v with
  | int | bool => trivial
  | instr id =>
    obtain ⟨i, hi, h⟩ := h
    exact ⟨i, hle.code_eq hi, h⟩
  | param | global => exact h.elim

theorem Address.le (h : d.Address m v) (hle : Le d d') (hm : Retains m m') : d'.Address m' v := by
  cases v with
  | instr j =>
    obtain ⟨name, hi⟩ := h
    exact ⟨name, hle.code_eq hi⟩
  | global g => exact Nat.lt_of_lt_of_le h hm.cells
  | int | bool | param => exact h.elim

theorem Takes.retains {j : FuncId} {n : Nat} (h : Takes m j n) (hm : Retains m m') :
    Takes m' j n := by
  obtain ⟨f, hf, hn⟩ := h
  obtain ⟨f', hf', he⟩ := hm.kept j f hf
  have hparams : f'.paramCount = f.paramCount := (congrArg Function.paramCount he :)
  have hvariadic : f'.variadic = f.variadic := (congrArg Function.variadic he :)
  exact ⟨f', hf', by rwa [hparams, hvariadic]⟩

theorem Counted.retains {j : FuncId} {args : List Operand} (h : Counted m j args) (hm : Retains m m') :
    Counted m' j args := by
  obtain ⟨f, hf, hcount⟩ := h
  obtain ⟨f', hf', he⟩ := hm.kept j f hf
  have hvariadic : f'.variadic = f.variadic := (congrArg Function.variadic he :)
  exact ⟨f', hf', by rwa [hvariadic]⟩

/-- The type of a value is settled when it is there. -/
theorem Value.typeOf_eq (h : d.Value v) (hle : Le d d') : d'.function.typeOf v = d.function.typeOf v := by
  cases v with
  | instr id =>
    obtain ⟨i, hi, -⟩ := h
    simp [Function.typeOf, hi, hle.code_eq hi]
  | int | bool => rfl
  | param | global => exact h.elim

theorem Fits.le {i : Instr} (h : d.Fits m i) (hle : Le d d') (hm : Retains m m') : d'.Fits m' i := by
  cases i with
  | load => exact Address.le h hle hm
  | store => exact ⟨h.1.le hle, h.2.le hle hm⟩
  | arith => exact ⟨⟨h.1.1.le hle, h.1.2.le hle⟩, h.2.trans (h.1.1.typeOf_eq hle).symm⟩
  | compare => exact ⟨h.1.le hle, h.2.le hle⟩
  | widen => exact Value.le h hle
  | call => exact ⟨h.1.retains hm, h.2.1.retains hm, fun v hv => (h.2.2 v hv).le hle⟩
  | alloca | phi => exact h.elim

theorem value_push (i : Instr) (hi : i.resultTy?.isSome) (ha : ∀ name, i ≠ .alloca name) {n : Nat}
    (hn : d.code.length = n) : (d.push i).Value (.instr n) :=
  ⟨i, by simp [← hn], hi, ha⟩

theorem Fresh.target (h : d.Fresh b) (hb : 0 < b) : d.Target b :=
  ⟨hb, h.elim fun _ h => h.elim fun _ h => ⟨_, h, fun _ hid => (List.not_mem_nil hid).elim⟩⟩

theorem Framed.target (h : d.Framed) (hb : b ∈ d.pending) : d.Target b :=
  (h.fresh b hb).2.target (h.fresh b hb).1

theorem Target.push (h : d.Target b) (i : Instr) (hi : d.block = b → ¬ i.IsPhi) :
    (d.push i).Target b := by
  obtain ⟨h0, p, hp, hids⟩ := h
  refine ⟨h0, _, by rw [blocks_push, hp]; rfl, fun id hid => ?_⟩
  have hold : ∀ id ∈ p.instrs, ∃ j, (d.push i).code[id]? = some j ∧ ¬ j.IsPhi := by
    intro id hid
    obtain ⟨j, hj, hn⟩ := hids id hid
    refine ⟨j, ?_, hn⟩
    rw [code_push, List.getElem?_append_left (List.getElem?_eq_some_iff.1 hj).1, hj]
  split at hid
  · next hb =>
    rcases List.mem_append.1 hid with hid | hid
    · exact hold id hid
    · rw [List.mem_singleton.1 hid]
      exact ⟨i, by simp, hi hb⟩
  · exact hold id hid

theorem Target.append (h : d.Target b) (name : String) : (d.append name).Target b := by
  obtain ⟨h0, p, hp, hids⟩ := h
  refine ⟨h0, p, ?_, hids⟩
  rw [blocks_append_of_lt name (List.getElem?_eq_some_iff.1 hp).1, hp]

theorem Target.close (h : d.Target b) (t : Terminator) (b' : Nat) :
    ((d.close t).goto b').Target b := by
  obtain ⟨h0, p, hp, hids⟩ := h
  refine ⟨h0, _, by rw [blocks_goto, blocks_close, hp]; rfl, fun id hid => hids id ?_⟩
  split at hid <;> exact hid

theorem Target.slot (h : d.Target b) (name : String) (init : Operand) :
    (d.slot name init).Target b := by
  obtain ⟨h0, p, hp, hids⟩ := h
  refine ⟨h0, p, hp, fun id hid => ?_⟩
  obtain ⟨i, hi, hn⟩ := hids id hid
  exact ⟨i, (Le.slot d name init).code_eq hi, hn⟩

theorem Target.lt (h : d.Target b) : b < d.blocks.length :=
  h.2.elim fun _ h => (List.getElem?_eq_some_iff.1 h.1).1

theorem Target.zeroTest (h : d.Target b) (v : Operand) (whenZero : Bool) :
    (d.zeroTest v whenZero).Target b := by
  have hne : d.blocks.length + 2 ≠ b := by
    have := h.lt
    omega
  refine Target.push ?_ _ fun e => absurd e hne
  refine Target.close (Target.close (Target.close (Target.push ?_ _ fun _ => id) _ _) _ _) _ _
  exact ((h.append _).append _).append _

theorem Fits.not_isPhi {i : Instr} (h : d.Fits m i) : ¬ i.IsPhi := by
  cases i with
  | phi => exact h.elim
  | _ => exact id

theorem Target.step (h : d.Target b) (hf : d.Framed) (hs : Step m d d') : d'.Target b := by
  cases hs with
  | stay => exact h
  | push hi _ => exact h.push _ fun _ => hi.not_isPhi
  | slot => exact h.slot _ _
  | append name => exact h.append name
  | test whenZero => exact h.zeroTest _ whenZero
  | close => exact h.close _ _
  | leave name =>
    rw [close_append hf.current]
    exact (h.append name).close _ _

theorem Target.built (h : d.Target b) (hf : d.Framed) (hs : Built id m d m' d') : d'.Target b := by
  induction hs with
  | refl => exact h
  | step hb hlast _ ih => exact (ih h hf).step (hf.built hb).1 hlast

end Stays
end Draft
end IntLang.Flow

namespace IntLang.Lower
open IntLang.Flow

theorem draws_zeroTest {d : Draft} (h : d.Framed) (v : Operand) (whenZero : Bool) :
    Draws (zeroTest v whenZero) d (.instr (d.code.length + 1)) (d.zeroTest v whenZero) := by
  obtain ⟨hmade, hasked, hzero, hnonzero, hjoining⟩ := h.stages v
  have h₁ := h.append "zero"
  have h₂ := h₁.append "nonzero"
  refine .bind (draws_append (.inl h.current.ne_nil) _ rfl) ?_
  refine .bind (draws_append (.inl h₁.current.ne_nil) _ (d.length_blocks_append _)) ?_
  refine .bind (draws_append (.inl h₂.current.ne_nil) _ (n := d.blocks.length + 2) (by simp)) ?_
  refine .bind (draws_push hmade.current _ rfl) ?_
  refine .bind (draws_terminate hasked.current _) (.bind (draws_position _) ?_)
  refine .bind (draws_terminate hzero.current _) (.bind (draws_position _) ?_)
  refine .bind (draws_terminate hnonzero.current _) (.bind (draws_position _) ?_)
  exact draws_push hjoining.current _ (by simp)

end IntLang.Lower
