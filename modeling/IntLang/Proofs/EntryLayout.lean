import IntLang.Proofs.Drafts
import IntLang.Proofs.ModuleEdits

/-! Where a builder puts its instructions. The entry block holds the slots in the order in which they
were made, then the stores that initialise them, then what was added to it; every other block holds
what was added to it. Each instruction stands in one block, once. -/
namespace IntLang.Flow

namespace BuildOp

def isSlot : BuildOp → Bool
  | slot .. => true
  | _ => false

def emits : BuildOp → Bool
  | load _ | store .. | arith .. | compare .. | widen _ | call .. | phi .. => true
  | block _ | position _ | slot .. | jump _ | branch .. | ret _ => false

/-- How many instructions an operation adds. A slot comes with the store that initialises it. -/
def width (op : BuildOp) : Nat :=
  if op.isSlot then 2 else if op.emits then 1 else 0

/-- The instruction that an operation adds to the insertion block. Arithmetic has the type of its left
operand. -/
def instr? (leftTy : Ty) : BuildOp → Option Instr
  | load address => some (.load address)
  | store value address => some (.store value address)
  | arith op lhs rhs => some (.arith op leftTy lhs rhs)
  | compare op lhs rhs => some (.compare op lhs rhs)
  | widen value => some (.widen value)
  | call callee args => some (.call callee args)
  | phi ty incoming => some (.phi ty incoming)
  | block _ | position _ | slot .. | jump _ | branch .. | ret _ => none

def goes : BuildOp → Option BlockId → Option BlockId
  | position id, _ => some id
  | _, here => here

theorem emits_eq_false {op : BuildOp} (h : op.isSlot = true) : op.emits = false := by
  cases op with
  | slot => rfl
  | _ => cases h

theorem emits_of_instr? {op : BuildOp} {ty : Ty} {i : Instr} (h : op.instr? ty = some i) :
    op.isSlot = false ∧ op.emits = true := by
  cases op with
  | block | position | slot | jump | branch | ret => cases h
  | _ => exact ⟨rfl, rfl⟩

/-- What an operation makes of a function, for a builder at `block` that has made `slots` slots. -/
inductive Changes (block : Option BlockId) (slots : Nat) (f : Function) : BuildOp → Function → Prop where
  | block (name : String) : Changes block slots f (.block name)
      { f with blocks := f.blocks.push { name := Builder.blockName f name } }
  | position (id : BlockId) : Changes block slots f (.position id) f
  | slot {name : String} {init : Operand} {entry : Block} : f.blocks[0]? = some entry →
      Changes block slots f (.slot name init) { f with
        instrs := (f.instrs.push (.alloca name)).push (.store init (.instr f.instrs.size))
        blocks := f.blocks.setIfInBounds 0 { entry with
          instrs := (entry.instrs.insertIdxIfInBounds slots f.instrs.size).insertIdxIfInBounds
            (slots + 1 + slots) (f.instrs.size + 1) } }
  | instr {op : BuildOp} {ty : Ty} {i : Instr} {b : BlockId} {blk : Block} : op.instr? ty = some i →
      block = some b → f.blocks[b]? = some blk → Changes block slots f op { f with
        instrs := f.instrs.push i
        blocks := f.blocks.setIfInBounds b { blk with instrs := blk.instrs.push f.instrs.size } }
  | terminator {op : BuildOp} {t : Terminator} {b : BlockId} {blk : Block} : op.isSlot = false →
      op.emits = false → f.blocks[b]? = some blk → Changes block slots f op { f with
        blocks := f.blocks.setIfInBounds b { blk with terminator := some t } }

end BuildOp

section Success
variable {b b' : Builder} {f : Function}

theorem openBlock_eq_ok {x : BlockId × Block} (h : Builder.openBlock f b = .ok x b') :
    b' = b ∧ b.block = some x.1 ∧ f.blocks[x.1]? = some x.2 := by
  simp only [Builder.openBlock, bind, EStateM.bind, get_apply] at h
  cases hblock : b.block with
  | none =>
    rw [hblock] at h
    cases h
  | some id =>
    rw [hblock] at h
    cases hblk : f.blocks[id]? with
    | none =>
      simp only [hblk] at h
      cases h
    | some blk =>
      simp only [hblk] at h
      split at h
      · cases h
      · cases h
        exact ⟨rfl, rfl, hblk⟩

theorem push_eq_ok (hf : b.module.function? b.function = some f) {i : Instr} {v : Operand}
    (h : Builder.push i b = .ok v b') : ∃ id blk, b.block = some id ∧ f.blocks[id]? = some blk ∧
      b' = { b with module := b.module.update b.function { f with
        instrs := f.instrs.push i
        blocks := f.blocks.setIfInBounds id { blk with instrs := blk.instrs.push f.instrs.size } } } := by
  simp only [Builder.push, bind, EStateM.bind, Builder.getFunction, hf] at h
  cases ho : Builder.openBlock f b with
  | error e b₁ =>
    rw [ho] at h
    cases h
  | ok x b₁ =>
    obtain ⟨rfl, hblock, hblk⟩ := openBlock_eq_ok ho
    rw [ho] at h
    cases h
    exact ⟨x.1, x.2, hblock, hblk, rfl⟩

theorem terminate_eq_ok (hf : b.module.function? b.function = some f) {t : Terminator}
    (h : Builder.terminate t b = .ok () b') : ∃ id blk, f.blocks[id]? = some blk ∧
      b' = { b with module := b.module.update b.function { f with
        blocks := f.blocks.setIfInBounds id { blk with terminator := some t } } } := by
  simp only [Builder.terminate, bind, EStateM.bind, Builder.getFunction, hf] at h
  cases ho : Builder.openBlock f b with
  | error e b₁ =>
    rw [ho] at h
    cases h
  | ok x b₁ =>
    obtain ⟨rfl, hblock, hblk⟩ := openBlock_eq_ok ho
    rw [ho] at h
    cases h
    exact ⟨x.1, x.2, hblk, rfl⟩

theorem entrySlot_eq_ok (hf : b.module.function? b.function = some f) {name : String} {init v : Operand}
    (h : Builder.entrySlot name init b = .ok v b') : ∃ entry, f.blocks[0]? = some entry ∧
      b' = { b with
        module := b.module.update b.function { f with
          instrs := (f.instrs.push (.alloca name)).push (.store init (.instr f.instrs.size))
          blocks := f.blocks.setIfInBounds 0 { entry with
            instrs := (entry.instrs.insertIdxIfInBounds b.slots f.instrs.size).insertIdxIfInBounds
              (b.slots + 1 + b.slots) (f.instrs.size + 1) } }
        slots := b.slots + 1 } := by
  simp only [Builder.entrySlot, bind, EStateM.bind, Builder.getFunction, hf, get_apply] at h
  cases hentry : f.blocks[0]? with
  | none =>
    simp only [hentry] at h
    cases h
  | some entry =>
    simp only [hentry] at h
    cases h
    exact ⟨entry, rfl, rfl⟩

theorem ok_of_discard {α : Type} {x : Build α} (h : (do let _ ← x : Build Unit) b = .ok () b') :
    ∃ a, x b = .ok a b' := by
  simp only [bind, EStateM.bind] at h
  cases hx : x b with
  | error e b₁ =>
    rw [hx] at h
    cases h
  | ok a b₁ =>
    rw [hx] at h
    cases h
    exact ⟨a, rfl⟩

theorem arith_eq_push (hf : b.module.function? b.function = some f) (op : ArithOp) (l r : Operand) :
    Builder.arith op l r b = Builder.push (.arith op (f.typeOf l) l r) b := by
  simp only [Builder.arith, Builder.typeOf, bind, EStateM.bind, Builder.getFunction, hf, pure, EStateM.pure]

/-- An operation that succeeds changes the function as it says, and the place of the builder. -/
theorem BuildOp.changes_of_run (hf : b.module.function? b.function = some f) {op : BuildOp}
    (h : op.run b = .ok () b') : ∃ g, op.Changes b.block b.slots f g ∧
      b' = ⟨b.module.update b.function g, b.function, op.goes b.block,
        b.slots + if op.isSlot then 1 else 0⟩ := by
  have hpush {i : Instr} {v : Operand} (ty : Ty) (hi : op.instr? ty = some i)
      (hv : Builder.push i b = .ok v b') :
      ∃ g, op.Changes b.block b.slots f g ∧
        b' = { b with module := b.module.update b.function g } := by
    obtain ⟨id, blk, hblock, hblk, rfl⟩ := push_eq_ok hf hv
    exact ⟨_, .instr hi hblock hblk, rfl⟩
  have hend {t : Terminator} (ht : Builder.terminate t b = .ok () b') (hslot : op.isSlot = false)
      (hemits : op.emits = false) : ∃ g, op.Changes b.block b.slots f g ∧
        b' = { b with module := b.module.update b.function g } := by
    obtain ⟨id, blk, hblk, rfl⟩ := terminate_eq_ok hf ht
    exact ⟨_, .terminator hslot hemits hblk, rfl⟩
  cases op with
  | block name =>
    obtain ⟨id, h⟩ := ok_of_discard h
    simp only [Builder.appendBlock, bind, EStateM.bind, Builder.getFunction, hf] at h
    cases h
    exact ⟨_, .block name, rfl⟩
  | position id =>
    cases h
    exact ⟨f, .position id, by rw [Module.update_self hf]; rfl⟩
  | slot name init =>
    obtain ⟨v, h⟩ := ok_of_discard h
    obtain ⟨entry, hentry, rfl⟩ := entrySlot_eq_ok hf h
    exact ⟨_, .slot hentry, rfl⟩
  | arith op l r =>
    obtain ⟨v, h⟩ := ok_of_discard h
    rw [arith_eq_push hf] at h
    exact hpush _ rfl h
  | jump | branch | ret => exact hend h rfl rfl
  | load | store | compare | widen | call | phi =>
    obtain ⟨v, h⟩ := ok_of_discard h
    exact hpush .i32 rfl h

theorem forM_cons_eq_ok {op : BuildOp} {ops : List BuildOp}
    (h : (op :: ops).forM BuildOp.run b = .ok () b') :
    ∃ b₁, op.run b = .ok () b₁ ∧ ops.forM BuildOp.run b₁ = .ok () b' := by
  simp only [List.forM, bind, EStateM.bind] at h
  cases hop : op.run b with
  | error e b₁ =>
    rw [hop] at h
    cases h
  | ok u b₁ =>
    rw [hop] at h
    exact ⟨b₁, rfl, h⟩

end Success

namespace Function

/-- The instructions of a block, in order. A block that is not there has none. -/
def listed (f : Function) (b : BlockId) : List InstrId :=
  (f.blocks[b]?.map (·.instrs.toList)).getD []

theorem listed_eq {f : Function} {b : BlockId} {blk : Block} (h : f.blocks[b]? = some blk) :
    f.listed b = blk.instrs.toList := by
  simp [listed, h]

theorem listed_set {f g : Function} {b : BlockId} {blk blk' : Block} (hb : f.blocks[b]? = some blk)
    (hg : g.blocks = f.blocks.setIfInBounds b blk') (c : BlockId) :
    g.listed c = if c = b then blk'.instrs.toList else f.listed c := by
  have hlt := (Array.getElem?_eq_some_iff.1 hb).1
  rw [listed, listed, hg, Array.getElem?_setIfInBounds]
  by_cases hc : c = b
  · simp [hc, hlt]
  · simp [hc, Ne.symm hc]

end Function

theorem toList_insertIdxIfInBounds {α : Type} (xs : Array α) (k : Nat) (a : α) :
    (xs.insertIdxIfInBounds k a).toList = xs.toList.insertIdx k a := by
  cases xs
  rw [List.insertIdxIfInBounds_toArray]

namespace BuildOp.Changes
variable {block : Option BlockId} {slots : Nat} {f g : Function} {op : BuildOp}

/-- What stands in a block after an operation. -/
theorem listed_eq (h : op.Changes block slots f g) (b : BlockId) : g.listed b =
    if op.isSlot = true ∧ b = 0 then
      ((f.listed 0).insertIdx slots f.instrs.size).insertIdx (slots + 1 + slots) (f.instrs.size + 1)
    else if op.emits = true ∧ block = some b then f.listed b ++ [f.instrs.size] else f.listed b := by
  cases h with
  | block name =>
    simp only [isSlot, emits, Bool.false_eq_true, false_and, if_false, Function.listed, Array.getElem?_push]
    split
    · next hb => simp [hb]
    · rfl
  | position => simp [isSlot, emits]
  | @slot name init entry hentry =>
    rw [Function.listed_set hentry rfl, Function.listed_eq hentry]
    simp [isSlot, emits, toList_insertIdxIfInBounds]
  | @instr _ ty i c blk hi hblock hblk =>
    obtain ⟨hslot, hemits⟩ := emits_of_instr? hi
    rw [Function.listed_set hblk rfl]
    simp only [hslot, hemits, hblock, Bool.false_eq_true, false_and, if_false, true_and, Option.some.injEq]
    by_cases hb : b = c
    · subst hb
      simp [Function.listed_eq hblk]
    · simp [hb, Ne.symm hb]
  | @terminator _ t c blk hslot hemits hblk =>
    rw [Function.listed_set hblk rfl]
    simp only [hslot, hemits, Bool.false_eq_true, false_and, if_false]
    split
    · next hb => rw [hb, Function.listed_eq hblk]
    · rfl

theorem size_instrs (h : op.Changes block slots f g) : g.instrs.size = f.instrs.size + op.width := by
  cases h with
  | block | position => rfl
  | slot => simp [width, isSlot]
  | instr hi =>
    obtain ⟨hslot, hemits⟩ := emits_of_instr? hi
    simp [width, hslot, hemits]
  | terminator hslot hemits => simp [width, hslot, hemits]

/-- An operation places the instructions that it adds, and leaves the others where they are. -/
theorem placed_perm (h : op.Changes block slots f g) (hslots : 2 * slots ≤ (f.listed 0).length) :
    g.placed.Perm (List.range' f.instrs.size op.width ++ f.placed) := by
  cases h with
  | block | position => simp [Function.placed, width, isSlot, emits]
  | @slot name init entry hentry =>
    rw [Function.listed_eq hentry] at hslots
    refine Function.placed_set hentry rfl ?_
    simp only [toList_insertIdxIfInBounds]
    have hfirst := List.perm_insertIdx f.instrs.size entry.instrs.toList (i := slots) (by omega)
    have hsecond := List.perm_insertIdx (f.instrs.size + 1)
      (entry.instrs.toList.insertIdx slots f.instrs.size) (i := slots + 1 + slots)
      (by rw [hfirst.length_eq, List.length_cons]; omega)
    exact (hsecond.trans (hfirst.cons _)).trans (.swap _ _ _)
  | @instr _ ty i c blk hi hblock hblk =>
    obtain ⟨hslot, hemits⟩ := emits_of_instr? hi
    refine Function.placed_set hblk rfl ?_
    simp [width, hslot, hemits]
  | @terminator _ t c blk hslot hemits hblk =>
    refine Function.placed_set hblk rfl ?_
    simp [width, hslot, hemits]

/-- If each instruction from `start` on stands in one block, once, that stays so. -/
theorem placed_range {start : Nat} (h : op.Changes block slots f g)
    (hslots : 2 * slots ≤ (f.listed 0).length) (hle : start ≤ f.instrs.size)
    (hplaced : f.placed.Perm (List.range' start (f.instrs.size - start))) :
    g.placed.Perm (List.range' start (g.instrs.size - start)) := by
  have hrange : List.range' start (f.instrs.size - start) ++ List.range' f.instrs.size op.width =
      List.range' start (g.instrs.size - start) := by
    rw [h.size_instrs, show f.instrs.size + op.width - start = f.instrs.size - start + op.width by omega,
      ← List.range'_append_1, Nat.add_sub_cancel' hle]
  rw [← hrange]
  exact (h.placed_perm hslots).trans ((hplaced.append_left _).trans List.perm_append_comm)

/-- An operation changes no instruction that is there. -/
theorem getElem?_instrs (h : op.Changes block slots f g) {id : InstrId} {i : Instr}
    (hi : f.instrs[id]? = some i) : g.instrs[id]? = some i := by
  have hlt := (Array.getElem?_eq_some_iff.1 hi).1
  cases h with
  | block | position | terminator => exact hi
  | slot =>
    rw [Array.getElem?_push_lt (by simp; omega), Array.getElem_push_lt hlt, ← hi,
      Array.getElem?_eq_getElem hlt]
  | instr => rw [Array.getElem?_push_lt hlt, ← hi, Array.getElem?_eq_getElem hlt]

end BuildOp.Changes

/-- An operation in a log: where the builder stood, and the first instruction that was not taken. -/
structure Job where
  op : BuildOp
  block : Option BlockId
  id : InstrId

def jobs : Option BlockId → InstrId → List BuildOp → List Job
  | _, _, [] => []
  | block, next, op :: ops => ⟨op, block, next⟩ :: jobs (op.goes block) (next + op.width) ops

namespace Job

def slotIds (js : List Job) : List InstrId :=
  (js.filter (·.op.isSlot)).map (·.id)

def emittedIn (b : BlockId) (js : List Job) : List InstrId :=
  (js.filter fun j => j.op.emits && j.block == some b).map (·.id)

def prologue (js : List Job) : List InstrId :=
  slotIds js ++ (slotIds js).map (· + 1)

def contents (b : BlockId) (js : List Job) : List InstrId :=
  (if b = 0 then prologue js else []) ++ emittedIn b js

def Written (f : Function) (j : Job) : Prop :=
  (∀ name init, j.op = .slot name init → f.instrs[j.id]? = some (.alloca name) ∧
    f.instrs[j.id + 1]? = some (.store init (.instr j.id))) ∧
  (j.op.emits = true → ∃ ty i, j.op.instr? ty = some i ∧ f.instrs[j.id]? = some i)

theorem slotIds_concat (js : List Job) (op : BuildOp) (block : Option BlockId) (n : InstrId) :
    slotIds (js ++ [⟨op, block, n⟩]) = slotIds js ++ if op.isSlot then [n] else [] := by
  cases h : op.isSlot <;> simp [slotIds, h]

theorem emittedIn_concat (b : BlockId) (js : List Job) (op : BuildOp) (block : Option BlockId)
    (n : InstrId) : emittedIn b (js ++ [⟨op, block, n⟩]) =
      emittedIn b js ++ if op.emits = true ∧ block = some b then [n] else [] := by
  by_cases h : op.emits = true ∧ block = some b
  · simp [emittedIn, h]
  · rw [if_neg h, List.append_nil]
    simp only [emittedIn, List.filter_append, List.map_append]
    simp [h]

/-- A block of the log after one more operation. Only the entry block changes in its middle. -/
theorem contents_concat (b : BlockId) (js : List Job) (op : BuildOp) (block : Option BlockId)
    (n : InstrId) : contents b (js ++ [⟨op, block, n⟩]) =
      if op.isSlot = true ∧ b = 0 then
        ((contents 0 js).insertIdx (slotIds js).length n).insertIdx
          ((slotIds js).length + 1 + (slotIds js).length) (n + 1)
      else if op.emits = true ∧ block = some b then contents b js ++ [n] else contents b js := by
  rw [contents, emittedIn_concat, prologue, slotIds_concat]
  cases hslot : op.isSlot with
  | true =>
    simp only [BuildOp.emits_eq_false hslot, Bool.false_eq_true, false_and, if_false, if_true,
      true_and, List.append_nil]
    by_cases hb : b = 0
    · subst hb
      simp only [if_true, contents, prologue, List.map_append]
      exact (Draft.insertIdx_opening (by simp) _ n (n + 1)).symm
    · simp only [if_neg hb, contents]
  | false =>
    by_cases hemits : op.emits = true ∧ block = some b
    · simp [hemits, contents, prologue]
    · simp only [if_neg hemits, Bool.false_eq_true, false_and, if_false, List.append_nil, contents, prologue]

theorem length_contents_zero (js : List Job) : 2 * (slotIds js).length ≤ (contents 0 js).length := by
  simp only [contents, prologue, if_true, List.length_append, List.length_map]
  omega

end Job

theorem BuildOp.Changes.written {op : BuildOp} {block : Option BlockId} {slots : Nat} {f g : Function}
    (h : op.Changes block slots f g) : Job.Written g ⟨op, block, f.instrs.size⟩ := by
  cases h with
  | block | position => exact ⟨by simp, by simp [emits]⟩
  | slot =>
    refine ⟨?_, by simp [emits]⟩
    rintro _ _ ⟨⟩
    constructor
    · rw [Array.getElem?_push, if_neg (by simp), Array.getElem?_push, if_pos rfl]
    · rw [Array.getElem?_push, if_pos (by simp)]
  | @instr _ ty i c blk hi =>
    obtain ⟨hslot, -⟩ := emits_of_instr? hi
    refine ⟨?_, fun _ => ⟨ty, i, hi, by simp⟩⟩
    rintro _ _ rfl
    cases hslot
  | terminator hslot hemits =>
    refine ⟨?_, by simp [hemits]⟩
    rintro _ _ rfl
    cases hslot

theorem Job.Written.mono {op : BuildOp} {block : Option BlockId} {slots : Nat} {f g : Function}
    (hop : op.Changes block slots f g) {j : Job} (h : j.Written f) : j.Written g := by
  refine ⟨fun name init hj => ?_, fun hj => ?_⟩
  · obtain ⟨halloca, hstore⟩ := h.1 name init hj
    exact ⟨hop.getElem?_instrs halloca, hop.getElem?_instrs hstore⟩
  · obtain ⟨ty, i, hi, hget⟩ := h.2 hj
    exact ⟨ty, i, hi, hop.getElem?_instrs hget⟩

/-- A builder that has made `slots` slots has brought the function here by the operations of a log. -/
structure Laid (start : Nat) (js : List Job) (slots : Nat) (f : Function) : Prop where
  slots : slots = (Job.slotIds js).length
  listed : ∀ b, f.listed b = Job.contents b js
  written : ∀ j ∈ js, j.Written f
  start_le : start ≤ f.instrs.size
  placed : f.placed.Perm (List.range' start (f.instrs.size - start))

namespace Laid
variable {start : Nat} {js : List Job} {slots : Nat} {f g : Function} {op : BuildOp}
  {block : Option BlockId}

theorem nil (h : f.blocks = #[]) : Laid f.instrs.size [] 0 f := by
  refine ⟨rfl, fun b => ?_, by simp, Nat.le_refl _, ?_⟩
  · simp [Function.listed, h, Job.contents, Job.prologue, Job.slotIds, Job.emittedIn]
  · simp [Function.placed, h]

theorem concat (h : Laid start js slots f) (hop : op.Changes block slots f g) :
    Laid start (js ++ [⟨op, block, f.instrs.size⟩]) (slots + if op.isSlot then 1 else 0) g := by
  refine ⟨?_, fun b => ?_, fun j hj => ?_, ?_, ?_⟩
  · rw [Job.slotIds_concat, h.slots]
    split <;> simp
  · rw [hop.listed_eq, Job.contents_concat, h.listed, h.listed, h.slots]
  · rcases List.mem_append.1 hj with hj | hj
    · exact (h.written j hj).mono hop
    · obtain rfl := List.mem_singleton.1 hj
      exact hop.written
  · rw [hop.size_instrs]
    exact Nat.le_add_right_of_le h.start_le
  · have hlen : 2 * slots ≤ (f.listed 0).length := by
      rw [h.slots, h.listed]
      exact Job.length_contents_zero js
    exact hop.placed_range hlen h.start_le h.placed

theorem forM {ops : List BuildOp} {b b' : Builder} (h : Laid start js b.slots f)
    (hf : b.module.function? b.function = some f) (hrun : ops.forM BuildOp.run b = .ok () b') :
    ∃ g, b'.module.function? b.function = some g ∧
      Laid start (js ++ jobs b.block f.instrs.size ops) b'.slots g := by
  induction ops generalizing b f js with
  | nil =>
    cases hrun
    exact ⟨f, hf, by rwa [jobs, List.append_nil]⟩
  | cons op ops ih =>
    obtain ⟨b₁, hop, hrest⟩ := forM_cons_eq_ok hrun
    obtain ⟨f₁, hchanges, rfl⟩ := BuildOp.changes_of_run hf hop
    obtain ⟨g, hg, hend⟩ := ih (h.concat hchanges) (by simp [Module.function?_update hf]) hrest
    refine ⟨g, hg, ?_⟩
    rw [hchanges.size_instrs] at hend
    simpa [jobs] using hend

end Laid

/-- A builder that starts on a function without blocks lays it out by the order of its operations, in
whatever block it stands when a slot is asked for. All blocks together list each instruction that the
builder has made once, and no other. -/
theorem builder_layout {m : Module} {id : FuncId} {f : Function} {b b' : Builder} {ops : List BuildOp}
    (hb : Builder.new? m id = some b) (hf : m.function? id = some f) (hnew : f.blocks = #[])
    (hrun : ops.forM BuildOp.run b = .ok () b') :
    ∃ g, b'.module.function? id = some g ∧
      let js := jobs none f.instrs.size ops
      g.listed 0 = Job.slotIds js ++ (Job.slotIds js).map (· + 1) ++ Job.emittedIn 0 js ∧
      (∀ k, k ≠ 0 → g.listed k = Job.emittedIn k js) ∧ (∀ j ∈ js, j.Written g) ∧
      g.placed.Perm (List.range' f.instrs.size (g.instrs.size - f.instrs.size)) := by
  rw [Builder.new?, hf] at hb
  obtain rfl := Option.some.inj hb
  obtain ⟨g, hg, h⟩ := (Laid.nil hnew).forM hf hrun
  refine ⟨g, hg, h.listed 0, fun k hk => ?_, h.written, h.placed⟩
  rw [h.listed, Job.contents, if_neg hk]
  rfl

def Builder.made? (b : Builder) (ops : List BuildOp) : Option Function :=
  match ops.forM BuildOp.run b with
  | .ok _ b' => b'.module.function? b'.function
  | .error .. => none

theorem Builder.forM_of_made? {b : Builder} {ops : List BuildOp} {f : Function} (h : b.made? ops = some f) :
    ∃ b', ops.forM BuildOp.run b = .ok () b' ∧ b'.module.function? b'.function = some f := by
  unfold Builder.made? at h
  split at h
  · next b' hrun => exact ⟨b', hrun, h⟩
  · cases h

def blank : Function where
  name := "f"
  paramCount := 1
  linkage := .internal

def blankBuilder : Builder where
  module := { name := "blank", functions := #[some blank] }
  function := 0

/-- The second slot is made while another block is being filled, after the entry block has ended. -/
def staggered : List BuildOp :=
  [.block "entry", .block "later", .position 0, .slot "x" (.param 0), .load (.instr 0), .jump 1,
    .position 1, .slot "y" (.int 0), .store (.instr 2) (.instr 3), .ret (.int 0)]

theorem builder_layout_staggered : ∃ b g, staggered.forM BuildOp.run blankBuilder = .ok () b ∧
    b.module.function? 0 = some g ∧ g.listed 0 = [0, 3, 1, 4, 2] ∧ g.listed 1 = [5] := by
  have hmade : (blankBuilder.made? staggered).isSome := by decide +kernel
  obtain ⟨f, hf⟩ := Option.isSome_iff_exists.1 hmade
  obtain ⟨b, hrun, -⟩ := Builder.forM_of_made? hf
  have hnew : Builder.new? blankBuilder.module 0 = some blankBuilder := rfl
  have hblank : blankBuilder.module.function? 0 = some blank := rfl
  obtain ⟨g, hg, hentry, hother, -⟩ := builder_layout hnew hblank rfl hrun
  exact ⟨b, g, hrun, hg, hentry, hother 1 (by decide)⟩

end IntLang.Flow
