import IntLang.Proofs.EntryLayout
import IntLang.Proofs.StackFrames

/-! Cells of the frame of a function that builders have made. Builders place every instruction once, so
that every result has a cell, no two values share one, and the frame has one cell for each of them. -/
namespace IntLang
open IntLang.Flow IntLang.Assembly

namespace Flow

/-- A builder of a function that only builders have worked on. One builder can follow another, and
the rest of the module can change between two operations. -/
inductive Built : Builder → Prop where
  | first {m : Module} {id : FuncId} {f : Function} {b : Builder} : m.function? id = some f →
      f.blocks = #[] → f.instrs = #[] → Builder.new? m id = some b → Built b
  | next {b b' : Builder} : Built b → Builder.new? b.module b.function = some b' → Built b'
  | op {b b' : Builder} {op : BuildOp} : Built b → op.run b = .ok () b' → Built b'
  | other {b : Builder} {m : Module} : Built b → m.function? b.function = b.module.function? b.function →
      Built { b with module := m }

theorem Built.forM {ops : List BuildOp} {b b' : Builder} (h : Built b)
    (hrun : ops.forM BuildOp.run b = .ok () b') : Built b' := by
  induction ops generalizing b with
  | nil =>
    cases hrun
    exact h
  | cons op ops ih =>
    obtain ⟨b₁, hop, hrest⟩ := forM_cons_eq_ok hrun
    exact ih (h.op hop) hrest

/-- Every instruction stands in one block, once, and the slots of the builder fit in the entry block. -/
structure Function.Full (f : Function) (slots : Nat) : Prop where
  placed : f.placed.Perm (List.range f.instrs.size)
  slots : 2 * slots ≤ (f.listed 0).length

theorem BuildOp.Changes.length_listed {op : BuildOp} {block : Option BlockId} {slots : Nat}
    {f g : Function} (h : op.Changes block slots f g) (hslots : 2 * slots ≤ (f.listed 0).length) :
    (f.listed 0).length + (if op.isSlot then 2 else 0) ≤ (g.listed 0).length := by
  rw [h.listed_eq]
  cases hslot : op.isSlot with
  | true =>
    have hfirst : ((f.listed 0).insertIdx slots f.instrs.size).length = (f.listed 0).length + 1 :=
      List.length_insertIdx_of_le_length (by omega) _
    simp only [true_and, if_true]
    rw [List.length_insertIdx_of_le_length (by omega), hfirst]
  | false =>
    simp only [Bool.false_eq_true, false_and, if_false]
    split <;> simp

theorem Function.Full.change {op : BuildOp} {block : Option BlockId} {slots : Nat} {f g : Function}
    (h : f.Full slots) (hop : op.Changes block slots f g) :
    g.Full (slots + if op.isSlot then 1 else 0) := by
  constructor
  · have hplaced := h.placed
    rw [List.range_eq_range'] at hplaced ⊢
    exact hop.placed_range h.slots (Nat.zero_le _) hplaced
  · have hlen := hop.length_listed h.slots
    have hslots := h.slots
    cases hslot : op.isSlot with
    | true =>
      rw [hslot, if_pos rfl] at hlen
      rw [if_pos rfl]
      omega
    | false =>
      rw [if_neg Bool.false_ne_true]
      omega

theorem Built.full {b : Builder} (h : Built b) :
    ∃ f, b.module.function? b.function = some f ∧ f.Full b.slots := by
  induction h with
  | @first m id f b hf hblocks hinstrs hb =>
    rw [Builder.new?, hf] at hb
    obtain rfl := Option.some.inj hb
    exact ⟨f, hf, by simp [Function.placed, hblocks, hinstrs], by simp⟩
  | @next b b' _ hb ih =>
    obtain ⟨f, hf, hfull⟩ := ih
    rw [Builder.new?, hf] at hb
    obtain rfl := Option.some.inj hb
    exact ⟨f, hf, hfull.placed, by simp⟩
  | @op b b' op _ hop ih =>
    obtain ⟨f, hf, hfull⟩ := ih
    obtain ⟨g, hchanges, rfl⟩ := BuildOp.changes_of_run hf hop
    exact ⟨g, by simp [Module.function?_update hf], hfull.change hchanges⟩
  | @other b m _ hm ih =>
    obtain ⟨f, hf, hfull⟩ := ih
    exact ⟨f, hm.trans hf, hfull⟩

def Function.hasResult (f : Function) (id : InstrId) : Bool :=
  (f.instrs[id]?.bind Instr.resultTy?).isSome

/-- A value that has a cell in the frame: a parameter that arrives in a register, or a result. -/
def Function.Owns (f : Function) : Operand → Prop
  | .param i => i < min f.paramCount 6
  | .instr id => f.hasResult id = true
  | _ => False

def Function.ownerCount (f : Function) : Nat :=
  min f.paramCount 6 + (List.range f.instrs.size).countP f.hasResult

end Flow

namespace Assembly.Layout
variable {f : Function} {l : Layout} {id : InstrId} {cell : Nat}

theorem cells_add (f : Function) (l : Layout) (id : InstrId) :
    (add f l id).cells = l.cells + if f.hasResult id then 1 else 0 := by
  unfold add Function.hasResult
  split <;> rfl

theorem cells_foldl (f : Function) (ids : List InstrId) (l : Layout) :
    (ids.foldl (add f) l).cells = l.cells + ids.countP f.hasResult := by
  induction ids generalizing l with
  | nil => rfl
  | cons id ids ih =>
    rw [List.foldl_cons, ih, cells_add, List.countP_cons, Nat.add_assoc, Nat.add_comm (List.countP _ _)]

theorem hasResult_of_gives_foldl (ids : List InstrId) (h : (ids.foldl (add f) l).Gives id cell) :
    (∃ cell', l.Gives id cell') ∨ f.hasResult id = true := by
  induction ids generalizing l with
  | nil => exact .inl ⟨cell, h⟩
  | cons j ids ih =>
    rcases ih h with ⟨cell', h'⟩ | hres
    · rcases gives_add h' with hold | ⟨rfl, -, hcells⟩
      · exact .inl ⟨cell', hold⟩
      · rw [cells_add] at hcells
        refine .inr ?_
        by_contra hno
        simp [hno] at hcells
    · exact .inr hres

theorem ofFunction_placed (f : Function) : ofFunction f = f.placed.foldl (add f) (initial f) :=
  ofFunction_eq f

/-- The size of a frame in words of 32 bits, where additions and products can wrap. -/
def size32 (l : Layout) : Int32 :=
  (4 * Int32.ofNat l.cells + 15) / 16 * 16

def offset32 (cell : Nat) : Int32 :=
  -(4 * (Int32.ofNat cell + 1))

/-- In words of 32 bits the size and the offsets of a frame come out the same. -/
def Fits32 (l : Layout) : Prop :=
  l.size32.toInt = l.size ∧ ∀ cell < l.cells, (offset32 cell).toInt = offset cell

theorem toInt_size32 (h : 4 * l.cells + 15 < 2147483648) : l.size32.toInt = l.size := by
  have hsum : 4 * Int32.ofNat l.cells + 15 = Int32.ofNat (4 * l.cells + 15) := by
    rw [Int32.ofNat_add, Int32.ofNat_mul]
    rfl
  have hsixteen : (16 : Int32).toInt = 16 := rfl
  have hdiv : (Int32.ofNat (4 * l.cells + 15) / 16).toInt = ((4 * l.cells + 15) / 16 : Nat) := by
    rw [Int32.toInt_div, Int32.toInt_ofNat_of_lt h, hsixteen, Int.tdiv_eq_ediv_of_nonneg (by omega),
      Int.bmod_eq_of_le (by omega) (by omega)]
    omega
  rw [size32, hsum, Int32.toInt_mul, hdiv, hsixteen, Int.bmod_eq_of_le (by omega) (by omega), size]
  omega

theorem toInt_offset32 (h : 4 * (cell + 1) < 2147483648) : (offset32 cell).toInt = offset cell := by
  have hsum : 4 * (Int32.ofNat cell + 1) = Int32.ofNat (4 * (cell + 1)) := by
    rw [Int32.ofNat_mul, Int32.ofNat_add]
    rfl
  rw [offset32, hsum, Int32.toInt_neg, Int32.toInt_ofNat_of_lt h, offset]
  exact Int.bmod_eq_of_le (by omega) (by omega)

/-- A frame with fewer than 2 ^ 29 cells or so fits. -/
theorem fits32_ofFunction (h : 4 * (min f.paramCount 6 + f.placed.countP f.hasResult) + 15 < 2147483648) :
    (ofFunction f).Fits32 := by
  have hcells : (ofFunction f).cells = min f.paramCount 6 + f.placed.countP f.hasResult := by
    rw [ofFunction_placed, cells_foldl]
    rfl
  rw [← hcells] at h
  exact ⟨toInt_size32 h, fun cell hcell => toInt_offset32 (by omega)⟩

theorem cells_ofFunction {slots : Nat} (h : f.Full slots) : (ofFunction f).cells = f.ownerCount := by
  rw [ofFunction_placed, cells_foldl, h.placed.countP_eq]
  rfl

theorem gives_ofFunction_iff {slots : Nat} (h : f.Full slots) :
    (∃ cell, (ofFunction f).Gives id cell) ↔ f.hasResult id = true := by
  rw [ofFunction_placed]
  constructor
  · rintro ⟨cell, hcell⟩
    rcases hasResult_of_gives_foldl _ hcell with ⟨cell', hno⟩ | hres
    · exact absurd hno (not_gives_initial f id cell')
    · exact hres
  · intro hres
    have hlt : id < f.instrs.size := by
      by_contra hno
      simp [Function.hasResult, Array.getElem?_eq_none (Nat.le_of_not_lt hno)] at hres
    exact gives_foldl f _ (h.placed.mem_iff.2 (List.mem_range.2 hlt)) (by simpa [initial] using hlt) hres

theorem isSome_result? : (l.result? id).isSome = true ↔ ∃ cell, l.Gives id cell := by
  rw [Option.isSome_iff_exists]
  constructor
  · rintro ⟨p, hp⟩
    obtain ⟨cell, hcell, -⟩ := result?_eq_some.1 hp
    exact ⟨cell, hcell⟩
  · rintro ⟨cell, hcell⟩
    exact ⟨_, result?_eq_some.2 ⟨cell, hcell, rfl⟩⟩

/-- The cell that a value is kept in. -/
inductive Keeps (l : Layout) : Operand → Nat → Prop where
  | param {i : Nat} : i < l.params → Keeps l (.param i) i
  | result {id : InstrId} {cell : Nat} : l.Gives id cell → Keeps l (.instr id) cell

namespace Keeps
variable {v w : Operand}

theorem place? (h : l.Keeps v cell) (globals : Array String) :
    l.place? globals v = some (.frame (offset cell)) := by
  cases h with
  | param hi => simp [Layout.place?, Layout.param, hi]
  | result hid => exact result?_eq_some.2 ⟨cell, hid, rfl⟩

theorem lt_cells (h : l.Keeps v cell) (hl : l.Sound) : cell < l.cells := by
  cases h with
  | param hi => exact Nat.lt_of_lt_of_le hi hl.params
  | result hid => exact (hl.bounds _ _ hid).2

theorem offset_bounds (h : l.Keeps v cell) (hl : l.Sound) :
    offset cell < 0 ∧ offset cell % 4 = 0 ∧ -(l.size : Int) ≤ offset cell := by
  have hlt := h.lt_cells hl
  have hsize := l.cells_le_size
  unfold offset
  omega

theorem unique (hv : l.Keeps v cell) (hw : l.Keeps w cell) (hl : l.Sound) : v = w := by
  cases hv with
  | param hi =>
    cases hw with
    | param => rfl
    | result hid => exact absurd hi (Nat.not_lt.2 (hl.bounds _ _ hid).1)
  | result hid =>
    cases hw with
    | param hi => exact absurd hi (Nat.not_lt.2 (hl.bounds _ _ hid).1)
    | result hid' => rw [hl.injective _ _ _ hid hid']

end Keeps

theorem keeps_of_owns {slots : Nat} (h : f.Full slots) {v : Operand} (hv : f.Owns v) :
    ∃ cell, (ofFunction f).Keeps v cell := by
  cases v with
  | param i => exact ⟨i, .param (by rw [params_ofFunction]; exact hv)⟩
  | instr id =>
    obtain ⟨cell, hcell⟩ := (gives_ofFunction_iff h).2 hv
    exact ⟨cell, .result hcell⟩
  | int | bool | global => cases hv

theorem offset_injective {c d : Nat} (h : offset c = offset d) : c = d := by
  unfold offset at h
  omega

/-- The parameters that arrive in registers and the results of a function that builders have made have
cells that do not overlap, in a frame that is aligned, whether control can reach their blocks or not.
The frame has no other cells, so that the offsets fit in 32 bits unless there are too many values. -/
theorem frame_cells_apart {b : Builder} {f : Function} (hb : Built b)
    (hf : b.module.function? b.function = some f) (globals : Array String) :
    let l := ofFunction f
    (∀ v, f.Owns v →
      ∃ o, l.place? globals v = some (.frame o) ∧ o < 0 ∧ o % 4 = 0 ∧ -(l.size : Int) ≤ o) ∧
    (∀ v w p, f.Owns v → f.Owns w → l.place? globals v = some p → l.place? globals w = some p → v = w) ∧
    l.size % 16 = 0 ∧
    (∀ blk ∈ f.blocks, ∀ id ∈ blk.instrs, id < f.instrs.size ∧ (l.result? id).isSome = f.hasResult id) ∧
    l.cells = f.ownerCount ∧
    (4 * f.ownerCount + 15 < 2147483648 → (Int32.ofInt l.size).toInt = l.size ∧
      ∀ v o, f.Owns v → l.place? globals v = some (.frame o) → (Int32.ofInt o).toInt = o) := by
  obtain ⟨g, hg, hfull⟩ := hb.full
  obtain rfl := Option.some.inj (hg.symm.trans hf)
  have hsound := sound_ofFunction g
  refine ⟨fun v hv => ?_, fun v w p hv hw hpv hpw => ?_, size_mod _, fun blk hblk id hid => ?_,
    cells_ofFunction hfull, fun hsmall => ?_⟩
  · obtain ⟨cell, hcell⟩ := keeps_of_owns hfull hv
    exact ⟨offset cell, hcell.place? globals, hcell.offset_bounds hsound⟩
  · obtain ⟨c, hc⟩ := keeps_of_owns hfull hv
    obtain ⟨d, hd⟩ := keeps_of_owns hfull hw
    rw [hc.place?] at hpv
    rw [hd.place?, ← hpv, Option.some.injEq, Place.frame.injEq] at hpw
    obtain rfl := offset_injective hpw
    exact hc.unique hd hsound
  · have hplaced : id ∈ g.placed := List.mem_flatMap.2 ⟨blk, hblk.val, hid.val⟩
    refine ⟨List.mem_range.1 (hfull.placed.mem_iff.1 hplaced), ?_⟩
    rw [Bool.eq_iff_iff, isSome_result?, gives_ofFunction_iff hfull]
  · have hsize : (ofFunction g).size < 2147483648 := by
      rw [size, cells_ofFunction hfull]
      omega
    refine ⟨Int32.toInt_ofInt_of_le (by omega) (by omega), fun v o hv ho => ?_⟩
    obtain ⟨cell, hcell⟩ := keeps_of_owns hfull hv
    rw [hcell.place?, Option.some.injEq, Place.frame.injEq] at ho
    subst ho
    have hbounds := hcell.offset_bounds hsound
    exact Int32.toInt_ofInt_of_le (by omega) (by omega)

def stranding : List BuildOp :=
  [.block "entry", .block "dead", .position 1, .slot "x" (.param 0), .arith .add (.param 0) (.int 1),
    .ret (.instr 2), .position 0, .load (.instr 0), .ret (.instr 3)]

def stranded : Function where
  name := "f"
  paramCount := 1
  linkage := .internal
  instrs := #[.alloca "x", .store (.param 0) (.instr 0), .arith .add .i32 (.param 0) (.int 1),
    .load (.instr 0)]
  blocks := #[{ name := "entry", instrs := #[0, 1, 3], terminator := some (.ret (.instr 3)) },
    { name := "dead", instrs := #[2], terminator := some (.ret (.instr 2)) }]

theorem frame_cells_apart_stranded : ∃ b, Built b ∧ b.module.function? b.function = some stranded ∧
    stranded.predecessors[1]? = some [] ∧ stranded.Owns (.param 0) ∧ stranded.Owns (.instr 2) ∧
    stranded.Owns (.instr 3) ∧ (ofFunction stranded).cells = 4 ∧
    (∃ o, (ofFunction stranded).place? #[] (.instr 2) = some (.frame o) ∧ o < 0 ∧ o % 4 = 0 ∧
      -((ofFunction stranded).size : Int) ≤ o) ∧
    (ofFunction stranded).place? #[] (.instr 2) ≠
      (ofFunction stranded).place? #[] (.instr 3) := by
  have hmade : blankBuilder.made? stranding = some stranded := by decide +kernel
  obtain ⟨b, hrun, hf⟩ := Builder.forM_of_made? hmade
  have hblank : blankBuilder.module.function? 0 = some blank := rfl
  have hb : Built b := (Built.first hblank rfl rfl rfl).forM hrun
  obtain ⟨hcell, hapart, -, -, hcells, -⟩ := frame_cells_apart hb hf #[]
  have hdead : stranded.Owns (.instr 2) := rfl
  have hlive : stranded.Owns (.instr 3) := rfl
  obtain ⟨o, ho, hbounds⟩ := hcell _ hdead
  refine ⟨b, hb, hf, by decide, Nat.zero_lt_one, hdead, hlive, hcells, ⟨o, ho, hbounds⟩, fun heq => ?_⟩
  cases hapart _ _ _ hdead hlive ho (heq ▸ ho)

end Assembly.Layout
end IntLang
