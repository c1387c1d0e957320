import IntLang.Proofs.Listings
import IntLang.Proofs.WellFormed

/-! Frames on the stack. A frame of the machine is mirrored below the frame pointer: every result has
its word in a cell of its own, and the cell of a slot holds the variable itself. Code that writes one
cell leaves all others alone, and nothing that happens further down touches them. -/
namespace IntLang
open IntLang.Flow IntLang.Machine IntLang.Code IntLang.Assembly

def Machine.Slot.word? : Slot → Option Int32
  | .int n => some n
  | .bool b => some (if b then 1 else 0)
  | _ => none

theorem Machine.Frame.int_eq_ok {fr : Frame} {v : Operand} {n : Int32} :
    fr.int v = .ok n ↔ (fr.eval v).word? = some n := by
  unfold Frame.int
  cases fr.eval v <;> simp [Slot.word?]

namespace Assembly

namespace Stack
variable {m m' : Stack} {a b : Int} {n k : Int32}

theorem word?_write_self (m : Stack) (a : Int) (n : Int32) :
    (m.write a (.word n)).word? a = some n :=
  word?_eq_some.2 (read_write_self m a _)

theorem word?_write_of_disjoint (h : m.word? b = some k) (hd : b + 4 ≤ a ∨ a + 4 ≤ b) :
    (m.write a (.word n)).word? b = some k :=
  word?_eq_some.2 (read_write_of_disjoint (word?_eq_some.1 h) hd)

theorem word?_congr (h : m.word? a = some n) (hm : ∀ c, a ≤ c → m' c = m c) : m'.word? a = some n :=
  word?_eq_some.2 (read_congr (word?_eq_some.1 h) fun c hc _ => hm c hc)

end Stack

namespace Layout
variable {l : Layout}

def paramOffset (l : Layout) (i : Nat) : Int :=
  if i < l.params then offset i else (16 + 8 * (i - argRegs.length) : Nat)

theorem param_eq (l : Layout) (i : Nat) : l.param i = .frame (l.paramOffset i) := by
  unfold param paramOffset
  split <;> rfl

theorem result?_eq_some {id : InstrId} {p : Place} :
    l.result? id = some p ↔ ∃ cell, l.Gives id cell ∧ p = .frame (offset cell) := by
  unfold result? Gives
  simp only [Option.map_eq_some_iff, Option.join_eq_some_iff]
  exact exists_congr fun _ => and_congr_right fun _ => eq_comm

theorem cells_le_size (l : Layout) : 4 * l.cells ≤ l.size := by
  unfold size
  omega

theorem size_mod (l : Layout) : l.size % 16 = 0 := by
  unfold size
  omega

theorem Sound.le_offset (h : l.Sound) {id : InstrId} {cell : Nat} (hc : l.Gives id cell) :
    -(l.size : Int) ≤ offset cell ∧ offset cell ≤ -4 := by
  have hb := h.bounds id cell hc
  have hs := l.cells_le_size
  unfold offset
  omega

theorem Sound.le_paramOffset (h : l.Sound) (i : Nat) : -(l.size : Int) ≤ l.paramOffset i := by
  have hp := h.params
  have hs := l.cells_le_size
  unfold paramOffset offset
  split <;> omega

/-- A parameter keeps apart from every result. -/
theorem Sound.paramOffset_disjoint (h : l.Sound) {id : InstrId} {cell : Nat} (hc : l.Gives id cell)
    (i : Nat) : offset cell + 4 ≤ l.paramOffset i := by
  have hb := h.bounds id cell hc
  unfold paramOffset offset
  split <;> omega

theorem Sound.offset_disjoint (h : l.Sound) {i j : InstrId} {ci cj : Nat} (hi : l.Gives i ci)
    (hj : l.Gives j cj) (hne : i ≠ j) : offset ci + 4 ≤ offset cj ∨ offset cj + 4 ≤ offset ci := by
  have hcells : ci ≠ cj := fun he => hne (h.injective i j ci hi (he ▸ hj))
  unfold offset
  omega

end Layout
end Assembly

theorem eq_of_getElem?_setIfInBounds {α : Type} {xs : Array α} {i : Nat} {a b : α}
    (h : (xs.setIfInBounds i a)[i]? = some b) : b = a := by
  rw [Array.getElem?_setIfInBounds_self] at h
  split at h
  · exact (Option.some.inj h).symm
  · cases h

namespace Flow.Draft
variable {D : Draft} {fr fr' : Frame} {m m' : Stack} {fp : Int} {id : InstrId} {n : Int32} {cell j : Nat}

def layout (D : Draft) : Layout :=
  .ofFunction D.function

theorem sound_layout (D : Draft) : D.layout.Sound :=
  Layout.sound_ofFunction D.function

/-- Slot `j` has its first value. -/
def Begun (D : Draft) (fr : Frame) (j : Nat) : Prop :=
  fr.block = 0 → D.slots.length + j < fr.next

/-- The cell of a result holds `n`: its word, or the variable of a slot. -/
def Content (D : Draft) (fr : Frame) (id : InstrId) (n : Int32) : Prop :=
  (∃ s, fr.results[id]? = some s ∧ s.word? = some n) ∨
    ∃ j : Nat, fr.results[id]? = some (.cell j) ∧ D.Begun fr j ∧ fr.cells[j]? = some n

/-- The frame `fr` of the machine is on the stack, at the frame pointer `fp`. -/
structure Mirrors (D : Draft) (fr : Frame) (m : Stack) (fp : Int) : Prop where
  params : ∀ i n, i < D.head.paramCount → fr.args[i]? = some n →
    m.word? (fp + D.layout.paramOffset i) = some n
  results : ∀ id cell n, D.layout.Gives id cell → D.Content fr id n →
    m.word? (fp + Layout.offset cell) = some n
  slots : ∀ id j : Nat, fr.results[id]? = some (.cell j) → ∃ init, D.slots[j]? = some (id, init)
  globals : ∀ (id : Nat) g, fr.results[id]? ≠ some (.global g)
  cells : fr.cells.size = if fr.block = 0 then min fr.next D.slots.length else D.slots.length

namespace Mirrors

theorem slot_lt (h : D.Mirrors fr m fp) (hj : fr.results[id]? = some (.cell j)) : j < D.slots.length := by
  obtain ⟨init, hinit⟩ := h.slots id j hj
  exact (List.getElem?_eq_some_iff.1 hinit).1

/-- Only the stack above the end of the frame matters. -/
theorem congr (h : D.Mirrors fr m fp) (hm : ∀ a, fp - D.layout.size ≤ a → m' a = m a) :
    D.Mirrors fr m' fp where
  params i n hi hn := by
    have hle := D.sound_layout.le_paramOffset i
    exact Stack.word?_congr (h.params i n hi hn) fun c hc => hm c (by omega)
  results id cell n hc hn := by
    have hle := D.sound_layout.le_offset hc
    exact Stack.word?_congr (h.results id cell n hc hn) fun c hc => hm c (by omega)
  slots := h.slots
  globals := h.globals
  cells := h.cells

/-- Control goes on, and no slot gets its first value. -/
theorem move (h : D.Mirrors fr m fp) (hargs : fr'.args = fr.args) (hres : fr'.results = fr.results)
    (hcells : fr'.cells = fr.cells) (hbegun : ∀ j < D.slots.length, D.Begun fr' j → D.Begun fr j)
    (hsize : fr.cells.size = if fr'.block = 0 then min fr'.next D.slots.length else D.slots.length) :
    D.Mirrors fr' m fp where
  params := hargs ▸ h.params
  results id cell n hc hn := by
    apply h.results id cell n hc
    unfold Content at hn ⊢
    rw [hres, hcells] at hn
    refine hn.imp_right ?_
    rintro ⟨j, hj, hb, hn⟩
    exact ⟨j, hj, hbegun j (h.slot_lt hj) hb, hn⟩
  slots := hres ▸ h.slots
  globals := hres ▸ h.globals
  cells := hcells ▸ hsize

theorem advance (h : D.Mirrors fr m fp) (hpast : fr.block = 0 → 2 * D.slots.length ≤ fr.next) :
    D.Mirrors fr.advance m fp := by
  refine h.move rfl rfl rfl (fun j hj _ h0 => ?_) ?_
  · have hle := hpast h0
    omega
  · rw [h.cells]
    change (if fr.block = 0 then _ else _) = if fr.block = 0 then min (fr.next + 1) _ else _
    split
    · next h0 =>
      have hle := hpast h0
      omega
    · rfl

/-- One cell is written, and what it holds is what the frame says. -/
theorem write (h : D.Mirrors fr m fp) (hid : D.layout.Gives id cell) (hargs : fr'.args = fr.args)
    (hself : ∀ k, D.Content fr' id k → k = n)
    (hothers : ∀ i k, i ≠ id → D.Content fr' i k → D.Content fr i k)
    (hslots : ∀ (i : Nat) s, fr'.results[i]? = some s → s.word? = none → fr.results[i]? = some s)
    (hsize : fr'.cells.size = if fr'.block = 0 then min fr'.next D.slots.length else D.slots.length) :
    D.Mirrors fr' (m.write (fp + Layout.offset cell) (.word n)) fp where
  params i k hi hk := by
    have hd := D.sound_layout.paramOffset_disjoint hid i
    exact Stack.word?_write_of_disjoint (h.params i k hi (hargs ▸ hk)) (by omega)
  results i cell' k hi hk := by
    by_cases hne : i = id
    · subst hne
      obtain rfl : cell = cell' := Option.some.inj (Option.some.inj (hid.symm.trans hi))
      rw [hself k hk]
      exact Stack.word?_write_self m _ n
    · have hd := D.sound_layout.offset_disjoint hi hid hne
      exact Stack.word?_write_of_disjoint (h.results i cell' k hi (hothers i k hne hk)) (by omega)
  slots i j hj := h.slots i j (hslots i _ hj rfl)
  globals i g hg := h.globals i g (hslots i _ hg rfl)
  cells := hsize

theorem give (h : D.Mirrors fr m fp) (hid : D.layout.Gives id cell) {s : Slot} (hs : s.word? = some n) :
    D.Mirrors { fr with results := fr.results.setIfInBounds id s }
      (m.write (fp + Layout.offset cell) (.word n)) fp := by
  have hold (i : InstrId) (hi : i ≠ id) :
      (fr.results.setIfInBounds id s)[i]? = fr.results[i]? :=
    Array.getElem?_setIfInBounds_ne (Ne.symm hi)
  refine h.write hid rfl ?_ ?_ ?_ h.cells
  · rintro k (⟨s', hs', hk⟩ | ⟨j, hj, -⟩)
    · rw [eq_of_getElem?_setIfInBounds hs', hs] at hk
      exact (Option.some.inj hk).symm
    · rw [← eq_of_getElem?_setIfInBounds hj] at hs
      cases hs
  · rintro i k hi (⟨s', hs', hk⟩ | ⟨j, hj, hb, hk⟩)
    · exact .inl ⟨s', (hold i hi).symm.trans hs', hk⟩
    · exact .inr ⟨j, (hold i hi).symm.trans hj, hb, hk⟩
  · intro i s' hs' hnone
    by_cases hi : i = id
    · subst hi
      rw [eq_of_getElem?_setIfInBounds hs', hs] at hnone
      cases hnone
    · exact (hold i hi).symm.trans hs'

theorem store (h : D.Mirrors fr m fp) (hid : D.layout.Gives id cell)
    (hj : fr.results[id]? = some (.cell j))
    (hbegun : ∀ i < D.slots.length, i ≠ j → D.Begun fr.advance i → D.Begun fr i)
    (hsize : fr.cells.size =
      if fr.block = 0 then min (fr.next + 1) D.slots.length else D.slots.length) :
    D.Mirrors { fr with cells := fr.cells.setIfInBounds j n }.advance
      (m.write (fp + Layout.offset cell) (.word n)) fp := by
  refine h.write hid rfl ?_ ?_ (fun _ _ hi _ => hi) ?_
  · rintro k (⟨s, hs, hk⟩ | ⟨i, hi, -, hk⟩)
    · obtain rfl : Slot.cell j = s := Option.some.inj (hj.symm.trans hs)
      cases hk
    · obtain rfl : j = i := Slot.cell.inj (Option.some.inj (hj.symm.trans hi))
      exact eq_of_getElem?_setIfInBounds hk
  · rintro i k hne (⟨s, hs, hk⟩ | ⟨j', hj', hb, hk⟩)
    · exact .inl ⟨s, hs, hk⟩
    · have hjj : j' ≠ j := by
        rintro rfl
        obtain ⟨init, hinit⟩ := h.slots id j' hj
        obtain ⟨init', hinit'⟩ := h.slots i j' hj'
        exact hne (Prod.mk.inj (Option.some.inj (hinit'.symm.trans hinit))).1
      change (fr.cells.setIfInBounds j n)[j']? = some k at hk
      rw [Array.getElem?_setIfInBounds, if_neg (Ne.symm hjj)] at hk
      exact .inr ⟨j', hj', hbegun j' (h.slot_lt hj') hjj hb, hk⟩
  · change (fr.cells.setIfInBounds j n).size = _
    rw [Array.size_setIfInBounds]
    exact hsize

/-- A slot is made. Its cell has no value yet. -/
theorem alloca (h : D.Mirrors fr m fp) (h0 : fr.block = 0) {init : Operand}
    (hid : D.slots[fr.next]? = some (id, init)) :
    D.Mirrors ({ fr with cells := fr.cells.push 0 }.give id (.cell fr.cells.size)) m fp := by
  have hlt := (List.getElem?_eq_some_iff.1 hid).1
  have hsize : fr.cells.size = fr.next := by
    rw [h.cells, if_pos h0]
    omega
  have hold (i : InstrId) (hne : i ≠ id) :
      (fr.results.setIfInBounds id (.cell fr.cells.size))[i]? = fr.results[i]? :=
    Array.getElem?_setIfInBounds_ne (Ne.symm hne)
  refine ⟨h.params, fun i cell k hi hk => h.results i cell k hi ?_, fun i j hj => ?_, fun i g hg => ?_, ?_⟩
  · rcases hk with ⟨s, hs, hk⟩ | ⟨j, hj, hb, -⟩
    · by_cases hne : i = id
      · subst hne
        rw [eq_of_getElem?_setIfInBounds hs] at hk
        cases hk
      · exact .inl ⟨s, (hold i hne).symm.trans hs, hk⟩
    · have hb : D.slots.length + j < fr.next + 1 := hb h0
      omega
  · by_cases hne : i = id
    · subst hne
      obtain rfl : j = fr.cells.size := Slot.cell.inj (eq_of_getElem?_setIfInBounds hj)
      exact ⟨init, hsize ▸ hid⟩
    · exact h.slots i j ((hold i hne).symm.trans hj)
  · by_cases hne : i = id
    · subst hne
      cases eq_of_getElem?_setIfInBounds hg
    · exact h.globals i g ((hold i hne).symm.trans hg)
  · change (fr.cells.push 0).size = if fr.block = 0 then min (fr.next + 1) _ else _
    rw [Array.size_push, hsize, if_pos h0]
    omega

end Mirrors

section Positions
variable {M : Module} {f : FuncId} {b k : Nat} {i : Instr}

/-- What stands at a position: the creation of a slot, what a slot starts with, an instruction that
fits, or a phi, which opens its block. -/
theorem Finished.position (h : D.Finished M) (hi : Holds D.function b k id i) :
    (b = 0 ∧ ∃ name init, i = .alloca name ∧ D.slots[k]? = some (id, init)) ∨
    (b = 0 ∧ ∃ (j : Nat) (slot : InstrId) (init : Operand), i = .store init (.instr slot) ∧
      D.slots[j]? = some (slot, init) ∧ k = D.slots.length + j ∧ D.Starts init) ∨
    (D.Fits M i ∧ (b = 0 → 2 * D.slots.length ≤ k)) ∨ (0 < b ∧ k = 0 ∧ D.Joins b i) := by
  obtain ⟨p, hp, hcode, ⟨rfl, j, slot, init, hj, hid⟩ | ⟨k', hk', rfl⟩⟩ := holds_cases hi
  · obtain ⟨⟨name, ha⟩, hst, hstart⟩ := h.slots.written j slot init hj
    rcases hid with ⟨rfl, rfl⟩ | ⟨rfl, rfl⟩
    · exact .inl ⟨rfl, name, init, Option.some.inj (hcode.symm.trans ha), hj⟩
    · exact .inr (.inl ⟨rfl, j, slot, init, Option.some.inj (hcode.symm.trans hst), hj, rfl, hstart⟩)
  · obtain ⟨i', hi', hcase⟩ := h.instrs b p k' id hp hk'
    obtain rfl := Option.some.inj (hcode.symm.trans hi')
    rcases hcase with hfit | ⟨rfl, hj⟩
    · refine .inr (.inr (.inl ⟨hfit, fun h0 => ?_⟩))
      simp only [opening, if_pos h0, List.length_append, List.length_map]
      omega
    · have hpos := h.joins_pos hj
      exact .inr (.inr (.inr ⟨hpos, by simp [opening, Nat.ne_of_gt hpos], hj⟩))

theorem filterMap_of_isSome {α β : Type} {g : α → Option β} {l : List α}
    (h : ∀ a ∈ l, (g a).isSome) :
    (l.filterMap g).length = l.length ∧ ∀ k : Nat, (l.filterMap g)[k]? = l[k]?.bind g := by
  induction l with
  | nil => exact ⟨rfl, fun _ => rfl⟩
  | cons a l ih =>
    obtain ⟨b, hb⟩ := Option.isSome_iff_exists.1 (h a List.mem_cons_self)
    obtain ⟨hlen, hget⟩ := ih fun a' h' => h a' (List.mem_cons_of_mem _ h')
    rw [List.filterMap_cons_some hb]
    refine ⟨by simp [hlen], fun k => ?_⟩
    cases k with
    | zero => exact hb.symm
    | succ k => exact hget k

theorem Finished.exists_instr (h : D.Finished M) {blk : Block} (hb : D.function.blocks[b]? = some blk)
    (hid : id ∈ blk.instrs.toList) : ∃ i, D.function.instrs[id]? = some i := by
  rw [function_blocks] at hb
  obtain ⟨p, hp, rfl⟩ := Option.map_eq_some_iff.1 hb
  obtain ⟨i, hi, -⟩ := h.instr_mem hp hid
  exact ⟨i, by simpa using hi⟩

/-- Emission goes through the instructions of a block as the machine does. -/
theorem Finished.instrsOf_eq (h : D.Finished M) {blk : Block} (hb : D.function.blocks[b]? = some blk) :
    ((Context.ofFunction M f D.function).instrsOf b).length = blk.instrs.size ∧
      ∀ k : Nat, ((Context.ofFunction M f D.function).instrsOf b)[k]? =
        blk.instrs[k]?.bind fun id => D.function.instrs[id]?.map (id, ·) := by
  have hall : ∀ id ∈ blk.instrs.toList, (D.function.instrs[id]?.map (id, ·)).isSome := by
    intro id hid
    obtain ⟨i, hi⟩ := h.exists_instr hb hid
    rw [hi]
    rfl
  have heq : (Context.ofFunction M f D.function).instrsOf b =
      blk.instrs.toList.filterMap fun id => D.function.instrs[id]?.map (id, ·) := by
    simp only [Context.instrsOf, Context.ofFunction, hb]
  obtain ⟨hlen, hget⟩ := filterMap_of_isSome hall
  rw [heq]
  exact ⟨by simpa using hlen, by simpa using hget⟩

theorem Finished.getElem?_instrsOf (h : D.Finished M) (hi : Holds D.function b k id i) :
    ((Context.ofFunction M f D.function).instrsOf b)[k]? = some (id, i) := by
  obtain ⟨blk, hb, hk, hi⟩ := hi
  rw [(h.instrsOf_eq hb).2 k, hk, Option.bind_some, hi]
  rfl

end Positions
end Flow.Draft
end IntLang
