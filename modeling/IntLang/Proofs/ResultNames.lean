import IntLang.Flow.Printer
import IntLang.Proofs.Labels

/-! The names of results in the text of a function. Slots have the names of their variables, everything
else is numbered after the parameters, and so no two results have one name. -/
namespace IntLang.Flow

/-- What has been named when the instructions `done` have been passed. -/
structure Function.Numbering.Covers (f : Function) (done : List InstrId) (n : Function.Numbering) :
    Prop where
  size : n.names.size = f.instrs.size
  next : f.paramCount ≤ n.next
  sound : ∀ (id : InstrId) s, n.names[id]? = some (some s) →
    ∃ i, f.instrs[id]? = some i ∧ i.resultTy?.isSome = true ∧
      (i.slotName? = some s ∨ i.slotName? = none ∧ ∃ j, f.paramCount ≤ j ∧ j < n.next ∧ s = toString j)
  named : ∀ id ∈ done, ∀ i, f.instrs[id]? = some i → i.resultTy?.isSome = true →
    ∃ s, n.names[id]? = some (some s)
  apart : ∀ (id id' : InstrId) i i' s, f.instrs[id]? = some i → f.instrs[id']? = some i' →
    i.slotName? = none → i'.slotName? = none → n.names[id]? = some (some s) →
    n.names[id']? = some (some s) → id = id'

namespace Function.Numbering
variable {f : Function} {done : List InstrId} {n : Numbering} {id : InstrId} {i : Instr}

theorem covers_start (f : Function) : Covers f [] ⟨Array.replicate f.instrs.size none, f.paramCount⟩ := by
  have hnone (id : InstrId) (s : String) :
      (Array.replicate f.instrs.size (none : Option String))[id]? ≠ some (some s) := by
    rw [Array.getElem?_replicate]
    split <;> simp
  exact ⟨by simp, Nat.le_refl _, fun id s h => absurd h (hnone id s), by simp,
    fun id id' i i' s _ _ _ _ h _ => absurd h (hnone id s)⟩

/-- The next number is not the name of an instruction yet. -/
theorem Covers.ne_next (h : Covers f done n) {s : String} (hs : n.names[id]? = some (some s))
    (hi : f.instrs[id]? = some i) (hslot : i.slotName? = none) : s ≠ toString n.next := by
  obtain ⟨i', hi', -, hcase⟩ := h.sound id s hs
  obtain rfl := Option.some.inj (hi.symm.trans hi')
  rcases hcase with hcase | ⟨-, k, -, hk, rfl⟩
  · rw [hslot] at hcase
    cases hcase
  · intro hnum
    exact Nat.ne_of_lt hk (toString_nat_inj hnum)

/-- The name of one more instruction, which is that of a slot or a new number. -/
theorem Covers.name (h : Covers f done n) (hi : f.instrs[id]? = some i)
    (hres : i.resultTy?.isSome = true) {s : String}
    {next : Nat} (hnext : n.next ≤ next)
    (hs : i.slotName? = some s ∨ i.slotName? = none ∧ s = toString n.next ∧ n.next < next) :
    Covers f (done ++ [id]) ⟨n.names.setIfInBounds id (some s), next⟩ := by
  have hlt : id < n.names.size := h.size ▸ (Array.getElem?_eq_some_iff.1 hi).1
  have hget (j : InstrId) : (n.names.setIfInBounds id (some s))[j]? =
      if id = j then some (some s) else n.names[j]? := by
    rw [Array.getElem?_setIfInBounds]
    simp only [if_pos hlt]
  have hnew (j : InstrId) (i' : Instr) (hj : n.names[j]? = some (some s))
      (hi' : f.instrs[j]? = some i') (hslot' : i'.slotName? = none) (hslot : i.slotName? = none) :
      False := by
    rcases hs with hs | ⟨-, rfl, -⟩
    · rw [hslot] at hs
      cases hs
    · exact h.ne_next hj hi' hslot' rfl
  refine ⟨by simpa using h.size, Nat.le_trans h.next hnext, fun j t hj => ?_, fun j hj i' hi' hres => ?_,
    fun j j' i₁ i₂ t h₁ h₂ hs₁ hs₂ hj hj' => ?_⟩
  · rw [hget] at hj
    split at hj
    · next hjid =>
      subst hjid
      obtain rfl := Option.some.inj (Option.some.inj hj)
      refine ⟨i, hi, hres, ?_⟩
      rcases hs with hs | ⟨hslot, hnum, hlt⟩
      · exact .inl hs
      · exact .inr ⟨hslot, n.next, h.next, hlt, hnum⟩
    · obtain ⟨i', hi', hres', hcase⟩ := h.sound j t hj
      refine ⟨i', hi', hres', ?_⟩
      rcases hcase with hslot | ⟨hslot, k, hk, hlt, hnum⟩
      · exact .inl hslot
      · exact .inr ⟨hslot, k, hk, Nat.lt_of_lt_of_le hlt hnext, hnum⟩
  · rw [hget]
    split
    · exact ⟨s, rfl⟩
    · next hne =>
      rcases List.mem_append.1 hj with hj | hj
      · exact h.named j hj i' hi' hres
      · exact absurd (List.mem_singleton.1 hj).symm hne
  · rw [hget] at hj hj'
    split at hj
    · next hjid =>
      split at hj'
      · next hjid' => exact hjid.symm.trans hjid'
      · subst hjid
        obtain rfl := Option.some.inj (Option.some.inj hj)
        obtain rfl := Option.some.inj (hi.symm.trans h₁)
        exact (hnew j' i₂ hj' h₂ hs₂ hs₁).elim
    · split at hj'
      · next hjid' =>
        subst hjid'
        obtain rfl := Option.some.inj (Option.some.inj hj')
        obtain rfl := Option.some.inj (hi.symm.trans h₂)
        exact (hnew j i₁ hj h₁ hs₁ hs₂).elim
      · exact h.apart j j' i₁ i₂ t h₁ h₂ hs₁ hs₂ hj hj'

/-- An instruction without a result is passed over. -/
theorem Covers.skip (h : Covers f done n) (hno : ∀ i, f.instrs[id]? = some i → i.resultTy? = none) :
    Covers f (done ++ [id]) n := by
  refine ⟨h.size, h.next, h.sound, fun j hj i' hi' hres => ?_, h.apart⟩
  rcases List.mem_append.1 hj with hj | hj
  · exact h.named j hj i' hi' hres
  · rw [List.mem_singleton.1 hj] at hi'
    rw [hno i' hi'] at hres
    cases hres

theorem Covers.step (h : Covers f done n) (id : InstrId) : Covers f (done ++ [id]) (add f n id) := by
  unfold add
  split
  · next name hi => exact h.name hi rfl (Nat.le_refl _) (.inl rfl)
  · next i hno hi =>
    have hslot : i.slotName? = none := by
      cases i with
      | alloca name => exact absurd rfl (hno name)
      | _ => rfl
    split
    · next hres => exact h.name hi hres (Nat.le_succ _) (.inr ⟨hslot, rfl, Nat.lt_succ_self _⟩)
    · next hres =>
      refine h.skip fun i' hi' => ?_
      obtain rfl := Option.some.inj (hi.symm.trans hi')
      simpa using hres
  · next hi => exact h.skip fun i' hi' => absurd (hi.symm.trans hi') (by simp)

theorem Covers.run : ∀ (ids : List InstrId) {done : List InstrId} {n : Numbering}, Covers f done n →
    Covers f (done ++ ids) (ids.foldl (add f) n)
  | [], done, n, h => by simpa using h
  | id :: ids, done, n, h => by
    have hrun := Covers.run ids (h.step id)
    rwa [List.append_assoc, List.singleton_append] at hrun

end Function.Numbering

namespace Function
variable {f : Function} {k : Nat} {names : List String}

theorem resultNames_eq (f : Function) : f.resultNames =
    (f.placed.foldl (Numbering.add f) ⟨Array.replicate f.instrs.size none, f.paramCount⟩).names := by
  unfold resultNames placed
  rw [List.foldl_flatMap]
  simp only [← Array.foldl_toList]

def resultName? (f : Function) (id : InstrId) : Option String :=
  f.resultNames[id]?.join

/-- The text of a function tells its blocks apart, and what its instructions give from each other and
from the parameters. -/
structure Unambiguous (f : Function) : Prop where
  labels : f.labels.Nodup
  named : ∀ (id : InstrId) i, f.instrs[id]? = some i → i.resultTy?.isSome = true →
    ∃ name, f.resultName? id = some name
  distinct : ∀ id id' name, f.resultName? id = some name → f.resultName? id' = some name → id = id'
  params : ∀ id, ∀ j < f.paramCount, f.resultName? id ≠ some (toString j)

theorem covers_resultNames (f : Function) :
    ∃ n : Numbering, n.names = f.resultNames ∧ Numbering.Covers f f.placed n :=
  ⟨_, f.resultNames_eq.symm, by simpa using (Numbering.covers_start f).run f.placed⟩

theorem resultName?_eq_some_iff {id : InstrId} {name : String} :
    f.resultName? id = some name ↔ f.resultNames[id]? = some (some name) := by
  rw [resultName?, Option.join_eq_some_iff]

namespace Neat

theorem slot_inj (h : f.Neat k names) {id id' : InstrId} {i i' : Instr} {name : String}
    (hi : f.instrs[id]? = some i) (hi' : f.instrs[id']? = some i') (hname : i.slotName? = some name)
    (hname' : i'.slotName? = some name) : id = id' := by
  have hapart := List.pairwise_filterMap.1 (show f.slotNames.Nodup from h.slots ▸ h.nodup)
  rw [List.pairwise_iff_getElem] at hapart
  rw [← Array.getElem?_toList] at hi hi'
  obtain ⟨hlt, rfl⟩ := List.getElem?_eq_some_iff.1 hi
  obtain ⟨hlt', rfl⟩ := List.getElem?_eq_some_iff.1 hi'
  rcases Nat.lt_trichotomy id id' with hid | hid | hid
  · exact absurd rfl (hapart id id' hlt hlt' hid name hname name hname')
  · exact hid
  · exact absurd rfl (hapart id' id hlt' hlt hid name hname' name hname)

theorem mem_order (h : f.Neat k names) {id : InstrId} : id ∈ f.placed ↔ id < f.instrs.size := by
  rw [h.order.mem_iff, List.mem_range]

/-- A result has the name of its slot, which is a word, or a number after those of the parameters. -/
theorem resultName_cases (h : f.Neat k names) {id : InstrId} {name : String}
    (hid : f.resultName? id = some name) :
    ∃ i, f.instrs[id]? = some i ∧ i.resultTy?.isSome = true ∧
      (i.slotName? = some name ∧ IsWord name.toList ∨
        i.slotName? = none ∧ ∃ j, f.paramCount ≤ j ∧ name = toString j) := by
  obtain ⟨n, hn, hc⟩ := f.covers_resultNames
  rw [resultName?_eq_some_iff, ← hn] at hid
  obtain ⟨i, hi, hres, hcase⟩ := hc.sound id name hid
  refine ⟨i, hi, hres, ?_⟩
  rcases hcase with hslot | ⟨hslot, j, hj, -, hnum⟩
  · have hmem : i ∈ f.instrs.toList := List.mem_of_getElem? (Array.getElem?_toList.trans hi)
    exact .inl ⟨hslot, h.words name (h.slots ▸ List.mem_filterMap.2 ⟨i, hmem, hslot⟩)⟩
  · exact .inr ⟨hslot, j, hj, hnum⟩

theorem unbroken_resultName (h : f.Neat k names) {id : InstrId} {name : String}
    (hid : f.resultName? id = some name) : Unbroken name := by
  obtain ⟨i, -, -, ⟨-, hword⟩ | ⟨-, j, -, rfl⟩⟩ := h.resultName_cases hid
  · exact unbroken_of_isWord hword
  · exact toString_natCast j ▸ unbroken_toString j

theorem unambiguous (h : f.Neat k names) : f.Unambiguous where
  labels := h.apart
  named id i hi hres := by
    obtain ⟨n, hn, hc⟩ := f.covers_resultNames
    obtain ⟨name, hname⟩ := hc.named id (h.mem_order.2 (Array.getElem?_eq_some_iff.1 hi).1) i hi hres
    exact ⟨name, resultName?_eq_some_iff.2 (hn ▸ hname)⟩
  distinct id id' name hid hid' := by
    obtain ⟨i, hi, -, ⟨hslot, hword⟩ | ⟨hslot, j, -, rfl⟩⟩ := h.resultName_cases hid
    · obtain ⟨i', hi', -, ⟨hslot', -⟩ | ⟨-, j, -, rfl⟩⟩ := h.resultName_cases hid'
      · exact h.slot_inj hi hi' hslot hslot'
      · exact absurd (toString_natCast j ▸ hword) (not_isWord_toString j)
    · obtain ⟨i', hi', -, ⟨-, hword⟩ | ⟨hslot', -⟩⟩ := h.resultName_cases hid'
      · exact absurd (toString_natCast j ▸ hword) (not_isWord_toString j)
      · obtain ⟨n, hn, hc⟩ := f.covers_resultNames
        rw [resultName?_eq_some_iff, ← hn] at hid hid'
        exact hc.apart id id' i i' _ hi hi' hslot hslot' hid hid'
  params id j hj hid := by
    obtain ⟨i, -, -, ⟨-, hword⟩ | ⟨-, l, hl, hnum⟩⟩ := h.resultName_cases hid
    · exact not_isWord_toString j (toString_natCast j ▸ hword)
    · have := toString_nat_inj hnum
      omega

end Neat
end Function
end IntLang.Flow
