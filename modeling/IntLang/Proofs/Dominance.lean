import IntLang.Proofs.LoweredBodies

/-! Definitions come before uses. The blocks of a draft form a tree, in which each hangs below the
block that it was made in. Control comes to a block only from below the place where it hangs, so it
has passed all the blocks above; and an operand is the result of an instruction that stands earlier
in the same block, or in a block above. -/
namespace IntLang.Flow

namespace Function

/-- Control can come from the start of the function to position `k` of block `b`, and executes the
instructions `ids` on its way. -/
inductive Walk (f : Function) : List InstrId → BlockId → Nat → Prop where
  | start : Walk f [] 0 0
  | next {ids : List InstrId} {b : BlockId} {k : Nat} {blk : Block} {id : InstrId} :
      Walk f ids b k → f.blocks[b]? = some blk → blk.instrs[k]? = some id →
      Walk f (ids ++ [id]) b (k + 1)
  | leave {ids : List InstrId} {b c : BlockId} {k : Nat} {blk : Block} :
      Walk f ids b k → f.blocks[b]? = some blk → blk.instrs.size = k → c ∈ f.successors b →
      Walk f ids c 0

/-- There is no way to position `k` of block `b` but through the instruction `id`. -/
def Dominates (f : Function) (id : InstrId) (b : BlockId) (k : Nat) : Prop :=
  ∀ ids, f.Walk ids b k → id ∈ ids

/-- At position `k` of block `b` an operand has the type `ty`, and if it is the result of an
instruction, that one has a result and has been executed by then. -/
structure Provides (f : Function) (b : BlockId) (k : Nat) (v : Operand) (ty : Ty) : Prop where
  typeOf_eq : f.typeOf v = ty
  dominated : ∀ id, v = .instr id →
    (∃ i, f.instrs[id]? = some i ∧ i.resultTy? = some ty) ∧ f.Dominates id b k

end Function

namespace Draft

/-- After `ids` have been executed in block `b`, an operand can be used there. -/
structure Before (d : Draft) (b : Nat) (ids : List InstrId) (v : Operand) (ty : Ty) : Prop where
  typeOf_eq : d.function.typeOf v = ty
  passed : ∀ id, v = .instr id → (∃ i, d.code[id]? = some i ∧ i.resultTy? = some ty) ∧
    (id ∈ d.opening b ++ ids ∨ ∃ c, c ≠ b ∧ d.Placed c id ∧ d.Above c b)

/-- Operands come before their uses, and control goes on to blocks that hang above where it is. -/
structure Ordered (d : Draft) : Prop where
  uses : ∀ (b : Nat) p (k : Nat) id, d.blocks[b]? = some p → p.instrs[k]? = some id →
    ∃ i, d.code[id]? = some i ∧ ∀ v ty, (v, ty) ∈ i.needs → d.Before b (p.instrs.take k) v ty
  ends : ∀ (b : Nat) p t, d.blocks[b]? = some p → p.terminator = some t →
    (∀ v ty, (v, ty) ∈ t.needs → d.Before b p.instrs v ty) ∧
      ∀ c ∈ t.successors, ∃ a, d.Hangs a c ∧ d.Above a b

section Before
variable {d d' : Draft} {b : Nat} {p : Piece} {ids : List InstrId} {v : Operand} {ty : Ty}

theorem Has.before (h : d.Has v ty) (hp : d.blocks[d.block]? = some p) :
    d.Before d.block p.instrs v ty := by
  refine ⟨h.typeOf_eq, ?_⟩
  rintro id rfl
  obtain ⟨hi, c, hplaced, habove⟩ := h
  refine ⟨hi, ?_⟩
  by_cases hc : c = d.block
  · subst hc
    obtain ⟨q, hq, hid⟩ := hplaced
    rw [Option.some.inj (hq.symm.trans hp)] at hid
    exact .inl hid
  · exact .inr ⟨c, hc, hplaced, habove⟩

theorem Before.le (h : d.Before b ids v ty) (hle : Le d d') : d'.Before b ids v ty := by
  refine ⟨?_, fun id hv => ?_⟩
  · cases v with
    | instr id =>
      obtain ⟨⟨i, hi, hres⟩, -⟩ := h.passed id rfl
      simp [Function.typeOf, hle.code_eq hi, hres]
    | bool | int | param | global => exact h.typeOf_eq
  · obtain ⟨⟨i, hi, hres⟩, hcase⟩ := h.passed id hv
    refine ⟨⟨i, hle.code_eq hi, hres⟩, ?_⟩
    rcases hcase with hid | ⟨c, hc, hplaced, habove⟩
    · exact .inl (List.mem_append.2 ((List.mem_append.1 hid).imp_left (mem_opening_of_le hle)))
    · exact .inr ⟨c, hc, hplaced.le hle, habove.le hle⟩

end Before

namespace Ordered
variable {m m' : Module} {d d' : Draft} {i : Instr} {t : Terminator}

theorem uses_of_le (h : d.Ordered) (hle : Le d d') {b : Nat} {p : Piece} {k : Nat} {id : InstrId}
    (hp : d.blocks[b]? = some p) (hk : p.instrs[k]? = some id) :
    ∃ i, d'.code[id]? = some i ∧ ∀ v ty, (v, ty) ∈ i.needs → d'.Before b (p.instrs.take k) v ty := by
  obtain ⟨i, hi, hneeds⟩ := h.uses b p k id hp hk
  exact ⟨i, hle.code_eq hi, fun v ty hv => (hneeds v ty hv).le hle⟩

theorem ends_of_le (h : d.Ordered) (hle : Le d d') {b : Nat} {p : Piece}
    (hp : d.blocks[b]? = some p) (ht : p.terminator = some t) :
    (∀ v ty, (v, ty) ∈ t.needs → d'.Before b p.instrs v ty) ∧
      ∀ c ∈ t.successors, ∃ a, d'.Hangs a c ∧ d'.Above a b := by
  obtain ⟨hneeds, hgo⟩ := h.ends b p t hp ht
  refine ⟨fun v ty hv => (hneeds v ty hv).le hle, fun c hc => ?_⟩
  obtain ⟨a, ha, habove⟩ := hgo c hc
  exact ⟨a, ha.le hle, habove.le hle⟩

theorem push (h : d.Ordered) (ho : d.Open) (hi : d.Serves i.needs) : (d.push i).Ordered := by
  have hle := Le.push ho i
  constructor
  · intro b p k id hp hk
    rw [blocks_push] at hp
    obtain ⟨q, hq, rfl⟩ := Option.map_eq_some_iff.1 hp
    split at hk
    · next hb =>
      subst hb
      rw [if_pos rfl]
      by_cases hlt : k < q.instrs.length
      · rw [List.getElem?_append_left hlt] at hk
        rw [List.take_append_of_le_length (Nat.le_of_lt hlt)]
        exact h.uses_of_le hle hq hk
      · obtain ⟨hlast, hid⟩ := List.getElem?_eq_some_iff.1 hk
        rw [List.length_append, List.length_singleton] at hlast
        obtain rfl : k = q.instrs.length := by omega
        rw [List.getElem_append_right (Nat.le_refl _)] at hid
        simp only [List.getElem_singleton] at hid
        subst hid
        rw [List.take_left]
        exact ⟨i, by simp, fun v ty hv => ((hi v ty hv).before hq).le hle⟩
    · next hb =>
      rw [if_neg hb]
      exact h.uses_of_le hle hq hk
  · intro b p t hp ht
    rw [blocks_push] at hp
    obtain ⟨q, hq, rfl⟩ := Option.map_eq_some_iff.1 hp
    split at ht
    · next hb =>
      obtain ⟨r, hr, hnone⟩ := ho
      rw [Option.some.inj (hr.symm.trans (hb ▸ hq)), ht] at hnone
      cases hnone
    · next hb =>
      rw [if_neg hb]
      exact h.ends_of_le hle hq ht

theorem append (h : d.Ordered) (name : String) : (d.append name).Ordered := by
  have hle := Le.append d name
  constructor
  · intro b p k id hp hk
    rw [blocks_append] at hp
    split at hp
    · rw [← Option.some.inj hp] at hk
      cases hk
    · exact h.uses_of_le hle hp hk
  · intro b p t hp ht
    rw [blocks_append] at hp
    split at hp
    · rw [← Option.some.inj hp] at ht
      cases ht
    · exact h.ends_of_le hle hp ht

theorem close (h : d.Ordered) (ho : d.Open) (hs : d.Serves t.needs) (ha : d.Admits t) :
    (d.close t).Ordered := by
  have hle := Le.close ho t
  constructor
  · intro b p k id hp hk
    rw [blocks_close] at hp
    obtain ⟨q, hq, rfl⟩ := Option.map_eq_some_iff.1 hp
    have hinstrs : (if d.block = b then { q with terminator := some t } else q).instrs = q.instrs := by
      split <;> rfl
    rw [hinstrs] at hk ⊢
    exact h.uses_of_le hle hq hk
  · intro b p t' hp ht
    rw [blocks_close] at hp
    obtain ⟨q, hq, rfl⟩ := Option.map_eq_some_iff.1 hp
    split at ht
    · next hb =>
      subst hb
      obtain rfl := Option.some.inj ht
      rw [if_pos rfl]
      refine ⟨fun v ty hv => ((hs v ty hv).before hq).le hle, fun c hc => ?_⟩
      obtain ⟨a, hhangs, habove⟩ := ha c hc
      exact ⟨a, hhangs.le hle, habove.le hle⟩
    · next hb =>
      rw [if_neg hb]
      exact h.ends_of_le hle hq ht

theorem slot (h : d.Ordered) (name : String) (init : Operand) : (d.slot name init).Ordered :=
  ⟨fun _ _ _ _ hp hk => h.uses_of_le (.slot d name init) hp hk,
    fun _ _ _ hp ht => h.ends_of_le (.slot d name init) hp ht⟩

theorem goto (h : d.Ordered) (b : Nat) : (d.goto b).Ordered :=
  ⟨fun _ _ _ _ hp hk => h.uses_of_le (.goto d b) hp hk,
    fun _ _ _ hp ht => h.ends_of_le (.goto d b) hp ht⟩

/-- A test: its three blocks are made in the current one. -/
theorem test (h : d.Ordered) (hf : d.Framed) {v : Operand} (hv : d.Has v .i32) (whenZero : Bool) :
    (d.zeroTest v whenZero).Ordered := by
  obtain ⟨hmade, hasked, hzero, hnonzero, hjoining⟩ := hf.stages v
  have hhangs {b : Nat}
      (hb : b = d.blocks.length ∨ b = d.blocks.length + 1 ∨ b = d.blocks.length + 2) :
      (d.compared v).Hangs d.block b := hangs_push.2 (hf.hangs_three _ _ _ hb)
  have omade : d.testBlocks.Ordered := ((h.append _).append _).append _
  have oasked : (d.compared v).Ordered := omade.push hmade.current (by
    have hv' : d.testBlocks.Has v .i32 := hv.le (.testBlocks d) .refl
    simp [Instr.needs, hv'])
  have ozero : (d.onZero v).Ordered := (oasked.close (t := .branch _ _ _) hasked.current
    (serves_cons.2 ⟨has_push (i := .compare ..) hmade.current rfl rfl, serves_nil⟩)
    (admits_branch.2 ⟨admits_jump.2 ⟨d.block, hhangs (.inl rfl), .refl⟩,
      admits_jump.2 ⟨d.block, hhangs (.inr (.inl rfl)), .refl⟩⟩)).goto _
  have ononzero : (d.onNonzero v).Ordered := (ozero.close (t := .jump _) hzero.current serves_nil
    (admits_jump.2 ⟨d.block, hangs_close.2 (hhangs (.inr (.inr rfl))),
      .single (hangs_close.2 (hhangs (.inl rfl)))⟩)).goto _
  have ojoining : (d.joining v).Ordered := (ononzero.close (t := .jump _) hnonzero.current serves_nil
    (admits_jump.2 ⟨d.block, hangs_close.2 (hangs_close.2 (hhangs (.inr (.inr rfl)))),
      .single (hangs_close.2 (hangs_close.2 (hhangs (.inr (.inl rfl)))))⟩)).goto _
  exact ojoining.push hjoining.current (by simp [Instr.needs])

theorem step (h : d.Ordered) (hf : d.Framed) (hs : Step m d d') : d'.Ordered := by
  cases hs with
  | stay => exact h
  | push _ hi => exact h.push hf.current hi
  | slot _ => exact h.slot _ _
  | append name => exact h.append name
  | test whenZero hv => exact h.test hf hv whenZero
  | close _ hs ha _ => exact (h.close hf.current hs ha).goto _
  | leave name hv =>
    rw [close_append hf.current]
    have hv' : (d.append name).Has _ .i32 := hv.le (.append d name) .refl
    exact ((h.append name).close (t := .ret _) (hf.append name).current
      (by simpa [Terminator.needs] using hv') fun c hc => (List.not_mem_nil hc).elim).goto _

theorem built {id : FuncId} (h : d.Ordered) (hf : d.Framed) (hs : Built id m d m' d') :
    d'.Ordered := by
  induction hs with
  | refl => exact h
  | step hb hlast _ ih => exact (ih h hf).step (hf.built hb).1 hlast

end Ordered

theorem eq_of_getElem?_start {f : Function} {b : Nat} {p : Piece}
    (hp : (start f).blocks[b]? = some p) : p = { name := "entry" } := by
  simp only [start, List.getElem?_singleton] at hp
  split at hp
  · exact (Option.some.inj hp).symm
  · cases hp

theorem ordered_start (f : Function) : (start f).Ordered := by
  constructor
  · intro b p k id hp hk
    rw [eq_of_getElem?_start hp] at hk
    cases hk
  · intro b p t hp ht
    rw [eq_of_getElem?_start hp] at ht
    cases ht

theorem Complete.ordered {D : Draft} {id : FuncId} {m : Module} (h : D.Complete id m) :
    D.Ordered := by
  obtain ⟨f, m₀, m₁, d, hb, -, -, rfl⟩ := h
  have hf := ((framed_start f).built hb).1
  exact ((ordered_start f).built (framed_start f) hb).close hf.current
    (by simp [Terminator.needs]) fun c hc => (List.not_mem_nil hc).elim

section Walks
variable {D : Draft} {ids : List InstrId} {b c : Nat} {k : Nat}

theorem Hangs.unique {a a' : Nat} (h : D.Hangs a b) (h' : D.Hangs a' b) : a = a' := by
  obtain ⟨-, p, hp, rfl⟩ := h
  obtain ⟨-, q, hq, rfl⟩ := h'
  rw [Option.some.inj (hp.symm.trans hq)]

/-- What is above a block is above the one that it hangs below. -/
theorem Above.of_hangs {a : Nat} (h : D.Above c b) (hne : c ≠ b) (ha : D.Hangs a b) : D.Above c a := by
  cases h with
  | refl => exact absurd rfl hne
  | tail hc hlast => exact hlast.unique ha ▸ hc

/-- On its way control has passed the instructions before it in the block, and all those in the
blocks above. -/
theorem Ordered.passed (h : D.Ordered) (hw : D.function.Walk ids b k) :
    (∀ (j : Nat) id blk, j < k → D.function.blocks[b]? = some blk → blk.instrs[j]? = some id →
      id ∈ ids) ∧ ∀ c id, c ≠ b → D.Above c b → D.Placed c id → id ∈ ids := by
  induction hw with
  | start =>
    refine ⟨fun j id blk hj => absurd hj (Nat.not_lt_zero j), fun c id hne habove => ?_⟩
    cases habove with
    | refl => exact absurd rfl hne
    | tail _ hlast => exact absurd hlast.1 (Nat.lt_irrefl 0)
  | @next ids b k blk id _ hblk hid ih =>
    refine ⟨fun j id' blk' hj hblk' hid' => ?_, fun c id' hne habove hplaced => ?_⟩
    · obtain rfl := Option.some.inj (hblk.symm.trans hblk')
      rcases Nat.lt_succ_iff_lt_or_eq.1 hj with hj | rfl
      · exact List.mem_append_left _ (ih.1 j id' blk hj hblk hid')
      · simp [Option.some.inj (hid.symm.trans hid')]
    · exact List.mem_append_left _ (ih.2 c id' hne habove hplaced)
  | @leave ids b b' k blk _ hblk hsize hgo ih =>
    refine ⟨fun j id blk hj => absurd hj (Nat.not_lt_zero j), fun c id hne habove hplaced => ?_⟩
    rw [function_blocks] at hblk
    obtain ⟨p, hp, rfl⟩ := Option.map_eq_some_iff.1 hblk
    obtain ⟨t, ht, hmem⟩ : ∃ t, p.terminator = some t ∧ b' ∈ t.successors := by
      rw [Function.successors, function_blocks, hp] at hgo
      cases ht : p.terminator with
      | none => simp [blockAt, ht] at hgo
      | some t => exact ⟨t, rfl, by simpa [blockAt, ht] using hgo⟩
    obtain ⟨a, ha, hab⟩ := (h.ends b p t hp ht).2 b' hmem
    have hcb : D.Above c b := (habove.of_hangs hne ha).trans hab
    by_cases hc : c = b
    · subst hc
      obtain ⟨q, hq, hid⟩ := hplaced
      obtain rfl := Option.some.inj (hq.symm.trans hp)
      obtain ⟨j, hj⟩ := List.mem_iff_getElem?.1 hid
      refine ih.1 j id (D.blockAt c q) ?_ (by rw [function_blocks, hq]; rfl) (by simpa [blockAt] using hj)
      rw [← hsize]
      simpa [blockAt] using (List.getElem?_eq_some_iff.1 hj).1
    · exact ih.2 c id hc hcb hplaced

/-- What comes before a use in a draft dominates it in the function. -/
theorem Ordered.provides (h : D.Ordered) {p : Piece} (hp : D.blocks[b]? = some p) {v : Operand}
    {ty : Ty} (hk : k ≤ p.instrs.length) (hv : D.Before b (p.instrs.take k) v ty) :
    D.function.Provides b ((D.opening b).length + k) v ty := by
  refine ⟨hv.typeOf_eq, fun id hid => ?_⟩
  obtain ⟨hi, hcase⟩ := hv.passed id hid
  refine ⟨by simpa using hi, fun ids hw => ?_⟩
  rcases hcase with hmem | ⟨c, hc, hplaced, habove⟩
  · obtain ⟨j, hj⟩ := List.mem_iff_getElem?.1 hmem
    have hlt := (List.getElem?_eq_some_iff.1 hj).1
    rw [List.length_append, List.length_take] at hlt
    refine (h.passed hw).1 j id (D.blockAt b p) (by omega) (by rw [function_blocks, hp]; rfl) ?_
    have hwhole : D.opening b ++ p.instrs = (D.opening b ++ p.instrs.take k) ++ p.instrs.drop k := by simp
    simp only [blockAt, List.getElem?_toArray]
    rw [hwhole, List.getElem?_append_left (List.getElem?_eq_some_iff.1 hj).1, hj]
  · exact (h.passed hw).2 c id hc habove hplaced

end Walks
end Draft
end IntLang.Flow
