import IntLang.Flow.Check
import IntLang.Proofs.Dominance

/-! The graph of a finished function: every instruction is in a block and has the operands it needs,
every block ends, control never comes back to the entry block, and a block that opens with a phi is
reached from the two blocks that the phi names and from no other. So it passes the checks. -/
namespace IntLang.Flow
namespace Draft

/-- Control can go from block `c` to block `b`. -/
def Edge (d : Draft) (c b : Nat) : Prop :=
  ∃ p t, d.blocks[c]? = some p ∧ p.terminator = some t ∧ b ∈ t.successors

/-- The phi of a block where the two outcomes of a test meet. Nothing else leads there. -/
def Joins (d : Draft) (b : Nat) (i : Instr) : Prop :=
  ∃ z w, i = .phi .i1 [(.bool w, z), (.bool !w, z + 1)] ∧ ∀ c, d.Edge c b ↔ c = z ∨ c = z + 1

/-- An end that leads to other blocks, and never to the entry block. -/
def Leads (d : Draft) (t : Terminator) : Prop :=
  (∀ b ∈ t.successors, 0 < b ∧ b < d.blocks.length) ∧
    match t with
    | .jump _ => True
    | .branch v _ _ | .ret v => d.Value v

/-- A draft whose instructions and ends are in order. -/
structure Wired (m : Module) (d : Draft) : Prop where
  slots : d.SlotsWritten
  placed : ∀ id < d.code.length, ∃ b p, d.blocks[b]? = some p ∧ id ∈ d.opening b ++ p.instrs
  instrs : ∀ (b : Nat) p (k : Nat) id, d.blocks[b]? = some p → p.instrs[k]? = some id →
    ∃ i, d.code[id]? = some i ∧ (d.Fits m i ∨ k = 0 ∧ d.Joins b i)
  ends : ∀ (b : Nat) p t, d.blocks[b]? = some p → p.terminator = some t → d.Leads t

section Edges
variable {d d' : Draft} {b c : Nat} {i : Instr} {t : Terminator}

theorem Edge.ne_block (h : d.Edge c b) (ho : d.Open) : c ≠ d.block := by
  rintro rfl
  obtain ⟨p, t, hp, ht, -⟩ := h
  obtain ⟨q, hq, hn⟩ := ho
  rw [Option.some.inj (hp.symm.trans hq), hn] at ht
  cases ht

theorem edge_push : (d.push i).Edge c b ↔ d.Edge c b := by
  constructor
  · rintro ⟨p, t, hp, ht, hb⟩
    rw [blocks_push] at hp
    obtain ⟨q, hq, rfl⟩ := Option.map_eq_some_iff.1 hp
    refine ⟨q, t, hq, ?_, hb⟩
    split at ht <;> exact ht
  · rintro ⟨p, t, hp, ht, hb⟩
    refine ⟨_, t, by rw [blocks_push, hp]; rfl, ?_, hb⟩
    split <;> exact ht

theorem edge_append {name : String} : (d.append name).Edge c b ↔ d.Edge c b := by
  constructor
  · rintro ⟨p, t, hp, ht, hb⟩
    rw [blocks_append] at hp
    split at hp
    · rw [← Option.some.inj hp] at ht
      cases ht
    · exact ⟨p, t, hp, ht, hb⟩
  · rintro ⟨p, t, hp, ht, hb⟩
    exact ⟨p, t, (blocks_append_of_lt name (List.getElem?_eq_some_iff.1 hp).1).trans hp, ht, hb⟩

theorem edge_close (ho : d.Open) :
    (d.close t).Edge c b ↔ d.Edge c b ∨ c = d.block ∧ b ∈ t.successors := by
  constructor
  · rintro ⟨p, t', hp, ht, hb⟩
    rw [blocks_close] at hp
    obtain ⟨q, hq, rfl⟩ := Option.map_eq_some_iff.1 hp
    split at ht
    · next hc => exact .inr ⟨hc.symm, Option.some.inj ht ▸ hb⟩
    · exact .inl ⟨q, t', hq, ht, hb⟩
  · rintro (h | ⟨rfl, hb⟩)
    · have hne := h.ne_block ho
      obtain ⟨p, t', hp, ht, hb⟩ := h
      exact ⟨p, t', (blocks_close_of_ne t (Ne.symm hne)).trans hp, ht, hb⟩
    · obtain ⟨p, hp, -⟩ := ho
      exact ⟨{ p with terminator := some t }, t, by simp [blocks_close, hp], rfl, hb⟩

theorem Joins.of_edges (h : d.Joins b i) (he : ∀ c, d'.Edge c b ↔ d.Edge c b) : d'.Joins b i := by
  obtain ⟨z, w, hi, hc⟩ := h
  exact ⟨z, w, hi, fun c => (he c).trans (hc c)⟩

theorem Joins.isPhi (h : d.Joins b i) : i.IsPhi := by
  obtain ⟨z, w, rfl, -⟩ := h
  trivial

theorem Le.length_blocks (h : Le d d') : d.blocks.length ≤ d'.blocks.length := by
  refine Nat.le_of_not_lt fun hlt => ?_
  obtain ⟨q, hq, -⟩ := h.blocks _ _ (List.getElem?_eq_getElem hlt)
  simp at hq

theorem Leads.le (h : d.Leads t) (hle : Le d d') : d'.Leads t := by
  refine ⟨fun b hb => ⟨(h.1 b hb).1, Nat.lt_of_lt_of_le (h.1 b hb).2 hle.length_blocks⟩, ?_⟩
  cases t with
  | jump => trivial
  | branch | ret => exact Value.le h.2 hle

theorem Ends.leads (h : d.Ends t) : d.Leads t := by
  cases t with
  | jump dest =>
    refine ⟨fun b hb => ?_, trivial⟩
    rw [List.mem_singleton.1 hb]
    exact ⟨h.1, Target.lt h⟩
  | branch c onTrue onFalse =>
    refine ⟨fun b hb => ?_, h.1⟩
    simp only [Terminator.successors, List.mem_cons, List.not_mem_nil, or_false] at hb
    rcases hb with rfl | rfl
    · exact ⟨h.2.1.1, h.2.1.lt⟩
    · exact ⟨h.2.2.1, h.2.2.lt⟩
  | ret v => exact ⟨fun b hb => (List.not_mem_nil hb).elim, h⟩

/-- Where a block can be left to, there is no phi. -/
theorem Ends.target (h : d.Ends t) (hb : b ∈ t.successors) : d.Target b := by
  cases t with
  | jump dest => exact List.mem_singleton.1 hb ▸ h
  | branch c onTrue onFalse =>
    simp only [Terminator.successors, List.mem_cons, List.not_mem_nil, or_false] at hb
    rcases hb with rfl | rfl
    · exact h.2.1
    · exact h.2.2
  | ret v => exact (List.not_mem_nil hb).elim

end Edges

namespace Wired
variable {m m' : Module} {d d' : Draft} {i : Instr} {t : Terminator}

theorem mono (h : d.Wired m) (hm : Retains m m') : d.Wired m' :=
  ⟨h.slots, h.placed, fun b p k id hp hk =>
    (h.instrs b p k id hp hk).imp fun _ hi => ⟨hi.1, hi.2.imp_left fun hf => hf.le (.refl d) hm⟩,
    h.ends⟩

/-- What has been placed and written stays so, as long as edges lead to no phi. -/
theorem instrs_of_le (h : d.Wired m) (hle : Le d d') {b : Nat} {p : Piece} {k : Nat} {id : InstrId}
    (hp : d.blocks[b]? = some p) (hk : p.instrs[k]? = some id)
    (he : ∀ i, d.code[id]? = some i → d.Joins b i → ∀ c, d'.Edge c b ↔ d.Edge c b) :
    ∃ i, d'.code[id]? = some i ∧ (d'.Fits m i ∨ k = 0 ∧ d'.Joins b i) := by
  obtain ⟨i, hi, hfit | ⟨h0, hj⟩⟩ := h.instrs b p k id hp hk
  · exact ⟨i, hle.code_eq hi, .inl (hfit.le hle (.refl m))⟩
  · exact ⟨i, hle.code_eq hi, .inr ⟨h0, hj.of_edges (he i hi hj)⟩⟩

/-- Adding an instruction, which fits or is the phi of its block. -/
theorem push (h : d.Wired m) (ho : d.Open)
    (hi : d.Fits m i ∨ d.Fresh d.block ∧ d.Joins d.block i) :
    (d.push i).Wired m := by
  have hle := Le.push ho i
  refine ⟨h.slots.le hle rfl, fun id hid => ?_, fun b p k id hp hk => ?_, fun b p t hp ht => ?_⟩
  · rw [code_push, List.length_append, List.length_singleton] at hid
    rcases Nat.lt_succ_iff_lt_or_eq.1 hid with hlt | rfl
    · obtain ⟨b, p, hp, hmem⟩ := h.placed id hlt
      obtain ⟨q, hq, hpre, -⟩ := hle.blocks b p hp
      refine ⟨b, q, hq, List.mem_append.2 ?_⟩
      exact (List.mem_append.1 hmem).imp_right fun hid => hpre.subset hid
    · obtain ⟨p, hp, -⟩ := ho
      exact ⟨d.block, { p with instrs := p.instrs ++ [d.code.length] }, by simp [blocks_push, hp],
        by simp⟩
  · rw [blocks_push] at hp
    obtain ⟨q, hq, rfl⟩ := Option.map_eq_some_iff.1 hp
    have hold (hk : q.instrs[k]? = some id) := h.instrs_of_le hle hq hk fun _ _ _ _ => edge_push
    split at hk
    · next hb =>
      rw [List.getElem?_append] at hk
      split at hk
      · exact hold hk
      · next hlen =>
        rw [List.getElem?_singleton] at hk
        split at hk
        · next h0 =>
          obtain rfl := Option.some.inj hk
          refine ⟨i, by simp, hi.imp (fun hf => hf.le hle (.refl m))
            fun ⟨⟨name, parent, hempty⟩, hj⟩ => ?_⟩
          rw [hb, hq] at hempty
          rw [Option.some.inj hempty] at h0
          exact ⟨h0, hb ▸ hj.of_edges fun _ => edge_push⟩
        · cases hk
    · exact hold hk
  · rw [blocks_push] at hp
    obtain ⟨q, hq, rfl⟩ := Option.map_eq_some_iff.1 hp
    refine (h.ends b q t hq ?_).le hle
    split at ht <;> exact ht

theorem slot (h : d.Wired m) (ho : d.blocks ≠ []) (name : String) {init : Operand}
    (hi : d.Starts init) : (d.slot name init).Wired m := by
  have hle := Le.slot d name init
  obtain ⟨p₀, hp₀⟩ : ∃ p, d.blocks[0]? = some p :=
    ⟨_, List.getElem?_eq_getElem (List.length_pos_iff.2 ho)⟩
  refine ⟨h.slots.slot name hi, fun id hid => ?_, fun b p k id hp hk => ?_, fun b p t hp ht => ?_⟩
  · by_cases hlt : id < d.code.length
    · obtain ⟨b, p, hp, hmem⟩ := h.placed id hlt
      refine ⟨b, p, hp, List.mem_append.2 ((List.mem_append.1 hmem).imp_left fun hid => ?_)⟩
      unfold opening at hid ⊢
      split at hid
      · next hb =>
        rw [if_pos hb]
        simp only [slots_slot, List.map_append, List.mem_append] at hid ⊢
        exact hid.imp .inl .inl
      · cases hid
    · refine ⟨0, p₀, hp₀, List.mem_append_left _ ?_⟩
      simp only [opening, ↓reduceIte, slots_slot, List.map_append, List.mem_append, List.map_cons,
        List.map_nil, List.mem_singleton]
      simp only [code_slot, List.length_append, List.length_cons, List.length_nil] at hid
      have hcase : id = d.code.length ∨ id = d.code.length + 1 := by omega
      exact hcase.imp .inr .inr
  · exact h.instrs_of_le hle hp hk fun _ _ _ _ => Iff.rfl
  · exact (h.ends b p t hp ht).le hle

theorem append (h : d.Wired m) (name : String) : (d.append name).Wired m := by
  have hle := Le.append d name
  refine ⟨h.slots.le hle rfl, fun id hid => ?_, fun b p k id hp hk => ?_, fun b p t hp ht => ?_⟩
  · obtain ⟨b, p, hp, hmem⟩ := h.placed id hid
    exact ⟨b, p, (blocks_append_of_lt name (List.getElem?_eq_some_iff.1 hp).1).trans hp, hmem⟩
  · rw [blocks_append] at hp
    split at hp
    · rw [← Option.some.inj hp] at hk
      cases hk
    · exact h.instrs_of_le hle hp hk fun _ _ _ _ => edge_append
  · rw [blocks_append] at hp
    split at hp
    · rw [← Option.some.inj hp] at ht
      cases ht
    · exact (h.ends b p t hp ht).le hle

theorem close (h : d.Wired m) (ho : d.Open) (ht : d.Ends t) : (d.close t).Wired m := by
  have hle := Le.close ho t
  refine ⟨h.slots.le hle rfl, fun id hid => ?_, fun b p k id hp hk => ?_, fun b p t' hp ht' => ?_⟩
  · obtain ⟨b, p, hp, hmem⟩ := h.placed id hid
    obtain ⟨q, hq, hpre, -⟩ := hle.blocks b p hp
    refine ⟨b, q, hq, List.mem_append.2 ?_⟩
    exact (List.mem_append.1 hmem).imp_right fun hid => hpre.subset hid
  · rw [blocks_close] at hp
    obtain ⟨q, hq, rfl⟩ := Option.map_eq_some_iff.1 hp
    have hk' : q.instrs[k]? = some id := by split at hk <;> exact hk
    refine h.instrs_of_le hle hq hk' fun i hi hj c => ?_
    rw [edge_close ho, or_iff_left]
    rintro ⟨-, hb⟩
    obtain ⟨-, r, hr, hids⟩ := ht.target hb
    obtain rfl := Option.some.inj (hr.symm.trans hq)
    obtain ⟨j, hj', hn⟩ := hids id (List.mem_of_getElem? hk')
    exact hn (Option.some.inj (hi.symm.trans hj') ▸ hj.isPhi)
  · rw [blocks_close] at hp
    obtain ⟨q, hq, rfl⟩ := Option.map_eq_some_iff.1 hp
    split at ht'
    · exact Option.some.inj ht' ▸ ht.leads.le hle
    · exact (h.ends b q t' hq ht').le hle

theorem goto (h : d.Wired m) (b : Nat) : (d.goto b).Wired m :=
  ⟨h.slots.le (.goto d b) rfl, h.placed, h.instrs, h.ends⟩

theorem edge_lt (h : d.Wired m) {b c : Nat} (he : d.Edge c b) : b < d.blocks.length := by
  obtain ⟨p, t, hp, ht, hb⟩ := he
  exact ((h.ends c p t hp ht).1 b hb).2

/-- A test: the three blocks are made, the two outcomes are sent to the third, and only then does it
get its phi. -/
theorem test (h : d.Wired m) (hf : d.Framed) {v : Operand} (hv : d.Value v) (whenZero : Bool) :
    (d.zeroTest v whenZero).Wired m := by
  obtain ⟨hmade, hasked, hzero, hnonzero, hjoining⟩ := hf.stages v
  have wmade : d.testBlocks.Wired m := ((h.append _).append _).append _
  have wasked : (d.compared v).Wired m :=
    wmade.push hmade.current (.inl ⟨trivial, hv.le (.testBlocks d)⟩)
  have wzero : (d.onZero v).Wired m := (wasked.close (t := .branch _ _ _) hasked.current
    ⟨value_push (.compare ..) rfl (fun _ => nofun) rfl, hasked.target (by simp),
      hasked.target (by simp)⟩).goto _
  have wnonzero : (d.onNonzero v).Wired m := (wzero.close (t := .jump _) hzero.current
    (hzero.target (by simp))).goto _
  have wjoining : (d.joining v).Wired m := (wnonzero.close (t := .jump _) hnonzero.current
    (hnonzero.target (by simp))).goto _
  refine wjoining.push hjoining.current (.inr ⟨?_, d.blocks.length, whenZero, rfl, fun c => ?_⟩)
  · exact (hnonzero.fresh (d.blocks.length + 2) (by simp)).2.close (by simp [onNonzero]) _
  · have hlt := hf.current.lt
    have hblock : (d.joining v).block = d.blocks.length + 2 := rfl
    have hno : ¬ d.Edge c (d.joining v).block := fun he => absurd (h.edge_lt he) (by simp [hblock])
    have hedge : (d.joining v).Edge c (d.joining v).block ↔ _ :=
      edge_close (t := .jump _) hnonzero.current
    have hedge₁ : (d.onNonzero v).Edge c (d.joining v).block ↔ _ :=
      edge_close (t := .jump _) hzero.current
    have hedge₂ : (d.onZero v).Edge c (d.joining v).block ↔ _ :=
      edge_close (t := .branch _ _ _) hasked.current
    have hedge₃ : (d.compared v).Edge c (d.joining v).block ↔ _ :=
      edge_push.trans (edge_append.trans (edge_append.trans edge_append))
    rw [hedge, hedge₁, hedge₂, hedge₃]
    simp only [hno, false_or]
    simp [hblock, onNonzero, onZero, Terminator.successors]

theorem step (h : d.Wired m) (hf : d.Framed) (hs : Step m d d') : d'.Wired m := by
  cases hs with
  | stay => exact h
  | push hi _ => exact h.push hf.current (.inl hi)
  | slot hi => exact h.slot hf.current.ne_nil _ hi
  | append name => exact h.append name
  | test whenZero hv => exact h.test hf (hv.value nofun) whenZero
  | close ht _ _ _ => exact (h.close hf.current ht).goto _
  | leave name hv =>
    rw [close_append hf.current]
    exact ((h.append name).close (t := .ret _) (hf.append name).current
      ((hv.value nofun).le (.append d name))).goto _

theorem built {id : FuncId} (h : d.Wired m) (hf : d.Framed) (hs : Built id m d m' d') :
    d'.Wired m' := by
  induction hs with
  | refl => exact h
  | step hb hlast hg ih => exact ((ih h hf).step (hf.built hb).1 hlast).mono hg.retains

end Wired

theorem wired_start (m : Module) (f : Function) : (start f).Wired m := by
  refine ⟨slotsWritten_start f, fun id hid => by simp [start] at hid, fun b p k id hp hk => ?_,
    fun b p t hp ht => ?_⟩
  · rw [eq_of_getElem?_start hp] at hk
    cases hk
  · rw [eq_of_getElem?_start hp] at ht
    cases ht

/-- A draft in order that has nothing left to end. -/
structure Finished (m : Module) (d : Draft) : Prop extends Wired m d where
  nonempty : d.blocks ≠ []
  ended : ∀ (b : Nat) p, d.blocks[b]? = some p → p.terminator ≠ none
  ordered : d.Ordered

theorem Finished.mono {D : Draft} {m m' : Module} (h : D.Finished m) (hm : Retains m m') : D.Finished m' :=
  ⟨h.toWired.mono hm, h.nonempty, h.ended, h.ordered⟩

theorem Complete.finished {D : Draft} {id : FuncId} {m : Module} (h : D.Complete id m) :
    D.Finished m := by
  have hordered := h.ordered
  obtain ⟨f, m₀, m₁, d, hb, hp, hm, rfl⟩ := h
  have hf := ((framed_start f).built hb).1
  have hw := (wired_start m₀ f).built (framed_start f) hb
  refine ⟨(hw.close (t := .ret (.int 0)) hf.current trivial).mono hm.retains, ?_,
    fun b p hblock hnone => ?_, hordered⟩
  · have hlt := hf.current.lt
    rw [← List.length_pos_iff, length_blocks_close]
    omega
  · rw [blocks_close] at hblock
    obtain ⟨q, hq, rfl⟩ := Option.map_eq_some_iff.1 hblock
    split at hnone
    · cases hnone
    · next hne =>
      rcases hf.ended b q hq hnone with hb | hb
      · exact hne hb.symm
      · rw [hp] at hb
        cases hb

end Draft

/-- Each block has its sources under `R`, every one of them once. -/
structure Noted (preds : Array (List BlockId)) (n : Nat) (R : Nat → Nat → Prop) : Prop where
  size : preds.size = n
  entry : ∀ (b : Nat) ps, preds[b]? = some ps → ps.Nodup ∧ ∀ c : Nat, c ∈ ps ↔ R c b

section Predecessors
variable {preds : Array (List BlockId)} {n : Nat} {R : Nat → Nat → Prop}

theorem Noted.congr {R' : Nat → Nat → Prop} (h : Noted preds n R) (hR : ∀ c b, R c b ↔ R' c b) :
    Noted preds n R' :=
  ⟨h.size, fun b ps hb => (h.entry b ps hb).imp_right fun hc c => (hc c).trans (hR c b)⟩

theorem Noted.addPredecessor (h : Noted preds n R) (s t : Nat) :
    Noted (Function.addPredecessor preds s t) n fun c b => R c b ∨ c = s ∧ b = t := by
  refine ⟨by simp [Function.addPredecessor, h.size], fun b ps hb => ?_⟩
  rw [Function.addPredecessor, Array.getElem?_modify] at hb
  by_cases htb : t = b
  · rw [if_pos htb] at hb
    obtain ⟨qs, hqs, hps⟩ := Option.map_eq_some_iff.1 hb
    obtain ⟨hn, hmem⟩ := h.entry b qs hqs
    split at hps
    · next hs =>
      subst hps
      refine ⟨hn, fun c => (hmem c).trans ⟨.inl, ?_⟩⟩
      rintro (hc | ⟨rfl, -⟩)
      · exact hc
      · exact (hmem _).1 hs
    · next hs =>
      subst hps
      refine ⟨List.nodup_append.2 ⟨hn, by simp, ?_⟩, fun c => ?_⟩
      · rintro a ha c hc rfl
        exact hs (List.mem_singleton.1 hc ▸ ha)
      · rw [List.mem_append, List.mem_singleton, hmem c]
        simp [htb]
  · rw [if_neg htb] at hb
    obtain ⟨hn, hmem⟩ := h.entry b ps hb
    exact ⟨hn, fun c => by simp [hmem c, Ne.symm htb]⟩

theorem Noted.addSource (s : Nat) : ∀ (ts : List BlockId) {preds : Array (List BlockId)}
    {R : Nat → Nat → Prop}, Noted preds n R →
    Noted (ts.foldl (fun preds t => Function.addPredecessor preds s t) preds) n
      fun c b => R c b ∨ c = s ∧ b ∈ ts
  | [], _, _, h => h.congr fun c b => by simp
  | t :: ts, _, _, h => (Noted.addSource s ts (h.addPredecessor s t)).congr fun c b => by
      rw [List.mem_cons, or_assoc, ← and_or_left]

theorem Noted.addSources (f : Function) : ∀ (bs : List Nat) {preds : Array (List BlockId)}
    {R : Nat → Nat → Prop}, Noted preds n R →
    Noted (bs.foldl (fun preds b =>
      (f.successors b).foldl (fun preds t => Function.addPredecessor preds b t) preds) preds) n
      fun c b => R c b ∨ c ∈ bs ∧ b ∈ f.successors c
  | [], _, _, h => h.congr fun c b => by simp
  | s :: bs, _, _, h => (Noted.addSources f bs (h.addSource s (f.successors s))).congr fun c b => by
      rw [List.mem_cons, or_assoc, or_and_right]
      refine or_congr_right (or_congr_left ⟨?_, ?_⟩)
      · rintro ⟨rfl, hb⟩
        exact ⟨rfl, hb⟩
      · rintro ⟨rfl, hb⟩
        exact ⟨rfl, hb⟩

theorem noted_predecessors (f : Function) :
    Noted f.predecessors f.blocks.size fun c b => c < f.blocks.size ∧ b ∈ f.successors c := by
  have hnone : Noted (Array.replicate f.blocks.size []) f.blocks.size fun _ _ => False := by
    refine ⟨by simp, fun b ps hb => ?_⟩
    rw [Array.getElem?_replicate] at hb
    split at hb
    · rw [← Option.some.inj hb]
      simp
    · cases hb
  exact (hnone.addSources f (List.range f.blocks.size)).congr fun c b => by simp

end Predecessors

namespace Draft
variable {D : Draft} {m : Module} {b c : Nat}

theorem edge_iff : D.Edge c b ↔ c < D.function.blocks.size ∧ b ∈ D.function.successors c := by
  rw [Function.successors, function_blocks, size_blocks]
  constructor
  · rintro ⟨p, t, hp, ht, hb⟩
    refine ⟨(List.getElem?_eq_some_iff.1 hp).1, ?_⟩
    simpa [hp, blockAt, ht] using hb
  · rintro ⟨hlt, hb⟩
    rw [List.getElem?_eq_getElem hlt] at hb
    cases ht : (D.blocks[c]).terminator with
    | none => simp [blockAt, ht] at hb
    | some t => exact ⟨_, t, List.getElem?_eq_getElem hlt, ht, by simpa [blockAt, ht] using hb⟩

theorem Joins.mismatched_eq_false {i : Instr} (h : D.Joins b i) {ps : List BlockId}
    (hps : D.function.predecessors[b]? = some ps) : i.mismatched ps = false := by
  obtain ⟨z, w, rfl, hz⟩ := h
  obtain ⟨hn, hmem⟩ := (noted_predecessors D.function).entry b ps hps
  have hperm : [z, z + 1].Perm ps := by
    refine (List.perm_ext_iff_of_nodup (by simp) hn).2 fun c => ?_
    rw [hmem c, ← edge_iff, hz c]
    simp
  simpa [Instr.mismatched, List.isPerm_iff] using hperm

theorem Wired.instr_mem (h : D.Wired m) {p : Piece} (hp : D.blocks[b]? = some p) {id : InstrId}
    (hid : id ∈ D.opening b ++ p.instrs) :
    ∃ i, D.code[id]? = some i ∧ (¬ i.IsPhi ∨ D.Joins b i) := by
  rcases List.mem_append.1 hid with hid | hid
  · rw [opening] at hid
    split at hid
    · rcases List.mem_append.1 hid with hid | hid
      · obtain ⟨⟨id', init⟩, hmem, rfl⟩ := List.mem_map.1 hid
        obtain ⟨j, hj⟩ := List.mem_iff_getElem?.1 hmem
        obtain ⟨⟨name, hi⟩, -⟩ := h.slots.written j id' init hj
        exact ⟨_, hi, .inl fun h => h⟩
      · obtain ⟨⟨id', init⟩, hmem, rfl⟩ := List.mem_map.1 hid
        obtain ⟨j, hj⟩ := List.mem_iff_getElem?.1 hmem
        obtain ⟨-, hi, -⟩ := h.slots.written j id' init hj
        exact ⟨_, hi, .inl fun h => h⟩
    · cases hid
  · obtain ⟨k, hk⟩ := List.mem_iff_getElem?.1 hid
    obtain ⟨i, hi, hcase⟩ := h.instrs b p k id hp hk
    exact ⟨i, hi, hcase.imp (fun hf => hf.not_isPhi) fun hj => hj.2⟩

/-- No instruction of a finished function is a phi for other predecessors. -/
theorem Wired.phiDefect?_eq_none (h : D.Wired m) {p : Piece} (hp : D.blocks[b]? = some p)
    {ps : List BlockId} (hps : D.function.predecessors[b]? = some ps) :
    D.function.phiDefect? ps (D.blockAt b p) = none := by
  rw [Function.phiDefect?, if_neg]
  rw [Array.any_eq_true']
  rintro ⟨id, hid, hbad⟩
  obtain ⟨i, hi, hcase⟩ := h.instr_mem hp (List.mem_toArray.1 hid)
  have hgood : i.mismatched ps = false := by
    rcases hcase with hn | hj
    · cases i with
      | phi => exact absurd trivial hn
      | _ => rfl
    · exact hj.mismatched_eq_false hps
  simp [hi, hgood] at hbad

theorem Finished.endDefect?_eq_none (h : D.Finished m) {p : Piece} (hp : D.blocks[b]? = some p) :
    D.function.endDefect? (D.blockAt b p) = none := by
  obtain ⟨t, ht⟩ := Option.ne_none_iff_exists'.1 (h.ended b p hp)
  have hlead := (h.ends b p t hp ht).1
  simp only [Function.endDefect?, blockAt, ht, size_blocks]
  rw [if_neg]
  simp only [List.any_eq_true, decide_eq_true_eq, not_exists, not_and]
  exact fun c hc => Nat.not_le_of_lt (hlead c hc).2

theorem Finished.defect?_eq_none (h : D.Finished m) : D.function.defect? = none := by
  have hblock (b : Nat) (x : Block) (hx : D.function.blocks[b]? = some x) :
      ∃ p, D.blocks[b]? = some p ∧ x = D.blockAt b p := by
    rw [function_blocks] at hx
    obtain ⟨p, hp, rfl⟩ := Option.map_eq_some_iff.1 hx
    exact ⟨p, hp, rfl⟩
  have hends : D.function.blocks.toList.findSome? D.function.endDefect? = none := by
    rw [List.findSome?_eq_none_iff]
    intro x hx
    obtain ⟨b, hb⟩ := List.mem_iff_getElem?.1 hx
    obtain ⟨p, hp, rfl⟩ := hblock b x (by simpa using hb)
    exact h.endDefect?_eq_none hp
  have hphis : (D.function.predecessors.toList.zip D.function.blocks.toList).findSome?
      (fun x => D.function.phiDefect? x.1 x.2) = none := by
    rw [List.findSome?_eq_none_iff]
    rintro ⟨ps, x⟩ hx
    obtain ⟨b, hb⟩ := List.mem_iff_getElem?.1 hx
    obtain ⟨hps, hx⟩ := List.getElem?_zip_eq_some.1 hb
    obtain ⟨p, hp, rfl⟩ := hblock b x (by simpa using hx)
    exact h.phiDefect?_eq_none hp (by simpa using hps)
  rw [Function.defect?, hends]
  exact hphis

end Draft

theorem mem_live {m : Module} {id : FuncId} {f : Function} :
    (id, f) ∈ m.live ↔ m.function? id = some f := by
  simp only [Module.live, List.mem_filterMap, Module.function?]
  constructor
  · rintro ⟨⟨f', id'⟩, hmem, he⟩
    obtain ⟨g, rfl, hg⟩ := Option.map_eq_some_iff.1 he
    obtain ⟨rfl, rfl⟩ := Prod.mk.inj hg
    have hget := List.mem_zipIdx_iff_getElem?.1 hmem
    simp only [Array.getElem?_toList] at hget
    rw [hget]
    rfl
  · intro h
    refine ⟨(some f, id), List.mem_zipIdx_iff_getElem?.2 ?_, rfl⟩
    rw [Option.join_eq_some_iff] at h
    simpa using h

theorem defect?_eq_none_of_isDeclaration {f : Function} (h : f.isDeclaration = true) :
    f.defect? = none := by
  simp only [Function.isDeclaration, Array.isEmpty_iff] at h
  simp [Function.defect?, h]

/-- Every function is only declared or has been finished. -/
def Module.Checked (m : Module) : Prop :=
  ∀ id f, m.function? id = some f → f.isDeclaration = true ∨ ∃ D : Draft, f = D.function ∧ D.Finished m

theorem Module.Checked.verify_eq_ok {m : Module} (h : m.Checked) : m.verify = .ok () := by
  have hnone : m.defect? = none := by
    rw [Module.defect?, List.findSome?_eq_none_iff]
    rintro ⟨id, f⟩ hmem
    rcases h id f (mem_live.1 hmem) with hd | ⟨D, rfl, hD⟩
    · simp [defect?_eq_none_of_isDeclaration hd]
    · simp [hD.defect?_eq_none]
  rw [Module.verify, hnone]

end IntLang.Flow
