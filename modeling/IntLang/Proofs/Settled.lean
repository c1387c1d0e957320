import IntLang.Proofs.DraftSteps

/-! What a draft says about the finished function. A lowering in progress is `Ready`; what has been
written by then is found in every function that goes on from it, at a place that depends on how many
slots that function has in the end. -/
namespace IntLang.Flow.Draft
open IntLang.Code

structure SlotsWritten (d : Draft) : Prop where
  written : ∀ (j : Nat) id init, d.slots[j]? = some (id, init) →
    (∃ name, d.code[id]? = some (.alloca name)) ∧
      d.code[id + 1]? = some (.store init (.instr id)) ∧ d.Starts init
  distinct : ∀ (i j : Nat) id init init', d.slots[i]? = some (id, init) →
    d.slots[j]? = some (id, init') → i = j

section Slots
variable {m m' : Module} {id : FuncId} {d d' : Draft}

theorem SlotsWritten.le (h : d.SlotsWritten) (hle : Le d d') (hs : d'.slots = d.slots) :
    d'.SlotsWritten := by
  constructor
  · intro j id init hj
    obtain ⟨⟨name, ha⟩, hst, hi⟩ := h.written j id init (hs ▸ hj)
    refine ⟨⟨name, hle.code_eq ha⟩, hle.code_eq hst, ?_⟩
    unfold Starts
    rw [hle.head]
    exact hi
  · rw [hs]
    exact h.distinct

theorem SlotsWritten.ne_length (h : d.SlotsWritten) (j : Nat) (id : InstrId) (init : Operand)
    (hj : d.slots[j]? = some (id, init)) : id ≠ d.code.length := by
  obtain ⟨⟨_, ha⟩, -⟩ := h.written j id init hj
  exact Nat.ne_of_lt (List.getElem?_eq_some_iff.1 ha).1

theorem SlotsWritten.slot (h : d.SlotsWritten) (name : String) {init : Operand} (hi : d.Starts init) :
    (d.slot name init).SlotsWritten := by
  have hle := Le.slot d name init
  have hcase : ∀ (j : Nat) id' init', (d.slot name init).slots[j]? = some (id', init') →
      d.slots[j]? = some (id', init') ∧ id' < d.code.length ∨
        j = d.slots.length ∧ id' = d.code.length ∧ init' = init := by
    intro j id' init' hj
    rw [slots_slot, List.getElem?_append] at hj
    split at hj
    · obtain ⟨⟨_, ha⟩, -⟩ := h.written j id' init' hj
      exact .inl ⟨hj, (List.getElem?_eq_some_iff.1 ha).1⟩
    · rw [List.getElem?_singleton] at hj
      split at hj
      · obtain ⟨rfl, rfl⟩ := Prod.mk.inj (Option.some.inj hj)
        exact .inr ⟨by omega, rfl, rfl⟩
      · cases hj
  constructor
  · intro j id' init' hj
    rcases hcase j id' init' hj with ⟨hj, -⟩ | ⟨-, rfl, rfl⟩
    · obtain ⟨⟨nm, ha⟩, hst, hs⟩ := h.written j id' init' hj
      exact ⟨⟨nm, hle.code_eq ha⟩, hle.code_eq hst, hs⟩
    · exact ⟨⟨name, by simp⟩, by simp, hi⟩
  · intro i j id' init₁ init₂ hi' hj'
    rcases hcase i id' init₁ hi' with ⟨hi', hlt⟩ | ⟨rfl, rfl, rfl⟩ <;>
      rcases hcase j _ init₂ hj' with ⟨hj', hlt'⟩ | ⟨hj, he, -⟩
    · exact h.distinct i j id' init₁ init₂ hi' hj'
    · exact absurd he (Nat.ne_of_lt hlt)
    · exact absurd hlt' (Nat.lt_irrefl _)
    · exact hj.symm

/-- The address of a slot is there in every block. -/
theorem SlotsWritten.has (h : d.SlotsWritten) (hf : d.Framed) {j : Nat} {slot : InstrId}
    {init : Operand} (hj : d.slots[j]? = some (slot, init)) : d.Has (.instr slot) .ptr := by
  obtain ⟨⟨name, ha⟩, -⟩ := h.written j slot init hj
  have hlt := hf.current.lt
  refine ⟨⟨_, ha, rfl⟩, 0, ⟨_, List.getElem?_eq_getElem (by omega), ?_⟩, hf.above_entry hlt⟩
  have hmem : slot ∈ d.slots.map (·.1) := List.mem_map.2 ⟨_, List.mem_of_getElem? hj, rfl⟩
  simp [opening, hmem]

end Slots

def offset (D : Draft) (b : Nat) : Nat :=
  (D.opening b).length

def here (d : Draft) : Nat :=
  ((d.blocks[d.block]?).map (·.instrs.length)).getD 0

def cursor (D d : Draft) : Cursor :=
  ⟨d.block, D.offset d.block + d.here, d.code.length⟩

section Places
variable {d D : Draft} {b : Nat}

theorem offset_of_pos (hb : 0 < b) : D.offset b = 0 := by
  simp [offset, opening, Nat.ne_of_gt hb]

theorem offset_zero : D.offset 0 = 2 * D.slots.length := by
  simp [offset, opening, Nat.two_mul]

theorem holds_of_le {p : Piece} {k id : Nat} {i : Instr} (hle : Le d D)
    (hp : d.blocks[b]? = some p) (hk : p.instrs[k]? = some id) (hi : d.code[id]? = some i) :
    Holds D.function b (D.offset b + k) id i := by
  obtain ⟨q, hq, ⟨l, hl⟩, -⟩ := hle.blocks b p hp
  refine ⟨D.blockAt b q, by rw [function_blocks, hq]; rfl, ?_, ?_⟩
  · have hlt := (List.getElem?_eq_some_iff.1 hk).1
    simp only [blockAt, List.getElem?_toArray, offset]
    rw [List.getElem?_append_right (Nat.le_add_right _ _), Nat.add_sub_cancel_left, ← hl,
      List.getElem?_append_left hlt, hk]
  · rw [function_instrs, List.getElem?_toArray, hle.code_eq hi]

theorem emitted_of_le {i : Instr} (h : d.Open) (hle : Le (d.push i) D) :
    Emitted D.function (D.cursor d) i d.code.length (D.cursor (d.push i)) := by
  obtain ⟨p, hp, ht⟩ := h
  have hp' : (d.push i).blocks[d.block]? = some { p with instrs := p.instrs ++ [d.code.length] } := by
    simp [blocks_push, hp]
  have hhere : d.here = p.instrs.length := by simp [here, hp]
  refine ⟨?_, rfl, ?_, Nat.le_refl _, by simp [cursor]⟩
  · refine holds_of_le hle hp' ?_ ?_ <;> simp [hhere]
  · simp [cursor, here, hp, hp', Nat.add_assoc]

theorem leaves_of_le {p : Piece} {t : Terminator} (hle : Le d D) (hp : d.blocks[b]? = some p)
    (ht : p.terminator = some t) : Leaves D.function b (D.offset b + p.instrs.length) t := by
  obtain ⟨q, hq, -, hend⟩ := hle.blocks b p hp
  obtain ⟨hi, ht'⟩ := hend (by simp [ht])
  refine ⟨D.blockAt b q, by rw [function_blocks, hq]; rfl, ?_, ht'.trans ht⟩
  simp [blockAt, offset, hi]

theorem closed_of_le {t : Terminator} (h : d.Open) (hle : Le (d.close t) D) :
    Closed D.function (D.cursor d) t := by
  obtain ⟨p, hp, -⟩ := h
  have hp' : (d.close t).blocks[d.block]? = some { p with terminator := some t } := by
    simp [blocks_close, hp]
  have hhere : d.here = p.instrs.length := by simp [here, hp]
  simpa [Closed, cursor, hhere] using leaves_of_le hle hp' rfl

theorem cursor_goto (h : d.Fresh b) (hb : 0 < b) : D.cursor (d.goto b) = ⟨b, 0, d.code.length⟩ := by
  obtain ⟨name, parent, hn⟩ := h
  simp [cursor, offset_of_pos hb, here, hn]

theorem cursor_append (h : d.Open) (name : String) : D.cursor (d.append name) = D.cursor d := by
  simp [cursor, here, blocks_append_of_lt name h.lt]

theorem single_of_le {i : Instr} (h : d.Open) (hle : Le (d.push i) D) {n : Nat}
    (hn : d.code.length = n) :
    Single D.function i (D.cursor d) (.instr n) (D.cursor (d.push i)) :=
  ⟨n, hn ▸ emitted_of_le h hle, rfl⟩

/-- The current block has ended and a new one begins. -/
theorem closed_goto_of_le {t : Terminator} (h : d.Open) (hle : Le ((d.close t).goto b) D) :
    Closed D.function (D.cursor d) t :=
  closed_of_le h ((Le.goto _ b).trans hle)

theorem Framed.cursor_close (h : d.Framed) (t : Terminator) (hb : b ∈ d.pending) :
    D.cursor ((d.close t).goto b) = ⟨b, 0, d.code.length⟩ := by
  obtain ⟨h0, hf⟩ := h.fresh b hb
  exact cursor_goto (hf.close (fun e => h.notMem (e ▸ hb)) t) h0

theorem zeroTest_of_le (h : d.Framed) {v : Operand} {whenZero : Bool}
    (hle : Le (d.zeroTest v whenZero) D) :
    ZeroTest D.function v whenZero (D.cursor d) (.instr (d.code.length + 1))
      (D.cursor (d.zeroTest v whenZero)) := by
  obtain ⟨hmade, hasked, hzero, hnonzero, hjoining⟩ := h.stages v
  have hle₄ : Le (d.joining v) D := (Le.push hjoining.current _).trans hle
  have hle₃ : Le (d.onNonzero v) D := ((Le.close hnonzero.current _).trans (.goto _ _)).trans hle₄
  have hle₂ : Le (d.onZero v) D := ((Le.close hzero.current _).trans (.goto _ _)).trans hle₃
  have hle₁ : Le (d.compared v) D := ((Le.close hasked.current _).trans (.goto _ _)).trans hle₂
  have hstart : D.cursor d.testBlocks = D.cursor d :=
    (cursor_append ((h.append _).append _).current "zero.cont").trans
      ((cursor_append (h.append _).current "nonzero").trans (cursor_append h.current "zero"))
  have hcompare : Single D.function _ (D.cursor d.testBlocks) _ _ := single_of_le hmade.current hle₁ rfl
  have hleft : Closed D.function (D.cursor (d.onZero v)) _ := closed_goto_of_le hzero.current hle₃
  have hright : Closed D.function (D.cursor (d.onNonzero v)) _ :=
    closed_goto_of_le hnonzero.current hle₄
  have hphi : Single D.function _ (D.cursor (d.joining v)) _ _ :=
    single_of_le hjoining.current hle (n := d.code.length + 1) (by simp)
  rw [hstart] at hcompare
  rw [onZero, hasked.cursor_close _ (by simp)] at hleft
  rw [onNonzero, hzero.cursor_close _ (by simp)] at hright
  rw [joining, hnonzero.cursor_close _ (by simp)] at hphi
  exact ⟨_, _, _, _, _, _, hcompare, closed_goto_of_le hasked.current hle₂,
    Nat.ne_of_lt (Nat.lt_succ_self _), hleft, hright, by simp [cursor], hphi⟩

end Places
end IntLang.Flow.Draft

namespace IntLang.Code
open IntLang.Flow

/-- One more variable, which hides an earlier one of its name. -/
theorem Slotted.cons {params params' : List String} {name : String} {init : Operand}
    {slots : List (InstrId × Operand)} {known : List (String × Operand)} {n : Nat}
    (hk : Slotted params slots known)
    (hn : ∀ (j : Nat) id init, slots[j]? = some (id, init) → id ≠ n)
    (hname : Starts params' name init)
    (hothers : ∀ x init, x ≠ name → Starts params x init → Starts params' x init) :
    Slotted params' (slots ++ [(n, init)]) ((name, .instr n) :: known) := by
  have hlook : ∀ x p, ((name, Operand.instr n) :: known).lookup x = some p →
      x = name ∧ p = .instr n ∨ x ≠ name ∧ known.lookup x = some p := by
    intro x p hp
    rw [List.lookup_cons] at hp
    split at hp
    · next hx => exact .inl ⟨by simpa using hx, (Option.some.inj hp).symm⟩
    · next hx => exact .inr ⟨by simpa using hx, hp⟩
  constructor
  · intro x p hp
    rcases hlook x p hp with ⟨rfl, rfl⟩ | ⟨hx, hp⟩
    · exact ⟨slots.length, n, init, by simp, rfl, hname⟩
    · obtain ⟨j, id, init', hj, he, hst⟩ := hk.slot x p hp
      refine ⟨j, id, init', ?_, he, hothers x init' hx hst⟩
      rw [List.getElem?_append_left (List.getElem?_eq_some_iff.1 hj).1, hj]
  · intro x y p hx hy
    rcases hlook x p hx with ⟨rfl, rfl⟩ | ⟨-, hx'⟩ <;> rcases hlook y _ hy with ⟨rfl, hp⟩ | ⟨-, hy'⟩
    · rfl
    · obtain ⟨j, id, _, hj, he, -⟩ := hk.slot y _ hy'
      exact absurd (Operand.instr.inj he).symm (hn j id _ hj)
    · obtain ⟨j, id, _, hj, he, -⟩ := hk.slot x p hx'
      exact absurd (Operand.instr.inj (he.symm.trans hp)) (hn j id _ hj)
    · exact hk.injective x y p hx' hy'

/-- What comes after a place that waits comes after where it began to wait. -/
theorem Single.of_waits {f : Function} {i : Instr} {a a' b : Cursor} {v : Operand}
    (h : Single f i a' v b) (hw : a.Waits a') : Single f i a v b := by
  obtain ⟨id, he, rfl⟩ := h
  refine ⟨id, ⟨?_, he.block.trans hw.block, ?_, Nat.le_trans hw.fresh he.lower, he.upper⟩, rfl⟩
  · rw [← hw.block, ← hw.index]
    exact he.holds
  · rw [he.index, hw.index]

end IntLang.Code

namespace IntLang
open IntLang.Flow IntLang.Code

/-- Every variable of one scope is where it was in the other. -/
def Scope.Le : Scope → Scope → Prop
  | .slots known, .slots known' => ∀ x p, known.lookup x = some p → known'.lookup x = some p
  | .globals, .globals => True
  | _, _ => False

theorem Scope.Le.refl (s : Scope) : s.Le s := by
  cases s with
  | slots => exact fun _ _ h => h
  | globals => trivial

theorem Scope.Le.trans {s s' s'' : Scope} (h : s.Le s') (h' : s'.Le s'') : s.Le s'' := by
  cases s <;> cases s' <;> cases s'' <;> first | exact h.elim | exact h'.elim | skip
  · exact fun x p hp => h' x p (h x p hp)
  · trivial

/-- The variables of a body with these parameters. -/
def Known (params : List String) (slots : List (InstrId × Operand)) : Scope → Prop
  | .slots known => Slotted params slots known ∧ ∀ x ∈ params, (known.lookup x).isSome
  | .globals => slots = []

structure Ready (params : List String) (σ : Lowering) (d : Draft) : Prop where
  drawn : Drawn σ d
  framed : d.Framed
  written : d.SlotsWritten
  known : Known params d.slots σ.scope
  tidy : σ.builder.module.Tidy
  notPrint : d.head.name ≠ Machine.printSymbol
  notPower : d.head.name ≠ Machine.powerSymbol

structure Reached (params : List String) (σ : Lowering) (d : Draft) (σ' : Lowering) (d' : Draft) :
    Prop where
  ready : Ready params σ' d'
  function : σ'.builder.function = σ.builder.function
  built : Draft.Built σ.builder.function σ.builder.module d σ'.builder.module d'
  scope : σ.scope.Le σ'.scope

/-- Lowering has come to a block below the one where it was, and the same blocks wait. -/
structure Proceeds (params : List String) (σ : Lowering) (d : Draft) (σ' : Lowering) (d' : Draft) :
    Prop extends Reached params σ d σ' d' where
  pending : d'.pending = d.pending
  below : d'.Above d.block d'.block

/-- The finished function, in its module and with all its variables, goes on from here. -/
structure Settled (σ : Lowering) (d : Draft) (x : Site) (D : Draft) : Prop where
  function : x.function = D.function
  le : Draft.Le d D
  scope : σ.scope.Le x.scope
  grows : Grows σ.builder.function σ.builder.module x.module

section Progress
variable {params : List String} {σ σ' σ'' : Lowering} {d d' d'' D : Draft} {x : Site} {name : String}

theorem Reached.refl (h : Ready params σ d) : Reached params σ d σ d :=
  ⟨h, rfl, .refl _ _, .refl _⟩

theorem Reached.trans (h : Reached params σ d σ' d') (h' : Reached params σ' d' σ'' d'') :
    Reached params σ d σ'' d'' :=
  ⟨h'.ready, h'.function.trans h.function, h.built.trans (h.function ▸ h'.built),
    h.scope.trans h'.scope⟩

theorem Reached.le (hr : Ready params σ d) (h : Reached params σ d σ' d') : Draft.Le d d' :=
  (hr.framed.built h.built).2

theorem Proceeds.refl (h : Ready params σ d) : Proceeds params σ d σ d :=
  ⟨.refl h, rfl, .refl⟩

theorem Proceeds.trans (h : Proceeds params σ d σ' d') (h' : Proceeds params σ' d' σ'' d'') :
    Proceeds params σ d σ'' d'' :=
  ⟨h.toReached.trans h'.toReached, h'.pending.trans h.pending,
    (h.below.le (h'.toReached.le h.ready)).trans h'.below⟩

/-- A value is still there when lowering has proceeded. -/
theorem Proceeds.has {v : Operand} {ty : Ty} (h : Proceeds params σ d σ' d') (hr : Ready params σ d)
    (hv : d.Has v ty) : d'.Has v ty :=
  hv.le (h.toReached.le hr) h.below

/-- A block that could be jumped to still can be. -/
theorem Proceeds.admits {b : BlockId} (h : Proceeds params σ d σ' d') (hr : Ready params σ d)
    (ha : d.Admits (.jump b)) : d'.Admits (.jump b) := by
  obtain ⟨c, hhangs, habove⟩ := Draft.admits_jump.1 ha
  have hle := h.toReached.le hr
  exact Draft.admits_jump.2 ⟨c, hhangs.le hle, (habove.le hle).trans h.below⟩

/-- What is settled later was settled before. -/
theorem Settled.before (hs : Settled σ' d' x D) (hr : Ready params σ d)
    (h : Reached params σ d σ' d') : Settled σ d x D :=
  ⟨hs.function, (h.le hr).trans hs.le, h.scope.trans hs.scope,
    h.built.grows.trans (h.function ▸ hs.grows)⟩

theorem Ready.grows_redraw (h : Ready params σ d) (hle : Draft.Le d d') :
    Grows σ.builder.function σ.builder.module (σ.redraw d').builder.module := by
  refine .update h.drawn.function ?_ h.notPrint h.notPower
  rw [Draft.header_function, Draft.header_function, hle.head]

theorem Ready.redraw (h : Ready params σ d) (hs : Draft.Step σ.builder.module d d')
    (hslots : d'.slots = d.slots) : Reached params σ d (σ.redraw d') d' := by
  obtain ⟨hf, hle⟩ := h.framed.step hs
  have hg := h.grows_redraw hle
  refine ⟨⟨h.drawn.redraw d', hf, h.written.le hle hslots, ?_, hg.tidy h.tidy, ?_, ?_⟩, rfl,
    .one hs hg, .refl _⟩
  · rw [hslots]
    exact h.known
  · rw [hle.head]
    exact h.notPrint
  · rw [hle.head]
    exact h.notPower

theorem Settled.address_globals (hs : Settled σ d x D) (hscope : σ.scope = .globals) {g : GlobalId}
    (hg : σ.builder.module.findGlobal? name = some g) : x.address? name = some (.global g) := by
  have hle := hs.scope
  rw [hscope] at hle
  rw [Site.address?]
  split
  · next hk =>
    rw [hk] at hle
    exact hle.elim
  · rw [hs.grows.findGlobal? hg]
    rfl

theorem Settled.address_slots (hs : Settled σ d x D) {known : List (String × Operand)}
    (hscope : σ.scope = .slots known) {p : Operand} (hp : known.lookup name = some p) :
    x.address? name = some p := by
  have hle := hs.scope
  rw [hscope] at hle
  rw [Site.address?]
  split
  · next hk =>
    rw [hk] at hle
    exact hle name p hp
  · next hk =>
    rw [hk] at hle
    exact hle.elim

/-- A change of the module that keeps the function. -/
theorem Ready.onModule (h : Ready params σ d) {m : Module}
    (hg : Grows σ.builder.function σ.builder.module m)
    (hf : m.function? σ.builder.function = σ.builder.module.function? σ.builder.function) :
    Reached params σ d { σ with builder := { σ.builder with module := m } } d :=
  ⟨⟨⟨hf.trans h.drawn.function, h.drawn.block, h.drawn.slots⟩, h.framed, h.written, h.known,
    hg.tidy h.tidy, h.notPrint, h.notPower⟩, rfl, .one .stay hg, .refl _⟩

/-- A new slot and the scope that comes with it. -/
theorem Ready.slot (h : Ready params σ d) (name : String) {init : Operand} (hi : d.Starts init)
    {scope : Scope} (hle : σ.scope.Le scope)
    (hknown : Known params (d.slots ++ [(d.code.length, init)]) scope) :
    Reached params σ d { σ.redraw (d.slot name init) with scope } (d.slot name init) := by
  have hg := h.grows_redraw (Draft.Le.slot d name init)
  refine ⟨⟨?_, h.framed.slot name init, h.written.slot name hi, hknown, hg.tidy h.tidy, h.notPrint,
    h.notPower⟩, rfl, .one (.slot hi) hg, hle⟩
  have hd := h.drawn.redraw (d.slot name init)
  exact ⟨hd.function, hd.block, hd.slots⟩

end Progress
end IntLang
