import IntLang.Proofs.ModuleEdits
import IntLang.Proofs.Runs
import IntLang.Proofs.Wiring

/-! What verification promises of functions that were not made by lowering. Every block of a verified
function ends and leads to blocks that are there, and a phi has one value for each block that control
can come from. So a run stays in the graph: each of its frames stands in a block of its function, and
came there along an edge or by a call. -/
namespace IntLang
open IntLang.Code

namespace Flow

instance : DecidablePred Instr.IsPhi
  | .phi .. => isTrue trivial
  | .alloca .. | .load .. | .store .. | .arith .. | .compare .. | .widen .. | .call .. => isFalse id

/-- A module that has come about by edits alone. -/
def Module.Made (m : Module) : Prop :=
  ∃ name es, m = (({ name } : Module).edits es).2

namespace Module.Made
variable {m : Module} (h : m.Made)
include h

theorem distinct : m.Distinct := by
  obtain ⟨name, es, rfl⟩ := h
  exact (tracked_edits es (.initial name) (.initial name)).1.distinct

theorem nodup_cells : (m.globals.toList.map (·.name)).Nodup := by
  obtain ⟨name, es, rfl⟩ := h
  exact (tracked_edits es (.initial name) (.initial name)).2.nodup

end Module.Made

/-- The entry block has no phi: a call comes from no block. -/
def Function.OpensPlainly (f : Function) : Prop :=
  ∀ blk ∈ f.blocks[0]?, ∀ id ∈ blk.instrs, ∀ i ∈ f.instrs[id]?, ¬ i.IsPhi

instance (f : Function) : Decidable f.OpensPlainly :=
  inferInstanceAs (Decidable (∀ blk ∈ f.blocks[0]?, _))

/-- What the check of a function finds out. -/
structure Function.Verified (f : Function) : Prop where
  ends : ∀ (b : BlockId) blk, f.blocks[b]? = some blk →
    ∃ t, blk.terminator = some t ∧ ∀ s ∈ t.successors, s < f.blocks.size
  phis : ∀ b k id ty incoming, Holds f b k id (.phi ty incoming) →
    (incoming.map (·.2)).Nodup ∧ ∀ s, s ∈ incoming.map (·.2) ↔ b ∈ f.successors s

section Verification
variable {f : Function} {b s : BlockId} {blk : Block}

theorem Function.successors_eq {t : Terminator} (hb : f.blocks[b]? = some blk)
    (ht : blk.terminator = some t) : f.successors b = t.successors := by
  simp only [successors, hb, Option.bind_some, ht]

theorem Function.lt_of_mem_successors (h : s ∈ f.successors b) : b < f.blocks.size := by
  by_contra hge
  rw [successors, Array.getElem?_eq_none (Nat.le_of_not_lt hge)] at h
  cases h

theorem Function.ends_of_endDefect? (h : f.endDefect? blk = none) :
    ∃ t, blk.terminator = some t ∧ ∀ s ∈ t.successors, s < f.blocks.size := by
  unfold endDefect? at h
  split at h
  · cases h
  · next t ht =>
    split at h
    · cases h
    · next hno => exact ⟨t, ht, by simpa using hno⟩

theorem Function.perm_of_phiDefect? {preds : List BlockId} (h : f.phiDefect? preds blk = none)
    {id : InstrId} (hid : id ∈ blk.instrs) {ty : Ty} {incoming : List (Operand × BlockId)}
    (hi : f.instrs[id]? = some (.phi ty incoming)) : (incoming.map (·.2)).Perm preds := by
  unfold phiDefect? at h
  split at h
  · cases h
  · next hno =>
    rw [Array.any_eq_true'] at hno
    by_contra hne
    refine hno ⟨id, hid, ?_⟩
    rw [← List.isPerm_iff, Bool.not_eq_true] at hne
    simp [hi, Instr.mismatched, hne]

theorem Function.Verified.of_defect? (h : f.defect? = none) : f.Verified := by
  obtain ⟨hends, hphis⟩ := Option.or_eq_none_iff.1 (Option.orElse_eq_or.symm.trans h)
  rw [List.findSome?_eq_none_iff] at hends hphis
  constructor
  · intro b blk hb
    exact ends_of_endDefect? (hends blk (Array.mem_toList_iff.2 (Array.mem_of_getElem? hb)))
  · rintro b k id ty incoming ⟨blk, hb, hk, hi⟩
    have hlt : b < f.predecessors.size := by
      rw [(noted_predecessors f).size]
      exact (Array.getElem?_eq_some_iff.1 hb).1
    have hps := Array.getElem?_eq_getElem hlt
    have hzip : (f.predecessors[b], blk) ∈ f.predecessors.toList.zip f.blocks.toList := by
      refine List.mem_of_getElem? (i := b) (List.getElem?_zip_eq_some.2 ?_)
      rw [Array.getElem?_toList, Array.getElem?_toList]
      exact ⟨hps, hb⟩
    have hperm := perm_of_phiDefect? (hphis _ hzip) (Array.mem_of_getElem? hk) hi
    obtain ⟨hn, hmem⟩ := (noted_predecessors f).entry b _ hps
    refine ⟨hperm.nodup_iff.2 hn, fun s => ?_⟩
    rw [hperm.mem_iff, hmem s]
    exact and_iff_right_of_imp lt_of_mem_successors

theorem Module.verified {m : Module} (h : m.verify = .ok ()) {id : FuncId}
    (hf : m.function? id = some f) : f.Verified := by
  have hnone : m.defect? = none := by
    unfold verify at h
    split at h
    · cases h
    · assumption
  rw [defect?, List.findSome?_eq_none_iff] at hnone
  exact .of_defect? (Option.map_eq_none_iff.1 (hnone _ (mem_live.2 hf)))

end Verification
end Flow

namespace Machine
open IntLang.Flow

/-- A fault that tells of a graph with something missing. -/
def Fault.Structural : Fault → Prop
  | .noIncoming _ | .noTerminator .. | .missingBlock _ => True
  | _ => False

/-- A frame stands in a block of its function. It came there along an edge, or it has just been
called. -/
def Frame.InGraph (m : Module) (fr : Frame) : Prop :=
  ∃ f, m.function? fr.function = some f ∧ fr.block < f.blocks.size ∧
    match fr.previous with
    | none => fr.block = 0
    | some p => fr.block ∈ f.successors p

def Orderly (m : Module) : Except Fault Action → Prop
  | .error e => ¬ e.Structural
  | .ok (.proceed fr _) | .ok (.call fr _ _) => fr.InGraph m
  | .ok (.ret _) => True

def Harmless {α : Type} (x : Except Fault α) : Prop :=
  ∀ e, x = .error e → ¬ e.Structural

def Fault.Elementary : Fault → Prop
  | .notInteger _ | .divisionByZero | .divisionOverflow => True
  | _ => False

def Fault.External : Fault → Prop
  | .erasedCallee | .unresolved _ | .nativeFailed .. => True
  | _ => False

def Elementary {α : Type} (x : Except Fault α) : Prop :=
  ∀ e, x = .error e → e.Elementary

section Steps
variable {m : Module} {fr fr' : Frame} {α : Type}

theorem Harmless.ok (a : α) : Harmless (.ok a : Except Fault α) :=
  fun _ h => by cases h

theorem Harmless.error {e : Fault} (h : ¬ e.Structural) : Harmless (.error e : Except Fault α) :=
  fun _ he => Except.error.inj he ▸ h

theorem Elementary.ok (a : α) : Elementary (.ok a : Except Fault α) :=
  fun _ h => by cases h

theorem Elementary.error {e : Fault} (h : e.Elementary) : Elementary (.error e : Except Fault α) :=
  fun _ he => Except.error.inj he ▸ h

theorem Elementary.bind {β : Type} {x : Except Fault α} {k : α → Except Fault β} (hx : Elementary x)
    (hk : ∀ a, Elementary (k a)) : Elementary (x >>= k) := by
  cases x with
  | error e => exact .error (hx e rfl)
  | ok a => exact hk a

theorem Fault.External.not_structural {e : Fault} (h : e.External) : ¬ e.Structural := by
  cases e with
  | noIncoming | noTerminator | missingBlock => exact h.elim
  | _ => exact id

theorem Elementary.harmless {x : Except Fault α} (h : Elementary x) : Harmless x := by
  intro e he hs
  have hx := h e he
  cases e with
  | notInteger | divisionByZero | divisionOverflow => exact hs
  | _ => exact hx

theorem Orderly.bind {x : Except Fault α} {k : α → Except Fault Action} (hx : Elementary x)
    (hk : ∀ a, x = .ok a → Orderly m (k a)) : Orderly m (x >>= k) := by
  cases x with
  | error e => exact hx.harmless e rfl
  | ok a => exact hk a rfl

namespace Frame

theorem elementary_int (fr : Frame) (v : Operand) : Elementary (fr.int v) := by
  intro e he
  obtain ⟨s, rfl⟩ := int_eq_error he
  trivial

theorem elementary_arith (op : ArithOp) (a b : Int32) : Elementary (arith op a b) := by
  cases op with
  | div | rem =>
    unfold Machine.arith
    dsimp only
    split
    · exact .error trivial
    · split
      · exact .error trivial
      · exact .ok _
  | _ => exact .ok _

theorem elementary_arithSlot (fr : Frame) (op : ArithOp) (l r : Operand) :
    Elementary (fr.arithSlot op l r) := by
  unfold arithSlot
  split
  · exact .ok _
  · exact .ok _
  · exact (fr.elementary_int l).bind fun a => (fr.elementary_int r).bind fun b =>
      (elementary_arith _ a b).bind fun n => .ok (Slot.int n)

namespace InGraph

theorem congr (h : fr.InGraph m) (hf : fr'.function = fr.function) (hb : fr'.block = fr.block)
    (hp : fr'.previous = fr.previous) : fr'.InGraph m := by
  unfold InGraph
  rw [hf, hb, hp]
  exact h

theorem resume (h : fr.InGraph m) (n : Int32) : (fr.resume n).InGraph m := by
  unfold Frame.resume
  split
  · exact h.congr rfl rfl rfl
  · exact h

/-- A phi that control has come to has a value. -/
theorem find?_ne_none {f : Function} (h : fr.InGraph m) (hf : m.function? fr.function = some f)
    (hv : f.Verified) (hplain : f.OpensPlainly) {id : InstrId} {ty : Ty}
    {incoming : List (Operand × BlockId)} (hi : Holds f fr.block fr.next id (.phi ty incoming)) :
    incoming.find? (fun x => fr.previous = some x.2) ≠ none := by
  obtain ⟨g, hg, -, hfrom⟩ := h
  obtain rfl := Option.some.inj (hf.symm.trans hg)
  cases hp : fr.previous with
  | none =>
    rw [hp] at hfrom
    obtain ⟨blk, hb, hk, hid⟩ := hi
    rw [hfrom] at hb
    exact absurd trivial (hplain blk hb id (Array.mem_of_getElem? hk) _ hid)
  | some p =>
    rw [hp] at hfrom
    obtain ⟨x, hx, rfl⟩ := List.mem_map.1 (((hv.phis _ _ _ _ _ hi).2 p).2 hfrom)
    intro hnone
    simpa using List.find?_eq_none.1 hnone x hx

theorem exec (h : fr.InGraph m) (name : String) (globals : Array Int32) (id : InstrId) (i : Instr)
    (hphi : ∀ ty incoming, i = .phi ty incoming →
      incoming.find? (fun x => fr.previous = some x.2) ≠ none) :
    Orderly m (fr.exec name globals id i) := by
  have hcomes := fr.comes_exec name globals id i
  generalize fr.exec name globals id i = x at hcomes
  cases hcomes with
  | next function block _ previous => exact h.congr function block previous
  | call => exact h.congr rfl rfl rfl
  | arith slot => exact (fr.elementary_arithSlot _ _ _).harmless _ slot
  | noIncoming unknown => exact absurd unknown (hphi _ _ rfl)
  | notInteger | loadThrough | storeThrough => exact fun hs => hs

theorem goto {f : Function} (hf : m.function? fr.function = some f) {dest : BlockId}
    (hlt : dest < f.blocks.size) (hdest : dest ∈ f.successors fr.block) : (fr.goto dest).InGraph m :=
  ⟨f, hf, hlt, hdest⟩

theorem leave {f : Function} (hf : m.function? fr.function = some f) (hv : f.Verified) {b : Block}
    (hb : f.blocks[fr.block]? = some b) (globals : Array Int32) :
    Orderly m (fr.leave f b globals) := by
  obtain ⟨t, ht, hlt⟩ := hv.ends fr.block b hb
  have hmem := Function.successors_eq hb ht
  unfold Frame.leave
  rw [ht]
  cases t with
  | jump dest =>
    exact goto hf (hlt dest List.mem_cons_self) (by simp [hmem, Terminator.successors])
  | branch v onTrue onFalse =>
    refine .bind (fr.elementary_int v) fun n _ => ?_
    have hdest : (if n = 0 then onFalse else onTrue) ∈ (Terminator.branch v onTrue onFalse).successors := by
      split <;> simp [Terminator.successors]
    exact goto hf (hlt _ hdest) (hmem ▸ hdest)
  | ret v => exact .bind (fr.elementary_int v) fun n _ => trivial

theorem step (h : fr.InGraph m) (hm : m.verify = .ok ()) (hplain : ∀ x ∈ m.live, x.2.OpensPlainly)
    (globals : Array Int32) : Orderly m (fr.step m globals) := by
  have hin := h
  obtain ⟨f, hf, hlt, -⟩ := h
  have hv := Module.verified hm hf
  have hb := Array.getElem?_eq_getElem hlt
  simp only [Frame.step, hf, hb]
  cases hi : f.blocks[fr.block].instrs[fr.next]?.bind fun id => f.instrs[id]?.map (id, ·) with
  | none => exact leave hf hv hb globals
  | some x =>
    obtain ⟨id, hid, hx⟩ := Option.bind_eq_some_iff.1 hi
    obtain ⟨i, hinstr, rfl⟩ := Option.map_eq_some_iff.1 hx
    refine hin.exec f.name globals id i fun ty incoming he => ?_
    exact hin.find?_ne_none hf hv (hplain _ (mem_live.2 hf)) ⟨_, hb, hid, he ▸ hinstr⟩

end InGraph
end Frame

/-- A call of a function leads to this state. -/
def Engine.Reaches (e : Engine) (m : Module) (id : FuncId) (args : List Int32) (c : Config) : Prop :=
  ∃ top n, (e.sync m).enter m id args = .ok (.frame top) ∧ Steps m n ⟨e.sync m, top, #[]⟩ c

def Config.InGraph (m : Module) (c : Config) : Prop :=
  c.top.InGraph m ∧ ∀ fr ∈ c.below, fr.InGraph m

theorem Engine.external_callNative {e : Engine} {symbol : String} {native : Native} {args : List Int32}
    {f : Fault} (h : (e.callNative symbol native args).1 = .error f) : f.External := by
  unfold callNative at h
  split at h
  · exact Except.error.inj h ▸ trivial
  · split at h
    · cases h
    · split at h
      · cases h
      · exact Except.error.inj h ▸ trivial

/-- A call fails, is that of a routine, or begins a frame. -/
theorem Engine.enter_eq (e : Engine) (m : Module) (callee : FuncId) (args : List Int32) :
    (∃ f, e.enter m callee args = .error f ∧ f.External) ∨
    (∃ r text, e.enter m callee args = .ok (.result r text) ∧ ∀ f, r = .error f → f.External) ∨
    ∃ g, m.function? callee = some g ∧ g.isDeclaration = false ∧
      e.enter m callee args = .ok (.frame (entryFrame g callee args)) := by
  cases hg : m.function? callee with
  | none => exact .inl ⟨.erasedCallee, by rw [enter, hg], trivial⟩
  | some g =>
    cases hd : g.isDeclaration with
    | false => exact .inr (.inr ⟨g, rfl, hd, enter_frame hg hd⟩)
    | true =>
      cases hn : e.natives.lookup g.name with
      | none => exact .inl ⟨.unresolved g.name, by simp [enter, hg, hd, hn], trivial⟩
      | some native =>
        exact .inr (.inl ⟨_, _, by simp only [enter, hg, hd, hn, if_true]; rfl,
          fun f hf => external_callNative hf⟩)

/-- A call leads to the entry block of a function, or to a routine. -/
theorem Engine.enter_cases (e : Engine) (m : Module) (callee : FuncId) (args : List Int32) :
    match e.enter m callee args with
    | .error f => ¬ f.Structural
    | .ok (.frame fr) => fr.InGraph m
    | .ok (.result r _) => Harmless r := by
  rcases e.enter_eq m callee args with ⟨f, henter, hf⟩ | ⟨r, text, henter, hr⟩ | ⟨g, hg, hd, henter⟩
  · rw [henter]
    exact hf.not_structural
  · rw [henter]
    exact fun f hf => (hr f hf).not_structural
  · rw [henter]
    rw [Function.isDeclaration, Array.isEmpty_eq_false_iff, ← Array.size_pos_iff] at hd
    exact ⟨g, hg, hd, rfl⟩

namespace Config.InGraph
variable {c d : Config} (hm : m.verify = .ok ()) (hplain : ∀ x ∈ m.live, x.2.OpensPlainly)
include hm hplain

theorem step (h : c.InGraph m) :
    match c.step m with
    | .running d => d.InGraph m
    | .finished r _ => Harmless r := by
  obtain ⟨e, top, below⟩ := c
  have hnext := h.1.step hm hplain e.globals
  unfold Config.step
  dsimp only at hnext ⊢
  generalize top.step m e.globals = next at hnext ⊢
  cases next with
  | error f => exact .error hnext
  | ok a =>
    cases a with
    | proceed top' globals => exact ⟨hnext, h.2⟩
    | ret n =>
      dsimp only
      cases hback : below.back? with
      | none => exact .ok n
      | some caller =>
        refine ⟨(h.2 caller (Array.mem_of_back? hback)).resume n, fun fr hfr => ?_⟩
        rw [← Array.mem_toList_iff, Array.toList_pop] at hfr
        exact h.2 fr (Array.mem_toList_iff.1 ((List.dropLast_prefix _).subset hfr))
    | call top' callee args =>
      have henter := e.enter_cases m callee args
      dsimp only
      generalize e.enter m callee args = entered at henter ⊢
      cases entered with
      | error f => exact .error henter
      | ok x =>
        cases x with
        | frame fr =>
          dsimp only
          by_cases hdeep : below.size + 1 ≥ maxCallDepth
          · rw [if_pos hdeep]
            exact .error id
          · rw [if_neg hdeep]
            refine ⟨henter, fun fr' hfr' => ?_⟩
            rcases Array.mem_push.1 hfr' with hold | rfl
            · exact h.2 fr' hold
            · exact hnext
        | result r text =>
          cases r with
          | error f => exact henter
          | ok n => exact ⟨hnext.resume n, h.2⟩

theorem steps {n : Nat} (h : c.InGraph m) (hs : Steps m n c d) : d.InGraph m := by
  induction hs with
  | refl => exact h
  | head hstep _ ih =>
    have hnext := h.step hm hplain
    rw [hstep] at hnext
    exact ih hnext

theorem run {n : Nat} {r : Except Fault Int32} {e : Engine} (h : c.InGraph m)
    (hr : c.run m n = some (r, e)) : Harmless r := by
  induction n generalizing c with
  | zero => cases hr
  | succ n ih =>
    have hnext := h.step hm hplain
    rw [Config.run] at hr
    split at hr
    · next hstep =>
      rw [hstep] at hnext
      exact ih hnext hr
    · next hstep =>
      rw [hstep] at hnext
      exact (Prod.mk.inj (Option.some.inj hr)).1 ▸ hnext

end Config.InGraph

/-- The frame that a call begins with keeps to the graph, and so does all that a run comes to. -/
theorem Engine.harmless_run (hm : m.verify = .ok ()) (hplain : ∀ x ∈ m.live, x.2.OpensPlainly)
    {e e' : Engine} {steps : Nat} {id : FuncId} {args : List Int32} {r : Except Fault Int32}
    (hr : e.run steps m id args = some (r, e')) : Harmless r := by
  have henter := (e.sync m).enter_cases m id args
  unfold Engine.run at hr
  dsimp only at hr
  generalize (e.sync m).enter m id args = entered at henter hr
  cases entered with
  | error f =>
    obtain ⟨rfl, -⟩ := Prod.mk.inj (Option.some.inj hr)
    exact .error henter
  | ok x =>
    cases x with
    | result r' text => exact (Prod.mk.inj (Option.some.inj hr)).1 ▸ henter
    | frame top =>
      have hstart : Config.InGraph m ⟨e.sync m, top, #[]⟩ := ⟨henter, fun fr hfr => by simp at hfr⟩
      exact hstart.run hm hplain hr

end Steps
end Machine
end IntLang
