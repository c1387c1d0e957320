import Mathlib.Data.Set.Function
import Mathlib.Order.Interval.Set.Defs
import IntLang.Proofs.Renaming

/-! New indices for the instructions of a function. The text of a function does not show them, since
results are named in the order in which they appear. -/
namespace IntLang.Flow

def Block.renumber (σ : InstrId → InstrId) (b : Block) : Block :=
  ⟨b.name, b.instrs.map σ, b.terminator.map (·.rename (.ofResults σ))⟩

@[simp] theorem Renaming.ofResults_block (σ : InstrId → InstrId) (b : BlockId) :
    (Renaming.ofResults σ).block b = b := rfl

@[simp] theorem Renaming.ofResults_callee (σ : InstrId → InstrId) (c : FuncId) :
    (Renaming.ofResults σ).callee c = c := rfl

@[simp] theorem Instr.resultTy?_rename (ρ : Renaming) (i : Instr) : (i.rename ρ).resultTy? = i.resultTy? := by
  cases i <;> rfl

namespace Function
variable {σ : InstrId → InstrId} {f g : Function}

/-- One function is the other, except that its instructions have other indices. -/
structure Renumbering (σ : InstrId → InstrId) (f g : Function) : Prop where
  header : g.header = f.header
  onto : Set.BijOn σ (Set.Iio f.instrs.size) (Set.Iio g.instrs.size)
  instrs : ∀ id < f.instrs.size, g.instrs[σ id]? = f.instrs[id]?.map (·.rename (.ofResults σ))
  blocks : g.blocks = f.blocks.map (·.renumber σ)

/-- Two functions have named the same results so far, each under its own indices. -/
structure Numbering.InStep (σ : InstrId → InstrId) (f g : Function) (n n' : Numbering) : Prop where
  size : n.names.size = f.instrs.size
  size' : n'.names.size = g.instrs.size
  next : n'.next = n.next
  names : ∀ id < f.instrs.size, n'.names[σ id]? = n.names[id]?

namespace Renumbering

theorem order_eq (h : Renumbering σ f g) : g.placed = f.placed.map σ := by
  simp only [placed, h.blocks, Array.toList_map, List.flatMap_map, List.map_flatMap, Block.renumber]

theorem labels_eq (h : Renumbering σ f g) : g.labels = f.labels := by
  simp [labels, h.blocks, Block.renumber, Function.comp_def]

theorem inStep_start (h : Renumbering σ f g) : Numbering.InStep σ f g
    ⟨Array.replicate f.instrs.size none, f.paramCount⟩
    ⟨Array.replicate g.instrs.size none, g.paramCount⟩ := by
  have hcount : g.paramCount = f.paramCount := congrArg (fun f => f.paramCount) h.header
  refine ⟨by simp, by simp, hcount, fun id hid => ?_⟩
  have hid' : σ id < g.instrs.size := h.onto.mapsTo hid
  rw [Array.getElem?_replicate, Array.getElem?_replicate, if_pos hid, if_pos hid']

theorem inStep_name (h : Renumbering σ f g) {n n' : Numbering} (hn : Numbering.InStep σ f g n n')
    {id : InstrId} (hid : id < f.instrs.size) (name : String) (next : Nat) :
    Numbering.InStep σ f g ⟨n.names.setIfInBounds id (some name), next⟩
      ⟨n'.names.setIfInBounds (σ id) (some name), next⟩ := by
  refine ⟨by simpa using hn.size, by simpa using hn.size', rfl, fun j hj => ?_⟩
  have hid' : σ id < n'.names.size := hn.size' ▸ h.onto.mapsTo hid
  have hsame : σ id = σ j ↔ id = j := h.onto.injOn.eq_iff hid hj
  rw [Array.getElem?_setIfInBounds, Array.getElem?_setIfInBounds]
  simp only [hsame, if_pos hid', if_pos (hn.size ▸ hid), hn.names j hj]

theorem inStep_add (h : Renumbering σ f g) {n n' : Numbering} (hn : Numbering.InStep σ f g n n')
    {id : InstrId} (hid : id < f.instrs.size) :
    Numbering.InStep σ f g (Numbering.add f n id) (Numbering.add g n' (σ id)) := by
  have hget := h.instrs id hid
  rw [Array.getElem?_eq_getElem hid, Option.map_some] at hget
  unfold Numbering.add
  rw [hget, Array.getElem?_eq_getElem hid]
  cases f.instrs[id] with
  | alloca name =>
    have hnamed := h.inStep_name hn hid name n.next
    simpa only [Instr.rename, hn.next] using hnamed
  | store => exact hn
  | load | arith | compare | widen | call | phi =>
    have hnamed := h.inStep_name hn hid (toString n.next) (n.next + 1)
    simpa [Instr.rename, Instr.resultTy?, hn.next] using hnamed

theorem inStep_run (h : Renumbering σ f g) : ∀ (ids : List InstrId) {n n' : Numbering},
    (∀ id ∈ ids, id < f.instrs.size) → Numbering.InStep σ f g n n' →
    Numbering.InStep σ f g (ids.foldl (Numbering.add f) n) ((ids.map σ).foldl (Numbering.add g) n')
  | [], _, _, _, hn => hn
  | id :: ids, _, _, hids, hn =>
    h.inStep_run ids (fun j hj => hids j (List.mem_cons_of_mem _ hj))
      (h.inStep_add hn (hids id List.mem_cons_self))

theorem resultName? (h : Renumbering σ f g) (hplaced : ∀ id ∈ f.placed, id < f.instrs.size) {id : InstrId}
    (hid : id < f.instrs.size) : g.resultName? (σ id) = f.resultName? id := by
  have hrun := h.inStep_run f.placed hplaced h.inStep_start
  rw [← h.order_eq] at hrun
  rw [Function.resultName?, Function.resultName?, resultNames_eq, resultNames_eq, hrun.names id hid]

end Renumbering
end Function

namespace Naming
variable {σ : InstrId → InstrId} {n n' : Naming}

/-- What two functions refer to has the same names, but for the indices of instructions. -/
structure Renumbered (σ : InstrId → InstrId) (n n' : Naming) : Prop where
  legible : n.Legible
  results : ∀ id < n.function.instrs.size, n'.results[σ id]?.join = n.results[id]?.join
  instrs : ∀ id < n.function.instrs.size,
    n'.function.instrs[σ id]? = n.function.instrs[id]?.map (·.rename (.ofResults σ))
  labels : n'.function.labels = n.function.labels
  cells : n'.module.globals = n.module.globals
  callees : ∀ id, (n'.module.function? id).map (·.header) = (n.module.function? id).map (·.header)

namespace Renumbered

theorem lt_of_knows (h : Renumbered σ n n') {id : InstrId} (hid : n.Knows (.instr id)) :
    id < n.function.instrs.size := by
  obtain ⟨i, hi, -⟩ := (h.legible.named id).1 hid
  exact (Array.getElem?_eq_some_iff.1 hi).1

theorem operand (h : Renumbered σ n n') {v : Operand} (hv : n.Knows v) :
    n'.operand (v.rename (.ofResults σ)) = n.operand v := by
  cases v with
  | bool | int | param => rfl
  | global g => simp only [Operand.rename, Naming.operand, h.cells]
  | instr id =>
    obtain ⟨name, hname⟩ := hv
    have hname' : n'.results[σ id]?.join = some name :=
      (h.results id (h.lt_of_knows ⟨name, hname⟩)).trans hname
    rw [operand_instr hname]
    exact operand_instr hname'

theorem typeOf (h : Renumbered σ n n') {v : Operand} (hv : n.Knows v) :
    n'.function.typeOf (v.rename (.ofResults σ)) = n.function.typeOf v := by
  cases v with
  | bool | int | param | global => rfl
  | instr id =>
    have hget : n'.function.instrs[σ id]? = _ := h.instrs id (h.lt_of_knows hv)
    simp only [Operand.rename, Renaming.ofResults, Function.typeOf, hget, Option.bind_map, Function.comp_def,
      Instr.resultTy?_rename]

theorem typed (h : Renumbered σ n n') {v : Operand} (hv : n.Knows v) :
    n'.typed (v.rename (.ofResults σ)) = n.typed v := by
  rw [Naming.typed, Naming.typed, h.operand hv, h.typeOf hv]

theorem block (h : Renumbered σ n n') (b : BlockId) : n'.block b = n.block b := by
  have hlabel := congrArg (fun labels => labels[b]?) h.labels
  simp only [Function.labels, List.getElem?_map, Array.getElem?_toList] at hlabel
  rw [Naming.block, Naming.block, hlabel]

theorem instr (h : Renumbered σ n n') {i : Instr} (hi : n.Reads i) :
    n'.instr (i.rename (.ofResults σ)) = n.instr i := by
  cases i with
  | alloca name => rfl
  | load | widen => simp only [Instr.rename, Naming.instr, h.typed hi]
  | store => simp only [Instr.rename, Naming.instr, h.typed hi.1, h.typed hi.2]
  | arith => simp only [Instr.rename, Naming.instr, h.operand hi.1, h.operand hi.2]
  | compare => simp only [Instr.rename, Naming.instr, h.typed hi.1, h.operand hi.2]
  | call callee args =>
    have hargs : (args.map (·.rename (.ofResults σ))).map n'.typed = args.map n.typed := by
      rw [List.map_map]
      exact List.map_congr_left fun v hv => h.typed (hi.2 v hv)
    obtain ⟨f, hf⟩ := Option.ne_none_iff_exists'.1 hi.1
    have hcallee := h.callees callee
    rw [hf, Option.map_some] at hcallee
    obtain ⟨f', hf', hheader⟩ := Option.map_eq_some_iff.1 hcallee
    have hname : f'.name = f.name := congrArg (fun f => f.name) hheader
    have hvariadic : f'.variadic = f.variadic := congrArg (fun f => f.variadic) hheader
    simp only [Instr.rename, Naming.instr, hargs, Renaming.ofResults_callee, hf, hf', hname, hvariadic]
  | phi ty incoming =>
    rw [Instr.rename, Naming.instr, Naming.instr, List.map_map]
    refine congrArg _ (congrArg _ (List.map_congr_left fun x hx => ?_))
    simp only [Function.comp_apply, h.operand (hi x hx).1, Renaming.ofResults_block, h.block]

theorem terminator (h : Renumbered σ n n') {t : Terminator} (ht : n.Leads t) :
    n'.terminator (some (t.rename (.ofResults σ))) = n.terminator (some t) := by
  cases t with
  | jump dest => simp only [Terminator.rename, Naming.terminator, h.block, Renaming.ofResults_block]
  | branch =>
    simp only [Terminator.rename, Naming.terminator, h.typed ht.1, h.block, Renaming.ofResults_block]
  | ret value => simp only [Terminator.rename, Naming.terminator, h.typed ht]

theorem instrLine (h : Renumbered σ n n') {id : InstrId} {i : Instr} (hi : n.function.instrs[id]? = some i) :
    n'.instrLine (σ id) = n.instrLine id := by
  have hget := h.instrs id (Array.getElem?_eq_some_iff.1 hi).1
  rw [hi, Option.map_some] at hget
  have htext := h.instr (h.legible.instrs i (Array.mem_of_getElem? hi))
  simp only [Naming.instrLine, hi, hget, Instr.resultTy?_rename, htext]
  split
  · next hres =>
    have hresult := h.operand ((h.legible.named id).2 ⟨i, hi, hres⟩)
    rw [← hresult]
    rfl
  · rfl

theorem blockText (h : Renumbered σ n n') {b : Block} (hb : b ∈ n.function.blocks) :
    n'.blockText (b.renumber σ) = n.blockText b := by
  obtain ⟨t, ht, hleads⟩ := h.legible.ends b hb
  have hlines : (b.instrs.map σ).toList.map n'.instrLine = b.instrs.toList.map n.instrLine := by
    rw [Array.toList_map, List.map_map]
    refine List.map_congr_left fun id hid => ?_
    obtain ⟨i, hi⟩ := h.legible.placed b hb id (Array.mem_toList_iff.1 hid)
    exact h.instrLine hi
  simp only [Naming.blockText, Block.renumber, hlines, ht, Option.map_some, h.terminator hleads]

end Renumbered
end Naming

/-- Functions that differ in indices only have one text. -/
theorem Function.Renumbering.render_eq {σ : InstrId → InstrId} {f g : Function} {m m' : Module}
    (h : Function.Renumbering σ f g) (hf : (f.naming m).Legible) (hglobals : m'.globals = m.globals)
    (hcallees : ∀ id, (m'.function? id).map (·.header) = (m.function? id).map (·.header)) :
    g.render m' = f.render m := by
  have hplaced (id : InstrId) (hid : id ∈ f.placed) : id < f.instrs.size := by
    obtain ⟨b, hb, hmem⟩ := List.mem_flatMap.1 hid
    obtain ⟨i, hi⟩ := hf.placed b (Array.mem_toList_iff.1 hb) id (Array.mem_toList_iff.1 hmem)
    exact (Array.getElem?_eq_some_iff.1 hi).1
  have hn : Naming.Renumbered σ (f.naming m) (g.naming m') :=
    ⟨hf, fun id hid => h.resultName? hplaced hid, h.instrs, h.labels_eq, hglobals, hcallees⟩
  have hsignature (numbered : Bool) : g.signature numbered = f.signature numbered :=
    congrArg (fun f => f.signature numbered) h.header
  have hdeclaration : g.isDeclaration = f.isDeclaration := by
    rw [isDeclaration, isDeclaration, h.blocks, Array.isEmpty, Array.isEmpty, Array.size_map]
  have hblocks : g.blocks.toList.map (g.naming m').blockText =
      f.blocks.toList.map (f.naming m).blockText := by
    rw [h.blocks, Array.toList_map, List.map_map]
    exact List.map_congr_left fun b hb => hn.blockText (Array.mem_toList_iff.1 hb)
  rw [render, render, hdeclaration, hsignature, hsignature]
  exact congrArg (fun texts => if f.isDeclaration then "declare " ++ f.signature false ++ "\n"
    else "define " ++ f.signature true ++ " \x7b\n" ++ "\n".intercalate texts ++ "\x7d\n") hblocks

namespace Module
variable {m m' : Module}

theorem header_of_forall₂_live
    (h : List.Forall₂ (fun x y : FuncId × Function => x.1 = y.1 ∧ y.2.header = x.2.header) m.live m'.live)
    (id : FuncId) : (m'.function? id).map (·.header) = (m.function? id).map (·.header) := by
  have hheaders : m'.live.map (fun y => (y.1, y.2.header)) = m.live.map (fun x => (x.1, x.2.header)) :=
    eq_map_of_forall₂ (List.forall₂_map_right_iff.2 (h.imp fun x y hxy => by rw [hxy.1, hxy.2]))
  have hmem (m : Module) (f : Function) : (m.function? id).map (·.header) = some f ↔
      (id, f) ∈ m.live.map fun x => (x.1, x.2.header) := by
    rw [Option.map_eq_some_iff, List.mem_map]
    constructor
    · rintro ⟨f, hf, rfl⟩
      exact ⟨(id, f), mem_live.2 hf, rfl⟩
    · rintro ⟨x, hx, heq⟩
      obtain ⟨rfl, rfl⟩ := Prod.mk.inj heq
      exact ⟨x.2, mem_live.1 hx, rfl⟩
  exact Option.ext fun f => by rw [hmem, hmem, hheaders]

/-- Modules whose functions differ in indices of instructions only have one text. -/
theorem render_of_renumbering (hm : m.Legible) (hname : m'.name = m.name) (hglobals : m'.globals = m.globals)
    (h : List.Forall₂ (fun x y => x.1 = y.1 ∧ ∃ σ, x.2.Renumbering σ y.2) m.live m'.live) :
    m'.render = m.render := by
  have hcallees := header_of_forall₂_live (h.imp fun x y hxy => ⟨hxy.1, hxy.2.choose_spec.header⟩)
  have htexts : m'.live.map (fun y => "\n" ++ y.2.render m') = m.live.map fun x => "\n" ++ x.2.render m := by
    have hlegible (x : FuncId × Function) (hx : x ∈ m.live) := hm.functions x.1 x.2 (mem_live.1 hx)
    refine eq_map_of_forall₂ (List.forall₂_map_right_iff.2
      (((List.forall₂_and_left _ _).2 ⟨hlegible, h⟩).imp ?_))
    rintro x y ⟨hx, -, σ, hσ⟩
    rw [hσ.render_eq hx hglobals hcallees]
  have hcells : m'.renderGlobals = m.renderGlobals := by
    simp only [renderGlobals, hglobals]
  rw [render_eq, render_eq, hname, hcells, htexts]

end Module
end IntLang.Flow
