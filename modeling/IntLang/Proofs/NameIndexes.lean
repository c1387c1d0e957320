import IntLang.Proofs.ModuleEdits

/-! A catalog keeps an index of its functions and one of its cells by name beside the vectors. Each edit
updates vector and index one after the other, and a lookup reads the index alone. The indexes never part
from the vectors, so a catalog replies to every edit as the module does in which names are searched for. -/
namespace IntLang.Flow

structure Catalog extends Module where
  functionIds : Std.HashMap String FuncId := ∅
  globalIds : Std.HashMap String GlobalId := ∅

namespace Catalog

def find? (s : Catalog) (name : String) : Option FuncId :=
  s.functionIds[name]?

def findGlobal? (s : Catalog) (name : String) : Option GlobalId :=
  s.globalIds[name]?

def push (s : Catalog) (f : Function) : FuncId × Catalog :=
  let id := s.functions.size
  (id, { s with
    functions := s.functions.push (some f)
    functionIds := s.functionIds.insert f.name id })

def add? (s : Catalog) (f : Function) : Option (FuncId × Catalog) :=
  if f.name ∈ s.functionIds then none else some (s.push f)

def declare (s : Catalog) (name : String) (paramCount : Nat) (variadic : Bool) : FuncId × Catalog :=
  match s.find? name with
  | some id => (id, s)
  | none => s.push { name, paramCount, linkage := .external, variadic, synthetic := true }

/-- The name that leaves the index is the one that the function has when it is erased. -/
def erase (s : Catalog) (id : FuncId) : Option Function × Catalog :=
  match s.function? id with
  | some f => (some f, { s with
      functions := s.functions.setIfInBounds id none
      functionIds := s.functionIds.erase f.name })
  | none => (none, s)

def globalCell (s : Catalog) (name : String) (init : Int32) : GlobalId × Catalog :=
  match s.findGlobal? name with
  | some id => (id, s)
  | none =>
    let id := s.globals.size
    (id, { s with
      globals := s.globals.push { name, init }
      globalIds := s.globalIds.insert name id })

def edit (s : Catalog) : Edit → Reply × Catalog
  | .add f =>
    match s.add? f with
    | some (id, s') => (.function id, s')
    | none => (.refused, s)
  | .declare name paramCount variadic =>
    let (id, s') := s.declare name paramCount variadic
    (.function id, s')
  | .erase id =>
    let (f, s') := s.erase id
    (.erased f, s')
  | .cell name init =>
    let (g, s') := s.globalCell name init
    (.cell g, s')
  | .build id block slots op =>
    (.built, { s with toModule := (op.after ⟨s.toModule, id, block, slots⟩).module })

def edits (s : Catalog) : List Edit → List (Edit × Reply) × Catalog
  | [] => ([], s)
  | e :: es =>
    let (r, s') := s.edit e
    let (log, s'') := s'.edits es
    ((e, r) :: log, s'')

end Catalog

/-- The index gives each place under the name of what stands there. -/
def Indexes {α : Type} (ids : Std.HashMap String Nat) (nameOf : α → String) (place : Nat → Option α) :
    Prop :=
  ∀ name i, ids[name]? = some i ↔ ∃ x, place i = some x ∧ nameOf x = name

namespace Indexes
variable {α : Type} {ids : Std.HashMap String Nat} {nameOf : α → String} {place : Nat → Option α}
  {i : Nat} {x : α}

/-- Under the other names it makes no difference whether `x` stands at its place. -/
theorem of_ne (h : Indexes ids nameOf place) {name : String} (hname : nameOf x ≠ name) {v : Option α}
    (hi : ∀ y, place i = some y → y = x) (hv : ∀ y, v = some y → y = x) (j : Nat) :
    ids[name]? = some j ↔ ∃ y, (if j = i then v else place j) = some y ∧ nameOf y = name := by
  refine (h name j).trans (exists_congr fun y => and_congr_left fun hyn => ?_)
  by_cases hj : j = i
  · rw [if_pos hj, hj]
    constructor
    · exact fun hy => absurd (hi y hy ▸ hyn) hname
    · exact fun hy => absurd (hv y hy ▸ hyn) hname
  · rw [if_neg hj]

theorem insert (h : Indexes ids nameOf place) (hn : ids[nameOf x]? = none) (hi : place i = none) :
    Indexes (ids.insert (nameOf x) i) nameOf fun j => if j = i then some x else place j := by
  intro name j
  rw [Std.HashMap.getElem?_insert]
  by_cases hname : nameOf x = name
  · rw [if_pos (beq_iff_eq.2 hname), Option.some_inj]
    constructor
    · rintro rfl
      exact ⟨x, if_pos rfl, hname⟩
    · rintro ⟨y, hy, hyn⟩
      by_contra hij
      have hy' : place j = some y := (if_neg (Ne.symm hij)).symm.trans hy
      cases hn.symm.trans ((h _ j).2 ⟨y, hy', hyn.trans hname.symm⟩)
  · rw [if_neg (mt beq_iff_eq.1 hname)]
    exact h.of_ne hname (by simp [hi]) (fun y hy => (Option.some.inj hy).symm) j

theorem erase (h : Indexes ids nameOf place) (hi : place i = some x) :
    Indexes (ids.erase (nameOf x)) nameOf fun j => if j = i then none else place j := by
  intro name j
  rw [Std.HashMap.getElem?_erase]
  by_cases hname : nameOf x = name
  · have hx := (h name i).2 ⟨x, hi, hname⟩
    simp only [beq_iff_eq.2 hname, if_true, reduceCtorEq, false_iff, not_exists, not_and]
    intro y hy hyn
    split at hy
    · cases hy
    · next hj => exact hj (Option.some.inj (((h name j).2 ⟨y, hy, hyn⟩).symm.trans hx))
  · rw [if_neg (mt beq_iff_eq.1 hname)]
    exact h.of_ne hname (fun y hy => Option.some.inj (hy.symm.trans hi)) (fun y hy => by cases hy) j

theorem replace (h : Indexes ids nameOf place) {y : α} (hi : place i = some x) (hy : nameOf y = nameOf x) :
    Indexes ids nameOf fun j => if j = i then some y else place j := by
  intro name j
  rw [h name j]
  by_cases hj : j = i
  · simp [hj, hi, hy]
  · simp only [if_neg hj]

end Indexes

namespace Catalog

/-- Both indexes agree with the vectors. -/
structure Indexed (s : Catalog) : Prop where
  functions : Indexes s.functionIds Function.name s.function?
  cells : Indexes s.globalIds Global.name fun g => s.globals[g]?

namespace Indexed
variable {s : Catalog} {f : Function} {name : String} {id : FuncId}

theorem initial (name : String) : Indexed { name } :=
  ⟨fun _ _ => by simp [Module.function?], fun _ _ => by simp⟩

theorem distinct (h : s.Indexed) : s.toModule.Distinct := by
  intro i j f g hf hg hname
  have hi := (h.functions f.name i).2 ⟨f, hf, rfl⟩
  have hj := (h.functions f.name j).2 ⟨g, hg, hname.symm⟩
  exact Option.some.inj (hi.symm.trans hj)

theorem find?_eq (h : s.Indexed) (name : String) : s.toModule.find? name = s.find? name :=
  Option.ext fun id => h.distinct.find?_eq_some_iff.trans (h.functions name id).symm

theorem findGlobal?_eq (h : s.Indexed) (name : String) :
    s.toModule.findGlobal? name = s.findGlobal? name := by
  cases hg : s.findGlobal? name with
  | none =>
    refine Array.findIdx?_eq_none_iff.2 fun x hx => ?_
    obtain ⟨g, hlt, rfl⟩ := Array.mem_iff_getElem.1 hx
    have hnone := (h.cells name g).not.1 (by rw [← findGlobal?, hg]; simp)
    simpa using fun hname => hnone ⟨_, Array.getElem?_eq_getElem hlt, hname⟩
  | some g =>
    obtain ⟨x, hx, rfl⟩ := (h.cells name g).1 hg
    obtain ⟨hlt, rfl⟩ := Array.getElem?_eq_some_iff.1 hx
    refine Array.findIdx?_eq_some_iff_getElem.2 ⟨hlt, by simp, fun j hj => ?_⟩
    have hne := (h.cells s.globals[g].name j).not.1 (by
      rw [← findGlobal?, hg]
      simpa using Nat.ne_of_gt hj)
    simpa using fun hname => hne ⟨_, Array.getElem?_eq_getElem (Nat.lt_trans hj hlt), hname⟩

theorem push (h : s.Indexed) (hn : s.find? f.name = none) : (s.push f).2.Indexed where
  functions := by
    have hplaces : (s.push f).2.function? = fun id =>
        if id = s.functions.size then some f else s.function? id :=
      funext fun _ => Module.function?_push s.toModule f
    rw [hplaces]
    exact h.functions.insert hn Module.function?_size
  cells := h.cells

theorem erase (h : s.Indexed) (hf : s.function? id = some f) : (s.erase id).2.Indexed := by
  have hplaces : (s.toModule.erase id).2.function? = fun j => if j = id then none else s.function? j :=
    funext fun _ => Module.function?_erase
  simp only [Module.erase, hf] at hplaces
  simp only [Catalog.erase, hf]
  exact ⟨hplaces ▸ h.functions.erase hf, h.cells⟩

theorem cell (h : s.Indexed) (hn : s.findGlobal? name = none) (init : Int32) :
    (s.globalCell name init).2.Indexed := by
  simp only [globalCell, hn]
  refine ⟨h.functions, ?_⟩
  simp only [Array.getElem?_push]
  exact h.cells.insert (x := Global.mk name init) hn Array.getElem?_size

theorem build (h : s.Indexed) {m : Module} (hm : Reworked id s.toModule m) :
    Indexed { s with toModule := m } := by
  rcases hm with rfl | ⟨f, g, hf, hg, rfl⟩
  · exact h
  have hplaces : (s.update id g).function? = fun j => if j = id then some g else s.function? j :=
    funext fun _ => Module.function?_update hf g
  exact ⟨hplaces ▸ h.functions.replace hf (Function.name_of_header hg), h.cells⟩

end Indexed

/-- An edit does the same to the catalog as to the module in it. -/
theorem Indexed.edit {s : Catalog} (h : s.Indexed) (e : Edit) :
    (s.edit e).2.Indexed ∧ s.toModule.edit e = ((s.edit e).1, (s.edit e).2.toModule) := by
  cases e with
  | add f =>
    have hmem : f.name ∈ s.functionIds ↔ s.find? f.name ≠ none := by
      rw [Std.HashMap.mem_iff_isSome_getElem?, Option.isSome_iff_ne_none, find?]
    simp only [Catalog.edit, Catalog.add?, Module.edit, Module.add?, h.find?_eq, hmem]
    cases hn : s.find? f.name with
    | none => exact ⟨h.push hn, rfl⟩
    | some id => exact ⟨h, rfl⟩
  | declare name n v =>
    simp only [Catalog.edit, Catalog.declare, Module.edit, Module.declare, h.find?_eq]
    cases hn : s.find? name with
    | none => exact ⟨h.push hn, rfl⟩
    | some id => exact ⟨h, rfl⟩
  | erase id =>
    cases hf : s.function? id with
    | none => simpa only [Catalog.edit, Catalog.erase, Module.edit, Module.erase, hf, and_true] using h
    | some f =>
      refine ⟨h.erase hf, ?_⟩
      simp only [Catalog.edit, Catalog.erase, Module.edit, Module.erase, hf]
  | cell name init =>
    cases hn : s.findGlobal? name with
    | none =>
      refine ⟨h.cell hn init, ?_⟩
      simp only [Catalog.edit, globalCell, Module.edit, Module.globalCell, h.findGlobal?_eq, hn]
    | some g =>
      simpa only [Catalog.edit, globalCell, Module.edit, Module.globalCell, h.findGlobal?_eq, hn, and_true]
        using h
  | build id block slots op => exact ⟨h.build (op.reworked_after _), rfl⟩

theorem Indexed.edits {s : Catalog} (h : s.Indexed) (es : List Edit) :
    (s.edits es).2.Indexed ∧ s.toModule.edits es = ((s.edits es).1, (s.edits es).2.toModule) := by
  induction es generalizing s with
  | nil => exact ⟨h, rfl⟩
  | cons e es ih =>
    obtain ⟨hnext, heq⟩ := h.edit e
    obtain ⟨hlast, hrest⟩ := ih hnext
    refine ⟨hlast, ?_⟩
    simp only [Module.edits, heq, hrest, Catalog.edits]

structure Follows (log : List (Edit × Reply)) (s : Catalog) : Prop where
  find?_iff : ∀ name id, s.find? name = some id ↔ ∃ f, s.function? id = some f ∧ f.name = name
  names : (s.live.map (·.2.name)).Nodup
  added : ∀ f id, (s.edit (.add f)).1 = .function id → (s.edit (.add f)).2.function? id = some f
  refused : ∀ f, (s.edit (.add f)).1 = .refused ↔ ∃ x ∈ s.live, x.2.name = f.name
  unchanged : ∀ f, (s.edit (.add f)).1 = .refused → (s.edit (.add f)).2 = s
  erased : ∀ id f, s.function? id = some f → (s.edit (.erase id)).1 = .erased (some f) ∧
    ∀ j, (s.edit (.erase id)).2.function? j = if j = id then none else s.function? j
  absent : ∀ id, s.function? id = none → s.edit (.erase id) = (.erased none, s)
  fresh : ∀ e id, (s.edit e).1 = .function id → id ∉ issued log ∨
    ∃ name n v, e = .declare name n v ∧ s.find? name = some id
  alive : ∀ id, s.function? id ≠ none ↔
    id ∈ issued log ∧ ∀ f, (Edit.erase id, Reply.erased (some f)) ∉ log
  kept : ∀ e id g, (e, Reply.function id) ∈ log → s.function? id = some g → e.Suits g
  listed : ∀ id f, (id, f) ∈ s.live ↔ s.function? id = some f
  ordered : s.live.map (·.1) = (issued log).eraseDups.filter fun id => (s.function? id).isSome
  findGlobal?_iff : ∀ name g, s.findGlobal? name = some g ↔ ∃ x, s.globals[g]? = some x ∧ x.name = name
  cells : s.globals.toList.map (·.name) = ((asked log).map (·.name)).eraseDups
  values : ∀ x ∈ s.globals, (asked log).find? (·.name == x.name) = some x
  cellReplies : ∀ name init g, (Edit.cell name init, Reply.cell g) ∈ log → s.findGlobal? name = some g

/-- A function is added under a new name and index, or the catalog stays as it is. -/
theorem edit_add (s : Catalog) (f : Function) :
    s.edit (.add f) = (.function s.functions.size, (s.push f).2) ∨
      s.edit (.add f) = (.refused, s) := by
  simp only [Catalog.edit, Catalog.add?]
  by_cases hf : f.name ∈ s.functionIds
  · simp [hf]
  · simp [hf, Catalog.push]

theorem Indexed.follows {s : Catalog} (h : s.Indexed) {log : List (Edit × Reply)}
    (hf : Tracked log s.toModule) (hc : Stocked log s.toModule) : s.Follows log where
  find?_iff := h.functions
  names := h.distinct.nodup_names
  added := fun f id hr => by
    rcases s.edit_add f with he | he
    · rw [he] at hr ⊢
      rw [← Reply.function.inj hr]
      exact (Module.function?_push s.toModule f).trans (if_pos rfl)
    · cases hr.symm.trans (congrArg Prod.fst he)
  refused := fun f => by
    rw [← Module.refused_iff, (h.edit (.add f)).2]
  unchanged := fun f hr => by
    rcases s.edit_add f with he | he
    · cases hr.symm.trans (congrArg Prod.fst he)
    · rw [he]
  erased := fun id f hid => by
    refine ⟨by simp only [Catalog.edit, Catalog.erase, hid], fun j => ?_⟩
    rw [← Module.function?_erase]
    exact congrArg (·.2.function? j) (h.edit (.erase id)).2.symm
  absent := fun id hid => by simp only [Catalog.edit, Catalog.erase, hid]
  fresh := fun e id hr => by
    have hreply : (s.toModule.edit e).1 = .function id := by rw [(h.edit e).2, hr]
    simpa only [h.find?_eq] using hf.fresh hreply
  alive := fun id => by rw [hf.alive, hf.mem_issued_iff]
  kept := hf.kept
  listed := fun _ _ => mem_live
  ordered := hf.live_eq
  findGlobal?_iff := h.cells
  cells := hc.cells
  values := hc.values
  cellReplies := fun name init g hmem => by rw [← h.findGlobal?_eq, hc.replies name init g hmem]

end Catalog

/-- A catalog that was empty follows all edits that are made of it, and holds the module that they make. -/
theorem edits_follow (name : String) (es : List Edit) :
    (({ name } : Catalog).edits es).2.Follows (({ name } : Catalog).edits es).1 ∧
      ({ name } : Module).edits es =
        ((({ name } : Catalog).edits es).1, (({ name } : Catalog).edits es).2.toModule) := by
  obtain ⟨h, heq⟩ := (Catalog.Indexed.initial name).edits es
  obtain ⟨hf, hc⟩ := tracked_edits es (.initial name) (.initial name)
  rw [List.nil_append, heq] at hf hc
  exact ⟨h.follows hf hc, heq⟩

end IntLang.Flow
