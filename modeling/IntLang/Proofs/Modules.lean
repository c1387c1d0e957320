import IntLang.Flow.Check
import IntLang.Proofs.Code

/-! Modules as tables of functions. In a tidy module a name belongs to one function at most, so that
looking up a name says the same as looking up an index. -/
namespace IntLang.Flow

def Function.header (f : Function) : Function :=
  { f with blocks := #[], instrs := #[] }

theorem Function.name_of_header {f g : Function} (h : g.header = f.header) : g.name = f.name :=
  (congrArg Function.name h :)

def printRoutine : Function :=
  { name := Machine.printSymbol, paramCount := 1, linkage := .external, variadic := true,
    synthetic := true }

def powerRoutine : Function :=
  { name := Machine.powerSymbol, paramCount := 2, linkage := .external, synthetic := true }

def Function.IsRoutine (f : Function) : Prop :=
  f.header = printRoutine ∨ f.header = powerRoutine

namespace Function.IsRoutine
variable {f g : Function}

theorem of_header (h : f.IsRoutine) (he : g.header = f.header) : g.IsRoutine := by
  unfold IsRoutine
  rw [he]
  exact h

theorem name (h : f.IsRoutine) : f.name = Machine.printSymbol ∨ f.name = Machine.powerSymbol :=
  h.imp (congrArg Function.name) (congrArg Function.name)

theorem synthetic (h : f.IsRoutine) : f.synthetic = true :=
  h.elim (congrArg Function.synthetic) (congrArg Function.synthetic)

end Function.IsRoutine
end IntLang.Flow

namespace IntLang.Flow.Module
open IntLang.Machine
variable {m : Module} {f g : Function} {id j : FuncId} {name : String}

theorem function?_eq_some : m.function? id = some f ↔ m.functions[id]? = some (some f) := by
  rw [function?]
  rcases m.functions[id]? with _ | _ | _ <;> simp

theorem function?_update (h : m.function? id = some f) (g : Function) :
    (m.update id g).function? j = if j = id then some g else m.function? j := by
  have hlt := (Array.getElem?_eq_some_iff.1 (function?_eq_some.1 h)).1
  rw [function?, function?, update, Array.getElem?_setIfInBounds]
  by_cases hj : id = j
  · simp [hj, hj ▸ hlt]
  · simp [hj, Ne.symm hj]

theorem function?_push (m : Module) (f : Function) :
    (m.push f).2.function? j = if j = m.functions.size then some f else m.function? j := by
  rw [function?, function?, push, Array.getElem?_push]
  split <;> rfl

theorem function?_size : m.function? m.functions.size = none := by
  simp [function?]

theorem function?_push_of_some (h : m.function? id = some f) {g : Function} :
    (m.push g).2.function? id = some f := by
  rw [function?_push, if_neg, h]
  rintro rfl
  exact absurd (function?_size.symm.trans h) (by simp)

theorem function?_erase : (m.erase id).2.function? j = if j = id then none else m.function? j := by
  rw [erase]
  split
  · next f hf =>
    rw [function?, function?, Array.getElem?_setIfInBounds]
    by_cases hj : id = j
    · subst hj
      have hlt := (Array.getElem?_eq_some_iff.1 (function?_eq_some.1 hf)).1
      simp [hlt]
    · simp [hj, Ne.symm hj]
  · next hf =>
    split
    · next hj => rw [hj, hf]
    · rfl

@[simp] theorem globals_erase : (m.erase id).2.globals = m.globals := by
  rw [erase]
  split <;> rfl

theorem update_update (f g : Function) : (m.update id f).update id g = m.update id g := by
  simp [update]

/-- Updating a function with what it is changes nothing. -/
theorem update_self (h : m.function? id = some f) : m.update id f = m := by
  obtain ⟨hlt, hf⟩ := Array.getElem?_eq_some_iff.1 (function?_eq_some.1 h)
  have : m.functions.setIfInBounds id (some f) = m.functions := by
    rw [Array.setIfInBounds, dif_pos hlt, ← hf, Array.set_getElem_self]
  rw [update, this]

theorem find?_eq_none_iff :
    m.find? name = none ↔ ∀ id f, m.function? id = some f → f.name ≠ name := by
  rw [find?, Array.findIdx?_eq_none_iff]
  constructor
  · intro h id f hf
    simpa using h _ (Array.mem_of_getElem? (function?_eq_some.1 hf))
  · intro h x hx
    obtain ⟨id, hid⟩ := Array.getElem?_of_mem hx
    cases x with
    | none => rfl
    | some f => simpa using h id f (function?_eq_some.2 hid)

theorem function?_of_find? (h : m.find? name = some id) :
    ∃ f, m.function? id = some f ∧ f.name = name := by
  obtain ⟨hlt, hid, -⟩ := Array.findIdx?_eq_some_iff_getElem.1 h
  cases hf : m.functions[id] with
  | none => simp [hf] at hid
  | some f =>
    refine ⟨f, function?_eq_some.2 ?_, by simpa [hf] using hid⟩
    rw [Array.getElem?_eq_getElem hlt, hf]

def Distinct (m : Module) : Prop :=
  ∀ i j f g, m.function? i = some f → m.function? j = some g → f.name = g.name → i = j

/-- Looking up a name says the same as looking up an index. -/
theorem Distinct.find?_eq_some_iff (h : m.Distinct) :
    m.find? name = some id ↔ ∃ f, m.function? id = some f ∧ f.name = name := by
  refine ⟨function?_of_find?, fun ⟨f, hf, hn⟩ => ?_⟩
  cases hfind : m.find? name with
  | none => exact absurd hn (find?_eq_none_iff.1 hfind id f hf)
  | some j =>
    obtain ⟨g, hg, hgn⟩ := function?_of_find? hfind
    rw [h j id g f hg hf (hgn.trans hn.symm)]

theorem Distinct.push (h : m.Distinct) (hn : m.find? f.name = none) : (m.push f).2.Distinct := by
  have hfresh := find?_eq_none_iff.1 hn
  intro i j g k hg hk hgk
  rw [function?_push] at hg hk
  split at hg <;> split at hk
  · next hi hj => rw [hi, hj]
  · exact absurd hgk.symm (Option.some.inj hg ▸ hfresh j k hk)
  · exact absurd hgk (Option.some.inj hk ▸ hfresh i g hg)
  · exact h i j g k hg hk hgk

/-- What holds of every module that is made here: a name belongs to one function and to one cell. -/
structure Tidy (m : Module) : Prop where
  distinct : ∀ i j f g, m.function? i = some f → m.function? j = some g → f.name = g.name → i = j
  fixed : ∀ i f, m.function? i = some f → f.synthetic = false → f.variadic = false
  routines : ∀ i f, m.function? i = some f → f.name = printSymbol ∨ f.name = powerSymbol →
    f.isDeclaration = true ∧ f.IsRoutine
  cells : (m.globals.toList.map (·.name)).Nodup

theorem Tidy.find?_eq_some_iff (h : m.Tidy) :
    m.find? name = some id ↔ ∃ f, m.function? id = some f ∧ f.name = name :=
  Distinct.find?_eq_some_iff h.distinct

theorem Tidy.push (ht : m.Tidy) (hn : m.find? f.name = none)
    (hv : f.synthetic = false → f.variadic = false)
    (hr : f.name = printSymbol ∨ f.name = powerSymbol → f.isDeclaration = true ∧ f.IsRoutine) :
    (m.push f).2.Tidy := by
  refine ⟨Distinct.push ht.distinct hn, fun i g hg hs => ?_, fun i g hg hname => ?_, ht.cells⟩
  · rw [function?_push] at hg
    split at hg
    · obtain rfl := Option.some.inj hg
      exact hv hs
    · exact ht.fixed i g hg hs
  · rw [function?_push] at hg
    split at hg
    · obtain rfl := Option.some.inj hg
      exact hr hname
    · exact ht.routines i g hg hname

theorem Tidy.erase (ht : m.Tidy) (id : FuncId) : (m.erase id).2.Tidy := by
  have hold : ∀ j f, (m.erase id).2.function? j = some f → m.function? j = some f := by
    intro j f hf
    rw [function?_erase] at hf
    split at hf
    · cases hf
    · exact hf
  exact ⟨fun i j f g hf hg => ht.distinct i j f g (hold i f hf) (hold j g hg),
    fun i f hf => ht.fixed i f (hold i f hf), fun i f hf => ht.routines i f (hold i f hf),
    by rw [globals_erase]; exact ht.cells⟩

/-- In a tidy module a callee is known by its index. -/
theorem Tidy.callee_iff (h : m.Tidy) {n : Nat} : Code.Callee m name n id ↔
    ∃ f, m.function? id = some f ∧ f.name = name ∧ f.synthetic = false ∧ f.paramCount = n := by
  rw [Code.Callee, h.find?_eq_some_iff]
  constructor
  · rintro ⟨⟨f, hf, hn⟩, g, hg, hs, hp⟩
    obtain rfl : f = g := Option.some.inj (hf.symm.trans hg)
    exact ⟨f, hf, hn, hs, hp⟩
  · rintro ⟨f, hf, hn, hs, hp⟩
    exact ⟨⟨f, hf, hn⟩, f, hf, hs, hp⟩

theorem findGlobal?_lt {g : GlobalId} (h : m.findGlobal? name = some g) : g < m.globals.size :=
  (Array.findIdx?_eq_some_iff_getElem.1 h).1

theorem findGlobal?_of_nodup (h : (m.globals.toList.map (·.name)).Nodup) {g : Nat}
    (hg : g < m.globals.size) : m.findGlobal? m.globals[g].name = some g := by
  refine Array.findIdx?_eq_some_iff_getElem.2 ⟨hg, by simp, fun j hj => ?_⟩
  have hne := List.pairwise_iff_getElem.1 h j g (by simpa using Nat.lt_trans hj hg) (by simpa) hj
  simpa using hne

theorem findGlobal?_append {new : Array Global} {m' : Module} (hm : m'.globals = m.globals ++ new)
    {g : GlobalId} (h : m.findGlobal? name = some g) : m'.findGlobal? name = some g := by
  unfold findGlobal? at h ⊢
  rw [hm, Array.findIdx?_append, h]
  rfl

theorem findGlobal?_globalCell (m : Module) (name : String) (n : Int32) :
    (m.globalCell name n).2.findGlobal? name = some (m.globalCell name n).1 := by
  unfold globalCell
  cases h : m.findGlobal? name with
  | some g => exact h
  | none =>
    unfold findGlobal? at h ⊢
    simp [Array.findIdx?_push, h]

end IntLang.Flow.Module

namespace IntLang.Flow

/-- What code of one module finds in the other: its functions, as far as calls look at them, and its
global cells. -/
structure Retains (m m' : Module) : Prop where
  kept : ∀ j f, m.function? j = some f → ∃ f', m'.function? j = some f' ∧ f'.header = f.header
  cells : m.globals.size ≤ m'.globals.size

theorem Retains.refl (m : Module) : Retains m m :=
  ⟨fun _ f h => ⟨f, h, rfl⟩, Nat.le_refl _⟩

theorem retains_push (m : Module) (f : Function) : Retains m (m.push f).2 :=
  ⟨fun _ g hg => ⟨g, Module.function?_push_of_some hg, rfl⟩, Nat.le_refl _⟩

/-- What becomes of a module while bodies are built: every function stays, with its header, and
support routines and global cells can be added. -/
structure Extends (m m' : Module) : Prop where
  kept : ∀ j f, m.function? j = some f → ∃ f', m'.function? j = some f' ∧ f'.header = f.header
  added : ∀ j f, m.function? j = none → m'.function? j = some f → f.IsRoutine
  cells : ∃ new, m'.globals = m.globals ++ new ∧ ∀ g ∈ new, g.init = 0
  tidy : m.Tidy → m'.Tidy

namespace Extends
variable {m m' m'' : Module}

theorem refl (m : Module) : Extends m m where
  kept := fun _ f h => ⟨f, h, rfl⟩
  added := fun _ _ h h' => absurd (h.symm.trans h') (by simp)
  cells := ⟨#[], by simp, by simp⟩
  tidy := fun h => h

theorem trans (h : Extends m m') (h' : Extends m' m'') : Extends m m'' where
  kept := fun j f hf => by
    obtain ⟨f₁, hf₁, he⟩ := h.kept j f hf
    obtain ⟨f₂, hf₂, he'⟩ := h'.kept j f₁ hf₁
    exact ⟨f₂, hf₂, he'.trans he⟩
  added := fun j f hn hf => by
    cases hm : m'.function? j with
    | none => exact h'.added j f hm hf
    | some g =>
      obtain ⟨f', hf', he⟩ := h'.kept j g hm
      obtain rfl : f' = f := Option.some.inj (hf'.symm.trans hf)
      exact (h.added j g hn hm).of_header he
  cells := by
    obtain ⟨new, hn, hz⟩ := h.cells
    obtain ⟨new', hn', hz'⟩ := h'.cells
    refine ⟨new ++ new', by rw [hn', hn, Array.append_assoc], fun g hg => ?_⟩
    exact (Array.mem_append.1 hg).elim (hz g) (hz' g)
  tidy := h'.tidy ∘ h.tidy

theorem retains (h : Extends m m') : Retains m m' := by
  obtain ⟨new, hn, -⟩ := h.cells
  refine ⟨h.kept, ?_⟩
  rw [hn, Array.size_append]
  exact Nat.le_add_right _ _

theorem findGlobal? (h : Extends m m') {name : String} {g : GlobalId}
    (hg : m.findGlobal? name = some g) : m'.findGlobal? name = some g :=
  h.cells.elim fun _ hn => Module.findGlobal?_append hn.1 hg

theorem find? (h : Extends m m') (ht : m.Tidy) {name : String} {j : FuncId}
    (hj : m.find? name = some j) : m'.find? name = some j := by
  obtain ⟨f, hf, hn⟩ := Module.function?_of_find? hj
  obtain ⟨f', hf', he⟩ := h.kept j f hf
  exact (h.tidy ht).find?_eq_some_iff.2 ⟨f', hf', (Function.name_of_header he).trans hn⟩

/-- Building bodies makes no function callable that was not. -/
theorem callee_iff (h : Extends m m') (ht : m.Tidy) {name : String} {n : Nat} {j : FuncId} :
    Code.Callee m' name n j ↔ Code.Callee m name n j := by
  rw [ht.callee_iff, (h.tidy ht).callee_iff]
  constructor
  · rintro ⟨f', hf', hn, hs, hp⟩
    cases hf : m.function? j with
    | none => exact absurd hs (by simp [(h.added j f' hf hf').synthetic])
    | some f =>
      obtain ⟨f₁, hf₁, he⟩ := h.kept j f hf
      obtain rfl : f₁ = f' := Option.some.inj (hf₁.symm.trans hf')
      exact ⟨f, rfl, (Function.name_of_header he).symm.trans hn,
        (congrArg Function.synthetic he).symm.trans hs,
        (congrArg Function.paramCount he).symm.trans hp⟩
  · rintro ⟨f, hf, hn, hs, hp⟩
    obtain ⟨f', hf', he⟩ := h.kept j f hf
    exact ⟨f', hf', (Function.name_of_header he).trans hn,
      (congrArg Function.synthetic he :).trans hs, (congrArg Function.paramCount he :).trans hp⟩

end Extends

/-- What becomes of a module while the body of the function `id` is built: other functions stay as
they are. -/
structure Grows (id : FuncId) (m m' : Module) : Prop extends Extends m m' where
  others : ∀ j f, j ≠ id → m.function? j = some f → m'.function? j = some f

namespace Grows
variable {id : FuncId} {m m' m'' : Module}

theorem refl (id : FuncId) (m : Module) : Grows id m m :=
  ⟨.refl m, fun _ _ _ h => h⟩

theorem trans (h : Grows id m m') (h' : Grows id m' m'') : Grows id m m'' :=
  ⟨h.toExtends.trans h'.toExtends, fun j f hj hf => h'.others j f hj (h.others j f hj hf)⟩

theorem update {f g : Function} (hf : m.function? id = some f) (hg : g.header = f.header)
    (hp : f.name ≠ Machine.printSymbol) (hw : f.name ≠ Machine.powerSymbol) :
    Grows id m (m.update id g) where
  others := fun j h hj hh => by rwa [Module.function?_update hf, if_neg hj]
  kept := fun j h hh => by
    rw [Module.function?_update hf]
    split
    · next hj =>
      subst hj
      exact ⟨g, rfl, Option.some.inj (hf.symm.trans hh) ▸ hg⟩
    · exact ⟨h, hh, rfl⟩
  added := fun j h hn hh => by
    rw [Module.function?_update hf] at hh
    split at hh
    · next hj =>
      rw [hj, hf] at hn
      cases hn
    · rw [hn] at hh
      cases hh
  cells := ⟨#[], by simp [Module.update], by simp⟩
  tidy := fun ht => by
    have hold : ∀ j h, (m.update id g).function? j = some h →
        ∃ h', m.function? j = some h' ∧ h'.header = h.header ∧ (j ≠ id → h' = h) := by
      intro j h hh
      rw [Module.function?_update hf] at hh
      split at hh
      · next hj =>
        obtain rfl := Option.some.inj hh
        exact ⟨f, hj ▸ hf, hg.symm, fun hne => absurd hj hne⟩
      · exact ⟨h, hh, rfl, fun _ => rfl⟩
    refine ⟨fun i j h k hh hk hn => ?_, fun i h hh hs => ?_, fun i h hh hn => ?_, ht.cells⟩
    · obtain ⟨h', hh', he, -⟩ := hold i h hh
      obtain ⟨k', hk', hke, -⟩ := hold j k hk
      refine ht.distinct i j h' k' hh' hk' ?_
      exact (Function.name_of_header he).trans (hn.trans (Function.name_of_header hke).symm)
    · obtain ⟨h', hh', he, -⟩ := hold i h hh
      have hv := ht.fixed i h' hh' ((congrArg Function.synthetic he).trans hs)
      exact (congrArg Function.variadic he).symm.trans hv
    · obtain ⟨h', hh', he, hsame⟩ := hold i h hh
      by_cases hi : i = id
      · subst hi
        obtain rfl : f = h' := Option.some.inj (hf.symm.trans hh')
        rw [← Function.name_of_header he] at hn
        exact absurd hn (not_or.2 ⟨hp, hw⟩)
      · exact hsame hi ▸ ht.routines i h' hh' (hsame hi ▸ hn)

theorem push {f : Function} (hf : f.IsRoutine) (hd : f.isDeclaration = true)
    (hn : m.find? f.name = none) : Grows id m (m.push f).2 where
  others := fun _ _ _ hg => Module.function?_push_of_some hg
  kept := fun _ g hg => ⟨g, Module.function?_push_of_some hg, rfl⟩
  added := fun j g hno hg => by
    rw [Module.function?_push] at hg
    split at hg
    · exact Option.some.inj hg ▸ hf
    · exact absurd (hno.symm.trans hg) (by simp)
  cells := ⟨#[], by simp [Module.push], by simp⟩
  tidy := fun ht => ht.push hn (fun hs => absurd hs (by simp [hf.synthetic])) fun _ => ⟨hd, hf⟩

theorem declare {r : Function} (hr : r = printRoutine ∨ r = powerRoutine) :
    Grows id m (m.declare r.name r.paramCount r.variadic).2 := by
  have hnew : (⟨r.name, r.paramCount, .external, r.variadic, true, #[], #[]⟩ : Function) = r := by
    rcases hr with rfl | rfl <;> rfl
  have hroutine : r.IsRoutine := by
    rcases hr with rfl | rfl
    · exact .inl rfl
    · exact .inr rfl
  have hdecl : r.isDeclaration = true := by
    rcases hr with rfl | rfl <;> rfl
  unfold Module.declare
  split
  · exact .refl id m
  · next hn =>
    rw [hnew]
    exact push hroutine hdecl hn

theorem globalCell (name : String) : Grows id m (m.globalCell name 0).2 := by
  unfold Module.globalCell
  split
  · exact .refl id m
  · next hnew =>
    have hname : name ∉ m.globals.toList.map (·.name) := by
      intro hmem
      obtain ⟨g, hg, hn⟩ := List.mem_map.1 hmem
      simpa [hn] using Array.findIdx?_eq_none_iff.1 hnew g (Array.mem_toList_iff.1 hg)
    refine ⟨⟨fun _ f h => ⟨f, h, rfl⟩, fun _ _ h h' => absurd (h.symm.trans h') (by simp),
      ⟨_, Array.push_eq_append, by simp⟩, fun h => ⟨h.distinct, h.fixed, h.routines, ?_⟩⟩,
      fun _ _ _ h => h⟩
    simp only [Array.toList_push, List.map_append, List.map_cons, List.map_nil]
    exact List.nodup_append.2 ⟨h.cells, by simp, by
      rintro a ha b hb rfl
      exact hname (List.mem_singleton.1 hb ▸ ha)⟩

end Grows

theorem Module.Tidy.find?_declare {m : Module} (hm : m.Tidy) {r : Function}
    (hr : r = printRoutine ∨ r = powerRoutine) :
    (m.declare r.name r.paramCount r.variadic).2.find? r.name =
      some (m.declare r.name r.paramCount r.variadic).1 := by
  cases h : m.find? r.name with
  | some j => simp only [declare, h]
  | none =>
    have ht := (Grows.declare hr : Grows 0 m _).tidy hm
    simp only [declare, h] at ht ⊢
    refine ht.find?_eq_some_iff.2 ⟨_, (function?_push m _).trans (if_pos rfl), ?_⟩
    rfl

end IntLang.Flow
