import IntLang.Proofs.Compiled
import IntLang.Proofs.Rejections
import Mathlib.Data.List.Sort

/-! What the items of a session leave in its module. A function that is added stays as it is from then
on; a body that is rejected, or that has been run, is taken out again and leaves support routines
and global cells at most. -/
namespace IntLang.Flow
open IntLang.Machine

/-- All functions stay as they are, and support routines and global cells can be added. -/
structure Enlarges (m m' : Module) : Prop extends Extends m m' where
  same : ∀ j f, m.function? j = some f → m'.function? j = some f

namespace Module

def Bare (m : Module) : Prop :=
  ∀ id f, m.function? id = some f → f.synthetic = true → f.IsRoutine

/-- The functions of a program use no global cell. -/
def Isolated (m : Module) : Prop :=
  ∀ id f, m.function? id = some f → f.synthetic = false → ∀ i ∈ f.instrs.toList, i.Local

def defined (m : Module) : List (FuncId × Function) :=
  (m.live.filter (!·.2.synthetic)).map fun x => (x.1, x.2.header)

section Defined
variable {m m' : Module} {id : FuncId} {f h : Function}

theorem pairwise_zipIdx {α : Type} (l : List α) : l.zipIdx.Pairwise (·.2 < ·.2) := by
  rw [List.pairwise_iff_getElem]
  intro i j hi hj hij
  simpa using hij

theorem pairwise_live (m : Module) : m.live.Pairwise (·.1 < ·.1) := by
  refine (pairwise_zipIdx m.functions.toList).filterMap _ ?_
  rintro ⟨f?, i⟩ ⟨g?, j⟩ hij x hx y hy
  obtain ⟨f, -, rfl⟩ := Option.map_eq_some_iff.1 hx
  obtain ⟨g, -, rfl⟩ := Option.map_eq_some_iff.1 hy
  exact hij

theorem pairwise_defined (m : Module) : m.defined.Pairwise (·.1 < ·.1) :=
  List.pairwise_map.2 (m.pairwise_live.filter _)

theorem mem_defined : (id, h) ∈ m.defined ↔
    ∃ f, m.function? id = some f ∧ f.synthetic = false ∧ f.header = h := by
  rw [defined, List.mem_map]
  constructor
  · rintro ⟨⟨j, f⟩, hmem, he⟩
    obtain ⟨rfl, rfl⟩ := Prod.mk.inj he
    obtain ⟨hlive, hs⟩ := List.mem_filter.1 hmem
    exact ⟨f, mem_live.1 hlive, by simpa using hs, rfl⟩
  · rintro ⟨f, hf, hs, rfl⟩
    exact ⟨(id, f), List.mem_filter.2 ⟨mem_live.2 hf, by simp [hs]⟩, rfl⟩

/-- Lists in order of their indices are equal if they have the same members. -/
theorem eq_of_pairwise_lt {α : Type} (key : α → Nat) {l l' : List α}
    (hl : l.Pairwise (key · < key ·)) (hl' : l'.Pairwise (key · < key ·))
    (hmem : ∀ x, x ∈ l ↔ x ∈ l') : l = l' := by
  have hnodup {l : List α} (hl : l.Pairwise (key · < key ·)) : l.Nodup := by
    refine hl.imp ?_
    rintro a b hlt rfl
    exact Nat.lt_irrefl _ hlt
  have hperm := (List.perm_ext_iff_of_nodup (hnodup hl) (hnodup hl')).2 hmem
  exact List.Perm.eq_of_pairwise (fun _ _ _ _ hab hba => absurd hab (Nat.lt_asymm hba)) hl hl' hperm

theorem defined_eq {l : List (FuncId × Function)} (hl : l.Pairwise (·.1 < ·.1))
    (hmem : ∀ x, x ∈ m.defined ↔ x ∈ l) : m.defined = l :=
  eq_of_pairwise_lt (·.1) m.pairwise_defined hl hmem

end Defined
end Module

section Enlarging
variable {m m₁ : Module} {f : Function} {id : FuncId}

theorem Enlarges.refl (m : Module) : Enlarges m m :=
  ⟨.refl m, fun _ _ h => h⟩

/-- A function that is added, worked on and taken out again. -/
theorem enlarges_erase (hn : m.find? f.name = none) (hv : f.synthetic = false → f.variadic = false)
    (hp : f.name ≠ printSymbol) (hw : f.name ≠ powerSymbol)
    (hg : Grows m.functions.size (m.push f).2 m₁) :
    Enlarges m (m₁.erase m.functions.size).2 := by
  have hne (j : FuncId) (g : Function) (hj : m.function? j = some g) : j ≠ m.functions.size := by
    rintro rfl
    rw [Module.function?_size] at hj
    cases hj
  have hsame (j : FuncId) (g : Function) (hj : m.function? j = some g) :
      (m₁.erase m.functions.size).2.function? j = some g := by
    rw [Module.function?_erase, if_neg (hne j g hj)]
    exact hg.others j g (hne j g hj) (Module.function?_push_of_some hj)
  refine ⟨⟨fun j g hj => ⟨g, hsame j g hj, rfl⟩, fun j g hno hj => ?_, ?_, fun ht => ?_⟩, hsame⟩
  · rw [Module.function?_erase] at hj
    split at hj
    · cases hj
    · next hsize =>
      refine hg.added j g ?_ hj
      rw [Module.function?_push, if_neg hsize, hno]
  · rw [Module.globals_erase]
    exact hg.cells
  · refine (hg.tidy (ht.push hn hv fun hname => ?_)).erase _
    exact absurd hname (not_or.2 ⟨hp, hw⟩)

theorem Module.Bare.extends (h : m.Bare) (hm : Extends m m') : m'.Bare := by
  intro id f hf hs
  cases hid : m.function? id with
  | none => exact hm.added id f hid hf
  | some g =>
    obtain ⟨f', hf', he⟩ := hm.kept id g hid
    obtain rfl : f' = f := Option.some.inj (hf'.symm.trans hf)
    exact (h id g hid ((congrArg Function.synthetic he).symm.trans hs)).of_header he

theorem Module.Bare.push (h : m.Bare) (hf : f.synthetic = false) : (m.push f).2.Bare := by
  intro id g hg hs
  rw [Module.function?_push] at hg
  split at hg
  · obtain rfl := Option.some.inj hg
    rw [hf] at hs
    cases hs
  · exact h id g hg hs

/-- What is in a larger module was there before or is a support routine. -/
theorem Enlarges.cases (hm : Enlarges m m') (hf : m'.function? id = some f) :
    m.function? id = some f ∨ f.IsRoutine := by
  cases hold : m.function? id with
  | none => exact .inr (hm.added id f hold hf)
  | some g => exact .inl ((hm.same id g hold).symm.trans hf)

theorem Module.Checked.enlarge (h : m.Checked) (hm : Enlarges m m') (ht : m'.Tidy) : m'.Checked := by
  intro j f hf
  rcases hm.cases hf with hold | hr
  · refine (h j f hold).imp_right ?_
    rintro ⟨D, rfl, hD⟩
    exact ⟨D, rfl, hD.mono hm.retains⟩
  · exact .inl (ht.routines j f hf hr.name).1

theorem Module.Isolated.enlarge (h : m.Isolated) (hm : Enlarges m m') : m'.Isolated := by
  intro j f hf hs
  rcases hm.cases hf with hold | hr
  · exact h j f hold hs
  · rw [hr.synthetic] at hs
    cases hs

theorem Enlarges.defined_eq (hm : Enlarges m m') : m'.defined = m.defined := by
  refine Module.defined_eq m.pairwise_defined fun ⟨id, h⟩ => ?_
  rw [Module.mem_defined, Module.mem_defined]
  constructor
  · rintro ⟨f, hf, hs, rfl⟩
    rcases hm.cases hf with hold | hr
    · exact ⟨f, hold, hs, rfl⟩
    · rw [hr.synthetic] at hs
      cases hs
  · rintro ⟨f, hf, hs, rfl⟩
    exact ⟨f, hm.same id f hf, hs, rfl⟩

theorem Grows.defined_eq (hs : f.synthetic = false)
    (hg : Grows m.functions.size (m.push f).2 m') :
    m'.defined = m.defined ++ [(m.functions.size, f.header)] := by
  have hpushed : (m.push f).2.function? m.functions.size = some f := by
    simp [Module.function?_push]
  have hlast : ∀ x ∈ m.defined, x.1 < m.functions.size := by
    rintro ⟨id, h⟩ hx
    obtain ⟨g, hg, -⟩ := Module.mem_defined.1 hx
    exact (Array.getElem?_eq_some_iff.1 (Module.function?_eq_some.1 hg)).1
  refine Module.defined_eq ?_ fun ⟨id, h⟩ => ?_
  · refine List.pairwise_append.2 ⟨m.pairwise_defined, List.pairwise_singleton _ _, ?_⟩
    intro x hx y hy
    rw [List.mem_singleton.1 hy]
    exact hlast x hx
  · rw [Module.mem_defined, List.mem_append, Module.mem_defined, List.mem_singleton, Prod.mk.injEq]
    constructor
    · rintro ⟨g, hg', hsyn, rfl⟩
      cases hold : (m.push f).2.function? id with
      | none =>
        rw [(hg.added id g hold hg').synthetic] at hsyn
        cases hsyn
      | some g' =>
        obtain ⟨g₁, hg₁, he⟩ := hg.kept id g' hold
        obtain rfl : g₁ = g := Option.some.inj (hg₁.symm.trans hg')
        rw [Module.function?_push] at hold
        split at hold
        · next hid => exact .inr ⟨hid, he.trans (congrArg _ (Option.some.inj hold).symm)⟩
        · refine .inl ⟨g', hold, ?_, he.symm⟩
          exact (congrArg Function.synthetic he :).symm.trans hsyn
    · rintro (⟨g, hg', hsyn, rfl⟩ | ⟨rfl, rfl⟩)
      · obtain ⟨g₁, hg₁, he⟩ := hg.kept id g (Module.function?_push_of_some hg')
        exact ⟨g₁, hg₁, (congrArg Function.synthetic he :).trans hsyn, he⟩
      · obtain ⟨g₁, hg₁, he⟩ := hg.kept _ f hpushed
        exact ⟨g₁, hg₁, (congrArg Function.synthetic he :).trans hs, he⟩

theorem Grows.same (hg : Grows m.functions.size (m.push f).2 m') (j : FuncId) (g : Function)
    (hj : m.function? j = some g) : m'.function? j = some g := by
  refine hg.others j g ?_ (Module.function?_push_of_some hj)
  rintro rfl
  rw [Module.function?_size] at hj
  cases hj

/-- What is in the module after a function has been built was there before, is the function, or is a
support routine. -/
theorem Grows.cases (hg : Grows m.functions.size (m.push f).2 m') {g : Function}
    (hid : m'.function? id = some g) :
    m.function? id = some g ∨ id = m.functions.size ∨ g.IsRoutine := by
  by_cases hsize : id = m.functions.size
  · exact .inr (.inl hsize)
  · cases hold : m.function? id with
    | some g' => exact .inl ((hg.same id g' hold).symm.trans hid)
    | none =>
      refine .inr (.inr (hg.added id g ?_ hid))
      rw [Module.function?_push, if_neg hsize, hold]

theorem Module.Checked.grows (h : m.Checked) (hg : Grows m.functions.size (m.push f).2 m')
    (ht : m'.Tidy) (hid : ∀ g, m'.function? m.functions.size = some g → g.isDeclaration = true ∨
      ∃ D : Draft, g = D.function ∧ D.Finished m') : m'.Checked := by
  intro j g hj
  rcases hg.cases hj with hold | rfl | hr
  · refine (h j g hold).imp_right ?_
    rintro ⟨D, rfl, hD⟩
    exact ⟨D, rfl, (hD.mono (retains_push m f)).mono hg.retains⟩
  · exact hid g hj
  · exact .inl (ht.routines j g hj hr.name).1

theorem Module.Isolated.grows (h : m.Isolated) (hg : Grows m.functions.size (m.push f).2 m')
    (hid : ∀ g, m'.function? m.functions.size = some g → ∀ i ∈ g.instrs.toList, i.Local) :
    m'.Isolated := by
  intro j g hj hs
  rcases hg.cases hj with hold | rfl | hr
  · exact h j g hold hs
  · exact hid g hj
  · rw [hr.synthetic] at hs
    cases hs

end Enlarging
end IntLang.Flow

namespace IntLang.Code
open IntLang.Flow

theorem offers_push {m : Module} {f : Function} (ht : m.Tidy) (ht' : (m.push f).2.Tidy) :
    Offers m (m.push f).2 where
  callee := fun _ _ _ h => by
    obtain ⟨g, hg, hrest⟩ := ht.callee_iff.1 h
    exact ht'.callee_iff.2 ⟨g, Module.function?_push_of_some hg, hrest⟩
  routine := fun _ _ _ h => by
    obtain ⟨g, hg, hn⟩ := Module.function?_of_find? h
    exact ht'.find?_eq_some_iff.2 ⟨g, Module.function?_push_of_some hg, hn⟩

end IntLang.Code
