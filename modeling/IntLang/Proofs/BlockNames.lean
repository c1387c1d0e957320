import IntLang.Proofs.Labels
import IntLang.Proofs.ModuleEdits

/-! Names of blocks. A block whose name is taken gets its index added to the name, and nobody looks
again whether that name is free. So two blocks have one name exactly if some request finds both names
taken, which cannot happen as long as no name that is asked for ends in a digit. -/
namespace IntLang.Flow

/-- A request for a block: the place of the builder that makes it, and the name it asks for. -/
structure BlockRequest where
  block : Option BlockId
  slots : Nat
  name : String

def BlockRequest.edit (id : FuncId) (r : BlockRequest) : Edit :=
  .build id r.block r.slots (.block r.name)

/-- The name of a block that comes after blocks with the names `taken`. -/
def nextLabel (taken : List String) (name : String) : String :=
  if name ∈ taken then name ++ toString taken.length else name

theorem blockName_eq_nextLabel (f : Function) (name : String) :
    Builder.blockName f name = nextLabel f.labels name := by
  have hany : f.blocks.any (·.name == name) = true ↔ name ∈ f.labels := by
    rw [Array.any_eq_true']
    simp [Function.labels]
  have hlength : f.labels.length = f.blocks.size := by simp [Function.labels]
  simp only [Builder.blockName, nextLabel, hany, hlength]

/-- The labels that blocks get when `names` are asked for one after the other. -/
structure Labelled (names labels : List String) : Prop where
  length : labels.length = names.length
  label : ∀ k name, names[k]? = some name → labels[k]? = some (nextLabel (labels.take k) name)

theorem nodup_iff_notMem_take {α : Type} {l : List α} :
    l.Nodup ↔ ∀ k x, l[k]? = some x → x ∉ l.take k := by
  rw [List.Nodup, List.pairwise_iff_getElem]
  constructor
  · intro h k x hx hmem
    obtain ⟨hk, rfl⟩ := List.getElem?_eq_some_iff.1 hx
    obtain ⟨i, hi, heq⟩ := List.mem_take_iff_getElem.1 hmem
    exact h i k (by omega) hk (by omega) heq
  · intro h i k hi hk hik heq
    exact h k _ (List.getElem?_eq_getElem hk) (List.mem_take_iff_getElem.2 ⟨i, by omega, heq⟩)

theorem last_digit_toString (n : Nat) : ∃ c ∈ (toString n).toList.getLast?, isDigit c = true := by
  rw [Nat.toString_eq_repr, Nat.toList_repr]
  have hne : Nat.toDigits 10 n ≠ [] := Nat.toDigits_ne_nil
  exact ⟨_, List.getLast?_eq_some_getLast hne, isDigit_of_mem_toDigits (List.getLast_mem hne)⟩

namespace Labelled
variable {names labels : List String}

theorem nil : Labelled [] [] :=
  ⟨rfl, fun k name h => by simp at h⟩

theorem snoc (h : Labelled names labels) (name : String) :
    Labelled (names ++ [name]) (labels ++ [nextLabel labels name]) := by
  refine ⟨by simp [h.length], fun k x hx => ?_⟩
  rw [List.getElem?_append] at hx
  split at hx
  · next hk =>
    have hk' : k < labels.length := h.length ▸ hk
    rw [List.getElem?_append_left hk', List.take_append_of_le_length (Nat.le_of_lt hk')]
    exact h.label k x hx
  · next hk =>
    obtain ⟨hlt, rfl⟩ := List.getElem?_eq_some_iff.1 hx
    have hlength : k = labels.length := by
      rw [List.length_singleton] at hlt
      have := h.length
      omega
    subst hlength
    simp

/-- The label of a block is new unless both names that it could get are taken. -/
theorem notMem_take_iff (h : Labelled names labels) {k : Nat} {name label : String}
    (hname : names[k]? = some name) (hlabel : labels[k]? = some label) :
    label ∉ labels.take k ↔ (name ∈ labels.take k → name ++ toString k ∉ labels.take k) := by
  have hk : (labels.take k).length = k := by
    have := (List.getElem?_eq_some_iff.1 hlabel).1
    rw [List.length_take]
    omega
  obtain rfl := Option.some.inj (hlabel.symm.trans (h.label k name hname))
  unfold nextLabel
  split
  · next hmem => simp [hmem, hk]
  · next hmem => simp [hmem]

theorem nodup_iff (h : Labelled names labels) : labels.Nodup ↔
    ∀ k name, names[k]? = some name → name ∈ labels.take k → name ++ toString k ∉ labels.take k := by
  rw [nodup_iff_notMem_take]
  constructor
  · intro hnew k name hname
    have hlabel := h.label k name hname
    exact (h.notMem_take_iff hname hlabel).1 (hnew k _ hlabel)
  · intro hnew k label hlabel
    have hk : k < names.length := h.length ▸ (List.getElem?_eq_some_iff.1 hlabel).1
    have hname := List.getElem?_eq_getElem hk
    exact (h.notMem_take_iff hname hlabel).2 (hnew k _ hname)

/-- An index is told apart from what stands before it, unless that ends in a digit too. -/
theorem nodup_of_last (h : Labelled names labels)
    (hlast : ∀ name ∈ names, ∀ c ∈ name.toList.getLast?, isDigit c = false) : labels.Nodup := by
  have hdigits (n : Nat) : ∀ c ∈ (toString n).toList, isDigit c = true := by
    rw [Nat.toString_eq_repr, Nat.toList_repr]
    exact fun c hc => isDigit_of_mem_toDigits hc
  rw [h.nodup_iff]
  intro k name hname _ hmem
  obtain ⟨i, hi, heq⟩ := List.mem_take_iff_getElem.1 hmem
  have hi' : i < names.length := by
    have := h.length
    omega
  have hlabel := h.label i _ (List.getElem?_eq_getElem hi')
  rw [List.getElem?_eq_getElem (by omega), heq, Option.some.injEq] at hlabel
  have hwanted := hlast names[i] (List.getElem_mem hi')
  unfold nextLabel at hlabel
  split at hlabel
  · have hlist := congrArg String.toList hlabel
    rw [String.toList_append, String.toList_append, List.length_take] at hlist
    obtain ⟨-, hsame⟩ := append_digits_inj (hlast name (List.mem_of_getElem? hname)) hwanted (hdigits k)
      (hdigits _) hlist
    simp only [Nat.toString_eq_repr, Nat.toList_repr] at hsame
    have := congrArg digitsValue hsame
    rw [digitsValue_toDigits, digitsValue_toDigits] at this
    omega
  · obtain ⟨c, hc, hdigit⟩ := last_digit_toString k
    have hno := hwanted c (by
      rw [← hlabel, String.toList_append, List.getLast?_append, Option.mem_def.1 hc]
      rfl)
    rw [hdigit] at hno
    cases hno

end Labelled

section Requests
variable {m : Module} {id : FuncId} {f : Function}

theorem edit_request (hf : m.function? id = some f) (r : BlockRequest) :
    ∃ g, (m.edit (r.edit id)).2.function? id = some g ∧
      g.labels = f.labels ++ [nextLabel f.labels r.name] := by
  refine ⟨{ f with blocks := f.blocks.push { name := Builder.blockName f r.name } }, ?_, ?_⟩
  · have hafter : (m.edit (r.edit id)).2 =
        m.update id { f with blocks := f.blocks.push { name := Builder.blockName f r.name } } := by
      simp [Module.edit, BlockRequest.edit, BuildOp.after, BuildOp.run, Builder.appendBlock,
        Builder.getFunction, Builder.setFunction, bind, EStateM.bind, pure, EStateM.pure, modify_apply, hf]
    rw [hafter, Module.function?_update hf, if_pos rfl]
  · simp [Function.labels, blockName_eq_nextLabel]

theorem labelled_edits (rs : List BlockRequest) : ∀ {m : Module} {f : Function} {names : List String},
    m.function? id = some f → Labelled names f.labels →
    ∃ g, (m.edits (rs.map (·.edit id))).2.function? id = some g ∧
      Labelled (names ++ rs.map (·.name)) g.labels := by
  induction rs with
  | nil =>
    intro m f names hf h
    exact ⟨f, hf, by simpa using h⟩
  | cons r rs ih =>
    intro m f names hf h
    obtain ⟨f', hf', hlabels⟩ := edit_request hf r
    obtain ⟨g, hg, hall⟩ := ih hf' (hlabels ▸ h.snoc r.name)
    exact ⟨g, hg, by simpa using hall⟩

/-- Blocks that are asked for one after the other, through any builders, have different names exactly if no
request finds its name taken and that name with the index of the block taken as well. -/
theorem block_labels_nodup_iff (hf : m.function? id = some f) (hnew : f.blocks = #[])
    (rs : List BlockRequest) : ∃ g, (m.edits (rs.map (·.edit id))).2.function? id = some g ∧
      g.labels.length = rs.length ∧
      (g.labels.Nodup ↔ ∀ k r, rs[k]? = some r → r.name ∈ g.labels.take k →
        r.name ++ toString k ∉ g.labels.take k) ∧
      ((∀ r ∈ rs, ∀ c ∈ r.name.toList.getLast?, isDigit c = false) → g.labels.Nodup) := by
  have hnone : Labelled [] f.labels := by
    simpa [Function.labels, hnew] using Labelled.nil
  obtain ⟨g, hg, h⟩ := labelled_edits rs hf hnone
  rw [List.nil_append] at h
  refine ⟨g, hg, by simpa using h.length, ?_, fun hlast => h.nodup_of_last (by simpa using hlast)⟩
  rw [h.nodup_iff]
  simp only [List.getElem?_map, Option.map_eq_some_iff, forall_exists_index, and_imp,
    forall_apply_eq_imp_iff₂]

end Requests

def bareModule : Module :=
  { name := "names", functions := #[some { name := "f", paramCount := 0, linkage := .internal }] }

def bodyRequests : List BlockRequest :=
  [⟨none, 0, "body"⟩, ⟨some 0, 2, "body"⟩, ⟨none, 0, "body"⟩]

theorem block_labels_nodup_bodyRequests :
    ∃ g, (bareModule.edits (bodyRequests.map (·.edit 0))).2.function? 0 = some g ∧
      g.labels = ["body", "body1", "body2"] ∧ g.labels.Nodup := by
  have hf : bareModule.function? 0 = some { name := "f", paramCount := 0, linkage := .internal } := rfl
  obtain ⟨g, hg, -, -, hnodup⟩ := block_labels_nodup_iff hf rfl bodyRequests
  have hlabels : ((bareModule.edits (bodyRequests.map (·.edit 0))).2.function? 0).map Function.labels =
      some ["body", "body1", "body2"] := by decide +kernel
  rw [hg] at hlabels
  refine ⟨g, hg, Option.some.inj hlabels, hnodup fun r hr c hc => ?_⟩
  have hname : r.name = "body" := by
    simp only [bodyRequests, List.mem_cons, List.not_mem_nil, or_false] at hr
    rcases hr with rfl | rfl | rfl <;> rfl
  have hlast : "body".toList.getLast? = some 'y' := by decide +kernel
  rw [hname, hlast] at hc
  obtain rfl := Option.some.inj hc
  rfl

def clashingRequests : List BlockRequest :=
  [⟨none, 0, "a"⟩, ⟨none, 0, "a2"⟩, ⟨none, 0, "a"⟩]

theorem block_labels_clash :
    ∃ g, (bareModule.edits (clashingRequests.map (·.edit 0))).2.function? 0 = some g ∧
      g.labels = ["a", "a2", "a2"] ∧ ¬ g.labels.Nodup := by
  have hlabels : ((bareModule.edits (clashingRequests.map (·.edit 0))).2.function? 0).map Function.labels =
      some ["a", "a2", "a2"] := by decide +kernel
  obtain ⟨g, hg, hlabels⟩ := Option.map_eq_some_iff.1 hlabels
  exact ⟨g, hg, hlabels, by rw [hlabels]; decide⟩

end IntLang.Flow
