import IntLang.Proofs.Renumbering
import IntLang.Proofs.Sessions

/-! Modules have one text exactly if they are the same up to the indices of instructions. -/
namespace IntLang
open IntLang.Flow

namespace Flow

/-- What has a name on one side has a partner on the other, if that name is given there at all. -/
theorem exists_namesake (a : Nat → Option String) {b : Nat → Option String}
    (hb : ∀ j j' name, b j = some name → b j' = some name → j = j') :
    ∃ ρ : Nat → Nat, ∀ i j name, a i = some name → b j = some name → j = ρ i := by
  refine ⟨fun i => Classical.epsilon fun j => a i = b j, fun i j name hi hj => ?_⟩
  have hspec := Classical.epsilon_spec (⟨j, hi.trans hj.symm⟩ : ∃ j, a i = b j)
  exact hb j _ name hj (hspec.symm.trans hi)

/-- Functions go by their names. -/
def Module.Namesakes (τ : FuncId → FuncId) (m m' : Module) : Prop :=
  ∀ id id' name, (m.function? id).map (·.name) = some name →
    (m'.function? id').map (·.name) = some name → id' = τ id

theorem Linkage.words_append_inj {l l' : Linkage} {r r' : List String}
    (h : l.words ++ "i32" :: r = l'.words ++ "i32" :: r') : l = l' ∧ r = r' := by
  cases l <;> cases l' <;> simp_all [Linkage.words]

namespace Function
variable {f g : Function} {m m' : Module} {r r' : List String}

theorem paramWords_append_inj {numbered : Bool} {w : String} (hw : w = "\x7b" ∨ w = "\n")
    (h : f.paramWords numbered ++ w :: r = g.paramWords numbered ++ w :: r') :
    f.paramCount = g.paramCount ∧ f.variadic = g.variadic ∧ r = r' := by
  have hne : w ≠ "i32" ∧ w ≠ "..." := by
    rcases hw with rfl | rfl <;> decide
  have hstop (variadic : Bool) (r : List String) :
      ((if variadic then ["..."] else []) ++ w :: r).head? ≠ some "i32" := by
    cases variadic <;> simp [hne.1]
  have hstart (i : Nat) (s : List String) :
      ¬ ((if numbered then ["i32", "%" ++ toString i] else ["i32"]) ++ s).head? ≠ some "i32" := by
    cases numbered <;> simp
  simp only [paramWords, List.append_assoc] at h
  obtain ⟨hall, hrest⟩ := forall₂_of_flatMap (fun s => s.head? ≠ some "i32") (R := fun _ _ => True)
    (fun i _ j _ s s' hs => ⟨trivial, by cases numbered <;> simp at hs <;> simp [hs]⟩)
    (fun i _ => hstart i) (fun i _ => hstart i) (hstop _ _) (hstop _ _) h
  refine ⟨by simpa using hall.length_eq, ?_⟩
  cases hv : f.variadic <;> cases hv' : g.variadic <;> simp_all

theorem signatureWords_append_inj {numbered : Bool} {w : String} (hw : w = "\x7b" ∨ w = "\n")
    (h : f.signatureWords numbered ++ w :: r = g.signatureWords numbered ++ w :: r') :
    f.header.name = g.header.name ∧ f.paramCount = g.paramCount ∧ f.linkage = g.linkage ∧
      f.variadic = g.variadic ∧ r = r' := by
  simp only [signatureWords, List.append_assoc, List.cons_append] at h
  obtain ⟨hlinkage, hrest⟩ := Linkage.words_append_inj h
  obtain ⟨hname, hrest⟩ := List.cons.inj hrest
  obtain ⟨hcount, hvariadic, hr⟩ := paramWords_append_inj hw hrest
  exact ⟨(String.append_right_inj "@").1 hname, hcount, hlinkage, hvariadic, hr⟩

structure Copied (τ : FuncId → FuncId) (m m' : Module) (f g : Function) : Prop where
  name : f.name = g.name
  paramCount : f.paramCount = g.paramCount
  linkage : f.linkage = g.linkage
  variadic : f.variadic = g.variadic
  blocks : ∃ ρ : Renaming, ρ.callee = τ ∧ Naming.Agree ρ (f.naming m) (g.naming m') ∧
    List.Forall₂ (Naming.Mirrored ρ (f.naming m) (g.naming m')) f.blocks.toList g.blocks.toList

theorem exists_agree {τ : FuncId → FuncId} (hf : (f.naming m).Legible) (hg : (g.naming m').Legible)
    (hu : g.Unambiguous) (hτ : Module.Namesakes τ m m') (hglobals : m'.globals = m.globals)
    (hparams : f.paramCount = g.paramCount) :
    ∃ ρ : Renaming, ρ.callee = τ ∧ Naming.Agree ρ (f.naming m) (g.naming m') := by
  obtain ⟨results, hresults⟩ := exists_namesake f.resultName? hu.distinct
  obtain ⟨blocks, hblocks⟩ := exists_namesake (f.labels[·]?) (b := (g.labels[·]?)) fun j j' name hj hj' =>
    (List.getElem?_inj (List.getElem?_eq_some_iff.1 hj).1 hu.labels).1 (hj.trans hj'.symm)
  exact ⟨⟨results, blocks, τ⟩, rfl, hf, hg, hresults, hblocks, hτ, hglobals, hparams.symm⟩

theorem textWords_append_inj {τ : FuncId → FuncId} (hf : (f.naming m).Legible) (hg : (g.naming m').Legible)
    (hu : g.Unambiguous) (hτ : Module.Namesakes τ m m') (hglobals : m'.globals = m.globals)
    (h : f.textWords m ++ r = g.textWords m' ++ r') : Copied τ m m' f g ∧ r = r' := by
  unfold textWords at h
  split at h <;> split at h
  · next hd hd' =>
    simp only [List.cons_append, List.append_assoc, List.nil_append, List.cons.injEq, true_and] at h
    obtain ⟨hname, hparams, hlinkage, hvariadic, hr⟩ := signatureWords_append_inj (.inr rfl) h
    obtain ⟨ρ, hρ, hagree⟩ := exists_agree hf hg hu hτ hglobals hparams
    refine ⟨⟨hname, hparams, hlinkage, hvariadic, ρ, hρ, hagree, ?_⟩, hr⟩
    rw [isDeclaration, Array.isEmpty_iff] at hd hd'
    rw [hd, hd']
    exact .nil
  · simp at h
  · simp at h
  · simp only [List.cons_append, List.append_assoc, List.cons.injEq, true_and] at h
    obtain ⟨hname, hparams, hlinkage, hvariadic, hrest⟩ := signatureWords_append_inj (.inl rfl) h
    obtain ⟨ρ, hρ, hagree⟩ := exists_agree hf hg hu hτ hglobals hparams
    obtain ⟨hall, hr⟩ := forall₂_of_flatMap (fun s => s.head? = some "\x7d")
      (R := Naming.Mirrored ρ (f.naming m) (g.naming m'))
      (fun b hb b' hb' s s' hs => by
        simp only [List.cons_append, List.cons.injEq, true_and] at hs
        exact hagree.blockText (Array.mem_toList_iff.1 hb) (Array.mem_toList_iff.1 hb') hs)
      (fun _ _ _ => by simp) (fun _ _ _ => by simp) rfl rfl hrest
    simp only [List.nil_append, List.cons.injEq, true_and] at hr
    exact ⟨⟨hname, hparams, hlinkage, hvariadic, ρ, hρ, hagree, hall⟩, hr⟩

end Function

namespace Module
variable {m m' : Module}

theorem functionWords_cases (m : Module) : m.functionWords = [] ∨
    ∃ w r, m.functionWords = "\n" :: w :: r ∧ (w = "declare" ∨ w = "define") := by
  unfold functionWords
  cases m.live with
  | nil => exact .inl rfl
  | cons x xs =>
    rw [List.flatMap_cons, Function.textWords]
    split
    · exact .inr ⟨"declare", _, rfl, .inl rfl⟩
    · exact .inr ⟨"define", _, rfl, .inr rfl⟩

theorem cellWords_append_inj {gs gs' : List Global}
    (h : gs.flatMap Global.textWords ++ m.functionWords =
      gs'.flatMap Global.textWords ++ m'.functionWords) :
    gs' = gs ∧ m.functionWords = m'.functionWords := by
  have hcell (g : Global) (s : List String) : ¬ ∀ w ∈ (g.textWords ++ s).head?, w = "\n" := by
    intro hall
    have hmark := hall _ rfl
    simpa using congrArg (fun w => w.toList.head?) hmark
  have hstop (m : Module) : ∀ w ∈ m.functionWords.head?, w = "\n" := by
    rcases m.functionWords_cases with hm | ⟨w, r, hm, -⟩ <;> simp [hm]
  have hstep (g : Global) (_ : g ∈ gs) (g' : Global) (_ : g' ∈ gs') (s s' : List String)
      (hs : g.textWords ++ s = g'.textWords ++ s') : g' = g ∧ s = s' := by
    simp only [Global.textWords, List.cons_append, List.nil_append, List.cons.injEq, true_and] at hs
    have hname := (String.append_right_inj "@").1 hs.1
    have hinit := Int32.toInt_inj.1 (toString_int_inj hs.2.1)
    cases g
    cases g'
    exact ⟨by rw [Global.mk.injEq]; exact ⟨hname.symm, hinit.symm⟩, hs.2.2⟩
  obtain ⟨hall, hrest⟩ := forall₂_of_flatMap (fun s => ∀ w ∈ s.head?, w = "\n") hstep
    (fun g _ => hcell g) (fun g _ => hcell g) (hstop m) (hstop m') h
  exact ⟨by simpa using eq_map_of_forall₂ (g := fun g => g) hall, hrest⟩

/-- Where there are cells, no function comes first. -/
theorem functionWords_ne_cells {g : Global} {gs : List Global} {r : List String} :
    m.functionWords ≠ "\n" :: ((g :: gs).flatMap Global.textWords ++ r) := by
  rcases m.functionWords_cases with hm | ⟨w, s, hm, hw⟩
  · simp [hm]
  · intro heq
    rw [hm] at heq
    simp only [List.flatMap_cons, Global.textWords, List.cons_append, List.cons.injEq, true_and] at heq
    have hmark := congrArg (fun w => w.toList.head?) heq.1
    rcases hw with rfl | rfl <;> simp at hmark

theorem globals_of_textWords (h : m.textWords = m'.textWords) :
    m'.globals = m.globals ∧ m.functionWords = m'.functionWords := by
  rw [textWords, textWords] at h
  rw [← Array.toList_inj]
  cases hm : m.globals.toList with
  | nil =>
    cases hm' : m'.globals.toList with
    | nil => exact ⟨rfl, by simpa only [hm, hm', cellWords, List.nil_append] using h⟩
    | cons g gs =>
      rw [hm, hm', cellWords, cellWords, List.nil_append, List.cons_append] at h
      exact absurd h functionWords_ne_cells
  | cons g gs =>
    cases hm' : m'.globals.toList with
    | nil =>
      rw [hm, hm', cellWords, cellWords, List.nil_append, List.cons_append] at h
      exact absurd h.symm functionWords_ne_cells
    | cons g' gs' =>
      rw [hm, hm', cellWords, cellWords, List.cons_append, List.cons_append] at h
      exact cellWords_append_inj (List.cons.inj h).2

end Module

section Lists
variable {α β : Type}

theorem exists_map_of_forall₂ {R : Nat → Nat → Prop} : ∀ {as bs : List Nat}, as.Nodup →
    List.Forall₂ R as bs → ∃ σ : Nat → Nat, bs = as.map σ ∧ ∀ a ∈ as, R a (σ a)
  | [], [], _, _ => ⟨fun a => a, rfl, by simp⟩
  | a :: as, b :: bs, hnodup, .cons hab hrest => by
    rw [List.nodup_cons] at hnodup
    obtain ⟨σ, rfl, hσ⟩ := exists_map_of_forall₂ hnodup.2 hrest
    have hne (x : Nat) (hx : x ∈ as) : x ≠ a := fun h => hnodup.1 (h ▸ hx)
    refine ⟨fun x => if x = a then b else σ x, ?_,
      List.forall_mem_cons.2 ⟨by simpa using hab, fun x hx => ?_⟩⟩
    · rw [List.map_cons, if_pos rfl, List.map_congr_left fun x hx => if_neg (hne x hx)]
    · simpa only [if_neg (hne x hx)] using hσ x hx

/-- A map of a whole list is one of each of its parts. -/
theorem forall₂_eq_map_of_flatMap {u v : α → List Nat} {σ : Nat → Nat} {R : α → α → Prop}
    (hlength : ∀ x y, R x y → (u x).length = (v y).length) : ∀ {xs ys : List α}, List.Forall₂ R xs ys →
    ys.flatMap v = (xs.flatMap u).map σ → List.Forall₂ (fun x y => R x y ∧ v y = (u x).map σ) xs ys
  | [], [], _, _ => .nil
  | x :: xs, y :: ys, .cons hxy hrest, h => by
    rw [List.flatMap_cons, List.flatMap_cons, List.map_append] at h
    obtain ⟨hhead, htail⟩ := List.append_inj h (by rw [List.length_map, hlength x y hxy])
    exact .cons ⟨hxy, hhead⟩ (forall₂_eq_map_of_flatMap hlength hrest htail)

end Lists

namespace Function
variable {f g : Function} {m m' : Module} {τ : FuncId → FuncId}

theorem bijOn_of_order {σ : InstrId → InstrId} (hf : f.placed.Perm (List.range f.instrs.size))
    (hg : g.placed.Perm (List.range g.instrs.size)) (h : g.placed = f.placed.map σ) :
    Set.BijOn σ (Set.Iio f.instrs.size) (Set.Iio g.instrs.size) := by
  have hmem (id : InstrId) : id ∈ f.placed ↔ id < f.instrs.size := by rw [hf.mem_iff, List.mem_range]
  have hmem' (id : InstrId) : id ∈ f.placed.map σ ↔ id < g.instrs.size := by
    rw [← h, hg.mem_iff, List.mem_range]
  have hnodup : (f.placed.map σ).Nodup := h ▸ hg.nodup_iff.2 List.nodup_range
  refine ⟨fun id hid => ?_, fun id hid id' hid' heq => ?_, fun id hid => ?_⟩
  · exact (hmem' (σ id)).1 (List.mem_map_of_mem ((hmem id).2 hid))
  · exact List.inj_on_of_nodup_map hnodup ((hmem id).2 hid) ((hmem id').2 hid') heq
  · obtain ⟨id', hid', heq⟩ := List.mem_map.1 ((hmem' id).2 hid)
    exact ⟨id', (hmem id').1 hid', heq⟩

theorem Copied.labels_eq (h : Copied τ m m' f g) : g.labels = f.labels := by
  obtain ⟨ρ, -, -, hall⟩ := h.blocks
  exact eq_map_of_forall₂ (List.forall₂_map_right_iff.2 (hall.imp fun _ _ hb => hb.name))

theorem Copied.renumbering (h : Copied τ m m' f g) (hτ : ∀ id, m.function? id ≠ none → τ id = id)
    (hf : f.placed.Perm (List.range f.instrs.size)) (hg : g.placed.Perm (List.range g.instrs.size))
    (hsynthetic : f.synthetic = g.synthetic) : ∃ σ, Renumbering σ f g := by
  obtain ⟨ρ, rfl, hagree, hall⟩ := h.blocks
  have horder : List.Forall₂ (Naming.Copied ρ (f.naming m) (g.naming m')) f.placed g.placed :=
    List.rel_flatMap hall fun _ _ hb => hb.instrs
  obtain ⟨σ, hσ, hcopied⟩ := exists_map_of_forall₂ (hf.nodup_iff.2 List.nodup_range) horder
  have hmem (id : InstrId) : id ∈ f.placed ↔ id < f.instrs.size := by rw [hf.mem_iff, List.mem_range]
  have halike : (f.naming m).Alike ρ (.ofResults σ) := by
    refine ⟨fun id hid => ?_, fun b hb => ?_, hτ⟩
    · obtain ⟨i, hi, -⟩ := (hagree.legible.named id).1 hid
      obtain ⟨-, -, -, hresult⟩ := hcopied id ((hmem id).2 (Array.getElem?_eq_some_iff.1 hi).1)
      exact (hresult hid).symm
    · obtain ⟨name, hname⟩ := Naming.exists_label hb
      exact (hagree.labels b b name hname (h.labels_eq ▸ hname)).symm
  refine ⟨σ, ?_, bijOn_of_order hf hg hσ, fun id hid => ?_, ?_⟩
  · simp only [header, h.name, h.paramCount, h.linkage, h.variadic, hsynthetic]
  · obtain ⟨i, hi, hi', -⟩ := hcopied id ((hmem id).2 hid)
    have hget : f.instrs[id]? = some i := hi
    have hget' : g.instrs[σ id]? = some (i.rename ρ) := hi'
    rw [hget, hget', Option.map_some, halike.instr (hagree.legible.instrs i (Array.mem_of_getElem? hget))]
  · have hparts := forall₂_eq_map_of_flatMap (fun _ _ hb => hb.instrs.length_eq) hall hσ
    have hends (b : Block) (hb : b ∈ f.blocks.toList) := hagree.legible.ends b (Array.mem_toList_iff.1 hb)
    have hblocks := (List.forall₂_and_left _ _).2 ⟨hends, hparts⟩
    rw [← Array.toList_inj, Array.toList_map]
    refine eq_map_of_forall₂ (hblocks.imp fun b b' hb => ?_)
    obtain ⟨⟨t, ht, hleads⟩, hmirrored, hinstrs⟩ := hb
    cases b' with
    | mk name instrs terminator =>
      have hterminator := hmirrored.terminator
      rw [ht, Option.map_some, halike.terminator hleads] at hterminator
      rw [Block.renumber, ht, Option.map_some, Block.mk.injEq, ← Array.toList_inj, Array.toList_map]
      exact ⟨hmirrored.name, hinstrs, hterminator⟩

end Function

namespace Module
variable {title : String} {m m' : Module}

/-- Without empty places, functions are listed by index. -/
theorem map_fst_live (h : ∀ id < m.functions.size, m.function? id ≠ none) :
    m.live.map (·.1) = List.range m.functions.size := by
  have hsorted : (m.live.map (·.1)).Pairwise (· < ·) := List.pairwise_map.2 m.pairwise_live
  have hmem (id : FuncId) : id ∈ m.live.map (·.1) ↔ id ∈ List.range m.functions.size := by
    rw [List.mem_map, List.mem_range]
    constructor
    · rintro ⟨⟨id', f⟩, hx, rfl⟩
      exact (Array.getElem?_eq_some_iff.1 (Option.join_eq_some_iff.1 (mem_live.1 hx))).1
    · intro hid
      obtain ⟨f, hf⟩ := Option.ne_none_iff_exists'.1 (h id hid)
      exact ⟨(id, f), mem_live.2 hf, rfl⟩
  exact eq_of_pairwise_lt (fun id => id) hsorted List.pairwise_lt_range hmem

theorem forall₂_fst_live (hn : m.Neat title) (hn' : m'.Neat title)
    (hlength : m.live.length = m'.live.length) :
    List.Forall₂ (fun x y : FuncId × Function => x.1 = y.1) m.live m'.live := by
  have hlive := congrArg List.length (map_fst_live hn.full)
  have hlive' := congrArg List.length (map_fst_live hn'.full)
  rw [List.length_map, List.length_range] at hlive hlive'
  have hmap : m.live.map (·.1) = m'.live.map (·.1) := by
    rw [map_fst_live hn.full, map_fst_live hn'.full, ← hlive, ← hlive', hlength]
  rwa [← List.forall₂_eq_eq_eq, List.forall₂_map_left_iff, List.forall₂_map_right_iff] at hmap

/-- Functions that are listed under one name keep their indices. -/
theorem Namesakes.eq_self {τ : FuncId → FuncId} (hτ : Namesakes τ m m')
    (h : List.Forall₂ (fun x y : FuncId × Function => (y.1, y.2.name) = (x.1, x.2.name)) m.live m'.live)
    {id : FuncId} (hid : m.function? id ≠ none) : τ id = id := by
  obtain ⟨f, hf⟩ := Option.ne_none_iff_exists'.1 hid
  have hkeys := eq_map_of_forall₂ (List.forall₂_map_right_iff.2 h)
  have hmem : (id, f.name) ∈ m'.live.map fun y => (y.1, y.2.name) :=
    hkeys ▸ List.mem_map.2 ⟨(id, f), mem_live.2 hf, rfl⟩
  obtain ⟨⟨id', f'⟩, hf', heq⟩ := List.mem_map.1 hmem
  simp only [Prod.mk.injEq] at heq
  obtain ⟨rfl, hname⟩ := heq
  exact (hτ _ _ f.name (by rw [hf, Option.map_some]) (by rw [mem_live.1 hf', Option.map_some, hname])).symm

/-- Equal words come from equal cells and, one by one, from functions that differ in indices only. -/
theorem renumbering_of_textWords (hm : m.Legible) (hm' : m'.Legible) (hn : m.Neat title)
    (hn' : m'.Neat title) (ht' : m'.Tidy)
    (hsynthetic : ∀ x ∈ m.live, ∀ y ∈ m'.live, x.2.name = y.2.name → x.2.synthetic = y.2.synthetic)
    (h : m.textWords = m'.textWords) : m'.globals = m.globals ∧
      List.Forall₂ (fun x y => x.1 = y.1 ∧ ∃ σ, x.2.Renumbering σ y.2) m.live m'.live := by
  obtain ⟨hglobals, hwords⟩ := globals_of_textWords h
  refine ⟨hglobals, ?_⟩
  obtain ⟨τ, hτ⟩ := exists_namesake (fun id => (m.function? id).map (·.name))
    (b := fun id => (m'.function? id).map (·.name)) fun id id' name hid hid' => by
      obtain ⟨f, hf, hname⟩ := Option.map_eq_some_iff.1 hid
      obtain ⟨f', hf', hname'⟩ := Option.map_eq_some_iff.1 hid'
      exact ht'.distinct id id' f f' hf hf' (hname.trans hname'.symm)
  have hstep (x : FuncId × Function) (hx : x ∈ m.live) (y : FuncId × Function) (hy : y ∈ m'.live)
      (s s' : List String) (hs : "\n" :: x.2.textWords m ++ s = "\n" :: y.2.textWords m' ++ s') :
      Function.Copied τ m m' x.2 y.2 ∧ s = s' := by
    obtain ⟨k, names, hneat⟩ := hn'.functions y.1 y.2 (mem_live.1 hy)
    exact Function.textWords_append_inj (hm.functions x.1 x.2 (mem_live.1 hx))
      (hm'.functions y.1 y.2 (mem_live.1 hy)) hneat.unambiguous hτ hglobals (List.cons.inj hs).2
  have hcopied := (forall₂_of_flatMap (· = []) hstep (fun _ _ _ => by simp) (fun _ _ _ => by simp) rfl rfl
    (by simpa only [List.append_nil, functionWords] using hwords)).1
  have hids := forall₂_fst_live hn hn' hcopied.length_eq
  have hfixed (id : FuncId) (hid : m.function? id ≠ none) : τ id = id :=
    Namesakes.eq_self hτ (List.forall₂_iff_zip.2 ⟨hcopied.length_eq, fun hxy => by
      rw [List.forall₂_zip hids hxy, (List.forall₂_zip hcopied hxy).name]⟩) hid
  refine List.forall₂_iff_zip.2 ⟨hcopied.length_eq, fun {x y} hxy => ⟨List.forall₂_zip hids hxy, ?_⟩⟩
  obtain ⟨hx, hy⟩ := List.of_mem_zip hxy
  obtain ⟨_, _, hneat⟩ := hn.functions x.1 x.2 (mem_live.1 hx)
  obtain ⟨_, _, hneat'⟩ := hn'.functions y.1 y.2 (mem_live.1 hy)
  have hcopy := List.forall₂_zip hcopied hxy
  exact hcopy.renumbering hfixed hneat.order hneat'.order (hsynthetic x hx y hy hcopy.name)

end Module

theorem unbroken_of_mem_blockBases {base : String} (h : base ∈ blockBases) : Unbroken base := by
  have hall : blockBases.all (fun w =>
      w.toList.all (fun c => !breaks.contains c) && !w.toList.isEmpty) = true := by decide
  have hbase := List.all_eq_true.1 hall base h
  rw [Bool.and_eq_true] at hbase
  exact unbroken_literal hbase.1 (by simpa using hbase.2)

namespace Function.Neat
variable {f : Function} {k : Nat} {names : List String} {m : Module}

theorem unbroken_label (h : f.Neat k names) {b : Block} (hb : b ∈ f.blocks) : Unbroken b.name := by
  obtain ⟨j, hj⟩ := Array.mem_iff_getElem?.1 hb
  obtain ⟨base, hbase, hname⟩ := h.labelled j b.name (by simp [labels, hj])
  have hword := unbroken_of_mem_blockBases hbase
  rcases hname with hname | hname
  · exact hname ▸ hword
  · exact hname ▸ hword.append (unbroken_toString_nat j)

theorem knows_instr_iff (h : f.Neat k names) (id : InstrId) : (f.naming m).Knows (.instr id) ↔
    ∃ i, f.instrs[id]? = some i ∧ i.resultTy?.isSome = true := by
  constructor
  · rintro ⟨name, hname⟩
    obtain ⟨i, hi, hres, -⟩ := h.resultName_cases hname
    exact ⟨i, hi, hres⟩
  · rintro ⟨i, hi, hres⟩
    exact h.unambiguous.named id i hi hres

theorem resultName?_alloca (h : f.Neat k names) {id : InstrId} {name : String}
    (hi : f.instrs[id]? = some (.alloca name)) : f.resultName? id = some name := by
  obtain ⟨name', hname⟩ := h.unambiguous.named id _ hi rfl
  obtain ⟨i, hi', -, ⟨hslot, -⟩ | ⟨hslot, -⟩⟩ := h.resultName_cases hname
  · rw [← Option.some.inj (hi.symm.trans hi')] at hslot
    exact hname.trans hslot.symm
  · rw [← Option.some.inj (hi.symm.trans hi')] at hslot
    cases hslot

end Function.Neat

namespace Draft
variable {D : Draft} {m : Module} {k : Nat} {names : List String}

theorem Value.knows {v : Operand} (h : D.Value v) (hn : D.function.Neat k names) :
    (D.function.naming m).Knows v := by
  cases v with
  | bool | int => trivial
  | instr id =>
    obtain ⟨i, hi, hres, -⟩ := h
    exact (hn.knows_instr_iff id).2 ⟨i, by simpa using hi, hres⟩
  | param | global => exact h.elim

theorem Address.knows {v : Operand} (h : D.Address m v) (hn : D.function.Neat k names) :
    (D.function.naming m).Knows v := by
  cases v with
  | instr id =>
    obtain ⟨name, hi⟩ := h
    exact (hn.knows_instr_iff id).2 ⟨_, by simpa using hi, rfl⟩
  | global => exact h
  | bool | int | param => exact h.elim

theorem Starts.knows {v : Operand} (h : D.Starts v) : (D.function.naming m).Knows v := by
  rcases h with rfl | ⟨i, rfl, hi⟩
  · trivial
  · exact hi

theorem Fits.reads {i : Instr} (h : D.Fits m i) (hn : D.function.Neat k names) :
    (D.function.naming m).Reads i := by
  cases i with
  | alloca | phi => exact h.elim
  | load => exact Address.knows h hn
  | store => exact ⟨Value.knows h.1 hn, Address.knows h.2 hn⟩
  | arith => exact ⟨Value.knows h.1.1 hn, Value.knows h.1.2 hn⟩
  | compare => exact ⟨Value.knows h.1 hn, Value.knows h.2 hn⟩
  | widen => exact Value.knows h hn
  | call =>
    obtain ⟨⟨f, hf, -⟩, -, hargs⟩ := h
    exact ⟨fun hnone => Option.some_ne_none f (hf.symm.trans hnone),
      fun v hv => Value.knows (hargs v hv) hn⟩

theorem Joins.reads {b : Nat} {i : Instr} (h : D.Joins b i) : (D.function.naming m).Reads i := by
  obtain ⟨z, w, rfl, hedge⟩ := h
  have hlt (c : Nat) (hc : c = z ∨ c = z + 1) : c < D.function.blocks.size := by
    obtain ⟨p, t, hp, -⟩ := (hedge c).2 hc
    rw [size_blocks]
    exact (List.getElem?_eq_some_iff.1 hp).1
  intro x hx
  simp only [List.mem_cons, List.not_mem_nil, or_false] at hx
  rcases hx with rfl | rfl
  · exact ⟨trivial, hlt z (.inl rfl)⟩
  · exact ⟨trivial, hlt (z + 1) (.inr rfl)⟩

theorem Leads.leads {t : Terminator} (h : D.Leads t) (hn : D.function.Neat k names) :
    (D.function.naming m).Leads t := by
  have hlt (b : Nat) (hb : b ∈ t.successors) : b < D.function.blocks.size := by
    rw [size_blocks]
    exact (h.1 b hb).2
  cases t with
  | jump dest => exact hlt dest (by simp [Terminator.successors])
  | branch cond onTrue onFalse =>
    exact ⟨Value.knows h.2 hn, hlt onTrue (by simp [Terminator.successors]),
      hlt onFalse (by simp [Terminator.successors])⟩
  | ret value => exact Value.knows h.2 hn

/-- Every instruction of a finished function refers to what is there. -/
theorem Finished.reads (h : D.Finished m) (hn : D.function.Neat k names) {i : Instr}
    (hi : i ∈ D.function.instrs) : (D.function.naming m).Reads i := by
  obtain ⟨id, hid⟩ := Array.mem_iff_getElem?.1 hi
  have hcode : D.code[id]? = some i := by simpa using hid
  obtain ⟨b, p, hp, hmem⟩ := h.placed id (List.getElem?_eq_some_iff.1 hcode).1
  rcases List.mem_append.1 hmem with hopen | hmem
  · rw [opening] at hopen
    split at hopen
    · rcases List.mem_append.1 hopen with hopen | hopen
      · obtain ⟨⟨slot, init⟩, hslot, rfl⟩ := List.mem_map.1 hopen
        obtain ⟨j, hj⟩ := List.mem_iff_getElem?.1 hslot
        obtain ⟨⟨name, ha⟩, -⟩ := h.slots.written j slot init hj
        rw [Option.some.inj (hcode.symm.trans ha)]
        trivial
      · obtain ⟨⟨slot, init⟩, hslot, rfl⟩ := List.mem_map.1 hopen
        obtain ⟨j, hj⟩ := List.mem_iff_getElem?.1 hslot
        obtain ⟨⟨name, ha⟩, hst, hstart⟩ := h.slots.written j slot init hj
        rw [Option.some.inj (hcode.symm.trans hst)]
        exact ⟨Starts.knows hstart, Address.knows (v := .instr slot) ⟨name, ha⟩ hn⟩
    · cases hopen
  · obtain ⟨l, hl⟩ := List.mem_iff_getElem?.1 hmem
    obtain ⟨i', hi', hcase⟩ := h.instrs b p l id hp hl
    obtain rfl := Option.some.inj (hcode.symm.trans hi')
    rcases hcase with hfits | ⟨-, hjoins⟩
    · exact Fits.reads hfits hn
    · exact Joins.reads hjoins

theorem Finished.leads (h : D.Finished m) (hn : D.function.Neat k names) {b : Block}
    (hb : b ∈ D.function.blocks) : ∃ t, b.terminator = some t ∧ (D.function.naming m).Leads t := by
  obtain ⟨j, hj⟩ := Array.mem_iff_getElem?.1 hb
  rw [function_blocks] at hj
  obtain ⟨p, hp, rfl⟩ := Option.map_eq_some_iff.1 hj
  obtain ⟨t, ht⟩ := Option.ne_none_iff_exists'.1 (h.ended j p hp)
  exact ⟨t, ht, Leads.leads (h.ends j p t hp ht) hn⟩

end Draft

theorem Module.Neat.legible {title : String} {m : Module} (hn : m.Neat title) (ht : m.Tidy) (hc : m.Checked)
    (hnames : ∀ id f, m.function? id = some f → Unbroken f.name) : m.Legible := by
  have hcells : ∀ g ∈ m.globals, Unbroken g.name := fun g hg =>
    unbroken_of_isWord (hn.words g.name (List.mem_map_of_mem (Array.mem_toList_iff.2 hg)))
  refine ⟨hcells, fun id f hf => ?_⟩
  obtain ⟨k, names, hneat⟩ := hn.functions id f hf
  have hplaced : ∀ b ∈ f.blocks, ∀ id ∈ b.instrs, ∃ i, f.instrs[id]? = some i := by
    intro b hb id hid
    have hmem : id ∈ f.placed :=
      List.mem_flatMap.2 ⟨b, Array.mem_toList_iff.2 hb, Array.mem_toList_iff.2 hid⟩
    exact ⟨_, Array.getElem?_eq_getElem (hneat.mem_order.1 hmem)⟩
  have hbody : (∀ i ∈ f.instrs, (f.naming m).Reads i) ∧
      ∀ b ∈ f.blocks, ∃ t, b.terminator = some t ∧ (f.naming m).Leads t := by
    rcases hc id f hf with hd | ⟨D, rfl, hD⟩
    · rw [Function.isDeclaration, Array.isEmpty_iff] at hd
      have hsize : f.instrs.size = 0 := by
        have := hneat.order.length_eq
        simpa [Function.placed, hd] using this.symm
      simp [hd, Array.eq_empty_of_size_eq_zero hsize]
    · exact ⟨fun i hi => hD.reads hneat hi, fun b hb => hD.leads hneat hb⟩
  exact {
    results := fun _ _ hname => hneat.unbroken_resultName hname
    labels := fun _ hb => hneat.unbroken_label hb
    cells := hcells
    functions := hnames
    named := hneat.knows_instr_iff
    slots := fun _ _ hi => hneat.resultName?_alloca hi
    numbers := hneat.unambiguous.params
    apart := ht.cells
    instrs := hbody.1
    placed := hplaced
    ends := hbody.2 }

end Flow

section Programs
variable {p : Program} {m : Module}

/-- What the compiler has made is known by its name. -/
theorem Compiled.synthetic_iff (h : Compiled p m) (hp : p.Compiles) {id : FuncId} {f : Function}
    (hf : m.function? id = some f) : f.synthetic = true ↔ f.name = entryPoint ∨ Reserved f.name := by
  have hname : f.name = f.header.name := rfl
  have hsynthetic : f.synthetic = f.header.synthetic := rfl
  rcases h.functions id f hf with hf | hf | ⟨d, hd, hf⟩
  · simp [hname, hsynthetic, hf, entryPrototype]
  · exact ⟨fun _ => .inr hf.reserved, fun _ => hf.synthetic⟩
  · have hmain : d.name ≠ entryPoint := fun heq => hp.notMain (heq ▸ List.mem_map_of_mem hd)
    simp [hname, hsynthetic, hf, FunctionDef.prototype, hmain, hp.unreserved d hd]

/-- A compiled module that comes from a text. -/
structure Readable (name : String) (m : Module) : Prop where
  neat : m.Neat name
  tidy : m.Tidy
  legible : m.Legible
  synthetic : ∀ id f, m.function? id = some f → (f.synthetic = true ↔ f.name = entryPoint ∨ Reserved f.name)

theorem readable_of_compile {cs : List Char} {name : String} {e : Machine.Engine} {s : Session}
    (hp : parseProgram cs = .ok p) (h : (Session.new name e).compile p = (.ok (), s)) :
    Readable name s.module := by
  obtain ⟨hwords, hparams⟩ := words_of_parseProgram hp
  obtain ⟨hrun, hcompiles, hcompiled, -⟩ := compile_eq_ok h
  have hneat := neat_compileInto hwords hparams hrun
  have htidy := hcompiled.image.tidy
  have hlegible := hneat.legible htidy hcompiled.checked fun id f hf =>
    unbroken_of_isWord (hcompiled.isWord_name hwords hf)
  exact ⟨hneat, htidy, hlegible, fun id f hf => hcompiled.synthetic_iff hcompiles hf⟩

/-- The text of a module tells results and blocks apart, and it determines cells, signatures, blocks and
instructions. All that it leaves open is how the instructions of a function are numbered. -/
theorem render_determines_module {cs cs' : List Char} {p q : Program} {name : String}
    {e e' : Machine.Engine} {s s' : Session} (hp : parseProgram cs = .ok p)
    (hq : parseProgram cs' = .ok q) (h : (Session.new name e).compile p = (.ok (), s))
    (h' : (Session.new name e').compile q = (.ok (), s')) :
    (∀ id f, s.module.function? id = some f → f.Unambiguous) ∧
      (s.module.render = s'.module.render ↔ s.module.globals = s'.module.globals ∧
        List.Forall₂ (fun x y => x.1 = y.1 ∧ ∃ σ, x.2.Renumbering σ y.2) s.module.live s'.module.live) := by
  have hs := readable_of_compile hp h
  have hs' := readable_of_compile hq h'
  refine ⟨fun id f hf => ?_, fun htext => ?_, fun hsame => ?_⟩
  · obtain ⟨k, names, hneat⟩ := hs.neat.functions id f hf
    exact hneat.unambiguous
  · obtain ⟨body, hbody, hwords⟩ := hs.legible.words_render
    obtain ⟨body', hbody', hwords'⟩ := hs'.legible.words_render
    rw [hbody, hbody', hs.neat.title, hs'.neat.title] at htext
    have hsame : s.module.textWords = s'.module.textWords := by
      rw [← hwords, ← hwords', (String.append_right_inj _).1 htext]
    refine (Module.renumbering_of_textWords hs.legible hs'.legible hs.neat hs'.neat hs'.tidy
      (fun x hx y hy hname => ?_) hsame).imp_left Eq.symm
    rw [Bool.eq_iff_iff, hs.synthetic x.1 x.2 (mem_live.1 hx), hs'.synthetic y.1 y.2 (mem_live.1 hy), hname]
  · have hname : s'.module.name = s.module.name := hs'.neat.title.trans hs.neat.title.symm
    exact (Module.render_of_renumbering hs.legible hname hsame.1.symm hsame.2).symm

end Programs

def listing (text : String) : Except Diagnostic (Nat × Except Diagnostic Unit × String) :=
  (parseProgram text.toList).map fun p =>
    (p.length, ((Session.new "m" {}).compile p).1, ((Session.new "m" {}).compile p).2.module.render)

def negatedText : String :=
  "def f(a): return not a; enddef x = f(2); print 0 - x;"

def paddedText : String :=
  "def f(a): 7; return not +a; enddef pass; x = f(2); print -x;"

theorem exists_of_listing {text : String} {k : Nat}
    (h : (listing text).map (fun x => (x.1, x.2.1)) = .ok (k, .ok ())) :
    ∃ p s, parseProgram text.toList = .ok p ∧ p.length = k ∧ (Session.new "m" {}).compile p = (.ok (), s) ∧
      listing text = .ok (k, .ok (), s.module.render) := by
  unfold listing at h ⊢
  cases hp : parseProgram text.toList with
  | error d =>
    rw [hp] at h
    cases h
  | ok p =>
    rw [hp] at h
    simp only [Except.map, Except.ok.injEq, Prod.mk.injEq] at h ⊢
    exact ⟨p, _, rfl, h.1, Prod.ext h.2 rfl, h.1, h.2, rfl⟩

/-- Two programs that are not the same, but have one text when they are compiled. -/
theorem render_determines_negatedText :
    ∃ p q s s', parseProgram negatedText.toList = .ok p ∧ parseProgram paddedText.toList = .ok q ∧ p ≠ q ∧
      (Session.new "m" {}).compile p = (.ok (), s) ∧ (Session.new "m" {}).compile q = (.ok (), s') ∧
      s.module.render = s'.module.render ∧ (∀ id f, s.module.function? id = some f → f.Unambiguous) ∧
      s.module.globals = s'.module.globals ∧
      List.Forall₂ (fun x y => x.1 = y.1 ∧ ∃ σ, x.2.Renumbering σ y.2) s.module.live s'.module.live := by
  have hlistings : (listing negatedText).map (fun x => (x.1, x.2.1)) = .ok (3, .ok ()) ∧
      (listing paddedText).map (fun x => (x.1, x.2.1)) = .ok (4, .ok ()) ∧
      (listing negatedText).map (·.2.2) = (listing paddedText).map (·.2.2) := by
    decide +kernel
  obtain ⟨hnegated, hpadded, hsame⟩ := hlistings
  obtain ⟨p, s, hp, hlength, hs, hlisting⟩ := exists_of_listing hnegated
  obtain ⟨q, s', hq, hlength', hs', hlisting'⟩ := exists_of_listing hpadded
  rw [hlisting, hlisting'] at hsame
  have htext : s.module.render = s'.module.render := Except.ok.inj hsame
  have hne : p ≠ q := by
    rintro rfl
    omega
  obtain ⟨hunambiguous, hmodule⟩ := render_determines_module hp hq hs hs'
  exact ⟨p, q, s, s', hp, hq, hne, hs, hs', htext, hunambiguous, hmodule.1 htext⟩

end IntLang
