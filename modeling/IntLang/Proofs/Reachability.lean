import IntLang.Proofs.Listings
import IntLang.Proofs.VerifiedModules
import Mathlib.Logic.Function.Iterate

/-! What the graph of a function's blocks tells. The search marks a block exactly if there is a path to
it from the entry block, and is done after a number of rounds that the number of blocks bounds. The
predecessors of a block are the blocks that lead to it, each once and in the order of the blocks. -/
namespace IntLang.Flow.Function
variable {f : Function} {seen : Array Bool} {stack : List BlockId} {b c : BlockId}

/-- Control can go from block `b` to block `c`. -/
def Leads (f : Function) (b c : BlockId) : Prop :=
  c ∈ f.successors b

instance (f : Function) (b c : BlockId) : Decidable (f.Leads b c) :=
  inferInstanceAs (Decidable (c ∈ f.successors b))

def HasTargets (f : Function) : Prop :=
  ∀ b < f.blocks.size, ∀ c ∈ f.successors b, c < f.blocks.size

instance (f : Function) : Decidable f.HasTargets :=
  inferInstanceAs (Decidable (∀ b < f.blocks.size, _))

theorem HasTargets.lt (h : f.HasTargets) (hbc : f.Leads b c) : c < f.blocks.size :=
  h b (lt_of_mem_successors hbc) c hbc

@[simp] theorem size_reachFrom (f : Function) (seen : Array Bool) (stack : List BlockId) :
    (f.reachFrom seen stack).size = seen.size := by
  fun_induction reachFrom f seen stack with
  | case1 => rfl
  | case2 _ _ _ _ _ ih => exact ih
  | case3 _ _ _ _ _ ih => rw [ih, Array.size_set]
  | case4 _ _ _ _ ih => exact ih

/-- A block is marked only if it was before, or if a path leads to it from what waits on the stack. -/
theorem path_of_reachFrom (h : (f.reachFrom seen stack)[b]? = some true) :
    seen[b]? = some true ∨ ∃ a ∈ stack, Relation.ReflTransGen f.Leads a b := by
  fun_induction reachFrom f seen stack with
  | case1 => exact .inl h
  | case2 _ _ _ _ _ ih => exact (ih h).imp_right (Exists.imp fun _ => .imp_left (List.mem_cons_of_mem _))
  | case3 seen d stack hd _ ih =>
    rcases ih h with hseen | ⟨a, ha, hpath⟩
    · rw [Array.getElem?_set] at hseen
      split at hseen
      · next hdb => exact .inr ⟨d, List.mem_cons_self, hdb ▸ .refl⟩
      · exact .inl hseen
    · rcases List.mem_append.1 ha with ha | ha
      · exact .inr ⟨d, List.mem_cons_self, hpath.head (List.mem_reverse.1 ha)⟩
      · exact .inr ⟨a, List.mem_cons_of_mem _ ha, hpath⟩
  | case4 _ _ _ _ ih => exact (ih h).imp_right (Exists.imp fun _ => .imp_left (List.mem_cons_of_mem _))

theorem path_of_reachable (h : f.reachable[b]? = some true) :
    ∃ e, f.entry? = some e ∧ Relation.ReflTransGen f.Leads e b := by
  rcases path_of_reachFrom h with hseen | ⟨e, he, hpath⟩
  · rw [Array.getElem?_replicate] at hseen
    split at hseen <;> cases hseen
  · exact ⟨e, Option.mem_toList.1 he, hpath⟩

theorem reachable_of_path (h : f.HasTargets) {e : BlockId} (he : f.entry? = some e)
    (hpath : Relation.ReflTransGen f.Leads e b) : f.reachable[b]? = some true := by
  induction hpath with
  | refl =>
    unfold entry? at he
    split at he
    · cases he
    · next hne =>
      rw [← Option.some.inj he]
      exact reachable_entry (by simpa [isDeclaration] using hne)
  | tail _ hlast ih => exact reachable_successor ih hlast (h.lt hlast)

/-- One round of the search: a block is taken from the stack. If it is there and not marked, it is
marked, and the blocks that it leads to wait in its place. -/
def visit (f : Function) : Array Bool × List BlockId → Array Bool × List BlockId
  | (seen, []) => (seen, [])
  | (seen, b :: stack) =>
    if seen[b]? = some false then (seen.setIfInBounds b true, (f.successors b).reverse ++ stack)
    else (seen, stack)

theorem length_successors (f : Function) (b : BlockId) : (f.successors b).length ≤ 2 := by
  unfold successors
  split
  · next t _ => cases t <;> simp [Terminator.successors]
  · simp

/-- A bound for the rounds that are left. A block that is marked leads to two others at most, and it is
never marked again. -/
def roundsLeft (state : Array Bool × List BlockId) : Nat :=
  state.2.length + 2 * state.1.count false

theorem count_set_of_false (hb : b < seen.size) (h : seen[b] = false) :
    (seen.set b true).count false + 1 = seen.count false := by
  have hpos : 0 < seen.count false := Array.count_pos_iff.2 (h ▸ Array.getElem_mem hb)
  rw [Array.count_set]
  simp only [h]
  change seen.count false - 1 + 0 + 1 = seen.count false
  omega

/-- A round leaves it open what will be marked, and brings the end nearer. -/
theorem visit_cons (f : Function) (seen : Array Bool) (b : BlockId) (stack : List BlockId) :
    f.reachFrom (f.visit (seen, b :: stack)).1 (f.visit (seen, b :: stack)).2 =
        f.reachFrom seen (b :: stack) ∧
      roundsLeft (f.visit (seen, b :: stack)) < roundsLeft (seen, b :: stack) := by
  have hskip : roundsLeft (seen, stack) < roundsLeft (seen, b :: stack) := by
    simp [roundsLeft]
  rw [reachFrom, visit]
  by_cases hb : b < seen.size
  · cases hseen : seen[b] with
    | true =>
      rw [if_neg (by simp [hb, hseen]), dif_pos hb, if_pos hseen]
      exact ⟨rfl, hskip⟩
    | false =>
      have hcount := count_set_of_false hb hseen
      have htwo := f.length_successors b
      rw [if_pos (by simp [hb, hseen]), dif_pos hb, if_neg (by simp [hseen]), Array.setIfInBounds_def,
        dif_pos hb]
      refine ⟨rfl, ?_⟩
      simp only [roundsLeft, List.length_append, List.length_reverse, List.length_cons]
      omega
  · rw [if_neg (by simp [hb]), dif_neg hb]
    exact ⟨rfl, hskip⟩

theorem visits_eq {n : Nat} (h : roundsLeft (seen, stack) ≤ n) :
    f.visit^[n] (seen, stack) = (f.reachFrom seen stack, []) := by
  induction n generalizing seen stack with
  | zero =>
    obtain rfl : stack = [] := List.length_eq_zero_iff.1 (by simp only [roundsLeft] at h; omega)
    rw [reachFrom]
    rfl
  | succ n ih =>
    cases stack with
    | nil =>
      rw [reachFrom]
      exact Function.iterate_fixed rfl _
    | cons b stack =>
      obtain ⟨hsame, hless⟩ := f.visit_cons seen b stack
      rw [Function.iterate_succ_apply, ← hsame]
      exact ih (Nat.le_of_lt_succ (Nat.lt_of_lt_of_le hless h))

def searchStart (f : Function) : Array Bool × List BlockId :=
  (Array.replicate f.blocks.size false, f.entry?.toList)

theorem visits_searchStart {n : Nat} (h : 2 * f.blocks.size < n) :
    f.visit^[n] f.searchStart = (f.reachable, []) := by
  have hlength : f.entry?.toList.length ≤ 1 := by
    cases f.entry? <;> simp
  refine visits_eq ?_
  simp only [roundsLeft, Array.count_replicate_self]
  omega

/-- All sources noted so far are in order, and none comes after `s`. -/
def Ascending (preds : Array (List BlockId)) (s : BlockId) : Prop :=
  ∀ (b : BlockId) ps, preds[b]? = some ps → ps.Pairwise (· < ·) ∧ ∀ a ∈ ps, a ≤ s

namespace Ascending
variable {preds : Array (List BlockId)} {s t : BlockId}

theorem mono (h : Ascending preds s) (hst : s ≤ t) : Ascending preds t := fun b ps hb =>
  (h b ps hb).imp_right fun hle a ha => Nat.le_trans (hle a ha) hst

theorem addPredecessor (h : Ascending preds s) (t : BlockId) :
    Ascending (addPredecessor preds s t) s := by
  intro b ps hb
  rw [Function.addPredecessor, Array.getElem?_modify] at hb
  split at hb
  · obtain ⟨qs, hqs, hps⟩ := Option.map_eq_some_iff.1 hb
    obtain ⟨hsorted, hle⟩ := h b qs hqs
    split at hps
    · exact hps ▸ ⟨hsorted, hle⟩
    · next hnew =>
      have hlt (a : BlockId) (ha : a ∈ qs) : a < s :=
        Nat.lt_of_le_of_ne (hle a ha) fun heq => hnew (heq ▸ ha)
      subst hps
      refine ⟨List.pairwise_append.2 ⟨hsorted, List.pairwise_singleton _ _, fun a ha c hc => ?_⟩,
        fun a ha => ?_⟩
      · exact List.mem_singleton.1 hc ▸ hlt a ha
      · rcases List.mem_append.1 ha with ha | ha
        · exact hle a ha
        · exact Nat.le_of_eq (List.mem_singleton.1 ha)
  · exact h b ps hb

theorem addSource (h : Ascending preds s) (ts : List BlockId) :
    Ascending (ts.foldl (fun preds t => Function.addPredecessor preds s t) preds) s := by
  induction ts generalizing preds with
  | nil => exact h
  | cons t ts ih => exact ih (h.addPredecessor t)

end Ascending

theorem ascending_predecessors (f : Function) : Ascending f.predecessors f.blocks.size := by
  have hfold (n : Nat) : Ascending ((List.range n).foldl (fun preds b =>
      (f.successors b).foldl (fun preds t => addPredecessor preds b t) preds)
      (Array.replicate f.blocks.size [])) n := by
    induction n with
    | zero =>
      intro b ps hb
      rw [List.range_zero, List.foldl_nil, Array.getElem?_replicate] at hb
      split at hb
      · rw [← Option.some.inj hb]
        simp
      · cases hb
    | succ n ih =>
      rw [List.range_succ, List.foldl_append]
      exact (ih.addSource (f.successors n)).mono (Nat.le_succ n)
  exact hfold f.blocks.size

theorem mem_predecessors {ps : List BlockId} (h : f.predecessors[b]? = some ps) :
    c ∈ ps ↔ f.Leads c b := by
  rw [((noted_predecessors f).entry b ps h).2 c]
  exact and_iff_right_of_imp lt_of_mem_successors

/-- In a function whose branches have targets the search ends, and what it has marked then are the blocks
that a path from the entry block leads to. The predecessors of a block are those that lead to it, each
once and in the order of the blocks. -/
theorem reachable_predecessors_exact (h : f.HasTargets) :
    (∀ n, 2 * f.blocks.size < n → f.visit^[n] f.searchStart = (f.reachable, [])) ∧
      f.reachable.size = f.blocks.size ∧
      (∀ b, f.reachable[b]? = some true ↔
        ∃ e, f.entry? = some e ∧ Relation.ReflTransGen f.Leads e b) ∧
      f.predecessors.size = f.blocks.size ∧
      ∀ (b : BlockId) ps, f.predecessors[b]? = some ps →
        ps.Pairwise (· < ·) ∧ ∀ c, c ∈ ps ↔ f.Leads c b := by
  refine ⟨fun n hn => visits_searchStart hn, ?_, fun b => ⟨path_of_reachable, ?_⟩,
    (noted_predecessors f).size, fun b ps hb => ⟨(ascending_predecessors f b ps hb).1, fun c => ?_⟩⟩
  · rw [reachable, size_reachFrom, Array.size_replicate]
  · rintro ⟨e, he, hpath⟩
    exact reachable_of_path h he hpath
  · exact mem_predecessors hb

/-- A function with a loop, a block that leads to itself, a block without an end, and two blocks that
control cannot come to although they lead to one that it can. -/
def knot : Function where
  name := "knot"
  paramCount := 1
  linkage := .internal
  blocks := #[{ name := "entry", terminator := some (.jump 1) },
    { name := "head", terminator := some (.branch (.param 0) 1 2) },
    { name := "body", terminator := some (.branch (.param 0) 1 3) },
    { name := "open" },
    { name := "lost", terminator := some (.jump 3) },
    { name := "spin", terminator := some (.branch (.param 0) 5 4) }]

theorem reachable_predecessors_exact_knot : knot.HasTargets ∧
    (∀ b, knot.reachable[b]? = some true ↔ b < 4) ∧
    knot.predecessors = #[[], [0, 1, 2], [1], [2, 4], [5], [5]] := by
  have htargets : knot.HasTargets := by decide
  obtain ⟨-, -, hmarked, -⟩ := reachable_predecessors_exact htargets
  refine ⟨htargets, fun b => (hmarked b).trans ⟨?_, fun hb => ⟨0, rfl, ?_⟩⟩, by decide⟩
  · rintro ⟨e, he, hpath⟩
    have hclosed : ∀ b < 4, ∀ c ∈ knot.successors b, c < 4 := by decide
    induction hpath with
    | refl => exact Option.some.inj he ▸ by decide
    | tail _ hlast ih => exact hclosed _ ih _ hlast
  · have h1 : Relation.ReflTransGen knot.Leads 0 1 := .single (by decide)
    have h2 : Relation.ReflTransGen knot.Leads 0 2 := h1.tail (by decide)
    have h3 : Relation.ReflTransGen knot.Leads 0 3 := h2.tail (by decide)
    obtain rfl | rfl | rfl | rfl : b = 0 ∨ b = 1 ∨ b = 2 ∨ b = 3 := by omega
    · exact .refl
    · exact h1
    · exact h2
    · exact h3

end IntLang.Flow.Function
