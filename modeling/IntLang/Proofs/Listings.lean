import IntLang.Proofs.EmittedCode
import IntLang.Proofs.ModuleGrowth
import IntLang.Proofs.Processor

/-! Where things stand in a listing: every function that has a body under its symbol, every block of
it that control can reach under its label, and every global cell. No label and no symbol stands there
twice, so what refers to one finds the line it means. -/
namespace IntLang

namespace Flow.Function
variable {f : Function} {seen : Array Bool} {stack : List BlockId} {b c : BlockId}

theorem reachFrom_of_seen (h : seen[b]? = some true) : (f.reachFrom seen stack)[b]? = some true := by
  fun_induction reachFrom f seen stack with
  | case1 => exact h
  | case2 _ _ _ _ _ ih => exact ih h
  | case3 seen c stack hc _ ih =>
    apply ih
    rw [Array.getElem?_set]
    split
    · rfl
    · exact h
  | case4 _ _ _ _ ih => exact ih h

theorem reachFrom_of_mem (h : b ∈ stack) (hb : b < seen.size) :
    (f.reachFrom seen stack)[b]? = some true := by
  fun_induction reachFrom f seen stack with
  | case1 => cases h
  | case2 seen c stack hc hseen ih =>
    rcases List.mem_cons.1 h with rfl | h
    · exact reachFrom_of_seen (by rw [Array.getElem?_eq_getElem hc, hseen])
    · exact ih h hb
  | case3 seen c stack hc _ ih =>
    rcases List.mem_cons.1 h with rfl | h
    · exact reachFrom_of_seen (by simp [hc])
    · exact ih (List.mem_append_right _ h) (by simpa using hb)
  | case4 seen c stack hc ih =>
    rcases List.mem_cons.1 h with rfl | h
    · exact absurd hb hc
    · exact ih h hb

/-- The successors of a marked block are marked in the end, if those that are not marked wait on the
stack. -/
theorem reachFrom_closed (h : ∀ b c : BlockId, seen[b]? = some true → c ∈ f.successors b →
      c < seen.size → seen[c]? = some true ∨ c ∈ stack)
    (hb : (f.reachFrom seen stack)[b]? = some true) (hc : c ∈ f.successors b) (hlt : c < seen.size) :
    (f.reachFrom seen stack)[c]? = some true := by
  fun_induction reachFrom f seen stack with
  | case1 => exact (h b c hb hc hlt).resolve_right List.not_mem_nil
  | case2 seen d stack hd hseen ih =>
    refine ih (fun b c hb hc hlt => ?_) hb hlt
    rcases h b c hb hc hlt with hc | hc
    · exact .inl hc
    · rcases List.mem_cons.1 hc with rfl | hc
      · exact .inl (by rw [Array.getElem?_eq_getElem hd, hseen])
      · exact .inr hc
  | case3 seen d stack hd _ ih =>
    refine ih (fun b c hb hc hlt => ?_) hb (by simpa using hlt)
    rw [Array.size_set] at hlt
    rw [Array.getElem?_set] at hb ⊢
    by_cases hdc : d = c
    · exact .inl (if_pos hdc)
    · rw [if_neg hdc]
      by_cases hdb : d = b
      · exact .inr (List.mem_append_left _ (List.mem_reverse.2 (hdb ▸ hc)))
      · rw [if_neg hdb] at hb
        rcases h b c hb hc hlt with hc | hc
        · exact .inl hc
        · exact .inr (List.mem_append_right _ ((List.mem_cons.1 hc).resolve_left (Ne.symm hdc)))
  | case4 seen d stack hd ih =>
    refine ih (fun b c hb hc hlt => ?_) hb hlt
    rcases h b c hb hc hlt with hc | hc
    · exact .inl hc
    · rcases List.mem_cons.1 hc with rfl | hc
      · exact absurd hlt hd
      · exact .inr hc

theorem exists_entry (h : f.isDeclaration = false) : ∃ blk, f.blocks[0]? = some blk := by
  rw [isDeclaration, Array.isEmpty_eq_false_iff, ← Array.size_pos_iff] at h
  exact ⟨_, Array.getElem?_eq_getElem h⟩

theorem isDeclaration_eq_false {blk : Block} (h : f.blocks[b]? = some blk) : f.isDeclaration = false := by
  rw [isDeclaration, Array.isEmpty_eq_false_iff, ← Array.size_pos_iff]
  exact Nat.lt_of_le_of_lt (Nat.zero_le b) (Array.getElem?_eq_some_iff.1 h).1

theorem reachable_entry (h : f.isDeclaration = false) : f.reachable[0]? = some true := by
  obtain ⟨blk, hblk⟩ := exists_entry h
  apply reachFrom_of_mem
  · rw [isDeclaration] at h
    unfold entry?
    simp [h]
  · simpa using (Array.getElem?_eq_some_iff.1 hblk).1

theorem reachable_successor (hb : f.reachable[b]? = some true) (hc : c ∈ f.successors b)
    (hlt : c < f.blocks.size) : f.reachable[c]? = some true := by
  refine reachFrom_closed (fun b c hb => ?_) hb hc (by simpa using hlt)
  rw [Array.getElem?_replicate] at hb
  split at hb <;> cases hb

end Flow.Function

namespace Assembly
open IntLang.Flow

def Line.isMark : Line → Bool
  | .label _ | .symbol _ => true
  | _ => false

/-- Every mark of a listing is in `P`, and none stands there twice. -/
structure Listing.Marked (ls : Listing) (P : Line → Prop) : Prop where
  distinct : ls.Pairwise fun a b => ∀ l : Line, l.isMark → a = .ok l → b ≠ .ok l
  all : ∀ l : Line, l.isMark → .ok l ∈ ls → P l

def Listing.Unmarked (ls : Listing) : Prop :=
  ∀ l : Line, .ok l ∈ ls → l.isMark = false

theorem Listing.unmarked_code (is : List Ins) : Unmarked (code is) := by
  intro l hl
  obtain ⟨i, -, he⟩ := List.mem_map.1 hl
  rw [← Except.ok.inj he]
  rfl

theorem Listing.unmarked_singleton {l : Line} (h : l.isMark = false) : Unmarked [.ok l] :=
  fun _ hl => Except.ok.inj (List.mem_singleton.1 hl) ▸ h

theorem Listing.unmarked_map {ls : List Line} (h : ∀ l ∈ ls, l.isMark = false) :
    Unmarked (ls.map .ok) := by
  intro l hl
  obtain ⟨l', hl', he⟩ := List.mem_map.1 hl
  exact Except.ok.inj he ▸ h l' hl'

namespace Listing.Marked
variable {a b ls : Listing} {P Q : Line → Prop}

theorem imp (h : ls.Marked P) (hPQ : ∀ l, P l → Q l) : ls.Marked Q :=
  ⟨h.distinct, fun l hl hmem => hPQ l (h.all l hl hmem)⟩

theorem append (ha : a.Marked P) (hb : b.Marked Q) (hPQ : ∀ l, P l → ¬ Q l) :
    (a ++ b).Marked fun l => P l ∨ Q l := by
  constructor
  · rw [List.pairwise_append]
    refine ⟨ha.distinct, hb.distinct, ?_⟩
    rintro x hx y hy l hl rfl rfl
    exact hPQ l (ha.all l hl hx) (hb.all l hl hy)
  · intro l hl hmem
    exact (List.mem_append.1 hmem).imp (ha.all l hl) (hb.all l hl)

theorem of_unmarked (h : ls.Unmarked) : ls.Marked P := by
  constructor
  · rw [List.pairwise_iff_forall_sublist]
    rintro x y hxy l hl rfl
    rw [h l (hxy.subset List.mem_cons_self)] at hl
    cases hl
  · intro l hl hmem
    rw [h l hmem] at hl
    cases hl

theorem single (l : Line) : Marked [.ok l] (· = l) := by
  constructor
  · exact List.pairwise_singleton _ _
  · intro l' _ hmem
    exact Except.ok.inj (List.mem_singleton.1 hmem)

theorem unmarked_append (h : ls.Marked P) (ha : a.Unmarked) : (a ++ ls).Marked P :=
  ((of_unmarked ha (P := fun _ => False)).append h fun _ hno => hno.elim).imp
    fun _ h => h.resolve_left id

theorem append_unmarked (h : ls.Marked P) (hb : b.Unmarked) : (ls ++ b).Marked P :=
  (h.append (of_unmarked hb (P := fun _ => False)) fun _ _ hno => hno).imp
    fun _ h => h.resolve_right id

section Lookup
variable {lines : List Line} {l : Line} (h : Marked (lines.map .ok) P) (hl : l.isMark)
include h hl

theorem idxOf?_eq_some {i : Nat} (hi : lines[i]? = some l) : lines.idxOf? l = some i := by
  obtain ⟨hlt, hget⟩ := List.getElem?_eq_some_iff.1 hi
  rw [List.idxOf?, List.findIdx?_eq_some_iff_getElem]
  refine ⟨hlt, beq_iff_eq.2 hget, fun j hj hbeq => ?_⟩
  have hapart := List.pairwise_iff_getElem.1 h.distinct j i (by simp; omega) (by simpa using hlt) hj
  simp only [List.getElem_map] at hapart
  exact hapart l hl (congrArg _ (beq_iff_eq.1 hbeq)) (congrArg _ hget)

theorem idxOf?_eq_none (hP : ¬ P l) : lines.idxOf? l = none := by
  rw [List.idxOf?_eq_none_iff]
  exact fun hmem => hP (h.all l hl (List.mem_map_of_mem hmem))

end Lookup
end Listing.Marked

namespace Context
variable {c : Context}

/-- The labels that number the edges from `n` to `n'`. -/
def EdgeMark (c : Context) (n n' : Nat) (l : Line) : Prop :=
  ∃ k, n ≤ k ∧ k < n' ∧ l = .label (.edge c.id k)

/-- The marks of a function. -/
def Owns (c : Context) (l : Line) : Prop :=
  l = .symbol c.function.name ∨ (∃ b ∈ c.reachableBlocks.map (·.1), l = .label (.block c.id b)) ∨
    ∃ k, l = .label (.edge c.id k)

theorem Owns.disjoint {d : Context} {l : Line} (hid : c.id ≠ d.id)
    (hname : c.function.name ≠ d.function.name) (hc : c.Owns l) : ¬ d.Owns l := by
  rcases hc with rfl | ⟨b, -, rfl⟩ | ⟨k, rfl⟩
  · rintro (he | ⟨b, -, he⟩ | ⟨k, he⟩)
    · exact hname (Line.symbol.inj he)
    · cases he
    · cases he
  · rintro (he | ⟨b', -, he⟩ | ⟨k, he⟩)
    · cases he
    · exact hid (Label.block.inj (Line.label.inj he)).1
    · cases he
  · rintro (he | ⟨b, -, he⟩ | ⟨k', he⟩)
    · cases he
    · cases he
    · exact hid (Label.edge.inj (Line.label.inj he)).1

section Blocks
variable {n n' : Nat} {ls : Listing} {b : BlockId} {blk : Block}

theorem Closes.marked {t : Terminator} (h : c.Closes b n t ls n') : n ≤ n' ∧ ls.Marked (c.EdgeMark n n') := by
  cases h with
  | jump | ret | direct => exact ⟨Nat.le_refl _, .of_unmarked (Listing.unmarked_code _)⟩
  | fork =>
    refine ⟨Nat.le_succ _, ?_⟩
    rw [List.append_cons]
    refine (((Listing.Marked.single _).unmarked_append (Listing.unmarked_code _)).append_unmarked
      (Listing.unmarked_code _)).imp fun l hl => ?_
    exact ⟨n, Nat.le_refl _, Nat.lt_succ_self _, hl⟩

theorem unmarked_instr {id : InstrId} {i : Instr} (h : c.instr id i = some ls) : ls.Unmarked := by
  rcases instr_cases h with ⟨is, rfl, -⟩ | rfl
  · exact Listing.unmarked_code is
  · intro l hl
    cases List.mem_singleton.1 hl

theorem unmarked_body {lss : List Listing} (h : (c.instrsOf b).mapM (fun x => c.instr x.1 x.2) = some lss) :
    Listing.Unmarked lss.flatten := by
  intro l hl
  obtain ⟨ls, hls, hl⟩ := List.mem_flatten.1 hl
  obtain ⟨x, -, hx⟩ := exists_of_forall₂ (forall₂_of_mapM h) hls
  exact unmarked_instr hx l hl

theorem marked_block (h : c.block b blk n = some (ls, n')) :
    n ≤ n' ∧ ls.Marked fun l => l = .label (.block c.id b) ∨ c.EdgeMark n n' l := by
  obtain ⟨lss, last, hlss, rfl, hlast⟩ := block_cases h
  have hend : n ≤ n' ∧ last.Marked (c.EdgeMark n n') := by
    rcases hlast with ⟨t, -, ht⟩ | ⟨-, rfl, rfl⟩
    · exact (terminator_cases ht).marked
    · refine ⟨Nat.le_refl _, .of_unmarked fun l hl => ?_⟩
      cases List.mem_singleton.1 hl
  refine ⟨hend.1, (Listing.Marked.single _).append (hend.2.unmarked_append (unmarked_body hlss)) ?_⟩
  rintro l rfl ⟨k, -, -, hk⟩
  cases hk

theorem marked_blocks {bs : List (BlockId × Block)} (hn : (bs.map (·.1)).Nodup)
    (hls : c.blocks bs n = some (ls, n')) :
    n ≤ n' ∧ ls.Marked fun l =>
      (∃ b ∈ bs.map (·.1), l = .label (.block c.id b)) ∨ c.EdgeMark n n' l := by
  induction bs generalizing n ls with
  | nil =>
    obtain ⟨rfl, rfl⟩ := Prod.mk.inj (Option.some.inj hls)
    exact ⟨Nat.le_refl _, .of_unmarked (Listing.unmarked_code [])⟩
  | cons x bs ih =>
    obtain ⟨⟨first, k⟩, hfirst, hrest⟩ := Option.bind_eq_some_iff.1 hls
    obtain ⟨⟨others, k'⟩, hothers, heq⟩ := Option.bind_eq_some_iff.1 hrest
    obtain ⟨rfl, rfl⟩ := Prod.mk.inj (Option.some.inj heq)
    rw [List.map_cons, List.nodup_cons] at hn
    obtain ⟨hle, hm⟩ := marked_block hfirst
    obtain ⟨hle', hm'⟩ := ih hn.2 hothers
    refine ⟨Nat.le_trans hle hle', (hm.append hm' ?_).imp ?_⟩
    · rintro l (rfl | ⟨j, -, hj, rfl⟩) (⟨b, hb, he⟩ | ⟨j', hj', -, he⟩)
      · obtain ⟨-, rfl⟩ := Label.block.inj (Line.label.inj he)
        exact hn.1 hb
      · cases he
      · cases he
      · obtain ⟨-, rfl⟩ := Label.edge.inj (Line.label.inj he)
        omega
    · rintro l ((rfl | ⟨j, hj, hj', rfl⟩) | (⟨b, hb, rfl⟩ | ⟨j, hj, hj', rfl⟩))
      · exact .inl ⟨x.1, List.mem_cons_self, rfl⟩
      · exact .inr ⟨j, hj, Nat.lt_of_lt_of_le hj' hle', rfl⟩
      · exact .inl ⟨b, List.mem_cons_of_mem _ hb, rfl⟩
      · exact .inr ⟨j, Nat.le_trans hle hj, hj', rfl⟩

theorem nodup_reachableBlocks (c : Context) : (c.reachableBlocks.map (·.1)).Nodup := by
  have hlt : c.reachableBlocks.Pairwise (·.1 < ·.1) := by
    refine (Module.pairwise_zipIdx c.function.blocks.toList).filterMap _ ?_
    rintro ⟨p, i⟩ ⟨q, j⟩ hij x hx y hy
    dsimp only at hx hy
    split at hx
    · split at hy
      · rw [← Option.some.inj hx, ← Option.some.inj hy]
        exact hij
      · cases hy
    · cases hx
  exact List.pairwise_map.2 (hlt.imp Nat.ne_of_lt)

theorem reachableBlocks_eq (hb : c.function.blocks[0]? = some blk)
    (hr : c.function.reachable[0]? = some true) : ∃ rest, c.reachableBlocks = (0, blk) :: rest := by
  rw [← Array.getElem?_toList] at hb
  unfold reachableBlocks
  cases hl : c.function.blocks.toList with
  | nil =>
    rw [hl] at hb
    cases hb
  | cons first others =>
    rw [hl] at hb
    obtain rfl := Option.some.inj hb
    simp [hr]

theorem definition_eq (h : c.definition n = some (ls, n')) :
    ∃ (head : List Line) (body : Listing), c.blocks c.reachableBlocks n = some (body, n') ∧
      (∀ l ∈ head, l = .global c.function.name ∨ l = .alignCode) ∧
      ls = head.map Except.ok ++
        Except.ok (Line.symbol c.function.name) :: (code c.prologue ++ (body ++ [Except.ok Line.blank])) := by
  obtain ⟨⟨body, k⟩, hbody, heq⟩ := Option.bind_eq_some_iff.1 h
  obtain ⟨rfl, rfl⟩ := Prod.mk.inj (Option.some.inj heq)
  refine ⟨(if c.function.linkage = .external then [Line.global c.function.name] else []) ++ [Line.alignCode],
    body, hbody, ?_, by simp⟩
  intro l hl
  rcases List.mem_append.1 hl with hl | hl
  · split at hl
    · exact .inl (List.mem_singleton.1 hl)
    · cases hl
  · exact .inr (List.mem_singleton.1 hl)

theorem marked_definition (h : c.definition n = some (ls, n')) : ls.Marked c.Owns := by
  obtain ⟨head, body, hbody, hhead, rfl⟩ := definition_eq h
  obtain ⟨-, hm⟩ := marked_blocks c.nodup_reachableBlocks hbody
  have hbody := (hm.append_unmarked (Listing.unmarked_singleton (l := .blank) rfl)).unmarked_append
    (Listing.unmarked_code c.prologue)
  refine (((Listing.Marked.single (.symbol c.function.name)).append hbody ?_).unmarked_append
    (Listing.unmarked_map fun l hl => by rcases hhead l hl with rfl | rfl <;> rfl)).imp ?_
  · rintro l rfl (⟨b, -, he⟩ | ⟨k, -, -, he⟩)
    · cases he
    · cases he
  · rintro l (rfl | ⟨b, hb, rfl⟩ | ⟨k, -, -, rfl⟩)
    · exact .inl rfl
    · exact .inr (.inl ⟨b, hb, rfl⟩)
    · exact .inr (.inr ⟨k, rfl⟩)

theorem blocks_head {bs : List (BlockId × Block)} (h : c.blocks bs n = some (ls, n')) :
    ls = [] ∨ ∃ b rest, ls = .ok (.label (.block c.id b)) :: rest := by
  cases bs with
  | nil =>
    obtain ⟨rfl, rfl⟩ := Prod.mk.inj (Option.some.inj h)
    exact .inl rfl
  | cons x bs =>
    obtain ⟨⟨first, k⟩, hfirst, hrest⟩ := Option.bind_eq_some_iff.1 h
    obtain ⟨⟨others, k'⟩, -, heq⟩ := Option.bind_eq_some_iff.1 hrest
    obtain ⟨rfl, rfl⟩ := Prod.mk.inj (Option.some.inj heq)
    obtain ⟨lss, last, -, rfl, -⟩ := block_cases hfirst
    exact .inr ⟨x.1, _, rfl⟩

/-- Every block that is emitted stands somewhere, and another one follows if anything does. -/
theorem blocks_split {bs : List (BlockId × Block)}
    (h : c.blocks bs n = some (ls, n')) {x : BlockId × Block} (hx : x ∈ bs) :
    ∃ pre first post k k', c.block x.1 x.2 k = some (first, k') ∧ ls = pre ++ (first ++ post) ∧
      (post = [] ∨ ∃ b rest, post = .ok (.label (.block c.id b)) :: rest) := by
  induction bs generalizing n ls with
  | nil => cases hx
  | cons y bs ih =>
    obtain ⟨⟨first, k⟩, hfirst, hrest⟩ := Option.bind_eq_some_iff.1 h
    obtain ⟨⟨others, k'⟩, hothers, heq⟩ := Option.bind_eq_some_iff.1 hrest
    obtain ⟨rfl, rfl⟩ := Prod.mk.inj (Option.some.inj heq)
    rcases List.mem_cons.1 hx with rfl | hx
    · exact ⟨[], first, others, n, k, hfirst, rfl, blocks_head hothers⟩
    · obtain ⟨pre, ls, post, j, j', hls, rfl, hpost⟩ := ih hothers hx
      exact ⟨first ++ pre, ls, post, j, j', hls, (List.append_assoc ..).symm, hpost⟩

/-- Every line of emitted blocks stands in one of them. -/
theorem mem_blocks {bs : List (BlockId × Block)}
    (h : c.blocks bs n = some (ls, n')) {l : Except EmitError Line} (hl : l ∈ ls) :
    ∃ x ∈ bs, ∃ first k k', c.block x.1 x.2 k = some (first, k') ∧ l ∈ first ∧ first ⊆ ls := by
  induction bs generalizing n ls with
  | nil =>
    obtain ⟨rfl, rfl⟩ := Prod.mk.inj (Option.some.inj h)
    cases hl
  | cons y bs ih =>
    obtain ⟨⟨first, k⟩, hfirst, hrest⟩ := Option.bind_eq_some_iff.1 h
    obtain ⟨⟨others, k'⟩, hothers, heq⟩ := Option.bind_eq_some_iff.1 hrest
    obtain ⟨rfl, rfl⟩ := Prod.mk.inj (Option.some.inj heq)
    rcases List.mem_append.1 hl with hl | hl
    · exact ⟨y, List.mem_cons_self, first, n, k, hfirst, hl, fun _ h => List.mem_append_left _ h⟩
    · obtain ⟨x, hx, ls, j, j', hls, hin, hsub⟩ := ih hothers hl
      exact ⟨x, List.mem_cons_of_mem _ hx, ls, j, j', hls, hin,
        fun _ h => List.mem_append_right _ (hsub h)⟩

/-- From line `pc` on stands the code of block `b` from its `k`th instruction on. -/
def Continues (c : Context) (lines : List Line) (b : BlockId) (k pc : Nat) : Prop :=
  ∃ blk t lss last n n', c.function.blocks[b]? = some blk ∧ blk.terminator = some t ∧
    ((c.instrsOf b).drop k).mapM (fun x => c.instr x.1 x.2) = some lss ∧
    c.terminator b n t = some (last, n') ∧ Lies lines pc (lss.flatten ++ last)

namespace Continues
variable {lines : List Line} {b : BlockId} {k pc : Nat}

theorem next (h : c.Continues lines b k pc) {id : InstrId} {i : Instr} {is : List Ins}
    (hk : (c.instrsOf b)[k]? = some (id, i)) (hi : c.instr id i = some (code is)) :
    Lies lines pc (code is) ∧ c.Continues lines b (k + 1) (pc + is.length) := by
  obtain ⟨blk, t, lss, last, n, n', hb, ht, hlss, hlast, hlies⟩ := h
  obtain ⟨hlt, hget⟩ := List.getElem?_eq_some_iff.1 hk
  rw [List.drop_eq_getElem_cons hlt, hget, List.mapM_cons] at hlss
  simp only [hi, Option.pure_def, Option.bind_eq_bind, Option.bind_some] at hlss
  obtain ⟨rest, hrest, heq⟩ := Option.bind_eq_some_iff.1 hlss
  obtain rfl := Option.some.inj heq
  rw [List.flatten_cons, List.append_assoc, Lies.append_iff] at hlies
  refine ⟨hlies.1, blk, t, rest, last, n, n', hb, ht, hrest, hlast, ?_⟩
  simpa [code] using hlies.2

theorem last (h : c.Continues lines b k pc) (hk : (c.instrsOf b).length ≤ k) :
    ∃ blk t ls n n', c.function.blocks[b]? = some blk ∧ blk.terminator = some t ∧
      c.terminator b n t = some (ls, n') ∧ Lies lines pc ls := by
  obtain ⟨blk, t, lss, ls, n, n', hb, ht, hlss, hlast, hlies⟩ := h
  rw [List.drop_eq_nil_of_le hk] at hlss
  obtain rfl := Option.some.inj hlss
  exact ⟨blk, t, ls, n, n', hb, ht, hlast, hlies⟩

end Continues
end Blocks

/-- A block whose lines are all there has an end, and its code follows its label. -/
theorem continues {lines : List Line} {b : BlockId} {blk : Block} {n n' pc : Nat} {ls : Listing}
    (hb : c.function.blocks[b]? = some blk) (hls : c.block b blk n = some (ls, n'))
    (hlies : Lies lines pc ls) :
    lines[pc]? = some (.label (c.blockLabel b)) ∧ c.Continues lines b 0 (pc + 1) := by
  obtain ⟨lss, last, hlss, rfl, hlast⟩ := block_cases hls
  rw [Lies.cons_iff] at hlies
  rcases hlast with ⟨t, ht, hlast⟩ | ⟨-, -, rfl⟩
  · exact ⟨hlies.1, blk, t, lss, last, n, n', hb, ht, hlss, hlast, hlies.2⟩
  · exact absurd (List.mem_append_right _ List.mem_cons_self) (hlies.2.error_notMem _)

end Context

section Modules
variable {m : Module} {lines : List Line} {ls : Listing} {n : Nat} {fs : List (FuncId × Function)}
  {id : FuncId} {f : Function}

theorem marked_functions (hd : fs.Pairwise fun x y => x.1 ≠ y.1 ∧ x.2.name ≠ y.2.name)
    (hls : functions m fs n = some ls) :
    ls.Marked fun l => ∃ x ∈ fs, x.2.isDeclaration = false ∧ (Context.ofFunction m x.1 x.2).Owns l := by
  induction fs generalizing n ls with
  | nil =>
    obtain rfl := Option.some.inj hls
    exact .of_unmarked (Listing.unmarked_code [])
  | cons x fs ih =>
    obtain ⟨id, f⟩ := x
    obtain ⟨hapart, hd⟩ := List.pairwise_cons.1 hd
    have hold {k : Nat} {others : Listing} (hothers : functions m fs k = some others) := ih hd hothers
    rw [functions] at hls
    split at hls
    · obtain ⟨others, hothers, heq⟩ := Option.bind_eq_some_iff.1 hls
      obtain rfl := Option.some.inj heq
      refine ((hold hothers).unmarked_append ?_).imp ?_
      · split
        · exact Listing.unmarked_singleton rfl
        · exact Listing.unmarked_code []
      · rintro l ⟨y, hy, hl⟩
        exact ⟨y, List.mem_cons_of_mem _ hy, hl⟩
    · next hdecl =>
      obtain ⟨⟨first, k⟩, hfirst, hrest⟩ := Option.bind_eq_some_iff.1 hls
      obtain ⟨others, hothers, heq⟩ := Option.bind_eq_some_iff.1 hrest
      obtain rfl := Option.some.inj heq
      have hmarked := Context.marked_definition (c := .ofFunction m id f) hfirst
      refine (hmarked.append (hold hothers) ?_).imp ?_
      · rintro l hl ⟨y, hy, -, hl'⟩
        exact Context.Owns.disjoint (hapart y hy).1 (hapart y hy).2 hl hl'
      · rintro l (hl | ⟨y, hy, hl⟩)
        · exact ⟨(id, f), List.mem_cons_self, Bool.eq_false_iff.2 hdecl, hl⟩
        · exact ⟨y, List.mem_cons_of_mem _ hy, hl⟩

theorem functions_split (h : functions m fs n = some ls) (hx : (id, f) ∈ fs)
    (hd : f.isDeclaration = false) : ∃ pre first post k k',
      (Context.ofFunction m id f).definition k = some (first, k') ∧ ls = pre ++ (first ++ post) := by
  induction fs generalizing n ls with
  | nil => cases hx
  | cons y fs ih =>
    obtain ⟨id', f'⟩ := y
    rw [functions] at h
    split at h
    · next hd' =>
      obtain ⟨others, hothers, heq⟩ := Option.bind_eq_some_iff.1 h
      obtain rfl := Option.some.inj heq
      rcases List.mem_cons.1 hx with he | hx
      · obtain ⟨rfl, rfl⟩ := Prod.mk.inj he
        rw [hd] at hd'
        cases hd'
      · obtain ⟨pre, ls, post, j, j', hls, rfl⟩ := ih hothers hx
        exact ⟨_, ls, post, j, j', hls, (List.append_assoc ..).symm⟩
    · obtain ⟨⟨first, k⟩, hfirst, hrest⟩ := Option.bind_eq_some_iff.1 h
      obtain ⟨others, hothers, heq⟩ := Option.bind_eq_some_iff.1 hrest
      obtain rfl := Option.some.inj heq
      rcases List.mem_cons.1 hx with he | hx
      · obtain ⟨rfl, rfl⟩ := Prod.mk.inj he
        exact ⟨[], first, others, n, k, hfirst, rfl⟩
      · obtain ⟨pre, ls, post, j, j', hls, rfl⟩ := ih hothers hx
        exact ⟨first ++ pre, ls, post, j, j', hls, (List.append_assoc ..).symm⟩

/-- A line belongs to a symbol that may stay unresolved, or it stands in a function. -/
theorem mem_functions (h : functions m fs n = some ls) {l : Except EmitError Line} (hl : l ∈ ls) :
    (∃ x ∈ fs, l = .ok (.weak x.2.name)) ∨ ∃ x ∈ fs, x.2.isDeclaration = false ∧ ∃ first k k',
      (Context.ofFunction m x.1 x.2).definition k = some (first, k') ∧ l ∈ first ∧ first ⊆ ls := by
  induction fs generalizing n ls with
  | nil =>
    obtain rfl := Option.some.inj h
    cases hl
  | cons y fs ih =>
    obtain ⟨id, f⟩ := y
    have hold {k : Nat} {first others : Listing} (hothers : functions m fs k = some others)
        (hl : l ∈ others) : (∃ x ∈ (id, f) :: fs, l = .ok (.weak x.2.name)) ∨
          ∃ x ∈ (id, f) :: fs, x.2.isDeclaration = false ∧ ∃ ls k k',
            (Context.ofFunction m x.1 x.2).definition k = some (ls, k') ∧ l ∈ ls ∧ ls ⊆ first ++ others := by
      rcases ih hothers hl with ⟨x, hx, he⟩ | ⟨x, hx, hd, ls, j, j', hls, hin, hsub⟩
      · exact .inl ⟨x, List.mem_cons_of_mem _ hx, he⟩
      · exact .inr ⟨x, List.mem_cons_of_mem _ hx, hd, ls, j, j', hls, hin,
          fun _ h => List.mem_append_right _ (hsub h)⟩
    rw [functions] at h
    split at h
    · obtain ⟨others, hothers, heq⟩ := Option.bind_eq_some_iff.1 h
      obtain rfl := Option.some.inj heq
      rcases List.mem_append.1 hl with hl | hl
      · split at hl
        · exact .inl ⟨(id, f), List.mem_cons_self, List.mem_singleton.1 hl⟩
        · cases hl
      · exact hold hothers hl
    · next hd =>
      obtain ⟨⟨first, k⟩, hfirst, hrest⟩ := Option.bind_eq_some_iff.1 h
      obtain ⟨others, hothers, heq⟩ := Option.bind_eq_some_iff.1 hrest
      obtain rfl := Option.some.inj heq
      rcases List.mem_append.1 hl with hl | hl
      · exact .inr ⟨(id, f), List.mem_cons_self, Bool.eq_false_iff.2 hd, first, n, k, hfirst, hl,
          fun _ h => List.mem_append_left _ h⟩
      · exact hold hothers hl

def cellLines (g : Global) : List Line :=
  [.label (.global g.name), .long g.init, .blank]

theorem marked_cells {gs : List Global} (hn : (gs.map (·.name)).Nodup) :
    Listing.Marked ((gs.flatMap cellLines).map .ok) fun l => ∃ g ∈ gs, l = .label (.global g.name) := by
  induction gs with
  | nil => exact .of_unmarked (Listing.unmarked_code [])
  | cons g gs ih =>
    obtain ⟨hnot, hn⟩ := List.nodup_cons.1 hn
    have hrest : Listing.Unmarked (([.long g.init, .blank] : List Line).map .ok) :=
      Listing.unmarked_map (by simp [Line.isMark])
    have hfirst := (Listing.Marked.single (.label (.global g.name))).append_unmarked hrest
    rw [List.flatMap_cons, List.map_append]
    refine (hfirst.append (ih hn) ?_).imp ?_
    · rintro l rfl ⟨g', hg', he⟩
      exact hnot (List.mem_map.2 ⟨g', hg', (Label.global.inj (Line.label.inj he)).symm⟩)
    · rintro l (rfl | ⟨g', hg', rfl⟩)
      · exact ⟨g, List.mem_cons_self, rfl⟩
      · exact ⟨g', List.mem_cons_of_mem _ hg', rfl⟩

theorem cells_append {a b : List Line} (h : ∀ name, .label (.global name) ∉ a) :
    cells (a ++ b) = cells b := by
  induction a with
  | nil => rfl
  | cons l a ih =>
    rw [List.cons_append, cells]
    · exact ih fun name hmem => h name (List.mem_cons_of_mem _ hmem)
    · rintro name n rest rfl -
      exact h name List.mem_cons_self

theorem cells_flatMap (gs : List Global) (x : String) :
    cells (gs.flatMap cellLines) x = (gs.findIdx? (·.name == x)).bind fun g => (gs.map (·.init))[g]? := by
  induction gs with
  | nil => rfl
  | cons g gs ih =>
    rw [List.flatMap_cons, List.findIdx?_cons]
    simp only [cellLines, List.cons_append, List.nil_append, cells]
    by_cases hx : x = g.name
    · simp [hx]
    · rw [if_neg hx, if_neg (by simpa using Ne.symm hx)]
      simpa [Option.bind_map] using ih

theorem dataLines_eq (m : Module) : ∃ head, dataLines m = head ++ m.globals.toList.flatMap cellLines ∧
    ∀ l ∈ head, l.isMark = false := by
  unfold dataLines
  split
  · next hempty =>
    rw [Array.isEmpty_iff] at hempty
    exact ⟨[], by simp [hempty], fun l hl => (List.not_mem_nil hl).elim⟩
  · exact ⟨[.data, .alignData], rfl, by simp [Line.isMark]⟩

theorem marked_dataLines (hn : (m.globals.toList.map (·.name)).Nodup) :
    Listing.Marked ((dataLines m).map .ok) fun l =>
      ∃ g ∈ m.globals.toList, l = .label (.global g.name) := by
  obtain ⟨head, heq, hhead⟩ := dataLines_eq m
  rw [heq, List.map_append]
  exact (marked_cells hn).unmarked_append (Listing.unmarked_map hhead)

theorem cells_dataLines (m : Module) (x : String) :
    cells (dataLines m) x = (m.findGlobal? x).bind fun g => (m.globals.map (·.init))[g]? := by
  obtain ⟨head, heq, hhead⟩ := dataLines_eq m
  have hnone (name : String) : .label (.global name) ∉ head := fun hmem =>
    Bool.noConfusion (hhead _ hmem)
  rw [heq, cells_append hnone, cells_flatMap, Module.findGlobal?]
  cases m.globals
  simp

/-- Lines that have been emitted for a module in which a name belongs to one function and to one cell. -/
structure Listed (m : Module) (lines : List Line) : Prop where
  distinct : m.Distinct
  nodup_cells : (m.globals.toList.map (·.name)).Nodup
  listing : listing? m = some (lines.map .ok)

namespace Listed
variable (h : Listed m lines)
include h

theorem lines_eq : ∃ body, functions m m.live 0 = some body ∧
    lines.map .ok =
      [Except.ok Line.opening, .ok .code] ++ (body ++ ([Except.ok Line.blank] ++ (dataLines m).map .ok)) := by
  obtain ⟨body, hbody, heq⟩ := Option.bind_eq_some_iff.1 h.listing
  refine ⟨body, hbody, ?_⟩
  rw [← Option.some.inj heq]
  simp

theorem marked_body {body : Listing} (hbody : functions m m.live 0 = some body) :
    body.Marked fun l => ∃ id f, m.function? id = some f ∧ f.isDeclaration = false ∧
      (Context.ofFunction m id f).Owns l := by
  have hd : m.live.Pairwise fun x y => x.1 ≠ y.1 ∧ x.2.name ≠ y.2.name := by
    refine m.pairwise_live.imp_of_mem fun {x y} hx hy hlt => ?_
    refine ⟨Nat.ne_of_lt hlt, fun hname => Nat.ne_of_lt hlt ?_⟩
    exact h.distinct x.1 y.1 x.2 y.2 (mem_live.1 hx) (mem_live.1 hy) hname
  refine (marked_functions hd hbody).imp ?_
  rintro l ⟨x, hx, hdecl, hl⟩
  exact ⟨x.1, x.2, mem_live.1 hx, hdecl, hl⟩

theorem marked : Listing.Marked (lines.map .ok) fun l =>
    (∃ id f, m.function? id = some f ∧ f.isDeclaration = false ∧
      (Context.ofFunction m id f).Owns l) ∨ ∃ g ∈ m.globals.toList, l = .label (.global g.name) := by
  obtain ⟨body, hbody, heq⟩ := h.lines_eq
  have hhead : Listing.Unmarked (([.opening, .code] : List Line).map .ok) :=
    Listing.unmarked_map (by simp [Line.isMark])
  have hcells := (marked_dataLines h.nodup_cells).unmarked_append
    (Listing.unmarked_singleton (l := .blank) rfl)
  rw [heq]
  refine ((h.marked_body hbody).append hcells ?_).unmarked_append hhead
  rintro l ⟨id, f, -, -, rfl | ⟨b, -, rfl⟩ | ⟨k, rfl⟩⟩ ⟨g, -, he⟩ <;> cases he

/-- A label or symbol is found where it stands. -/
theorem idxOf?_eq {i : Nat} {l : Line} (hl : l.isMark) (hi : lines[i]? = some l) :
    lines.idxOf? l = some i :=
  h.marked.idxOf?_eq_some hl hi

/-- Functions that are only declared are not there. -/
theorem foreign (hf : m.function? id = some f) (hd : f.isDeclaration = true) :
    lines.idxOf? (.symbol f.name) = none := by
  apply h.marked.idxOf?_eq_none rfl
  rintro (⟨j, g, hg, hd', he | ⟨b, -, he⟩ | ⟨k, he⟩⟩ | ⟨g, -, he⟩)
  · obtain rfl := h.distinct id j f g hf hg (Line.symbol.inj he)
    obtain rfl := Option.some.inj (hf.symm.trans hg)
    rw [hd] at hd'
    cases hd'
  · cases he
  · cases he
  · cases he

theorem cells_eq (x : String) :
    cells lines x = (m.findGlobal? x).bind fun g => (m.globals.map (·.init))[g]? := by
  obtain ⟨body, hbody, heq⟩ := h.lines_eq
  have hmarks := h.marked_body hbody
  obtain ⟨head, tail, rfl, hhead, htail⟩ := List.map_eq_append_iff.1 heq
  obtain ⟨shown, rest, rfl, rfl, hrest⟩ := List.map_eq_append_iff.1 htail
  obtain ⟨blank, data, rfl, hblank, hdata⟩ := List.map_eq_append_iff.1 hrest
  obtain rfl : head = [.opening, .code] := map_ok_inj hhead
  obtain rfl : blank = [.blank] := map_ok_inj hblank
  obtain rfl := map_ok_inj hdata
  rw [cells_append (by simp), cells_append, cells_append (by simp), cells_dataLines]
  intro name hmem
  obtain ⟨id, f, -, -, he | ⟨b, -, he⟩ | ⟨k, he⟩⟩ := hmarks.all _ rfl (List.mem_map_of_mem hmem) <;>
    cases he

theorem lies_definition (hf : m.function? id = some f) (hd : f.isDeclaration = false) :
    ∃ pc ls n n', (Context.ofFunction m id f).definition n = some (ls, n') ∧ Lies lines pc ls := by
  obtain ⟨body, hbody, heq⟩ := h.lines_eq
  obtain ⟨pre, ls, post, n, n', hls, rfl⟩ := functions_split hbody (mem_live.2 hf) hd
  rw [List.append_assoc, List.append_assoc, ← List.append_assoc _ pre] at heq
  exact ⟨_, ls, n, n', hls, .of_eq heq⟩

/-- A function stands under its symbol, and its entry code leads to its entry block. -/
theorem function (hf : m.function? id = some f) (hd : f.isDeclaration = false) :
    ∃ pc, lines.idxOf? (.symbol f.name) = some pc ∧ lines[pc]? = some (.symbol f.name) ∧
      Lies lines (pc + 1) (code (Context.ofFunction m id f).prologue) ∧
      ∃ pc', pc' = pc + 1 + (Context.ofFunction m id f).prologue.length ∧
        lines[pc']? = some (.label (.block id 0)) ∧
        (Context.ofFunction m id f).Continues lines 0 0 (pc' + 1) := by
  obtain ⟨pc, ls, n, n', hls, hlies⟩ := h.lies_definition hf hd
  obtain ⟨head, body, hbody, -, rfl⟩ := Context.definition_eq hls
  rw [Lies.append_iff, Lies.cons_iff, Lies.append_iff, Lies.append_iff] at hlies
  obtain ⟨-, hsymbol, hprologue, hlies, -⟩ := hlies
  obtain ⟨blk, hblk⟩ := Function.exists_entry hd
  have hr := Function.reachable_entry hd
  obtain ⟨rest, hrest⟩ := Context.reachableBlocks_eq (c := .ofFunction m id f) hblk hr
  rw [hrest] at hbody
  obtain ⟨⟨first, k⟩, hfirst, hothers⟩ := Option.bind_eq_some_iff.1 hbody
  obtain ⟨⟨others, k'⟩, -, heq⟩ := Option.bind_eq_some_iff.1 hothers
  obtain ⟨rfl, rfl⟩ := Prod.mk.inj (Option.some.inj heq)
  rw [Lies.append_iff] at hlies
  obtain ⟨hlabel, hcont⟩ := Context.continues (c := .ofFunction m id f) hblk hfirst hlies.1
  refine ⟨_, h.idxOf?_eq rfl hsymbol, hsymbol, hprologue, _, ?_, hlabel, hcont⟩
  simp [code]

/-- The entry code of a function stands between its symbol and its entry block. -/
theorem lies_entry (hf : m.function? id = some f) (hd : f.isDeclaration = false) :
    ∃ pc, lines.idxOf? (.symbol f.name) = some pc ∧ Lies lines pc (.ok (.symbol f.name) ::
      (code (Context.ofFunction m id f).prologue ++ [Except.ok (Line.label (.block id 0))])) := by
  obtain ⟨pc, hpc, hsymbol, hprologue, pc', rfl, hentry, -⟩ := h.function hf hd
  refine ⟨pc, hpc, Lies.cons_iff.2 ⟨hsymbol, Lies.append_iff.2 ⟨hprologue, ?_⟩⟩⟩
  refine Lies.cons_iff.2 ⟨?_, List.nil_prefix⟩
  simpa [code] using hentry

/-- A block that control can reach stands somewhere, with another one or the end of its function after
it. -/
theorem lies_block (hf : m.function? id = some f) {b : BlockId} {blk : Block}
    (hb : f.blocks[b]? = some blk) (hr : f.reachable[b]? = some true) :
    ∃ pc ls n n' next rest, (Context.ofFunction m id f).block b blk n = some (ls, n') ∧
      Lies lines pc (ls ++ Except.ok next :: rest) ∧
      (next = Line.blank ∨ ∃ d, next = Line.label (.block id d)) := by
  obtain ⟨pc, ls, n, n', hls, hlies⟩ := h.lies_definition hf (Function.isDeclaration_eq_false hb)
  obtain ⟨head, body, hbody, -, rfl⟩ := Context.definition_eq hls
  rw [Lies.append_iff, Lies.cons_iff, Lies.append_iff] at hlies
  obtain ⟨-, -, -, hlies⟩ := hlies
  have hmem : (b, blk) ∈ (Context.ofFunction m id f).reachableBlocks :=
    Context.mem_reachableBlocks.2 ⟨hb, hr⟩
  obtain ⟨pre, first, post, k, k', hfirst, rfl, hpost⟩ := Context.blocks_split hbody hmem
  rw [List.append_assoc, Lies.append_iff, List.append_assoc] at hlies
  rcases hpost with rfl | ⟨d, rest, rfl⟩
  · exact ⟨_, first, k, k', .blank, [], hfirst, hlies.2, .inl rfl⟩
  · exact ⟨_, first, k, k', .label (.block id d), rest ++ [Except.ok Line.blank], hfirst, hlies.2,
      .inr ⟨d, rfl⟩⟩

/-- A block that control can reach stands under its label. -/
theorem block (hf : m.function? id = some f) {b : BlockId} {blk : Block}
    (hb : f.blocks[b]? = some blk) (hr : f.reachable[b]? = some true) :
    ∃ pc, lines.idxOf? (.label (.block id b)) = some pc ∧ lines[pc]? = some (.label (.block id b)) ∧
      (Context.ofFunction m id f).Continues lines b 0 (pc + 1) := by
  obtain ⟨pc, ls, n, n', next, rest, hls, hlies, -⟩ := h.lies_block hf hb hr
  obtain ⟨hlabel, hcont⟩ := Context.continues (c := .ofFunction m id f) hb hls (Lies.append_iff.1 hlies).1
  exact ⟨pc, h.idxOf?_eq rfl hlabel, hlabel, hcont⟩

/-- Only blocks that control can reach are there. -/
theorem reachable (hf : m.function? id = some f) {b : BlockId} (hb : .label (.block id b) ∈ lines) :
    (∃ blk, f.blocks[b]? = some blk) ∧ f.reachable[b]? = some true := by
  rcases h.marked.all _ rfl (List.mem_map_of_mem hb) with
    ⟨j, g, hg, -, he | ⟨b', hb', he⟩ | ⟨k, he⟩⟩ | ⟨g, -, he⟩
  · cases he
  · obtain ⟨rfl, rfl⟩ := Label.block.inj (Line.label.inj he)
    obtain rfl := Option.some.inj (hf.symm.trans hg)
    obtain ⟨x, hx, rfl⟩ := List.mem_map.1 hb'
    obtain ⟨hblk, hr⟩ := Context.mem_reachableBlocks.1 hx
    exact ⟨⟨_, hblk⟩, hr⟩
  · cases he
  · cases he

end Listed

/-- Text that has been written comes from a listing in which every line is there. -/
theorem fine_of_writeFrom {t : Target} {room : Option Nat} {before text : String}
    (h : ls.writeFrom t room before = .ok text) : ls.Fine := by
  induction ls generalizing before with
  | nil => exact Listing.fine_nil
  | cons x ls ih =>
    cases x with
    | error e => cases h
    | ok l =>
      rw [Listing.writeFrom] at h
      split at h
      · cases h
      · exact (Listing.fine_ok l).append (ih h)

theorem rendered_of_assemblyText {t : Target} {text : String} (h : assemblyText m t = .ok text) :
    ∃ lines, listing? m = some (lines.map .ok) ∧ text = rendered t lines := by
  cases hls : listing? m with
  | none =>
    simp only [assemblyText, hls] at h
    cases h
  | some ls =>
    obtain ⟨lines, rfl⟩ : ls.Fine := by
      simp only [assemblyText, hls] at h
      split at h
      · next hwrite => exact fine_of_writeFrom hwrite
      · cases h
    refine ⟨lines, rfl, ?_⟩
    rw [assemblyText_eq_rendered hls] at h
    exact (Except.ok.inj h).symm

structure Emits (m : Module) (lines : List Line) : Prop extends Listed m lines where
  tidy : m.Tidy

end Modules

end Assembly
end IntLang
