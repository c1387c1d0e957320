import IntLang.Proofs.BlameRules
import IntLang.Proofs.Streaming

/-! Runs of items. Items that are found one after the other make up a program, take the tokens of its
derivation, and are found again wherever the same tokens are read. -/
namespace IntLang

namespace Parser
variable {p q r r' : Parser} {items : List Item}

theorem Yields.append {more : List Item} (h : Yields p items q) (h' : Yields q more r) :
    Yields p (items ++ more) r := by
  induction h with
  | nil => exact h'
  | cons hitem rest ih => exact .cons hitem (ih h')

theorem Yields.itemsUpTo_done {n : Nat} (h : Yields p items r) (hr : item r = .ok none r')
    (hn : p.rest.length < n) : itemsUpTo n p = .ok items r' := by
  induction h generalizing n with
  | nil =>
    obtain ⟨n, rfl⟩ := Parser.exists_succ hn
    exact bind_of_ok hr
  | cons hitem rest ih =>
    obtain ⟨n, rfl⟩ := Parser.exists_succ hn
    have hless := length_rest_of_item hitem
    rw [itemsUpTo, bind_of_ok hitem]
    exact bind_of_ok (ih hr (by omega))

theorem Yields.itemsUpTo_failed {n : Nat} {e : ParseError} (h : Yields p items r)
    (hr : item r = .error e r') (hn : p.rest.length < n) : itemsUpTo n p = .error e r' := by
  induction h generalizing n with
  | nil =>
    obtain ⟨n, rfl⟩ := Parser.exists_succ hn
    exact bind_of_error hr
  | cons hitem rest ih =>
    obtain ⟨n, rfl⟩ := Parser.exists_succ hn
    have hless := length_rest_of_item hitem
    rw [itemsUpTo, bind_of_ok hitem]
    exact bind_of_error (ih hr (by omega))

end Parser

section Programs
variable {cs : List Char} {items : List Item} {r r' : Parser}

theorem parseProgram_of_done (h : Parser.Yields { source := Source.ofText cs } items r)
    (hr : Parser.item r = .ok none r') : parseProgram cs = .ok items := by
  have hbound := Parser.length_rest_lt { source := Source.ofText cs }
  have hprogram : Parser.program { source := Source.ofText cs } = .ok items r' :=
    h.itemsUpTo_done hr (Nat.lt_of_add_right_lt hbound)
  rw [parseProgram, hprogram]

theorem parseProgram_of_failed {e : ParseError} (h : Parser.Yields { source := Source.ofText cs } items r)
    (hr : Parser.item r = .error e r') : parseProgram cs = .error e.diagnostic := by
  have hbound := Parser.length_rest_lt { source := Source.ofText cs }
  have hprogram : Parser.program { source := Source.ofText cs } = .error e r' :=
    h.itemsUpTo_failed hr (Nat.lt_of_add_right_lt hbound)
  rw [parseProgram, hprogram]

theorem exists_done (h : parseProgram cs = .ok items) :
    ∃ r r', Parser.Yields { source := Source.ofText cs } items r ∧ Parser.item r = .ok none r' := by
  obtain ⟨items', r, hitems, hyields, hend⟩ := exists_completeItems cs
  rw [CompleteItems, h] at hitems
  rw [parseFailure?, h] at hend
  obtain rfl : items' = items := hitems
  cases hend with
  | done hr => exact ⟨r, _, hyields, hr⟩

theorem exists_failed {d : Diagnostic} (h : parseProgram cs = .error d) :
    ∃ items r e r', Parser.Yields { source := Source.ofText cs } items r ∧
      Parser.item r = .error e r' ∧ e.diagnostic = d := by
  obtain ⟨items, r, -, hyields, hend⟩ := exists_completeItems cs
  rw [parseFailure?, h] at hend
  cases hend with
  | failed hr => exact ⟨items, r, _, _, hyields, hr, rfl⟩

theorem parseProgram_of_failure {d : Diagnostic} (h : parseFailure? cs = some d) :
    parseProgram cs = .error d := by
  unfold parseFailure? at h
  split at h
  · cases h
  · next hparse => rw [hparse, Option.some.inj h]

end Programs

theorem Parser.exists_yields_of_tree {p : Parser} {rest : List Token} (t : ProgramTree) (ht : t.Distinct)
    (hp : p.rest = t.tokens ++ rest) : ∃ r, Yields p t.value r ∧ r.rest = rest := by
  induction t generalizing p with
  | nil => exact ⟨p, .nil p, hp⟩
  | cons i t ih =>
    obtain ⟨hi, hall⟩ := List.forall_mem_cons.1 ht
    have hsplit : p.rest = i.tokens ++ (ProgramTree.tokens t ++ rest) := by
      rw [hp, ProgramTree.tokens, List.flatMap_cons, List.append_assoc]
      rfl
    obtain ⟨p', hitem, hp'⟩ := item_reads hi _ p hsplit
    obtain ⟨r, hyields, hr⟩ := ih hall hp'
    exact ⟨r, .cons hitem hyields, hr⟩

namespace Parser
variable {k : Pairing} {n : Nat} {p q r r' : Parser} {items : List Item}

/-- A run of items takes the tokens of a derivation, and holds nothing after each of them. -/
theorem Yields.gives (h : Yields p items r) {u : Source}
    (hp : At u .clear p) : ∃ (t : ProgramTree) (v : Source), t.value = items ∧ t.Distinct ∧
      u.Gives t.tokens v ∧ At v .clear r := by
  induction h generalizing u with
  | nil => exact ⟨[], u, rfl, by simp [ProgramTree.Distinct], .nil u, hp⟩
  | cons hitem rest ih =>
    obtain ⟨i, v, rfl, hdistinct, hgives, hstands⟩ := hp.item_ok hitem
    obtain ⟨t, w, rfl, hall, hmore, hend⟩ := ih hstands
    exact ⟨i :: t, w, rfl, List.forall_mem_cons.2 ⟨hdistinct, hall⟩, hgives.trans hmore, hend⟩

theorem start_stands (s : Source) : At s .clear { source := s } :=
  .clear rfl rfl rfl

theorem start_paired (k : Pairing) : Paired k 0 { source := k.left } { source := k.right } :=
  ⟨rfl, fun _ => rfl, fun _ => .none, fun _ => .none⟩

/-- As long as both sides give the same tokens, they give the same items. -/
theorem Yields.follow (h : Yields p items r) (hpq : Paired k n p q) : ∃ m, n ≤ m ∧ r.source = k.left.after m ∧
      (k.Same m → ∃ r', Yields q items r' ∧ Paired k m r r') := by
  induction h generalizing n q with
  | nil p => exact ⟨n, Nat.le_refl n, hpq.left, fun _ => ⟨q, .nil q, hpq⟩⟩
  | @cons p p' r i items hitem rest ih =>
    have hfollows := hpq.item
    rw [hitem] at hfollows
    cases hfollows with
    | @ok _ _ _ m hm hp _ hright =>
      by_cases hs : k.Same m
      · obtain ⟨q', hq', hpair⟩ := hright hs
        obtain ⟨m', hm', hsource, hrest⟩ := ih hpair
        refine ⟨m', Nat.le_trans hm hm', hsource, fun hs' => ?_⟩
        obtain ⟨r', hyields, hr'⟩ := hrest hs'
        exact ⟨r', .cons hq' hyields, hr'⟩
      · obtain ⟨m', hm', hsource, -⟩ := ih (paired_of_not_same hp hs p')
        exact ⟨m', Nat.le_trans hm hm', hsource, fun hs' => absurd (hs'.mono hm') hs⟩

/-- As long as both sides give the same tokens, they fail together. -/
theorem Paired.item_error {e : ParseError} (h : Paired k n r q)
    (hr : Parser.item r = .error e r') : ∃ m, n ≤ m ∧ r'.source = k.left.after m ∧
      (k.Same m → ∃ e' q', Parser.item q = .error e' q' ∧ e.Near k.near e') := by
  have hfollows := h.item
  rw [hr] at hfollows
  cases hfollows with
  | error hm hp _ hright => exact ⟨_, hm, hp, hright⟩

/-- As long as both sides give the same tokens, they end together. -/
theorem Paired.item_none (h : Paired k n r q)
    (hr : Parser.item r = .ok none r') (hs : ∀ m, k.Same m) : ∃ q', Parser.item q = .ok none q' := by
  have hfollows := h.item
  rw [hr] at hfollows
  cases hfollows with
  | @ok _ _ _ m _ _ _ hright =>
    obtain ⟨q', hq', -⟩ := hright (hs m)
    exact ⟨q', hq'⟩

end Parser
end IntLang
