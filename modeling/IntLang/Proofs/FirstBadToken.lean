import IntLang.Proofs.ItemRuns
import IntLang.Proofs.Slices

/-! An error is about the first token that is out of place. The tokens before it are those that some program
starts with, and no program starts with these tokens and the one that is blamed. -/
namespace IntLang

def tokenStream (cs : List Char) : List Token :=
  (Source.ofText cs).lexemes.1.map (·.token)

/-- The text of some program starts with these tokens. -/
def Viable (ts : List Token) : Prop :=
  ∃ cs program, parseProgram cs = .ok program ∧ ts <+: tokenStream cs

theorem Source.map_token_lexemes (s : Source) :
    s.lexemes.1.map (·.token) = s.tokens ++ [Token.endOfFile] := by
  induction hn : s.size using Nat.strongRecOn generalizing s with
  | ind n ih =>
    by_cases hend : s.nextLexeme.1.token = .endOfFile
    · rw [lexemes_of_end hend, tokens_eq, held, if_pos hend]
      simp [hend]
    · have hrest := ih _ (hn ▸ s.size_nextLexeme_lt hend) s.nextLexeme.2 rfl
      rw [lexemes_of_ne hend, tokens_eq, held, if_neg hend, List.map_cons, hrest, List.cons_append]

/-- Every text is covered by slices with its tokens. -/
theorem exists_cover_tokens (cs : List Char) : ∃ xs last, cs = Slice.joined xs last ∧
    Slice.Cover xs last ∧ xs.map (·.token) = (Source.ofText cs).tokens := by
  obtain ⟨xs, last, hjoined, hcover, hlexemes⟩ := exists_cover cs 0 {}
  refine ⟨xs, last, hjoined, hcover, ?_⟩
  have hall : (Source.ofText cs).lexemes.1 = Slice.lexemes {} xs last := hlexemes
  have hmap := (Source.ofText cs).map_token_lexemes
  rw [hall, Slice.map_token_lexemes] at hmap
  exact List.append_cancel_right hmap

/-- What has been read can be written down again, unless it is no token. -/
theorem Scans.writable {w : List Char} {next : Option Char} {t : Token} (h : Scans w next t)
    (ht : t.Valid) : t.writable = true := by
  cases h with
  | symbol => rfl
  | bang => exact absurd rfl (ht _)
  | null => exact absurd rfl (ht _)
  | stray => exact absurd rfl (ht _)
  | @number c w _ hc hw =>
    have hne : c :: w ≠ [] := List.cons_ne_nil c w
    by_cases hmax : digitsValue (c :: w) ≤ maxInteger
    · rw [numberToken_of_le hne hmax]
      refine decide_eq_true (Int32.le_iff_toInt_le.2 ?_)
      rw [toInt_ofNat_of_le hmax]
      exact Int.natCast_nonneg _
    · rw [numberToken_of_lt hne (Nat.lt_of_not_le hmax)] at ht
      exact absurd rfl (ht _)
  | @word c w _ hc hw =>
    cases hk : Keyword.ofWord? (String.ofList (c :: w)) with
    | some k =>
      rw [wordToken, hk]
      rfl
    | none =>
      rw [wordToken, hk, Token.writable, String.toList_ofList, isName, List.head?_cons, Option.any_some,
        ← isWordStart_eq, hc, List.all_cons, ← isWordChar_eq_isNameChar, isWordChar_eq, hc]
      have hall : w.all isNameChar = true :=
        List.all_eq_true.2 fun d hd => isWordChar_eq_isNameChar d ▸ hw d hd
      have hkeyword : Keyword.all.any (·.spelling.toList == c :: w) = false := by
        rw [List.any_eq_false]
        intro k hmem hspelling
        refine List.find?_eq_none.1 hk k hmem (beq_iff_eq.2 ?_)
        rw [← beq_iff_eq.1 hspelling, String.ofList_toList]
      rw [hall, hkeyword]
      rfl

theorem writable_of_mem_tokens {cs : List Char} {t : Token} (h : t ∈ (Source.ofText cs).tokens)
    (ht : t.Valid) : t.writable = true := by
  obtain ⟨xs, last, -, hcover, htokens⟩ := exists_cover_tokens cs
  have hxs : ∀ x ∈ xs, x.token.Valid → x.token.writable = true := by
    clear htokens
    induction hcover with
    | last => simp
    | cons hgap htext rest ih => exact List.forall_mem_cons.2 ⟨htext.writable, ih⟩
  rw [← htokens] at h
  obtain ⟨x, hx, rfl⟩ := List.mem_map.1 h
  exact hxs x hx ht

/-- Tokens that can be written down are those of a text. -/
theorem exists_text {ts : List Token} (h : ∀ t ∈ ts, t.writable = true) :
    ∃ cs, (Source.ofText cs).tokens = ts := by
  have hlegible : Legible (ts.map fun t => ([' '], t)) [] := by
    refine ⟨?_, ?_, .nil, ?_⟩
    · simpa using h
    · have hgap : Gap [' '] := .blank (by decide) .nil
      simpa using fun _ _ => hgap
    · clear h
      induction ts with
      | nil => exact .nil
      | cons t ts ih =>
        cases ts with
        | nil => exact .singleton _
        | cons u ts => exact .cons_cons (by simp) ih
  refine ⟨written (ts.map fun t => ([' '], t)) [], ?_⟩
  obtain ⟨ls, hls, htokens⟩ := hlegible.tokenize 0 {}
  have hspec := (Source.tokenize_spec _).1 ls hls
  rw [htokens, List.map_map] at hspec
  have hmap : ts.map ((·.2) ∘ fun t => ([' '], t)) = ts := List.map_id ts
  rw [hmap] at hspec
  exact (List.append_cancel_right hspec).symm

/-- The tokens of a derivation that can be written down are those of a program. -/
theorem viable_of_tree {t : ProgramTree} (ht : t.Distinct) {ts c : List Token} (htokens : t.tokens = ts ++ c)
    (h : ∀ x ∈ t.tokens, x.writable = true) : Viable ts := by
  obtain ⟨cs, hcs⟩ := exists_text h
  refine ⟨cs, t.value, parseProgram_of_tree t ht hcs, ?_⟩
  rw [tokenStream, Source.map_token_lexemes, hcs, htokens]
  exact ⟨c ++ [Token.endOfFile], by simp⟩

def byTokens (cs ds : List Char) : Pairing :=
  ⟨fun _ _ => True, fun p => ⟨p, trivial⟩, Source.ofText cs, Source.ofText ds⟩

theorem same_byTokens {cs ds : List Char} {n : Nat} (hn : n ≤ (tokenStream cs).length)
    (h : (tokenStream cs).take n <+: tokenStream ds) : (byTokens cs ds).Same n := by
  intro i hi
  obtain ⟨rest, hrest⟩ := h
  have hget : (tokenStream ds)[i]? = (tokenStream cs)[i]? := by
    rw [← hrest, List.getElem?_append_left (by rw [List.length_take]; omega), List.getElem?_take_of_lt hi]
  rw [tokenStream, List.length_map] at hn
  obtain ⟨l, hl⟩ : ∃ l, (Source.ofText cs).lexemes.1[i]? = some l :=
    ⟨_, List.getElem?_eq_getElem (Nat.lt_of_lt_of_le hi hn)⟩
  rw [tokenStream, tokenStream, List.getElem?_map, List.getElem?_map, hl, Option.map_some,
    Option.map_eq_some_iff] at hget
  obtain ⟨l', hl', htoken⟩ := hget
  refine ⟨?_, trivial⟩
  change ((Source.ofText ds).lexeme i).token = ((Source.ofText cs).lexeme i).token
  rw [Source.lexeme_of_getElem? hl, Source.lexeme_of_getElem? hl', htoken]

/-- A text is no program if it starts with the tokens that another one has been given up after. -/
theorem not_ok_of_same {cs ds : List Char} {items : List Item} {r r' : Parser} {e : ParseError} {n m : Nat}
    (h : Parser.Yields { source := Source.ofText cs } items r) (hr : Parser.item r = .error e r')
    (hsource : r'.source = (Source.ofText cs).after m) (hm : m ≤ n) (hs : (byTokens cs ds).Same n)
    (program : Program) : parseProgram ds ≠ .ok program := by
  obtain ⟨i, -, hleft, hfollow⟩ := h.follow (Parser.start_paired (byTokens cs ds))
  have hcount (j : Nat) (hj : r'.source = (byTokens cs ds).left.after j) : (byTokens cs ds).Same j := by
    obtain rfl : j = m := (Source.ofText cs).after_injective (hj.symm.trans hsource)
    exact hs.mono hm
  by_cases hsame : (byTokens cs ds).Same i
  · obtain ⟨q, hyields, hpair⟩ := hfollow hsame
    obtain ⟨j, -, hj, hright⟩ := hpair.item_error hr
    obtain ⟨e', q', hq, -⟩ := hright (hcount j hj)
    rw [parseProgram_of_failed hyields hq]
    simp
  · obtain ⟨j, hij, hj, -⟩ := (Parser.paired_of_not_same hleft hsame r).item_error hr
    exact absurd ((hcount j hj).mono hij) hsame

section Blamed
variable {cs : List Char} {ts us : List Token} {s u v : Source}

/-- Items and the start of another one are completed to a program. -/
theorem viable_of_begins {t : ProgramTree} (ht : t.Distinct) (hitems : (Source.ofText cs).Gives t.tokens u)
    (hgives : u.Gives us v) (h : ItemTree.Begins us) : Viable (t.tokens ++ us) := by
  obtain ⟨i, c, hdistinct, htokens, hc⟩ := h
  have hprogram : ProgramTree.tokens (t ++ [i]) = (t.tokens ++ us) ++ c := by
    simp [ProgramTree.tokens, htokens]
  refine viable_of_tree (t := t ++ [i]) ?_ hprogram fun x hx => ?_
  · exact List.forall_mem_append.2 ⟨ht, by simpa using hdistinct⟩
  · have hvalid := ProgramTree.valid _ x hx
    rw [hprogram] at hx
    rcases List.mem_append.1 hx with hx | hx
    · have hmem : x ∈ (Source.ofText cs).tokens := by
        rw [(hitems.trans hgives).tokens]
        exact List.mem_append_left _ hx
      exact writable_of_mem_tokens hmem hvalid
    · exact List.all_eq_true.1 hc x hx

/-- How many tokens it takes to see that the one at `v` is out of place, with `n` tokens before it. -/
def seenAt (v : Source) (n : Nat) : Nat :=
  if v.nextLexeme.1.token = .keyword .not then n + 2 else n + 1

theorem seenAt_le (h : s.Gives ts v) : seenAt v ts.length ≤ s.lexemes.1.length := by
  obtain ⟨ls, hls, hlexemes⟩ := h.lexemes
  rw [hlexemes, List.length_append, ← hls, List.length_map, seenAt]
  split
  · next hnot =>
    obtain ⟨rest, hrest⟩ := v.nextLexeme.2.lexemes_head
    rw [Source.lexemes_of_ne (by simp [hnot]), hrest, List.length_cons, List.length_cons]
    omega
  · obtain ⟨rest, hrest⟩ := v.lexemes_head
    rw [hrest, List.length_cons]
    omega

/-- No more tokens have been read when the one at `v` is blamed. -/
theorem Parser.Blames.exists_after {e : ParseError} {p : Parser} (h : Blames v e p) (hv : s.Gives ts v) :
    ∃ m ≤ seenAt v ts.length, p.source = s.after m := by
  have hnext : v.nextLexeme.2 = s.after (ts.length + 1) := by rw [Source.after_succ, ← hv.after_eq]
  have hsecond : v.nextLexeme.2.nextLexeme.2 = s.after (ts.length + 2) := by
    rw [Source.after_succ, ← hnext]
  rcases h.source with hsource | ⟨hnot, hsource⟩
  · refine ⟨ts.length + 1, ?_, hsource.trans hnext⟩
    unfold seenAt
    split <;> omega
  · refine ⟨ts.length + 2, ?_, hsource.trans hsecond⟩
    rw [seenAt, if_pos hnot]

end Blamed

/-- An error is located at a token. Some program starts with the tokens before it, and none starts with these
and the token itself, or, where it is a `not`, with these, the `not` and the token after it. -/
theorem parseProgram_error_at_first_bad_token {cs : List Char} {d : Diagnostic}
    (h : parseProgram cs = .error d) :
    ∃ k l, (Source.ofText cs).lexemes.1[k]? = some l ∧ d.position = some l.position ∧
      Viable ((tokenStream cs).take k) ∧
      ¬ Viable ((tokenStream cs).take (if l.token = .keyword .not then k + 2 else k + 1)) := by
  obtain ⟨items, r, e, r', hyields, hr, rfl⟩ := exists_failed h
  obtain ⟨t, u, -, hdistinct, hitems, hstands⟩ := hyields.gives (Parser.start_stands (Source.ofText cs))
  obtain ⟨us, v, hgives, hblames, hbegins⟩ := hstands.item_error hr
  have htaken := hitems.trans hgives
  obtain ⟨ls, hls, hlexemes⟩ := htaken.lexemes
  refine ⟨(t.tokens ++ us).length, v.nextLexeme.1, ?_, hblames.position, ?_, ?_⟩
  · obtain ⟨more, hmore⟩ := v.lexemes_head
    rw [hlexemes, hmore, ← hls, List.length_map]
    simp
  · rw [tokenStream, hlexemes, List.map_append, hls, List.take_left]
    exact viable_of_begins hdistinct hitems hgives hbegins
  · rintro ⟨ds, program, hparse, hprefix⟩
    obtain ⟨m, hm, hsource⟩ := hblames.exists_after htaken
    have hle : seenAt v (t.tokens ++ us).length ≤ (tokenStream cs).length := by
      rw [tokenStream, List.length_map]
      exact seenAt_le htaken
    exact not_ok_of_same hyields hr hsource hm (same_byTokens hle hprefix) program hparse

/-- In `x = 1 not 2;` the `not` is blamed: it could have been the start of `not in`, but is not. -/
theorem parseProgram_error_at_not :
    parseProgram "x = 1 not 2;".toList =
      .error ⟨.syntactic, "Expected ';' after assignment, found 'not'", some ⟨1, 7⟩⟩ ∧
    ∃ k l, (Source.ofText "x = 1 not 2;".toList).lexemes.1[k]? = some l ∧ some ⟨1, 7⟩ = some l.position ∧
      Viable ((tokenStream "x = 1 not 2;".toList).take k) ∧
      ¬ Viable ((tokenStream "x = 1 not 2;".toList).take
        (if l.token = .keyword .not then k + 2 else k + 1)) := by
  have h : parseProgram "x = 1 not 2;".toList =
      .error ⟨.syntactic, "Expected ';' after assignment, found 'not'", some ⟨1, 7⟩⟩ :=
    parseProgram_of_failure (by decide +kernel)
  exact ⟨h, parseProgram_error_at_first_bad_token h⟩

end IntLang
