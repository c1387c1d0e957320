import IntLang.Proofs.FirstBadToken

/-! Programs one after the other. A program that is followed by a newline and another text leaves the
parser as it was at the start, but for the lines in between: the items of the text come after those of
the program, and an error in it is found that many lines further down. -/
namespace IntLang

theorem Gap.append {cs ds : List Char} (h : Gap cs) (h' : Gap ds) : Gap (cs ++ ds) := by
  induction h with
  | nil => exact h'
  | blank hc rest ih => exact .blank hc ih
  | comment text ht rest ih =>
    rw [List.cons_append, List.append_assoc, List.cons_append]
    exact .comment text ht ih

/-- A newline also ends the comment that a text ends with. -/
theorem LastGap.newline {cs : List Char} (h : LastGap cs) : Gap (cs ++ ['\n']) := by
  obtain ⟨gap, rest, rfl, hgap, hrest⟩ := h
  rw [List.append_assoc]
  apply hgap.append
  rcases hrest with rfl | ⟨text, rfl, htext⟩
  · exact .blank (by decide) .nil
  · exact .comment text htext .nil

theorem Scans.newline {w : List Char} {next : Option Char} {t : Token} (h : Scans w next t)
    (ht : t.Valid) : Scans w (some '\n') t := by
  have hdigit : isDigit '\n' = false := by decide
  have hword : isWordChar '\n' = false := by decide
  cases h with
  | symbol s h =>
    refine .symbol s fun c hc => ?_
    obtain rfl := Option.some.inj hc
    cases s <;> simp [Symbol.longer?]
  | bang => exact absurd rfl (ht _)
  | null => exact .null _
  | number hc hw => exact .number hc hw fun d hd => Option.some.inj hd ▸ hdigit
  | word hc hw => exact .word hc hw fun d hd => Option.some.inj hd ▸ hword
  | stray _ hs hspecial hd hw => exact .stray _ hs hspecial hd hw

theorem Scans.append_newline {w cs : List Char} {t : Token} (h : Scans w cs.head? t) (ht : t.Valid)
    (ds : List Char) : Scans w (cs ++ '\n' :: ds).head? t := by
  cases cs with
  | nil => exact h.newline ht
  | cons c cs => exact h

/-- Before a newline, slices of a text give the same tokens whatever comes after it. -/
theorem Slice.Cover.lexemes_newline {xs : List Slice} {last : List Char} (h : Cover xs last)
    (hvalid : ∀ x ∈ xs, x.token.Valid) (ds : List Char) (n : Nat) (p : Position) :
    ∃ ls n', ls.map (·.token) = xs.map (·.token) ∧
      (Source.mk ((joined xs last ++ '\n' :: ds).map .char) n p).lexemes.1 =
        ls ++ (Source.mk (ds.map .char) n' (p.afterAll (joined xs last ++ ['\n']))).lexemes.1 := by
  induction h generalizing n p with
  | @last cs h =>
    refine ⟨[], n, rfl, ?_⟩
    have hsplit : (cs ++ '\n' :: ds).map Event.char = (cs ++ ['\n']).map .char ++ ds.map .char := by simp
    have hskip := Source.lexemes_congr (Source.nextLexeme_gap h.newline (ds.map .char) n p)
    rw [← hsplit] at hskip
    exact congrArg Prod.fst hskip
  | @cons x xs last hgap htext rest ih =>
    obtain ⟨hx, hxs⟩ := List.forall_mem_cons.1 hvalid
    have hscans := htext.append_newline hx ds
    rw [← following_map] at hscans
    obtain ⟨m, hnext⟩ := Source.nextLexeme_scans hscans (atHand_map _) n (p.afterAll x.gap)
    obtain ⟨ls, n', htokens, hls⟩ := ih hxs m ((p.afterAll x.gap).afterAll x.text)
    refine ⟨⟨x.token, p.afterAll x.gap⟩ :: ls, n', by simp [htokens], ?_⟩
    have hskip : (Source.mk ((joined (x :: xs) last ++ '\n' :: ds).map .char) n p).nextLexeme =
        (Source.mk (x.text.map .char ++ (joined xs last ++ '\n' :: ds).map .char) n
          (p.afterAll x.gap)).nextLexeme := by
      rw [← Source.nextLexeme_gap hgap]
      simp [joined]
    have hne : x.token ≠ .endOfFile := hscans.token_ne_endOfFile
    rw [Source.lexemes_congr hskip, Source.lexemes_of_ne (by rwa [hnext]), hnext, hls]
    simp [joined]

/-- The tokens of a text and then those of another one, which starts on a new line. -/
theorem exists_lexemes_newline {cs : List Char} (h : ∀ t ∈ (Source.ofText cs).tokens, t.Valid)
    (ds : List Char) : ∃ ls, ls.map (·.token) = (Source.ofText cs).tokens ∧
      (Source.ofText (cs ++ '\n' :: ds)).lexemes.1 =
        ls ++ (Source.ofText ds).lexemes.1.map (Lexeme.down (1 + cs.count '\n')) := by
  obtain ⟨xs, last, hjoined, hcover, htokens⟩ := exists_cover_tokens cs
  rw [← htokens, List.forall_mem_map] at h
  obtain ⟨ls, n, hls, hlexemes⟩ := hcover.lexemes_newline h ds 0 {}
  rw [← hjoined] at hlexemes
  refine ⟨ls, hls.trans htokens, ?_⟩
  have hplace : ({} : Position).afterAll (cs ++ ['\n']) = ({} : Position).down (1 + cs.count '\n') := by
    rw [afterAll_eq_placeAfter]
    simp [placeAfter, Position.down, Nat.add_comm]
  have hbeside : Source.Beside (1 + cs.count '\n') (Source.ofText ds)
      ⟨ds.map .char, n, ({} : Position).afterAll (cs ++ ['\n'])⟩ := ⟨rfl, hplace⟩
  rw [← hbeside.lexemes]
  exact hlexemes

section Items
variable {cs ds : List Char} {program : Program}

/-- After a program and a newline, the parser reads what it reads at the start of the text that follows, some
lines further down. -/
theorem exists_yields_newline (h : parseProgram cs = .ok program) (ds : List Char) :
    ∃ r v, Parser.Yields { source := Source.ofText (cs ++ '\n' :: ds) } program r ∧
      Parser.Paired (Parser.linesApart (1 + cs.count '\n') (Source.ofText ds) v) 0
        { source := Source.ofText ds } r ∧
      ∀ m, (Parser.linesApart (1 + cs.count '\n') (Source.ofText ds) v).Same m := by
  obtain ⟨t, rfl, hdistinct, htokens⟩ := exists_tree h
  obtain ⟨ls, hls, hlexemes⟩ := exists_lexemes_newline (htokens ▸ t.valid) ds
  have hstream : (Source.ofText (cs ++ '\n' :: ds)).tokens = t.tokens ++ (Source.ofText ds).tokens := by
    have hends : (Source.ofText (cs ++ '\n' :: ds)).tokens ++ [Token.endOfFile] =
        t.tokens ++ (Source.ofText ds).tokens ++ [Token.endOfFile] := by
      rw [← Source.map_token_lexemes, hlexemes, List.map_append, hls, htokens, List.map_map,
        List.append_assoc, ← Source.map_token_lexemes]
      rfl
    exact List.append_cancel_right hends
  obtain ⟨r, hyields, hrest⟩ := Parser.exists_yields_of_tree t hdistinct
    (p := { source := Source.ofText (cs ++ '\n' :: ds) }) hstream
  obtain ⟨t', v, -, -, hgives, hstands⟩ := hyields.gives (Parser.start_stands _)
  obtain ⟨ls', hls', hlexemes'⟩ := hgives.lexemes
  obtain ⟨hsource, hcurrent, hlookahead⟩ := hstands.holds_nothing
  have htaken : t'.tokens = t.tokens := by
    have hends : t'.tokens ++ (Source.ofText ds).tokens = t.tokens ++ (Source.ofText ds).tokens := by
      rw [← hstream, hgives.tokens, ← hstands.rest, hrest]
    exact List.append_cancel_right hends
  have hv : v.lexemes.1 = (Source.ofText ds).lexemes.1.map (Lexeme.down (1 + cs.count '\n')) := by
    have hlength : ls'.length = ls.length := by
      rw [← List.length_map (·.token), hls', htaken, ← htokens, ← hls, List.length_map]
    exact (List.append_inj (hlexemes'.symm.trans hlexemes) hlength).2
  refine ⟨r, v, hyields, ⟨rfl, fun _ => hsource, fun _ => ?_, fun _ => ?_⟩, fun m i _ => ?_⟩
  · rw [hcurrent]
    exact .none
  · rw [hlookahead]
    exact .none
  · exact Parser.near_linesApart.2 (Source.lexeme_eq_of_map (f := Lexeme.down _) (fun _ => rfl) hv i)

end Items

theorem ParseError.Near.diagnostic {k : Nat} {e e' : ParseError} (h : e.Near (fun p q => q = p.down k) e') :
    ∃ p, e.diagnostic.position = some p ∧
      e'.diagnostic = ⟨e.diagnostic.stage, e.diagnostic.message, some (p.down k)⟩ := by
  cases h with
  | invalid e h => exact ⟨_, rfl, h ▸ rfl⟩
  | mismatch expected found h => exact ⟨_, rfl, h ▸ rfl⟩
  | duplicateParameter param function h => exact ⟨_, rfl, h ▸ rfl⟩

/-- A text after a program and a newline adds its items to those of the program, or fails as it does alone, as
many lines further down as come before it. -/
theorem parseProgram_append_newline {cs : List Char} {program : Program}
    (h : parseProgram cs = .ok program) (ds : List Char) :
    (∀ more, parseProgram ds = .ok more → parseProgram (cs ++ '\n' :: ds) = .ok (program ++ more)) ∧
    ∀ d, parseProgram ds = .error d → ∃ p, d.position = some p ∧
      parseProgram (cs ++ '\n' :: ds) =
        .error ⟨d.stage, d.message, some ⟨p.line + (1 + cs.count '\n'), p.col⟩⟩ := by
  obtain ⟨r, v, hyields, hpair, hsame⟩ := exists_yields_newline h ds
  constructor
  · intro more hmore
    obtain ⟨q, q', hitems, hq⟩ := exists_done hmore
    obtain ⟨m, -, -, hfollow⟩ := hitems.follow hpair
    obtain ⟨r₂, hyields₂, hpair₂⟩ := hfollow (hsame m)
    obtain ⟨r₃, hr₃⟩ := hpair₂.item_none hq hsame
    exact parseProgram_of_done (hyields.append hyields₂) hr₃
  · intro d hd
    obtain ⟨items, q, e, q', hitems, hq, rfl⟩ := exists_failed hd
    obtain ⟨m, -, -, hfollow⟩ := hitems.follow hpair
    obtain ⟨r₂, hyields₂, hpair₂⟩ := hfollow (hsame m)
    obtain ⟨j, -, -, hright⟩ := hpair₂.item_error hq
    obtain ⟨e', r₃, hr₃, hnear⟩ := hright (hsame j)
    obtain ⟨p, hp, hdown⟩ := ParseError.Near.diagnostic hnear
    refine ⟨p, hp, ?_⟩
    rw [parseProgram_of_failed (hyields.append hyields₂) hr₃, hdown]
    rfl

/-- After a function and a comment without an end, an item is found on the next line, and so is an error. -/
theorem parseProgram_append_after_comment :
    parseProgram "def f(): enddef\n#".toList = .ok [.function ⟨"f", [], [], false⟩] ∧
    parseProgram ("def f(): enddef\n#".toList ++ '\n' :: "pass;".toList) =
      .ok [.function ⟨"f", [], [], false⟩, .statement .pass] ∧
    parseProgram ("def f(): enddef\n#".toList ++ '\n' :: " )".toList) =
      .error ⟨.syntactic, "Expected expression, found ')'", some ⟨3, 2⟩⟩ := by
  have h : parseProgram "def f(): enddef\n#".toList = .ok [.function ⟨"f", [], [], false⟩] :=
    parseProgram_of_tree [.function false "f" [] .empty] (by simp [ProgramTree.Distinct, ItemTree.Distinct])
      (by decide +kernel)
  have hpass : parseProgram "pass;".toList = .ok [.statement .pass] :=
    parseProgram_of_tree [.statement .pass] (by simp [ProgramTree.Distinct, ItemTree.Distinct])
      (by decide +kernel)
  have hparen : parseProgram " )".toList =
      .error ⟨.syntactic, "Expected expression, found ')'", some ⟨1, 2⟩⟩ :=
    parseProgram_of_failure (by decide +kernel)
  refine ⟨h, (parseProgram_append_newline h _).1 _ hpass, ?_⟩
  obtain ⟨p, hp, herror⟩ := (parseProgram_append_newline h _).2 _ hparen
  obtain rfl := Option.some.inj hp
  exact herror

end IntLang
