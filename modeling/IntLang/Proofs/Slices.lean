import IntLang.Console.Report
import IntLang.Proofs.LineByLine
import IntLang.Proofs.Spelling
import Mathlib.Data.List.Induction

/-! The tokens of a text cover it: the text is made of the slices that are its tokens, in order, with only
blanks and comments before, between and after them. The place of a token is that of its first character, and
there a report finds that character again in the lines of the text. -/
namespace IntLang
open IntLang.Console

/-- The place of what comes after some characters: newlines count lines, and what follows the last of
them counts columns. -/
def placeAfter (before : List Char) : Position :=
  ⟨before.count '\n' + 1, (before.reverse.takeWhile (· ≠ '\n')).length + 1⟩

theorem placeAfter_concat (before : List Char) (c : Char) :
    placeAfter (before ++ [c]) = (placeAfter before).after c := by
  by_cases hc : c = '\n'
  · subst hc
    simp [placeAfter, Position.after]
  · simp [placeAfter, Position.after, hc]

theorem afterAll_eq_placeAfter (cs : List Char) : ({} : Position).afterAll cs = placeAfter cs := by
  induction cs using List.reverseRecOn with
  | nil => rfl
  | append_singleton cs c ih =>
    rw [placeAfter_concat, ← ih, Position.afterAll_append]
    rfl

/-- What is left of a text after its last newline is the line that it ends in. -/
theorem exists_lastLine (cs : List Char) : ∃ ls l, cs = ls ++ l ∧ EndsLine ls ∧ '\n' ∉ l := by
  induction cs using List.reverseRecOn with
  | nil => exact ⟨[], [], rfl, by simp [EndsLine], by simp⟩
  | append_singleton cs c ih =>
    by_cases hc : c = '\n'
    · refine ⟨cs ++ [c], [], by simp, ?_, by simp⟩
      intro d hd
      rw [List.getLast?_concat] at hd
      exact (Option.some.inj hd).symm.trans hc
    · obtain ⟨ls, l, rfl, hls, hl⟩ := ih
      exact ⟨ls, l ++ [c], by simp, hls, by simp [hl, Ne.symm hc]⟩

theorem takeWhile_reverse_of_endsLine {ls l : List Char} (hls : EndsLine ls) (hl : '\n' ∉ l) :
    (ls ++ l).reverse.takeWhile (· ≠ '\n') = l.reverse := by
  have hends : ls.reverse.takeWhile (· ≠ '\n') = [] := by
    cases hr : ls.reverse with
    | nil => rfl
    | cons c r =>
      have hlast : ls.getLast? = some c := by rw [← List.head?_reverse, hr]; rfl
      simp [hls c hlast]
  rw [List.reverse_append, List.takeWhile_append_of_pos, hends, List.append_nil]
  intro c hc
  have hne : c ≠ '\n' := by
    rintro rfl
    exact hl (List.mem_reverse.1 hc)
  simpa using hne

namespace Console

theorem cutLines_ne_nil (c : Char) (cs : List Char) : cutLines (c :: cs) ≠ [] := by
  rw [cutLines]
  split
  · simp
  · cases cutLines cs <;> simp

theorem cutLines_append {ls : List Char} (h : EndsLine ls) (cs : List Char) :
    cutLines (ls ++ cs) = cutLines ls ++ cutLines cs := by
  induction ls with
  | nil => rfl
  | cons c ls ih =>
    have hsplit : EndsLine ([c] ++ ls) := h
    have hls : EndsLine ls := hsplit.right
    rw [List.cons_append, cutLines, cutLines, ih hls]
    split
    · rfl
    · next hc =>
      cases ls with
      | nil => exact absurd (h c rfl) hc
      | cons d ls =>
        cases hcut : cutLines (d :: ls) with
        | nil => exact absurd hcut (cutLines_ne_nil d ls)
        | cons l rest => rfl

theorem length_cutLines {ls : List Char} (h : EndsLine ls) :
    (cutLines ls).length = ls.count '\n' := by
  induction ls with
  | nil => rfl
  | cons c ls ih =>
    have hsplit : EndsLine ([c] ++ ls) := h
    have hls : EndsLine ls := hsplit.right
    rw [cutLines]
    split
    · next hc =>
      subst hc
      rw [List.length_cons, ih hls, List.count_cons_self]
    · next hc =>
      rw [List.count_cons_of_ne hc, ← ih hls]
      cases ls with
      | nil => exact absurd (h c rfl) hc
      | cons d ls =>
        cases hcut : cutLines (d :: ls) with
        | nil => exact absurd hcut (cutLines_ne_nil d ls)
        | cons l rest => rfl

theorem exists_cutLines_eq {l : List Char} (h : '\n' ∉ l) {c : Char} (hc : c ≠ '\n') (cs : List Char) :
    ∃ more rest, cutLines (l ++ c :: cs) = (l ++ c :: more) :: rest := by
  induction l with
  | nil =>
    rw [List.nil_append, cutLines, if_neg hc]
    cases cutLines cs with
    | nil => exact ⟨[], [], rfl⟩
    | cons m ms => exact ⟨m, ms, rfl⟩
  | cons d l ih =>
    rw [List.mem_cons, not_or] at h
    obtain ⟨more, rest, hcut⟩ := ih h.2
    refine ⟨more, rest, ?_⟩
    rw [List.cons_append, cutLines, if_neg (Ne.symm h.1), hcut]
    rfl

/-- Taking the ending off a line leaves what is not part of an ending. -/
theorem getElem?_chomp {l : List Char} {i : Nat} {c : Char} (h : l[i]? = some c) (hn : c ≠ '\n')
    (hr : c ≠ '\r') : (chomp l)[i]? = some c := by
  have hkept (r e : List Char) (hl : l = r ++ e) (he : c ∉ e) : r[i]? = some c := by
    rw [hl, List.getElem?_append] at h
    split at h
    · exact h
    · exact absurd (List.mem_of_getElem? h) he
  unfold chomp
  split
  · next r hrev =>
    exact hkept r.reverse ['\r', '\n'] (by simpa using congrArg List.reverse hrev) (by simp [hn, hr])
  · next r _ hrev => exact hkept r.reverse ['\n'] (by simpa using congrArg List.reverse hrev) (by simp [hn])
  · exact h

/-- A character that ends no line is found in its line, in its column. -/
theorem exists_sourceLine (before rest : List Char) {c : Char} (hc : Solid c) :
    ∃ row, (sourceLines (before ++ c :: rest))[(placeAfter before).line - 1]? = some row ∧
      row[(placeAfter before).col - 1]? = some c := by
  obtain ⟨ls, l, rfl, hls, hl⟩ := exists_lastLine before
  have hreturn : c ≠ '\r' := by
    rintro rfl
    exact hc.1 (by decide)
  obtain ⟨more, others, hcut⟩ := exists_cutLines_eq hl hc.ne_newline rest
  have hcount : (ls ++ l).count '\n' = (cutLines ls).length := by
    rw [List.count_append, List.count_eq_zero.2 hl, length_cutLines hls, Nat.add_zero]
  refine ⟨chomp (l ++ c :: more), ?_, ?_⟩
  · rw [sourceLines, placeAfter, List.append_assoc, cutLines_append hls, hcut, hcount]
    simp
  · rw [placeAfter, takeWhile_reverse_of_endsLine hls hl]
    exact getElem?_chomp (by simp) hc.ne_newline hreturn

/-- An excerpt as it is read on the terminal, where colours take up no room: the line behind a gutter, and in
the next row a caret below the character `c`. -/
def CaretBelow (c : Option Char) (p : Position) (row : List Char) (text : String) : Prop :=
  ∃ gutter blanks : String, text = "  --> line " ++ toString p.line ++ ", column " ++ toString p.col ++
      "\n\x1b[90m" ++ gutter ++ "\x1b[39m" ++ String.ofList row ++ "\n\x1b[31m" ++ blanks ++ "^\x1b[39m\n" ∧
    (∀ b ∈ blanks.toList, b = ' ') ∧ (gutter.toList ++ row)[blanks.length]? = c

theorem caretBelow_excerpt (p : Position) (row : List Char) :
    CaretBelow row[p.col - 1]? p row (excerpt p row) := by
  have hgray (x : String) : Style.gray.apply x = "\x1b[90m" ++ x ++ "\x1b[39m" := rfl
  have hred (x : String) : Style.red.apply x = "\x1b[31m" ++ x ++ "\x1b[39m" := rfl
  unfold excerpt
  dsimp only
  generalize padded p.line ++ " | " = gutter
  generalize hblanks : String.ofList (List.replicate (gutter.length + (p.col - 1)) ' ') = blanks
  refine ⟨gutter, blanks, ?_, fun b hb => ?_, ?_⟩
  · rw [hgray, hred, ← String.toList_inj]
    simp
  · rw [← hblanks, String.toList_ofList] at hb
    exact List.eq_of_mem_replicate hb
  · rw [← hblanks, String.length_ofList, List.length_replicate, ← String.length_toList,
      List.getElem?_append_right (Nat.le_add_right _ _), Nat.add_sub_cancel_left]

end Console

/-- Blanks and comments that end a text. The last comment may go on to the end of the text. -/
def LastGap (cs : List Char) : Prop :=
  ∃ gap rest, cs = gap ++ rest ∧ Gap gap ∧ (rest = [] ∨ ∃ text, rest = '#' :: text ∧ '\n' ∉ text)

/-- A part of a text: a gap and the characters of the token after it. -/
structure Slice where
  gap : List Char
  text : List Char
  token : Token

namespace Slice

/-- The characters of slices one after the other, and of what is left in the end. -/
def joined : List Slice → List Char → List Char
  | [], last => last
  | x :: xs, last => x.gap ++ (x.text ++ joined xs last)

/-- Each slice is a gap and a token, if nothing but the next slices and what is left comes after it. -/
inductive Cover : List Slice → List Char → Prop where
  | last {cs : List Char} (h : LastGap cs) : Cover [] cs
  | cons {x : Slice} {xs : List Slice} {cs : List Char} (hgap : Gap x.gap)
      (htext : Scans x.text (joined xs cs).head? x.token) (rest : Cover xs cs) : Cover (x :: xs) cs

def lexemes (p : Position) : List Slice → List Char → List Lexeme
  | [], last => [⟨.endOfFile, p.afterAll last⟩]
  | x :: xs, last =>
    ⟨x.token, p.afterAll x.gap⟩ :: lexemes ((p.afterAll x.gap).afterAll x.text) xs last

theorem joined_append (xs ys : List Slice) (last : List Char) :
    joined (xs ++ ys) last = joined xs (joined ys last) := by
  induction xs with
  | nil => rfl
  | cons x xs ih => simp only [List.cons_append, joined, ih]

theorem joined_eq (xs : List Slice) (last : List Char) : joined xs last = joined xs [] ++ last := by
  induction xs with
  | nil => rfl
  | cons x xs ih =>
    rw [joined, ih]
    simp only [joined, List.append_assoc]

theorem Cover.right {xs ys : List Slice} {last : List Char} (h : Cover (xs ++ ys) last) :
    Cover ys last := by
  induction xs with
  | nil => exact h
  | cons x xs ih =>
    cases h with
    | cons hgap htext rest => exact ih rest

theorem Cover.token_ne {xs : List Slice} {last : List Char} (h : Cover xs last) :
    ∀ x ∈ xs, x.token ≠ .endOfFile := by
  induction h with
  | last => simp
  | cons hgap htext rest ih => exact List.forall_mem_cons.2 ⟨htext.token_ne_endOfFile, ih⟩

theorem Cover.lastGap {xs : List Slice} {last : List Char} (h : Cover xs last) : LastGap last := by
  induction h with
  | last h => exact h
  | cons hgap htext rest ih => exact ih

theorem map_token_lexemes (p : Position) (xs : List Slice) (last : List Char) :
    (lexemes p xs last).map (·.token) = xs.map (·.token) ++ [Token.endOfFile] := by
  induction xs generalizing p with
  | nil => rfl
  | cons x xs ih => rw [lexemes, List.map_cons, ih, List.map_cons, List.cons_append]

/-- After some slices comes the first token of the others. -/
theorem getElem?_lexemes (p : Position) (before rest : List Slice) (last : List Char) :
    (lexemes p (before ++ rest) last)[before.length]? =
      (lexemes (p.afterAll (joined before [])) rest last).head? := by
  induction before generalizing p with
  | nil => exact List.head?_eq_getElem?.symm
  | cons x before ih =>
    rw [List.cons_append, lexemes, List.length_cons, List.getElem?_cons_succ, ih]
    simp only [joined, Position.afterAll_append]

end Slice

/-- Every text is covered by slices, and scanning it gives their tokens. -/
theorem exists_cover (cs : List Char) (n : Nat) (p : Position) :
    ∃ xs last, cs = Slice.joined xs last ∧ Slice.Cover xs last ∧
      (Source.mk (cs.map .char) n p).lexemes.1 = Slice.lexemes p xs last := by
  induction hlen : cs.length using Nat.strongRecOn generalizing cs n p with
  | ind k ih =>
    obtain ⟨gap, rest, rfl, hgap, hrest⟩ := exists_gap cs
    have hskip : (Source.mk ((gap ++ rest).map .char) n p).lexemes =
        (Source.mk (rest.map .char) n (p.afterAll gap)).lexemes := by
      rw [List.map_append]
      exact Source.lexemes_congr (Source.nextLexeme_gap hgap _ n p)
    rcases hrest with rfl | ⟨c, ds, rfl, hc⟩ | ⟨text, rfl, htext⟩
    · refine ⟨[], gap ++ [], rfl, .last ⟨gap, [], rfl, hgap, .inl rfl⟩, ?_⟩
      rw [hskip, List.map_nil, Source.lexemes_nil, List.append_nil]
      rfl
    · obtain ⟨w, rest, t, hw, hscans, -⟩ : StartsToken (c :: ds) := hc.startsToken
      obtain ⟨d, v, hcons, -⟩ := hscans.solid
      have hshort : rest.length < k := by
        rw [← hlen, hw, hcons]
        simp only [List.length_append, List.length_cons]
        omega
      rw [← following_map] at hscans
      obtain ⟨n', hnext⟩ := Source.nextLexeme_scans hscans (atHand_map rest) n (p.afterAll gap)
      obtain ⟨xs, last, hjoined, hcover, hlexemes⟩ :=
        ih rest.length hshort rest n' ((p.afterAll gap).afterAll w) rfl
      refine ⟨⟨gap, w, t⟩ :: xs, last, ?_, ?_, ?_⟩
      · rw [hw, hjoined]
        rfl
      · rw [following_map, hjoined] at hscans
        exact .cons hgap hscans hcover
      · have hne : t ≠ .endOfFile := hscans.token_ne_endOfFile
        rw [hskip, hw, List.map_append, Source.lexemes_of_ne (by rwa [hnext]), hnext, hlexemes]
        rfl
    · refine ⟨[], gap ++ '#' :: text, rfl, .last ⟨gap, _, rfl, hgap, .inr ⟨text, rfl, htext⟩⟩, ?_⟩
      rw [hskip, Source.lexemes_comment htext, Slice.lexemes, Position.afterAll_append]

/-- The tokens of a text are slices of it, one after the other, with nothing but blanks and comments between
them and a last place for the end of the input. Each has the place of its first character, and a report that
speaks of this place shows the line with a caret below the character. -/
theorem lexemes_cover_text (cs : List Char) : ∃ xs last,
    cs = Slice.joined xs last ∧ LastGap last ∧
    (Source.ofText cs).lexemes.1.map (·.token) = xs.map (·.token) ++ [.endOfFile] ∧
    (∀ x ∈ xs, x.token ≠ .endOfFile) ∧
    (Source.ofText cs).lexemes.1[xs.length]? = some ⟨.endOfFile, placeAfter cs⟩ ∧
    ∀ before x after, xs = before ++ x :: after →
      Gap x.gap ∧ x.text ≠ [] ∧ Scans x.text (Slice.joined after last).head? x.token ∧
      ∃ p, p = placeAfter (Slice.joined before [] ++ x.gap) ∧
        (Source.ofText cs).lexemes.1[before.length]? = some ⟨x.token, p⟩ ∧
        ∃ row, (sourceLines cs)[p.line - 1]? = some row ∧ row[p.col - 1]? = x.text.head? ∧
          placeText (some cs) p = excerpt p row ∧ CaretBelow x.text.head? p row (excerpt p row) := by
  obtain ⟨xs, last, hjoined, hcover, hlexemes⟩ := exists_cover cs 0 {}
  have hall : (Source.ofText cs).lexemes.1 = Slice.lexemes {} xs last := hlexemes
  refine ⟨xs, last, hjoined, hcover.lastGap, ?_, hcover.token_ne, ?_, ?_⟩
  · rw [hall, Slice.map_token_lexemes]
  · have hend := Slice.getElem?_lexemes {} xs [] last
    rw [List.append_nil] at hend
    rw [hall, hend, Slice.lexemes, ← Position.afterAll_append, ← Slice.joined_eq, ← hjoined,
      afterAll_eq_placeAfter, List.head?_cons]
  · rintro before x after rfl
    cases hcover.right with
    | cons hgap htext rest =>
      obtain ⟨c, v, hsolid, hc⟩ := htext.solid
      have hsplit : cs = (Slice.joined before [] ++ x.gap) ++ c :: (v ++ Slice.joined after last) := by
        rw [hjoined, Slice.joined_append, Slice.joined_eq, Slice.joined, hsolid]
        simp
      obtain ⟨row, hrow, hcol⟩ := exists_sourceLine (Slice.joined before [] ++ x.gap)
        (v ++ Slice.joined after last) hc
      rw [← hsplit] at hrow
      have hfirst : row[(placeAfter (Slice.joined before [] ++ x.gap)).col - 1]? = x.text.head? := by
        rw [hcol, hsolid]
        rfl
      refine ⟨hgap, by simp [hsolid], htext, _, rfl, ?_, row, hrow, hfirst, ?_, ?_⟩
      · rw [hall, Slice.getElem?_lexemes, Slice.lexemes, ← Position.afterAll_append, afterAll_eq_placeAfter,
          List.head?_cons]
      · rw [placeText, Option.bind_some, hrow]
      · rw [← hfirst]
        exact caretBelow_excerpt _ row

end IntLang
