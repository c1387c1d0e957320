import IntLang.Proofs.Encoding
import IntLang.Proofs.Lookahead

/-! Scanning line by line. A line that cannot be read stands in the tokens for itself, between those of
the lines before and after it; the other lines are scanned as one text. The reason is that no token and no
comment goes on past a newline, so that the tokens of a text can be cut after each newline. -/
namespace IntLang
open IntLang.Text IntLang.Text.Utf8

def Lexeme.isUnreadable (l : Lexeme) : Bool :=
  match l.token with
  | .invalid (.unreadable _) => true
  | _ => false

/-- A token of the text: neither the end of the input nor a line that could not be read. -/
def Lexeme.Spoken (l : Lexeme) : Prop :=
  l.token ≠ .endOfFile ∧ l.isUnreadable = false

def EndsLine (cs : List Char) : Prop :=
  ∀ c, cs.getLast? = some c → c = '\n'

theorem EndsLine.right {cs ds : List Char} (h : EndsLine (cs ++ ds)) : EndsLine ds := by
  intro c hc
  exact h c (by rw [List.getLast?_append, hc, Option.some_or])

theorem not_endsLine_of_not_mem {cs ds : List Char} (hne : ds ≠ []) (hd : '\n' ∉ ds) :
    ¬ EndsLine (cs ++ ds) := by
  intro h
  obtain ⟨c, hc⟩ := Option.isSome_iff_exists.1 (List.getLast?_isSome.2 hne)
  exact hd (h.right c hc ▸ List.mem_of_getLast? hc)

namespace Source

theorem lexemes_requests (es : List Event) (n : Nat) (p : Position) :
    (Source.mk es n p).lexemes.1 = (Source.mk es 0 p).lexemes.1 := by
  have hbeside : Beside 0 (Source.mk es 0 p) (Source.mk es n p) := ⟨rfl, rfl⟩
  rw [hbeside.lexemes]
  exact List.map_id _

theorem lexemes_congr {s t : Source} (h : s.nextLexeme = t.nextLexeme) : s.lexemes = t.lexemes := by
  rw [lexemes.eq_def s, lexemes.eq_def t, h]

theorem lexemes_nil (n : Nat) (p : Position) :
    (Source.mk [] n p).lexemes.1 = [⟨.endOfFile, p⟩] :=
  lexemes_of_end rfl

/-- A comment that no newline ends takes all that is left. -/
theorem lexemes_comment {text : List Char} (h : '\n' ∉ text) (n : Nat) (p : Position) :
    (Source.mk (('#' :: text).map .char) n p).lexemes.1 = [⟨.endOfFile, p.afterAll ('#' :: text)⟩] := by
  have hskip : (Source.mk (('#' :: text).map .char) n p).skipBlank =
      ⟨[], n + 2, p.afterAll ('#' :: text)⟩ := by
    have := skipBlankFrom_comment h [] n (p.after '#')
    rw [List.append_nil] at this
    exact this
  have hnext : (Source.mk (('#' :: text).map .char) n p).nextLexeme =
      (⟨.endOfFile, p.afterAll ('#' :: text)⟩, ⟨[], n + 3, p.afterAll ('#' :: text)⟩) := by
    rw [nextLexeme, hskip]
    rfl
  rw [lexemes_of_end (by rw [hnext]), hnext]

theorem spoken_of_scans {w : List Char} {next : Option Char} {t : Token} (h : Scans w next t)
    (p : Position) : (Lexeme.mk t p).Spoken := by
  refine ⟨h.token_ne_endOfFile, ?_⟩
  cases h with
  | number =>
    unfold numberToken
    split <;> rfl
  | word =>
    unfold wordToken
    dsimp only
    split <;> rfl
  | _ => rfl

theorem following_append {cs : List Char} {es : List Event} (h : cs = [] → es = []) :
    following (cs.map .char ++ es) = cs.head? := by
  cases cs with
  | nil => rw [h rfl]; rfl
  | cons c cs => rfl

theorem atHand_append {cs : List Char} {es : List Event} (h : .request ∉ es) :
    AtHand (cs.map .char ++ es) := by
  cases cs with
  | nil =>
    intro hhead
    exact h (List.mem_of_head? hhead)
  | cons c cs => simp [AtHand]

/-- The tokens of a text that ends its line do not depend on what follows it, and what follows is scanned
on its own. -/
theorem exists_lexemes_append (cs : List Char) (p : Position) :
    ∃ xs : List Lexeme, (∀ x ∈ xs, x.Spoken) ∧ ∀ es n, EndsLine cs ∨ es = [] → .request ∉ es →
      (Source.mk (cs.map .char ++ es) n p).lexemes.1 =
        xs ++ (Source.mk es 0 (p.afterAll cs)).lexemes.1 := by
  induction hlen : cs.length using Nat.strongRecOn generalizing cs p with
  | ind k ih =>
    obtain ⟨gap, rest, rfl, hgap, hrest⟩ := exists_gap cs
    have hskip (es : List Event) (n : Nat) :
        (Source.mk ((gap ++ rest).map .char ++ es) n p).lexemes =
          (Source.mk (rest.map .char ++ es) n (p.afterAll gap)).lexemes := by
      rw [List.map_append, List.append_assoc]
      exact lexemes_congr (nextLexeme_gap hgap _ n p)
    rcases hrest with rfl | ⟨c, ds, rfl, hc⟩ | ⟨text, rfl, htext⟩
    · refine ⟨[], by simp, fun es n _ _ => ?_⟩
      rw [hskip, List.append_nil, List.map_nil, List.nil_append, lexemes_requests, List.nil_append]
    · obtain ⟨w, rest, t, hw, hscans, hline⟩ : StartsToken (c :: ds) := hc.startsToken
      have hne : w ≠ [] := by
        obtain ⟨d, v, rfl, -⟩ := hscans.solid
        simp
      have hshort : rest.length < k := by
        have hpos := List.length_pos_iff.2 hne
        rw [← hlen, hw]
        simp only [List.length_append]
        omega
      obtain ⟨xs, hxs, hcut⟩ := ih rest.length hshort rest ((p.afterAll gap).afterAll w) rfl
      refine ⟨⟨t, p.afterAll gap⟩ :: xs, ?_, fun es n hes hreq => ?_⟩
      · exact List.forall_mem_cons.2 ⟨spoken_of_scans hscans _, hxs⟩
      · rw [hw] at hes ⊢
        have hend : rest = [] → es = [] := by
          rintro rfl
          rw [List.append_nil] at hes
          exact hes.resolve_left (not_endsLine_of_not_mem hne hline)
        have hrest : EndsLine rest ∨ es = [] := hes.imp_left fun h => h.right.right
        obtain ⟨n', hnext⟩ := nextLexeme_scans (following_append hend ▸ hscans) (atHand_append hreq) n
          (p.afterAll gap)
        rw [← hw, hskip, hw, List.map_append, List.append_assoc,
          lexemes_of_ne (by rw [hnext]; exact hscans.token_ne_endOfFile), hnext,
          hcut es n' hrest hreq]
        simp
    · refine ⟨[], by simp, fun es n hes _ => ?_⟩
      obtain rfl : es = [] :=
        hes.resolve_left (not_endsLine_of_not_mem (by simp) (by simpa using htext))
      rw [hskip, List.append_nil, lexemes_comment htext, lexemes_nil]
      simp

def lineSource (ls : List (List UInt8)) (p : Position) : Source :=
  ⟨withoutRequests (ls.flatMap lineEvents), 0, p⟩

def lineLexemes (ls : List (List UInt8)) (p : Position) : List Lexeme :=
  (lineSource ls p).lexemes.1

theorem lexemes_ofBytes_at (bs : List UInt8) (p : Position) :
    ({ ofBytes bs with position := p } : Source).lexemes.1 = lineLexemes (splitLines bs) p := by
  have hbeside : Beside 0 (lineSource (splitLines bs) p) { ofBytes bs with position := p } :=
    ⟨(withoutRequests_idem _).symm, rfl⟩
  rw [hbeside.lexemes]
  exact List.map_id _

theorem withoutRequests_append (es fs : List Event) :
    withoutRequests (es ++ fs) = withoutRequests es ++ withoutRequests fs :=
  List.filter_append ..

theorem withoutRequests_map_char (cs : List Char) :
    withoutRequests (cs.map .char) = cs.map .char := by
  induction cs with
  | nil => rfl
  | cons c cs ih => rw [List.map_cons, withoutRequests_char, ih]

variable {l : List UInt8} {ls : List (List UInt8)}

/-- A line that does not end in a newline is asked for twice. -/
theorem lineEvents_text {s : String} (h : encode s = l) :
    lineEvents l = (if l.getLast? = some newline then [Event.request] else [.request, .request]) ++
      s.toList.map Event.char := by
  rw [lineEvents, decodeLine_text h]

theorem lineEvents_broken (h : ¬ IsText l) : lineEvents l = [.request, .broken .invalidUtf8] := by
  rw [isText_iff, Option.not_isSome_iff_eq_none] at h
  have hdecode : decodeLine l = .error .invalidUtf8 := by rw [decodeLine, h]
  rw [lineEvents, hdecode]

theorem withoutRequests_text {s : String} (h : encode s = l) :
    withoutRequests (lineEvents l) = s.toList.map .char := by
  rw [lineEvents_text h, withoutRequests_append, withoutRequests_map_char]
  split <;> rfl

theorem withoutRequests_broken_line (h : ¬ IsText l) :
    withoutRequests (lineEvents l) = [.broken .invalidUtf8] := by
  rw [lineEvents_broken h]
  rfl

theorem lineLexemes_nil (p : Position) : lineLexemes [] p = [⟨.endOfFile, p⟩] :=
  lexemes_nil 0 p

/-- A line that cannot be read is one token and takes no place. -/
theorem lineLexemes_broken (h : ¬ IsText l) (ls : List (List UInt8)) (p : Position) :
    lineLexemes (l :: ls) p = ⟨.invalid (.unreadable .invalidUtf8), p⟩ :: lineLexemes ls p := by
  have hnext : (lineSource (l :: ls) p).nextLexeme =
      (⟨.invalid (.unreadable .invalidUtf8), p⟩, lineSource ls p) := by
    rw [lineSource, List.flatMap_cons, withoutRequests_append, withoutRequests_broken_line h]
    rfl
  rw [lineLexemes, lexemes_of_ne (by simp [hnext]), hnext]
  rfl

/-- The tokens of a line that can be read do not depend on the lines after it. -/
theorem exists_lineLexemes_text (h : IsText l) (p : Position) : ∃ xs q, (∀ x ∈ xs, x.Spoken) ∧
      ∀ ls, Lines (l :: ls) → lineLexemes (l :: ls) p = xs ++ lineLexemes ls q := by
  obtain ⟨s, hs⟩ := h
  obtain ⟨xs, hxs, hcut⟩ := exists_lexemes_append s.toList p
  refine ⟨xs, p.afterAll s.toList, hxs, fun ls hls => ?_⟩
  rw [lineLexemes, lineSource, List.flatMap_cons, withoutRequests_append, withoutRequests_text hs]
  refine hcut _ 0 ?_ (request_not_mem_withoutRequests _)
  cases hls with
  | last => exact .inr rfl
  | cons body =>
    obtain ⟨ds, hds⟩ := exists_of_encode_eq hs
    refine .inl fun c hc => ?_
    rw [hds, List.getLast?_concat] at hc
    exact (Option.some.inj hc).symm

/-- Lines that can all be read give the characters of one text. -/
theorem exists_withoutRequests_eq (h : ∀ l ∈ ls, IsText l) : ∃ s : String, encode s = ls.flatten ∧
      withoutRequests (ls.flatMap lineEvents) = s.toList.map .char := by
  induction ls with
  | nil => exact ⟨"", encode_eq_flatMap "", rfl⟩
  | cons l ls ih =>
    obtain ⟨⟨s, hs⟩, hls⟩ := List.forall_mem_cons.1 h
    obtain ⟨t, ht, hevents⟩ := ih hls
    refine ⟨s ++ t, ?_, ?_⟩
    · rw [List.flatten_cons, ← hs, ← ht, encode_append]
    · rw [List.flatMap_cons, withoutRequests_append, withoutRequests_text hs, hevents,
        String.toList_append, List.map_append]

/-- Reading the bytes of a text gives its characters. -/
theorem beside_ofBytes (s : String) : Beside 0 (ofText s.toList) (ofBytes (encode s)) := by
  have htext : IsText (splitLines (encode s)).flatten := ⟨s, (flatten_splitLines _).symm⟩
  obtain ⟨t, ht, hevents⟩ := exists_withoutRequests_eq ((lines_splitLines _).isText htext)
  rw [flatten_splitLines] at ht
  obtain rfl := encode_injective ht
  exact ⟨hevents.trans (withoutRequests_map_char _).symm, rfl⟩

theorem filter_spoken {xs : List Lexeme} (h : ∀ x ∈ xs, x.Spoken) : xs.filter (! ·.isUnreadable) = xs :=
  List.filter_eq_self.2 fun x hx => by simp [(h x hx).2]

theorem countP_spoken {xs : List Lexeme} (h : ∀ x ∈ xs, x.Spoken) : xs.countP Lexeme.isUnreadable = 0 :=
  List.countP_eq_zero.2 fun x hx => by simp [(h x hx).2]

/-- Without the tokens of the lines that cannot be read, the tokens are those of the other lines. -/
theorem filter_lineLexemes (h : Lines ls) (p : Position) :
    (lineLexemes ls p).filter (! ·.isUnreadable) = lineLexemes (ls.filter (IsText ·)) p := by
  induction ls generalizing p with
  | nil =>
    rw [List.filter_nil, lineLexemes_nil]
    rfl
  | cons l ls ih =>
    by_cases hl : IsText l
    · obtain ⟨xs, q, hxs, hcut⟩ := exists_lineLexemes_text hl p
      have hkept : Lines (l :: ls.filter (IsText ·)) := by
        simpa [hl] using h.filter (IsText ·)
      rw [hcut ls h, List.filter_append, filter_spoken hxs, ih h.tail,
        List.filter_cons_of_pos (by simpa using hl), hcut _ hkept]
    · rw [lineLexemes_broken hl, List.filter_cons_of_neg (by simp [Lexeme.isUnreadable]),
        List.filter_cons_of_neg (by simpa using hl), ih h.tail]

theorem countP_lineLexemes (h : Lines ls) (p : Position) :
    (lineLexemes ls p).countP Lexeme.isUnreadable = ls.countP (¬ IsText ·) := by
  induction ls generalizing p with
  | nil =>
    rw [lineLexemes_nil]
    rfl
  | cons l ls ih =>
    by_cases hl : IsText l
    · obtain ⟨xs, q, hxs, hcut⟩ := exists_lineLexemes_text hl p
      rw [hcut ls h, List.countP_append, countP_spoken hxs, ih h.tail, Nat.zero_add,
        List.countP_cons_of_neg (by simpa using hl)]
    · rw [lineLexemes_broken hl, List.countP_cons_of_pos (by rfl),
        List.countP_cons_of_pos (by simpa using hl), ih h.tail]

/-- The token of a line that cannot be read stands where the tokens of the lines before it end, and those
of the lines after it follow. -/
theorem exists_lineLexemes_split {before after : List (List UInt8)}
    (h : Lines (before ++ l :: after)) (hl : ¬ IsText l) (p : Position) :
    ∃ xs q, lineLexemes before p = xs ++ [⟨.endOfFile, q⟩] ∧
      lineLexemes (before ++ l :: after) p =
        xs ++ ⟨.invalid (.unreadable .invalidUtf8), q⟩ :: lineLexemes after q := by
  induction before generalizing p with
  | nil => exact ⟨[], p, lineLexemes_nil p, lineLexemes_broken hl after p⟩
  | cons b before ih =>
    by_cases hb : IsText b
    · obtain ⟨ys, r, -, hcut⟩ := exists_lineLexemes_text hb p
      obtain ⟨xs, q, hbefore, hall⟩ := ih h.tail r
      refine ⟨ys ++ xs, q, ?_, ?_⟩
      · rw [hcut before h.left, hbefore, List.append_assoc]
      · rw [List.cons_append, hcut (before ++ l :: after) h, hall, List.append_assoc]
    · obtain ⟨xs, q, hbefore, hall⟩ := ih h.tail p
      refine ⟨⟨.invalid (.unreadable .invalidUtf8), p⟩ :: xs, q, ?_, ?_⟩
      · rw [lineLexemes_broken hb, hbefore]
        rfl
      · rw [List.cons_append, lineLexemes_broken hb, hall]
        rfl

/-- The tokens of a source end in the end of the input, which is nowhere else among them. -/
theorem exists_lexemes_eq_append (s : Source) :
    ∃ xs q, s.lexemes.1 = xs ++ [Lexeme.mk .endOfFile q] ∧ ∀ x ∈ xs, x.token ≠ .endOfFile := by
  induction hn : s.size using Nat.strongRecOn generalizing s with
  | ind n ih =>
    by_cases hend : s.nextLexeme.1.token = .endOfFile
    · refine ⟨[], s.nextLexeme.1.position, ?_, by simp⟩
      rw [lexemes_of_end hend, ← hend]
      rfl
    · obtain ⟨xs, q, hrest, hxs⟩ := ih _ (hn ▸ s.size_nextLexeme_lt hend) s.nextLexeme.2 rfl
      refine ⟨s.nextLexeme.1 :: xs, q, ?_, List.forall_mem_cons.2 ⟨hend, hxs⟩⟩
      rw [lexemes_of_ne hend, hrest]
      rfl

end Source

/-- Bytes that are read line by line give the tokens of the lines that are texts, scanned as one text, and
between them one token for each line that is none. A lexer that looks one character ahead gives these tokens,
and requests lines as often. -/
theorem lexemes_ofBytes (bs : List UInt8) :
    (∃ s : String, encode s = ((splitLines bs).filter (IsText ·)).flatten ∧
      (Source.ofBytes bs).lexemes.1.filter (! ·.isUnreadable) = (Source.ofText s.toList).lexemes.1) ∧
    (∃ xs p, (Source.ofBytes bs).lexemes.1 = xs ++ [⟨.endOfFile, p⟩] ∧
      ∀ x ∈ xs, x.token ≠ .endOfFile) ∧
    (Source.ofBytes bs).lexemes.1.countP Lexeme.isUnreadable = (splitLines bs).countP (¬ IsText ·) ∧
    (∀ before l after, splitLines bs = before ++ l :: after → ¬ IsText l →
      ∃ xs p, (Source.ofBytes before.flatten).lexemes.1 = xs ++ [⟨.endOfFile, p⟩] ∧
        (Source.ofBytes bs).lexemes.1 = xs ++ ⟨.invalid (.unreadable .invalidUtf8), p⟩ ::
          ({ Source.ofBytes after.flatten with position := p } : Source).lexemes.1) ∧
    (∀ s : String, encode s = bs → (Source.ofBytes bs).lexemes.1 = (Source.ofText s.toList).lexemes.1) ∧
    (Lexer.ofBytes bs).lexemes.1 = (Source.ofBytes bs).lexemes.1 ∧
    (Lexer.ofBytes bs).lexemes.2.chars.requests = (Source.ofBytes bs).lexemes.2.requests ∧
    ∀ cs, (Lexer.ofText cs).lexemes.1 = (Source.ofText cs).lexemes.1 := by
  have hlines := lines_splitLines bs
  have hbytes (ls : List (List UInt8)) (h : Lines ls) (p : Position) :
      ({ Source.ofBytes ls.flatten with position := p } : Source).lexemes.1 = Source.lineLexemes ls p := by
    rw [Source.lexemes_ofBytes_at, h.splitLines_flatten]
  have hall : (Source.ofBytes bs).lexemes.1 = Source.lineLexemes (splitLines bs) {} :=
    Source.lexemes_ofBytes_at bs {}
  refine ⟨?_, Source.exists_lexemes_eq_append _, ?_, ?_, ?_, ?_, ?_, ?_⟩
  · have htexts : ∀ l ∈ (splitLines bs).filter (IsText ·), IsText l := by
      intro l hl
      simpa using (List.mem_filter.1 hl).2
    obtain ⟨s, hs, hevents⟩ := Source.exists_withoutRequests_eq htexts
    refine ⟨s, hs, ?_⟩
    rw [hall, Source.filter_lineLexemes hlines, Source.lineLexemes, Source.lineSource, hevents]
    rfl
  · rw [hall, Source.countP_lineLexemes hlines]
  · intro before l after hsplit hl
    rw [hsplit] at hlines hall
    obtain ⟨xs, p, hbefore, hmid⟩ := Source.exists_lineLexemes_split hlines hl {}
    refine ⟨xs, p, ?_, ?_⟩
    · rw [← hbefore]
      exact hbytes before hlines.left {}
    · rw [hall, hmid, hbytes after hlines.right.tail]
  · rintro s rfl
    rw [(Source.beside_ofBytes s).lexemes]
    exact List.map_id _
  · rw [Lexer.ofBytes_lexemes]
  · rw [Lexer.ofBytes_lexemes]
    rfl
  · intro cs
    rw [Lexer.ofText_lexemes]

/-- Of the lines `1`, a byte that is no text, and `2`, the one in the middle. -/
theorem lexemes_ofBytes_middle :
    splitLines [49, 10, 255, 10, 50] = [[49, 10]] ++ [255, 10] :: [[50]] ∧ ¬ IsText [255, 10] ∧
      ∃ xs p, (Source.ofBytes [[49, 10]].flatten).lexemes.1 = xs ++ [⟨.endOfFile, p⟩] ∧
        (Source.ofBytes [49, 10, 255, 10, 50]).lexemes.1 =
          xs ++ ⟨.invalid (.unreadable .invalidUtf8), p⟩ ::
            ({ Source.ofBytes [[50]].flatten with position := p } : Source).lexemes.1 := by
  have hsplit : splitLines [49, 10, 255, 10, 50] = [[49, 10]] ++ [255, 10] :: [[50]] := by decide
  have hbroken : ¬ IsText [255, 10] := by decide
  exact ⟨hsplit, hbroken,
    (lexemes_ofBytes [49, 10, 255, 10, 50]).2.2.2.1 [[49, 10]] [255, 10] [[50]] hsplit hbroken⟩

end IntLang
