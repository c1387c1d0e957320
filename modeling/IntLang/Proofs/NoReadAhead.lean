import IntLang.Proofs.ItemRuns
import IntLang.Proofs.LineByLine
import IntLang.Proofs.Spending

/-! A parser does not read ahead of a finished item. When an item has been found, nothing is held, and of what
comes after its closing token no more has been asked for than it takes to see that the token is over. -/
namespace IntLang
open IntLang.Text IntLang.Text.Utf8

def Stmt.closing : Stmt → Token
  | .branch .. => .keyword .endIf
  | .loop .. => .keyword .endWhile
  | _ => .symbol .semicolon

def Item.closing : Item → Token
  | .function _ => .keyword .endDef
  | .statement s => s.closing

theorem Item.closing_cases (i : Item) :
    i.closing = .symbol .semicolon ∨ ∃ k, i.closing = .keyword k := by
  cases i with
  | function f => exact .inr ⟨_, rfl⟩
  | statement s => cases s <;> first | exact .inl rfl | exact .inr ⟨_, rfl⟩

/-- The closing token has a last character, which does not end a line. -/
theorem Item.spelling_closing (i : Item) : i.closing.spelling ≠ [] ∧ '\n' ∉ i.closing.spelling := by
  rcases i.closing_cases with hi | ⟨k, hi⟩
  · rw [hi]
    decide
  · rw [hi]
    cases k <;> decide

theorem Tree.exists_closing (t : Tree .stmt) : ∃ ts, t.tokens = ts ++ [Stmt.closing t.value] := by
  cases t with
  | assign name e =>
    exact ⟨.ident name :: .symbol .equal :: e.tokens, by simp [Tree.tokens, Tree.value, Stmt.closing]⟩
  | eval e => exact ⟨e.tokens, rfl⟩
  | branch cond body arms fallback =>
    exact ⟨.keyword .if_ :: (cond.tokens ++ .symbol .colon ::
      (body.tokens ++ (arms.tokens ++ fallback.tokens))),
      by simp [Tree.tokens, Tree.value, Stmt.closing]⟩
  | loop cond body =>
    exact ⟨.keyword .while_ :: (cond.tokens ++ .symbol .colon :: body.tokens),
      by simp [Tree.tokens, Tree.value, Stmt.closing]⟩
  | print args => exact ⟨.keyword .print :: args.tokens, by simp [Tree.tokens, Tree.value, Stmt.closing]⟩
  | ret e => exact ⟨.keyword .return_ :: e.tokens, by simp [Tree.tokens, Tree.value, Stmt.closing]⟩
  | pass => exact ⟨[.keyword .pass], rfl⟩

theorem ItemTree.exists_closing (t : ItemTree) : ∃ ts, t.tokens = ts ++ [t.value.closing] := by
  cases t with
  | statement s => exact s.exists_closing
  | function exported name params body =>
    refine ⟨(if exported then [Token.keyword .extern_] else []) ++ Token.keyword .def_ :: .ident name ::
      .symbol .lparen :: (paramTokens params ++ Token.symbol .rparen :: .symbol .colon :: body.tokens), ?_⟩
    simp [ItemTree.tokens, ItemTree.value, Item.closing]

namespace Source
variable {s t u : Source} {ts : List Token}

theorem Gives.exists_spent (h : Gives s ts t) : ∃ es, Spent s es t := by
  induction h with
  | nil s => exact ⟨[], .nothing rfl rfl⟩
  | cons hne rest ih =>
    obtain ⟨first, hfirst⟩ := exists_spent_nextLexeme _
    obtain ⟨more, hmore⟩ := ih
    exact ⟨first ++ more, hfirst.trans hmore⟩

/-- What a token costs beyond the events that are given away for it: where the input ends after a word,
one more request shows that the word is over. -/
def lastRequest (x : Token) (left : List Event) : Nat :=
  if x = .symbol .semicolon ∨ left ≠ [] then 0 else 1

/-- From `s` to `t` a source has given away `taken`, which ends with the token `x`, and after that no more
than the requests before the next character, which stays where it is. After a semicolon there are none. -/
structure StopsAfter (x : Token) (s : Source) (taken asked : List Event) (t : Source) : Prop where
  pending : s.pending = taken ++ (asked ++ t.pending)
  token : x.spelling.map .char <:+ withoutRequests taken
  last : taken.getLast? = x.spelling.getLast?.map .char
  quiet : Requests asked
  peeked : x = .symbol .semicolon ∧ asked = [] ∨ x ≠ .symbol .semicolon ∧ AtHand t.pending
  requests : t.requests = s.requests + (taken ++ asked).count .request + lastRequest x t.pending

namespace StopsAfter
variable {x : Token} {taken asked : List Event}

theorem taken_ne_nil (h : StopsAfter x s taken asked t) (hx : x.spelling ≠ []) : taken ≠ [] := by
  intro hnil
  have hlast := h.last
  rw [hnil, List.getLast?_nil, List.getLast?_eq_some_getLast hx] at hlast
  cases hlast

/-- What is read before the token counts as well. -/
theorem after {used : List Event} (h : StopsAfter x t taken asked u) (hx : x.spelling ≠ [])
    (hused : Spent s used t) : StopsAfter x s (used ++ taken) asked u := by
  have htaken := h.taken_ne_nil hx
  have hcost : t.requests = s.requests + used.count .request := hused.exact (by simp [h.pending, htaken])
  refine ⟨?_, ?_, ?_, h.quiet, h.peeked, ?_⟩
  · rw [hused.pending, h.pending, List.append_assoc]
  · rw [withoutRequests_append]
    exact h.token.trans (List.suffix_append ..)
  · rw [List.getLast?_append_of_ne_nil _ htaken, h.last]
  · rw [h.requests, hcost]
    simp only [List.count_append]
    omega

end StopsAfter

theorem stopsAfter_semicolon (h : s.nextLexeme.1.token = .symbol .semicolon) :
    ∃ taken asked, StopsAfter (.symbol .semicolon) s taken asked s.nextLexeme.2 := by
  obtain ⟨before, hpending, hrequests⟩ := exists_pending_of_semicolon h
  refine ⟨before ++ [Event.char ';'], [], ?_, ?_, ?_, .nil, .inl ⟨rfl, rfl⟩, ?_⟩
  · rw [hpending]
    simp
  · rw [withoutRequests_append]
    exact List.suffix_append ..
  · rw [List.getLast?_concat]
    rfl
  · rw [hrequests]
    simp [lastRequest]

theorem getLast?_of_withoutRequests {es : List Event} {w : List Char} (h : withoutRequests es = w.map .char)
    (hlast : es.getLast? ≠ some .request) : es.getLast? = w.getLast?.map .char := by
  rw [← List.getLast?_map, ← h]
  cases es using List.reverseRecOn with
  | nil => rfl
  | append_singleton es e =>
    rw [List.getLast?_concat] at hlast ⊢
    rw [withoutRequests_append]
    cases e with
    | request => exact absurd rfl hlast
    | char c => exact List.getLast?_concat.symm
    | broken e => exact List.getLast?_concat.symm

theorem stopsAfter_keyword {k : Keyword} (h : s.nextLexeme.1.token = .keyword k) :
    ∃ taken asked, StopsAfter (.keyword k) s taken asked s.nextLexeme.2 := by
  obtain ⟨before, t, word, asked, hbefore, -, hrun⟩ := exists_run_of_keyword h
  refine ⟨before ++ word, asked, StopsAfter.after ⟨?_, ?_, ?_, hrun.requests, ?_, ?_⟩ ?_ hbefore⟩
  · rw [hrun.spent.pending, List.append_assoc]
  · rw [hrun.heard]
    exact List.suffix_rfl
  · exact getLast?_of_withoutRequests hrun.heard hrun.last
  · exact .inr ⟨by simp, hrun.atHand⟩
  · by_cases hend : s.nextLexeme.2.pending = []
    · rw [hrun.ended hend, lastRequest, if_neg (by simp [hend])]
    · rw [hrun.spent.exact hend, lastRequest, if_pos (.inr hend), Nat.add_zero]
  · cases k <;> decide

/-- Where the closing token of an item has been read, nothing after it has. -/
theorem Gives.exists_stopsAfter {i : Item} (h : Gives s (ts ++ [i.closing]) t) :
    ∃ taken asked, StopsAfter i.closing s taken asked t := by
  obtain ⟨w, hbefore, hlast⟩ := h.split
  obtain ⟨used, hused⟩ := hbefore.exists_spent
  obtain ⟨hx, rfl⟩ := hlast.of_single
  have hstops : ∃ taken asked, StopsAfter i.closing w taken asked w.nextLexeme.2 := by
    rcases i.closing_cases with hi | ⟨k, hi⟩
    · rw [hi] at hx ⊢
      exact stopsAfter_semicolon hx
    · rw [hi] at hx ⊢
      exact stopsAfter_keyword hx
  obtain ⟨taken, asked, hstops⟩ := hstops
  exact ⟨used ++ taken, asked, hstops.after i.spelling_closing.1 hused⟩

/-- A beginning of pieces that are joined ends within one of them. -/
theorem exists_split_flatMap {α β : Type} {f : α → List β} {xs : List α} {a b : List β}
    (h : xs.flatMap f = a ++ b) (ha : a ≠ []) : ∃ before x after head tail, xs = before ++ x :: after ∧
      f x = head ++ tail ∧ head ≠ [] ∧ a = before.flatMap f ++ head ∧ b = tail ++ after.flatMap f := by
  induction xs generalizing a with
  | nil => exact absurd (List.append_eq_nil_iff.1 h.symm).1 ha
  | cons x xs ih =>
    rw [List.flatMap_cons] at h
    rcases List.append_eq_append_iff.1 h with ⟨a', rfl, hrest⟩ | ⟨tail, hx, rfl⟩
    · by_cases hnil : a' = []
      · subst hnil
        exact ⟨[], x, xs, f x, [], rfl, by simp, by simpa using ha, by simp, by simpa using hrest.symm⟩
      · obtain ⟨before, y, after, head, tail, rfl, hy, hhead, rfl, rfl⟩ := ih hrest hnil
        exact ⟨x :: before, y, after, head, tail, rfl, hy, hhead, by simp, rfl⟩
    · exact ⟨[], x, xs, a, tail, rfl, hx, ha, rfl, rfl⟩

variable {x : Token} {taken asked left : List Event}

/-- Where a source is made of pieces, what is taken ends within the piece that holds the end of the token. -/
theorem StopsAfter.exists_piece {α : Type} {f : α → List Event} {xs : List α}
    (h : StopsAfter x s taken asked t) (hx : x.spelling ≠ []) (hs : s.pending = xs.flatMap f) :
    ∃ before y after head tail, xs = before ++ y :: after ∧ f y = head ++ tail ∧
      head.getLast? = x.spelling.getLast?.map .char ∧
      taken = before.flatMap f ++ head ∧ asked ++ t.pending = tail ++ after.flatMap f := by
  obtain ⟨before, y, after, head, tail, hxs, hy, hhead, htaken, hleft⟩ :=
    exists_split_flatMap (hs.symm.trans h.pending) (h.taken_ne_nil hx)
  refine ⟨before, y, after, head, tail, hxs, hy, ?_, htaken, hleft⟩
  rw [← h.last, htaken, List.getLast?_append_of_ne_nil _ hhead]

def byChar (cs : List Char) : Source :=
  ⟨cs.flatMap fun c => [.request, .char c], 0, {}⟩

theorem count_byChar (cs : List Char) : (byChar cs).pending.count .request = cs.length := by
  induction cs with
  | nil => rfl
  | cons c cs ih => simpa [byChar] using ih

theorem withoutRequests_byChar (cs : List Char) : withoutRequests (byChar cs).pending = cs.map .char := by
  induction cs with
  | nil => rfl
  | cons c cs ih => exact congrArg (Event.char c :: ·) ih

theorem Requests.eq_nil (h : Requests asked) (hfirst : AtHand (asked ++ left)) : asked = [] := by
  cases asked with
  | nil => rfl
  | cons e asked =>
    rw [h e List.mem_cons_self] at hfirst
    exact absurd rfl hfirst

/-- A word is over when one more character has been asked for, or the end. -/
theorem count_asked_byChar {cs : List Char}
    (hasked : Requests asked) (hleft : AtHand left) (hx : x ≠ .symbol .semicolon)
    (h : asked ++ left = (byChar cs).pending) : asked.count .request + lastRequest x left = 1 := by
  cases asked with
  | nil =>
    cases cs with
    | nil =>
      obtain rfl : left = [] := h
      simp [lastRequest, hx]
    | cons c cs =>
      obtain rfl : left = .request :: .char c :: (byChar cs).pending := h
      exact absurd rfl hleft
  | cons e asked =>
    obtain ⟨rfl, hmore⟩ := List.forall_mem_cons.1 hasked
    cases cs with
    | nil => cases h
    | cons c cs =>
      have h : asked ++ left = .char c :: (byChar cs).pending := (List.cons.inj h).2
      have hfirst : AtHand (asked ++ left) := by simp [AtHand, h]
      obtain rfl := Requests.eq_nil hmore hfirst
      obtain rfl : left = .char c :: (byChar cs).pending := h
      simp [lastRequest]

/-- What does not end with a request ends with a whole piece. -/
theorem piece_eq {head tail : List Event} {c d : Char} (h : [.request, .char c] = head ++ tail)
    (hlast : head.getLast? = some (.char d)) : head = [.request, .char c] ∧ tail = [] := by
  rcases head with _ | ⟨e, _ | ⟨e', head⟩⟩
  · cases hlast
  · obtain rfl : Event.request = e := (List.cons.inj h).1
    cases hlast
  · simp only [List.cons_append, List.cons.injEq, List.nil_eq, List.append_eq_nil_iff] at h
    obtain ⟨rfl, rfl, rfl, rfl⟩ := h
    exact ⟨rfl, rfl⟩

/-- Of a text that is asked for by single characters, one character after the token has been asked for,
and none after a semicolon. -/
theorem StopsAfter.of_byChar {cs : List Char}
    (h : StopsAfter x (byChar cs) taken asked t) (hx : x.spelling ≠ []) :
    ∃ before after, cs = before ++ x.spelling ++ after ∧
      t.requests = (before ++ x.spelling).length + if x = .symbol .semicolon then 0 else 1 := by
  obtain ⟨before, c, after, head, tail, rfl, hpiece, hlast, htaken, hleft⟩ := h.exists_piece hx rfl
  rw [List.getLast?_eq_some_getLast hx] at hlast
  obtain ⟨rfl, rfl⟩ := piece_eq hpiece hlast
  have hpieces : taken = (byChar (before ++ [c])).pending := by
    rw [htaken]
    simp [byChar]
  have htoken := h.token
  rw [hpieces, withoutRequests_byChar] at htoken
  obtain ⟨first, hfirst⟩ := htoken
  obtain ⟨first, word, hsplit, rfl, hword⟩ := List.map_eq_append_iff.1 hfirst.symm
  obtain rfl : word = x.spelling := List.map_injective_iff.2 (fun _ _ => Event.char.inj) hword
  refine ⟨first, after, by rw [← hsplit]; simp, ?_⟩
  have hcost : asked.count .request + lastRequest x t.pending =
      if x = .symbol .semicolon then 0 else 1 := by
    rcases h.peeked with ⟨hx, rfl⟩ | ⟨hx, hpeeked⟩
    · simp [lastRequest, hx]
    · rw [if_neg hx, count_asked_byChar h.quiet hpeeked hx hleft]
  rw [h.requests, ← hsplit, ← count_byChar, ← hpieces, List.count_append, ← hcost]
  dsimp only [byChar]
  omega

/-- After a character of a line there are only characters of it, and there are some if the line ends in
a newline that is not the character. -/
theorem exists_lineEvents_tail {l : List UInt8} {head tail : List Event} {c : Char}
    (h : lineEvents l = head ++ tail) (hlast : head.getLast? = some (.char c)) :
    ∃ ds : List Char, tail = ds.map .char ∧ (l.getLast? = some newline → c ≠ '\n' → ds ≠ []) := by
  have hmem : .char c ∈ head := List.mem_of_getLast? hlast
  by_cases htext : IsText l
  · obtain ⟨s, hs⟩ := htext
    have hasked : Requests (if l.getLast? = some newline then [.request] else [.request, .request]) := by
      split
      · exact Requests.nil.cons
      · exact Requests.nil.cons.cons
    rw [lineEvents_text hs] at h
    rcases List.append_eq_append_iff.1 h.symm with ⟨bs, hbs, -⟩ | ⟨word, rfl, hword⟩
    · rw [hbs] at hasked
      cases hasked _ (List.mem_append_left _ hmem)
    · obtain ⟨cs, ds, hcs, rfl, rfl⟩ := List.map_eq_append_iff.1 hword
      refine ⟨ds, rfl, fun hl hc hds => hc ?_⟩
      obtain ⟨body, rfl⟩ := List.getLast?_eq_some_iff.1 hl
      obtain ⟨es, hes⟩ := exists_of_encode_eq hs
      rw [hds, List.append_nil, hes] at hcs
      rw [← hcs, List.map_append, List.map_singleton, ← List.append_assoc, List.getLast?_concat] at hlast
      exact (Event.char.inj (Option.some.inj hlast)).symm
  · have hbroken := List.mem_append_left tail hmem
    rw [← h, lineEvents_broken htext] at hbroken
    simp at hbroken

/-- Within a line the next character can be had without asking for another line. -/
theorem atHand_lines {line : List UInt8} {after : List (List UInt8)} {ds : List Char}
    (h : Lines (line :: after)) (hds : line.getLast? = some newline → ds ≠ []) :
    AtHand (ds.map Event.char ++ after.flatMap lineEvents) := by
  cases ds with
  | cons d ds => simp [AtHand]
  | nil =>
    cases h with
    | last => simp [AtHand]
    | cons body => exact absurd rfl (hds (by simp))

/-- Lines after the one that holds the end of the token have not been asked for. -/
theorem StopsAfter.of_lines {bs : List UInt8}
    (h : StopsAfter x (ofBytes bs) taken asked t) (hx : x.spelling ≠ []) (hnewline : '\n' ∉ x.spelling) :
    ∃ before line after head tail, splitLines bs = before ++ line :: after ∧
      lineEvents line = head ++ tail ∧ head.getLast? = x.spelling.getLast?.map .char ∧
      t.pending = tail ++ after.flatMap lineEvents ∧
      t.requests = ((before ++ [line]).flatMap lineEvents).count .request + lastRequest x t.pending := by
  obtain ⟨before, line, after, head, tail, hsplit, hline, hlast, htaken, hleft⟩ := h.exists_piece hx rfl
  have hchar := List.getLast?_eq_some_getLast hx
  obtain ⟨ds, rfl, hds⟩ := exists_lineEvents_tail hline (hlast.trans (congrArg (Option.map Event.char) hchar))
  have hlines : Lines (line :: after) := by
    have hall := lines_splitLines bs
    rw [hsplit] at hall
    exact hall.right
  have hmore (hl : line.getLast? = some newline) : ds ≠ [] :=
    hds hl fun hc => hnewline (hc ▸ List.getLast_mem hx)
  have hfirst : AtHand (asked ++ t.pending) := hleft ▸ atHand_lines hlines hmore
  obtain rfl := h.quiet.eq_nil hfirst
  refine ⟨before, line, after, head, ds.map .char, hsplit, hline, hlast, hleft, ?_⟩
  have hcount : (ds.map Event.char).count .request = 0 := List.count_eq_zero.2 (by simp)
  have htotal : ((before ++ [line]).flatMap lineEvents).count .request = taken.count .request := by
    rw [htaken, List.flatMap_append, List.flatMap_singleton, hline, ← List.append_assoc,
      List.count_append, hcount, Nat.add_zero]
  rw [h.requests, List.append_nil, htotal]
  exact congrArg (· + _) (Nat.zero_add _)

end Source

namespace Parser
variable {p r : Parser}

inductive Calls : Parser → List (Option Item) → Parser → Prop where
  | nil (p : Parser) : Calls p [] p
  | cons {p p' r : Parser} {o : Option Item} {os : List (Option Item)} (h : item p = .ok o p')
      (rest : Calls p' os r) : Calls p (o :: os) r

/-- Once the input has ended there are no more items. -/
theorem Calls.of_ended {os : List (Option Item)} (h : Calls p os r) (hp : p.rest = []) :
    ∀ o ∈ os, o = none := by
  induction h with
  | nil => exact fun _ h => absurd h List.not_mem_nil
  | cons hitem rest ih =>
    obtain ⟨q, hq, hrest⟩ := item_stops _ hp
    rw [hitem] at hq
    cases hq
    exact List.forall_mem_cons.2 ⟨rfl, ih hrest⟩

/-- Up to an item that is found, all calls have found one. -/
theorem Calls.exists_yields {os : List (Option Item)} {i : Item} (h : Calls p (os ++ [some i]) r) :
    ∃ items q, os = items.map some ∧ Yields p items q ∧ item q = .ok (some i) r := by
  induction os generalizing p with
  | nil =>
    cases h with
    | cons hitem rest =>
      cases rest
      exact ⟨[], p, rfl, .nil p, hitem⟩
  | cons o os ih =>
    cases h with
    | cons hitem rest =>
      cases o with
      | none =>
        have hend : p.rest = [] := by
          rcases item_sound hitem with ⟨-, hend⟩ | ⟨t, ht, -⟩
          · exact hend
          · cases ht
        cases (Calls.cons hitem rest).of_ended hend (some i) (by simp)
      | some j =>
        obtain ⟨items, q, rfl, hyields, hlast⟩ := ih rest
        exact ⟨j :: items, q, rfl, .cons hitem hyields, hlast⟩

end Parser

/-- When a call has found an item, the parser holds no token. What has been read makes up the items so
far and ends with the token that closes the last of them; of what comes after it at most one character
has been asked for, none if the token is a semicolon, and no line after the one that holds the end of
the token. -/
theorem item_reads_no_further {s : Source} {os : List (Option Item)} {i : Item} {r : Parser}
    (h : Parser.Calls { source := s } (os ++ [some i]) r) :
    (r.current = none ∧ r.lookahead = none) ∧
    (∃ t : ProgramTree, t.value.map some = os ++ [some i] ∧ t.tokens.getLast? = some i.closing ∧
      s.Gives t.tokens r.source) ∧
    (∃ taken asked, s.StopsAfter i.closing taken asked r.source) ∧
    (∀ cs, s = .byChar cs → ∃ before after, cs = before ++ i.closing.spelling ++ after ∧
      r.source.requests = (before ++ i.closing.spelling).length +
        if i.closing = .symbol .semicolon then 0 else 1) ∧
    ∀ bs, s = .ofBytes bs → ∃ before line after head tail, splitLines bs = before ++ line :: after ∧
      Source.lineEvents line = head ++ tail ∧ head.getLast? = i.closing.spelling.getLast?.map .char ∧
      r.source.pending = tail ++ after.flatMap Source.lineEvents ∧
      r.source.requests = ((before ++ [line]).flatMap Source.lineEvents).count .request +
        Source.lastRequest i.closing r.source.pending := by
  obtain ⟨items, q, rfl, hyields, hitem⟩ := h.exists_yields
  obtain ⟨t, u, rfl, -, hbefore, hq⟩ := hyields.gives (Parser.start_stands s)
  obtain ⟨last, v, rfl, -, hlast, hr⟩ := hq.item_ok hitem
  obtain ⟨rfl, hcurrent, hlookahead⟩ := hr.holds_nothing
  obtain ⟨ts, hts⟩ := last.exists_closing
  have htokens : ProgramTree.tokens (t ++ [last]) = (t.tokens ++ ts) ++ [last.value.closing] := by
    simp [ProgramTree.tokens, hts]
  have hgives : s.Gives (ProgramTree.tokens (t ++ [last])) r.source := by
    rw [htokens, List.append_assoc, ← hts]
    exact hbefore.trans hlast
  obtain ⟨taken, asked, hstops⟩ := (htokens ▸ hgives).exists_stopsAfter
  obtain ⟨hne, hnewline⟩ := last.value.spelling_closing
  refine ⟨⟨hcurrent, hlookahead⟩, ⟨t ++ [last], ?_, ?_, hgives⟩, ⟨taken, asked, hstops⟩, ?_, ?_⟩
  · simp [ProgramTree.value]
  · rw [htokens, List.getLast?_concat]
  · rintro cs rfl
    exact hstops.of_byChar hne
  · rintro bs rfl
    exact hstops.of_lines hne hnewline

/-- After `enddef` the newline is asked for, and the line after it is not. -/
theorem item_reads_no_further_at_enddef :
    ∃ r, Parser.Calls { source := .ofBytes (encode "pass;def f(): enddef\npass;") }
      ([some (.statement .pass)] ++ [some (.function ⟨"f", [], [], false⟩)]) r ∧
    (r.current = none ∧ r.lookahead = none) ∧
    ∃ before line after head tail,
      splitLines (encode "pass;def f(): enddef\npass;") = before ++ line :: after ∧
      Source.lineEvents line = head ++ tail ∧ head.getLast? = some (.char 'f') ∧
      r.source.pending = tail ++ after.flatMap Source.lineEvents ∧
      r.source.requests = ((before ++ [line]).flatMap Source.lineEvents).count .request +
        Source.lastRequest (.keyword .endDef) r.source.pending := by
  have htokens : (Source.ofBytes (encode "pass;def f(): enddef\npass;")).tokens =
      ItemTree.tokens (.statement .pass) ++ (ItemTree.tokens (.function false "f" [] .empty) ++
        ItemTree.tokens (.statement .pass)) := by decide +kernel
  have hpass : (ItemTree.statement .pass).Distinct := trivial
  have hdef : (ItemTree.function false "f" [] .empty).Distinct := List.nodup_nil
  obtain ⟨q, hfirst, hq⟩ := Parser.item_reads hpass _ { source := .ofBytes _ } htokens
  obtain ⟨r, hsecond, -⟩ := Parser.item_reads hdef _ q hq
  have hcalls : Parser.Calls _ ([_] ++ [_]) r := .cons hfirst (.cons hsecond (.nil r))
  obtain ⟨hnothing, -, -, -, hlines⟩ := item_reads_no_further hcalls
  exact ⟨r, hcalls, hnothing, hlines _ rfl⟩

end IntLang
