import IntLang.Proofs.Alignment
import IntLang.Proofs.Spelling

/-! What reading takes from a source: which events are given away for a token, and how often more of them are
asked for. A symbol that cannot be the start of a longer one takes nothing but its own characters; a word
takes the requests before the character after it, and leaves that character where it is. -/
namespace IntLang.Source
open IntLang.Text Scanner

/-- Between `s` and `t` the events `es` have been given away. More has been asked for than these say only if
there is nothing left. -/
structure Spent (s : Source) (es : List Event) (t : Source) : Prop where
  pending : s.pending = es ++ t.pending
  requests : s.requests + es.count .request ≤ t.requests
  exact : t.pending ≠ [] → t.requests = s.requests + es.count .request

namespace Spent
variable {s t u : Source} {es fs : List Event}

theorem nothing (hp : s.pending = t.pending) (hr : t.requests = s.requests) : Spent s [] t :=
  ⟨hp, Nat.le_of_eq hr.symm, fun _ => hr⟩

theorem trans (h : Spent s es t) (h' : Spent t fs u) : Spent s (es ++ fs) u := by
  have hle := h.requests
  have hle' := h'.requests
  refine ⟨by rw [h.pending, h'.pending, List.append_assoc], ?_, ?_⟩
  · rw [List.count_append]
    omega
  · intro hne
    have hmid : t.pending ≠ [] := by
      rw [h'.pending]
      simp [hne]
    rw [h'.exact hne, h.exact hmid, List.count_append, Nat.add_assoc]

theorem cons {e : Event} {n m : Nat} {p q : Position} (h : Spent ⟨es, m, q⟩ fs t)
    (hm : m = n + [e].count .request) : Spent ⟨e :: es, n, p⟩ (e :: fs) t := by
  have hfirst : Spent ⟨e :: es, n, p⟩ [e] ⟨es, m, q⟩ := ⟨rfl, Nat.le_of_eq hm.symm, fun _ => hm⟩
  exact hfirst.trans h

end Spent

def Requests (es : List Event) : Prop :=
  ∀ e ∈ es, e = .request

theorem Requests.nil : Requests [] :=
  fun _ h => absurd h List.not_mem_nil

theorem Requests.cons {es : List Event} (h : Requests es) : Requests (.request :: es) :=
  List.forall_mem_cons.2 ⟨rfl, h⟩

/-- Asking for a character takes the requests before it. -/
theorem spent_demandFrom (es : List Event) (n : Nat) (p q : Position) :
    ∃ asked, Requests asked ∧ Spent ⟨es, n, q⟩ asked (demandFrom es n p).2 := by
  induction es generalizing n with
  | nil => exact ⟨[], .nil, rfl, by simp [demandFrom], by simp [demandFrom]⟩
  | cons e es ih =>
    cases e with
    | request =>
      obtain ⟨asked, hasked, hspent⟩ := ih (n + 1)
      exact ⟨.request :: asked, hasked.cons, hspent.cons (by simp)⟩
    | char c => exact ⟨[], .nil, .nothing rfl rfl⟩
    | broken e => exact ⟨[], .nil, .nothing rfl rfl⟩

theorem spent_demand (s : Source) : ∃ asked, Requests asked ∧ Spent s asked s.demand.2 :=
  spent_demandFrom s.pending s.requests s.position s.position

theorem exists_spent_drop (s : Source) : ∃ es, Spent s es s.drop := by
  unfold drop
  split
  · next c es h => exact ⟨[.char c], h, by simp, by simp⟩
  · next e es h => exact ⟨[.broken e], h, by simp, by simp⟩
  · exact ⟨[], .nothing rfl rfl⟩

/-- Blanks and comments are given away with the requests among them. -/
theorem exists_spent_skipBlankFrom (comment : Bool) (es : List Event) (n : Nat) (p q : Position) :
    ∃ used, Spent ⟨es, n, q⟩ used (skipBlankFrom comment es n p) := by
  induction es generalizing comment n p with
  | nil => exact ⟨[], rfl, by cases comment <;> simp [skipBlankFrom], by simp [skipBlankFrom]⟩
  | cons e es ih =>
    have hstep (comment' : Bool) (m : Nat) (p' : Position) (hm : m = n + [e].count .request) :
        ∃ used, Spent ⟨e :: es, n, q⟩ used (skipBlankFrom comment' es m p') := by
      obtain ⟨used, hused⟩ := ih comment' m p'
      exact ⟨e :: used, hused.cons hm⟩
    cases e with
    | request => cases comment <;> exact hstep _ (n + 1) p (by simp)
    | broken e => cases comment <;> exact ⟨[], .nothing rfl rfl⟩
    | char c =>
      cases comment with
      | true => exact hstep (c != '\n') n (p.after c) (by simp)
      | false =>
        rw [skipBlankFrom]
        split
        · exact hstep false n (p.after c) (by simp)
        split
        · exact hstep true n (p.after c) (by simp)
        · exact ⟨[], .nothing rfl rfl⟩

/-- What is given away for a run of characters `w`: the characters, with requests before and among them, and
the requests before the next character, which is asked for and stays. -/
structure Run (s : Source) (w : List Char) (word asked : List Event) (t : Source) : Prop where
  spent : Spent s (word ++ asked) t
  heard : withoutRequests word = w.map .char
  last : word.getLast? ≠ some .request
  requests : Requests asked
  atHand : AtHand t.pending
  ended : t.pending = [] → t.requests = s.requests + (word ++ asked).count .request + 1

theorem exists_run_takeWhileFrom (keep : Char → Bool) (es : List Event) (n : Nat) (p q : Position) :
    ∃ word asked, Run ⟨es, n, q⟩ (takeWhileFrom keep es n p).1 word asked
      (takeWhileFrom keep es n p).2 := by
  induction es generalizing n p with
  | nil => exact ⟨[], [], ⟨rfl, by simp [takeWhileFrom], by simp [takeWhileFrom]⟩, rfl, by simp, .nil,
      by simp [AtHand, takeWhileFrom], fun _ => rfl⟩
  | cons e es ih =>
    cases e with
    | request =>
      obtain ⟨word, asked, h⟩ := ih (n + 1) p
      have hended (hend : (takeWhileFrom keep es (n + 1) p).2.pending = []) :
          (takeWhileFrom keep es (n + 1) p).2.requests =
            n + (Event.request :: (word ++ asked)).count .request + 1 := by
        rw [h.ended hend, List.count_cons_self]
        dsimp only
        omega
      cases word with
      | nil =>
        exact ⟨[], .request :: asked, h.spent.cons (by simp), h.heard, by simp, h.requests.cons, h.atHand,
          hended⟩
      | cons x word =>
        exact ⟨.request :: x :: word, asked, h.spent.cons (by simp), h.heard, by simpa using h.last,
          h.requests, h.atHand, hended⟩
    | broken e =>
      exact ⟨[], [], .nothing rfl rfl, rfl, by simp, .nil, by simp [AtHand, takeWhileFrom],
        by simp [takeWhileFrom]⟩
    | char c =>
      rw [takeWhileFrom]
      split
      · obtain ⟨word, asked, h⟩ := ih n (p.after c)
        refine ⟨.char c :: word, asked, h.spent.cons (by simp), ?_, ?_, h.requests, h.atHand, ?_⟩
        · exact congrArg (Event.char c :: ·) h.heard
        · cases word with
          | nil => simp
          | cons x word => simpa using h.last
        · simpa using h.ended
      · exact ⟨[], [], .nothing rfl rfl, rfl, by simp, .nil, by simp [AtHand], by simp⟩

theorem exists_run_takeWhile (s : Source) (keep : Char → Bool) :
    ∃ word asked, Run s (s.takeWhile keep).1 word asked (s.takeWhile keep).2 :=
  exists_run_takeWhileFrom keep s.pending s.requests s.position s.position

theorem exists_spent_tokenFrom (s : Source) (c : Char) : ∃ es, Spent s es (tokenFrom s c).2 := by
  obtain ⟨asked, -, hasked⟩ := s.spent_demand
  obtain ⟨dropped, hdropped⟩ := s.demand.2.exists_spent_drop
  have hlook : (Scanner.look s).2 = s.demand.2 := s.look_snd
  rcases tokenFrom_snd s c with h | h | h | ⟨keep, h⟩ <;> rw [h]
  · exact ⟨[], .nothing rfl rfl⟩
  · exact ⟨_, hlook ▸ hasked⟩
  · exact ⟨_, hlook ▸ hasked.trans hdropped⟩
  · obtain ⟨word, asked', hword⟩ := s.exists_run_takeWhile keep
    exact ⟨_, hword.spent⟩

theorem pending_of_demandFrom {es : List Event} {n : Nat} {p : Position} {c : Char} {t : Source}
    (h : demandFrom es n p = (.char c, t)) : t.pending = .char c :: t.drop.pending := by
  induction es generalizing n with
  | nil => cases h
  | cons e es ih =>
    cases e with
    | request => exact ih h
    | char d => cases h; rfl
    | broken e => cases h

theorem demandFrom_done {es : List Event} {n : Nat} {p : Position}
    (h : (demandFrom es n p).1 = .done) :
    (demandFrom es n p).2.pending = [] ∧ (demandFrom es n p).2.position = p ∧
      n < (demandFrom es n p).2.requests := by
  induction es generalizing n with
  | nil => exact ⟨rfl, rfl, Nat.lt_succ_self n⟩
  | cons e es ih =>
    cases e with
    | request => exact (ih h).imp_right fun hrest => hrest.imp_right Nat.lt_of_succ_lt
    | char c => cases h
    | broken e => cases h

/-- How the next token comes about: with a first character, after which the rest of the token is read;
as a line that cannot be read; or as the end of the input, which is asked for once more each time. -/
inductive Read (s : Source) : Prop where
  | token {c : Char} {before : List Event} {t : Source} (pending : s.pending = before ++ .char c :: t.pending)
      (requests : t.requests = s.requests + before.count .request)
      (token : s.nextLexeme.1.token = (tokenFrom t c).1) (rest : s.nextLexeme.2 = (tokenFrom t c).2)
  | broken {e : ReadError} {es : List Event} (token : s.nextLexeme.1.token = .invalid (.unreadable e))
      (spent : Spent s es s.nextLexeme.2)
  | ended {es : List Event} (token : s.nextLexeme.1.token = .endOfFile) (spent : Spent s es s.nextLexeme.2)
      (pending : s.nextLexeme.2.pending = []) (position : s.nextLexeme.2.position = s.nextLexeme.1.position)
      (requests : s.requests < s.nextLexeme.2.requests)

theorem read (s : Source) : Read s := by
  obtain ⟨used, hused⟩ := exists_spent_skipBlankFrom false s.pending s.requests s.position s.position
  obtain ⟨asked, -, hasked⟩ := s.skipBlank.spent_demand
  have hspent : Spent s (used ++ asked) s.skipBlank.demand.2 := Spent.trans hused hasked
  cases hd : s.skipBlank.demand with
  | mk head t =>
    rw [hd] at hspent
    cases head with
    | char c =>
      have ht := pending_of_demandFrom hd
      refine .token (hspent.pending.trans (congrArg (used ++ asked ++ ·) ht)) ?_ ?_ ?_
      · rw [← hspent.exact (by simp [ht]), drop, ht]
      · rw [nextLexeme, hd]
      · rw [nextLexeme, hd]
    | broken e =>
      obtain ⟨dropped, hdropped⟩ := t.exists_spent_drop
      have hnext : s.nextLexeme.2 = t.drop := by rw [nextLexeme, hd]
      have htoken : s.nextLexeme.1.token = .invalid (.unreadable e) := by rw [nextLexeme, hd]
      exact .broken htoken (hnext ▸ hspent.trans hdropped)
    | done =>
      obtain ⟨hnil, hposition, hlt⟩ := demandFrom_done (congrArg Prod.fst hd)
      have hnext : s.nextLexeme.2 = t := by rw [nextLexeme, hd]
      have ht : (demandFrom s.skipBlank.pending s.skipBlank.requests s.skipBlank.position).2 = t :=
        congrArg Prod.snd hd
      refine .ended ?_ (hnext ▸ hspent) ?_ ?_ ?_
      · rw [nextLexeme, hd]
      · rw [hnext, ← ht, hnil]
      · rw [hnext, ← ht, hposition, nextLexeme, hd]
      · rw [hnext, ← ht]
        exact Nat.lt_of_le_of_lt (Nat.le_of_add_right_le hused.requests) hlt

theorem exists_spent_nextLexeme (s : Source) : ∃ es, Spent s es s.nextLexeme.2 := by
  cases s.read with
  | @token c before t pending requests token rest =>
    obtain ⟨es, hes⟩ := t.exists_spent_tokenFrom c
    have hfirst : Spent s (before ++ [Event.char c]) t :=
      ⟨by simp [pending], by simp [requests], by simp [requests]⟩
    rw [rest]
    exact ⟨_, hfirst.trans hes⟩
  | broken token spent => exact ⟨_, spent⟩
  | ended token spent pending position requests => exact ⟨_, spent⟩

theorem numberToken_cases (w : List Char) :
    (∃ value, numberToken w = .number value) ∨ ∃ e, numberToken w = .invalid e := by
  unfold numberToken
  split
  · exact .inl ⟨_, rfl⟩
  · exact .inr ⟨_, rfl⟩

/-- A word is the keyword that it spells, or a name. -/
theorem wordToken_cases (w : List Char) :
    (∃ k : Keyword, wordToken w = .keyword k ∧ k.spelling.toList = w) ∨
      ∃ name, wordToken w = .ident name := by
  cases hk : Keyword.ofWord? (String.ofList w) with
  | none => exact .inr ⟨String.ofList w, by rw [wordToken, hk]⟩
  | some k =>
    have hspelling : k.spelling = String.ofList w := by simpa using List.find?_some hk
    exact .inl ⟨k, by rw [wordToken, hk], by rw [hspelling, String.toList_ofList]⟩

/-- What starts with a character is not the end of the input, only a semicolon starts with one, and what a
keyword takes are its own characters. -/
theorem tokenFrom_fst (s : Source) (c : Char) : (tokenFrom s c).1 ≠ .endOfFile ∧
    ((tokenFrom s c).1 = .symbol .semicolon → c = ';') ∧
    ∀ k, (tokenFrom s c).1 = .keyword k → k.spelling.toList = c :: (s.takeWhile isWordChar).1 ∧
      (tokenFrom s c).2 = (s.takeWhile isWordChar).2 := by
  by_cases hc : c ∈ specials
  · simp only [specials, List.mem_cons, List.not_mem_nil, or_false] at hc
    rcases hc with rfl | rfl | rfl | rfl | rfl | rfl | rfl | rfl | rfl | rfl | rfl | rfl | rfl | rfl | rfl
    all_goals
      simp only [tokenFrom, either]
      first
        | split <;> simp
        | simp
  · rw [tokenFrom_of_not_special hc]
    split
    · rcases numberToken_cases (c :: (Scanner.takeWhile s isDigit).1) with ⟨value, hw⟩ | ⟨e, hw⟩ <;> simp [hw]
    split
    · rcases wordToken_cases (c :: (Scanner.takeWhile s isWordChar).1) with ⟨k, hw, hspelling⟩ | ⟨name, hw⟩
      · simp only [hw, Token.keyword.injEq]
        refine ⟨by simp, by simp, ?_⟩
        rintro _ rfl
        exact ⟨hspelling, rfl⟩
      · simp [hw]
    · simp

/-- A semicolon takes its own character and nothing after it. -/
theorem exists_pending_of_semicolon {s : Source} (h : s.nextLexeme.1.token = .symbol .semicolon) :
    ∃ before, s.pending = before ++ .char ';' :: s.nextLexeme.2.pending ∧
      s.nextLexeme.2.requests = s.requests + before.count .request := by
  cases s.read with
  | @token c before t pending requests token rest =>
    obtain rfl := (tokenFrom_fst t c).2.1 (token ▸ h)
    rw [rest]
    exact ⟨before, pending, requests⟩
  | broken token => simp [token] at h
  | ended token => simp [token] at h

/-- A keyword takes its own characters, and asks for the one after them. -/
theorem exists_run_of_keyword {s : Source} {k : Keyword} (h : s.nextLexeme.1.token = .keyword k) :
    ∃ before t word asked, Spent s before t ∧ t.requests = s.requests + before.count .request ∧
      Run t k.spelling.toList word asked s.nextLexeme.2 := by
  cases s.read with
  | @token c before t pending requests token rest =>
    obtain ⟨hspelling, hrest⟩ := (tokenFrom_fst t c).2.2 k (token ▸ h)
    obtain ⟨word, asked, hrun⟩ := t.exists_run_takeWhile isWordChar
    refine ⟨before, ⟨.char c :: t.pending, t.requests, t.position⟩, .char c :: word, asked, ?_, requests, ?_⟩
    · exact ⟨pending, Nat.le_of_eq requests.symm, fun _ => requests⟩
    · rw [rest, hrest, hspelling]
      refine ⟨hrun.spent.cons (by simp), congrArg (Event.char c :: ·) hrun.heard, ?_, hrun.requests,
        hrun.atHand, by simpa using hrun.ended⟩
      cases word with
      | nil => simp
      | cons x word => simpa using hrun.last
  | broken token => simp [token] at h
  | ended token => simp [token] at h

end IntLang.Source
