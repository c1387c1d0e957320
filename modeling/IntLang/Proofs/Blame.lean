import IntLang.Proofs.Lockstep
import IntLang.Proofs.Spelling

/-! Which token an error is about. A parser stands at a point of its source: before this point all tokens are
taken, and of those after it the parser holds at most two. A rule goes from one point to another, or it fails
at a token such that what it took before is the start of a phrase. -/
namespace IntLang
open Grammar

/-- How much a parser may hold between two steps. -/
inductive Hold where
  | clear
  | usual
  | named

namespace Hold

/-- A token after which another one may be held. -/
def twice : Hold → Token → Bool
  | usual, .keyword .not | named, .keyword .not => true
  | named, .ident _ => true
  | _, _ => false

/-- What may be held once a token is taken. -/
def without (h : Hold) (t : Token) : Hold :=
  if h.twice t then usual else clear

theorem twice_cases {h : Hold} {t : Token} (ht : h.twice t = true) :
    t = .keyword .not ∨ h = named ∧ ∃ name, t = .ident name := by
  unfold twice at ht
  split at ht
  · exact .inl rfl
  · exact .inl rfl
  · exact .inr ⟨rfl, _, rfl⟩
  · cases ht

theorem ne_endOfFile_of_twice {h : Hold} {t : Token} (ht : h.twice t = true) : t ≠ .endOfFile := by
  rcases twice_cases ht with rfl | ⟨-, name, rfl⟩ <;> simp

theorem valid_of_twice {h : Hold} {t : Token} (ht : h.twice t = true) : t.Valid := by
  rcases twice_cases ht with rfl | ⟨-, name, rfl⟩ <;> simp [Token.Valid]

theorem twice_named {t : Token} (ht : usual.twice t = true) : named.twice t = true := by
  rcases twice_cases ht with rfl | ⟨h, -⟩
  · rfl
  · cases h

theorem usual_twice {t : Token} (ht : named.twice t = true) (hname : ∀ name, t ≠ .ident name) :
    usual.twice t = true := by
  rcases twice_cases ht with rfl | ⟨-, name, rfl⟩
  · rfl
  · exact absurd rfl (hname name)

end Hold

namespace Parser

/-- The parser stands at `u`: it holds the first tokens from there on, and its source comes after these. -/
inductive At (u : Source) (h : Hold) (p : Parser) : Prop where
  | clear (source : p.source = u) (current : p.current = none) (lookahead : p.lookahead = none)
  | current (hold : h ≠ .clear) (source : p.source = u.nextLexeme.2)
      (current : p.current = some u.nextLexeme.1) (lookahead : p.lookahead = none)
  | peeked (hold : h ≠ .clear) (source : p.source = u.nextLexeme.2) (current : p.current = none)
      (lookahead : p.lookahead = some u.nextLexeme.1)
  | both (hold : h.twice u.nextLexeme.1.token = true) (source : p.source = u.nextLexeme.2.nextLexeme.2)
      (current : p.current = some u.nextLexeme.1)
      (lookahead : p.lookahead = some u.nextLexeme.2.nextLexeme.1)

section Points
variable {u v : Source} {h h' : Hold} {p p' : Parser} {t : Token}

theorem At.rest (hp : At u h p) : p.rest = u.tokens := by
  cases hp with
  | clear source current lookahead =>
    rw [Parser.rest, source, current, lookahead]
    rfl
  | current _ source current lookahead =>
    rw [Parser.rest, source, current, lookahead, Source.tokens_eq u]
    rfl
  | peeked _ source current lookahead =>
    rw [Parser.rest, source, current, lookahead, Source.tokens_eq u]
    rfl
  | both _ source current lookahead =>
    rw [Parser.rest, source, current, lookahead, Source.tokens_eq u, Source.tokens_eq u.nextLexeme.2]

theorem At.holds_nothing (hp : At u .clear p) : p.source = u ∧ p.current = none ∧ p.lookahead = none := by
  cases hp with
  | clear source current lookahead => exact ⟨source, current, lookahead⟩
  | current hold => exact absurd rfl hold
  | peeked hold => exact absurd rfl hold
  | both hold => cases hold

theorem At.of_clear (hp : At u .clear p) (h : Hold) : At u h p := by
  obtain ⟨source, current, lookahead⟩ := hp.holds_nothing
  exact .clear source current lookahead

theorem At.imp (hp : At u h p) (hc : h' ≠ .clear)
    (ht : h.twice u.nextLexeme.1.token = true → h'.twice u.nextLexeme.1.token = true) : At u h' p := by
  cases hp with
  | clear source current lookahead => exact .clear source current lookahead
  | current _ source current lookahead => exact .current hc source current lookahead
  | peeked _ source current lookahead => exact .peeked hc source current lookahead
  | both hold source current lookahead => exact .both (ht hold) source current lookahead

theorem At.named (hp : At u .usual p) : At u .named p :=
  hp.imp (by simp) Hold.twice_named

theorem At.usual (hp : At u .named p) (hname : ∀ name, u.nextLexeme.1.token ≠ .ident name) :
    At u .usual p :=
  hp.imp (by simp) fun hold => Hold.usual_twice hold hname

/-- The parser has just taken the token at `u`, and holds nothing or the token after it. -/
structure Past (u : Source) (h : Hold) (p : Parser) : Prop where
  current : p.current = none
  source : p.source = u.nextLexeme.2 ∧ p.lookahead = none ∨
    h.twice u.nextLexeme.1.token = true ∧ p.source = u.nextLexeme.2.nextLexeme.2 ∧
      p.lookahead = some u.nextLexeme.2.nextLexeme.1

theorem Past.stands (hp : Past u h p) : At u.nextLexeme.2 (h.without u.nextLexeme.1.token) p := by
  rcases hp.source with ⟨hsource, hlook⟩ | ⟨htwice, hsource, hlook⟩
  · exact .clear hsource hp.current hlook
  · rw [Hold.without, if_pos htwice]
    exact .peeked (by simp) hsource hp.current hlook

theorem At.takeCurrent (hp : At u h p) :
    ∃ p', takeCurrent p = .ok u.nextLexeme.1 p' ∧ Past u h p' := by
  cases hp with
  | clear source current lookahead =>
    refine ⟨{ p with source := u.nextLexeme.2 }, ?_, current, .inl ⟨rfl, lookahead⟩⟩
    rw [takeCurrent_none current, fetch, lookahead, source]
  | current _ source current lookahead =>
    exact ⟨_, takeCurrent_some current, rfl, .inl ⟨source, lookahead⟩⟩
  | peeked _ source current lookahead =>
    refine ⟨{ p with lookahead := none }, ?_, current, .inl ⟨source, rfl⟩⟩
    rw [takeCurrent_none current, fetch, lookahead]
  | both hold source current lookahead =>
    exact ⟨_, takeCurrent_some current, rfl, .inr ⟨hold, source, lookahead⟩⟩

/-- Looking at the current token, after which another one is held only if it could be before. -/
theorem At.keepCurrent (hh : h ≠ .clear) (hp : At u h p) :
    ∃ p', current? p = valid u.nextLexeme.1 p' ∧ At u h p' ∧ p'.current = some u.nextLexeme.1 ∧
      (p'.source = u.nextLexeme.2 ∨
        h.twice u.nextLexeme.1.token = true ∧ p'.source = u.nextLexeme.2.nextLexeme.2) := by
  obtain ⟨p', htake, hpast⟩ := hp.takeCurrent
  refine ⟨_, current?_of_takeCurrent htake, ?_⟩
  rcases hpast.source with ⟨hsource, hlook⟩ | ⟨htwice, hsource, hlook⟩
  · exact ⟨.current hh hsource rfl hlook, rfl, .inl hsource⟩
  · exact ⟨.both htwice hsource rfl hlook, rfl, .inr ⟨htwice, hsource⟩⟩

/-- Looking at the token after the current one, if that may be held too. -/
theorem At.keepAhead (hp : At u h p) (hc : p.current = some u.nextLexeme.1)
    (ht : h.twice u.nextLexeme.1.token = true) :
    ∃ p', Parser.ahead p = valid u.nextLexeme.2.nextLexeme.1 p' ∧ At u h p' ∧
      p'.source = u.nextLexeme.2.nextLexeme.2 := by
  cases hp with
  | clear source current lookahead =>
    rw [hc] at current
    cases current
  | current _ source current lookahead =>
    have hfetch : fetch p = .ok u.nextLexeme.2.nextLexeme.1
        { p with source := u.nextLexeme.2.nextLexeme.2 } := by
      rw [fetch, lookahead, source]
    exact ⟨Parser.keepAhead _ _, ahead_of_fetch hfetch, .both ht rfl current rfl, rfl⟩
  | peeked _ source current lookahead =>
    rw [hc] at current
    cases current
  | both _ source current lookahead =>
    have hfetch : fetch p = .ok u.nextLexeme.2.nextLexeme.1 { p with lookahead := none } := by
      rw [fetch, lookahead]
    exact ⟨Parser.keepAhead _ _, ahead_of_fetch hfetch, .both ht source current rfl, source⟩

end Points

/-- The error is about the token at `v`. No token after it has been read, apart from the one after a `not`. -/
structure Blames (v : Source) (e : ParseError) (p : Parser) : Prop where
  position : e.diagnostic.position = some v.nextLexeme.1.position
  source : p.source = v.nextLexeme.2 ∨
    v.nextLexeme.1.token = .keyword .not ∧ p.source = v.nextLexeme.2.nextLexeme.2

/-- What a rule comes to that starts at `u`: it stands at a later point, or it fails at a token after having
taken tokens of which `good` holds, or its bound is used up. -/
inductive Fate {α : Type} (u : Source) (h : Hold) (good : List Token → Prop) :
    EStateM.Result ParseError Parser α → Prop where
  | ok {a : α} {p : Parser} {ts : List Token} {v : Source} (gives : u.Gives ts v) (stands : At v h p) :
      Fate u h good (.ok a p)
  | error {e : ParseError} {p : Parser} {ts : List Token} {v : Source} (gives : u.Gives ts v)
      (blames : Blames v e p) (hgood : good ts) : Fate u h good (.error e p)
  | tooDeep {p : Parser} : Fate u h good (.error .tooDeep p)

/-- A rule goes from `u` to a later point, and fails only after tokens of which `good` holds. -/
def Goes {α : Type} (u : Source) (h : Hold) (x : Parse α) (h' : Hold) (good : List Token → Prop) : Prop :=
  ∀ ⦃p⦄, At u h p → Fate u h' good (x p)

section Sequences
variable {α β : Type} {u v : Source} {h h' h₁ : Hold} {x : Parse α} {f : α → Parse β}
  {good good' : List Token → Prop} {ts : List Token} {r : EStateM.Result ParseError Parser α}

/-- What happens after some tokens, told from the point before them. -/
theorem Fate.back (hv : u.Gives ts v) (hr : Fate v h (fun us => good (ts ++ us)) r) : Fate u h good r := by
  cases hr with
  | ok gives stands => exact .ok (hv.trans gives) stands
  | error gives blames hgood => exact .error (hv.trans gives) blames hgood
  | tooDeep => exact .tooDeep

theorem Fate.imp (hr : Fate u h good r) (himp : ∀ ts, good ts → good' ts) : Fate u h good' r := by
  cases hr with
  | ok gives stands => exact .ok gives stands
  | error gives blames hgood => exact .error gives blames (himp _ hgood)
  | tooDeep => exact .tooDeep

/-- A failure is final, so only what follows a value is left to look at. -/
theorem Fate.bind {p : Parser} (hr : Fate u h₁ good (x p))
    (hf : ∀ a p' ts v, x p = .ok a p' → u.Gives ts v → At v h₁ p' → Fate u h' good (f a p')) :
    Fate u h' good ((x >>= f) p) := by
  cases hx : x p with
  | ok a p' =>
    rw [hx] at hr
    rw [bind_of_ok hx]
    cases hr with
    | ok gives stands => exact hf a p' _ _ hx gives stands
  | error e p' =>
    rw [hx] at hr
    rw [bind_of_error hx]
    cases hr with
    | error gives blames hgood => exact .error gives blames hgood
    | tooDeep => exact .tooDeep

theorem Goes.imp (hx : Goes u h x h' good) (himp : ∀ ts, good ts → good' ts) : Goes u h x h' good' :=
  fun _ hp => (hx hp).imp himp

theorem Goes.of_clear (hx : Goes u h x h' good) : Goes u .clear x h' good :=
  fun _ hp => hx (hp.of_clear h)

theorem Goes.of_usual (hx : Goes u .named x h' good) : Goes u .usual x h' good :=
  fun _ hp => hx hp.named

theorem Goes.of_named (hx : Goes u .usual x h' good)
    (hname : ∀ name, u.nextLexeme.1.token ≠ .ident name) : Goes u .named x h' good :=
  fun _ hp => hx (hp.usual hname)

theorem Goes.to_usual (hx : Goes u h x .clear good) : Goes u h x .usual good := by
  intro p hp
  have hr := hx hp
  revert hr
  generalize x p = r
  intro hr
  cases hr with
  | ok gives stands => exact .ok gives (stands.of_clear _)
  | error gives blames hgood => exact .error gives blames hgood
  | tooDeep => exact .tooDeep

theorem goes_pure (a : α) : Goes u h (pure a) h good :=
  fun _ hp => .ok (.nil u) hp

theorem goes_tooDeep : Goes u h (throw .tooDeep : Parse α) h' good :=
  fun _ _ => .tooDeep

/-- One rule after another. What the first one has taken is known from what it does to the tokens left. -/
theorem Goes.bind {taken : α → List Token → Prop} (hs : Consumes x taken) (hx : Goes u h x h₁ good)
    (hf : ∀ a ts v, taken a ts → Goes v h₁ (f a) h' fun us => good (ts ++ us)) :
    Goes u h (x >>= f) h' good := by
  intro p hp
  refine (hx hp).bind fun a p' ts v hok gives stands => ?_
  obtain ⟨ts', htaken, hrest⟩ := hs p.rest p a p' rfl hok
  rw [hp.rest, stands.rest, gives.tokens] at hrest
  obtain rfl := List.append_cancel_right hrest
  exact Fate.back gives (hf a ts v htaken stands)

theorem Goes.phrase {ph : Phrase} {x : Parse ph.Value} {f : ph.Value → Parse β} (hs : Sound ph x)
    (hx : Goes u h x h₁ good)
    (hf : ∀ a (t : Tree ph) v, Goes v h₁ (f a) h' fun us => good (t.tokens ++ us)) :
    Goes u h (x >>= f) h' good := by
  refine Goes.bind hs hx ?_
  rintro a _ v ⟨t, -, rfl⟩
  exact hf a t v

theorem Goes.map (hx : Goes u h x h₁ good) (g : α → β) :
    Goes u h (x >>= fun a => pure (g a)) h₁ good :=
  fun _ hp => (hx hp).bind fun _ _ _ _ _ gives stands => .ok gives stands

end Sequences

section Tokens
variable {α : Type} {u : Source} {h h' h₁ : Hold} {f : Lexeme → Parse α} {good : List Token → Prop}
  {t : Token}

theorem fate_invalid {p : Parser} (hsource : p.source = u.nextLexeme.2) {e : LexError}
    (he : u.nextLexeme.1.token = .invalid e) (hgood : good []) :
    Fate u h' good (.error (.invalid e u.nextLexeme.1.position) p : EStateM.Result _ _ α) :=
  .error (.nil u) ⟨by cases e <;> rfl, .inl hsource⟩ hgood

/-- A stretch of source that is no token is an error; any other token goes on to what follows. -/
theorem Fate.bind_valid {x : Parse Lexeme} {l : Lexeme} {p p' : Parser} (hx : x p = valid l p')
    (herror : ∀ e, l.token = .invalid e →
      Fate u h' good (.error (.invalid e l.position) p' : EStateM.Result _ _ α))
    (hf : Fate u h' good (f l p')) : Fate u h' good ((x >>= f) p) := by
  by_cases ht : l.token.Valid
  · rw [bind_of_ok (hx.trans (valid_of_valid ht p'))]
    exact hf
  · obtain ⟨e, he⟩ := Token.exists_invalid ht
    rw [bind_of_error (hx.trans (valid_of_invalid he p'))]
    exact herror e he

/-- The token at `u` is blamed if it is none. -/
theorem fate_bind_valid {x : Parse Lexeme} {p p' : Parser} (hx : x p = valid u.nextLexeme.1 p')
    (hsource : u.nextLexeme.1.token.Valid ∨ p'.source = u.nextLexeme.2) (hgood : good [])
    (hf : Fate u h' good (f u.nextLexeme.1 p')) : Fate u h' good ((x >>= f) p) := by
  refine Fate.bind_valid hx (fun e he => ?_) hf
  exact fate_invalid (hsource.resolve_left fun ht => ht e he) he hgood

theorem goes_current (hh : h ≠ .clear) (hgood : good [])
    (hf : Goes u h (f u.nextLexeme.1) h' good) : Goes u h (current? >>= f) h' good := by
  intro p hp
  obtain ⟨p', hcurrent, hp', -, hsource⟩ := hp.keepCurrent hh
  refine fate_bind_valid hcurrent ?_ hgood (hf hp')
  exact hsource.symm.imp_left fun htwice => Hold.valid_of_twice htwice.1

/-- Taking the current token, with what follows told from the point before it. -/
theorem goes_bump_at (hgood : good []) (hf : ∀ ⦃p⦄, Past u h p → Fate u h' good (f u.nextLexeme.1 p)) :
    Goes u h (bump >>= f) h' good := by
  intro p hp
  obtain ⟨p', htake, hpast⟩ := hp.takeCurrent
  refine fate_bind_valid (bind_of_ok htake) ?_ hgood (hf hpast)
  exact hpast.source.symm.imp (fun htwice => Hold.valid_of_twice htwice.1) fun hsource => hsource.1

theorem goes_bump (ht : u.nextLexeme.1.token = t) (hne : t ≠ .endOfFile) (hgood : good [])
    (hf : Goes u.nextLexeme.2 (h.without t) (f u.nextLexeme.1) h' fun us => good (t :: us)) :
    Goes u h (bump >>= f) h' good := by
  refine goes_bump_at hgood fun p hpast => ?_
  have hp := hpast.stands
  rw [ht] at hp
  exact Fate.back (.single ht hne) (hf hp)

/-- Looking at the token after the current one, which may be held with it. -/
theorem goes_peek (ht : u.nextLexeme.1.token = t) (htwice : h.twice t = true) (hgood : good [])
    (hgood' : good [t]) (hf : Goes u h (f u.nextLexeme.2.nextLexeme.1) h' good) :
    Goes u h (peek >>= f) h' good := by
  have hpeek : peek >>= f = current? >>= fun _ => ahead >>= f := bind_assoc ..
  rw [hpeek]
  have hh : h ≠ .clear := by
    rintro rfl
    cases htwice
  subst ht
  intro p hp
  obtain ⟨p₁, hcurrent, hp₁, hc, -⟩ := hp.keepCurrent hh
  refine fate_bind_valid hcurrent (.inl (Hold.valid_of_twice htwice)) hgood ?_
  obtain ⟨p₂, hahead, hp₂, hsource⟩ := hp₁.keepAhead hc htwice
  refine Fate.bind_valid hahead (fun e he => ?_) (hf hp₂)
  exact Fate.back (.single rfl (Hold.ne_endOfFile_of_twice htwice)) (fate_invalid hsource he hgood')

theorem goes_check {f : Bool → Parse α} (hh : h ≠ .clear) (hgood : good [])
    (hyes : u.nextLexeme.1.token = t → Goes u h (f true) h' good)
    (hno : u.nextLexeme.1.token ≠ t → Goes u h (f false) h' good) :
    Goes u h (check t >>= f) h' good := by
  have hcheck : check t >>= f = current? >>= fun l => f (decide (l.token = t)) := bind_assoc ..
  rw [hcheck]
  refine goes_current hh hgood ?_
  by_cases ht : u.nextLexeme.1.token = t
  · rw [decide_eq_true ht]
    exact hyes ht
  · rw [decide_eq_false ht]
    exact hno ht

theorem goes_eat {f : Bool → Parse α} (hh : h ≠ .clear) (hne : t ≠ .endOfFile) (hgood : good [])
    (hyes : Goes u.nextLexeme.2 (h.without t) (f true) h' fun us => good (t :: us))
    (hno : Goes u h (f false) h' good) : Goes u h (eat t >>= f) h' good := by
  have heat : eat t >>= f = check t >>= fun b =>
      if b = true then bump >>= fun _ => f true else f false := by
    rw [eat, bind_assoc]
    refine bind_congr fun b => ?_
    cases b with
    | true => exact bind_assoc ..
    | false => rfl
  rw [heat]
  exact goes_check hh hgood (fun ht => goes_bump ht hne hgood hyes) fun _ => hno

/-- A token that is held with another one is blamed only if it is a `not`. -/
theorem blames_mismatch {p : Parser} (e : Expected)
    (hsource : p.source = u.nextLexeme.2 ∨
      h.twice u.nextLexeme.1.token = true ∧ p.source = u.nextLexeme.2.nextLexeme.2)
    (hname : h = .named → ∀ name, u.nextLexeme.1.token ≠ .ident name) :
    Blames u (.mismatch e u.nextLexeme.1.token u.nextLexeme.1.position) p := by
  refine ⟨rfl, hsource.imp_right ?_⟩
  rintro ⟨htwice, hsource⟩
  rcases Hold.twice_cases htwice with ht | ⟨hnamed, name, ht⟩
  · exact ⟨ht, hsource⟩
  · exact absurd ht (hname hnamed name)

theorem unexpected_goes (e : Expected) (hgood : good []) :
    Goes u .usual (unexpected e : Parse α) h' good := by
  intro p hp
  obtain ⟨p', hcurrent, hp', -, hsource⟩ := hp.keepCurrent (by simp)
  refine fate_bind_valid hcurrent ?_ hgood ?_
  · exact hsource.symm.imp_left fun htwice => Hold.valid_of_twice htwice.1
  · exact .error (.nil u) (blames_mismatch e hsource (by simp)) hgood

theorem goes_expect {f : Unit → Parse α} {e : Expected} (hne : t ≠ .endOfFile) (hgood : good [])
    (hf : Goes u.nextLexeme.2 (Hold.usual.without t) (f ()) h' fun us => good (t :: us)) :
    Goes u .usual (expect t e >>= f) h' good := by
  have hexpect : expect t e >>= f = check t >>= fun b =>
      if b = true then bump >>= fun _ => f () else unexpected e >>= f := by
    rw [expect, bind_assoc]
    refine bind_congr fun b => ?_
    cases b with
    | true => exact bind_assoc ..
    | false => rfl
  have hunexpected : unexpected e >>= f = (unexpected e : Parse α) := by
    rw [unexpected, unexpected, bind_assoc]
    rfl
  rw [hexpect, hunexpected]
  exact goes_check (by simp) hgood (fun ht => goes_bump ht hne hgood hf)
    fun _ => unexpected_goes e hgood

theorem goes_expectSymbol {f : Unit → Parse α} {s : Symbol} {e : Expected} (hgood : good [])
    (hf : Goes u.nextLexeme.2 .clear (f ()) h' fun us => good (.symbol s :: us)) :
    Goes u .usual (expectSymbol s e >>= f) h' good :=
  goes_expect (by simp) hgood hf

theorem goes_expectKeyword {f : Unit → Parse α} {k : Keyword} (hk : k ≠ .not) (hgood : good [])
    (hf : Goes u.nextLexeme.2 .clear (f ()) h' fun us => good (.keyword k :: us)) :
    Goes u .usual (expectKeyword k >>= f) h' good := by
  refine goes_expect (by simp) hgood ?_
  have hclear : Hold.usual.without (.keyword k) = .clear := by
    cases k <;> first | rfl | exact absurd rfl hk
  rw [hclear]
  exact hf

/-- An identifier, with what follows told from the point before it. -/
theorem goes_expectIdent_at {f : String → Parse α} {e : Expected} (hgood : good [])
    (hf : ∀ name, u.nextLexeme.1.token = .ident name → ∀ ⦃p⦄, Past u h p → Fate u h' good (f name p)) :
    Goes u h (expectIdent e >>= f) h' good := by
  rw [expectIdent, bind_assoc]
  refine goes_bump_at hgood fun p hpast => ?_
  have hsource := hpast.source.imp And.left fun hboth => hboth.imp_right And.left
  have hblames := blames_mismatch (h := h) e hsource
  cases ht : u.nextLexeme.1.token with
  | ident name => exact hf name ht hpast
  | _ =>
    rw [ht] at hblames
    exact .error (.nil u) (hblames (by simp)) hgood

theorem goes_expectIdent {f : String → Parse α} {e : Expected} (hgood : good [])
    (hf : ∀ name, Goes u.nextLexeme.2 (h.without (.ident name)) (f name) h'
      fun us => good (.ident name :: us)) : Goes u h (expectIdent e >>= f) h' good :=
  goes_expectIdent_at hgood fun name ht _ hpast =>
    Fate.back (.single ht (by simp)) (hf name (ht ▸ hpast.stands))

end Tokens

end Parser
end IntLang
