import IntLang.Proofs.ParserSound
import IntLang.Proofs.TokenPoints

/-! Two parsers in lockstep. What a rule does depends on the tokens it has read: as long as two sources give
tokens that differ in their places only, rules give the same value or fail with the same error. This is told
by the tokens that are left before and after, and none of the rules stops at its bound. -/
namespace IntLang
open Grammar

/-- Tokens that differ in their places only, and in these no more than `near` allows. -/
structure Lexeme.Near (near : Position → Position → Prop) (l l' : Lexeme) : Prop where
  token : l'.token = l.token
  position : near l.position l'.position

/-- Errors that differ in the same way. No bound is used up. -/
inductive ParseError.Near (near : Position → Position → Prop) : ParseError → ParseError → Prop where
  | invalid (e : LexError) {p q : Position} (h : near p q) : Near near (.invalid e p) (.invalid e q)
  | mismatch (expected : Expected) (found : Token) {p q : Position} (h : near p q) :
      Near near (.mismatch expected found p) (.mismatch expected found q)
  | duplicateParameter (param function : String) {p q : Position} (h : near p q) :
      Near near (.duplicateParameter param function p) (.duplicateParameter param function q)

theorem ParseError.Near.ne_tooDeep {near : Position → Position → Prop} {e e' : ParseError}
    (h : Near near e e') : e ≠ .tooDeep := by
  cases h <;> simp

/-- Two sources to be read side by side, and how far apart the places of their tokens may be. -/
structure Pairing where
  near : Position → Position → Prop
  total : ∀ p, ∃ q, near p q
  left : Source
  right : Source

/-- The first `n` tokens on both sides differ in their places only. -/
def Pairing.Same (k : Pairing) (n : Nat) : Prop :=
  ∀ i < n, (k.left.lexeme i).Near k.near (k.right.lexeme i)

theorem Pairing.Same.mono {k : Pairing} {m n : Nat} (h : k.Same n) (hm : m ≤ n) : k.Same m :=
  fun i hi => h i (Nat.lt_of_lt_of_le hi hm)

theorem Pairing.exists_near (k : Pairing) (l : Lexeme) : ∃ l', l.Near k.near l' := by
  obtain ⟨q, hq⟩ := k.total l.position
  exact ⟨⟨l.token, q⟩, rfl, hq⟩

namespace Parser

/-- The parser `p` has read `n` tokens of the left source. If these are the same on both sides, then `q`
stands where `p` does. -/
structure Paired (k : Pairing) (n : Nat) (p q : Parser) : Prop where
  left : p.source = k.left.after n
  right : k.Same n → q.source = k.right.after n
  current : k.Same n → Option.Rel (Lexeme.Near k.near) p.current q.current
  lookahead : k.Same n → Option.Rel (Lexeme.Near k.near) p.lookahead q.lookahead

/-- Where the sources differ, any parser will do on the right side. -/
theorem paired_of_not_same {k : Pairing} {n : Nat} {p : Parser} (hp : p.source = k.left.after n)
    (hn : ¬ k.Same n) (q : Parser) : Paired k n p q :=
  ⟨hp, fun h => absurd h hn, fun h => absurd h hn, fun h => absurd h hn⟩

/-- An outcome after at least `n` tokens: a value and a parser, of whose rest `post` holds; or an error, but
not that a bound is used up. The other outcome is the same if the tokens read so far are. -/
inductive Follows {α : Type} (k : Pairing) (n : Nat) (post : α → List Token → Prop) :
    EStateM.Result ParseError Parser α → EStateM.Result ParseError Parser α → Prop where
  | ok {a : α} {p : Parser} {r : EStateM.Result ParseError Parser α} {m : Nat} (hm : n ≤ m)
      (hp : p.source = k.left.after m) (hpost : post a p.rest)
      (h : k.Same m → ∃ q, r = .ok a q ∧ Paired k m p q) : Follows k n post (.ok a p) r
  | error {e : ParseError} {p : Parser} {r : EStateM.Result ParseError Parser α} {m : Nat} (hm : n ≤ m)
      (hp : p.source = k.left.after m) (he : e ≠ .tooDeep)
      (h : k.Same m → ∃ e' q, r = .error e' q ∧ e.Near k.near e') : Follows k n post (.error e p) r

/-- Two rules do the same on two sides if `pre` holds of what is left to read on the left one. -/
def Alike {α : Type} (k : Pairing) (pre : List Token → Prop) (x y : Parse α)
    (post : α → List Token → Prop) : Prop :=
  ∀ ⦃n : Nat⦄ ⦃p q : Parser⦄, Paired k n p q → pre p.rest → Follows k n post (x p) (y q)

def AtMost (n : Nat) (ts : List Token) : Prop :=
  ts.length ≤ n

def Below (n : Nat) (ts : List Token) : Prop :=
  ts.length < n

/-- Two rules do the same as long as at most `n` tokens are left. -/
def Keeps {α : Type} (k : Pairing) (n : Nat) (x y : Parse α) : Prop :=
  Alike k (AtMost n) x y fun _ => AtMost n

/-- Two rules do the same as long as at most `n` tokens are left, and take one at least. -/
def Takes {α : Type} (k : Pairing) (n : Nat) (x y : Parse α) : Prop :=
  Alike k (AtMost n) x y fun _ => Below n

section Sequences
variable {α β : Type} {k : Pairing} {n m : Nat} {pre : List Token → Prop} {x y : Parse α}
  {f g : α → Parse β} {mid : α → List Token → Prop} {post : β → List Token → Prop}
  {r r' : EStateM.Result ParseError Parser α}

theorem Follows.later (h : Follows k m mid r r') (hn : n ≤ m) : Follows k n mid r r' := by
  cases h with
  | ok hm hp hpost h => exact .ok (Nat.le_trans hn hm) hp hpost h
  | error hm hp he h => exact .error (Nat.le_trans hn hm) hp he h

/-- Where the sources differ, any outcome will do on the right side. -/
theorem Follows.of_not_same (h : Follows k m mid r r') (hm : ¬ k.Same m)
    (r'' : EStateM.Result ParseError Parser α) : Follows k m mid r r'' := by
  cases h with
  | ok hle hp hpost h => exact .ok hle hp hpost fun hs => absurd (hs.mono hle) hm
  | error hle hp he h => exact .error hle hp he fun hs => absurd (hs.mono hle) hm

theorem Follows.imp {post' : α → List Token → Prop} (h : Follows k n mid r r')
    (hpost : ∀ a ts, mid a ts → post' a ts) : Follows k n post' r r' := by
  cases h with
  | ok hm hp hmid h => exact .ok hm hp (hpost _ _ hmid) h
  | error hm hp he h => exact .error hm hp he h

theorem Alike.bind (hx : Alike k pre x y mid) (hf : ∀ a, Alike k (mid a) (f a) (g a) post) :
    Alike k pre (x >>= f) (y >>= g) post := by
  intro n p q hpq hpre
  have hfollows := hx hpq hpre
  change Follows k n post (EStateM.bind x f p) (EStateM.bind y g q)
  unfold EStateM.bind
  revert hfollows
  generalize x p = r
  generalize y q = r'
  intro hfollows
  cases hfollows with
  | @ok a p' _ m hm hp hmid h =>
    by_cases hs : k.Same m
    · obtain ⟨q', rfl, hpair⟩ := h hs
      exact (hf a hpair hmid).later hm
    · have hpair := paired_of_not_same hp hs p'
      exact ((hf a hpair hmid).of_not_same hs _).later hm
  | error hm hp he h =>
    refine .error hm hp he fun hs => ?_
    obtain ⟨e', q', rfl, hnear⟩ := h hs
    exact ⟨e', q', rfl, hnear⟩

theorem Alike.before {pre' : List Token → Prop} (h : Alike k pre x y mid)
    (hpre : ∀ ts, pre' ts → pre ts) : Alike k pre' x y mid :=
  fun _ _ _ hpq hp => h hpq (hpre _ hp)

theorem Alike.after {post' : α → List Token → Prop} (h : Alike k pre x y mid)
    (hpost : ∀ a ts, mid a ts → post' a ts) : Alike k pre x y post' :=
  fun _ _ _ hpq hpre => (h hpq hpre).imp hpost

theorem alike_pure {a : α} (h : ∀ ts, pre ts → mid a ts) :
    Alike k pre (pure a : Parse α) (pure a) mid :=
  fun n _ q hpq hpre => .ok (Nat.le_refl n) hpq.left (h _ hpre) fun _ => ⟨q, rfl, hpq⟩

theorem alike_throw {e e' : ParseError} (h : e.Near k.near e') :
    Alike k pre (throw e : Parse α) (throw e') mid :=
  fun n _ q hpq _ => .error (Nat.le_refl n) hpq.left h.ne_tooDeep fun _ => ⟨e', q, rfl, h⟩

theorem alike_below (h : ∀ m < n, Alike k (AtMost m) x y mid) : Alike k (Below n) x y mid :=
  fun _ p _ hpq hlt => h p.rest.length hlt hpq (Nat.le_refl _)

theorem Keeps.below {m : Nat} (h : Keeps k m x y) (hm : m < n) :
    Alike k (AtMost m) x y fun _ => Below n :=
  h.after fun _ _ hts => Nat.lt_of_le_of_lt hts hm

theorem Takes.keeps (h : Takes k n x y) : Keeps k n x y :=
  h.after fun _ _ hts => Nat.le_of_lt hts

/-- What is known of the next token may be left aside. -/
theorem Takes.known {t : Token} (h : Takes k n x y) :
    Alike k (fun ts => AtMost n ts ∧ next ts = t) x y fun _ => Below n :=
  h.before fun _ hts => hts.1

theorem Keeps.known {t : Token} (h : Keeps k n x y) :
    Alike k (fun ts => AtMost n ts ∧ next ts = t) x y fun _ => AtMost n :=
  h.before fun _ hts => hts.1

theorem Takes.bind (hx : Takes k n x y) (hf : ∀ a, ∀ m < n, Keeps k m (f a) (g a)) :
    Takes k n (x >>= f) (y >>= g) :=
  Alike.bind hx fun a => alike_below fun m hm => (hf a m hm).below hm

theorem keeps_pure (a : α) : Keeps k n (pure a : Parse α) (pure a) :=
  alike_pure fun _ hts => hts

end Sequences

section Tokens
variable {α : Type} {k : Pairing} {n : Nat} {pre : List Token → Prop} {f g : Lexeme → Parse α}
  {post : α → List Token → Prop} {t : Token} {p q : Parser}

/-- A token that `x` finds on the left side, and the parser it leaves. -/
structure Finds (k : Pairing) (n : Nat) (x : Parse Lexeme) (p q : Parser) (l : Lexeme) (p' : Parser) :
    Prop where
  left : x p = .ok l p'
  right : ∃ m, n ≤ m ∧ p'.source = k.left.after m ∧
    (k.Same m → ∃ l' q', x q = .ok l' q' ∧ l.Near k.near l' ∧ Paired k m p' q')

theorem Paired.fetch (h : Paired k n p q) : ∃ l p', Finds k n Parser.fetch p q l p' := by
  cases hl : p.lookahead with
  | some l =>
    refine ⟨l, { p with lookahead := none }, by rw [Parser.fetch, hl], n, Nat.le_refl n, h.left, ?_⟩
    intro hs
    have hlook := h.lookahead hs
    rw [hl] at hlook
    cases hq : q.lookahead with
    | none =>
      rw [hq] at hlook
      cases hlook
    | some l' =>
      rw [hq] at hlook
      cases hlook with
      | some hnear =>
        refine ⟨l', { q with lookahead := none }, by rw [Parser.fetch, hq], hnear, ?_⟩
        exact ⟨h.left, h.right, h.current, fun _ => .none⟩
  | none =>
    have hleft : p.source.nextLexeme.2 = k.left.after (n + 1) := by rw [h.left, Source.after_succ]
    refine ⟨p.source.nextLexeme.1, { p with source := p.source.nextLexeme.2 },
      by rw [Parser.fetch, hl], n + 1, Nat.le_succ n, hleft, ?_⟩
    intro hs
    have hs' := hs.mono (Nat.le_succ n)
    have hlook := h.lookahead hs'
    rw [hl] at hlook
    cases hq : q.lookahead with
    | some l' =>
      rw [hq] at hlook
      cases hlook
    | none =>
      have hnear := hs n (Nat.lt_succ_self n)
      rw [Source.lexeme, Source.lexeme, ← h.left, ← h.right hs'] at hnear
      refine ⟨q.source.nextLexeme.1, { q with source := q.source.nextLexeme.2 },
        by rw [Parser.fetch, hq], hnear, hleft, ?_, fun _ => h.current hs', fun _ => h.lookahead hs'⟩
      intro _
      rw [h.right hs', Source.after_succ]

theorem takeCurrent_some {l : Lexeme} (h : p.current = some l) :
    takeCurrent p = .ok l { p with current := none } := by
  have hget : (get : Parse Parser) p = .ok p p := rfl
  rw [takeCurrent, bind_of_ok hget, h]
  rfl

theorem takeCurrent_none (h : p.current = none) : takeCurrent p = Parser.fetch p := by
  have hget : (get : Parse Parser) p = .ok p p := rfl
  rw [takeCurrent, bind_of_ok hget, h]

theorem Paired.takeCurrent (h : Paired k n p q) : ∃ l p', Finds k n Parser.takeCurrent p q l p' := by
  cases hp : p.current with
  | some l =>
    refine ⟨l, { p with current := none }, takeCurrent_some hp, n, Nat.le_refl n, h.left, ?_⟩
    intro hs
    have hcurrent := h.current hs
    rw [hp] at hcurrent
    cases hq : q.current with
    | none =>
      rw [hq] at hcurrent
      cases hcurrent
    | some l' =>
      rw [hq] at hcurrent
      cases hcurrent with
      | some hnear =>
        refine ⟨l', { q with current := none }, takeCurrent_some hq, hnear, ?_⟩
        exact ⟨h.left, h.right, fun _ => .none, h.lookahead⟩
  | none =>
    obtain ⟨l, p', hleft, m, hm, hsource, hright⟩ := h.fetch
    refine ⟨l, p', (takeCurrent_none hp).trans hleft, m, hm, hsource, fun hs => ?_⟩
    obtain ⟨l', q', hfetch, hpair⟩ := hright hs
    have hcurrent := h.current (hs.mono hm)
    rw [hp] at hcurrent
    cases hq : q.current with
    | none => exact ⟨l', q', (takeCurrent_none hq).trans hfetch, hpair⟩
    | some c =>
      rw [hq] at hcurrent
      cases hcurrent

/-- A token that has been found and kept as `keep` says goes on to what follows, or ends both rules if it is a
stretch of source that is no token. -/
theorem Finds.bind_valid {x y : Parse Lexeme} {l : Lexeme} {p' : Parser} {keep : Lexeme → Parser → Parser}
    (h : Finds k n x p q l p') (hy : ∀ p₁ l p₂, x p₁ = .ok l p₂ → y p₁ = valid l (keep l p₂))
    (hsource : (keep l p').source = p'.source)
    (hkeep : ∀ m l' q', l.Near k.near l' → Paired k m p' q' → Paired k m (keep l p') (keep l' q'))
    (hf : ∀ m l' q', l.Near k.near l' → Paired k m (keep l p') q' →
      Follows k m post (f l (keep l p')) (g l' q')) :
    Follows k n post ((y >>= f) p) ((y >>= g) q) := by
  obtain ⟨m, hm, hp', hright⟩ := h.right
  have hleft : (keep l p').source = k.left.after m := hsource.trans hp'
  change Follows k n post (EStateM.bind y f p) (EStateM.bind y g q)
  unfold EStateM.bind
  rw [hy p l p' h.left]
  by_cases ht : l.token.Valid
  · rw [valid_of_valid ht]
    by_cases hs : k.Same m
    · obtain ⟨l', q', hq, hnear, hpair⟩ := hright hs
      have ht' : l'.token.Valid := by rwa [hnear.token]
      rw [hy q l' q' hq, valid_of_valid ht']
      exact (hf m l' _ hnear (hkeep m l' q' hnear hpair)).later hm
    · obtain ⟨l', hnear⟩ := k.exists_near l
      exact ((hf m l' p hnear (paired_of_not_same hleft hs p)).of_not_same hs _).later hm
  · obtain ⟨e, he⟩ := Token.exists_invalid ht
    rw [valid_of_invalid he]
    refine .error hm hleft (by simp) fun hs => ?_
    obtain ⟨l', q', hq, hnear, -⟩ := hright hs
    rw [hy q l' q' hq, valid_of_invalid (hnear.token.trans he)]
    exact ⟨_, _, rfl, .invalid e hnear.position⟩

def keepCurrent (l : Lexeme) (p : Parser) : Parser :=
  { p with current := some l }

def keepAhead (l : Lexeme) (p : Parser) : Parser :=
  { p with lookahead := some l }

theorem current?_of_takeCurrent {p₁ p₂ : Parser} {l : Lexeme} (h : takeCurrent p₁ = .ok l p₂) :
    current? p₁ = valid l (keepCurrent l p₂) := by
  rw [current?, bind_of_ok h]
  rfl

theorem Paired.keepCurrent {l l' : Lexeme} (hnear : l.Near k.near l') (h : Paired k n p q) :
    Paired k n (keepCurrent l p) (keepCurrent l' q) :=
  ⟨h.left, h.right, fun _ => .some hnear, h.lookahead⟩

theorem Paired.keepAhead {l l' : Lexeme} (hnear : l.Near k.near l') (h : Paired k n p q) :
    Paired k n (keepAhead l p) (keepAhead l' q) :=
  ⟨h.left, h.right, h.current, fun _ => .some hnear⟩

theorem takeCurrent_rest {l : Lexeme} {p' : Parser} (h : takeCurrent p = .ok l p') :
    p'.current = none ∧ p.rest = held (some l) p'.rest := by
  obtain ⟨l₁, p₁, htake, hnone, hrest⟩ := takeCurrent_spec p
  rw [h] at htake
  cases htake
  exact ⟨hnone, hrest⟩

theorem alike_current? (hf : ∀ l l', l.Near k.near l' →
      Alike k (fun ts => pre ts ∧ next ts = l.token) (f l) (g l') post) :
    Alike k pre (current? >>= f) (current? >>= g) post := by
  intro n p q hpq hpre
  obtain ⟨l, p', hfinds⟩ := hpq.takeCurrent
  obtain ⟨hnone, hrest⟩ := takeCurrent_rest hfinds.left
  refine hfinds.bind_valid (fun _ _ _ => current?_of_takeCurrent) rfl (fun _ _ _ => Paired.keepCurrent)
    fun m l' q' hnear hpair => hf l l' hnear hpair ?_
  have hhold : (keepCurrent l p').rest = p.rest := rest_hold hnone hrest
  rw [hhold]
  exact ⟨hpre, by rw [hrest, next_held_some]⟩

theorem alike_bump (hf : ∀ l l', l.Near k.near l' →
      Alike k (fun ts => pre (held (some l) ts)) (f l) (g l') post) :
    Alike k pre (bump >>= f) (bump >>= g) post := by
  intro n p q hpq hpre
  obtain ⟨l, p', hfinds⟩ := hpq.takeCurrent
  obtain ⟨-, hrest⟩ := takeCurrent_rest hfinds.left
  have hbump (p₁ : Parser) (l : Lexeme) (p₂ : Parser) (h : takeCurrent p₁ = .ok l p₂) :
      bump p₁ = valid l p₂ := bind_of_ok h
  refine hfinds.bind_valid hbump rfl (fun _ _ _ _ hpair => hpair) fun m l' q' hnear hpair =>
    hf l l' hnear hpair ?_
  rwa [hrest] at hpre

/-- Taking a token that is known leaves fewer. -/
theorem alike_bump_of_next (ht : t ≠ .endOfFile)
    (hf : ∀ l l', ∀ m < n, Alike k (AtMost m) (f l) (g l') post) :
    Alike k (fun ts => AtMost n ts ∧ next ts = t) (bump >>= f) (bump >>= g) post := by
  refine alike_bump fun l l' _ => (alike_below (hf l l')).before fun ts hts => ?_
  obtain ⟨hlength, htoken⟩ := hts
  rw [next_held_some] at htoken
  rw [AtMost, held_some_of_ne (htoken ▸ ht)] at hlength
  exact hlength

def ahead : Parse Lexeme := do
  let l ← Parser.fetch
  modify ({ · with lookahead := some l })
  valid l

theorem ahead_of_fetch {p₁ p₂ : Parser} {l : Lexeme} (h : Parser.fetch p₁ = .ok l p₂) :
    ahead p₁ = valid l (keepAhead l p₂) := by
  rw [ahead, bind_of_ok h]
  rfl

/-- Holding the token after the current one leaves what there is to read. -/
theorem rest_keepAhead {c l : Lexeme} {p' : Parser} (hc : p.current = some c)
    (h : Parser.fetch p = .ok l p') :
    (keepAhead l p').rest = p.rest ∧ ∀ t r, p.rest = t :: r → next r = l.token := by
  constructor
  · obtain ⟨l₁, p₁, hfetch, hcurrent, -, hheld⟩ := fetch_spec p
    rw [h] at hfetch
    cases hfetch
    rw [keepAhead, rest, rest, hcurrent, hheld]
  · intro t r hr
    obtain ⟨l₁, p₁, hfetch, htoken, -⟩ := fetch_hold hc hr
    rw [h] at hfetch
    cases hfetch
    exact htoken.symm

/-- The token after the current one is the second of those left. -/
theorem alike_peek (hf : ∀ l l', l.Near k.near l' →
      Alike k (fun ts => pre ts ∧ ∀ t r, ts = t :: r → next r = l.token) (f l) (g l') post) :
    Alike k pre (peek >>= f) (peek >>= g) post := by
  have hpeek (f : Lexeme → Parse α) : peek >>= f = current? >>= fun _ => ahead >>= f := bind_assoc ..
  rw [hpeek, hpeek]
  intro n p q hpq hpre
  obtain ⟨c, p₁, hfinds⟩ := hpq.takeCurrent
  obtain ⟨hnone, hrest⟩ := takeCurrent_rest hfinds.left
  refine hfinds.bind_valid (fun _ _ _ => current?_of_takeCurrent) rfl (fun _ _ _ => Paired.keepCurrent) ?_
  intro m c' q₁ _ hpair
  obtain ⟨l, p₂, hahead⟩ := hpair.fetch
  refine hahead.bind_valid (fun _ _ _ => ahead_of_fetch) rfl (fun _ _ _ => Paired.keepAhead)
    fun m l' q' hnear hpair => hf l l' hnear hpair ?_
  have hhold : (keepCurrent c p₁).rest = p.rest := rest_hold hnone hrest
  obtain ⟨hrest₂, hnext⟩ := rest_keepAhead rfl hahead.left
  rw [hrest₂, hhold]
  exact ⟨hpre, hhold ▸ hnext⟩

theorem check_alike (t : Token) :
    Alike k pre (check t) (check t) fun b ts => pre ts ∧ (b = true ↔ next ts = t) := by
  refine alike_current? fun l l' hnear => ?_
  rw [hnear.token]
  refine alike_pure fun ts hts => ⟨hts.1, ?_⟩
  rw [decide_eq_true_iff, hts.2]

theorem unexpected_alike (e : Expected) :
    Alike k pre (unexpected e : Parse α) (unexpected e) post := by
  refine alike_current? fun l l' hnear => ?_
  rw [hnear.token]
  exact alike_throw (.mismatch e l.token hnear.position)

def Remains (n : Nat) (taken : Bool) (ts : List Token) : Prop :=
  if taken then Below n ts else AtMost n ts

theorem eat_alike (ht : t ≠ .endOfFile) (n : Nat) : Alike k (AtMost n) (eat t) (eat t) (Remains n) := by
  refine Alike.bind (check_alike t) fun b => ?_
  cases b with
  | true =>
    have hbump : Alike k (fun ts => AtMost n ts ∧ next ts = t) (bump >>= fun _ => pure true)
        (bump >>= fun _ => pure true) (Remains n) :=
      alike_bump_of_next ht fun _ _ m hm => alike_pure fun _ hts => Nat.lt_of_le_of_lt hts hm
    exact hbump.before fun _ hts => ⟨hts.1, hts.2.1 rfl⟩
  | false => exact alike_pure fun ts hts => hts.1

section Choices
variable {x x' y y' : Parse α}

/-- A choice by the next token that takes one in either case. -/
theorem takes_eat (ht : t ≠ .endOfFile) (hyes : ∀ m < n, Keeps k m x x') (hno : Takes k n y y') :
    Takes k n (eat t >>= fun b => if b = true then x else y)
      (eat t >>= fun b => if b = true then x' else y') := by
  refine Alike.bind (eat_alike ht n) fun b => ?_
  cases b with
  | true => exact alike_below fun m hm => (hyes m hm).below hm
  | false => exact hno

theorem keeps_eat (ht : t ≠ .endOfFile) (hyes : ∀ m < n, Keeps k m x x') (hno : Keeps k n y y') :
    Keeps k n (eat t >>= fun b => if b = true then x else y)
      (eat t >>= fun b => if b = true then x' else y') := by
  refine Alike.bind (eat_alike ht n) fun b => ?_
  cases b with
  | true =>
    exact alike_below fun m hm => (hyes m hm).after fun _ _ h =>
      Nat.le_trans h (Nat.le_of_lt hm)
  | false => exact hno

end Choices

theorem expect_takes (ht : t ≠ .endOfFile) (e : Expected) (n : Nat) :
    Takes k n (expect t e) (expect t e) := by
  refine Alike.bind (check_alike t) fun b => ?_
  cases b with
  | true =>
    have hbump : Alike k (fun ts => AtMost n ts ∧ next ts = t) (bump >>= fun _ => pure ())
        (bump >>= fun _ => pure ()) fun _ => Below n :=
      alike_bump_of_next ht fun _ _ m hm => (keeps_pure ()).below hm
    exact hbump.before fun _ hts => ⟨hts.1, hts.2.1 rfl⟩
  | false => exact unexpected_alike e

theorem expectIdent_alike (e : Expected) :
    Alike k pre (expectIdent e) (expectIdent e) fun name ts => pre (.ident name :: ts) := by
  refine alike_bump fun l l' hnear => ?_
  rw [hnear.token]
  cases ht : l.token with
  | ident name =>
    refine alike_pure fun ts hts => ?_
    rwa [held_some_of_ne (by simp [ht]), ht] at hts
  | _ => exact alike_throw (.mismatch e _ hnear.position)

theorem expectIdent_takes (e : Expected) (n : Nat) : Takes k n (expectIdent e) (expectIdent e) :=
  expectIdent_alike e

theorem expectSymbol_takes (s : Symbol) (e : Expected) (n : Nat) :
    Takes k n (expectSymbol s e) (expectSymbol s e) :=
  expect_takes (by simp) e n

theorem expectKeyword_takes (s : Keyword) (n : Nat) :
    Takes k n (expectKeyword s) (expectKeyword s) :=
  expect_takes (by simp) _ n

end Tokens

end Parser
end IntLang
