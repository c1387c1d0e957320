import IntLang.Proofs.ExprRuns

/-! The code of statements, of bodies and of whole programs follows the evaluation of the tree. A
loop and a call each cost at least one step, so an evaluation that finds nothing within its bound
belongs to a run that takes longer. -/
namespace IntLang.Code
open IntLang.Flow IntLang.Machine IntLang.Meaning

/-- The activation is about to return `v`. -/
structure Returns (t : Activation) (w : World) (v : Int32) (s : Store) (d : Config) : Prop where
  below : d.below = t.below
  serves : Serves w s d.engine
  remains : t.Remains d.engine.globals s.vars
  step : d.top.step t.site.module d.engine.globals = .ok (.ret v)

/-- The statements before `b` are done: the machine stands there, or is about to return. -/
def Done (t : Activation) (w : World) (b : Cursor) (r : Option Int32) (s : Store)
    (d : Config) : Prop :=
  match r with
  | none => Stands t w s b d
  | some v => Returns t w v s d

section Statements
variable {t : Activation} {w : World} {s : Store} {a b : Cursor} {c : Config} {n : Nat}
  {v : Operand} {x : Int32}

theorem Stands.returns (hf : t.site.module.function? t.id = some t.site.function)
    (hs : Stands t w s a c) (hk : Closed t.site.function a (.ret v)) (hv : c.top.eval v = .int x) :
    Returns t w x s c := by
  obtain ⟨blk, ht, hstep⟩ := hs.leave_eq hf hk
  refine ⟨hs.below, hs.serves, hs.agrees.remains, hstep.trans ?_⟩
  rw [Frame.leave, ht]
  simp only [int_of_eval hv]
  rfl

theorem SlotsAgree.store {f : Function} {known : List (String × Operand)} {fr : Frame}
    {vars : String → Int32} {name : String} {p : Operand} (h : SlotsAgree f known fr vars)
    (hp : known.lookup name = some p) (x : Int32) :
    ∃ i, fr.eval p = .cell i ∧ SlotsAgree f known
      { fr with cells := fr.cells.setIfInBounds i x, next := fr.next + 1 }
      (Function.update vars name x) := by
  obtain ⟨cell, hc, hinj⟩ := h
  obtain ⟨id, nm, rfl, -, hr, hv⟩ := hc name p hp
  refine ⟨cell name, by simp [Frame.eval, hr], cell, fun y q hq => ?_, hinj⟩
  obtain ⟨id', nm', rfl, ha', hr', hv'⟩ := hc y q hq
  refine ⟨id', nm', rfl, ha', hr', ?_⟩
  by_cases hy : y = name
  · subst hy
    have hlt := (Array.getElem?_eq_some_iff.1 hv').1
    simp [hlt]
  · have hne : cell name ≠ cell y := fun e => hy (hinj _ _ _ _ hp hq e).symm
    simp [Array.getElem?_setIfInBounds_ne hne, hv', hy]

theorem findGlobal?_name {m : Module} {name : String} {g : GlobalId}
    (h : m.findGlobal? name = some g) : ∃ cell, m.globals[g]? = some cell ∧ cell.name = name := by
  unfold Module.findGlobal? at h
  obtain ⟨hlt, hg, -⟩ := Array.findIdx?_eq_some_iff_getElem.1 h
  exact ⟨m.globals[g], Array.getElem?_eq_getElem hlt, by simpa using hg⟩

theorem GlobalsAgree.store {m : Module} {globals : Array Int32} {vars : String → Int32}
    {name : String} {g : GlobalId} (h : GlobalsAgree m globals vars)
    (hg : m.findGlobal? name = some g) (x : Int32) :
    GlobalsAgree m (globals.setIfInBounds g x) (Function.update vars name x) := by
  refine ⟨by simpa using h.size, fun y g' hg' => ?_, fun y hy => ?_⟩
  · by_cases hy : y = name
    · subst hy
      obtain rfl := Option.some.inj (hg.symm.trans hg')
      have hlt := (Array.getElem?_eq_some_iff.1 (h.cell _ _ hg)).1
      simp [hlt]
    · have hne : g ≠ g' := by
        rintro rfl
        obtain ⟨_, h₁, rfl⟩ := findGlobal?_name hg
        obtain ⟨_, h₂, rfl⟩ := findGlobal?_name hg'
        exact hy (congrArg _ (Option.some.inj (h₂.symm.trans h₁)))
      simp [Array.getElem?_setIfInBounds_ne hne, h.cell y g' hg', hy]
  · have hne : y ≠ name := by
      rintro rfl
      exact absurd (hg.symm.trans hy) (by simp)
    rw [Function.update_of_ne hne]
    exact h.unseen y hy

/-- One step through a store to the address of a variable. -/
theorem Stands.stores (hf : t.site.module.function? t.id = some t.site.function)
    (hs : Stands t w s a c) {name : String} {p u : Operand} (hp : t.site.address? name = some p)
    (he : Single t.site.function (.store v p) a u b) (hv : c.top.eval v = .int x) :
    ∃ d, Steps t.site.module 1 c d ∧ Stands t w (s.set name x) b d := by
  obtain ⟨id, he, -⟩ := he
  have hblock := hs.block.trans he.block.symm
  have hnext := (congrArg (· + 1) hs.next).trans he.index.symm
  have hserves : Serves w (s.set name x) c.engine := ⟨hs.serves.1, hs.serves.2, hs.serves.3⟩
  have hag := hs.agrees
  unfold Activation.Agrees at hag
  unfold Site.address? at hp
  split at hag
  · next known hk =>
    rw [hk] at hp
    obtain ⟨i, hi, hsl⟩ := hag.2.store hp x
    have hx : c.top.exec t.site.function.name c.engine.globals id (.store v p) =
        .ok (.proceed { c.top with cells := c.top.cells.setIfInBounds i x, next := c.top.next + 1 }
          c.engine.globals) := by
      simp only [Frame.exec, int_of_eval hv, hi]
      rfl
    refine ⟨_, .one (step_of_proceed ((hs.step_eq hf he).trans hx)),
      ⟨hs.function, hblock, hnext, hs.pending, hs.size, hs.below, hserves, ?_⟩⟩
    unfold Activation.Agrees
    rw [hk]
    exact ⟨hag.1, hsl⟩
  · next hk =>
    rw [hk] at hp
    obtain ⟨g, hg, rfl⟩ := Option.map_eq_some_iff.1 hp
    have hx : c.top.exec t.site.function.name c.engine.globals id (.store v (.global g)) =
        .ok (.proceed c.top.advance (c.engine.globals.setIfInBounds g x)) := by
      simp only [Frame.exec, int_of_eval hv, Frame.eval]
      rfl
    refine ⟨_, .one (step_of_proceed ((hs.step_eq hf he).trans hx)),
      ⟨hs.function, hblock, hnext, hs.pending, hs.size, hs.below,
        ⟨hserves.1, hserves.2, hserves.3⟩, ?_⟩⟩
    unfold Activation.Agrees
    rw [hk]
    exact hag.store hg x

/-- A condition is evaluated, and control goes to the block it selects. -/
theorem TestCode.follows {α : Type} (hf : t.site.module.function? t.id = some t.site.function)
    (hsup : Supported t.site.module w) {call : Calls}
    (hcall : CallsFollow t.site.module w n (t.below.size + 1) call) {k : Nat} (hk : k ≤ n)
    {cond : Expr} {onTrue onFalse : BlockId} (h : TestCode t.site cond a onTrue onFalse)
    (hs : Stands t w s a c) {f : Int32 → Eval α} {post : α → Store → Config → Prop}
    (hpost : ∀ x s' d, (∀ j, Stands t w s' ⟨if x = 0 then onFalse else onTrue, 0, j⟩ d) →
      Follows t.site.module k (Left t w) d (f x s') post) :
    Follows t.site.module k (Left t w) c ((expr call cond >>= f) s) post := by
  obtain ⟨v, d, r, e, he, hz, hb⟩ := h
  refine ((expr_follows hf hsup hcall cond he hs).less hk).bind fun x s₁ c₁ h₁ => ?_
  obtain ⟨_, c₂, s₂, st₂, ev₂, -⟩ := hz.runs hf h₁.stands h₁.value
  obtain ⟨c₃, s₃, st₃, -⟩ := st₂.branches hf hb ev₂ 0
  refine .later (s₂.trans s₃) (hpost x s₁ c₃ fun j => ?_)
  have hsel : (if (if x = 0 then false else !false) = true then onTrue else onFalse) =
      if x = 0 then onFalse else onTrue := by
    by_cases hx : x = 0 <;> simp [hx]
  rw [hsel] at st₃
  exact st₃.congr rfl rfl

/-- Every time round, the run takes the jump back to the condition. -/
theorem repeated_follows (hf : t.site.module.function? t.id = some t.site.function)
    (hsup : Supported t.site.module w) {call : Calls}
    (hcall : CallsFollow t.site.module w n (t.below.size + 1) call) {cond : Expr}
    {body : Eval (Option Int32)} {head work : BlockId} {j j' : Nat} {d : Cursor}
    (htest : TestCode t.site cond ⟨head, 0, j⟩ work b.block) (hb : b.index = 0)
    (hbody : ∀ s c, Stands t w s ⟨work, 0, j'⟩ c →
      Follows t.site.module n (Left t w) c (body s) (Done t w d))
    (hback : Closed t.site.function d (.jump head)) (k : Nat) (hk : k ≤ n)
    (hs : Stands t w s ⟨head, 0, j⟩ c) :
    Follows t.site.module k (Left t w) c (repeated (expr call cond) body k s) (Done t w b) := by
  induction k generalizing s c with
  | zero => rfl
  | succ k ih =>
    rw [repeated]
    refine htest.follows hf hsup hcall hk hs fun x s₁ c₁ h₁ => ?_
    by_cases hx : x = 0
    · simp only [hx, ↓reduceIte] at h₁ ⊢
      exact .value ((h₁ 0).congr rfl hb)
    · simp only [hx, ↓reduceIte] at h₁ ⊢
      refine ((hbody s₁ c₁ (h₁ j')).less hk).bind fun r s₂ c₂ h₂ => ?_
      cases r with
      | some v => exact .value h₂
      | none =>
        obtain ⟨c₃, s₃, st₃, -, -⟩ := Stands.jumps hf h₂ hback j
        rw [Nat.add_comm]
        exact .after s₃ (ih (by omega) st₃)

theorem printedLine_ne_empty (args : List Int32) : printedLine args ≠ "" := by
  intro h
  have hl := congrArg String.length h
  simp [printedLine] at hl

/-- A print statement does what the print routine does with the count and the values. -/
theorem printed_eq (hn : w.natives.lookup printSymbol = some .print) (xs : List Int32) :
    printed w xs = (do
      let _ ← called fun text =>
        some (foreign w printSymbol (Int32.ofNat xs.length :: xs) text)
      pure ()) := by
  funext s
  rw [bind_apply]
  simp only [printed, called, foreign, hn, Native.run, printedLine_ne_empty, ↓reduceIte,
    Option.map_some]
  rcases w.sink.refuses s.output (printedLine (Int32.ofNat xs.length :: xs)) with _ | ⟨_, _⟩ <;> rfl

/-- Statements that end in a jump to `b` come to it, if they come to their end. -/
theorem joins (hf : t.site.module.function? t.id = some t.site.function) {d : Cursor}
    {r : Option (Except Fault (Option Int32) × Store)}
    (hd : Closed t.site.function d (.jump b.block)) (hb : b.index = 0)
    (h : Follows t.site.module n (Left t w) c r (Done t w d)) :
    Follows t.site.module n (Left t w) c r (Done t w b) := by
  rcases r with _ | ⟨f | v, s'⟩
  · exact h
  · exact h
  · obtain ⟨k, c₁, s₁, h₁⟩ := h
    cases v with
    | some v => exact ⟨k, c₁, s₁, h₁⟩
    | none =>
      obtain ⟨c₂, s₂, st₂, -, -⟩ := Stands.jumps hf h₁ hd 0
      exact ⟨_, c₂, s₁.trans s₂, st₂.congr rfl hb⟩

mutual

theorem stmt_follows (hf : t.site.module.function? t.id = some t.site.function)
    (hsup : Supported t.site.module w) {call : Calls}
    (hcall : CallsFollow t.site.module w n (t.below.size + 1) call) :
    ∀ (st : Stmt) {a b : Cursor} {s : Store} {c : Config},
      StmtCode t.site st a b → Stands t w s a c →
      Follows t.site.module n (Left t w) c (stmt w call n st s) (Done t w b)
  | .assign name e, a, b, s, c, h, hs => by
    obtain ⟨p, a', v, d, hp, ha, he, u, hu⟩ := h
    rw [stmt]
    refine (expr_follows hf hsup hcall e he (hs.congr ha.block ha.index)).bind
      fun x s₁ c₁ h₁ => ?_
    obtain ⟨c₂, s₂, st₂⟩ := h₁.stands.stores hf hp hu h₁.value
    exact .later s₂ (.value st₂)
  | .eval e, a, b, s, c, h, hs => by
    obtain ⟨v, he⟩ := h
    rw [stmt]
    exact (expr_follows hf hsup hcall e he hs).bind fun x s₁ c₁ h₁ => .value h₁.stands
  | .branch cond body elifs otherwise, a, b, s, c, h, hs => by
    obtain ⟨onTrue, next, k, htest, ⟨d, hbody, hd⟩, hb, k', d', e, helifs, hother, he⟩ := h
    rw [stmt]
    refine htest.follows hf hsup hcall (Nat.le_refl n) hs fun x s₁ c₁ h₁ => ?_
    by_cases hx : x = 0
    · simp only [hx, ↓reduceIte, ne_eq, not_true_eq_false] at h₁ ⊢
      exact arms_follows hf hsup hcall elifs helifs (fun s₂ c₂ h₂ =>
        joins hf he hb (stmts_follows hf hsup hcall otherwise hother h₂)) hb (h₁ k')
    · simp only [hx, ↓reduceIte, ne_eq, not_false_eq_true] at h₁ ⊢
      exact joins hf hd hb (stmts_follows hf hsup hcall body hbody (h₁ k))
  | .loop cond body, a, b, s, c, h, hs => by
    obtain ⟨head, k, work, ha, htest, hb, k', d, hbody, hd⟩ := h
    rw [stmt]
    obtain ⟨c₁, s₁, st₁, -, -⟩ := hs.jumps hf ha k
    have hround (s : Store) (c : Config) (h : Stands t w s ⟨work, 0, k'⟩ c) :=
      stmts_follows hf hsup hcall body hbody h
    exact .later s₁ (repeated_follows hf hsup hcall htest hb hround hd n (Nat.le_refl n) st₁)
  | .print args, a, b, s, c, h, hs => by
    obtain ⟨id, vs, d, u, hid, hargs, hc⟩ := h
    obtain ⟨g, hg, hdecl, hname⟩ := hsup.declared _ id (.inl rfl) hid
    have hn : w.natives.lookup g.name = some .print := hname ▸ hsup.print
    rw [stmt]
    refine (exprs_follows hf hsup hcall args hargs hs).bind fun xs s₁ c₁ h₁ => ?_
    obtain ⟨st₁, ev₁, -, len₁⟩ := h₁
    rw [printed_eq hsup.print, len₁, ← hname]
    have h := hc.follows_call hf st₁ (.cons rfl ev₁) fun fr hfr =>
      native_follows (n := n) hg hdecl hn st₁.serves hfr
    have hdone (x : Int32) (s' : Store) (e : Config) (h : Comes t w d.fresh c₁ u b x s' e) :
        Follows t.site.module n (Left t w) e (some (.ok (), s')) fun _ s' => Stands t w s' b :=
      .value h.stands
    exact (h.bind hdone).bind fun _ s₃ c₃ h₃ => .value h₃
  | .ret e, a, b, s, c, h, hs => by
    obtain ⟨v, d, he, hd⟩ := h
    rw [stmt]
    exact (expr_follows hf hsup hcall e he hs).bind fun x s₁ c₁ h₁ =>
      .value (h₁.stands.returns hf hd h₁.value)
  | .pass, a, b, s, c, h, hs => by
    rw [stmt]
    exact .value (h ▸ hs)

theorem stmts_follows (hf : t.site.module.function? t.id = some t.site.function)
    (hsup : Supported t.site.module w) {call : Calls}
    (hcall : CallsFollow t.site.module w n (t.below.size + 1) call) :
    ∀ (ss : List Stmt) {a b : Cursor} {s : Store} {c : Config},
      StmtsCode t.site ss a b → Stands t w s a c →
      Follows t.site.module n (Left t w) c (stmts w call n ss s) (Done t w b)
  | [], a, b, s, c, h, hs => by
    rw [stmts]
    exact .value (h ▸ hs)
  | st :: ss, a, b, s, c, h, hs => by
    obtain ⟨d, hst, hss⟩ := h
    rw [stmts]
    refine (stmt_follows hf hsup hcall st hst hs).bind fun r s₁ c₁ h₁ => ?_
    cases r with
    | some v => exact .value h₁
    | none => exact stmts_follows hf hsup hcall ss hss h₁

theorem arms_follows (hf : t.site.module.function? t.id = some t.site.function)
    (hsup : Supported t.site.module w) {call : Calls}
    (hcall : CallsFollow t.site.module w n (t.below.size + 1) call) :
    ∀ (as : List (Expr × List Stmt)) {a b d : Cursor} {s : Store} {c : Config}
      {last : Eval (Option Int32)}, ArmsCode t.site as a b.block d →
      (∀ s c, Stands t w s d c →
        Follows t.site.module n (Left t w) c (last s) (Done t w b)) →
      b.index = 0 → Stands t w s a c →
      Follows t.site.module n (Left t w) c (arms w call n last as s) (Done t w b)
  | [], a, b, d, s, c, last, h, hlast, hb, hs => by
    rw [arms]
    exact hlast s c (h ▸ hs)
  | (cond, body) :: rest, a, b, d, s, c, last, h, hlast, hb, hs => by
    obtain ⟨onTrue, next, k, htest, ⟨d', hbody, hd'⟩, k', hrest⟩ := h
    rw [arms]
    refine htest.follows hf hsup hcall (Nat.le_refl n) hs fun x s₁ c₁ h₁ => ?_
    by_cases hx : x = 0
    · simp only [hx, ↓reduceIte, ne_eq, not_true_eq_false] at h₁ ⊢
      exact arms_follows hf hsup hcall rest hrest hlast hb (h₁ k')
    · simp only [hx, ↓reduceIte, ne_eq, not_false_eq_true] at h₁ ⊢
      exact joins hf hd' hb (stmts_follows hf hsup hcall body hbody (h₁ k))

end

end Statements
end IntLang.Code
