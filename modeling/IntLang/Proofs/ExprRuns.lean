import IntLang.Proofs.Arithmetic
import IntLang.Proofs.CodeSteps
import Mathlib.Data.List.Forall2

/-! The code of an expression computes its value. The proof follows the tree, and takes from the
functions that are called only that their runs follow their evaluations. -/
namespace IntLang.Code
open IntLang.Flow IntLang.Machine IntLang.Meaning

/-- Calls by name from a body with `depth` activations follow `call`. -/
def CallsFollow (m : Module) (w : World) (n depth : Nat) (call : Calls) : Prop :=
  ∀ name id args (c : Config) (fr : Frame) (s : Store), c.below.size + 1 = depth →
    Callee m name args.length id → Serves w s c.engine →
    c.top.step m c.engine.globals = .ok (.call fr id args) →
    Follows m n (fun s' e => e = { c.engine with output := s'.output } ∧ s'.vars = s.vars) c
      (called (call name args) s) fun v s' d =>
        d = ⟨{ c.engine with output := s'.output }, fr.resume v, c.below⟩ ∧ s'.vars = s.vars

structure Supported (m : Module) (w : World) : Prop where
  print : w.natives.lookup printSymbol = some .print
  power : w.natives.lookup powerSymbol = some .power
  declared : ∀ name id, name = printSymbol ∨ name = powerSymbol → m.find? name = some id →
    ∃ f, m.function? id = some f ∧ f.isDeclaration = true ∧ f.name = name

section Bounds
variable {x : Site} {f : Function} {i : Instr} {a b : Cursor} {v r l : Operand}

/-- What a stretch of code says about the operand it leaves. -/
structure Bounded (a : Cursor) (v : Operand) (b : Cursor) : Prop where
  fresh : a.fresh ≤ b.fresh
  below : Below b.fresh v
  plain : Plain v

theorem Single.bounded (h : Single f i a v b) : Bounded a v b := by
  obtain ⟨id, he, rfl⟩ := h
  refine ⟨Nat.le_of_lt (Nat.lt_of_le_of_lt he.lower he.upper), fun j hj => ?_, trivial⟩
  cases hj
  exact he.upper

theorem Bounded.before {d : Cursor} (h : Bounded d v b) (hd : a.fresh ≤ d.fresh) : Bounded a v b :=
  ⟨Nat.le_trans hd h.fresh, h.below, h.plain⟩

theorem ZeroTest.bounded {p : Bool} (h : ZeroTest f v p a r b) : Bounded a r b := by
  obtain ⟨e, d, onZero, onNonzero, cont, k, -, -, -, -, -, hk, hp⟩ := h
  exact hp.bounded.before hk

theorem UnaryCode.bounded {op : UnaryOp} (h : UnaryCode f op v a r b) (hv : Below a.fresh v)
    (hp : Plain v) : Bounded a r b := by
  cases op with
  | negate => exact h.elim fun ty h => h.bounded
  | identity =>
    obtain ⟨rfl, rfl⟩ := h
    exact ⟨Nat.le_refl _, hv, hp⟩
  | not =>
    obtain ⟨z, d, hz, hw⟩ := h
    exact hw.bounded.before hz.bounded.fresh

theorem ArithCode.bounded {op : ArithOp} (h : ArithCode f op l r a v b) : Bounded a v b :=
  h.elim fun _ h => h.bounded

theorem LogicalCode.bounded {op : ArithOp} (h : LogicalCode f op l r a v b) : Bounded a v b := by
  obtain ⟨l', r', both, d, e, g, hl, hr, hb, hw⟩ := h
  exact hw.bounded.before
    (Nat.le_trans (Nat.le_trans hl.bounded.fresh hr.bounded.fresh) hb.bounded.fresh)

theorem CompareCode.bounded {op : CmpOp} (h : CompareCode f op l r a v b) : Bounded a v b := by
  obtain ⟨c, d, hc, hw⟩ := h
  exact hw.bounded.before hc.bounded.fresh

theorem BinaryCode.bounded {op : BinaryOp} (h : BinaryCode x op l r a v b) : Bounded a v b := by
  cases op with
  | and | or => exact LogicalCode.bounded h
  | lt | gt | le | ge | eq | ne => exact CompareCode.bounded h
  | in_ | notIn => exact h.elim
  | add | sub | mul | div | mod => exact ArithCode.bounded h
  | pow => exact h.elim fun _ h => h.2.bounded

mutual

theorem ExprCode.bounded : ∀ (e : Expr) {a : Cursor} {v : Operand} {b : Cursor},
    ExprCode x e a v b → Bounded a v b
  | .number _, _, _, _, h => by
    obtain ⟨rfl, rfl⟩ := h
    exact ⟨Nat.le_refl _, fun _ hj => (nomatch hj), trivial⟩
  | .var _, _, _, _, h => h.elim fun _ h => h.2.bounded
  | .unary _ e, _, _, _, h => by
    obtain ⟨u, d, he, hu⟩ := h
    have hb := ExprCode.bounded e he
    exact (hu.bounded hb.below hb.plain).before hb.fresh
  | .binary _ l r, _, _, _, h => by
    obtain ⟨u, d, u', d', hl, hr, hb⟩ := h
    exact hb.bounded.before
      (Nat.le_trans (ExprCode.bounded l hl).fresh (ExprCode.bounded r hr).fresh)
  | .call _ args, _, _, _, h => by
    obtain ⟨id, vs, d, -, hargs, hc⟩ := h
    exact hc.bounded.before (ExprsCode.fresh args hargs)

theorem ExprsCode.fresh : ∀ (es : List Expr) {a : Cursor} {vs : List Operand} {b : Cursor},
    ExprsCode x es a vs b → a.fresh ≤ b.fresh
  | [], _, _, _, h => h.2 ▸ Nat.le_refl _
  | e :: es, _, _, _, h => by
    obtain ⟨v, d, us, he, hes, -⟩ := h
    exact Nat.le_trans (ExprCode.bounded e he).fresh (ExprsCode.fresh es hes)

end

end Bounds

section Instructions
variable {fr : Frame} {name : String} {globals : Array Int32} {l r : Operand} {x y : Int32}
  (id : InstrId)

theorem exec_compare (op : CmpOp) (hl : fr.int l = .ok x) (hr : fr.int r = .ok y) :
    fr.exec name globals id (.compare op l r) =
      .ok (.proceed (fr.give id (.bool (op.holds x y))) globals) := by
  simp only [Frame.exec, hl, hr]
  rfl

theorem exec_widen (hl : fr.int l = .ok x) :
    fr.exec name globals id (.widen l) = .ok (.proceed (fr.give id (.int x)) globals) := by
  simp only [Frame.exec, hl]
  rfl

theorem exec_call {callee : FuncId} {args : List Operand} {xs : List Int32}
    (h : fr.ints args = .ok xs) :
    fr.exec name globals id (.call callee args) =
      .ok (.call { fr.advance with pending := some id } callee xs) := by
  simp only [Frame.exec, h]
  rfl

theorem ints_of_eval {args : List Operand} {xs : List Int32}
    (h : List.Forall₂ (fun v x => fr.eval v = .int x) args xs) : fr.ints args = .ok xs := by
  induction h with
  | nil => rfl
  | cons hv _ ih =>
    simp only [Frame.ints, int_of_eval hv, ih]
    rfl

theorem arithSlot_int (op : ArithOp) (hl : fr.eval l = .int x) (hr : fr.eval r = .int y) :
    fr.arithSlot op l r = (arith op x y).map .int := by
  unfold Frame.arithSlot
  simp only [hl, hr, int_of_eval hl, int_of_eval hr]
  have h : (arith op x y >>= fun z => pure (Slot.int z)) = (arith op x y).map .int := by
    cases arith op x y <;> rfl
  cases op <;> exact h

theorem arithSlot_and {p q : Bool} (hl : fr.eval l = .bool p) (hr : fr.eval r = .bool q) :
    fr.arithSlot .and l r = .ok (.bool (p && q)) := by
  simp only [Frame.arithSlot, hl, hr]

theorem arithSlot_or {p q : Bool} (hl : fr.eval l = .bool p) (hr : fr.eval r = .bool q) :
    fr.arithSlot .or l r = .ok (.bool (p || q)) := by
  simp only [Frame.arithSlot, hl, hr]

theorem exec_arith {op : ArithOp} {ty : Ty} {z : Slot} (h : fr.arithSlot op l r = .ok z) :
    fr.exec name globals id (.arith op ty l r) = .ok (.proceed (fr.give id z) globals) := by
  simp only [Frame.exec, h]
  rfl

theorem exec_arith_error {op : ArithOp} {ty : Ty} {e : Fault} (h : fr.arithSlot op l r = .error e) :
    fr.exec name globals id (.arith op ty l r) = .error e := by
  simp only [Frame.exec, h]
  rfl

theorem exec_phi_left {ty : Ty} {u v : Operand} {a b : BlockId} (h : fr.previous = some a) :
    fr.exec name globals id (.phi ty [(u, a), (v, b)]) =
      .ok (.proceed (fr.give id (fr.eval u)) globals) := by
  simp [Frame.exec, h]

theorem exec_phi_right {ty : Ty} {u v : Operand} {a b : BlockId} (h : fr.previous = some b)
    (hab : a ≠ b) :
    fr.exec name globals id (.phi ty [(u, a), (v, b)]) =
      .ok (.proceed (fr.give id (fr.eval v)) globals) := by
  simp [Frame.exec, h, hab.symm]

end Instructions

/-- The machine has come to `b` with the value `r` for `v`, and results below `k` are as in `c`. -/
structure Comes (t : Activation) (w : World) (k : Nat) (c : Config) (v : Operand) (b : Cursor)
    (r : Int32) (s : Store) (d : Config) : Prop where
  stands : Stands t w s b d
  value : d.top.eval v = .int r
  keeps : Keeps k c d

section Runs
variable {t : Activation} {w : World} {s : Store} {a b : Cursor} {c : Config} {n : Nat}
  {l r v : Operand} {x y : Int32}

theorem ZeroTest.runs (hf : t.site.module.function? t.id = some t.site.function) {p : Bool}
    (h : ZeroTest t.site.function v p a r b) (hs : Stands t w s a c) (hv : c.top.eval v = .int x) :
    ∃ k d, Steps t.site.module k c d ∧ Stands t w s b d ∧
      d.top.eval r = .bool (if x = 0 then p else !p) ∧ Keeps a.fresh c d := by
  obtain ⟨e, d, onZero, onNonzero, cont, k, hc, hd, hne, hz, hn, hk, hp⟩ := h
  obtain ⟨c₁, s₁, st₁, ev₁, k₁⟩ := hs.gives hf hc (fun _ => nofun)
    fun id => exec_compare id .eq (l := .int 0) rfl (int_of_eval hv)
  have hcmp : CmpOp.eq.holds 0 x = decide (x = 0) := by simp [CmpOp.holds, eq_comm]
  obtain ⟨c₂, s₂, st₂, k₂⟩ := st₁.branches hf hd (ev₁.trans (congrArg _ hcmp)) k
  by_cases hx : x = 0
  · simp only [hx, decide_true, ↓reduceIte] at st₂
    obtain ⟨c₃, s₃, st₃, pr₃, k₃⟩ := st₂.jumps hf hz k
    obtain ⟨c₄, s₄, st₄, ev₄, k₄⟩ := st₃.gives hf hp (fun _ => nofun)
      fun id => exec_phi_left id pr₃
    refine ⟨_, c₄, ((s₁.trans s₂).trans s₃).trans s₄, st₄, ?_, ?_⟩
    · simpa [hx, Frame.eval] using ev₄
    · exact ((k₁.trans (k₂.less hk)).trans (k₃.less hk)).trans (k₄.less hk)
  · simp only [hx, decide_false, Bool.false_eq_true, ↓reduceIte] at st₂
    obtain ⟨c₃, s₃, st₃, pr₃, k₃⟩ := st₂.jumps hf hn k
    obtain ⟨c₄, s₄, st₄, ev₄, k₄⟩ := st₃.gives hf hp (fun _ => nofun)
      fun id => exec_phi_right id pr₃ hne
    refine ⟨_, c₄, ((s₁.trans s₂).trans s₃).trans s₄, st₄, ?_, ?_⟩
    · simpa [hx, Frame.eval] using ev₄
    · exact ((k₁.trans (k₂.less hk)).trans (k₃.less hk)).trans (k₄.less hk)

theorem Single.runs_widen (hf : t.site.module.function? t.id = some t.site.function) {p : Bool}
    (h : Single t.site.function (.widen v) a r b) (hs : Stands t w s a c)
    (hv : c.top.eval v = .bool p) :
    ∃ d, Steps t.site.module 1 c d ∧ Comes t w a.fresh c r b (if p then 1 else 0) s d := by
  obtain ⟨d, hd, st, ev, hk⟩ := hs.gives hf h (fun _ => nofun)
    fun id => exec_widen id (int_of_eval_bool hv)
  exact ⟨d, hd, st, ev, hk⟩

theorem ArithCode.follows (hf : t.site.module.function? t.id = some t.site.function) {op : ArithOp}
    (h : ArithCode t.site.function op l r a v b) (hs : Stands t w s a c)
    (hl : c.top.eval l = .int x) (hr : c.top.eval r = .int y) {z : Except Fault Int32}
    (hz : arith op x y = z) :
    Follows t.site.module n (Left t w) c (some (z, s)) (Comes t w a.fresh c v b) := by
  obtain ⟨ty, h⟩ := h
  have hslot := arithSlot_int op hl hr
  rw [hz] at hslot
  cases z with
  | error e =>
    obtain ⟨id, he, -⟩ := h
    refine ⟨1, c.engine, ?_, hs.serves, hs.agrees.remains⟩
    rw [Config.run, step_of_error ((hs.step_eq hf he).trans (exec_arith_error id hslot))]
  | ok z =>
    obtain ⟨d, hd, st, ev, hk⟩ := hs.gives hf h (by simp) fun id => exec_arith id hslot
    exact ⟨1, d, hd, st, ev, hk⟩

theorem LogicalCode.runs (hf : t.site.module.function? t.id = some t.site.function) {op : ArithOp}
    {join : Bool → Bool → Bool}
    (hop : ∀ (fr : Frame) (l r : Operand) (p q : Bool), fr.eval l = .bool p → fr.eval r = .bool q →
      fr.arithSlot op l r = .ok (.bool (join p q)))
    (h : LogicalCode t.site.function op l r a v b) (hs : Stands t w s a c)
    (hl : c.top.eval l = .int x) (hr : c.top.eval r = .int y) (hb : Below a.fresh r)
    (hp : Plain r) :
    ∃ k d, Steps t.site.module k c d ∧
      Comes t w a.fresh c v b (if join (decide (x ≠ 0)) (decide (y ≠ 0)) then 1 else 0) s d := by
  obtain ⟨l', r', both, d, e, g, zl, zr, ⟨ty, ha⟩, hw⟩ := h
  obtain ⟨_, c₁, s₁, st₁, ev₁, k₁⟩ := zl.runs hf hs hl
  obtain ⟨_, c₂, s₂, st₂, ev₂, k₂⟩ := zr.runs hf st₁ ((k₁.eval hb hp).trans hr)
  have ev₁' : c₂.top.eval l' = _ := (k₂.eval zl.bounded.below zl.bounded.plain).trans ev₁
  obtain ⟨c₃, s₃, st₃, ev₃, k₃⟩ := st₂.gives hf ha (fun _ => nofun)
    fun id => exec_arith id (hop _ _ _ _ _ ev₁' ev₂)
  obtain ⟨c₄, s₄, st₄, ev₄, k₄⟩ := hw.runs_widen hf st₃ ev₃
  have hd := zl.bounded.fresh
  have he := Nat.le_trans hd zr.bounded.fresh
  have hg := Nat.le_trans he (Single.bounded ha).fresh
  refine ⟨_, c₄, ((s₁.trans s₂).trans s₃).trans s₄, st₄, ?_, ?_⟩
  · rw [ev₄]
    by_cases hx : x = 0 <;> by_cases hy : y = 0 <;> simp [hx, hy]
  · exact ((k₁.trans (k₂.less hd)).trans (k₃.less he)).trans (k₄.less hg)

theorem CompareCode.runs (hf : t.site.module.function? t.id = some t.site.function) {op : CmpOp}
    (h : CompareCode t.site.function op l r a v b) (hs : Stands t w s a c)
    (hl : c.top.eval l = .int x) (hr : c.top.eval r = .int y) :
    ∃ k d, Steps t.site.module k c d ∧
      Comes t w a.fresh c v b (if op.holds x y then 1 else 0) s d := by
  obtain ⟨e, d, hc, hw⟩ := h
  obtain ⟨c₁, s₁, st₁, ev₁, k₁⟩ := hs.gives hf hc (fun _ => nofun)
    fun id => exec_compare id op (int_of_eval hl) (int_of_eval hr)
  obtain ⟨c₂, s₂, st₂, ev₂, k₂⟩ := hw.runs_widen hf st₁ ev₁
  exact ⟨_, c₂, s₁.trans s₂, st₂, ev₂, k₁.trans (k₂.less hc.bounded.fresh)⟩

/-- A routine does in the engine what the evaluation says. -/
theorem native_follows {m : Module} {f : Function} {native : Native} {id : FuncId}
    {args : List Int32} {fr : Frame} (hm : m.function? id = some f) (hd : f.isDeclaration = true)
    (hn : w.natives.lookup f.name = some native) (hs : Serves w s c.engine)
    (hc : c.top.step m c.engine.globals = .ok (.call fr id args)) :
    Follows m n (fun s' e => e = { c.engine with output := s'.output } ∧ s'.vars = s.vars) c
      (called (fun text => some (foreign w f.name args text)) s) fun v s' d =>
        d = ⟨{ c.engine with output := s'.output }, fr.resume v, c.below⟩ ∧ s'.vars = s.vars := by
  have henter : c.engine.enter m id args =
      .ok (.result (c.engine.callNative f.name native args).1
        (c.engine.callNative f.name native args).2) := by
    simp only [Engine.enter, hm, hd, ↓reduceIte, hs.natives, hn]
  have hforeign : foreign w f.name args s.output =
      ((c.engine.callNative f.name native args).1,
        s.output ++ (c.engine.callNative f.name native args).2) := by
    simp only [foreign, hn, Engine.callNative, hs.sink, hs.output]
    rcases native.run args with e | ⟨k, line⟩
    · simp
    · by_cases hl : line = ""
      · simp [hl]
      · simp only [hl, ↓reduceIte]
        rcases w.sink.refuses s.output line with _ | ⟨part, reason⟩ <;> rfl
  simp only [called, hforeign, Option.map_some]
  rcases hr : (c.engine.callNative f.name native args).1 with e | k
  · refine ⟨1, _, ?_, rfl, rfl⟩
    rw [Config.run, Config.step, hc]
    simp only [henter, hr, Engine.print, hs.output]
  · refine ⟨1, _, .one ?_, rfl, rfl⟩
    rw [Config.step, hc]
    simp only [henter, hr, Engine.print, hs.output]

/-- A returned call has given its result, and only the text can have changed. -/
theorem Stands.returned {i : Instr} {id : InstrId} (hs : Stands t w s a c)
    (he : Emitted t.site.function a i id b) (hi : ∀ name, i ≠ .alloca name) (s' : Store)
    (hv : s'.vars = s.vars) :
    Comes t w a.fresh c (.instr id) b x s' ⟨{ c.engine with output := s'.output },
      Frame.resume { c.top.advance with pending := some id } x, c.below⟩ := by
  have hfr : Frame.resume { c.top.advance with pending := some id } x = c.top.give id (.int x) := by
    simp [Frame.resume, Frame.advance, Frame.give, hs.pending]
  rw [hfr]
  have h := hs.give he (.int x) hi
  refine ⟨⟨h.function, h.block, h.next, h.pending, h.size, h.below, ?_, ?_⟩, hs.eval_give he _,
    keeps_give he _⟩
  · exact ⟨hs.serves.natives, hs.serves.sink, rfl⟩
  · rw [hv]
    exact h.agrees

theorem Stands.left (hs : Stands t w s a c) {s' : Store} {e : Engine}
    (h : e = { c.engine with output := s'.output } ∧ s'.vars = s.vars) : Left t w s' e := by
  obtain ⟨rfl, hv⟩ := h
  refine ⟨⟨hs.serves.natives, hs.serves.sink, rfl⟩, ?_⟩
  rw [hv]
  exact hs.agrees.remains

/-- A call instruction whose callee follows `r` gives the value of `r`. -/
theorem Single.follows_call (hf : t.site.module.function? t.id = some t.site.function) {id : FuncId}
    {vs : List Operand} {xs : List Int32} {res : Eval Int32}
    (h : Single t.site.function (.call id vs) a v b) (hs : Stands t w s a c)
    (hv : List.Forall₂ (fun v x => c.top.eval v = .int x) vs xs)
    (hr : ∀ fr, c.top.step t.site.module c.engine.globals = .ok (.call fr id xs) →
      Follows t.site.module n (fun s' e => e = { c.engine with output := s'.output } ∧
        s'.vars = s.vars) c (res s) fun v s' d =>
          d = ⟨{ c.engine with output := s'.output }, fr.resume v, c.below⟩ ∧ s'.vars = s.vars) :
    Follows t.site.module n (Left t w) c (res s) (Comes t w a.fresh c v b) := by
  obtain ⟨i, he, rfl⟩ := h
  refine (hr _ ((hs.step_eq hf he).trans (exec_call i (ints_of_eval hv)))).imp
    (fun s' e h => hs.left h) fun x s' d h => ?_
  obtain ⟨rfl, hv'⟩ := h
  exact hs.returned he (fun _ => nofun) s' hv'

/-- Loading from the address of a variable gives its value. -/
theorem Stands.exec_load (hs : Stands t w s a c) {name : String} {p : Operand}
    (hp : t.site.address? name = some p) (id : InstrId) :
    c.top.exec t.site.function.name c.engine.globals id (.load p) =
      .ok (.proceed (c.top.give id (.int (s.vars name))) c.engine.globals) := by
  have hag := hs.agrees
  unfold Activation.Agrees at hag
  unfold Site.address? at hp
  split at hag
  · next known hk =>
    rw [hk] at hp
    obtain ⟨cell, hcell, -⟩ := hag.2
    obtain ⟨j, nm, rfl, -, hr, hv⟩ := hcell name p hp
    simp [Frame.exec, Frame.eval, hr, hv]
  · next hk =>
    rw [hk] at hp
    obtain ⟨g, hg, rfl⟩ := Option.map_eq_some_iff.1 hp
    simp [Frame.exec, Frame.eval, hag.cell name g hg]

theorem UnaryCode.follows (hf : t.site.module.function? t.id = some t.site.function) {op : UnaryOp}
    (h : UnaryCode t.site.function op v a r b) (hs : Stands t w s a c)
    (hv : c.top.eval v = .int x) :
    Follows t.site.module n (Left t w) c (some (.ok (unaryValue op x), s))
      (Comes t w a.fresh c r b) := by
  cases op with
  | negate =>
    exact ArithCode.follows hf h hs rfl hv (by simp [arith, unaryValue])
  | identity =>
    obtain ⟨rfl, rfl⟩ := h
    exact .value ⟨hs, hv, .refl _ _⟩
  | not =>
    obtain ⟨z, d, hz, hw⟩ := h
    obtain ⟨_, c₁, s₁, st₁, ev₁, k₁⟩ := hz.runs hf hs hv
    obtain ⟨c₂, s₂, st₂, ev₂, k₂⟩ := hw.runs_widen hf st₁ ev₁
    refine ⟨_, c₂, s₁.trans s₂, st₂, ?_, k₁.trans (k₂.less hz.bounded.fresh)⟩
    rw [ev₂, unaryValue, truth]
    by_cases hx : x = 0 <;> simp [hx]

theorem CompareCode.follows (hf : t.site.module.function? t.id = some t.site.function) {op : CmpOp}
    (h : CompareCode t.site.function op l r a v b) (hs : Stands t w s a c)
    (hl : c.top.eval l = .int x) (hr : c.top.eval r = .int y) (p : Prop) [Decidable p]
    (hp : op.holds x y = true ↔ p) :
    Follows t.site.module n (Left t w) c (some (.ok (truth p), s)) (Comes t w a.fresh c v b) := by
  obtain ⟨k, d, hk, hd⟩ := h.runs hf hs hl hr
  have ht : truth p = if op.holds x y then 1 else 0 := by simp [truth, hp]
  exact ⟨k, d, hk, ht ▸ hd⟩

/-- An operator on operands that have their values. -/
theorem BinaryCode.follows (hf : t.site.module.function? t.id = some t.site.function)
    (hsup : Supported t.site.module w) {op : BinaryOp} (h : BinaryCode t.site op l r a v b)
    (hs : Stands t w s a c) (hl : c.top.eval l = .int x) (hr : c.top.eval r = .int y)
    (hb : Below a.fresh r) (hp : Plain r) :
    Follows t.site.module n (Left t w) c (given (binaryValue op x y) s)
      (Comes t w a.fresh c v b) := by
  cases op with
  | add => exact ArithCode.follows hf h hs hl hr (arith_add x y)
  | sub => exact ArithCode.follows hf h hs hl hr (arith_sub x y)
  | mul => exact ArithCode.follows hf h hs hl hr (arith_mul x y)
  | div => exact ArithCode.follows hf h hs hl hr (arith_div x y)
  | mod => exact ArithCode.follows hf h hs hl hr (arith_rem x y)
  | and =>
    obtain ⟨k, d, hk, hd⟩ := LogicalCode.runs hf (fun _ _ _ _ _ => arithSlot_and) h hs hl hr hb hp
    refine ⟨k, d, hk, ?_⟩
    simpa [truth] using hd
  | or =>
    obtain ⟨k, d, hk, hd⟩ := LogicalCode.runs hf (fun _ _ _ _ _ => arithSlot_or) h hs hl hr hb hp
    refine ⟨k, d, hk, ?_⟩
    simpa only [truth, Bool.or_eq_true, decide_eq_true_eq] using hd
  | lt => exact CompareCode.follows hf h hs hl hr _ (by simp [CmpOp.holds, Int32.lt_iff_toInt_lt])
  | gt => exact CompareCode.follows hf h hs hl hr _ (by simp [CmpOp.holds, Int32.lt_iff_toInt_lt])
  | le => exact CompareCode.follows hf h hs hl hr _ (by simp [CmpOp.holds, Int32.le_iff_toInt_le])
  | ge => exact CompareCode.follows hf h hs hl hr _ (by simp [CmpOp.holds, Int32.le_iff_toInt_le])
  | eq => exact CompareCode.follows hf h hs hl hr _ (by simp [CmpOp.holds])
  | ne => exact CompareCode.follows hf h hs hl hr _ (by simp [CmpOp.holds])
  | in_ | notIn => exact h.elim
  | pow =>
    obtain ⟨id, hid, hc⟩ := h
    obtain ⟨g, hg, hdecl, hname⟩ := hsup.declared _ id (.inr rfl) hid
    have hn : w.natives.lookup g.name = some .power := hname ▸ hsup.power
    have hres : called (fun text => some (foreign w g.name [x, y] text)) s =
        given (binaryValue .pow x y) s := by
      simp [called, foreign, hn, Native.run, given, binaryValue]
    rw [← hres]
    exact hc.follows_call hf hs (.cons hl (.cons hr .nil)) fun fr hfr =>
      native_follows hg hdecl hn hs.serves hfr

mutual

theorem expr_follows (hf : t.site.module.function? t.id = some t.site.function)
    (hsup : Supported t.site.module w) {call : Calls}
    (hcall : CallsFollow t.site.module w n (t.below.size + 1) call) :
    ∀ (e : Expr) {a : Cursor} {v : Operand} {b : Cursor} {s : Store} {c : Config},
      ExprCode t.site e a v b → Stands t w s a c →
      Follows t.site.module n (Left t w) c (expr call e s) (Comes t w a.fresh c v b)
  | .number x, a, v, b, s, c, h, hs => by
    obtain ⟨rfl, rfl⟩ := h
    rw [expr]
    exact .value ⟨hs, rfl, .refl _ _⟩
  | .var name, a, v, b, s, c, h, hs => by
    obtain ⟨p, hp, hl⟩ := h
    obtain ⟨d, hd, st, ev, hk⟩ := hs.gives hf hl (fun _ => nofun) (hs.exec_load hp)
    rw [expr]
    exact ⟨1, d, hd, st, ev, hk⟩
  | .unary op e, a, v, b, s, c, h, hs => by
    obtain ⟨u, d, he, hu⟩ := h
    have hb := ExprCode.bounded e he
    rw [expr]
    refine (expr_follows hf hsup hcall e he hs).bind fun x s₁ c₁ h₁ => ?_
    refine (hu.follows hf h₁.stands h₁.value).imp (fun _ _ hl => hl) fun y s₂ c₂ h₂ => ?_
    exact ⟨h₂.stands, h₂.value, h₁.keeps.trans (h₂.keeps.less hb.fresh)⟩
  | .binary op l r, a, v, b, s, c, h, hs => by
    obtain ⟨u, d, u', d', hl, hr, ho⟩ := h
    have hbl := ExprCode.bounded l hl
    have hbr := ExprCode.bounded r hr
    rw [expr]
    refine (expr_follows hf hsup hcall l hl hs).bind fun x s₁ c₁ h₁ => ?_
    refine (expr_follows hf hsup hcall r hr h₁.stands).bind fun y s₂ c₂ h₂ => ?_
    have hx := (h₂.keeps.eval hbl.below hbl.plain).trans h₁.value
    refine (ho.follows hf hsup h₂.stands hx h₂.value hbr.below hbr.plain).imp (fun _ _ hl => hl)
      fun z s₃ c₃ h₃ => ⟨h₃.stands, h₃.value, ?_⟩
    exact (h₁.keeps.trans (h₂.keeps.less hbl.fresh)).trans
      (h₃.keeps.less (Nat.le_trans hbl.fresh hbr.fresh))
  | .call name args, a, v, b, s, c, h, hs => by
    obtain ⟨id, vs, d, hid, hargs, hc⟩ := h
    rw [expr]
    refine (exprs_follows hf hsup hcall args hargs hs).bind fun xs s₁ c₁ h₁ => ?_
    obtain ⟨st₁, ev₁, k₁, len₁⟩ := h₁
    refine (hc.follows_call hf st₁ ev₁ fun fr hfr => ?_).imp (fun _ _ hl => hl) fun z s₂ c₂ h₂ =>
      ⟨h₂.stands, h₂.value, k₁.trans (h₂.keeps.less (ExprsCode.fresh args hargs))⟩
    exact hcall name id xs c₁ fr s₁ (by rw [st₁.below]) (len₁ ▸ hid) st₁.serves hfr

theorem exprs_follows (hf : t.site.module.function? t.id = some t.site.function)
    (hsup : Supported t.site.module w) {call : Calls}
    (hcall : CallsFollow t.site.module w n (t.below.size + 1) call) :
    ∀ (es : List Expr) {a : Cursor} {vs : List Operand} {b : Cursor} {s : Store} {c : Config},
      ExprsCode t.site es a vs b → Stands t w s a c →
      Follows t.site.module n (Left t w) c (exprs call es s) fun xs s' d =>
        Stands t w s' b d ∧ List.Forall₂ (fun v x => d.top.eval v = .int x) vs xs ∧
          Keeps a.fresh c d ∧ xs.length = es.length
  | [], a, vs, b, s, c, h, hs => by
    obtain ⟨rfl, rfl⟩ := h
    rw [exprs]
    exact .value ⟨hs, .nil, .refl _ _, rfl⟩
  | e :: es, a, vs, b, s, c, h, hs => by
    obtain ⟨v, d, us, he, hes, rfl⟩ := h
    have hb := ExprCode.bounded e he
    rw [exprs]
    refine (expr_follows hf hsup hcall e he hs).bind fun x s₁ c₁ h₁ => ?_
    refine (exprs_follows hf hsup hcall es hes h₁.stands).bind fun xs s₂ c₂ h₂ => ?_
    obtain ⟨st₂, ev₂, k₂, len₂⟩ := h₂
    have hx := (k₂.eval hb.below hb.plain).trans h₁.value
    exact .value ⟨st₂, .cons hx ev₂, h₁.keeps.trans (k₂.less hb.fresh), congrArg (· + 1) len₂⟩

end

end Runs
end IntLang.Code
