import IntLang.Proofs.Acceptance

/-! Lowering of expressions writes their code. -/
namespace IntLang.Lower
open IntLang.Flow IntLang.Code

/-- Lowering goes on from `σ` to a state where the code of something is written and gives `v`, which
has the type `ty`. -/
def Gives (params : List String) (σ : Lowering) (d : Draft) (ty : Ty)
    (code : Site → Cursor → Operand → Cursor → Prop) (v : Operand) (σ' : Lowering) : Prop :=
  ∃ d', Proceeds params σ d σ' d' ∧ d'.Has v ty ∧
    ∀ x D, Settled σ' d' x D → code x (D.cursor d) v (D.cursor d')

section Steps
variable {params : List String} {σ σ' : Lowering} {d d' D : Draft} {x : Site} {name : String}

/-- What comes of asking for the address of a variable. -/
structure Addressed (params : List String) (σ : Lowering) (d : Draft) (name : String) (p : Operand)
    (σ' : Lowering) (d' : Draft) : Prop where
  proceeds : Proceeds params σ d σ' d'
  address : d'.Address σ'.builder.module p
  has : d'.Has p .ptr
  waits : ∀ D, (Draft.cursor D d).Waits (Draft.cursor D d')
  settled : ∀ x D, Settled σ' d' x D → x.address? name = some p

theorem address_globals_spec (h : Ready params σ d) (hscope : σ.scope = .globals) (name : String) :
    Spec (address name) σ True fun p σ' => ∃ d', Addressed params σ d name p σ' d' := by
  have hfind := σ.builder.module.findGlobal?_globalCell name 0
  refine .ok (address_globals hscope name) ⟨d, ⟨h.onModule (.globalCell name) ?_, rfl, .refl⟩, ?_, rfl,
    fun _ => ⟨rfl, rfl, Nat.le_refl _⟩, fun x D hs => hs.address_globals hscope hfind⟩
  · unfold Module.globalCell
    split <;> rfl
  · exact Module.findGlobal?_lt hfind

theorem address_spec (h : Ready params σ d) (name : String) :
    Spec (address name) σ True fun p σ' => ∃ d', Addressed params σ d name p σ' d' := by
  cases hscope : σ.scope with
  | globals => exact address_globals_spec h hscope name
  | slots known =>
    have hknown := h.known
    rw [hscope] at hknown
    obtain ⟨hslotted, hparams⟩ := hknown
    cases hp : known.lookup name with
    | some p =>
      obtain ⟨j, id, init, hj, rfl, -⟩ := hslotted.slot name p hp
      exact .ok (address_slots hscope hp) ⟨d, .refl h, (h.written.written j id init hj).1,
        h.written.has h.framed hj, fun _ => ⟨rfl, rfl, Nat.le_refl _⟩,
        fun x D hs => hs.address_slots hscope hp⟩
    | none =>
      obtain ⟨entry, hentry⟩ : ∃ entry, d.blocks[0]? = some entry :=
        ⟨_, List.getElem?_eq_getElem (Nat.lt_of_le_of_lt (Nat.zero_le _) h.framed.current.lt)⟩
      have hname : name ∉ params := fun hmem => by
        have hsome := hparams name hmem
        simp [hp] at hsome
      have hlook : ∀ x p, known.lookup x = some p →
          ((name, Operand.instr d.code.length) :: known).lookup x = some p := by
        intro x p hx
        have hne : (x == name) = false := by
          refine beq_false_of_ne ?_
          rintro rfl
          exact absurd (hp.symm.trans hx) (by simp)
        rw [List.lookup_cons, hne, hx]
      have hwritten : (d.slot name (.int 0)).SlotsWritten := h.written.slot name (.inl rfl)
      have hlast : (d.slot name (.int 0)).slots[d.slots.length]? = some (d.code.length, .int 0) := by simp
      refine .ok (draws_address hentry h.drawn hscope hp) ⟨_, ⟨h.slot name (.inl rfl) ?_ ?_, rfl, .refl⟩,
        ⟨name, by simp⟩, hwritten.has (h.framed.slot name _) hlast, ?_, ?_⟩
      · rw [hscope]
        exact hlook
      · refine ⟨hslotted.cons h.written.ne_length (.inl ⟨hname, rfl⟩) fun _ _ _ hx => hx,
          fun x hx => ?_⟩
        obtain ⟨p, hx'⟩ := Option.isSome_iff_exists.1 (hparams x hx)
        rw [hlook x p hx']
        rfl
      · exact fun D => ⟨rfl, rfl, by simp [Draft.cursor]⟩
      · exact fun x D hs => hs.address_slots rfl (by simp)

end Steps

section Operators
variable {params : List String} {σ σ' : Lowering} {d d' D : Draft} {x : Site} {l r v : Operand}

theorem push_spec (h : Ready params σ d) {i : Instr} {ty : Ty} (hi : d.Fits σ.builder.module i)
    (hs : d.Serves i.needs) (hr : i.resultTy? = some ty) :
    Spec (build (Builder.push i)) σ True (Gives params σ d ty fun x => Single x.function i) := by
  refine .ok (draws_push h.framed.current i rfl σ h.drawn) ⟨d.push i,
    ⟨h.redraw (.push hi hs) rfl, rfl, .refl⟩, Draft.has_push h.framed.current hr rfl, fun x D hs => ?_⟩
  simp only [hs.function]
  exact Draft.single_of_le h.framed.current hs.le rfl

theorem widen_spec (h : Ready params σ d) (hv : d.Has v .i1) :
    Spec (build (Builder.widen v)) σ True
      (Gives params σ d .i32 fun x => Single x.function (.widen v)) :=
  push_spec h (i := .widen v) (hv.value nofun) (by simpa [Instr.needs] using hv) rfl

theorem call_spec (h : Ready params σ d) {f : FuncId} {vs : List Operand}
    (hf : Draft.Takes σ.builder.module f vs.length) (hn : Draft.Counted σ.builder.module f vs)
    (hv : ∀ v ∈ vs, d.Has v .i32) :
    Spec (build (Builder.call f vs)) σ True
      (Gives params σ d .i32 fun x => Single x.function (.call f vs)) :=
  push_spec h (i := .call f vs) ⟨hf, hn, fun v hmem => (hv v hmem).value nofun⟩ (Draft.serves_map hv)
    rfl

theorem arith_spec (h : Ready params σ d) (op : ArithOp) (hl : d.Has l op.operandTy)
    (hr : d.Has r op.operandTy) :
    Spec (build (Builder.arith op l r)) σ True
      (Gives params σ d op.operandTy fun x => ArithCode x.function op l r) := by
  have hvalue : ∀ v, d.Has v op.operandTy → d.Value v := fun v hv => hv.value (by cases op <;> nofun)
  let i : Instr := .arith op (d.function.typeOf l) l r
  have hres : i.resultTy? = some op.operandTy := congrArg some hl.typeOf_eq
  refine .ok (draws_arith h.framed.current op l r σ h.drawn) ⟨d.push i,
    ⟨h.redraw (.push ⟨⟨hvalue l hl, hvalue r hr⟩, rfl⟩ ?_) rfl, rfl, .refl⟩,
    Draft.has_push h.framed.current hres rfl, fun x D hs => ⟨d.function.typeOf l, ?_⟩⟩
  · simp [Instr.needs, hl, hr]
  · rw [hs.function]
    exact Draft.single_of_le h.framed.current hs.le rfl

theorem zeroTest_spec (h : Ready params σ d) (hv : d.Has v .i32) (whenZero : Bool) :
    Spec (zeroTest v whenZero) σ True
      (Gives params σ d .i1 fun x => ZeroTest x.function v whenZero) := by
  refine .ok (draws_zeroTest h.framed v whenZero σ h.drawn) ⟨d.zeroTest v whenZero,
    ⟨h.redraw (.test whenZero hv) rfl, ?_, Draft.above_zeroTest h.framed v whenZero⟩,
    Draft.has_zeroTest h.framed v whenZero, fun x D hs => ?_⟩
  · simp [Draft.zeroTest, Nat.add_assoc]
  · simp only [hs.function]
    exact Draft.zeroTest_of_le h.framed hs.le

theorem unary_spec (h : Ready params σ d) (op : UnaryOp) (hv : d.Has v .i32) :
    Spec (unary op v) σ True (Gives params σ d .i32 fun x => UnaryCode x.function op v) := by
  cases op with
  | negate => exact arith_spec h .sub rfl hv
  | identity => exact .pure ⟨d, .refl h, hv, fun _ _ _ => ⟨rfl, rfl⟩⟩
  | not =>
    refine (zeroTest_spec h hv true).after fun z σ₁ ⟨d₁, hd₁, hv₁, hc₁⟩ => ?_
    refine (widen_spec hd₁.ready hv₁).imp
      fun u σ₂ ⟨d₂, hd₂, hv₂, hc₂⟩ => ⟨d₂, hd₁.trans hd₂, hv₂, fun x D hs => ?_⟩
    exact ⟨z, _, hc₁ x D (hs.before hd₁.ready hd₂.toReached), hc₂ x D hs⟩

theorem logical_spec (h : Ready params σ d) (op : ArithOp) (hop : op.operandTy = .i1)
    (hl : d.Has l .i32) (hr : d.Has r .i32) :
    Spec (logical op l r) σ True (Gives params σ d .i32 fun x => LogicalCode x.function op l r) := by
  refine (zeroTest_spec h hl false).after fun l' σ₁ ⟨d₁, hd₁, hv₁, hc₁⟩ => ?_
  refine (zeroTest_spec hd₁.ready (hd₁.has h hr) false).after fun r' σ₂ ⟨d₂, hd₂, hv₂, hc₂⟩ => ?_
  have hl' : d₂.Has l' op.operandTy := by
    rw [hop]
    exact hd₂.has hd₁.ready hv₁
  refine (arith_spec hd₂.ready op hl' (by rwa [hop])).after fun both σ₃ ⟨d₃, hd₃, hv₃, hc₃⟩ => ?_
  rw [hop] at hv₃
  refine (widen_spec hd₃.ready hv₃).imp
    fun v σ₄ ⟨d₄, hd₄, hv₄, hc₄⟩ =>
      ⟨d₄, ((hd₁.trans hd₂).trans hd₃).trans hd₄, hv₄, ?_⟩
  intro x D hs
  have hs₃ := hs.before hd₃.ready hd₄.toReached
  have hs₂ := hs₃.before hd₂.ready hd₃.toReached
  exact ⟨l', r', both, _, _, _, hc₁ x D (hs₂.before hd₁.ready hd₂.toReached), hc₂ x D hs₂,
    hc₃ x D hs₃, hc₄ x D hs⟩

theorem comparison_spec (h : Ready params σ d) (op : CmpOp) (hl : d.Has l .i32) (hr : d.Has r .i32) :
    Spec (comparison op l r) σ True
      (Gives params σ d .i32 fun x => CompareCode x.function op l r) := by
  have hserves : d.Serves (Instr.compare op l r).needs := by simp [Instr.needs, hl, hr]
  refine (push_spec h (i := .compare op l r) ⟨hl.value nofun, hr.value nofun⟩ hserves rfl).after
    fun c σ₁ ⟨d₁, hd₁, hv₁, hc₁⟩ => ?_
  refine (widen_spec hd₁.ready hv₁).imp
    fun v σ₂ ⟨d₂, hd₂, hv₂, hc₂⟩ => ⟨d₂, hd₁.trans hd₂, hv₂, fun x D hs => ?_⟩
  exact ⟨c, _, hc₁ x D (hs.before hd₁.ready hd₂.toReached), hc₂ x D hs⟩

/-- A support routine is declared where it is used. -/
theorem declare_spec (h : Ready params σ d) {r : Function} (hr : r = printRoutine ∨ r = powerRoutine) :
    Spec (build (Builder.onModule (·.declare r.name r.paramCount r.variadic))) σ True fun f σ' =>
      Proceeds params σ d σ' d ∧ (∃ g, σ'.builder.module.function? f = some g ∧ g.header = r) ∧
        ∀ x D, Settled σ' d x D → x.module.find? r.name = some f := by
  have hg : Grows σ.builder.function σ.builder.module _ := .declare hr
  have hfind := h.tidy.find?_declare hr
  refine .ok (build_onModule _) ⟨⟨h.onModule hg ?_, rfl, .refl⟩, ?_, fun x D hs => ?_⟩
  · unfold Module.declare
    split
    · rfl
    · rw [h.drawn.function, Module.function?_push_of_some h.drawn.function]
  · obtain ⟨f, hf, hn⟩ := Module.function?_of_find? hfind
    refine ⟨f, hf, ?_⟩
    have hroutine := (hg.tidy h.tidy).routines _ f hf (hn ▸ hr.imp (congrArg Function.name)
      (congrArg Function.name))
    have hname : f.header.name = r.name := hn
    rcases hroutine.2 with hf' | hf' <;> rcases hr with rfl | rfl
    · exact hf'
    · rw [hf'] at hname
      exact absurd hname (by decide)
    · rw [hf'] at hname
      exact absurd hname (by decide)
    · exact hf'
  · exact hs.grows.find? (hg.tidy h.tidy) hfind

theorem binary_spec (h : Ready params σ d) (op : BinaryOp) (hl : d.Has l .i32) (hr : d.Has r .i32) :
    Spec (binary op l r) σ op.Supported (Gives params σ d .i32 fun x => BinaryCode x op l r) := by
  cases op with
  | or => exact logical_spec h .or rfl hl hr
  | and => exact logical_spec h .and rfl hl hr
  | lt => exact comparison_spec h .lt hl hr
  | gt => exact comparison_spec h .gt hl hr
  | le => exact comparison_spec h .le hl hr
  | ge => exact comparison_spec h .ge hl hr
  | eq => exact comparison_spec h .eq hl hr
  | ne => exact comparison_spec h .ne hl hr
  | in_ => exact fun hno : False => hno
  | notIn => exact fun hno : False => hno
  | add => exact arith_spec h .add hl hr
  | sub => exact arith_spec h .sub hl hr
  | mul => exact arith_spec h .mul hl hr
  | div => exact arith_spec h .div hl hr
  | mod => exact arith_spec h .rem hl hr
  | pow =>
    refine (declare_spec h (r := powerRoutine) (.inr rfl)).after fun f σ₁ ⟨hd₁, hroutine, hfind⟩ => ?_
    obtain ⟨g, hg, hhead⟩ := hroutine
    have hv : ∀ v ∈ [l, r], d.Has v .i32 := by simp [hl, hr]
    have htakes : Draft.Takes σ₁.builder.module f 2 :=
      ⟨g, hg, .inl (congrArg Function.paramCount hhead :)⟩
    have hfixed : g.variadic = false := (congrArg Function.variadic hhead :)
    refine (call_spec hd₁.ready htakes ⟨g, hg, by simp [hfixed]⟩ hv).imp
      fun v σ₂ ⟨d₂, hd₂, hv₂, hc₂⟩ => ⟨d₂, hd₁.trans hd₂, hv₂, fun x D hs => ?_⟩
    exact ⟨f, hfind x D (hs.before hd₁.ready hd₂.toReached), hc₂ x D hs⟩

end Operators

theorem Reached.callable_eq {params : List String} {σ σ' : Lowering} {d d' : Draft}
    (hr : Ready params σ d) (h : Reached params σ d σ' d') :
    Callable σ'.builder.module = Callable σ.builder.module :=
  h.built.grows.callable_eq hr.tidy

theorem resolve_spec {params : List String} {σ : Lowering} {d : Draft} (h : Ready params σ d)
    (name : String) (n : Nat) :
    Spec (resolve name n) σ (Callable σ.builder.module name n) fun f σ' =>
      σ' = σ ∧ Callee σ.builder.module name n f := by
  have hcallee : ∀ id, Callee σ.builder.module name n id ↔ ∃ f,
      (σ.builder.module.find? name).bind (fun id =>
        (σ.builder.module.function? id).map (id, ·)) = some (id, f) ∧ f.synthetic = false ∧
        f.paramCount = n := by
    intro id
    constructor
    · rintro ⟨hid, f, hf, hs, hn⟩
      exact ⟨f, by simp [hid, hf], hs, hn⟩
    · rintro ⟨f, hf, hs, hn⟩
      obtain ⟨j, hj, hf⟩ := Option.bind_eq_some_iff.1 hf
      obtain ⟨g, hg, he⟩ := Option.map_eq_some_iff.1 hf
      obtain ⟨rfl, rfl⟩ := Prod.mk.inj he
      exact ⟨hj, g, hg, hs, hn⟩
  rcases hres : (σ.builder.module.find? name).bind
      (fun id => (σ.builder.module.function? id).map (id, ·)) with _ | ⟨id, f⟩
  · have hrun : resolve name n σ = .error (.rejected (.unknownFunction name)) σ := by
      simp only [resolve, bind, EStateM.bind, get_apply, hres]
      rfl
    rw [Spec, hrun]
    rintro ⟨id, hid⟩
    obtain ⟨f, hf, -⟩ := (hcallee id).1 hid
    exact absurd (hres.symm.trans hf) (by simp)
  · have hother : Callable σ.builder.module name n → f.synthetic = false ∧ f.paramCount = n := by
      rintro ⟨j, hj⟩
      obtain ⟨g, hg, hs⟩ := (hcallee j).1 hj
      obtain ⟨rfl, rfl⟩ := Prod.mk.inj (Option.some.inj (hres.symm.trans hg))
      exact hs
    by_cases hs : f.synthetic = true
    · have hrun : resolve name n σ = .error (.rejected (.unknownFunction name)) σ := by
        simp only [resolve, bind, EStateM.bind, get_apply, hres, hs, ↓reduceIte]
        rfl
      rw [Spec, hrun]
      intro hc
      exact absurd (hother hc).1 (by simp [hs])
    · have hs : f.synthetic = false := by simpa using hs
      have hfixed : f.variadic = false := by
        obtain ⟨j, hj, hf⟩ := Option.bind_eq_some_iff.1 hres
        obtain ⟨g, hg, he⟩ := Option.map_eq_some_iff.1 hf
        obtain ⟨rfl, rfl⟩ := Prod.mk.inj he
        exact h.tidy.fixed j g hg hs
      by_cases hn : n = f.paramCount
      · have hid := (hcallee id).2 ⟨f, hres, hs, hn.symm⟩
        have hrun : resolve name n σ = .ok id σ := by
          simp only [resolve, bind, EStateM.bind, get_apply, hres, hs, hn, decide_true, Bool.true_or,
            Bool.false_eq_true, ↓reduceIte]
          rfl
        rw [Spec, hrun]
        exact ⟨⟨id, hid⟩, rfl, hid⟩
      · have hrun : resolve name n σ = .error (.rejected (.argumentCount name f.paramCount n)) σ := by
          simp only [resolve, bind, EStateM.bind, get_apply, hres, hs, hn, hfixed, decide_false,
            Bool.false_and, Bool.or_false, Bool.false_eq_true, ↓reduceIte]
          rfl
        rw [Spec, hrun]
        exact fun hc => hn (hother hc).2.symm

def GivesAll (params : List String) (σ : Lowering) (d : Draft) (es : List Expr) (vs : List Operand)
    (σ' : Lowering) : Prop :=
  ∃ d', Proceeds params σ d σ' d' ∧ (∀ v ∈ vs, d'.Has v .i32) ∧ vs.length = es.length ∧
    ∀ x D, Settled σ' d' x D → ExprsCode x es (D.cursor d) vs (D.cursor d')

variable {params : List String}

mutual

theorem expr_spec : ∀ (e : Expr) {σ : Lowering} {d : Draft}, Ready params σ d →
    Spec (expr e) σ (e.Accepted (Callable σ.builder.module))
      (Gives params σ d .i32 fun x => ExprCode x e)
  | .number n, σ, d, h => .pure ⟨d, .refl h, rfl, fun _ _ _ => ⟨rfl, rfl⟩⟩
  | .var name, σ, d, h => by
    refine (address_spec h name).after fun p σ₁ ⟨d₁, ha⟩ => ?_
    have hserves : d₁.Serves (Instr.load p).needs := by simpa [Instr.needs] using ha.has
    refine (push_spec ha.proceeds.ready (i := .load p) ha.address hserves rfl).imp
      fun v σ₂ ⟨d₂, hd₂, hv₂, hc₂⟩ => ⟨d₂, ha.proceeds.trans hd₂, hv₂,
        fun x D hs => ⟨p, ha.settled x D (hs.before ha.proceeds.ready hd₂.toReached), ?_⟩⟩
    exact Single.of_waits (hc₂ x D hs) (ha.waits D)
  | .unary op e, σ, d, h => by
    refine (expr_spec e h).before fun u σ₁ ⟨d₁, hd₁, hv₁, hc₁⟩ => ?_
    refine (unary_spec hd₁.ready op hv₁).imp fun v σ₂ ⟨d₂, hd₂, hv₂, hc₂⟩ =>
      ⟨d₂, hd₁.trans hd₂, hv₂, fun x D hs => ?_⟩
    exact ⟨u, _, hc₁ x D (hs.before hd₁.ready hd₂.toReached), hc₂ x D hs⟩
  | .binary op l r, σ, d, h => by
    refine (expr_spec l h).bind fun u σ₁ ⟨d₁, hd₁, hv₁, hc₁⟩ => ?_
    rw [← Reached.callable_eq h hd₁.toReached]
    refine (expr_spec r hd₁.ready).bind fun u' σ₂ ⟨d₂, hd₂, hv₂, hc₂⟩ => ?_
    refine (binary_spec hd₂.ready op (hd₂.has hd₁.ready hv₁) hv₂).imp
      fun v σ₃ ⟨d₃, hd₃, hv₃, hc₃⟩ =>
        ⟨d₃, (hd₁.trans hd₂).trans hd₃, hv₃, fun x D hs => ?_⟩
    have hs₂ := hs.before hd₂.ready hd₃.toReached
    exact ⟨u, _, u', _, hc₁ x D (hs₂.before hd₁.ready hd₂.toReached), hc₂ x D hs₂, hc₃ x D hs⟩
  | .call name args, σ, d, h => by
    refine (resolve_spec h name args.length).bind fun f σ' ⟨hσ, hf⟩ => ?_
    subst hσ
    refine (exprs_spec args h).before fun vs σ₁ ⟨d₁, hd₁, hv₁, hlen, hc₁⟩ => ?_
    have hf₁ := (hd₁.built.grows.callee_iff h.tidy).2 hf
    obtain ⟨-, g, hg, hsyn, hn⟩ := id hf₁
    have htakes : Draft.Takes σ₁.builder.module f vs.length := ⟨g, hg, .inl (hn.trans hlen.symm)⟩
    have hfixed := hd₁.ready.tidy.fixed f g hg hsyn
    refine (call_spec hd₁.ready htakes ⟨g, hg, by simp [hfixed]⟩ hv₁).imp
      fun v σ₂ ⟨d₂, hd₂, hv₂, hc₂⟩ => ⟨d₂, hd₁.trans hd₂, hv₂, fun x D hs => ?_⟩
    have hs₁ := hs.before hd₁.ready hd₂.toReached
    exact ⟨f, vs, _, (hs₁.grows.callee_iff hd₁.ready.tidy).2 hf₁, hc₁ x D hs₁,
      hc₂ x D hs⟩

theorem exprs_spec : ∀ (es : List Expr) {σ : Lowering} {d : Draft}, Ready params σ d →
    Spec (exprs es) σ (Exprs.Accepted (Callable σ.builder.module) es) (GivesAll params σ d es)
  | [], σ, d, h => .pure ⟨d, .refl h, by simp, rfl, fun _ _ _ => ⟨rfl, rfl⟩⟩
  | e :: es, σ, d, h => by
    refine (expr_spec e h).bind fun v σ₁ ⟨d₁, hd₁, hv₁, hc₁⟩ => ?_
    rw [← Reached.callable_eq h hd₁.toReached]
    refine (exprs_spec es hd₁.ready).before fun vs σ₂ ⟨d₂, hd₂, hv₂, hlen, hc₂⟩ => ?_
    refine .pure ⟨d₂, hd₁.trans hd₂, ?_, congrArg (· + 1) hlen, fun x D hs => ?_⟩
    · intro u hu
      rcases List.mem_cons.1 hu with rfl | hu
      · exact hd₂.has hd₁.ready hv₁
      · exact hv₂ u hu
    · exact ⟨v, _, vs, hc₁ x D (hs.before hd₁.ready hd₂.toReached), hc₂ x D hs, rfl⟩

end
end IntLang.Lower
