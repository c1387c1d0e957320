import IntLang.Proofs.LoweredStmts

/-! Lowering of a whole body: an empty entry block, a slot for every parameter, the statements, and
the return at the end. -/
namespace IntLang
open IntLang.Flow IntLang.Code

def Flow.Draft.start (f : Function) : Draft :=
  { head := f, blocks := [{ name := "entry" }] }

/-- A draft that has been built from the start and ended by the return of zero. -/
def Flow.Draft.Complete (D : Draft) (id : FuncId) (m : Module) : Prop :=
  ∃ f m₀ m₁ d, Draft.Built id m₀ (.start f) m₁ d ∧ d.pending = [] ∧ Extends m₁ m ∧
    D = d.close (.ret (.int 0))

theorem Flow.Draft.Complete.extends {D : Draft} {id : FuncId} {m m' : Module} (h : D.Complete id m)
    (hm : Extends m m') : D.Complete id m' := by
  obtain ⟨f, m₀, m₁, d, hb, hp, he, hD⟩ := h
  exact ⟨f, m₀, m₁, d, hb, hp, he.trans hm, hD⟩

structure LoweredBody (id : FuncId) (m : Module) (scope : Scope) (params : List String)
    (ss : List Stmt) (m' : Module) : Prop where
  grows : Grows id m m'
  code : ∃ (D : Draft) (scope' : Scope), m'.function? id = some D.function ∧ D.Complete id m' ∧
    scope.Le scope' ∧ BodyCode ⟨m', D.function, scope'⟩ params ss

namespace Flow.Draft

theorem framed_start (f : Function) : (start f).Framed := by
  refine ⟨⟨{ name := "entry" }, rfl, rfl⟩, by simp [start], by simp [start], by simp [start],
    fun b p hp _ => .inl ?_, ?_⟩
  · obtain ⟨hlt, -⟩ := List.getElem?_eq_some_iff.1 hp
    simpa [start] using hlt
  · rintro c b ⟨h0, p, hp, rfl⟩
    obtain ⟨hlt, -⟩ := List.getElem?_eq_some_iff.1 hp
    simp [start] at hlt
    omega

theorem slotsWritten_start (f : Function) : (start f).SlotsWritten :=
  ⟨fun j _ _ h => by simp [start] at h, fun i _ _ _ _ h => by simp [start] at h⟩

theorem Complete.not_isDeclaration {D : Draft} {id : FuncId} {m : Module} (h : D.Complete id m) :
    D.function.isDeclaration = false := by
  obtain ⟨f, m₀, m₁, d, hb, -, -, rfl⟩ := h
  have hopen := ((framed_start f).built hb).1.current
  have hlt := Nat.lt_of_le_of_lt (Nat.zero_le _) hopen.lt
  simp only [Function.isDeclaration, Array.isEmpty, size_blocks, length_blocks_close,
    decide_eq_false_iff_not]
  exact Nat.ne_of_gt hlt

/-- The entry block of a finished function opens with the slots and their first values. -/
theorem SlotsWritten.prologue {D : Draft} {p : Piece} (h : D.SlotsWritten)
    (hp : D.blocks[0]? = some p) : Prologue D.function D.head.paramCount D.slots := by
  have hblock : D.function.blocks[0]? = some (D.blockAt 0 p) := by rw [function_blocks, hp]; rfl
  have hinstr (k : Nat) (id : InstrId) (hk : (D.opening 0)[k]? = some id) :
      (D.blockAt 0 p).instrs[k]? = some id := by
    simp only [blockAt, List.getElem?_toArray]
    rw [List.getElem?_append_left (List.getElem?_eq_some_iff.1 hk).1, hk]
  refine ⟨fun j id init hj => ?_, fun j id init hj => ?_, fun j id init hj => ?_, h.distinct⟩
  · obtain ⟨⟨name, ha⟩, -, -⟩ := h.written j id init hj
    refine ⟨name, _, hblock, hinstr j id ?_, by simpa using ha⟩
    have hlt := (List.getElem?_eq_some_iff.1 hj).1
    rw [opening, if_pos rfl, List.getElem?_append_left (by simpa using hlt), List.getElem?_map, hj]
    rfl
  · obtain ⟨-, hs, -⟩ := h.written j id init hj
    refine ⟨id + 1, _, hblock, hinstr _ _ ?_, by simpa using hs⟩
    simp [opening, List.getElem?_append, hj]
  · exact (h.written j id init hj).2.2

end Flow.Draft

theorem Code.starts_last (done : List String) (name : String) :
    Starts (done ++ [name]) name (.param done.length) := by
  refine .inr ⟨done.length, rfl, by simp, fun j hj => ?_⟩
  rw [List.getElem?_eq_none (by simp; omega)]
  simp

theorem Code.Starts.snoc {done : List String} {name x : String} {init : Operand}
    (h : Starts done x init) (hx : x ≠ name) : Starts (done ++ [name]) x init := by
  rcases h with ⟨hmem, rfl⟩ | ⟨i, rfl, hi, hlast⟩
  · exact .inl ⟨by simp [hmem, hx], rfl⟩
  · refine .inr ⟨i, rfl, ?_, fun k hk => ?_⟩
    · rw [List.getElem?_append_left (List.getElem?_eq_some_iff.1 hi).1, hi]
    · rw [List.getElem?_append]
      split
      · exact hlast k hk
      · rw [List.getElem?_singleton]
        split
        · exact fun e => hx (Option.some.inj e).symm
        · simp

namespace Lower

/-- The parameters get their slots, one after the other, and nothing else is written. -/
theorem parameters_eq : ∀ (names done : List String) {σ : Lowering} {d : Draft}
    {known : List (String × Operand)}, Ready done σ d → σ.scope = .slots known →
    done.length + names.length ≤ d.head.paramCount →
    ∃ σ' d' known', parameters names done.length σ = .ok () σ' ∧ Ready (done ++ names) σ' d' ∧
      σ'.builder.function = σ.builder.function ∧ σ'.scope = .slots known' ∧
      Draft.Built σ.builder.function σ.builder.module d σ'.builder.module d' ∧
      d'.blocks = d.blocks ∧ d'.block = d.block ∧ d'.pending = d.pending
  | [], done, σ, d, known, h, hscope, _ =>
    ⟨σ, d, known, rfl, by simpa using h, rfl, hscope, .refl _ _, rfl, rfl, rfl⟩
  | name :: names, done, σ, d, known, h, hscope, hlen => by
    have hknown := h.known
    rw [hscope] at hknown
    obtain ⟨hslotted, hdone⟩ := hknown
    obtain ⟨entry, hentry⟩ : ∃ entry, d.blocks[0]? = some entry :=
      ⟨_, List.getElem?_eq_getElem (Nat.lt_of_le_of_lt (Nat.zero_le _) h.framed.current.lt)⟩
    have hinit : d.Starts (.param done.length) := by
      refine .inr ⟨done.length, rfl, ?_⟩
      rw [List.length_cons] at hlen
      omega
    let σ₁ : Lowering := { σ.redraw (d.slot name (.param done.length)) with
      scope := .slots ((name, .instr d.code.length) :: known) }
    have hg := h.grows_redraw (Draft.Le.slot d name (.param done.length))
    have hready : Ready (done ++ [name]) σ₁ (d.slot name (.param done.length)) := by
      have hd := h.drawn.redraw (d.slot name (.param done.length))
      refine ⟨⟨hd.function, hd.block, hd.slots⟩, h.framed.slot _ _, h.written.slot _ hinit,
        ⟨hslotted.cons h.written.ne_length (starts_last done name) fun _ _ hx hst => hst.snoc hx,
          fun x hx => ?_⟩, hg.tidy h.tidy, h.notPrint, h.notPower⟩
      rw [List.lookup_cons]
      split
      · rfl
      · next hne =>
        refine hdone x ((List.mem_append.1 hx).resolve_right fun hmem => ?_)
        simp [List.mem_singleton.1 hmem] at hne
    have hrun : parameters (name :: names) done.length σ = parameters names (done.length + 1) σ₁ := by
      have hdraw := draws_slot hentry name (.param done.length) σ h.drawn
      simp [parameters, bind, EStateM.bind, hdraw, modify_apply, hscope, σ₁]
    have hlen' : (done ++ [name]).length + names.length ≤ d.head.paramCount := by
      simp only [List.length_append, List.length_cons, List.length_nil] at hlen ⊢
      omega
    obtain ⟨σ', d', known', hok, hr', hid, hk', hb', hblocks, hblock, hpend⟩ :=
      parameters_eq names (done ++ [name]) hready rfl hlen'
    rw [List.append_assoc] at hr'
    rw [List.length_append] at hok
    exact ⟨σ', d', known', hrun.trans hok, hr', hid, hk', (Draft.Built.one (.slot hinit) hg).trans hb',
      hblocks, hblock, hpend⟩

/-- Parameters of any body: one that uses the global cells has none. -/
theorem parameters_spec {params : List String} {σ : Lowering} {d : Draft} (h : Ready [] σ d)
    (hscope : σ.scope = .slots [] ∨ σ.scope = .globals ∧ params = [])
    (hlen : params.length ≤ d.head.paramCount) :
    Spec (parameters params 0) σ True fun _ σ' => ∃ d', Ready params σ' d' ∧
      σ'.builder.function = σ.builder.function ∧ σ.scope.Le σ'.scope ∧
      Draft.Built σ.builder.function σ.builder.module d σ'.builder.module d' ∧
      d'.blocks = d.blocks ∧ d'.block = d.block ∧ d'.pending = d.pending := by
  rcases hscope with hscope | ⟨hscope, rfl⟩
  · obtain ⟨σ', d', known', hok, hr', hid, hk', hb', hrest⟩ :=
      parameters_eq params [] h hscope (by simpa using hlen)
    refine .ok hok ⟨d', by simpa using hr', hid, ?_, hb', hrest⟩
    rw [hscope, hk']
    exact fun _ _ hx => nomatch hx
  · exact .pure ⟨d, h, rfl, .refl _, .refl _ _, rfl, rfl, rfl⟩

end Lower

section Bodies
variable {m : Module} {id : FuncId} {f : Function} {scope : Scope} {params : List String}
  {ss : List Stmt}

theorem Flow.Draft.function_start (hf : f.header = f) :
    (Draft.start f).function = { f with blocks := #[{ name := "entry" }] } := by
  refine Draft.function_eq rfl ?_ fun b => ?_
  · exact (congrArg Function.instrs hf :)
  · cases b <;> simp [Draft.start, Draft.blockAt, Draft.opening]

theorem Lower.entry_eq (hf : m.function? id = some f) (hempty : f.header = f) (scope : Scope) :
    (do
      let entry ← Lower.build (Builder.appendBlock "entry")
      Lower.build (Builder.positionAt entry)) ⟨{ module := m, function := id }, scope⟩ =
      .ok () ⟨{ module := m.update id (Draft.start f).function, function := id, block := some 0 },
        scope⟩ := by
  have hblocks : f.blocks = #[] := (congrArg Function.blocks hempty :).symm
  rw [Draft.function_start hempty]
  simp [bind, EStateM.bind, Lower.build, Builder.appendBlock, Builder.getFunction,
    Builder.setFunction, Builder.positionAt, modify_apply, Pure.pure, EStateM.pure, hf, hblocks,
    Builder.blockName]

/-- The entry block of a function that has been declared. -/
theorem entry_spec (hm : m.Tidy) (hf : m.function? id = some f) (hempty : f.header = f)
    (hp : f.name ≠ Machine.printSymbol) (hw : f.name ≠ Machine.powerSymbol)
    (hscope : scope = .slots [] ∨ scope = .globals) :
    Lower.Spec (do
        let entry ← Lower.build (Builder.appendBlock "entry")
        Lower.build (Builder.positionAt entry)) ⟨{ module := m, function := id }, scope⟩ True
      fun _ σ => Ready [] σ (.start f) ∧ σ.builder.function = id ∧ σ.scope = scope ∧
        Grows id m σ.builder.module := by
  have hg : Grows id m (m.update id (Draft.start f).function) :=
    .update hf (Draft.header_function _) hp hw
  refine .ok (Lower.entry_eq hf hempty scope) ⟨⟨⟨?_, rfl, rfl⟩, Draft.framed_start f,
    Draft.slotsWritten_start f, ?_, hg.tidy hm, hp, hw⟩, rfl, rfl, hg⟩
  · simp [Module.function?_update hf]
  · rcases hscope with rfl | rfl
    · exact ⟨⟨by simp, by simp⟩, by simp⟩
    · rfl

/-- The return at the end completes the function. -/
theorem finish_spec {σ : Lowering} {d : Draft} {m₀ : Module} (h : Ready params σ d)
    (hid : σ.builder.function = id)
    (hbuilt : Draft.Built id m₀ (.start f) σ.builder.module d) (hpend : d.pending = [])
    (hpar : d.head.paramCount = params.length) {d₀ : Draft} (hblock : d₀.block = 0)
    (hhere : d₀.here = 0)
    (hcode : ∀ x D, Settled σ d x D → StmtsCode x ss (D.cursor d₀) (D.cursor d)) :
    Lower.Spec (Lower.build (Builder.ret (.int 0))) σ True fun _ σ' =>
      Grows id σ.builder.module σ'.builder.module ∧
      ∃ (D : Draft) (scope' : Scope), σ'.builder.module.function? id = some D.function ∧
        D.Complete id σ'.builder.module ∧ σ.scope.Le scope' ∧
        BodyCode ⟨σ'.builder.module, D.function, scope'⟩ params ss := by
  subst hid
  let D := d.close (.ret (.int 0))
  have hle : Draft.Le d D := .close h.framed.current _
  have hg := h.grows_redraw hle
  refine .ok (Lower.draws_terminate h.framed.current _ σ h.drawn) ⟨hg, D, σ.scope,
    (h.drawn.redraw D).function, ⟨f, m₀, _, d, hbuilt, hpend, hg.toExtends, rfl⟩, .refl _, D.slots,
    ?_, ?_, ?_⟩
  · obtain ⟨p, hp⟩ : ∃ p, D.blocks[0]? = some p :=
      ⟨_, List.getElem?_eq_getElem (by
        simpa [D] using Nat.lt_of_le_of_lt (Nat.zero_le _) h.framed.current.lt)⟩
    have hpro := (h.written.le hle rfl).prologue hp
    rwa [show D.head.paramCount = params.length from hpar] at hpro
  · have hk := h.known
    unfold Known at hk
    split at hk
    · next hs => simpa [hs, D] using hk.1
    · next hs => simpa [hs, D] using hk
  · have hs : Settled σ d ⟨(σ.redraw D).builder.module, D.function, σ.scope⟩ D :=
      ⟨rfl, hle, .refl _, hg⟩
    have hss := hcode _ D hs
    have hstart : D.cursor d₀ = ⟨0, 2 * D.slots.length, d₀.code.length⟩ := by
      simp [Draft.cursor, hblock, hhere, Draft.offset_zero]
    rw [hstart] at hss
    exact ⟨_, _, hss, Draft.closed_of_le h.framed.current (.refl D)⟩

theorem rest_spec (ss : List Stmt) {σ₁ : Lowering} (hm : m.Tidy)
    (hpar : f.paramCount = params.length)
    (hscope : scope = .slots [] ∨ scope = .globals ∧ params = []) (hr₁ : Ready [] σ₁ (.start f))
    (hid₁ : σ₁.builder.function = id) (hs₁ : σ₁.scope = scope) (hg₁ : Grows id m σ₁.builder.module) :
    Lower.Spec (do
        Lower.parameters params 0
        Lower.stmts ss
        Lower.build (Builder.ret (.int 0))) σ₁ (Stmts.Accepted (Callable m) ss) fun _ σ =>
      LoweredBody id m scope params ss σ.builder.module := by
  have hscope₁ : σ₁.scope = .slots [] ∨ σ₁.scope = .globals ∧ params = [] := by rwa [hs₁]
  refine (Lower.parameters_spec hr₁ hscope₁ (Nat.le_of_eq hpar.symm)).after fun _ σ₂ hpost => ?_
  obtain ⟨d₂, hr₂, hid₂, hs₂, hb₂, hblocks, hblock, hpend⟩ := hpost
  have hid : σ₂.builder.function = id := hid₂.trans hid₁
  have hg₂ : Grows id m σ₂.builder.module := hg₁.trans (hid₁ ▸ hb₂.grows)
  have hcallable : Callable σ₂.builder.module = Callable m := hg₂.callable_eq hm
  rw [← hcallable]
  refine (Lower.stmts_spec ss hr₂).before fun _ σ₃ hpost => ?_
  obtain ⟨d₃, hd₃, hc₃⟩ := hpost
  have hbuilt : Draft.Built id σ₁.builder.module (.start f) σ₃.builder.module d₃ := by
    have h := hb₂.trans (hid₂ ▸ hd₃.built)
    rwa [hid₁] at h
  have hhead : d₃.head = f := ((Draft.framed_start f).built hbuilt).2.head
  refine (finish_spec hd₃.ready (hd₃.function.trans hid) hbuilt (hd₃.pending.trans hpend) (hhead ▸ hpar)
    hblock ?_ hc₃).imp fun _ σ₄ hpost => ?_
  · simp [Draft.here, hblocks, hblock, Draft.start]
  · obtain ⟨hg₄, D, scope', hD, hcomplete, hle, hcode⟩ := hpost
    refine ⟨(hg₂.trans (hid ▸ hd₃.built.grows)).trans hg₄, D, scope', hD, hcomplete, ?_, hcode⟩
    exact ((hs₁ ▸ hs₂).trans hd₃.scope).trans hle

/-- A body is lowered exactly if it is accepted. -/
theorem body_spec (ss : List Stmt) (hm : m.Tidy) (hf : m.function? id = some f)
    (hempty : f.header = f) (hpar : f.paramCount = params.length) (hp : f.name ≠ Machine.printSymbol)
    (hw : f.name ≠ Machine.powerSymbol)
    (hscope : scope = .slots [] ∨ scope = .globals ∧ params = []) :
    Lower.Spec (Lower.body params ss) ⟨{ module := m, function := id }, scope⟩
      (Stmts.Accepted (Callable m) ss) fun _ σ =>
        LoweredBody id m scope params ss σ.builder.module := by
  have hentry := entry_spec hm hf hempty hp hw (hscope.imp (fun h => h) And.left)
  have hall := hentry.after fun _ σ₁ ⟨hr₁, hid₁, hs₁, hg₁⟩ =>
    rest_spec ss hm hpar hscope hr₁ hid₁ hs₁ hg₁
  rw [bind_assoc] at hall
  exact hall

/-- What comes of lowering a body into a function that has been declared. -/
theorem lowerBody_spec (ss : List Stmt) (hm : m.Tidy) (hf : m.function? id = some f)
    (hempty : f.header = f) (hpar : f.paramCount = params.length) (hp : f.name ≠ Machine.printSymbol)
    (hw : f.name ≠ Machine.powerSymbol)
    (hscope : scope = .slots [] ∨ scope = .globals ∧ params = []) :
    match lowerBody m id scope params ss with
    | (.ok _, m') => Stmts.Accepted (Callable m) ss ∧ LoweredBody id m scope params ss m'
    | (.error (.rejected _), _) => ¬ Stmts.Accepted (Callable m) ss
    | (.error (.misuse _), _) => False := by
  have h := body_spec ss hm hf hempty hpar hp hw hscope
  unfold Lower.Spec at h
  unfold lowerBody
  split at h
  · next hx => simpa only [hx] using h
  · next hx => simpa only [hx] using h
  · exact h.elim

end Bodies
end IntLang
