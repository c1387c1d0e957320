import IntLang.Lowering
import IntLang.Proofs.Drafts

/-! Building steps, one by one: what each does to the draft of the function. -/
namespace IntLang
open IntLang.Flow

theorem get_apply {ε σ : Type} (s : σ) : (get : EStateM ε σ σ) s = .ok s s := rfl

theorem modify_apply {ε σ : Type} (f : σ → σ) (s : σ) :
    (modify f : EStateM ε σ PUnit) s = .ok ⟨⟩ (f s) := rfl

namespace Flow

/-- The function `id` has got another body, at most. -/
def Reworked (id : FuncId) (m m' : Module) : Prop :=
  m' = m ∨ ∃ f g, m.function? id = some f ∧ g.header = f.header ∧ m' = m.update id g

theorem Reworked.update {m : Module} {id : FuncId} {f g : Function} (hf : m.function? id = some f)
    (hg : g.header = f.header) : Reworked id m (m.update id g) :=
  .inr ⟨f, g, hf, hg, rfl⟩

/-- A building step that gives the function another body, or is impossible and changes nothing. -/
def Reworks {α : Type} (x : Build α) : Prop :=
  ∀ b, match x b with
    | .ok _ b' => Reworked b.function b.module b'.module
    | .error _ b' => b' = b

/-- The insertion block is found and open, or nothing can be added. -/
theorem openBlock_cases (f : Function) (b : Builder) :
    (∃ id blk, Builder.openBlock f b = .ok (id, blk) b) ∨ ∃ e, Builder.openBlock f b = .error e b := by
  simp only [Builder.openBlock, bind, EStateM.bind, get_apply]
  cases b.block with
  | none => exact .inr ⟨_, rfl⟩
  | some id =>
    cases hblk : f.blocks[id]? with
    | none => exact .inr ⟨.missingBlock, by simp [hblk]; rfl⟩
    | some blk =>
      by_cases ht : blk.terminator.isSome
      · exact .inr ⟨.terminatedBlock, by simp [hblk, ht]; rfl⟩
      · exact .inl ⟨id, blk, by simp [hblk, ht]; rfl⟩

namespace Reworks
variable {α β : Type}

/-- A step that looks at the function first. -/
theorem of_getFunction {next : Function → Build α}
    (h : ∀ f b, b.module.function? b.function = some f → match next f b with
      | .ok _ b' => Reworked b.function b.module b'.module
      | .error _ b' => b' = b) : Reworks (Builder.getFunction >>= next) := by
  intro b
  cases hf : b.module.function? b.function with
  | none => simp [bind, EStateM.bind, Builder.getFunction, hf]
  | some f => simpa [bind, EStateM.bind, Builder.getFunction, hf] using h f b hf

/-- A step that adds something to the insertion block. -/
theorem of_openBlock {next : Function → BlockId × Block → Build α}
    (h : ∀ f x b, b.module.function? b.function = some f → match next f x b with
      | .ok _ b' => Reworked b.function b.module b'.module
      | .error _ b' => b' = b) :
    Reworks (do let f ← Builder.getFunction; let x ← Builder.openBlock f; next f x) := by
  refine of_getFunction fun f b hf => ?_
  rcases openBlock_cases f b with ⟨id, blk, ho⟩ | ⟨e, ho⟩
  · simpa [bind, EStateM.bind, ho] using h f (id, blk) b hf
  · simp [bind, EStateM.bind, ho]

theorem appendBlock (name : String) : Reworks (Builder.appendBlock name) :=
  of_getFunction fun _ _ hf => .update hf rfl

theorem positionAt (id : BlockId) : Reworks (Builder.positionAt id) :=
  fun _ => .inl rfl

theorem push (i : Instr) : Reworks (Builder.push i) :=
  of_openBlock fun _ _ _ hf => .update hf rfl

theorem terminate (t : Terminator) : Reworks (Builder.terminate t) :=
  of_openBlock fun _ _ _ hf => .update hf rfl

theorem entrySlot (name : String) (init : Operand) : Reworks (Builder.entrySlot name init) := by
  refine of_getFunction fun f b hf => ?_
  simp only [bind, EStateM.bind, get_apply]
  cases f.blocks[0]? with
  | none => rfl
  | some entry => exact .update hf rfl

theorem arith (op : ArithOp) (l r : Operand) : Reworks (Builder.arith op l r) := by
  have htype : Builder.arith op l r =
      Builder.getFunction >>= fun f => Builder.push (.arith op (f.typeOf l) l r) := by
    funext b
    simp only [Builder.arith, Builder.typeOf, bind, EStateM.bind]
    cases Builder.getFunction b <;> rfl
  rw [htype]
  exact of_getFunction fun f b _ => push _ b

theorem discard {x : Build α} (h : Reworks x) : Reworks (do let _ ← x) := by
  intro b
  have hb := h b
  simp only [bind, EStateM.bind]
  split at hb
  · next hx =>
    simp only [hx]
    exact hb
  · next hx => simpa only [hx] using hb

end Reworks

end Flow

/-- A lowering that has come as far as a draft says. -/
structure Drawn (σ : Lowering) (d : Draft) : Prop where
  function : σ.builder.module.function? σ.builder.function = some d.function
  block : σ.builder.block = some d.block
  slots : σ.builder.slots = d.slots.length

def Lowering.redraw (σ : Lowering) (d : Draft) : Lowering :=
  { σ with builder := { σ.builder with
    module := σ.builder.module.update σ.builder.function d.function
    block := some d.block
    slots := d.slots.length } }

section Redraw
variable {σ : Lowering} {d d' : Draft}

@[simp] theorem redraw_redraw : (σ.redraw d).redraw d' = σ.redraw d' := by
  simp [Lowering.redraw, Module.update_update]

@[simp] theorem scope_redraw : (σ.redraw d).scope = σ.scope := rfl

@[simp] theorem function_redraw : (σ.redraw d).builder.function = σ.builder.function := rfl

theorem Drawn.redraw (h : Drawn σ d) (d' : Draft) : Drawn (σ.redraw d') d' := by
  refine ⟨?_, rfl, rfl⟩
  simp [Lowering.redraw, Module.function?_update h.function]

end Redraw

namespace Lower

/-- The step gives `a` and turns the draft `d` into `d'`, and does nothing else. -/
def Draws {α : Type} (x : Lower α) (d : Draft) (a : α) (d' : Draft) : Prop :=
  ∀ σ, Drawn σ d → x σ = .ok a (σ.redraw d')

section Draws
variable {α β : Type} {d d' d'' : Draft} {σ : Lowering} {known : List (String × Operand)} {name : String}

theorem Draws.bind {x : Lower α} {f : α → Lower β} {a : α} {b : β} (h : Draws x d a d')
    (hf : Draws (f a) d' b d'') : Draws (x >>= f) d b d'' := by
  intro σ hσ
  change EStateM.bind x f σ = _
  rw [EStateM.bind, h σ hσ]
  simp only
  rw [hf _ (hσ.redraw d'), redraw_redraw]

theorem Draws.pure (a : α) : Draws (pure a) d a d := by
  intro σ hσ
  obtain ⟨⟨m, id, b, n⟩, scope⟩ := σ
  obtain ⟨hf, rfl, rfl⟩ := hσ
  simp only [Lowering.redraw, Module.update_self hf]
  rfl

/-- A building step that only changes the function. -/
theorem draws_build {step : Build α} {a : α}
    (h : ∀ b : Builder, b.module.function? b.function = some d.function →
      b.block = some d.block → b.slots = d.slots.length →
      step b = .ok a { b with
        module := b.module.update b.function d'.function
        block := some d'.block
        slots := d'.slots.length }) : Draws (build step) d a d' := by
  intro σ hσ
  rw [build, h σ.builder hσ.function hσ.block hσ.slots]
  rfl

theorem build_bind (step : Build α) (next : α → Build β) :
    build (step >>= next) = build step >>= fun a => build (next a) := by
  funext σ
  change build (step >>= next) σ = EStateM.bind (build step) (fun a => build (next a)) σ
  simp only [build, EStateM.bind, bind]
  rcases step σ.builder with ⟨a, b⟩ | ⟨e, b⟩ <;> rfl

theorem openBlock_eq {p : Piece} (hp : d.blocks[d.block]? = some p) (ht : p.terminator = none)
    {b : Builder} (hb : b.block = some d.block) :
    Builder.openBlock d.function b = .ok (d.block, d.blockAt d.block p) b := by
  have hblk : d.function.blocks[d.block]? = some (d.blockAt d.block p) := by
    simp [Draft.function_blocks, hp]
  have hend : (d.blockAt d.block p).terminator = none := ht
  simp [Builder.openBlock, bind, EStateM.bind, get_apply, hb, hblk, hend, pure, EStateM.pure]

theorem draws_push (hd : d.Open) (i : Instr) {n : Nat} (hn : d.code.length = n) :
    Draws (build (Builder.push i)) d (.instr n) (d.push i) := by
  subst hn
  obtain ⟨p, hp, ht⟩ := hd
  refine draws_build fun b hf hb hs => ?_
  rw [Draft.function_push hp]
  simp [Builder.push, Builder.getFunction, Builder.setFunction, bind, EStateM.bind,
    modify_apply, Pure.pure, EStateM.pure, hf, openBlock_eq hp ht hb, Draft.push, hb, hs]

theorem draws_terminate (hd : d.Open) (t : Terminator) :
    Draws (build (Builder.terminate t)) d () (d.close t) := by
  obtain ⟨p, hp, ht⟩ := hd
  refine draws_build fun b hf hb hs => ?_
  rw [Draft.function_close hp]
  simp [Builder.terminate, Builder.getFunction, Builder.setFunction, bind, EStateM.bind,
    modify_apply, hf, openBlock_eq hp ht hb, Draft.close, hb, hs]

theorem draws_append (hd : d.blocks ≠ [] ∨ d.slots = []) (name : String) {n : Nat}
    (hn : d.blocks.length = n) : Draws (build (Builder.appendBlock name)) d n (d.append name) := by
  subst hn
  refine draws_build fun b hf hb hs => ?_
  rw [Draft.function_append hd]
  simp [Builder.appendBlock, Builder.getFunction, Builder.setFunction, bind, EStateM.bind,
    modify_apply, Pure.pure, EStateM.pure, hf, Draft.append, hb, hs]

theorem draws_position (id : BlockId) : Draws (build (Builder.positionAt id)) d () (d.goto id) := by
  refine draws_build fun b hf hb hs => ?_
  have hm : b.module.update b.function (d.goto id).function = b.module := Module.update_self hf
  rw [hm]
  simp [Builder.positionAt, modify_apply, hs, Draft.goto]

theorem draws_slot {p : Piece} (hp : d.blocks[0]? = some p) (name : String) (init : Operand) :
    Draws (build (Builder.entrySlot name init)) d (.instr d.code.length) (d.slot name init) := by
  refine draws_build fun b hf hb hs => ?_
  have hblk : d.function.blocks[0]? = some (d.blockAt 0 p) := by
    simp [Draft.function_blocks, hp]
  rw [Draft.function_slot hp]
  simp [Builder.entrySlot, Builder.getFunction, Builder.setFunction, bind, EStateM.bind,
    modify_apply, get_apply, Pure.pure, EStateM.pure, hf, hblk, Draft.slot, hb, hs]

/-- Arithmetic looks at the type of its left operand first. -/
theorem arith_eq {b : Builder} (hf : b.module.function? b.function = some d.function) (op : ArithOp)
    (l r : Operand) :
    Builder.arith op l r b = Builder.push (.arith op (d.function.typeOf l) l r) b := by
  simp [Builder.arith, Builder.typeOf, Builder.getFunction, bind, EStateM.bind, hf, Pure.pure,
    EStateM.pure]

theorem draws_arith (hd : d.Open) (op : ArithOp) (l r : Operand) :
    Draws (build (Builder.arith op l r)) d (.instr d.code.length)
      (d.push (.arith op (d.function.typeOf l) l r)) := by
  intro σ hσ
  rw [← draws_push hd _ rfl σ hσ, build, build, arith_eq hσ.function]

theorem draws_store (hd : d.Open) (v p : Operand) :
    Draws (build (Builder.store v p)) d () (d.push (.store v p)) := by
  rw [Builder.store, build_bind]
  exact (draws_push hd _ rfl).bind (.pure ())

theorem draws_leave (hd : d.Open) (v : Operand) (name : String) : Draws (do
        build (Builder.ret v)
        let dead ← build (Builder.appendBlock name)
        build (Builder.positionAt dead)) d ()
      (((d.close (.ret v)).append name).goto d.blocks.length) := by
  have hblocks : (d.close (.ret v)).blocks ≠ [] := by
    rw [← List.length_pos_iff, Draft.length_blocks_close, List.length_pos_iff]
    exact hd.ne_nil
  exact (draws_terminate hd (.ret v)).bind
    ((draws_append (.inl hblocks) _ (Draft.length_blocks_close d _)).bind (draws_position _))

/-- A change of the module that leaves the function alone. -/
theorem build_onModule (change : Module → α × Module) :
    build (Builder.onModule change) σ = .ok (change σ.builder.module).1
      { σ with builder := { σ.builder with module := (change σ.builder.module).2 } } := rfl

theorem address_globals (h : σ.scope = .globals) (name : String) :
    address name σ = .ok (.global (σ.builder.module.globalCell name 0).1)
      { σ with builder := { σ.builder with module := (σ.builder.module.globalCell name 0).2 } } := by
  simp [address, Bind.bind, EStateM.bind, get_apply, h, build_onModule, Pure.pure, EStateM.pure]

theorem address_slots (h : σ.scope = .slots known) {p : Operand} (hp : known.lookup name = some p) :
    address name σ = .ok p σ := by
  simp [address, Bind.bind, EStateM.bind, get_apply, h, hp, Pure.pure, EStateM.pure]

theorem address_new (h : σ.scope = .slots known) (hp : known.lookup name = none) : address name σ = (do
      let slot ← build (Builder.entrySlot name (.int 0))
      modify ({ · with scope := .slots ((name, slot) :: known) })
      return slot : Lower Operand) σ := by
  simp [address, Bind.bind, EStateM.bind, get_apply, h, hp]

theorem draws_address {p : Piece} (hp : d.blocks[0]? = some p) (hσ : Drawn σ d) (hs : σ.scope = .slots known)
    (hname : known.lookup name = none) :
    address name σ = .ok (.instr d.code.length)
      { σ.redraw (d.slot name (.int 0)) with
        scope := .slots ((name, .instr d.code.length) :: known) } := by
  rw [address_new hs hname]
  simp [bind, EStateM.bind, draws_slot hp name (.int 0) σ hσ, modify_apply, Pure.pure, EStateM.pure]

end Draws
end Lower
end IntLang
