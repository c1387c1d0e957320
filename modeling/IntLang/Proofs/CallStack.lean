import IntLang.Proofs.BodyRuns
import IntLang.Proofs.VerifiedModules
import Mathlib.Data.List.Chain

/-! The stack of frames. Every frame but the top one waits for the call right before the place where it
goes on, and the frame above it executes the function that was called. So a value that comes back is
the result of the call that waits for it. The stack is never deeper than the limit, and only a call
of a function with a body can fail for that. -/
namespace IntLang.Machine
open IntLang.Flow IntLang.Code

/-- The frames of a run, the oldest first. The last one is being executed. -/
def Config.frames (c : Config) : List Frame :=
  c.below.toList ++ [c.top]

namespace Frame

/-- The next instruction of a frame is the call `id`, with arguments that have values. -/
def Calls (m : Module) (fr : Frame) (id : InstrId) (callee : FuncId) (ns : List Int32) : Prop :=
  ∃ f vs, m.function? fr.function = some f ∧ Holds f fr.block fr.next id (.call callee vs) ∧
    fr.ints vs = .ok ns

/-- The frame waits for the call `id` of a function, the instruction right before its next one. -/
def Awaits (m : Module) (fr : Frame) (id : InstrId) (callee : FuncId) : Prop :=
  fr.pending = some id ∧ ∃ f k vs, m.function? fr.function = some f ∧ fr.next = k + 1 ∧
    Holds f fr.block k id (.call callee vs)

def Roomy (m : Module) (fr : Frame) : Prop :=
  ∃ f, m.function? fr.function = some f ∧ fr.results.size = f.instrs.size

/-- A frame that has begun the call `id`. -/
def await (fr : Frame) (id : InstrId) : Frame :=
  { fr.advance with pending := some id }

/-- What a step of a frame can come to. -/
def Does (m : Module) (fr : Frame) : Except Fault Action → Prop
  | .error e => e ≠ .callDepth
  | .ok (.proceed fr' _) =>
    fr'.function = fr.function ∧ fr'.pending = fr.pending ∧ fr'.results.size = fr.results.size
  | .ok (.call fr' callee ns) => ∃ id, fr.Calls m id callee ns ∧ fr' = fr.await id
  | .ok (.ret _) => True

variable {m : Module} {fr : Frame} {f : Function} {id : InstrId} {callee : FuncId} {ns : List Int32}

theorem Does.bind {α : Type} {x : Except Fault α} {k : α → Except Fault Action} (hx : Elementary x)
    (hk : ∀ a, x = .ok a → fr.Does m (k a)) : fr.Does m (x >>= k) := by
  cases x with
  | error e =>
    rintro rfl
    exact hx _ rfl
  | ok a => exact hk a rfl

theorem does_exec (hf : m.function? fr.function = some f) {i : Instr}
    (hi : Holds f fr.block fr.next id i) (name : String) (globals : Array Int32) :
    fr.Does m (fr.exec name globals id i) := by
  have hcomes := fr.comes_exec name globals id i
  generalize fr.exec name globals id i = x at hcomes
  cases hcomes with
  | next function _ _ _ pending results => exact ⟨function, pending, results⟩
  | call args => exact ⟨id, ⟨f, _, hf, hi, args⟩, rfl⟩
  | arith slot =>
    rintro rfl
    exact fr.elementary_arithSlot _ _ _ _ slot
  | notInteger | loadThrough | storeThrough | noIncoming => simp [Does]

theorem does_leave (m : Module) (fr : Frame) (f : Function) (b : Block) (globals : Array Int32) :
    fr.Does m (fr.leave f b globals) := by
  unfold Frame.leave
  split
  · exact ⟨rfl, rfl, rfl⟩
  · exact .bind (fr.elementary_int _) fun n _ => ⟨rfl, rfl, rfl⟩
  · exact .bind (fr.elementary_int _) fun n _ => trivial
  · simp [Does]

theorem does_step (m : Module) (fr : Frame) (globals : Array Int32) : fr.Does m (fr.step m globals) := by
  unfold Frame.step
  split
  · simp [Does]
  · next f hf =>
    split
    · simp [Does]
    · next b hb =>
      split
      · next id i hi =>
        obtain ⟨id', hid, hx⟩ := Option.bind_eq_some_iff.1 hi
        obtain ⟨i', hinstr, heq⟩ := Option.map_eq_some_iff.1 hx
        obtain ⟨rfl, rfl⟩ := Prod.mk.inj heq
        exact does_exec hf ⟨b, hb, hid, hinstr⟩ f.name globals
      · exact does_leave m fr f b globals

theorem Calls.step_eq (h : fr.Calls m id callee ns) (globals : Array Int32) :
    fr.step m globals = .ok (.call (fr.await id) callee ns) := by
  obtain ⟨f, vs, hf, hi, hns⟩ := h
  rw [step_of_holds hf hi, Frame.exec, hns]
  rfl

/-- A frame that has begun a call waits for it. -/
theorem Calls.awaits (h : fr.Calls m id callee ns) : (fr.await id).Awaits m id callee := by
  obtain ⟨f, vs, hf, hi, -⟩ := h
  exact ⟨rfl, f, fr.next, vs, hf, rfl, hi⟩

/-- The call that a frame waits for has a place for its result. -/
theorem Awaits.lt_size (h : fr.Awaits m id callee) (hr : fr.Roomy m) : id < fr.results.size := by
  obtain ⟨-, f, k, vs, hf, -, blk, -, -, hi⟩ := h
  obtain ⟨g, hg, hsize⟩ := hr
  obtain rfl := Option.some.inj (hf.symm.trans hg)
  rw [hsize]
  exact (Array.getElem?_eq_some_iff.1 hi).1

theorem Awaits.resume_eq (h : fr.Awaits m id callee) (n : Int32) : fr.resume n =
    { fr with pending := none, results := fr.results.setIfInBounds id (.int n) } := by
  rw [Frame.resume, h.1]

/-- A frame that waits for nothing goes on after a call as after any instruction. -/
theorem resume_await (h : fr.pending = none) (id : InstrId) (n : Int32) :
    (fr.await id).resume n = fr.give id (.int n) := by
  cases fr
  cases h
  rfl

theorem Roomy.congr {fr' : Frame} (h : fr.Roomy m) (hf : fr'.function = fr.function)
    (hsize : fr'.results.size = fr.results.size) : fr'.Roomy m := by
  obtain ⟨f, hfn, hf'⟩ := h
  exact ⟨f, hf ▸ hfn, hsize ▸ hf'⟩

@[simp] theorem function_resume (fr : Frame) (n : Int32) : (fr.resume n).function = fr.function := by
  unfold Frame.resume
  split <;> rfl

@[simp] theorem size_results_resume (fr : Frame) (n : Int32) :
    (fr.resume n).results.size = fr.results.size := by
  unfold Frame.resume
  split
  · exact Array.size_setIfInBounds
  · rfl

@[simp] theorem pending_resume (fr : Frame) (n : Int32) : (fr.resume n).pending = none := by
  unfold Frame.resume
  split
  · rfl
  · next h => exact h

theorem roomy_entryFrame (hf : m.function? callee = some f) : (entryFrame f callee ns).Roomy m :=
  ⟨f, hf, Array.size_replicate⟩

end Frame

/-- What one step of a run can come to. -/
inductive Moved (m : Module) (c : Config) : Progress → Prop where
  | fault {f : Fault} {e : Engine} : f ≠ .callDepth → Moved m c (.finished (.error f) e)
  | proceeds {top : Frame} {globals : Array Int32} : top.function = c.top.function →
      top.pending = c.top.pending → top.results.size = c.top.results.size →
      Moved m c (.running ⟨{ c.engine with globals }, top, c.below⟩)
  | ends {n : Int32} : c.below = #[] → Moved m c (.finished (.ok n) c.engine)
  | returns {n : Int32} {rest : Array Frame} {caller : Frame} : c.below = rest.push caller →
      Moved m c (.running ⟨c.engine, caller.resume n, rest⟩)
  | routine {id : InstrId} {callee : FuncId} {ns : List Int32} {n : Int32} {text : String} :
      c.top.Calls m id callee ns →
      Moved m c (.running ⟨c.engine.print text, (c.top.await id).resume n, c.below⟩)
  | enters {id : InstrId} {callee : FuncId} {ns : List Int32} {g : Function} :
      c.top.Calls m id callee ns → m.function? callee = some g →
      ¬ maxCallDepth ≤ c.below.size + 1 →
      Moved m c (.running ⟨c.engine, entryFrame g callee ns, c.below.push (c.top.await id)⟩)
  | tooDeep {id : InstrId} {callee : FuncId} {ns : List Int32} {g : Function} :
      c.top.Calls m id callee ns → m.function? callee = some g → g.isDeclaration = false →
      maxCallDepth ≤ c.below.size + 1 → Moved m c (.finished (.error .callDepth) c.engine)

theorem Fault.External.ne_callDepth {f : Fault} (h : f.External) : f ≠ .callDepth := by
  rintro rfl
  exact h

theorem Config.moved (m : Module) (c : Config) : Moved m c (c.step m) := by
  have hdoes := c.top.does_step m c.engine.globals
  cases hstep : c.top.step m c.engine.globals with
  | error f =>
    rw [step_of_error hstep]
    rw [hstep] at hdoes
    exact .fault hdoes
  | ok a =>
    rw [hstep] at hdoes
    cases a with
    | proceed top globals =>
      rw [step_of_proceed hstep]
      exact .proceeds hdoes.1 hdoes.2.1 hdoes.2.2
    | ret n =>
      rw [Config.step, hstep]
      cases hback : c.below.back? with
      | none => exact .ends (Array.back?_eq_none_iff.1 hback)
      | some caller =>
        obtain ⟨rest, hrest⟩ := Array.back?_eq_some_iff.1 hback
        simpa [hrest] using Moved.returns hrest
    | call top callee ns =>
      obtain ⟨id, hcalls, rfl⟩ := hdoes
      rcases c.engine.enter_eq m callee ns with
        ⟨f, henter, hf⟩ | ⟨r, text, henter, hr⟩ | ⟨g, hg, hd, henter⟩
      · rw [Config.step, hstep]
        simp only [henter]
        exact .fault hf.ne_callDepth
      · rw [Config.step, hstep]
        simp only [henter]
        cases r with
        | error f => exact .fault (hr f rfl).ne_callDepth
        | ok n => exact .routine hcalls
      · by_cases hdeep : maxCallDepth ≤ c.below.size + 1
        · rw [step_deep hg hd hstep hdeep]
          exact .tooDeep hcalls hg hd hdeep
        · rw [step_call hg hd hstep hdeep]
          exact .enters hcalls hg hdeep

/-- Frames of which each waits for the next one. -/
structure Stacked (m : Module) (frames : List Frame) : Prop where
  depth : frames.length ≤ maxCallDepth
  waiting : frames.IsChain fun lower upper => ∃ id, lower.Awaits m id upper.function
  roomy : ∀ fr ∈ frames, fr.Roomy m

namespace Stacked
variable {m : Module} {frames : List Frame} {top top' : Frame}

theorem singleton (h : top.Roomy m) : Stacked m [top] :=
  ⟨by simp [maxCallDepth], .singleton top, by simpa using h⟩

/-- The frame on top has changed, but not its function. -/
theorem replace (h : Stacked m (frames ++ [top])) (hf : top'.function = top.function)
    (hsize : top'.results.size = top.results.size) : Stacked m (frames ++ [top']) := by
  refine ⟨by simpa using h.depth, ?_, fun fr hfr => ?_⟩
  · obtain ⟨hframes, -, hlast⟩ := List.isChain_append.1 h.waiting
    refine List.isChain_append.2 ⟨hframes, .singleton top', fun fr hfr y hy => ?_⟩
    obtain rfl := Option.some.inj hy
    rw [hf]
    exact hlast fr hfr top rfl
  · rcases List.mem_append.1 hfr with hfr | hfr
    · exact h.roomy fr (List.mem_append_left _ hfr)
    · rw [List.mem_singleton.1 hfr]
      exact (h.roomy top (by simp)).congr hf hsize

theorem pop (h : Stacked m (frames ++ [top])) : Stacked m frames := by
  refine ⟨?_, (List.isChain_append.1 h.waiting).1, fun fr hfr => h.roomy fr (List.mem_append_left _ hfr)⟩
  have := h.depth
  rw [List.length_append] at this
  omega

theorem push (h : Stacked m (frames ++ [top])) {id : InstrId} (hawaits : top.Awaits m id top'.function)
    (hroomy : top'.Roomy m) (hdepth : (frames ++ [top]).length < maxCallDepth) :
    Stacked m (frames ++ [top] ++ [top']) := by
  refine ⟨by rw [List.length_append]; exact hdepth, ?_, fun fr hfr => ?_⟩
  · refine List.isChain_append.2 ⟨h.waiting, .singleton top', fun fr hfr y hy => ?_⟩
    obtain rfl := Option.some.inj hy
    obtain rfl : top = fr := by simpa using hfr
    exact ⟨id, hawaits⟩
  · rcases List.mem_append.1 hfr with hfr | hfr
    · exact h.roomy fr hfr
    · exact List.mem_singleton.1 hfr ▸ hroomy

end Stacked

/-- The frames of a run are stacked, and the one on top waits for nothing. -/
def Config.Stacked (m : Module) (c : Config) : Prop :=
  Machine.Stacked m c.frames ∧ c.top.pending = none

namespace Config
variable {m : Module} {c d : Config}

@[simp] theorem length_frames (c : Config) : c.frames.length = c.below.size + 1 := by
  simp [frames]

theorem stacked_start {e : Engine} {f : Function} {id : FuncId} {args : List Int32}
    (hf : m.function? id = some f) : Config.Stacked m ⟨e, entryFrame f id args, #[]⟩ :=
  ⟨.singleton (Frame.roomy_entryFrame hf), rfl⟩

theorem Stacked.step (h : c.Stacked m) (hs : c.step m = .running d) : d.Stacked m := by
  obtain ⟨hframes, hidle⟩ := h
  have hmoved := c.moved m
  rw [hs] at hmoved
  cases hmoved with
  | proceeds hf hpending hsize => exact ⟨hframes.replace hf hsize, hpending.trans hidle⟩
  | @returns n rest caller hbelow =>
    have hrest : Machine.Stacked m (rest.toList ++ [caller]) := by
      rw [Config.frames, hbelow, Array.toList_push] at hframes
      exact hframes.pop
    exact ⟨hrest.replace (caller.function_resume n) (caller.size_results_resume n), caller.pending_resume n⟩
  | @routine id _ _ n => exact ⟨hframes.replace (by simp [Frame.await, Frame.advance])
      (by simp [Frame.await, Frame.advance]), Frame.pending_resume _ n⟩
  | @enters id _ _ _ hcalls hg hdepth =>
    have hwaits : Machine.Stacked m (c.below.toList ++ [c.top.await id]) := hframes.replace rfl rfl
    refine ⟨?_, rfl⟩
    rw [Config.frames, Array.toList_push]
    refine hwaits.push hcalls.awaits (Frame.roomy_entryFrame hg) ?_
    simpa using hdepth

theorem Stacked.steps {n : Nat} (h : c.Stacked m) (hs : Steps m n c d) : d.Stacked m := by
  induction hs with
  | refl => exact h
  | head hstep _ ih => exact ih (h.step hstep)

def CallsBody (m : Module) (c : Config) : Prop :=
  ∃ id callee ns g, c.top.Calls m id callee ns ∧ m.function? callee = some g ∧ g.isDeclaration = false

/-- The limit stops exactly the calls of functions with a body that find the stack full. -/
theorem Stacked.step_eq_callDepth_iff (h : c.Stacked m) {e : Engine} :
    c.step m = .finished (.error .callDepth) e ↔
      e = c.engine ∧ c.CallsBody m ∧ c.frames.length = maxCallDepth := by
  constructor
  · intro hs
    have hmoved := c.moved m
    rw [hs] at hmoved
    cases hmoved with
    | fault hno => exact absurd rfl hno
    | tooDeep hcalls hg hd hdeep =>
      have hdepth := h.1.depth
      rw [length_frames] at hdepth ⊢
      exact ⟨rfl, ⟨_, _, _, _, hcalls, hg, hd⟩, Nat.le_antisymm hdepth hdeep⟩
  · rintro ⟨rfl, ⟨id, callee, ns, g, hcalls, hg, hd⟩, hfull⟩
    rw [length_frames] at hfull
    exact step_deep hg hd (hcalls.step_eq _) (Nat.le_of_eq hfull.symm)

/-- A run that ends does so in a step from a state that it has come to. -/
theorem run_eq_some_iff {r : Except Fault Int32} {e : Engine} :
    (∃ n, c.run m n = some (r, e)) ↔ ∃ n d, Steps m n c d ∧ d.step m = .finished r e := by
  constructor
  · rintro ⟨n, hr⟩
    induction n generalizing c with
    | zero => cases hr
    | succ n ih =>
      rw [run] at hr
      split at hr
      · next hstep =>
        obtain ⟨k, d, hsteps, hlast⟩ := ih hr
        exact ⟨k + 1, d, .head hstep hsteps, hlast⟩
      · next hstep =>
        obtain ⟨rfl, rfl⟩ := Prod.mk.inj (Option.some.inj hr)
        exact ⟨0, c, .refl c, hstep⟩
  · rintro ⟨n, d, hsteps, hlast⟩
    exact ⟨n + 1, by rw [hsteps.run_eq, run, hlast]⟩

end Config

structure Config.Disciplined (m : Module) (c : Config) : Prop where
  depth : c.frames ≠ [] ∧ c.frames.length ≤ maxCallDepth
  waiting : c.frames.IsChain fun lower upper => ∃ id, lower.Awaits m id upper.function
  idle : c.top.pending = none
  returned : ∀ n, c.top.step m c.engine.globals = .ok (.ret n) →
    (c.below = #[] ∧ c.step m = .finished (.ok n) c.engine) ∨
    ∃ rest caller id, c.below = rest.push caller ∧ caller.Awaits m id c.top.function ∧
      id < caller.results.size ∧ c.step m = .running ⟨c.engine,
        { caller with pending := none, results := caller.results.setIfInBounds id (.int n) }, rest⟩
  routine : ∀ id callee ns g native n text, c.top.Calls m id callee ns → m.function? callee = some g →
    g.isDeclaration = true → c.engine.natives.lookup g.name = some native →
    c.engine.callNative g.name native ns = (.ok n, text) →
    id < c.top.results.size ∧
      c.step m = .running ⟨c.engine.print text, c.top.give id (.int n), c.below⟩
  deep : ∀ e, c.step m = .finished (.error .callDepth) e ↔
    e = c.engine ∧ c.CallsBody m ∧ c.frames.length = maxCallDepth

section Runs
variable {m : Module} {c : Config} {e : Engine} {id : FuncId} {args : List Int32}

theorem Config.Stacked.disciplined (h : c.Stacked m) : c.Disciplined m where
  depth := ⟨by simp [Config.frames], h.1.depth⟩
  waiting := h.1.waiting
  idle := h.2
  returned := by
    intro n hret
    cases hback : c.below.back? with
    | none =>
      refine .inl ⟨Array.back?_eq_none_iff.1 hback, ?_⟩
      rw [Config.step, hret]
      simp only [hback]
    | some caller =>
      obtain ⟨rest, hrest⟩ := Array.back?_eq_some_iff.1 hback
      have hframes : c.frames = rest.toList ++ [caller] ++ [c.top] := by
        rw [Config.frames, hrest, Array.toList_push]
      obtain ⟨hframes', -, hlast⟩ := List.isChain_append.1 (hframes ▸ h.1.waiting)
      obtain ⟨id, hawaits⟩ := hlast caller (by simp) c.top rfl
      refine .inr ⟨rest, caller, id, hrest, hawaits, hawaits.lt_size (h.1.roomy caller ?_), ?_⟩
      · simp [hframes]
      · rw [Config.step, hret, ← hawaits.resume_eq]
        simp [hrest]
  routine := by
    intro id callee ns g native n text hcalls hg hd hn hnative
    have hroomy : (c.top.await id).Roomy m := (h.1.roomy c.top (by simp [Config.frames])).congr rfl rfl
    refine ⟨hcalls.awaits.lt_size hroomy, ?_⟩
    rw [← Frame.resume_await h.2, Config.step, hcalls.step_eq]
    simp only [Engine.enter, hg, hd, hn, if_true, hnative]
  deep := fun _ => h.step_eq_callDepth_iff

theorem Engine.Reaches.stacked (h : e.Reaches m id args c) : c.Stacked m := by
  obtain ⟨top, n, henter, hsteps⟩ := h
  rcases (e.sync m).enter_eq m id args with ⟨f, hno, -⟩ | ⟨r, text, hno, -⟩ | ⟨g, hg, -, hframe⟩
  · cases henter.symm.trans hno
  · cases henter.symm.trans hno
  · obtain rfl := Entered.frame.inj (Except.ok.inj (henter.symm.trans hframe))
    exact (Config.stacked_start hg).steps hsteps

/-- A run fails at the limit in a step from a state that it comes to. -/
theorem Engine.run_eq_callDepth_iff {e' : Engine} :
    (∃ n, e.run n m id args = some (.error .callDepth, e')) ↔
      ∃ c, e.Reaches m id args c ∧ c.step m = .finished (.error .callDepth) e' := by
  unfold Engine.run Engine.Reaches
  rcases (e.sync m).enter_eq m id args with ⟨f, henter, hf⟩ | ⟨r, text, henter, hr⟩ | ⟨g, -, -, henter⟩
  · simp [henter, hf.ne_callDepth]
  · simp only [henter, Option.some.injEq, Prod.mk.injEq, exists_const, reduceCtorEq, Except.ok.injEq,
      false_and, exists_false, iff_false]
    exact fun hno => (hr _ hno.1).ne_callDepth rfl
  · simp only [henter, Config.run_eq_some_iff, Except.ok.injEq, Entered.frame.injEq]
    constructor
    · rintro ⟨n, d, hsteps, hlast⟩
      exact ⟨d, ⟨_, n, rfl, hsteps⟩, hlast⟩
    · rintro ⟨d, ⟨_, n, rfl, hsteps⟩, hlast⟩
      exact ⟨n, d, hsteps, hlast⟩

/-- Every state that a run comes to keeps the discipline of the stack, and a run fails at the limit
exactly if it comes to a state with a full stack that is at a call of a function with a body. -/
theorem call_stack_disciplined (e : Engine) (m : Module) (id : FuncId) (args : List Int32) :
    (∀ c, e.Reaches m id args c → c.Disciplined m) ∧
      ∀ e', (∃ n, e.run n m id args = some (.error .callDepth, e')) ↔
        ∃ c, e.Reaches m id args c ∧ c.engine = e' ∧ c.CallsBody m ∧ c.frames.length = maxCallDepth := by
  refine ⟨fun c hc => hc.stacked.disciplined, fun e' => Engine.run_eq_callDepth_iff.trans ?_⟩
  refine exists_congr fun c => and_congr_right fun hc => ?_
  rw [hc.stacked.step_eq_callDepth_iff, eq_comm]

end Runs

/-- Three functions of which each calls the next one, and a routine that the last one calls. -/
def relayModule : Module where
  name := "relay"
  functions := #[
    some { name := "outer", paramCount := 0, linkage := .internal, instrs := #[.call 1 [.int 4]],
           blocks := #[{ name := "entry", instrs := #[0], terminator := some (.ret (.instr 0)) }] },
    some { name := "middle", paramCount := 1, linkage := .internal,
           instrs := #[.arith .add .i32 (.param 0) (.int 1), .call 2 [.instr 0]],
           blocks := #[{ name := "entry", instrs := #[0, 1], terminator := some (.ret (.instr 1)) }] },
    some { name := "inner", paramCount := 1, linkage := .internal, instrs := #[.call 3 [.int 0]],
           blocks := #[{ name := "entry", instrs := #[0], terminator := some (.ret (.param 0)) }] },
    some { name := printSymbol, paramCount := 1, linkage := .external, variadic := true }]

theorem call_stack_disciplined_relay : ∃ c, ({} : Engine).mapAll.Reaches relayModule 0 [] c ∧
    c.frames.map (·.function) = [0, 1, 2] ∧ c.frames.map (·.pending) = [some 0, some 1, none] ∧
    c.Disciplined relayModule ∧
    c.step relayModule = .running ⟨c.engine.print "\n", c.top.give 0 (.int 1), c.below⟩ := by
  obtain ⟨c, hc, hfunctions, hpending, hcalls, hnatives, hcall⟩ : ∃ c,
      ({} : Engine).mapAll.Reaches relayModule 0 [] c ∧ c.frames.map (·.function) = [0, 1, 2] ∧
        c.frames.map (·.pending) = [some 0, some 1, none] ∧ c.top.Calls relayModule 0 3 [0] ∧
        c.engine.natives.lookup printSymbol = some .print ∧
        c.engine.callNative printSymbol .print [0] = (.ok 1, "\n") :=
    ⟨_, ⟨_, 3, rfl, .head rfl (.head rfl (.head rfl (.refl _)))⟩, rfl, rfl,
      ⟨_, _, rfl, ⟨_, rfl, rfl, rfl⟩, rfl⟩, rfl, by decide +kernel⟩
  have hdisciplined := (call_stack_disciplined _ relayModule 0 []).1 c hc
  exact ⟨c, hc, hfunctions, hpending, hdisciplined,
    (hdisciplined.routine 0 3 [0] _ _ 1 _ hcalls rfl rfl hnatives hcall).2⟩

end IntLang.Machine
