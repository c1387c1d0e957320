import IntLang.Proofs.Assembler
import IntLang.Proofs.FrameCells
import IntLang.Proofs.Labels
import IntLang.Proofs.Preservation
import IntLang.Proofs.WaitingFrames

/-! The lines that are emitted for a program do what the machine does with its module: they return the
same value after the same output and with the same global cells, and they trap where the machine finds
that a division has no result. -/
namespace IntLang
open IntLang.Flow IntLang.Machine IntLang.Code IntLang.Assembly

/-- The processor has got as far as the machine. -/
structure Tracks (M : Module) (lines : List Line) (D : Draft) (c : Config) (pc : Nat) (s : Processor) :
    Prop where
  function : M.function? c.top.function = some D.function
  finished : D.Finished M
  proceeds : D.Proceeds M lines c.top pc s.stack s.fp
  sp : s.sp = s.fp - D.layout.size
  aligned : s.fp % 16 = 0
  waits : Waits M lines s.stack s.fp c.below.toList.reverse
  globals : Shares M c.engine.globals s.data
  output : s.output = c.engine.output
  natives : c.engine.natives = ({} : Engine).mapAll.natives

/-- What the lines come to where the machine comes to `r`. -/
structure Concludes (M : Module) (lines : List Line) (r : Except Fault Int32) (e : Engine) (pc : Nat)
    (s : Processor) : Prop where
  returns : ∀ v, r = .ok v → ∃ n t, run lines n pc s = some (.returned v t) ∧ t.output = e.output ∧
    Shares M e.globals t.data
  traps : ∀ f, r = .error f → f.Division →
    ∃ n t, run lines n pc s = some (.trapped t) ∧ t.output = e.output

def Advances (M : Module) (lines : List Line) (c : Config) (pc : Nat) (s : Processor) : Prop :=
  (∃ k c' D pc' s', Steps M (k + 1) c c' ∧ Runs lines pc s pc' s' ∧ Tracks M lines D c' pc' s') ∨
    ∃ r e, c.step M = .finished r e ∧ Concludes M lines r e pc s

section Steps
variable {M : Module} {lines : List Line} {D : Draft} {c : Config} {pc pc' : Nat} {s s' : Processor}
  {r : Except Fault Int32} {e : Engine} {f : Fault}

theorem Concludes.of_error (h : ¬ f.Division) : Concludes M lines (.error f) e pc s :=
  ⟨nofun, fun _ hf hd => absurd (Except.error.inj hf ▸ hd) h⟩

theorem Concludes.of_runs (h : Concludes M lines r e pc' s') (hr : Runs lines pc s pc' s') :
    Concludes M lines r e pc s := by
  refine ⟨fun v hv => ?_, fun f hf hd => ?_⟩
  · obtain ⟨n, t, hrun, hrest⟩ := h.returns v hv
    obtain ⟨k, hk⟩ := hr.run_eq hrun
    exact ⟨k, t, hk, hrest⟩
  · obtain ⟨n, t, hrun, hrest⟩ := h.traps f hf hd
    obtain ⟨k, hk⟩ := hr.run_eq hrun
    exact ⟨k, t, hk, hrest⟩

theorem advances_of_error (hf : c.top.step M c.engine.globals = .error f) (hd : ¬ f.Division) :
    Advances M lines c pc s :=
  .inr ⟨_, _, step_of_error hf, .of_error hd⟩

/-- An instruction leads to the next one, or it is a call. -/
theorem exec_cases {fr : Frame} {name : String} {globals : Array Int32} {id : InstrId} {i : Instr}
    {a : Action} (h : fr.exec name globals id i = .ok a) :
    (∃ fr' globals', a = .proceed fr' globals' ∧ fr'.function = fr.function ∧ fr'.block = fr.block ∧
      fr'.next = fr.next + 1) ∨
    ∃ callee args ns, i = .call callee args ∧ fr.ints args = .ok ns ∧
      a = .call { fr.advance with pending := some id } callee ns := by
  have hcomes := fr.comes_exec name globals id i
  rw [h] at hcomes
  cases hcomes with
  | next function block next => exact .inl ⟨_, _, rfl, function, block, next⟩
  | call args => exact .inr ⟨_, _, _, rfl, args, rfl⟩

theorem step_of_traps (hline : lines[pc]? = some (.ins .divide)) (h : s.traps) :
    step lines pc s = .trapped s := by
  have hexec : Ins.exec s .divide = none := by
    unfold Processor.traps at h
    split at h
    · next upper lower d hu hl hd =>
      simp only [Ins.exec, hu, hl, hd, Option.isNone_iff_eq_none.1 h, Option.bind_eq_bind, Option.bind_some,
        Option.bind_none]
    · cases h
  rw [step, hline]
  simp [execute, hexec, h]

theorem Tracks.executes (h : Tracks M lines D c pc s) (hE : Emits M lines) {id : InstrId} {i : Instr}
    (hi : Holds D.function c.top.block c.top.next id i) {fr : Frame} {globals : Array Int32}
    (hstep : c.top.exec D.function.name c.engine.globals id i = .ok (.proceed fr globals))
    (hfn : fr.function = c.top.function) (hblock : fr.block = c.top.block)
    (hnext : fr.next = c.top.next + 1) : Advances M lines c pc s := by
  obtain ⟨is, s', hcode, hexec, hm, hg, hw⟩ := h.finished.renders hE.tidy hi
    (h.proceeds.settled id i hi) h.proceeds.mirrors h.globals hstep (f := c.top.function)
  obtain ⟨hlies, hcont⟩ := h.proceeds.continues.next (h.finished.getElem?_instrsOf hi) hcode
  refine .inl ⟨0, _, D, _, s', .one (step_of_proceed ((step_of_holds h.function hi).trans hstep)),
    .of_execAll hlies hexec, ?_, h.finished, ⟨?_, ?_, fun id' i' hi' => ?_, hm⟩, ?_, ?_, ?_, hg, ?_,
    h.natives⟩
  · rw [hfn]
    exact h.function
  · rw [hblock]
    exact h.proceeds.reachable
  · rw [hfn, hblock, hnext]
    exact hcont
  · rw [hblock, hnext] at hi'
    rcases h.finished.isPhi_cases hi' with hno | ⟨-, h0, -⟩
    · exact hno
    · cases h0
  · rw [hw.sp, hw.fp, h.sp]
  · rw [hw.fp]
    exact h.aligned
  · rw [hw.fp]
    exact h.waits.congr hw.stack
  · rw [hw.output, h.output]

theorem Tracks.traps (h : Tracks M lines D c pc s) {id : InstrId} {i : Instr}
    (hi : Holds D.function c.top.block c.top.next id i)
    (hstep : c.top.exec D.function.name c.engine.globals id i = .error f) (hd : f.Division) :
    Concludes M lines (.error f) c.engine pc s := by
  obtain ⟨is, js, s', hcode, hexec, htraps, hout⟩ :=
    h.finished.traps hi h.proceeds.mirrors hstep hd (f := c.top.function)
  obtain ⟨hlies, -⟩ := h.proceeds.continues.next (h.finished.getElem?_instrsOf hi) hcode
  rw [code_append, Lies.append_iff, Assembly.code, List.length_map] at hlies
  obtain ⟨hlies, hdivide⟩ := hlies
  obtain ⟨hline, -⟩ := Lies.cons_iff.1 hdivide
  refine ⟨by simp, fun _ _ _ => ?_⟩
  have hrun : run lines 1 (pc + is.length) s' = some (.trapped s') := by
    rw [run, step_of_traps hline htraps]
  obtain ⟨n, hn⟩ := (Runs.of_execAll hlies hexec).run_eq hrun
  exact ⟨n, s', hn, hout.trans h.output⟩

theorem callNative_eq_ok {symbol text : String} {native : Native} {args : List Int32} {n : Int32}
    (h : e.callNative symbol native args = (.ok n, text)) : native.run args = .ok (n, text) := by
  unfold Engine.callNative at h
  split at h
  · cases (Prod.mk.inj h).1
  · next n' text' hrun =>
    rw [hrun]
    split at h
    · next hempty =>
      obtain ⟨hn, ht⟩ := Prod.mk.inj h
      rw [Except.ok.inj hn, hempty, ht]
    · split at h
      · obtain ⟨hn, ht⟩ := Prod.mk.inj h
        rw [Except.ok.inj hn, ht]
      · cases (Prod.mk.inj h).1

theorem callNative_ne_division {symbol text : String} {native : Native} {args : List Int32}
    (h : e.callNative symbol native args = (.error f, text)) : ¬ f.Division := by
  have hfailed (x : NativeError) (hf : .nativeFailed symbol x = f) : ¬ f.Division := by
    rw [← hf]
    rintro (hd | hd) <;> cases hd
  unfold Engine.callNative at h
  split at h
  · exact hfailed _ (Except.error.inj (Prod.mk.inj h).1)
  · split at h
    · cases (Prod.mk.inj h).1
    · split at h
      · cases (Prod.mk.inj h).1
      · exact hfailed _ (Except.error.inj (Prod.mk.inj h).1)

/-- The routine that prints is declared as one that takes any number of arguments. -/
theorem variadic_of_routine? (ht : M.Tidy) {id : FuncId} {target : Function}
    (hid : M.function? id = some target) (h : routine? target.name = some .print) :
    target.variadic = true := by
  have hname : target.name = printSymbol := by
    by_contra hne
    have hp : (target.name == printSymbol) = false := beq_false_of_ne hne
    simp only [routine?, Engine.mapAll, Engine.map, List.lookup_cons, hp] at h
    split at h
    · cases h
    · cases h
  rcases (ht.routines id target hid (.inl hname)).2 with hr | hr
  · exact congrArg Function.variadic hr
  · have hpower : target.name = powerSymbol := congrArg Function.name hr
    exact absurd (hname.symm.trans hpower) (by decide)

variable {callee : FuncId} {args : List Operand} {ns : List Int32} {id : InstrId} {n : Int32}

/-- A call of a support routine that comes back. -/
theorem Tracks.callsRoutine (h : Tracks M lines D c pc s) (hE : Emits M lines)
    (hi : Holds D.function c.top.block c.top.next id (.call callee args))
    (hns : c.top.ints args = .ok ns) {target : Function} (htarget : M.function? callee = some target)
    (hd : target.isDeclaration = true) {native : Native}
    (hlook : c.engine.natives.lookup target.name = some native) {text : String}
    (hrun : c.engine.callNative target.name native ns = (.ok n, text)) :
    ∃ pc' s', Runs lines pc s pc' s' ∧ Tracks M lines D
      ⟨c.engine.print text, { c.top.advance with pending := some id }.resume n, c.below⟩ pc' s' := by
  obtain ⟨target', pc₁, s₁, hready, hruns₁, hpending⟩ :=
    h.proceeds.calls h.finished h.function hi hns h.sp
  obtain rfl : target = target' := Option.some.inj (htarget.symm.trans hready.function)
  rw [h.natives] at hlook
  have hsp : s.sp % 16 = 0 := by
    have hsize := D.layout.size_mod
    have haligned := h.aligned
    rw [h.sp]
    omega
  obtain ⟨s₂, hcall, hacc, hfp₂, hsp₂, hdata₂, hout₂, hstack₂⟩ := hready.passed.callRoutine hsp
    (fun hr => hready.counted (variadic_of_routine? hE.tidy htarget (hr ▸ hlook))) (callNative_eq_ok hrun)
  have hstep : step lines pc₁ s₁ = .running (pc₁ + 1) s₂ := by
    have hroutine : routine? target.name = some native := hlook
    rw [step, hready.line]
    simp only [execute, hE.foreign htarget hd, hroutine, Option.bind_some, hcall]
  rw [← hfp₂] at hpending
  obtain ⟨pc₃, s₃, hruns₃, hproceeds, hfn, hfp₃, hsp₃, hdata₃, hout₃, hstack₃⟩ :=
    (hpending.congr fun a ha => hstack₂ a (by have := h.sp; omega)).resume hacc
  have hfp : s₃.fp = s.fp := hfp₃.trans hfp₂
  refine ⟨pc₃, s₃, hruns₁.trans (.head hstep hruns₃), hfn ▸ h.function, h.finished, hproceeds, ?_, ?_, ?_,
    ?_, ?_, h.natives⟩
  · rw [hsp₃, hsp₂, hready.passed.sp, hfp, h.sp]
    omega
  · rw [hfp]
    exact h.aligned
  · rw [hfp]
    refine h.waits.congr fun a ha => ?_
    rw [hstack₃ a (by omega), hstack₂ a (by have := h.sp; omega)]
  · rw [hdata₃, hdata₂]
    exact h.globals
  · rw [hout₃, hout₂, h.output]
    rfl

theorem Tracks.callsFunction (h : Tracks M lines D c pc s) (hE : Emits M lines)
    (hi : Holds D.function c.top.block c.top.next id (.call callee args))
    (hns : c.top.ints args = .ok ns) {D' : Draft} (hD : M.function? callee = some D'.function)
    (hfin : D'.Finished M) : ∃ pc' s', Runs lines pc s pc' s' ∧ Tracks M lines D'
      ⟨c.engine, D'.entered callee ns, c.below.push { c.top.advance with pending := some id }⟩ pc' s' := by
  obtain ⟨target, pc₁, s₁, hready, hruns₁, hpending⟩ :=
    h.proceeds.calls h.finished h.function hi hns h.sp
  obtain rfl : D'.function = target := Option.some.inj (hD.symm.trans hready.function)
  obtain ⟨pc₂, pc₃, s₃, hsymbol, hruns₃, hproceeds, hfp₃, hsp₃, hdata₃, hout₃, hsaved,
    hstack₃⟩ :=
    hfin.enters hE hD (hready.passed.finds (.back (some (pc₁ + 1)))) hready.takes
  have hstep : step lines pc₁ s₁ = .running pc₂ (s₁.push (.back (some (pc₁ + 1)))) := by
    rw [step, hready.line]
    simp only [execute, hsymbol]
  have hpush : (s₁.push (.back (some (pc₁ + 1)))).sp = s₁.sp - 8 := rfl
  have hsp := h.sp
  have hsp₁ := hready.passed.sp
  have hroom := Context.room_mod ns.length
  have hsize := D.layout.size_mod
  have haligned := h.aligned
  have hold (a : Int) (ha : s.sp ≤ a) : s₃.stack a = s.stack a := by
    rw [hstack₃ a (by omega), Processor.stack_push (by omega), hready.passed.stack a ha]
  refine ⟨pc₃, s₃, hruns₁.trans (.head hstep hruns₃), hD, hfin, hproceeds, hsp₃, by omega, ?_, ?_, ?_,
    h.natives⟩
  · rw [Array.toList_push, List.reverse_append, List.reverse_singleton, List.singleton_append]
    have hcaller : s₃.stack.read s₃.fp = some (.frame s.fp) := by
      rw [← hready.passed.fp]
      exact hsaved
    have hback : s₃.stack.read (s₃.fp + 8) = some (.back (some (pc₁ + 1))) := by
      rw [show s₃.fp + 8 = (s₁.push (.back (some (pc₁ + 1)))).sp by omega]
      exact Stack.read_congr (s₁.read_push _) fun a ha _ => hstack₃ a ha
    exact .cons hcaller hback (by omega) h.aligned (hpending.congr fun a ha => hold a (by omega))
      (h.waits.congr fun a ha => hold a (by omega))
  · rw [hdata₃]
    exact hready.passed.data ▸ h.globals
  · rw [hout₃]
    exact hready.passed.output.trans h.output

theorem Tracks.calls (h : Tracks M lines D c pc s) (hE : Emits M lines) (hM : M.Checked)
    (hi : Holds D.function c.top.block c.top.next id (.call callee args))
    (hns : c.top.ints args = .ok ns)
    (hstep : c.top.step M c.engine.globals =
      .ok (.call { c.top.advance with pending := some id } callee ns)) : Advances M lines c pc s := by
  obtain ⟨⟨target, htarget, -⟩, -⟩ := h.finished.fits_call hi
  cases hd : target.isDeclaration with
  | true =>
    cases hlook : c.engine.natives.lookup target.name with
    | none =>
      refine .inr ⟨.error (.unresolved target.name), c.engine, ?_, .of_error ?_⟩
      · rw [Config.step, hstep]
        simp [Engine.enter, htarget, hd, hlook]
      · rintro (he | he) <;> cases he
    | some native =>
      rcases hrun : c.engine.callNative target.name native ns with ⟨f | n, text⟩
      · refine .inr ⟨.error f, c.engine.print text, ?_, .of_error (callNative_ne_division hrun)⟩
        rw [Config.step, hstep]
        simp [Engine.enter, htarget, hd, hlook, hrun]
      · obtain ⟨pc', s', hruns, htracks⟩ := h.callsRoutine hE hi hns htarget hd hlook hrun
        refine .inl ⟨0, _, D, pc', s', .one ?_, hruns, htracks⟩
        rw [Config.step, hstep]
        simp [Engine.enter, htarget, hd, hlook, hrun]
  | false =>
    rcases hM callee target htarget with hd' | ⟨D', rfl, hfin⟩
    · rw [hd] at hd'
      cases hd'
    · by_cases hdepth : c.below.size + 1 ≥ maxCallDepth
      · refine .inr ⟨.error .callDepth, c.engine, ?_, .of_error ?_⟩
        · rw [Config.step, hstep]
          simp [Engine.enter, htarget, hd, hdepth]
        · rintro (he | he) <;> cases he
      · obtain ⟨pc', s', hruns, htracks⟩ := h.callsFunction hE hi hns htarget hfin
        refine .inl ⟨0, _, D', pc', s', .one ?_, hruns, htracks⟩
        rw [Config.step, hstep]
        simp [Engine.enter, htarget, hd, hdepth, Draft.entered]

theorem step_leave {caller : Int} (hlies : Lies lines pc (Assembly.code [.leave, .ret]))
    (hsaved : s.stack.read s.fp = some (.frame caller)) :
    step lines pc s = .running (pc + 1) { s with sp := s.fp + 8, fp := caller } := by
  obtain ⟨hline, -⟩ := Lies.cons_iff.1 hlies
  exact step_of_exec hline (by simp only [Ins.exec, hsaved])

theorem step_ret (hlies : Lies lines pc (Assembly.code [.leave, .ret])) :
    step lines (pc + 1) s = execute lines (pc + 1) s .ret := by
  obtain ⟨-, hrest⟩ := Lies.cons_iff.1 hlies
  obtain ⟨hline, -⟩ := Lies.cons_iff.1 hrest
  rw [step, hline]

theorem Tracks.returns_first (h : Tracks M lines D c pc s) (hbelow : c.below = #[])
    (hruns : Runs lines pc s pc' s') (hsame : s.Alike s') (hacc : s'.regs .eax = some n)
    (hlies : Lies lines pc' (Assembly.code [.leave, .ret])) :
    Concludes M lines (.ok n) c.engine pc s := by
  have hwaits := h.waits
  rw [hbelow, ← hsame.stack, ← hsame.fp] at hwaits
  cases hwaits with
  | @nil _ caller saved back =>
    refine Concludes.of_runs ⟨fun v hv => ?_, nofun⟩ hruns
    obtain rfl := Except.ok.inj hv
    refine ⟨2, { s' with sp := s'.fp + 8 + 8, fp := caller }, ?_, hsame.output.trans h.output,
      hsame.data ▸ h.globals⟩
    rw [run, step_leave hlies saved]
    simp only [run, step_ret hlies, execute, back, hacc]

/-- A call returns to the frame that waits for it. -/
theorem Tracks.returns_caller (h : Tracks M lines D c pc s) {frames : Array Frame} {caller : Frame}
    (hbelow : c.below = frames.push caller) (hruns : Runs lines pc s pc' s') (hsame : s.Alike s')
    (hacc : s'.regs .eax = some n) (hlies : Lies lines pc' (Assembly.code [.leave, .ret])) :
    ∃ D' pc'' s'', Runs lines pc s pc'' s'' ∧
      Tracks M lines D' ⟨c.engine, caller.resume n, frames⟩ pc'' s'' := by
  have hwaits := h.waits
  rw [hbelow, ← hsame.stack, ← hsame.fp, Array.toList_push, List.reverse_append,
    List.reverse_singleton, List.singleton_append] at hwaits
  cases hwaits with
  | @cons _ fp' pc₁ k D' _ _ saved back room aligned pending rest =>
    let s₁ : Processor := { s' with sp := s'.fp + 8 + 8, fp := fp' }
    have hret : step lines (pc' + 1) { s' with sp := s'.fp + 8, fp := fp' } = .running pc₁ s₁ := by
      rw [step_ret hlies]
      simp only [execute, back, s₁]
    obtain ⟨pc₂, s₂, hruns₂, hproceeds, hfn, hfp, hsp, hdata, hout, hstack⟩ :=
      (show D'.Pending M lines caller pc₁ k s₁.stack s₁.fp from pending).resume (s := s₁) hacc
    refine ⟨D', pc₂, s₂, hruns.trans (.head (step_leave hlies saved) (.head hret hruns₂)),
      hfn ▸ pending.function, pending.finished, hproceeds, ?_, ?_, ?_, ?_, ?_, h.natives⟩
    · rw [hsp, hfp]
      change s'.fp + 8 + 8 + _ = fp' - _
      omega
    · rw [hfp]
      exact aligned
    · rw [hfp]
      exact rest.congr hstack
    · rw [hdata]
      exact hsame.data ▸ h.globals
    · rw [hout]
      exact hsame.output.trans h.output

/-- The processor follows every step of the machine. -/
theorem Tracks.advances (h : Tracks M lines D c pc s) (hE : Emits M lines) (hM : M.Checked) :
    Advances M lines c pc s := by
  obtain ⟨blk, -, -, -, -, -, hblk, -⟩ := h.proceeds.continues
  have hblk : D.function.blocks[c.top.block]? = some blk := hblk
  cases hid : blk.instrs[c.top.next]? with
  | some id =>
    obtain ⟨i, hi⟩ := h.finished.exists_instr hblk (Array.mem_toList_iff.2 (Array.mem_of_getElem? hid))
    have hholds : Holds D.function c.top.block c.top.next id i := ⟨blk, hblk, hid, hi⟩
    have hstep : c.top.step M c.engine.globals = _ := step_of_holds h.function hholds
    cases hexec : c.top.exec D.function.name c.engine.globals id i with
    | error f =>
      by_cases hd : f.Division
      · exact .inr ⟨_, _, step_of_error (hstep.trans hexec), h.traps hholds hexec hd⟩
      · exact advances_of_error (hstep.trans hexec) hd
    | ok a =>
      rcases exec_cases hexec with ⟨fr, globals, rfl, hfn, hblock, hnext⟩ | ⟨callee, args, ns, rfl, hns, rfl⟩
      · exact h.executes hE hholds hexec hfn hblock hnext
      · exact h.calls hE hM hholds hns (hstep.trans hexec)
  | none =>
    have hend := Array.getElem?_eq_none_iff.1 hid
    have hstep : c.top.step M c.engine.globals = c.top.leave D.function blk c.engine.globals := by
      simp [Frame.step, h.function, hblk, hid]
    rcases h.finished.leaves hE h.function h.proceeds hblk hend c.engine.globals with
      ⟨n, pc', s', hleave, hruns, hsame, hacc, hlies⟩ | ⟨fr, hleave, hgoes⟩ | ⟨f, hleave, hd⟩
    · cases hback : c.below.back? with
      | none =>
        refine .inr ⟨.ok n, c.engine, ?_, ?_⟩
        · rw [Config.step, hstep, hleave]
          simp only [hback]
        · exact h.returns_first (Array.back?_eq_none_iff.1 hback) hruns hsame hacc hlies
      | some caller =>
        obtain ⟨frames, hframes⟩ := Array.back?_eq_some_iff.1 hback
        obtain ⟨D', pc'', s'', hruns, htracks⟩ := h.returns_caller hframes hruns hsame hacc hlies
        refine .inl ⟨0, _, D', pc'', s'', .one ?_, hruns, htracks⟩
        rw [Config.step, hstep, hleave]
        simp only [hback]
        rw [hframes, Array.pop_push]
    · obtain ⟨k, fr', pc', s', hsteps, hfn, hruns, hproceeds, hw, hdata⟩ := hgoes
      refine .inl ⟨k, _, D, pc', s', .head (step_of_proceed (hstep.trans hleave)) (hsteps _ _), hruns,
        hfn ▸ h.function, h.finished, hproceeds, ?_, ?_, ?_, ?_, ?_, h.natives⟩
      · rw [hw.sp, hw.fp, h.sp]
      · rw [hw.fp]
        exact h.aligned
      · rw [hw.fp]
        exact h.waits.congr hw.stack
      · rw [hdata]
        exact h.globals
      · rw [hw.output, h.output]
    · exact advances_of_error (hstep.trans hleave) hd

theorem Machine.Steps.run_of_run {m : Module} {k n : Nat} {c d : Config}
    {r : Except Fault Int32 × Engine} (h : Steps m k c d) (hr : c.run m n = some r) :
    ∃ j, n = k + j ∧ d.run m j = some r := by
  rcases Nat.lt_or_ge n k with hlt | hge
  · have hrun := Config.run_mono hr (Nat.le_of_lt hlt)
    rw [← Nat.add_zero k, h.run_eq 0] at hrun
    cases hrun
  · obtain ⟨j, rfl⟩ := Nat.exists_eq_add_of_le hge
    exact ⟨j, rfl, (h.run_eq j).symm.trans hr⟩

/-- What the machine comes to, the lines come to. -/
theorem Tracks.concludes (hE : Emits M lines) (hM : M.Checked) (h : Tracks M lines D c pc s) {steps : Nat}
    (hrun : c.run M steps = some (r, e)) : Concludes M lines r e pc s := by
  induction steps using Nat.strong_induction_on generalizing D c pc s with
  | _ steps ih =>
    rcases h.advances hE hM with ⟨k, c', D', pc', s', hsteps, hruns, htracks⟩ | ⟨r', e', hstep, hconcludes⟩
    · obtain ⟨j, rfl, hrun'⟩ := hsteps.run_of_run hrun
      exact (ih j (by omega) htracks hrun').of_runs hruns
    · cases steps with
      | zero => cases hrun
      | succ steps =>
        rw [Config.run, hstep] at hrun
        obtain ⟨rfl, rfl⟩ := Prod.mk.inj (Option.some.inj hrun)
        exact hconcludes

/-- A processor that has been called follows the machine from its first frame on. -/
theorem Flow.Draft.Finished.starts (h : D.Finished M) (hE : Emits M lines) {main : FuncId}
    (hmain : M.function? main = some D.function) (hparams : D.head.paramCount = 0)
    (hpc : lines.idxOf? (.symbol D.function.name) = some pc) (hs : Entering lines s)
    (hg : e.globals = #[]) (hn : e.natives = ({} : Engine).mapAll.natives) (ho : s.output = e.output) :
    ∃ pc' s', Runs lines pc s pc' s' ∧
      Tracks M lines D ⟨e.sync M, D.entered main [], #[]⟩ pc' s' := by
  have hfinds : s.Finds [] := by simp [Processor.Finds]
  obtain ⟨pc₀, pc', s', hsymbol, hruns, hproceeds, hfp, hsp, hdata, hout, hsaved, hstack⟩ :=
    h.enters hE hmain hfinds (Nat.le_of_eq hparams)
  obtain rfl : pc = pc₀ := Option.some.inj (hpc.symm.trans hsymbol)
  have haligned := hs.aligned
  have hcells : (e.sync M).globals = M.globals.map (·.init) := by
    simp [Engine.sync, hg]
  refine ⟨pc', s', hruns, hmain, h, hproceeds, hsp, by omega, .nil hsaved ?_, ⟨?_, fun x => ?_⟩,
    hout.trans ho, hn⟩
  · rw [show s'.fp + 8 = s.sp by omega]
    exact Stack.read_congr hs.back fun a ha _ => hstack a ha
  · rw [hcells, Array.size_map]
  · rw [hdata, hs.data, hE.cells_eq, hcells]

theorem Assembly.Shares.globalValue_eq {data : String → Option Int32} (h : Shares M e.globals data)
    (x : String) : data x = e.globalValue M x := by
  have hsync : (e.sync M).globals = e.globals := by
    simp [Engine.sync, h.size]
  rw [h.cell, Engine.globalValue, hsync]

end Steps

section Programs
variable {p : Program} {m : Module} {lines : List Line} {e : Engine} {name : String} {s : Session}

theorem Compiled.emits (h : Compiled p m) : ∃ lines, Emits m lines := by
  obtain ⟨lines, hlines⟩ := listing?_eq_some fun _ _ => h.checked.supplied
  exact ⟨lines, ⟨h.image.tidy.distinct, h.image.tidy.cells, hlines⟩, h.image.tidy⟩

theorem Compiled.main_header (h : Compiled p m) (hp : p.Compiles) {id : FuncId} {f : Function}
    (hf : m.function? id = some f) (hname : f.name = entryPoint) : f.header = entryPrototype := by
  rcases h.functions id f hf with hmain | hroutine | ⟨d, hd, hhead⟩
  · exact hmain
  · rcases hroutine.name with hr | hr
    · exact absurd (hname.symm.trans hr) (by decide)
    · exact absurd (hname.symm.trans hr) (by decide)
  · have hd' : d.name = entryPoint := (congrArg Function.name hhead).symm.trans hname
    exact absurd (hd' ▸ List.mem_map_of_mem hd) hp.notMain

theorem namedByWords_of_compile (hp : AreWords p.identifiers) (hparams : ∀ d ∈ p.functions, d.params.Nodup)
    (hc : (Session.new name e).compile p = (.ok (), s)) : s.module.NamedByWords := by
  obtain ⟨hrun, -, hcompiled, -⟩ := compile_eq_ok hc
  constructor
  · exact fun x hx => hcompiled.isWord_name hp (mem_live.1 hx)
  · exact fun g hg => (neat_compileInto hp hparams hrun).words g.name (List.mem_map_of_mem hg)

/-- The assembly of a program does what the machine does with it. For every target it is the text of the
same lines, and these are read from it if names are words, as in a program that has been parsed. Frames are
the same in words of 32 bits, unless one has too many cells. A processor that is called at the entry point
returns the value that the machine returns, with the same output and the same global cells. Where the
machine finds that a division has no result, the processor has the same output and traps at a division. -/
theorem assembly_refines_machine (he : e.globals = #[]) (hn : e.natives = [])
    (hc : (Session.new name e).compile p = (.ok (), s)) : ∃ lines main pc,
      (∀ t, assemblyText s.module t = .ok (rendered t lines)) ∧
      (AreWords p.identifiers → (∀ d ∈ p.functions, d.params.Nodup) →
        ∀ t, readText? t (rendered t lines) = some lines) ∧
      (∀ id f, s.module.function? id = some f →
        4 * (min f.paramCount 6 + f.placed.countP f.hasResult) + 15 < 2147483648 →
          (Context.ofFunction s.module id f).layout.Fits32) ∧
      s.module.find? entryPoint = some main ∧ lines.idxOf? (.symbol entryPoint) = some pc ∧
      ∀ start, Entering lines start → start.output = e.output →
        ∀ steps r e', s.engine.run steps s.module main [] = some (r, e') →
          (∀ v, r = .ok v → ∃ n final, run lines n pc start = some (.returned v final) ∧
            final.output = e'.output ∧ ∀ x, final.data x = e'.globalValue s.module x) ∧
          (r = .error .divisionByZero ∨ r = .error .divisionOverflow →
            ∃ n final, run lines n pc start = some (.trapped final) ∧ final.output = e'.output) := by
  obtain ⟨-, hcompiles, hcompiled, hengine⟩ := compile_eq_ok hc
  obtain ⟨lines, hE⟩ := hcompiled.emits
  obtain ⟨main, f, hfind, hf, hd, -⟩ := hcompiled.main
  obtain ⟨f', hf', hname⟩ := Module.function?_of_find? hfind
  obtain rfl : f = f' := Option.some.inj (hf.symm.trans hf')
  have hheader := hcompiled.main_header hcompiles hf hname
  rcases hcompiled.checked main f hf with hd' | ⟨D, rfl, hfin⟩
  · rw [hd] at hd'
    cases hd'
  obtain ⟨pc, hpc, -⟩ := hE.function hf hd
  refine ⟨lines, main, pc, assemblyText_eq_rendered hE.listing, fun hp hparams t =>
    hE.readText? t (namedByWords_of_compile hp hparams hc), fun _ _ _ => Layout.fits32_ofFunction, hfind,
    hname ▸ hpc, fun start hstart hout steps r e' hrun => ?_⟩
  have hparams : D.head.paramCount = 0 := congrArg Function.paramCount hheader
  obtain ⟨pc', s', hruns, htracks⟩ := hfin.starts hE hf hparams hpc hstart (e := s.engine)
    (by rw [hengine]; exact he) (by rw [hengine]; simp [Engine.mapAll, Engine.map, hn])
    (by rw [hengine]; exact hout)
  have hconfig : Config.run s.module steps ⟨s.engine.sync s.module, D.entered main [], #[]⟩ =
      some (r, e') := by
    rw [← hrun, Engine.run]
    simp [Engine.enter, hf, hd, Draft.entered]
  have hconcludes := (htracks.concludes hE hcompiled.checked hconfig).of_runs hruns
  refine ⟨fun v hv => ?_, fun hfault => ?_⟩
  · obtain ⟨n, final, hfinal, houtput, hshares⟩ := hconcludes.returns v hv
    exact ⟨n, final, hfinal, houtput, hshares.globalValue_eq⟩
  · rcases hfault with rfl | rfl
    · exact hconcludes.traps _ rfl (.inl rfl)
    · exact hconcludes.traps _ rfl (.inr rfl)

/-- A processor that has just been called and knows nothing else. -/
def called (lines : List Line) : Processor where
  regs _ := none
  flags := none
  sp := 8
  fp := 0
  stack := Stack.write (fun _ => none) 8 (.back none)
  data := cells lines
  output := ""

theorem entering_called (lines : List Line) : Entering lines (called lines) :=
  ⟨Stack.read_write_self _ _ _, rfl, rfl⟩

/-- A function with more parameters than there are registers for them, a recursive one with a condition
of two parts, and at last a division of what they come to. -/
def spreadProgram (divisor : Int32) : Program :=
  [.function ⟨"spread", ["a", "b", "c", "d", "e", "f", "g", "h"],
      [.ret (.binary .add (.var "a") (.binary .mul (.var "g") (.var "h")))], false⟩,
    .function ⟨"sum", ["n"],
      [.branch (.binary .or (.binary .lt (.var "n") (.number 1)) (.binary .gt (.var "n") (.number 9)))
        [.ret (.number 0)] [] [],
        .ret (.binary .add (.var "n") (.call "sum" [.binary .sub (.var "n") (.number 1)]))], false⟩,
    .statement (.assign "total" (.call "spread" [.number 1, .number 2, .number 3, .number 4, .number 5,
      .number 6, .number 7, .call "sum" [.number 3]])),
    .statement (.print [.var "total", .var "unset"]),
    .statement (.ret (.binary .div (.var "total") (.number divisor)))]

theorem assembly_refines_spreadProgram :
    (∃ s lines pc n final, (Session.new "m" {}).compile (spreadProgram 2) = (.ok (), s) ∧
      (∀ t, ∃ text, assemblyText s.module t = .ok text ∧ readText? t text = some lines) ∧
      lines.idxOf? (.symbol entryPoint) = some pc ∧
      run lines n pc (called lines) = some (.returned 21 final) ∧ final.output = "43 0\n" ∧
      final.data "total" = some 43) ∧
    ∃ s lines pc n final, (Session.new "m" {}).compile (spreadProgram 0) = (.ok (), s) ∧
      (∀ t, assemblyText s.module t = .ok (rendered t lines)) ∧
      lines.idxOf? (.symbol entryPoint) = some pc ∧
      run lines n pc (called lines) = some (.trapped final) ∧ final.output = "43 0\n" := by
  have hok (d : Int32) (h : ((Session.new "m" {}).compile (spreadProgram d)).1 = .ok ()) :
      (Session.new "m" {}).compile (spreadProgram d) =
        (.ok (), ((Session.new "m" {}).compile (spreadProgram d)).2) := Prod.ext h rfl
  constructor
  · have hcompile := hok 2 (by decide +kernel)
    obtain ⟨lines, main, pc, htext, hread, -, hfind, hpc, hall⟩ :=
      assembly_refines_machine rfl rfl hcompile
    generalize hs : ((Session.new "m" {}).compile (spreadProgram 2)).2 = s at *
    have hrun : ((s.module.find? entryPoint).bind fun main =>
        (s.engine.run 200 s.module main []).map fun x =>
          (x.1, x.2.output, x.2.globalValue s.module "total")) = some (.ok 21, "43 0\n", some 43) := by
      rw [← hs]
      decide +kernel
    rw [hfind] at hrun
    obtain ⟨⟨r, e'⟩, hrun, hresult⟩ := Option.map_eq_some_iff.1 hrun
    obtain ⟨hr, hrest⟩ := Prod.mk.inj hresult
    obtain ⟨hout, htotal⟩ := Prod.mk.inj hrest
    obtain ⟨hreturns, -⟩ := hall (called lines) (entering_called lines) rfl 200 r e' hrun
    obtain ⟨n, final, hfinal, hprinted, hcells⟩ := hreturns 21 hr
    have hwords : AreWords (spreadProgram 2).identifiers := by
      unfold AreWords
      decide +kernel
    exact ⟨s, lines, pc, n, final, hcompile, fun t => ⟨_, htext t, hread hwords (by decide) t⟩, hpc, hfinal,
      hprinted.trans hout, (hcells "total").trans htotal⟩
  · have hcompile := hok 0 (by decide +kernel)
    obtain ⟨lines, main, pc, htext, -, -, hfind, hpc, hall⟩ := assembly_refines_machine rfl rfl hcompile
    generalize hs : ((Session.new "m" {}).compile (spreadProgram 0)).2 = s at *
    have hrun : ((s.module.find? entryPoint).bind fun main =>
        (s.engine.run 200 s.module main []).map fun x => (x.1, x.2.output)) =
          some (.error .divisionByZero, "43 0\n") := by
      rw [← hs]
      decide +kernel
    rw [hfind] at hrun
    obtain ⟨⟨r, e'⟩, hrun, hresult⟩ := Option.map_eq_some_iff.1 hrun
    obtain ⟨hr, hout⟩ := Prod.mk.inj hresult
    obtain ⟨-, htraps⟩ := hall (called lines) (entering_called lines) rfl 200 r e' hrun
    obtain ⟨n, final, hfinal, hprinted⟩ := htraps (.inl hr)
    exact ⟨s, lines, pc, n, final, hcompile, htext, hpc, hfinal, hprinted.trans hout⟩

end Programs
end IntLang
