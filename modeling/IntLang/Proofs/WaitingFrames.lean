import IntLang.Proofs.BlockRuns

/-! Frames that wait for a call. Each one lies above the frame it waits for, which has kept its frame
pointer and the line it goes on at. The code on that line notes the result and goes on with the frame. -/
namespace IntLang
open IntLang.Flow IntLang.Machine IntLang.Code IntLang.Assembly

namespace Flow.Draft
variable {D : Draft} {M : Module} {lines : List Line} {fr : Frame} {pc k : Nat} {m m' : Stack} {fp : Int}
  {s : Processor} {n : Int32}

theorem Proceeds.congr (h : D.Proceeds M lines fr pc m fp)
    (hm : ∀ a, fp - D.layout.size ≤ a → m' a = m a) : D.Proceeds M lines fr pc m' fp :=
  ⟨h.reachable, h.continues, h.settled, h.mirrors.congr hm⟩

/-- The frame waits for a call with `k` arguments that comes back to line `pc`. -/
structure Pending (D : Draft) (M : Module) (lines : List Line) (fr : Frame) (pc k : Nat) (m : Stack)
    (fp : Int) : Prop where
  function : M.function? fr.function = some D.function
  finished : D.Finished M
  noted : ∃ id cell is, fr.pending = some id ∧ D.layout.Gives id cell ∧
    is = Context.cleanup k ++ [.store .eax (.frame (Layout.offset cell))] ∧
    Lies lines pc (Assembly.code is) ∧ D.Proceeds M lines fr (pc + is.length) m fp

theorem Pending.congr (h : D.Pending M lines fr pc k m fp)
    (hm : ∀ a, fp - D.layout.size ≤ a → m' a = m a) : D.Pending M lines fr pc k m' fp := by
  obtain ⟨id, cell, is, hid, hcell, his, hlies, hp⟩ := h.noted
  exact ⟨h.function, h.finished, id, cell, is, hid, hcell, his, hlies, hp.congr hm⟩

/-- The call has come back, and the frame goes on with its result. -/
theorem Pending.resume (h : D.Pending M lines fr pc k s.stack s.fp) (hacc : s.regs .eax = some n) :
    ∃ pc' s', Runs lines pc s pc' s' ∧ D.Proceeds M lines (fr.resume n) pc' s'.stack s'.fp ∧
      (fr.resume n).function = fr.function ∧ s'.fp = s.fp ∧ s'.sp = s.sp + Context.room k ∧
      s'.data = s.data ∧ s'.output = s.output ∧ ∀ a, s.fp ≤ a → s'.stack a = s.stack a := by
  obtain ⟨id, cell, is, hid, hcell, rfl, hlies, hp⟩ := h.noted
  obtain ⟨s', hexec, hm, hfp, hsp, hdata, hout, hstack⟩ := hp.mirrors.exec_back hacc hcell k
  have hresume : fr.resume n =
      { fr with pending := none, results := fr.results.setIfInBounds id (.int n) } := by
    rw [Frame.resume, hid]
  rw [hresume]
  exact ⟨_, s', .of_execAll hlies hexec, ⟨hp.reachable, hp.continues, hp.settled,
    hm.move rfl rfl rfl (fun _ _ hb => hb) hm.cells⟩, rfl, hfp, hsp, hdata, hout, hstack⟩

end Flow.Draft

/-- The frames that wait lie above the frame pointer `fp`, the latest first. Nobody waits for the value of
the first call but whoever made it. -/
inductive Waits (M : Module) (lines : List Line) (m : Stack) : Int → List Frame → Prop where
  | nil {fp caller : Int} (saved : m.read fp = some (.frame caller))
      (back : m.read (fp + 8) = some (.back none)) : Waits M lines m fp []
  | cons {fp fp' : Int} {pc k : Nat} {D : Draft} {fr : Frame} {frames : List Frame}
      (saved : m.read fp = some (.frame fp')) (back : m.read (fp + 8) = some (.back (some pc)))
      (room : fp + 16 + Context.room k = fp' - D.layout.size) (aligned : fp' % 16 = 0)
      (pending : D.Pending M lines fr pc k m fp') (rest : Waits M lines m fp' frames) :
      Waits M lines m fp (fr :: frames)

/-- Only the stack from the frame pointer upwards matters. -/
theorem Waits.congr {M : Module} {lines : List Line} {m m' : Stack} {fp : Int} {frames : List Frame}
    (h : Waits M lines m fp frames) (hm : ∀ a, fp ≤ a → m' a = m a) : Waits M lines m' fp frames := by
  induction h with
  | nil saved back =>
    exact .nil (Stack.read_congr saved fun a ha _ => hm a ha)
      (Stack.read_congr back fun a ha _ => hm a (by omega))
  | cons saved back room aligned pending rest ih =>
    exact .cons (Stack.read_congr saved fun a ha _ => hm a ha)
      (Stack.read_congr back fun a ha _ => hm a (by omega)) room aligned
      (pending.congr fun a ha => hm a (by omega)) (ih fun a ha => hm a (by omega))

namespace Flow.Draft
variable {D : Draft} {M : Module} {lines : List Line} {fr : Frame} {pc : Nat} {s : Processor}
  {ns : List Int32} {id : InstrId} {callee : FuncId} {args : List Operand}

theorem length_of_ints : ∀ {args : List Operand} {ns : List Int32}, fr.ints args = .ok ns →
    ns.length = args.length
  | [], _, h => by
    cases h
    rfl
  | v :: vs, _, h => by
    obtain ⟨n, -, h⟩ := except_bind_eq_ok.1 h
    obtain ⟨ns, hns, h⟩ := except_bind_eq_ok.1 h
    cases h
    rw [List.length_cons, List.length_cons, length_of_ints hns]

structure Ready (M : Module) (lines : List Line) (s : Processor) (callee : FuncId) (ns : List Int32)
    (target : Function) (pc : Nat) (s' : Processor) : Prop where
  function : M.function? callee = some target
  takes : target.paramCount ≤ ns.length
  counted : target.variadic = true → s'.regs .eax = some 0 ∧ ∃ vs, ns = Int32.ofNat vs.length :: vs
  passed : Passed ns s s'
  line : lines[pc]? = some (.ins (.call target.name target.isDeclaration))

theorem Finished.fits_call (h : D.Finished M) {b k : Nat}
    (hi : Holds D.function b k id (.call callee args)) :
    Takes M callee args.length ∧ Counted M callee args ∧ (∀ v ∈ args, D.Value v) ∧
      (b = 0 → 2 * D.slots.length ≤ k) := by
  rcases h.position hi with ⟨-, _, _, hno, -⟩ | ⟨-, _, _, _, hno, -⟩ | ⟨hfit, hpast⟩ | ⟨-, -, hjoins⟩
  · cases hno
  · cases hno
  · exact ⟨hfit.1, hfit.2.1, hfit.2.2, hpast⟩
  · exact hjoins.isPhi.elim

/-- The code before a call passes the arguments, and the frame waits from then on. -/
theorem Proceeds.calls (hp : D.Proceeds M lines fr pc s.stack s.fp) (h : D.Finished M)
    (hf : M.function? fr.function = some D.function)
    (hi : Holds D.function fr.block fr.next id (.call callee args)) (hns : fr.ints args = .ok ns)
    (hsp : s.sp = s.fp - D.layout.size) : ∃ target pc' s', Ready M lines s callee ns target pc' s' ∧
      Runs lines pc s pc' s' ∧
      D.Pending M lines { fr.advance with pending := some id } (pc' + 1) ns.length s.stack s.fp := by
  obtain ⟨⟨target, htarget, htakes⟩, ⟨target', htarget', hcounted⟩, hvalues, hpast⟩ := h.fits_call hi
  obtain rfl : target = target' := Option.some.inj (htarget.symm.trans htarget')
  obtain ⟨ps, hplaces, hshows⟩ := h.shows hvalues hns (f := fr.function)
  have hlength := length_of_ints hns
  have hmem := h.getElem?_instrsOf hi (f := fr.function)
  obtain ⟨d, hd⟩ := (h.supplied fr.function).results _ _ (List.mem_of_getElem? hmem) rfl
  obtain ⟨cell, hcell, rfl⟩ := Layout.result?_eq_some.1 hd
  have hcode : (Context.ofFunction M fr.function D.function).instr id (.call callee args) =
      some (Assembly.code (Context.passing target ps ++ (Ins.call target.name target.isDeclaration ::
        (Context.cleanup ps.length ++ [Ins.store .eax (.frame (Layout.offset cell))])))) := by
    rw [← Context.call_code hplaces target]
    simp only [Context.instr, hd]
    rw [show (Context.ofFunction M fr.function D.function).module.function? callee = some target from htarget]
    rfl
  obtain ⟨s', hexec, hpassed, hacc⟩ := hp.mirrors.exec_passing hsp hshows target
  obtain ⟨hlies, hnext⟩ := hp.continues.next hmem hcode
  rw [Assembly.code_append, Lies.append_iff, Assembly.code, List.length_map] at hlies
  obtain ⟨hpassing, hcall⟩ := hlies
  obtain ⟨hline, hafter⟩ := Lies.cons_iff.1 hcall
  rw [hshows.length_eq] at hafter hnext
  rw [List.length_append, List.length_cons, ← Nat.add_assoc, ← Nat.add_assoc,
    Nat.add_right_comm (pc + _)] at hnext
  have hadvance := hp.mirrors.advance hpast
  refine ⟨target, _, s', ⟨htarget, by omega, fun hv => ⟨hacc hv, ?_⟩, hpassed, hline⟩,
    .of_execAll hpassing hexec, hf, h, id, cell, _, rfl, hcell, rfl, hafter,
    ⟨hp.reachable, hnext, fun _ _ hi' => ?_, hadvance.move rfl rfl rfl (fun _ _ hb => hb) hadvance.cells⟩⟩
  · obtain ⟨vs, rfl⟩ := hcounted hv
    obtain ⟨n, hn, hrest⟩ := except_bind_eq_ok.1 hns
    obtain ⟨ns', hns', heq⟩ := except_bind_eq_ok.1 hrest
    cases hn
    cases heq
    exact ⟨ns', by rw [length_of_ints hns']⟩
  · rcases h.isPhi_cases hi' with hno | ⟨-, h0, -⟩
    · exact hno
    · cases h0

/-- A function is entered: its entry code makes the frame, and control goes on in the entry block. -/
theorem Finished.enters (h : D.Finished M) (hE : Emits M lines) {f : FuncId}
    (hf : M.function? f = some D.function) (hs : s.Finds ns) (hle : D.head.paramCount ≤ ns.length) :
    ∃ pc pc' s', lines.idxOf? (.symbol D.function.name) = some pc ∧ Runs lines pc s pc' s' ∧
      D.Proceeds M lines (D.entered f ns) pc' s'.stack s'.fp ∧
      s'.fp = s.sp - 8 ∧ s'.sp = s'.fp - D.layout.size ∧ s'.data = s.data ∧ s'.output = s.output ∧
      s'.stack.read s'.fp = some (.frame s.fp) ∧ ∀ a, s.sp ≤ a → s'.stack a = s.stack a := by
  obtain ⟨pc, hsymbol, hline, hlies, pc', rfl, hlabel, hcont⟩ := hE.function hf h.not_isDeclaration
  obtain ⟨s', hexec, hfp, hsp, hdata, hout, hsaved, hstack, hm⟩ := D.exec_prologue M f hs hle
  have hruns : Runs lines pc s (pc + 1 + (Context.ofFunction M f D.function).prologue.length + 1) s' :=
    .head (by rw [step, hline]) ((Runs.of_execAll hlies hexec).trans
      (.head (by rw [step, hlabel]) (.refl _ _)))
  refine ⟨pc, _, s', hsymbol, hruns, ⟨Function.reachable_entry h.not_isDeclaration, hcont,
    fun _ _ hi => ?_, hm⟩, hfp, hsp, hdata, hout, hsaved, hstack⟩
  rcases h.isPhi_cases hi with hno | ⟨hpos, -⟩
  · exact hno
  · cases hpos

end Flow.Draft
end IntLang
