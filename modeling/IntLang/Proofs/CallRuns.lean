import IntLang.Proofs.ArgumentPassing

/-! What the code of a call does to a frame of the machine. The arguments that it passes are those of the
machine, and the entry code of the callee makes a frame of them. A support routine comes to what the machine
gets from it. -/
namespace IntLang
open IntLang.Flow IntLang.Machine IntLang.Code IntLang.Assembly

namespace Flow.Draft
variable {D : Draft} {M : Module} {f : FuncId} {fr : Frame} {s : Processor} {ps : List Place}
  {ns : List Int32}

/-- A place holds `n` as long as the frame is on the stack. -/
def Shows (D : Draft) (fr : Frame) (p : Place) (n : Int32) : Prop :=
  ∀ s : Processor, D.Mirrors fr s.stack s.fp → s.read p = some n

theorem Finished.shows (h : D.Finished M) {args : List Operand} (hargs : ∀ v ∈ args, D.Value v)
    (hns : fr.ints args = .ok ns) : ∃ ps,
      List.Forall₂ (fun v p => (Context.ofFunction M f D.function).place? v = some p) args ps ∧
      List.Forall₂ (D.Shows fr) ps ns := by
  induction args generalizing ns with
  | nil =>
    cases hns
    exact ⟨[], .nil, .nil⟩
  | cons v vs ih =>
    obtain ⟨n, hn, hns⟩ := except_bind_eq_ok.1 hns
    obtain ⟨ns', hns', heq⟩ := except_bind_eq_ok.1 hns
    cases heq
    have hv := hargs v List.mem_cons_self
    obtain ⟨p, hp⟩ := Value.place? h.toWired hv
    obtain ⟨ps, hps, hshow⟩ := ih (fun u hu => hargs u (List.mem_cons_of_mem v hu)) hns'
    exact ⟨p :: ps, .cons hp hps, .cons (fun s hs => hs.read hp hv.ne_param hn) hshow⟩

theorem Mirrors.exec_passing (h : D.Mirrors fr s.stack s.fp) (hsp : s.sp = s.fp - D.layout.size)
    (hps : List.Forall₂ (D.Shows fr) ps ns) (target : Function) :
    ∃ s', execAll (Context.passing target ps) s = some s' ∧ Passed ns s s' ∧
      (target.variadic = true → s'.regs .eax = some 0) := by
  refine Assembly.exec_passing (hps.imp fun p n hp s' hs' => hp s' ?_) target
  rw [hs'.fp]
  exact h.congr fun a ha => hs'.stack a (by omega)

end Flow.Draft

namespace Assembly
variable {ns : List Int32} {s s' : Processor} {r : Native} {n : Int32} {text : String}

theorem Passed.mapM_arg (h : Passed ns s s') {k : Nat} (hk : k ≤ ns.length) :
    (List.range k).mapM s'.arg = some (ns.take k) := by
  apply mapM_of_forall₂
  rw [List.forall₂_iff_get]
  refine ⟨by simp [hk], fun i h₁ h₂ => ?_⟩
  rw [List.length_range] at h₁
  simpa using h.args i ns[i] (List.getElem?_eq_getElem (by omega))

/-- A routine comes to the same with the arguments that it reads as with all of them. -/
theorem Passed.argsOf (h : Passed ns s s')
    (hcount : r = .print → ∃ vs, ns = Int32.ofNat vs.length :: vs) (hrun : r.run ns = .ok (n, text)) :
    ∃ k ≤ ns.length, s'.argsOf r = some (ns.take k) ∧ r.run (ns.take k) = .ok (n, text) := by
  cases r with
  | print =>
    obtain ⟨vs, rfl⟩ := hcount rfl
    have hle : (Int32.ofNat vs.length).toInt.toNat ≤ vs.length := by
      rw [Int32.toInt_ofNat', Int.bmod_def, Int32.size]
      omega
    generalize Int32.ofNat vs.length = count at *
    have hk : count.toInt.toNat + 1 ≤ (count :: vs).length := by
      rw [List.length_cons]
      omega
    refine ⟨_, hk, ?_, ?_⟩
    · have hfirst : s'.arg 0 = some count := h.args 0 _ rfl
      rw [← h.mapM_arg hk, Processor.argsOf, hfirst]
      rfl
    · rw [← hrun]
      simp [Native.run, printedLine, shownValues, List.take_take]
  | power =>
    rcases ns with _ | ⟨base, _ | ⟨exponent, _ | ⟨other, ns⟩⟩⟩
    · cases hrun
    · cases hrun
    · exact ⟨2, Nat.le_refl 2, h.mapM_arg (Nat.le_refl 2), hrun⟩
    · cases hrun

theorem Passed.callRoutine (h : Passed ns s s') (hsp : s.sp % 16 = 0)
    (hcount : r = .print → s'.regs .eax = some 0 ∧ ∃ vs, ns = Int32.ofNat vs.length :: vs)
    (hrun : r.run ns = .ok (n, text)) : ∃ s'', s'.callRoutine r = some s'' ∧ s''.regs .eax = some n ∧
      s''.fp = s.fp ∧ s''.sp = s'.sp ∧ s''.data = s.data ∧ s''.output = s.output ++ text ∧
      ∀ a, s.sp ≤ a → s''.stack a = s.stack a := by
  obtain ⟨k, hk, hargs, hrun'⟩ := h.argsOf (fun hr => (hcount hr).2) hrun
  have hready : s'.ready r = true := by
    have haligned : s'.sp % 16 = 0 := by
      have hroom := Context.room_mod ns.length
      rw [h.sp]
      omega
    cases r with
    | print => simp [Processor.ready, haligned, (hcount rfl).1]
    | power => simp [Processor.ready, haligned]
  simp only [Processor.callRoutine, hready, ↓reduceIte, hargs, hrun', Option.pure_def,
    Option.bind_eq_bind, Option.bind_some]
  refine ⟨_, rfl, rfl, h.fp, rfl, h.data, by rw [← h.output], fun a ha => ?_⟩
  have hsp' := h.sp
  rw [Context.room] at hsp'
  rw [← h.stack a ha]
  apply if_pos
  rw [List.length_take]
  omega

end Assembly

namespace Flow.Draft
variable {D : Draft} {M : Module} {f : FuncId} {fr : Frame} {s : Processor} {ns : List Int32}

/-- A call has come back, and its result is noted. -/
theorem Mirrors.exec_back (h : D.Mirrors fr s.stack s.fp) {n : Int32} (hacc : s.regs .eax = some n)
    {id : InstrId} {cell : Nat} (hid : D.layout.Gives id cell) (k : Nat) :
    ∃ s', execAll (Context.cleanup k ++ [Ins.store .eax (.frame (Layout.offset cell))]) s = some s' ∧
      D.Mirrors { fr with results := fr.results.setIfInBounds id (.int n) } s'.stack s'.fp ∧
      s'.fp = s.fp ∧ s'.sp = s.sp + Context.room k ∧ s'.data = s.data ∧ s'.output = s.output ∧
      ∀ a, s.fp ≤ a → s'.stack a = s.stack a := by
  obtain ⟨s₁, hexec, hregs, hstack, hfp, hsp, hdata, hout⟩ := exec_cleanup s k
  refine ⟨{ s₁ with stack := s₁.stack.write (s₁.fp + Layout.offset cell) (.word n) }, ?_, ?_, hfp, hsp,
    hdata, hout, fun a ha => ?_⟩
  · rw [execAll_append, hexec, Option.bind_some]
    simp [execAll, Ins.exec, hregs, hacc, Processor.write]
  · rw [← hstack, ← hfp] at h
    exact h.give hid rfl
  · have hle := (D.sound_layout.le_offset hid).2
    rw [← hstack]
    apply if_neg
    rw [Datum.size]
    omega

end Flow.Draft

namespace Flow.Draft
variable {D : Draft} {s : Processor} {ns : List Int32}

def entered (D : Draft) (f : FuncId) (ns : List Int32) : Frame :=
  { function := f, args := ns, results := Array.replicate D.function.instrs.size .undef }

/-- A frame that has just been made holds its parameters and nothing else. -/
theorem mirrors_fresh (D : Draft) (f : FuncId) {m : Stack} {fp : Int}
    (h : ∀ i n, i < D.head.paramCount → ns[i]? = some n →
      m.word? (fp + D.layout.paramOffset i) = some n) :
    D.Mirrors (D.entered f ns) m fp := by
  have hundef {id : Nat} {x : Slot}
      (hx : (Array.replicate D.function.instrs.size Slot.undef)[id]? = some x) : x = .undef := by
    rw [Array.getElem?_replicate] at hx
    split at hx
    · exact (Option.some.inj hx).symm
    · cases hx
  refine ⟨h, fun id cell n _ hn => ?_, fun id j hj => ?_, fun id g hg => ?_, by simp [entered]⟩
  · rcases hn with ⟨x, hx, hn⟩ | ⟨j, hj, -⟩
    · rw [hundef hx] at hn
      cases hn
    · cases hundef hj
  · cases hundef hj
  · cases hundef hg

/-- The entry code of a function makes its frame. -/
theorem exec_prologue (D : Draft) (M : Module) (f : FuncId) (hf : s.Finds ns)
    (hle : D.head.paramCount ≤ ns.length) :
    ∃ s', execAll (Context.ofFunction M f D.function).prologue s = some s' ∧
      s'.fp = s.sp - 8 ∧ s'.sp = s'.fp - D.layout.size ∧ s'.data = s.data ∧ s'.output = s.output ∧
      s'.stack.read s'.fp = some (.frame s.fp) ∧ (∀ a, s.sp ≤ a → s'.stack a = s.stack a) ∧
      D.Mirrors (D.entered f ns) s'.stack s'.fp := by
  have hparams : D.layout.params = min D.head.paramCount argRegs.length :=
    Layout.params_ofFunction D.function
  obtain ⟨s', hexec, hfp, hsp, hdata, hout, hsaved, hstack, hargs⟩ :=
    Assembly.exec_prologue M f D.function (s := s) fun i (hi : i < D.layout.params) =>
      ⟨_, hf i _ (List.getElem?_eq_getElem (by omega))⟩
  exact ⟨s', hexec, hfp, hsp, hdata, hout, hsaved, hstack,
    D.mirrors_fresh f fun i n hi hn => hargs i n hi (hf i n hn)⟩

end Flow.Draft
end IntLang
