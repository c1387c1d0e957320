import IntLang.Proofs.Assembler
import IntLang.Proofs.FrameCells
import IntLang.Proofs.StackDepth

/-! Callers and callees of a listing agree. A call leaves its arguments where the entry code of any function
takes its parameters from, the stack is aligned at every call if it was aligned for the function that
makes it, and what a call has put on the stack is taken off again. -/
namespace IntLang.Assembly
open IntLang.Flow

namespace Context
variable {m : Module} {id : FuncId} {f : Function}

/-- The entry code finds the arguments where a call has left them when it pushes the return address, and
every parameter is then in the place that is read for it, apart from all results. Those that were passed
on the stack are still there. -/
def Receives (c : Context) : Prop :=
  ∀ (s : Processor) (back : Option Nat), (∀ i < c.layout.params, ∃ n, s.arg i = some n) →
    ∃ e, execAll c.prologue (s.push (.back back)) = some e ∧ e.fp = s.sp - 16 ∧
      e.sp = e.fp - c.layout.size ∧ (∀ a, s.sp ≤ a → e.stack a = s.stack a) ∧
      ∀ i < c.function.paramCount, ∃ offset, c.place? (.param i) = some (.frame offset) ∧
        (∀ n, s.arg i = some n → e.read (.frame offset) = some n) ∧
        (argRegs.length ≤ i → offset = (16 + 8 * (i - argRegs.length) : Nat)) ∧
        ∀ k r, c.layout.result? k = some (.frame r) → r + 4 ≤ offset

theorem receives (m : Module) (id : FuncId) (f : Function) : (ofFunction m id f).Receives := by
  intro s back hregs
  have hsound : (ofFunction m id f).layout.Sound := Layout.sound_ofFunction f
  have hparams : (ofFunction m id f).layout.params = min f.paramCount argRegs.length :=
    Layout.params_ofFunction f
  obtain ⟨e, hexec, hfp, hsp, -, -, -, hstack, hargs⟩ := exec_prologue m id f (s := s.push (.back back))
    fun i hi => (hregs i hi).imp fun n hn => Processor.found_push hn _
  have hpush : (s.push (.back back)).sp = s.sp - 8 := rfl
  refine ⟨e, hexec, by omega, hsp, fun a ha => ?_, fun i hi => ?_⟩
  · rw [hstack a (by omega), Processor.stack_push ha]
  · refine ⟨(ofFunction m id f).layout.paramOffset i, congrArg some (Layout.param_eq _ i), fun n hn => ?_,
      fun hle => ?_, fun k r hr => ?_⟩
    · exact hargs i n hi (Processor.found_push hn _)
    · exact if_neg (by omega)
    · obtain ⟨cell, hcell, he⟩ := Layout.result?_eq_some.1 hr
      obtain rfl := Place.frame.inj he
      exact hsound.paramOffset_disjoint hcell i

/-- Run with nothing but the frame on the stack, the code before a call leaves every argument where a callee
looks for it, and the code after it takes off the stack what was put there. -/
def Hands (c : Context) (target : Function) (ps : List Place) : Prop :=
  ∀ (s : Processor) (ns : List Int32), s.sp = s.fp - c.layout.size →
    List.Forall₂ (fun p n => s.read p = some n) ps ns →
    ∃ s', execAll (passing target ps) s = some s' ∧ Passed ns s s' ∧
      ∀ s₁ : Processor, s₁.sp = s'.sp →
        ∃ s₂, execAll (cleanup ps.length) s₁ = some s₂ ∧ s₂.sp = s.sp

theorem hands {args : List Operand} {ps : List Place}
    (h : List.Forall₂ (fun v p => (ofFunction m id f).place? v = some p) args ps) (target : Function) :
    (ofFunction m id f).Hands target ps := by
  intro s ns hsp hns
  have hplaces : ∀ p ∈ ps, ∃ v, (ofFunction m id f).place? v = some p := by
    intro p hp
    obtain ⟨v, -, hv⟩ := exists_of_forall₂ h hp
    exact ⟨v, hv⟩
  have hshows : List.Forall₂ s.Shows ps ns :=
    ((List.forall₂_and_left _ _).2 ⟨hplaces, hns⟩).imp fun p n hp => by
      obtain ⟨⟨v, hv⟩, hread⟩ := hp
      exact shows_of_place? hv hsp hread
  obtain ⟨s', hexec, hpassed, -⟩ := exec_passing hshows target
  refine ⟨s', hexec, hpassed, fun s₁ hs₁ => ?_⟩
  obtain ⟨s₂, hexec₂, -, -, -, hsp₂, -⟩ := exec_cleanup s₁ ps.length
  refine ⟨s₂, hexec₂, ?_⟩
  rw [hsp₂, hs₁, hpassed.sp, hns.length_eq]
  omega

end Context

theorem forall₂_split {α β : Type} {R : α → β → Prop} {xs : List α} {ys : List β}
    (h : List.Forall₂ R xs ys) {j : Nat} {x : α} (hj : xs[j]? = some x) :
    ∃ before y after, ys = before ++ y :: after ∧ List.Forall₂ R (xs.take j) before ∧ R x y := by
  induction h generalizing j with
  | nil => cases hj
  | @cons a b xs ys hab _ ih =>
    cases j with
    | zero =>
      obtain rfl := Option.some.inj hj
      exact ⟨[], b, ys, rfl, .nil, hab⟩
    | succ j =>
      obtain ⟨before, y, after, rfl, hbefore, hy⟩ := ih hj
      exact ⟨b :: before, y, after, rfl, .cons hab hbefore, hy⟩

/-- Function `id`, whose symbol is on line `start`, keeps to the convention, both when it is called and
when it calls. -/
structure Convention (m : Module) (lines : List Line) (id : FuncId) (f : Function) (start : Nat) : Prop where
  entry : Lies lines (start + 1)
    (code (Context.ofFunction m id f).prologue ++ [.ok (.label (.block id 0))])
  receives : (Context.ofFunction m id f).Receives
  calls : ∀ b pc j k callee args, lines[pc]? = some (.label (.block id b)) →
    ((Context.ofFunction m id f).instrsOf b)[j]? = some (k, .call callee args) →
    ∃ iss target ps r, m.function? callee = some target ∧
      List.Forall₂ (fun x is => (Context.ofFunction m id f).Written x.1 x.2 is)
        (((Context.ofFunction m id f).instrsOf b).take j) iss ∧
      List.Forall₂ (fun v p => (Context.ofFunction m id f).place? v = some p) args ps ∧
      Lies lines (pc + 1 + iss.flatten.length) (code (Context.passing target ps ++
        .call target.name target.isDeclaration :: (Context.cleanup ps.length ++ [.store .eax r]))) ∧
      (Context.ofFunction m id f).Hands target ps ∧
      ∀ s₀ s, Activation lines start s₀ (pc + 1 + iss.flatten.length) s →
        s.sp = s.fp - (Context.ofFunction m id f).layout.size
  aligned : ∀ s₀ s pc x foreign, s₀.sp % 16 = 8 → Activation lines start s₀ pc s →
    lines[pc]? = some (.ins (.call x foreign)) → s.sp % 16 = 0
  restored : ∀ s₀ s pc, Activation lines start s₀ pc s → lines[pc]? = some (.ins .ret) → s.sp = s₀.sp

section Listings
variable {m : Module} {lines : List Line} {id : FuncId} {f : Function}

theorem Listed.convention (h : Listed m lines) (hf : m.function? id = some f) (hd : f.isDeclaration = false) :
    ∃ start, lines.idxOf? (.symbol f.name) = some start ∧ Convention m lines id f start := by
  obtain ⟨start, own, hstart, hbody⟩ := h.body hf hd
  obtain ⟨start', hstart', hentry⟩ := h.lies_entry hf hd
  obtain rfl := Option.some.inj (hstart.symm.trans hstart')
  refine ⟨start, hstart, (Lies.cons_iff.1 hentry).2, Context.receives m id f, ?_, ?_, ?_⟩
  · intro b pc j k callee args hpc hj
    obtain ⟨t, iss, last, n, n', next, rest, -, hiss, -, hdrop, -⟩ := h.block_lines hf hpc
    obtain ⟨before, is, after, rfl, hbefore, hwritten⟩ := forall₂_split hiss hj
    rw [List.flatten_append, List.flatten_cons, List.map_append, List.map_append, List.append_assoc] at hdrop
    have hlies : Lies lines (pc + 1 + before.flatten.length) (code is) := by
      rw [Lies, ← List.drop_drop, hdrop, List.drop_left' (List.length_map ..), code_eq_map,
        List.append_assoc, List.map_append]
      exact List.prefix_append _ _
    cases hwritten with
    | @call callee args target ps r hfunction hplaces hresult =>
      exact ⟨before, target, ps, r, hfunction, hbefore, hplaces, hlies, Context.hands hplaces target,
        fun s₀ s ha => hbody.sp_eq (Layout.size_mod _) hpc hbefore hdrop ha⟩
  · intro s₀ s pc x foreign hs ha hl
    exact hbody.aligned_call ha hs hl
  · intro s₀ s pc ha hl
    exact hbody.sp_ret ha hl

end Listings

/-- In the lines that are read from the text of a module every function keeps to the convention. Its frame is
the same in words of 32 bits, unless it has too many cells. -/
theorem assemblyText_convention {m : Module} {t : Target} {text : String} (hmade : m.Made)
    (htext : assemblyText m t = .ok text) : ∃ lines, text = rendered t lines ∧
      (m.NamedByWords → readText? t text = some lines) ∧
      ∀ id f, m.function? id = some f → f.isDeclaration = false →
        (4 * (min f.paramCount 6 + f.placed.countP f.hasResult) + 15 < 2147483648 →
          (Context.ofFunction m id f).layout.Fits32) ∧
        ∃ start, lines.idxOf? (.symbol f.name) = some start ∧ Convention m lines id f start := by
  obtain ⟨lines, hlines, rfl⟩ := rendered_of_assemblyText htext
  have h : Listed m lines := ⟨hmade.distinct, hmade.nodup_cells, hlines⟩
  exact ⟨lines, rfl, h.readText? t, fun id f hf hd => ⟨Layout.fits32_ofFunction, h.convention hf hd⟩⟩

def rotateFunction : Function where
  name := "rotate"
  paramCount := 9
  linkage := .external
  blocks := #[{ name := "entry", instrs := #[0], terminator := some (.ret (.instr 0)) }]
  instrs := #[.call 0 [.param 8, .param 0, .param 1, .param 2, .param 3, .param 4, .param 5, .param 6,
    .param 7]]

def rotateEdits : List Edit :=
  [.add { name := "rotate", paramCount := 9, linkage := .external },
    .build 0 none 0 (.block "entry"),
    .build 0 (some 0) 0 (.call 0 [.param 8, .param 0, .param 1, .param 2, .param 3, .param 4, .param 5,
      .param 6, .param 7]),
    .build 0 (some 0) 0 (.ret (.instr 0))]

def rotateModule : Module :=
  (({ name := "rotate" } : Module).edits rotateEdits).2

def rotatePlaces : List Place :=
  [.frame 32, .frame (-4), .frame (-8), .frame (-12), .frame (-16), .frame (-20), .frame (-24), .frame 16,
    .frame 24]

theorem assemblyText_convention_rotateModule :
    ∃ text lines start, assemblyText rotateModule .linux = .ok text ∧ readText? .linux text = some lines ∧
      Convention rotateModule lines 0 rotateFunction start ∧
      ∀ s n, s.sp = s.fp - 32 → List.Forall₂ (fun p n => s.read p = some n) rotatePlaces
          [n, 1, 2, 3, 4, 5, 6, 7, 8] →
        ∃ s', execAll (Context.passing rotateFunction rotatePlaces) s = some s' ∧
          s'.regs .edi = some n ∧ s'.sp = s.sp - 32 ∧ s'.stack.word? (s'.sp + 16) = some 8 := by
  obtain ⟨text, hemit⟩ := assemblyText_of_complete (m := rotateModule) (by decide +kernel) .linux
  obtain ⟨lines, -, hread, hlines⟩ := assemblyText_convention (m := rotateModule) ⟨_, _, rfl⟩ hemit
  have hf : rotateModule.function? 0 = some rotateFunction := by decide +kernel
  obtain ⟨-, start, -, hstart⟩ := hlines 0 rotateFunction hf rfl
  refine ⟨text, lines, start, hemit, hread ⟨by decide +kernel, by decide +kernel⟩, hstart,
    fun s n hsp hreads => ?_⟩
  obtain ⟨-, hentry⟩ := Lies.append_iff.1 hstart.entry
  obtain ⟨iss, target, ps, r, htarget, -, hplaces, -, hhands, -⟩ :=
    hstart.calls 0 _ 0 0 0 _ (Lies.cons_iff.1 hentry).1 rfl
  obtain rfl := Option.some.inj (hf.symm.trans htarget)
  obtain rfl : ps = rotatePlaces :=
    Option.some.inj ((mapM_of_forall₂ hplaces).symm.trans (by decide +kernel))
  obtain ⟨s', hexec, hpassed, -⟩ := hhands s _ hsp hreads
  have hroom : (Context.room 9 : Int) = 32 := by decide
  exact ⟨s', hexec, hpassed.args 0 n rfl, hroom ▸ hpassed.sp, hpassed.args 8 8 rfl⟩

end IntLang.Assembly
