import IntLang.Proofs.Assembler

/-! What verification is good for. In a verified module the machine never finds the graph incomplete, and
the emitter finds an end for every block. In the text that it writes, control comes from a block to its
successors alone, past a copy for each phi of the successor. -/
namespace IntLang.Assembly
open IntLang.Flow IntLang.Machine IntLang.Code

section Failures
variable {m : Module} {c : Context} {ls : Listing} {e : EmitError}

theorem error_notMem_code (is : List Ins) : .error e ∉ code is := by
  intro h
  obtain ⟨i, -, hi⟩ := List.mem_map.1 h
  cases hi

theorem Context.Closes.error_notMem {s : BlockId} {n n' : Nat} {t : Terminator}
    (h : c.Closes s n t ls n') : .error e ∉ ls := by
  cases h with
  | jump | ret | direct => exact error_notMem_code _
  | fork =>
    intro hmem
    rcases List.mem_append.1 hmem with hmem | hmem
    · exact error_notMem_code _ hmem
    · exact error_notMem_code _ ((List.mem_cons.1 hmem).resolve_left (by simp))

/-- What cannot be emitted is a call of an erased function, or the end of a block that has none. -/
theorem Context.error_mem_block {b : BlockId} {blk : Block} {n n' : Nat}
    (h : c.block b blk n = some (ls, n')) (he : .error e ∈ ls) :
    (∃ name, e = .erasedCallee name) ∨ blk.terminator = none := by
  obtain ⟨lss, last, hlss, rfl, hlast⟩ := block_cases h
  rcases List.mem_append.1 ((List.mem_cons.1 he).resolve_left (by simp)) with he | he
  · obtain ⟨l, hl, he⟩ := List.mem_flatten.1 he
    obtain ⟨x, -, hx⟩ := exists_of_forall₂ (forall₂_of_mapM hlss) hl
    rcases instr_cases hx with ⟨is, rfl, -⟩ | rfl
    · exact absurd he (error_notMem_code is)
    · exact .inl ⟨_, Except.error.inj (List.mem_singleton.1 he)⟩
  · rcases hlast with ⟨t, -, ht⟩ | ⟨hnone, -, -⟩
    · exact absurd he (terminator_cases ht).error_notMem
    · exact .inr hnone

theorem error_mem_listing? (hm : m.verify = .ok ()) (hls : listing? m = some ls) (he : .error e ∈ ls) :
    ∃ name, e = .erasedCallee name := by
  obtain ⟨body, hbody, heq⟩ := Option.bind_eq_some_iff.1 hls
  obtain rfl := Option.some.inj heq
  have hmem : .error e ∈ body := by simpa using he
  rcases mem_functions hbody hmem with ⟨x, -, hx⟩ | ⟨x, hx, -, first, k, k', hfirst, hmem, -⟩
  · cases hx
  · obtain ⟨head, blocks, hblocks, -, rfl⟩ := Context.definition_eq hfirst
    have hin : .error e ∈ blocks := by
      simpa [error_notMem_code] using hmem
    obtain ⟨y, hy, ls, j, j', hblock, hin, -⟩ := Context.mem_blocks hblocks hin
    refine (Context.error_mem_block hblock hin).resolve_right fun hnone => ?_
    obtain ⟨t, ht, -⟩ := (Module.verified hm (mem_live.1 hx)).ends _ _ (Context.mem_reachableBlocks.1 hy).1
    rw [hnone] at ht
    cases ht

theorem writeFrom_eq_error {t : Target} {room : Option Nat} {text : String}
    (h : ls.writeFrom t room text = .error e) : e = .noRoom ∨ .error e ∈ ls := by
  induction ls generalizing text with
  | nil => cases h
  | cons x ls ih =>
    cases x with
    | error e' =>
      obtain rfl := Except.error.inj h
      exact .inr List.mem_cons_self
    | ok l =>
      rw [Listing.writeFrom] at h
      split at h
      · exact .inl (Except.error.inj h).symm
      · exact (ih h).imp_right (List.mem_cons_of_mem _)

end Failures
end IntLang.Assembly

namespace IntLang
open IntLang.Flow IntLang.Machine IntLang.Assembly

/-- Verification is all that the machine and the emitter need. No run finds the graph incomplete, every
frame of it stands in a block that is there, and no block lacks its end when it is emitted. In the lines
that are read from the text, control comes from a block to its successors alone, past a copy for each phi
it finds there. -/
theorem verify_sound {m : Module} (hmade : m.Made) (hm : m.verify = .ok ())
    (hplain : ∀ x ∈ m.live, x.2.OpensPlainly) :
    (∀ (e : Engine) steps id args fault e',
      e.run steps m id args = some (.error fault, e') → ¬ fault.Structural) ∧
    (∀ (e : Engine) id args c, e.Reaches m id args c → ∀ fr ∈ c.below.push c.top,
      ∃ f, m.function? fr.function = some f ∧ fr.block < f.blocks.size) ∧
    (∀ ls t room text b f, listing? m = some ls →
      ls.writeFrom t room text ≠ .error (.noTerminator b f)) ∧
    ∀ t text, assemblyText m t = .ok text → ∃ lines, text = rendered t lines ∧
      (m.NamedByWords → readText? t text = some lines) ∧
      ∀ id f, m.function? id = some f → f.isDeclaration = false →
        (∃ pc : Nat, lines[pc]? = some (.label (.block id 0))) ∧
        ∀ s (pc : Nat), lines[pc]? = some (.label (.block id s)) →
          (∀ b ∈ f.successors s, ∃ is, Path lines id b (pc + 1) is) ∧
          ∀ j b is, Path lines j b (pc + 1) is →
            j = id ∧ b ∈ f.successors s ∧ (Context.ofFunction m id f).CopiesPhis s b is := by
  refine ⟨fun e steps id args fault e' hr => ?_, fun e id args c hc fr hfr => ?_,
    fun ls t room text b f hls hwrite => ?_, fun t text htext => ?_⟩
  · exact Engine.harmless_run hm hplain hr fault rfl
  · obtain ⟨top, n, henter, hsteps⟩ := hc
    have hstart := (e.sync m).enter_cases m id args
    rw [henter] at hstart
    have hin : Config.InGraph m ⟨e.sync m, top, #[]⟩ := ⟨hstart, fun fr hfr => by simp at hfr⟩
    obtain ⟨htop, hbelow⟩ := hin.steps hm hplain hsteps
    have hfr : fr.InGraph m := by
      rcases Array.mem_push.1 hfr with hfr | rfl
      · exact hbelow fr hfr
      · exact htop
    obtain ⟨f, hf, hlt, -⟩ := hfr
    exact ⟨f, hf, hlt⟩
  · rcases writeFrom_eq_error hwrite with hno | hmem
    · cases hno
    · obtain ⟨name, hname⟩ := error_mem_listing? hm hls hmem
      cases hname
  · obtain ⟨lines, hlines, rfl⟩ := rendered_of_assemblyText htext
    have hlisted : Listed m lines := ⟨hmade.distinct, hmade.nodup_cells, hlines⟩
    refine ⟨lines, rfl, hlisted.readText? t, fun id f hf hd => ⟨?_, fun s pc hs => ?_⟩⟩
    · obtain ⟨pc, -, -, -, pc', -, hentry, -⟩ := hlisted.function hf hd
      exact ⟨pc', hentry⟩
    · exact hlisted.paths hf (Module.verified hm hf) hs

/-- A function that counts down in a loop, leaves it for a branch whose two arms are the same, and has a
block that nothing leads to. -/
def loopFunction : Function where
  name := "count"
  paramCount := 1
  linkage := .external
  blocks := #[
    { name := "entry", terminator := some (.jump 1) },
    { name := "loop", instrs := #[0, 1], terminator := some (.branch (.instr 1) 1 2) },
    { name := "after", terminator := some (.branch (.instr 0) 3 3) },
    { name := "done", instrs := #[2], terminator := some (.ret (.instr 2)) },
    { name := "dead", terminator := some (.ret (.int 7)) }]
  instrs := #[
    .phi .i32 [(.param 0, 0), (.instr 1, 1)],
    .arith .sub .i32 (.instr 0) (.int 1),
    .phi .i32 [(.instr 0, 2)]]

def loopEdits : List Edit :=
  [.add { name := "count", paramCount := 1, linkage := .external },
    .build 0 none 0 (.block "entry"), .build 0 none 0 (.block "loop"), .build 0 none 0 (.block "after"),
    .build 0 none 0 (.block "done"), .build 0 none 0 (.block "dead"),
    .build 0 (some 0) 0 (.jump 1),
    .build 0 (some 1) 0 (.phi .i32 [(.param 0, 0), (.instr 1, 1)]),
    .build 0 (some 1) 0 (.arith .sub (.instr 0) (.int 1)),
    .build 0 (some 1) 0 (.branch (.instr 1) 1 2),
    .build 0 (some 2) 0 (.branch (.instr 0) 3 3),
    .build 0 (some 3) 0 (.phi .i32 [(.instr 0, 2)]),
    .build 0 (some 3) 0 (.ret (.instr 2)),
    .build 0 (some 4) 0 (.ret (.int 7))]

def loopModule : Module :=
  (({ name := "loop" } : Module).edits loopEdits).2

/-- On the way into the loop its counter gets the value of the parameter. -/
theorem verify_sound_loopModule : loopModule.verify = .ok () ∧
    (∀ steps e, ({} : Engine).run steps loopModule 0 [3] ≠ some (.error (.noIncoming "count"), e)) ∧
    ∃ text lines, assemblyText loopModule .linux = .ok text ∧ readText? .linux text = some lines ∧
      ∃ (pc : Nat) (is : List Ins), lines[pc]? = some (.label (.block 0 0)) ∧ Path lines 0 1 (pc + 1) is ∧
        [.load (.frame (-4)) .eax, .store .eax (.frame (-8))] <:+: is := by
  have hm : loopModule.verify = .ok () := by decide +kernel
  obtain ⟨hrun, -, -, htext⟩ := verify_sound ⟨_, _, rfl⟩ hm (by decide +kernel)
  obtain ⟨text, hemit⟩ := assemblyText_of_complete (m := loopModule) (by decide +kernel) .linux
  obtain ⟨lines, -, hread, hlines⟩ := htext .linux text hemit
  refine ⟨hm, fun steps e h => hrun _ _ _ _ _ _ h trivial, text, lines, hemit,
    hread ⟨by decide +kernel, by decide +kernel⟩, ?_⟩
  have hf : loopModule.function? 0 = some loopFunction := by decide +kernel
  obtain ⟨⟨pc, hpc⟩, hways⟩ := hlines 0 loopFunction hf rfl
  obtain ⟨hthere, honly⟩ := hways 0 pc hpc
  obtain ⟨is, his⟩ := hthere 1 List.mem_cons_self
  refine ⟨pc, is, hpc, his, ?_⟩
  obtain ⟨-, -, hcopies⟩ := honly 0 1 is his
  obtain ⟨v, p, r, hv, hp, hr, hin⟩ := hcopies 0 0 .i32 _ ⟨_, rfl, rfl, rfl⟩
  have hparam : v = .param 0 := by simpa using hv
  rw [hparam] at hp
  rw [Option.some.inj (hp.symm.trans rfl), Option.some.inj (hr.symm.trans rfl)] at hin
  exact hin

end IntLang
