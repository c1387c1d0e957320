import IntLang.Proofs.CallRuns

/-! What the end of a block does. Where a block opens with a phi, the copy on the way there does what the
machine does when it gets to the phi, so both go on behind it. -/
namespace IntLang
open IntLang.Flow IntLang.Machine IntLang.Code IntLang.Assembly

namespace Assembly.Context
variable {c : Context} {source target : BlockId} {xs : List (InstrId × Instr)} {i : Instr}

theorem incoming?_eq_none (h : ¬ i.IsPhi) : incoming? source i = none := by
  cases i with
  | phi => exact absurd trivial h
  | _ => rfl

theorem mapM_edgeCopy (h : ∀ x ∈ xs, ¬ x.2.IsPhi) :
    (xs.mapM (c.edgeCopy source)).map List.flatten = some [] := by
  induction xs with
  | nil => rfl
  | cons x xs ih =>
    obtain ⟨lss, hlss, hnil⟩ := Option.map_eq_some_iff.1 (ih fun y hy => h y (List.mem_cons_of_mem x hy))
    have hx : c.edgeCopy source x = some [] := by
      rw [edgeCopy, incoming?_eq_none (h x List.mem_cons_self)]
    simp [List.mapM_cons, hx, hlss, hnil]

/-- Nothing is copied on the way to a block without a phi. -/
theorem edgeCopies_of_not_isPhi (h : ∀ x ∈ c.instrsOf target, ¬ x.2.IsPhi) :
    c.edgeCopies source target = some [] := by
  rw [edgeCopies_eq, mapM_edgeCopy h]

/-- Only the phi needs a copy on the way to a block that opens with one. -/
theorem edgeCopies_of_incoming {id : InstrId} {v : Operand} {p d : Place}
    (h : c.instrsOf target = (id, i) :: xs) (hxs : ∀ x ∈ xs, ¬ x.2.IsPhi)
    (hi : incoming? source i = some v) (hp : c.place? v = some p) (hd : c.layout.result? id = some d) :
    c.edgeCopies source target = some (code [.load p .eax, .store .eax d]) ∧
      c.needsCopies source target = true := by
  obtain ⟨lss, hlss, hnil⟩ : ∃ lss, xs.mapM (c.edgeCopy source) = some lss ∧ lss.flatten = [] :=
    Option.map_eq_some_iff.1 (mapM_edgeCopy hxs)
  constructor
  · have hcopy : c.edgeCopy source (id, i) = some (code [.load p .eax, .store .eax d]) := by
      simp [edgeCopy, hi, hd, copy, hp]
    simp [edgeCopies_eq, h, List.mapM_cons, hcopy, hlss, hnil]
  · simp [needsCopies, h, hi]

end Assembly.Context

/-- The state in which a branch on `n` is decided. -/
def Assembly.Processor.tested (s : Processor) (n : Int32) : Processor :=
  { s.set .eax n with flags := some (.logic n) }

namespace Flow.Draft
variable {D : Draft} {M : Module} {lines : List Line} {fr : Frame} {s : Processor} {b dest : BlockId}

theorem Finished.not_isDeclaration (h : D.Finished M) : D.function.isDeclaration = false := by
  have hpos := List.length_pos_iff.2 h.nonempty
  simp only [Function.isDeclaration, Array.isEmpty, size_blocks, decide_eq_false_iff_not]
  omega

/-- A phi opens its block, and joins the two ways there. -/
theorem Finished.isPhi_cases (h : D.Finished M) {k : Nat} {id : InstrId} {i : Instr}
    (hi : Holds D.function b k id i) : ¬ i.IsPhi ∨ 0 < b ∧ k = 0 ∧ D.Joins b i := by
  rcases h.position hi with ⟨-, _, _, rfl, -⟩ | ⟨-, _, _, _, rfl, -⟩ | ⟨hfit, -⟩ | hjoins
  · exact .inl nofun
  · exact .inl nofun
  · refine .inl fun hphi => ?_
    cases i with
    | phi => exact hfit
    | _ => exact hphi
  · exact .inr hjoins

/-- A block has no phi, or it opens with its only one. -/
theorem Finished.instrsOf_cases (h : D.Finished M) (f : FuncId) {blk : Block}
    (hb : D.function.blocks[b]? = some blk) :
    (∀ x ∈ (Context.ofFunction M f D.function).instrsOf b, ¬ x.2.IsPhi) ∨
      ∃ id i xs, (Context.ofFunction M f D.function).instrsOf b = (id, i) :: xs ∧ D.Joins b i ∧
        Holds D.function b 0 id i ∧ ∀ x ∈ xs, ¬ x.2.IsPhi := by
  have hall (k : Nat) (x : InstrId × Instr)
      (hx : ((Context.ofFunction M f D.function).instrsOf b)[k]? = some x) :
      ¬ x.2.IsPhi ∨ k = 0 ∧ D.Joins b x.2 ∧ Holds D.function b 0 x.1 x.2 := by
    rw [(h.instrsOf_eq hb).2 k] at hx
    obtain ⟨id, hk, hx⟩ := Option.bind_eq_some_iff.1 hx
    obtain ⟨i, hi, rfl⟩ := Option.map_eq_some_iff.1 hx
    have hholds : Holds D.function b k id i := ⟨blk, hb, hk, hi⟩
    rcases h.isPhi_cases hholds with hno | ⟨-, rfl, hj⟩
    · exact .inl hno
    · exact .inr ⟨rfl, hj, hholds⟩
  cases hxs : (Context.ofFunction M f D.function).instrsOf b with
  | nil => exact .inl fun y hy => absurd hy List.not_mem_nil
  | cons x xs =>
    rw [hxs] at hall
    have hrest : ∀ y ∈ xs, ¬ y.2.IsPhi := by
      intro y hy
      obtain ⟨k, hk⟩ := List.mem_iff_getElem?.1 hy
      rcases hall (k + 1) y hk with hno | ⟨h0, -⟩
      · exact hno
      · cases h0
    rcases hall 0 x rfl with hno | ⟨-, hj, hholds⟩
    · refine .inl fun y hy => ?_
      rcases List.mem_cons.1 hy with rfl | hy
      · exact hno
      · exact hrest y hy
    · exact .inr ⟨x.1, x.2, xs, rfl, hj, hholds, hrest⟩

/-- The value that a phi takes is the one that is copied on the way to it. -/
theorem Joins.exec {i : Instr} (h : D.Joins dest i) (he : D.Edge b dest)
    (hprev : fr.previous = some b) : ∃ x : Bool, Context.incoming? b i = some (.bool x) ∧
      ∀ name globals id, fr.exec name globals id i = .ok (.proceed (fr.give id (.bool x)) globals) := by
  obtain ⟨z, w, rfl, hz⟩ := h
  rcases (hz b).1 he with rfl | rfl
  · exact ⟨w, by simp [Context.incoming?], fun _ _ _ => by simp [Frame.exec, hprev, Frame.eval]⟩
  · exact ⟨!w, by simp [Context.incoming?], fun _ _ _ => by simp [Frame.exec, hprev, Frame.eval]⟩

theorem Mirrors.goto {m : Stack} {fp : Int} (h : D.Mirrors fr m fp)
    (hpast : fr.block = 0 → 2 * D.slots.length ≤ fr.next) (hdest : 0 < dest) :
    D.Mirrors (fr.goto dest) m fp := by
  refine h.move rfl rfl rfl (fun j hj _ h0 => ?_) ?_
  · have hle := hpast h0
    omega
  · rw [h.cells]
    change _ = if dest = 0 then _ else _
    rw [if_neg (Nat.ne_of_gt hdest)]
    split
    · next h0 =>
      have hle := hpast h0
      omega
    · rfl

/-- The frame goes on at line `pc`. The code of its next step stands there, and it is no phi. -/
structure Proceeds (D : Draft) (M : Module) (lines : List Line) (fr : Frame) (pc : Nat) (m : Stack)
    (fp : Int) : Prop where
  reachable : D.function.reachable[fr.block]? = some true
  continues : (Context.ofFunction M fr.function D.function).Continues lines fr.block fr.next pc
  settled : ∀ id i, Holds D.function fr.block fr.next id i → ¬ i.IsPhi
  mirrors : D.Mirrors fr m fp

/-- Control can go to block `dest`. The code `is` on the way there leads to `s'`, and the machine gets to
`fr'` in `k` steps. -/
structure Crosses (D : Draft) (M : Module) (lines : List Line) (fr : Frame) (s : Processor)
    (dest : BlockId) (is : List Ins) (target k : Nat) (fr' : Frame) (s' : Processor) : Prop where
  copies : (Context.ofFunction M fr.function D.function).edgeCopies fr.block dest =
    some (Assembly.code is)
  plain : (Context.ofFunction M fr.function D.function).needsCopies fr.block dest = false → is = []
  exec : execAll is s = some s'
  steps : ∀ e below, Steps M k ⟨e, fr.goto dest, below⟩ ⟨e, fr', below⟩
  function : fr'.function = fr.function
  label : lines.idxOf? (.label (.block fr.function dest)) = some target
  line : lines[target]? = some (.label (.block fr.function dest))
  proceeds : D.Proceeds M lines fr' (target + 1) s'.stack s'.fp
  within : s.Within s'
  data : s'.data = s.data

theorem Finished.crosses (h : D.Finished M) (hE : Emits M lines)
    (hf : M.function? fr.function = some D.function)
    (hr : D.function.reachable[fr.block]? = some true) (hm : D.Mirrors fr s.stack s.fp)
    (hpast : fr.block = 0 → 2 * D.slots.length ≤ fr.next) (he : D.Edge fr.block dest) :
    ∃ is target k fr' s', D.Crosses M lines fr s dest is target k fr' s' := by
  obtain ⟨p, t, hp, ht, hdest⟩ := id he
  obtain ⟨hpos, hlt⟩ := (h.ends fr.block p t hp ht).1 dest hdest
  have hblk : D.function.blocks[dest]? = some (D.blockAt dest D.blocks[dest]) := by
    rw [function_blocks, List.getElem?_eq_getElem hlt]
    rfl
  have hreach : D.function.reachable[dest]? = some true := by
    refine Function.reachable_successor hr ?_ (by simpa using hlt)
    simpa [Function.successors, function_blocks, hp, blockAt, ht] using hdest
  obtain ⟨target, hlabel, hline, hcont⟩ := hE.block hf hblk hreach
  rcases h.instrsOf_cases fr.function hblk with hno | ⟨id, i, xs, hxs, hj, hholds, hrest⟩
  · refine ⟨[], target, 0, fr.goto dest, s, Context.edgeCopies_of_not_isPhi hno, fun _ => rfl, rfl,
      fun e below => .refl _, rfl, hlabel, hline, ⟨hreach, hcont, fun id i hi => ?_, hm.goto hpast hpos⟩,
      ⟨rfl, rfl, rfl, fun _ _ => rfl⟩, rfl⟩
    exact hno _ (List.mem_of_getElem? (h.getElem?_instrsOf hi))
  · obtain ⟨x, hx, hexec⟩ := hj.exec he (rfl : (fr.goto dest).previous = some fr.block)
    have hhead : ((Context.ofFunction M fr.function D.function).instrsOf dest)[0]? = some (id, i) := by
      rw [hxs]
      rfl
    have hres : i.resultTy?.isSome := by
      obtain ⟨z, w, rfl, -⟩ := hj
      rfl
    obtain ⟨d, hd⟩ := (h.supplied fr.function).results _ _ (List.mem_of_getElem? hhead) hres
    obtain ⟨cell, hcell, rfl⟩ := Layout.result?_eq_some.1 hd
    obtain ⟨hcopies, hneeds⟩ := Context.edgeCopies_of_incoming hxs hrest hx rfl hd
    obtain ⟨s', hs', hst⟩ : ∃ s', execAll _ s = some s' ∧
        Stored (Layout.offset cell) (if x then 1 else 0) s s' :=
      exec_copy (p := .imm (if x then 1 else 0)) rfl
    have hcode : (Context.ofFunction M fr.function D.function).instr id i =
        some (Assembly.code []) := by
      obtain ⟨z, w, rfl, -⟩ := hj
      rfl
    refine ⟨_, target, 1, (fr.goto dest).give id (.bool x), s', hcopies, fun hno => ?_, hs',
      fun e below => .one (step_of_proceed ?_), rfl, hlabel, hline,
      ⟨hreach, (hcont.next hhead hcode).2, fun id' i' hi => ?_,
        (hm.goto hpast hpos).result (fun h0 => absurd h0 (Nat.ne_of_gt hpos)) hcell rfl hst⟩,
      hst.within (D.sound_layout.le_offset hcell).2, hst.data⟩
    · rw [hneeds] at hno
      cases hno
    · have hstep : (fr.goto dest).step M e.globals = _ := step_of_holds hf hholds
      exact hstep.trans (hexec _ _ id)
    · rcases h.isPhi_cases hi with hno | ⟨-, h0, -⟩
      · exact hno
      · cases h0

section Leaving
variable {is : List Ins} {target k pc : Nat} {fr' : Frame} {s' : Processor}

/-- Control goes to the label of the block, and on from there. -/
theorem Crosses.runs_label (h : D.Crosses M lines fr s dest is target k fr' s') :
    Runs lines target s' (target + 1) s' :=
  .head (by rw [step, h.line]) (.refl _ _)

/-- The copies of an edge and the jump along it. -/
theorem Crosses.jump (h : D.Crosses M lines fr s dest is target k fr' s')
    (hlies : Lies lines pc (Assembly.code is ++ Assembly.code [.jump (.block fr.function dest)])) :
    Runs lines pc s (target + 1) s' := by
  obtain ⟨hcode, hjump⟩ := Lies.append_iff.1 hlies
  obtain ⟨hline, -⟩ := Lies.cons_iff.1 hjump
  rw [Assembly.code, List.length_map] at hline
  refine (Runs.of_execAll hcode h.exec).trans (.head ?_ h.runs_label)
  rw [step, hline]
  simp only [execute, Assembly.goto, h.label]

theorem Crosses.goto_eq (h : D.Crosses M lines fr s dest is target k fr' s') :
    (Context.ofFunction M fr.function D.function).goto fr.block dest =
      some (Assembly.code is ++ Assembly.code [.jump (.block fr.function dest)]) := by
  simp only [Context.goto, h.copies, Option.pure_def, Option.bind_eq_bind, Option.bind_some]
  rfl

/-- In the entry block, nothing but the slots comes before the first instruction that fits. -/
theorem slots_le_size {blk : Block} (hblk : D.function.blocks[b]? = some blk) (h0 : b = 0) :
    2 * D.slots.length ≤ blk.instrs.size := by
  rw [function_blocks] at hblk
  obtain ⟨p, -, rfl⟩ := Option.map_eq_some_iff.1 hblk
  simp only [blockAt, List.size_toArray, List.length_append, opening, if_pos h0, List.length_map]
  omega

/-- What leads from the end of a block to another one. -/
def Goes (D : Draft) (M : Module) (lines : List Line) (fr fr₁ : Frame) (pc : Nat) (s : Processor) :
    Prop :=
  ∃ k fr' pc' s', (∀ e below, Steps M k ⟨e, fr₁, below⟩ ⟨e, fr', below⟩) ∧
    fr'.function = fr.function ∧ Runs lines pc s pc' s' ∧ D.Proceeds M lines fr' pc' s'.stack s'.fp ∧
    s.Within s' ∧ s'.data = s.data

theorem Crosses.goes (h : D.Crosses M lines fr s dest is target k fr' s') {s₀ : Processor}
    (hs : s₀.Alike s) (hruns : Runs lines pc s₀ (target + 1) s') :
    D.Goes M lines fr (fr.goto dest) pc s₀ := by
  have hwithin := h.within
  refine ⟨k, fr', target + 1, s', h.steps, h.function, hruns, h.proceeds,
    ⟨hwithin.fp.trans hs.fp, hwithin.sp.trans hs.sp, hwithin.output.trans hs.output, fun a ha => ?_⟩,
    h.data.trans hs.data⟩
  rw [hwithin.stack a (hs.fp ▸ ha), hs.stack]

/-- The test of a branch, and the jump if it fails. -/
theorem runs_test {p : Place} {n : Int32} {l : Label} (hn : s.read p = some n)
    (hlies : Lies lines pc (Assembly.code [.load p .eax, .test] ++ Assembly.code [.jumpIfZero l])) :
    (n ≠ 0 → Runs lines pc s (pc + 3) (s.tested n)) ∧
      (n = 0 → ∀ target, lines.idxOf? (.label l) = some target → Runs lines pc s target (s.tested n)) := by
  obtain ⟨htest, hjump⟩ := Lies.append_iff.1 hlies
  obtain ⟨hline, -⟩ := Lies.cons_iff.1 hjump
  rw [Assembly.code, List.length_map] at hline
  have hexec : execAll [.load p .eax, .test] s = some (s.tested n) := by
    simp [execAll, Ins.exec, hn, Processor.tested]
  have hflags : (s.tested n).flags = some (.logic n) := rfl
  have hruns := Runs.of_execAll htest hexec
  refine ⟨fun hne => hruns.trans (.head ?_ (.refl _ _)),
    fun h0 target ht => hruns.trans (.head ?_ (.refl _ _))⟩
  · rw [step, hline]
    simp only [execute, hflags]
    exact if_neg (by simpa [Flags.logic] using hne)
  · rw [step, hline]
    simp only [execute, hflags, Assembly.goto, ht]
    exact if_pos (by simpa [Flags.logic] using h0)

/-- A branch: there is code for both ways, and the test decides which one is taken. -/
theorem Crosses.branch {v : Operand} {p : Place} {onTrue onFalse : BlockId} {n : Int32}
    {edges edges' : Nat} {ls : Listing} {js : List Ins} {target' k' : Nat} {fr'' : Frame}
    {s'' : Processor} (htrue : D.Crosses M lines fr (s.tested n) onTrue is target k fr' s')
    (hfalse : D.Crosses M lines fr (s.tested n) onFalse js target' k' fr'' s'') (hE : Emits M lines)
    (hp : (Context.ofFunction M fr.function D.function).place? v = some p) (hn : s.read p = some n)
    (hls : (Context.ofFunction M fr.function D.function).terminator fr.block edges
      (.branch v onTrue onFalse) = some (ls, edges')) (hlies : Lies lines pc ls) :
    D.Goes M lines fr (fr.goto (if n = 0 then onFalse else onTrue)) pc s := by
  have hsame : s.Alike (s.tested n) := ⟨rfl, rfl, rfl, rfl, rfl⟩
  simp only [Context.terminator, hp, htrue.goto_eq, hfalse.goto_eq, Option.pure_def,
    Option.bind_eq_bind, Option.bind_some] at hls
  cases hneeds : (Context.ofFunction M fr.function D.function).needsCopies fr.block onFalse with
  | true =>
    rw [hneeds, if_pos rfl] at hls
    obtain ⟨rfl, -⟩ := Prod.mk.inj (Option.some.inj hls)
    rw [Lies.append_iff, Lies.append_iff, Lies.append_iff] at hlies
    obtain ⟨⟨⟨htest, hgoto⟩, hedge⟩, hgoto'⟩ := hlies
    obtain ⟨hline, -⟩ := Lies.cons_iff.1 hedge
    obtain ⟨hrun, hjump⟩ := runs_test hn htest
    split
    · next h0 =>
      have hlabel := hjump h0 _ (hE.idxOf?_eq rfl hline)
      refine hfalse.goes hsame (hlabel.trans (.head (by rw [step, hline]) (hfalse.jump ?_)))
      rwa [List.length_append, List.length_singleton, ← Nat.add_assoc] at hgoto'
    · next hne => exact htrue.goes hsame ((hrun hne).trans (htrue.jump hgoto))
  | false =>
    rw [hneeds, if_neg Bool.false_ne_true] at hls
    obtain ⟨rfl, -⟩ := Prod.mk.inj (Option.some.inj hls)
    rw [Lies.append_iff] at hlies
    obtain ⟨htest, hgoto⟩ := hlies
    obtain rfl := hfalse.plain hneeds
    obtain ⟨hrun, hjump⟩ := runs_test hn htest
    split
    · next h0 =>
      obtain rfl := Option.some.inj hfalse.exec
      exact hfalse.goes hsame ((hjump h0 target' hfalse.label).trans hfalse.runs_label)
    · next hne => exact htrue.goes hsame ((hrun hne).trans (htrue.jump hgoto))

theorem Finished.leaves (h : D.Finished M) (hE : Emits M lines)
    (hf : M.function? fr.function = some D.function)
    (hp : D.Proceeds M lines fr pc s.stack s.fp) {blk : Block}
    (hblk : D.function.blocks[fr.block]? = some blk) (hend : blk.instrs.size ≤ fr.next)
    (globals : Array Int32) :
    (∃ n pc' s', fr.leave D.function blk globals = .ok (.ret n) ∧ Runs lines pc s pc' s' ∧ s.Alike s' ∧
      s'.regs .eax = some n ∧ Lies lines pc' (Assembly.code [.leave, .ret])) ∨
    (∃ fr₁, fr.leave D.function blk globals = .ok (.proceed fr₁ globals) ∧ D.Goes M lines fr fr₁ pc s) ∨
    ∃ e, fr.leave D.function blk globals = .error e ∧ ¬ e.Division := by
  obtain ⟨blk', t, ls, edges, edges', hblk', ht, hls, hlies⟩ := hp.continues.last (by
    rw [(h.instrsOf_eq hblk).1]
    exact hend)
  obtain rfl : blk = blk' := Option.some.inj (hblk.symm.trans hblk')
  obtain ⟨t', ht', hplace⟩ := (h.supplied fr.function).ends fr.block blk hblk
  obtain rfl : t = t' := Option.some.inj (ht.symm.trans ht')
  obtain ⟨piece, hpiece, rfl⟩ := Option.map_eq_some_iff.1 ((D.function_blocks fr.block).symm.trans hblk)
  have hpast (h0 : fr.block = 0) := (slots_le_size hblk h0).trans hend
  have hleads := (h.ends fr.block piece t hpiece ht).2
  have hcross {s₁ : Processor} (hs : s.Alike s₁) {dest : BlockId} (hdest : dest ∈ t.successors) :
      ∃ is target k fr' s', D.Crosses M lines fr s₁ dest is target k fr' s' := by
    apply h.crosses hE hf hp.reachable _ hpast ⟨piece, t, hpiece, ht, hdest⟩
    rw [hs.stack, hs.fp]
    exact hp.mirrors
  cases t with
  | jump dest =>
    obtain ⟨is, target, k, fr', s', hc⟩ :=
      hcross ⟨rfl, rfl, rfl, rfl, rfl⟩ (List.mem_singleton_self dest)
    simp only [Context.terminator, hc.goto_eq, Option.pure_def, Option.bind_eq_bind, Option.bind_some] at hls
    obtain ⟨rfl, -⟩ := Prod.mk.inj (Option.some.inj hls)
    refine .inr (.inl ⟨fr.goto dest, ?_, hc.goes ⟨rfl, rfl, rfl, rfl, rfl⟩ (hc.jump hlies)⟩)
    simp only [Frame.leave, ht]
  | ret v =>
    obtain ⟨p, hplace⟩ := hplace v (List.mem_singleton_self v)
    cases hn : fr.int v with
    | error e => exact .inr (.inr ⟨e, by simp only [Frame.leave, ht, hn]; rfl, int_ne_division hn⟩)
    | ok n =>
      have hread := hp.mirrors.read hplace hleads.ne_param hn
      simp only [Context.terminator, hplace, Option.pure_def, Option.bind_eq_bind, Option.bind_some] at hls
      obtain ⟨rfl, -⟩ := Prod.mk.inj (Option.some.inj hls)
      obtain ⟨hload, hrest⟩ := (Lies.append_iff (a := Assembly.code [.load p .eax])).1 hlies
      refine .inl ⟨n, _, s.set .eax n, ?_, .of_execAll hload (execAll_load hread),
        ⟨rfl, rfl, rfl, rfl, rfl⟩, by simp, hrest⟩
      simp only [Frame.leave, ht, hn]
      rfl
  | branch v onTrue onFalse =>
    obtain ⟨p, hplace⟩ := hplace v (List.mem_singleton_self v)
    cases hn : fr.int v with
    | error e => exact .inr (.inr ⟨e, by simp only [Frame.leave, ht, hn]; rfl, int_ne_division hn⟩)
    | ok n =>
      have hread := hp.mirrors.read hplace hleads.ne_param hn
      have hsame : s.Alike (s.tested n) := ⟨rfl, rfl, rfl, rfl, rfl⟩
      have hfirst : onTrue ∈ Terminator.successors (.branch v onTrue onFalse) := List.mem_cons_self
      have hsecond : onFalse ∈ Terminator.successors (.branch v onTrue onFalse) :=
        List.mem_cons_of_mem _ (List.mem_singleton_self onFalse)
      obtain ⟨is, target, k, fr', s', htrue⟩ := hcross hsame hfirst
      obtain ⟨js, target', k', fr'', s'', hfalse⟩ := hcross hsame hsecond
      refine .inr (.inl ⟨_, ?_, htrue.branch hfalse hE hplace hread hls hlies⟩)
      simp only [Frame.leave, ht, hn]
      rfl

end Leaving
end Flow.Draft
end IntLang
