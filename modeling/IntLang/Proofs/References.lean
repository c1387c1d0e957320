import IntLang.Proofs.ControlPaths

/-! What the lines of a listing refer to. Instructions reach cells that the module has, call functions
that it has, and jump to labels of their own function, which stand in the listing if the module has been
verified. The code of a block stands between its label and the next block, or the end of its function. -/
namespace IntLang.Assembly
open IntLang.Flow

/-- A global cell that is referred to is there. -/
def Place.Known (m : Module) : Place → Prop
  | .global x => ∃ g ∈ m.globals.toList, g.name = x
  | .imm _ | .frame _ => True

/-- A label in the code of function `id`. -/
def Label.Inside (id : FuncId) : Label → Prop
  | .block j _ | .edge j _ => j = id
  | .global _ => False

/-- An instruction of function `id` refers to what the module has, and jumps within its function. -/
def Ins.Fits (m : Module) (id : FuncId) : Ins → Prop
  | .load p _ | .store _ p => p.Known m
  | .jump l | .jumpIfZero l => l.Inside id
  | .call s foreign => ∃ j g, m.function? j = some g ∧ g.name = s ∧ foreign = g.isDeclaration
  | _ => True

def Ins.target? : Ins → Option Label
  | .jump l | .jumpIfZero l => some l
  | _ => none

def Line.call? : Line → Option (String × Bool)
  | .ins (.call s foreign) => some (s, foreign)
  | _ => none

theorem Ins.target?_of_goesOn {i : Ins} (h : i.goesOn) : i.target? = none := by
  cases i with
  | jump | jumpIfZero => cases h
  | _ => rfl

theorem ins_mem_code {i : Ins} {is : List Ins} : .ok (.ins i) ∈ code is ↔ i ∈ is := by
  simp [code]

namespace Context
variable {m : Module} {id : FuncId} {f : Function} {k : InstrId} {i : Instr} {is : List Ins}
  {b source target : BlockId} {p : Place}

theorem known_of_result? (h : (ofFunction m id f).layout.result? k = some p) : p.Known m := by
  obtain ⟨cell, -, rfl⟩ := Option.map_eq_some_iff.1 h
  trivial

theorem known_of_place? {v : Operand} (h : (ofFunction m id f).place? v = some p) : p.Known m := by
  cases v with
  | int n =>
    obtain rfl := Option.some.inj h
    trivial
  | bool b =>
    obtain rfl := Option.some.inj h
    trivial
  | param i =>
    obtain rfl := Option.some.inj h
    unfold Layout.param
    split <;> trivial
  | instr j => exact known_of_result? h
  | global g =>
    obtain ⟨x, hx, rfl⟩ := place?_global.1 h
    exact ⟨x, Array.mem_toList_iff.2 (Array.mem_of_getElem? hx), rfl⟩

theorem Written.fits (h : (ofFunction m id f).Written k i is) : ∀ j ∈ is, j.Fits m id := by
  cases h with
  | alloca | phi => simp
  | load place result | widen place result =>
    simpa [Ins.Fits] using ⟨known_of_place? place, known_of_result? result⟩
  | store value address => simpa [Ins.Fits] using ⟨known_of_place? value, known_of_place? address⟩
  | arith op _ lhs rhs result =>
    have hstore := known_of_result? result
    have hl := known_of_place? lhs
    have hr := known_of_place? rhs
    cases op <;> simpa [Context.arith, Ins.Fits] using ⟨hl, hr, hstore⟩
  | compare op lhs rhs result =>
    simpa [Ins.Fits] using ⟨known_of_place? lhs, known_of_place? rhs, known_of_result? result⟩
  | call function places result =>
    intro j hj
    simp only [List.mem_append, List.mem_cons, List.not_mem_nil, or_false] at hj
    rcases hj with hj | rfl | hj | rfl
    · rcases mem_passing hj with ⟨p, hp, r, rfl⟩ | ⟨n, rfl⟩ | rfl | rfl
      · obtain ⟨v, -, hv⟩ := exists_of_forall₂ places hp
        exact known_of_place? hv
      all_goals trivial
    · exact ⟨_, _, function, rfl, rfl⟩
    · obtain ⟨n, rfl⟩ := mem_cleanup hj
      trivial
    · exact known_of_result? result

theorem Carries.fits (h : (ofFunction m id f).Carries source target is) : ∀ j ∈ is, j.Fits m id := by
  intro j hj
  rcases h.mem hj with ⟨v, p, hp, rfl⟩ | ⟨k, r, hr, rfl⟩
  · exact known_of_place? hp
  · exact known_of_result? hr

/-- The code of an edge fits, and its jump leads to the target. -/
theorem Carries.fits_goto (h : (ofFunction m id f).Carries source target is) {j : Ins}
    (hj : j ∈ is ++ [Ins.jump (.block id target)]) :
    j.Fits m id ∧ ∀ l, j.target? = some l → l = .block id target := by
  rcases List.mem_append.1 hj with hj | hj
  · refine ⟨h.fits j hj, fun l hl => ?_⟩
    rw [Ins.target?_of_goesOn (h.goesOn j hj)] at hl
    cases hl
  · rw [List.mem_singleton.1 hj]
    exact ⟨rfl, fun l hl => (Option.some.inj hl).symm⟩

theorem fits_test {v : Operand} (h : (ofFunction m id f).place? v = some p) {l : Label}
    (hl : l.Inside id) {j : Ins} (hj : j ∈ [.load p .eax, .test, .jumpIfZero l]) :
    j.Fits m id ∧ ∀ l', j.target? = some l' → l' = l := by
  simp only [List.mem_cons, List.not_mem_nil, or_false] at hj
  rcases hj with rfl | rfl | rfl
  · exact ⟨known_of_place? h, fun l' hl' => by cases hl'⟩
  · exact ⟨trivial, fun l' hl' => by cases hl'⟩
  · exact ⟨hl, fun l' hl' => (Option.some.inj hl').symm⟩

/-- The instructions of a terminator fit, and lead to successors or to a label among them. -/
theorem Closes.fits {n n' : Nat} {t : Terminator} {ls : Listing} (h : (ofFunction m id f).Closes b n t ls n')
    {j : Ins} (hj : .ok (.ins j) ∈ ls) : j.Fits m id ∧ ∀ l, j.target? = some l →
      (∃ d ∈ t.successors, l = .block id d) ∨ .ok (.label l) ∈ ls := by
  cases h with
  | @jump dest is copies =>
    obtain ⟨hfits, htarget⟩ := copies.fits_goto (ins_mem_code.1 hj)
    exact ⟨hfits, fun l hl => .inl ⟨dest, List.mem_cons_self, htarget l hl⟩⟩
  | ret place =>
    have hj := ins_mem_code.1 hj
    simp only [List.mem_cons, List.not_mem_nil, or_false] at hj
    rcases hj with rfl | rfl | rfl
    · exact ⟨known_of_place? place, fun l hl => by cases hl⟩
    · exact ⟨trivial, fun l hl => by cases hl⟩
    · exact ⟨trivial, fun l hl => by cases hl⟩
  | @fork v p onTrue onFalse is js place copies copies' =>
    rcases List.mem_append.1 hj with hj | hj
    · rcases List.mem_append.1 (ins_mem_code.1 hj) with hj | hj
      · obtain ⟨hfits, htarget⟩ := fits_test place (l := .edge id n) rfl hj
        refine ⟨hfits, fun l hl => .inr ?_⟩
        rw [htarget l hl]
        exact List.mem_append_right _ List.mem_cons_self
      · obtain ⟨hfits, htarget⟩ := copies.fits_goto hj
        exact ⟨hfits, fun l hl => .inl ⟨onTrue, List.mem_cons_self, htarget l hl⟩⟩
    · have hj := ins_mem_code.1 ((List.mem_cons.1 hj).resolve_left (by simp))
      obtain ⟨hfits, htarget⟩ := copies'.fits_goto hj
      exact ⟨hfits, fun l hl => .inl ⟨onFalse, by simp [Terminator.successors], htarget l hl⟩⟩
  | @direct v p onTrue onFalse is place copies none =>
    rcases List.mem_append.1 (ins_mem_code.1 hj) with hj | hj
    · obtain ⟨hfits, htarget⟩ := fits_test place (l := .block id onFalse) rfl hj
      exact ⟨hfits, fun l hl => .inl ⟨onFalse, by simp [Terminator.successors], htarget l hl⟩⟩
    · obtain ⟨hfits, htarget⟩ := copies.fits_goto hj
      exact ⟨hfits, fun l hl => .inl ⟨onTrue, List.mem_cons_self, htarget l hl⟩⟩

/-- The instructions of a block fit, and lead to its successors or to a label in it. -/
theorem fits_block {blk : Block} {n n' : Nat} {ls : Listing} (hb : f.blocks[b]? = some blk)
    (h : (ofFunction m id f).block b blk n = some (ls, n')) {j : Ins} (hj : .ok (.ins j) ∈ ls) :
    j.Fits m id ∧ ∀ l, j.target? = some l →
      (∃ d ∈ f.successors b, l = .block id d) ∨ .ok (.label l) ∈ ls := by
  obtain ⟨lss, last, hlss, rfl, hlast⟩ := block_cases h
  rcases List.mem_append.1 ((List.mem_cons.1 hj).resolve_left (by simp)) with hj | hj
  · obtain ⟨ls, hls, hj⟩ := List.mem_flatten.1 hj
    obtain ⟨x, -, hx⟩ := exists_of_forall₂ (forall₂_of_mapM hlss) hls
    rcases instr_cases hx with ⟨is, rfl, his⟩ | rfl
    · have hj := ins_mem_code.1 hj
      refine ⟨his.fits j hj, fun l hl => ?_⟩
      rw [Ins.target?_of_goesOn (his.goesOn j hj)] at hl
      cases hl
    · cases List.mem_singleton.1 hj
  · rcases hlast with ⟨t, ht, hlast⟩ | ⟨-, -, rfl⟩
    · obtain ⟨hfits, htarget⟩ := (terminator_cases hlast).fits hj
      rw [Function.successors_eq hb ht]
      refine ⟨hfits, fun l hl => (htarget l hl).imp_right fun hin => ?_⟩
      exact List.mem_cons_of_mem _ (List.mem_append_right _ hin)
    · cases List.mem_singleton.1 hj

/-- The lines of a block are marks and instructions. -/
theorem mem_block {c : Context} {blk : Block} {n n' : Nat} {ls : Listing}
    (h : c.block b blk n = some (ls, n')) {l : Line} (hl : .ok l ∈ ls) :
    l.isMark ∨ ∃ i, l = .ins i := by
  have hcode {is : List Ins} (hl : .ok l ∈ code is) : ∃ i, l = .ins i := by
    obtain ⟨i, -, hi⟩ := List.mem_map.1 hl
    exact ⟨i, (Except.ok.inj hi).symm⟩
  obtain ⟨lss, last, hlss, rfl, hlast⟩ := block_cases h
  rcases List.mem_cons.1 hl with hl | hl
  · exact .inl (Except.ok.inj hl ▸ rfl)
  rcases List.mem_append.1 hl with hl | hl
  · obtain ⟨ls, hls, hl⟩ := List.mem_flatten.1 hl
    obtain ⟨x, -, hx⟩ := exists_of_forall₂ (forall₂_of_mapM hlss) hls
    rcases instr_cases hx with ⟨is, rfl, -⟩ | rfl
    · exact .inr (hcode hl)
    · cases List.mem_singleton.1 hl
  · rcases hlast with ⟨t, -, hlast⟩ | ⟨-, -, rfl⟩
    · cases terminator_cases hlast with
      | jump | ret | direct => exact .inr (hcode hl)
      | fork =>
        rcases List.mem_append.1 hl with hl | hl
        · exact .inr (hcode hl)
        · rcases List.mem_cons.1 hl with hl | hl
          · exact .inl (Except.ok.inj hl ▸ rfl)
          · exact .inr (hcode hl)
    · cases List.mem_singleton.1 hl

/-- The lines of a function that are not marks. -/
theorem mem_definition {c : Context} {n n' : Nat} {ls : Listing} (h : c.definition n = some (ls, n'))
    {l : Line} (hl : .ok l ∈ ls) (hmark : l.isMark = false) :
    l = .global c.function.name ∨ l = .alignCode ∨ l = .blank ∨ ∃ i, l = .ins i ∧
      (i ∈ c.prologue ∨ ∃ x ∈ c.reachableBlocks, ∃ first k k', c.block x.1 x.2 k = some (first, k') ∧
        .ok (.ins i) ∈ first ∧ first ⊆ ls) := by
  obtain ⟨head, body, hbody, hhead, rfl⟩ := definition_eq h
  rcases List.mem_append.1 hl with hl | hl
  · obtain ⟨l', hl', he⟩ := List.mem_map.1 hl
    obtain rfl := Except.ok.inj he
    rcases hhead l' hl' with rfl | rfl
    · exact .inl rfl
    · exact .inr (.inl rfl)
  rcases List.mem_cons.1 hl with hl | hl
  · rw [Except.ok.inj hl] at hmark
    cases hmark
  rcases List.mem_append.1 hl with hl | hl
  · obtain ⟨i, hi, he⟩ := List.mem_map.1 hl
    exact .inr (.inr (.inr ⟨i, (Except.ok.inj he).symm, .inl hi⟩))
  rcases List.mem_append.1 hl with hl | hl
  · obtain ⟨x, hx, first, k, k', hfirst, hin, hsub⟩ := mem_blocks hbody hl
    rcases mem_block hfirst hin with hmark' | ⟨i, rfl⟩
    · rw [hmark] at hmark'
      cases hmark'
    · refine .inr (.inr (.inr ⟨i, rfl, .inr ⟨x, hx, first, k, k', hfirst, hin, fun y hy => ?_⟩⟩))
      exact List.mem_append_right _ (List.mem_cons_of_mem _ (List.mem_append_right _
        (List.mem_append_left _ (hsub hy))))
  · exact .inr (.inr (.inl (Except.ok.inj (List.mem_singleton.1 hl))))

theorem fits_prologue {j : Ins} (hj : j ∈ (ofFunction m id f).prologue) :
    j.Fits m id ∧ j.target? = none ∧ (Line.ins j).call? = none := by
  unfold prologue at hj
  simp only [List.mem_append, List.mem_cons, List.not_mem_nil, or_false, List.mem_map] at hj
  rcases hj with ((rfl | rfl) | hj) | ⟨x, -, rfl⟩
  · exact ⟨trivial, rfl, rfl⟩
  · exact ⟨trivial, rfl, rfl⟩
  · split at hj
    · cases hj
    · rw [List.mem_singleton.1 hj]
      exact ⟨trivial, rfl, rfl⟩
  · exact ⟨trivial, rfl, rfl⟩

end Context

/-- What a line names is in the module. -/
def Line.Belongs (m : Module) : Line → Prop
  | .weak s | .global s | .symbol s => ∃ id f, m.function? id = some f ∧ f.name = s
  | .label (.global x) => ∃ g ∈ m.globals.toList, g.name = x
  | .ins i => ∃ id, i.Fits m id
  | _ => True

section Listings
variable {m : Module} {lines : List Line} {id : FuncId} {f : Function} {l : Line} {i : Ins}

theorem dataLines_cases (hl : l ∈ dataLines m) (hmark : l.isMark = false) :
    l = .data ∨ l = .alignData ∨ l = .blank ∨ ∃ n, l = .long n := by
  unfold dataLines at hl
  split at hl
  · cases hl
  · rcases List.mem_append.1 hl with hl | hl
    · simp only [List.mem_cons, List.not_mem_nil, or_false] at hl
      exact hl.imp_right .inl
    · obtain ⟨g, -, hl⟩ := List.mem_flatMap.1 hl
      simp only [List.mem_cons, List.not_mem_nil, or_false] at hl
      rcases hl with rfl | rfl | rfl
      · cases hmark
      · exact .inr (.inr (.inr ⟨_, rfl⟩))
      · exact .inr (.inr (.inl rfl))

namespace Listed
variable (h : Listed m lines)
include h

/-- The lines of a listing after the first that are not marks. -/
theorem exists_rest : ∃ rest, lines = .opening :: rest ∧ ∀ l ∈ rest, l.isMark = false →
    l ∈ [.code, .data, .alignCode, .alignData, .blank] ∨ (∃ n, l = .long n) ∨
      ∃ id f, m.function? id = some f ∧ (l = .weak f.name ∨ l = .global f.name ∨
        f.isDeclaration = false ∧ ∃ i, l = .ins i ∧ (i ∈ (Context.ofFunction m id f).prologue ∨
          ∃ x ∈ (Context.ofFunction m id f).reachableBlocks, ∃ first k k',
            (Context.ofFunction m id f).block x.1 x.2 k = some (first, k') ∧
            .ok (.ins i) ∈ first ∧ first ⊆ lines.map .ok)) := by
  obtain ⟨body, hbody, heq⟩ := h.lines_eq
  have hcons := heq
  rw [List.cons_append, List.map_eq_cons_iff] at hcons
  obtain ⟨l, rest, rfl, hl, hrest⟩ := hcons
  obtain rfl := Except.ok.inj hl
  refine ⟨rest, rfl, fun l hl hmark => ?_⟩
  have hin := List.mem_map_of_mem (f := (Except.ok : Line → Except EmitError Line)) hl
  rw [hrest] at hin
  simp only [List.cons_append, List.nil_append, List.mem_append, List.mem_cons, Except.ok.injEq] at hin
  rcases hin with rfl | hin | rfl | hin
  · exact .inl (by simp)
  · rcases mem_functions hbody hin with ⟨x, hx, he⟩ | ⟨x, hx, hd, ls, k, k', hls, hin, hsub⟩
    · exact .inr (.inr ⟨x.1, x.2, mem_live.1 hx, .inl (Except.ok.inj he)⟩)
    · rcases Context.mem_definition hls hin hmark with rfl | rfl | rfl | ⟨i, rfl, hi⟩
      · exact .inr (.inr ⟨x.1, x.2, mem_live.1 hx, .inr (.inl rfl)⟩)
      · exact .inl (by simp)
      · exact .inl (by simp)
      · refine .inr (.inr ⟨x.1, x.2, mem_live.1 hx, .inr (.inr ⟨hd, i, rfl, hi.imp_right ?_⟩)⟩)
        rintro ⟨y, hy, first, j, j', hfirst, hin, hsub'⟩
        refine ⟨y, hy, first, j, j', hfirst, hin, fun z hz => ?_⟩
        rw [heq]
        exact List.mem_append_right _ (List.mem_append_left _ (hsub (hsub' hz)))
  · exact .inl (by simp)
  · obtain ⟨l', hl', he⟩ := List.mem_map.1 hin
    obtain rfl := Except.ok.inj he
    rcases dataLines_cases hl' hmark with rfl | rfl | rfl | hlong
    · exact .inl (by simp)
    · exact .inl (by simp)
    · exact .inl (by simp)
    · exact .inr (.inl hlong)

theorem belongs (hl : l ∈ lines) : l.Belongs m := by
  cases hmark : l.isMark with
  | true =>
    rcases h.marked.all l hmark (List.mem_map_of_mem hl) with
      ⟨id, f, hf, -, rfl | ⟨b, -, rfl⟩ | ⟨k, rfl⟩⟩ | ⟨g, hg, rfl⟩
    · exact ⟨id, f, hf, rfl⟩
    · trivial
    · trivial
    · exact ⟨g, hg, rfl⟩
  | false =>
    obtain ⟨rest, rfl, hcases⟩ := h.exists_rest
    rcases List.mem_cons.1 hl with rfl | hl
    · trivial
    rcases hcases l hl hmark with hl | ⟨n, rfl⟩ | ⟨id, f, hf, rfl | rfl | ⟨hd, i, rfl, hi⟩⟩
    · simp only [List.mem_cons, List.not_mem_nil, or_false] at hl
      rcases hl with rfl | rfl | rfl | rfl | rfl <;> trivial
    · trivial
    · exact ⟨id, f, hf, rfl⟩
    · exact ⟨id, f, hf, rfl⟩
    · rcases hi with hi | ⟨x, hx, first, k, k', hfirst, hi, -⟩
      · exact ⟨id, (Context.fits_prologue hi).1⟩
      · exact ⟨id, (Context.fits_block (Context.mem_reachableBlocks.1 hx).1 hfirst hi).1⟩

/-- In a verified module a jump has a target. -/
theorem target_mem (hm : m.verify = .ok ()) (hi : .ins i ∈ lines) {t : Label} (ht : i.target? = some t) :
    .label t ∈ lines := by
  obtain ⟨rest, rfl, hcases⟩ := h.exists_rest
  have hi := (List.mem_cons.1 hi).resolve_left (by simp)
  rcases hcases _ hi rfl with hl | ⟨n, hl⟩ | ⟨id, f, hf, hl | hl | ⟨hd, j, hj, hin⟩⟩
  · simp at hl
  · cases hl
  · cases hl
  · cases hl
  · obtain rfl := Line.ins.inj hj
    rcases hin with hin | ⟨x, hx, first, k, k', hfirst, hin, hsub⟩
    · rw [(Context.fits_prologue hin).2.1] at ht
      cases ht
    · obtain ⟨hb, hr⟩ := Context.mem_reachableBlocks.1 hx
      rcases (Context.fits_block hb hfirst hin).2 t ht with ⟨d, hsucc, rfl⟩ | hlabel
      · obtain ⟨t, ht, hall⟩ := (Module.verified hm hf).ends x.1 x.2 hb
        have hlt := hall d (Function.successors_eq hb ht ▸ hsucc)
        obtain ⟨pc, -, hpc, -⟩ := h.block hf (Array.getElem?_eq_getElem hlt)
          (Function.reachable_successor hr hsucc hlt)
        exact List.mem_of_getElem? hpc
      · obtain ⟨l, hl, he⟩ := List.mem_map.1 (hsub hlabel)
        exact Except.ok.inj he ▸ hl

/-- The lines of a block, up to the next block or the end of its function. -/
theorem block_lines (hf : m.function? id = some f) {b : BlockId} {pc : Nat}
    (hpc : lines[pc]? = some (.label (.block id b))) :
    ∃ t iss last n n' next rest, f.successors b = t.successors ∧
      List.Forall₂ (fun x is => (Context.ofFunction m id f).Written x.1 x.2 is)
        ((Context.ofFunction m id f).instrsOf b) iss ∧
      (Context.ofFunction m id f).Closes b n t (last.map .ok) n' ∧
      lines.drop (pc + 1) = iss.flatten.map Line.ins ++ (last ++ next :: rest) ∧
      (next = Line.blank ∨ ∃ d, next = Line.label (.block id d)) := by
  obtain ⟨⟨blk, hblk⟩, hr⟩ := h.reachable hf (List.mem_of_getElem? hpc)
  obtain ⟨start, ls, n, n', next, rest, hls, hlies, hnext⟩ := h.lies_block hf hblk hr
  obtain ⟨lss, last, hlss, rfl, hlast⟩ := Context.block_cases hls
  rw [List.cons_append, Lies.cons_iff] at hlies
  obtain ⟨hlabel, hlies⟩ := hlies
  obtain rfl : pc = start := Option.some.inj ((h.idxOf?_eq rfl hpc).symm.trans (h.idxOf?_eq rfl hlabel))
  have hok := (Lies.append_iff.1 (Lies.append_iff.1 hlies).1).1.error_notMem
  obtain ⟨iss, hflat, hiss⟩ := Context.body_code hlss hok
  rcases hlast with ⟨t, ht, hlast⟩ | ⟨-, -, rfl⟩
  · obtain ⟨shown, more, hshown, hdrop⟩ := hlies.drop_eq
    obtain ⟨front, back, rfl, hfront, hback⟩ := List.map_eq_append_iff.1 hshown.symm
    obtain ⟨instrs, last, rfl, hinstrs, rfl⟩ := List.map_eq_append_iff.1 hfront
    rw [hflat, code_eq_map] at hinstrs
    obtain rfl := map_ok_inj hinstrs
    obtain ⟨next, after, rfl, hl, -⟩ := List.map_eq_cons_iff.1 hback
    obtain rfl := Except.ok.inj hl
    refine ⟨t, iss, last, n, n', next, after ++ more, Function.successors_eq hblk ht, hiss,
      Context.terminator_cases hlast, ?_, hnext⟩
    rw [hdrop]
    simp
  · exact absurd (List.mem_append_right _ List.mem_cons_self)
      ((Lies.append_iff.1 hlies).1.error_notMem _)

end Listed
end Listings
end IntLang.Assembly
