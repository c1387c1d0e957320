import IntLang.Proofs.Listings
import IntLang.Proofs.VerifiedModules

/-! Ways through a listing. From the label of a block control passes the code of the block and that of
one edge, and comes to the label of a successor. In a verified module every phi of that successor has
its copy on the way. -/
namespace IntLang.Assembly
open IntLang.Flow IntLang.Machine IntLang.Code

/-- After this instruction control is on the next line. A call comes back there. -/
def Ins.goesOn : Ins → Bool
  | .jump _ | .jumpIfZero _ | .ret => false
  | _ => true

/-- From line `pc` control can come to the label of block `b` of function `f`, and to no other block
before that. These are the instructions on the way. -/
inductive Path (lines : List Line) (f : FuncId) (b : BlockId) : Nat → List Ins → Prop where
  | arrive {pc : Nat} (line : lines[pc]? = some (.label (.block f b))) : Path lines f b pc []
  | pass {pc : Nat} {g : FuncId} {k : Nat} {is : List Ins}
      (line : lines[pc]? = some (.label (.edge g k))) (rest : Path lines f b (pc + 1) is) :
      Path lines f b pc is
  | next {pc : Nat} {i : Ins} {is : List Ins} (line : lines[pc]? = some (.ins i)) (goesOn : i.goesOn)
      (rest : Path lines f b (pc + 1) is) : Path lines f b pc (i :: is)
  | jump {pc pc' : Nat} {l : Label} {is : List Ins} (line : lines[pc]? = some (.ins (.jump l)))
      (target : lines.idxOf? (.label l) = some pc') (rest : Path lines f b pc' is) :
      Path lines f b pc (.jump l :: is)
  | taken {pc pc' : Nat} {l : Label} {is : List Ins} (line : lines[pc]? = some (.ins (.jumpIfZero l)))
      (target : lines.idxOf? (.label l) = some pc') (rest : Path lines f b pc' is) :
      Path lines f b pc (.jumpIfZero l :: is)
  | passed {pc : Nat} {l : Label} {is : List Ins} (line : lines[pc]? = some (.ins (.jumpIfZero l)))
      (rest : Path lines f b (pc + 1) is) : Path lines f b pc (.jumpIfZero l :: is)

theorem getElem?_of_idxOf? {lines : List Line} {l : Line} {k : Nat} (h : lines.idxOf? l = some k) :
    lines[k]? = some l := by
  rw [List.idxOf?, List.findIdx?_eq_some_iff_getElem] at h
  obtain ⟨hlt, hbeq, -⟩ := h
  rw [List.getElem?_eq_getElem hlt, beq_iff_eq.1 hbeq]

namespace Context
variable {c : Context} {id : InstrId} {i : Instr} {is : List Ins} {source target : BlockId}

theorem Written.goesOn (h : c.Written id i is) : ∀ j ∈ is, j.goesOn := by
  cases h with
  | alloca | phi => simp
  | load | store | widen | compare => simp [Ins.goesOn]
  | arith op => cases op <;> simp [Context.arith, Ins.goesOn]
  | call =>
    intro j hj
    simp only [List.mem_append, List.mem_cons, List.not_mem_nil, or_false] at hj
    rcases hj with hj | rfl | hj | rfl
    · rcases mem_passing hj with ⟨p, -, r, rfl⟩ | ⟨n, rfl⟩ | rfl | rfl <;> rfl
    · rfl
    · obtain ⟨n, rfl⟩ := mem_cleanup hj
      rfl
    · rfl

theorem Carries.goesOn (h : c.Carries source target is) : ∀ j ∈ is, j.goesOn := by
  intro j hj
  rcases h.mem hj with ⟨v, p, -, rfl⟩ | ⟨k, r, -, rfl⟩ <;> rfl

/-- On the way from `source` to `target` every phi of `target` is given its value for `source`. -/
def CopiesPhis (c : Context) (source target : BlockId) (is : List Ins) : Prop :=
  ∀ k id ty incoming, Holds c.function target k id (.phi ty incoming) → ∃ v p r,
    (v, source) ∈ incoming ∧ c.place? v = some p ∧ c.layout.result? id = some r ∧
      [.load p .eax, .store .eax r] <:+: is

theorem mem_instrsOf_of_holds {b : BlockId} {k : Nat} (h : Holds c.function b k id i) :
    (id, i) ∈ c.instrsOf b := by
  obtain ⟨blk, hb, hk, hi⟩ := h
  simp only [instrsOf, hb]
  refine List.mem_filterMap.2 ⟨id, Array.mem_toList_iff.2 (Array.mem_of_getElem? hk), ?_⟩
  rw [hi]
  rfl

/-- In a verified function a phi names every block that control can come from. -/
theorem incoming?_of_verified (hv : c.function.Verified) {ty : Ty} {incoming : List (Operand × BlockId)}
    {k : Nat} (h : Holds c.function target k id (.phi ty incoming))
    (hs : target ∈ c.function.successors source) :
    ∃ v, incoming? source (.phi ty incoming) = some v ∧ (v, source) ∈ incoming := by
  obtain ⟨x, hx, rfl⟩ := List.mem_map.1 (((hv.phis _ _ _ _ _ h).2 source).2 hs)
  cases hfind : incoming.find? (·.2 == x.2) with
  | none => simpa using List.find?_eq_none.1 hfind x hx
  | some y =>
    have hsome := List.find?_some hfind
    refine ⟨y.1, by rw [incoming?, hfind]; rfl, ?_⟩
    rw [← beq_iff_eq.1 hsome]
    exact List.mem_of_find?_eq_some hfind

theorem Carries.copiesPhis (h : c.Carries source target is) (hv : c.function.Verified)
    (hs : target ∈ c.function.successors source) : c.CopiesPhis source target is := by
  obtain ⟨iss, rfl, hiss⟩ := h.flatten
  intro k id ty incoming hphi
  obtain ⟨v, hv, hmem⟩ := incoming?_of_verified hv hphi hs
  obtain ⟨is, his, hcopy⟩ := exists_of_forall₂ hiss.flip (mem_instrsOf_of_holds hphi)
  simp only [edgeCopy, hv] at hcopy
  obtain ⟨r, hr, hcopy⟩ := Option.bind_eq_some_iff.1 hcopy
  obtain ⟨p, hp, heq⟩ := copy_eq_some hcopy
  obtain rfl := code_inj heq
  exact ⟨v, p, r, hmem, hp, hr, List.infix_of_mem_flatten his⟩

/-- Where nothing needs to be copied there is no phi. -/
theorem copiesPhis_of_needsCopies (h : c.needsCopies source target = false) (hv : c.function.Verified)
    (hs : target ∈ c.function.successors source) : c.CopiesPhis source target is := by
  intro k id ty incoming hphi
  obtain ⟨v, hv, -⟩ := incoming?_of_verified hv hphi hs
  have hno := List.any_eq_false.1 h _ (mem_instrsOf_of_holds hphi)
  simp [hv] at hno

theorem CopiesPhis.mono {js : List Ins} (h : c.CopiesPhis source target is) (hle : is <:+: js) :
    c.CopiesPhis source target js := by
  intro k id ty incoming hphi
  obtain ⟨v, p, r, hmem, hp, hr, hin⟩ := h k id ty incoming hphi
  exact ⟨v, p, r, hmem, hp, hr, hin.trans hle⟩

end Context

theorem Lies.test {lines : List Line} {pc : Nat} {js : List Ins} {p : Place} {l : Label}
    (h : Lies lines pc (code ([Ins.load p .eax, .test, .jumpIfZero l] ++ js))) :
    lines[pc]? = some (.ins (.load p .eax)) ∧ lines[pc + 1]? = some (.ins .test) ∧
      lines[pc + 2]? = some (.ins (.jumpIfZero l)) ∧ Lies lines (pc + 3) (code js) := by
  obtain ⟨hload, h⟩ := Lies.cons_iff.1 h
  obtain ⟨htest, h⟩ := Lies.cons_iff.1 h
  exact ⟨hload, htest, Lies.cons_iff.1 h⟩

namespace Path
variable {lines : List Line} {f : FuncId} {b : BlockId} {pc : Nat} {is js : List Ins}

/-- Where control goes on, a way leads through all of the code. -/
theorem append (hl : Lies lines pc (code js)) (hjs : ∀ j ∈ js, j.goesOn)
    (h : Path lines f b (pc + js.length) is) : Path lines f b pc (js ++ is) := by
  induction js generalizing pc with
  | nil => exact h
  | cons j js ih =>
    obtain ⟨hline, hrest⟩ := Lies.cons_iff.1 hl
    refine .next hline (hjs j List.mem_cons_self)
      (ih hrest (fun j' hj' => hjs j' (List.mem_cons_of_mem j hj')) ?_)
    rwa [List.length_cons, Nat.add_comm js.length, ← Nat.add_assoc] at h

theorem of_append (hl : Lies lines pc (code js)) (hjs : ∀ j ∈ js, j.goesOn)
    (h : Path lines f b pc is) : ∃ rest, is = js ++ rest ∧ Path lines f b (pc + js.length) rest := by
  induction js generalizing pc is with
  | nil => exact ⟨is, rfl, h⟩
  | cons j js ih =>
    obtain ⟨hline, hrest⟩ := Lies.cons_iff.1 hl
    have hj := hjs j List.mem_cons_self
    have hjs' : ∀ j' ∈ js, j'.goesOn := fun j' hj' => hjs j' (List.mem_cons_of_mem j hj')
    rw [List.length_cons, Nat.add_comm js.length, ← Nat.add_assoc]
    cases h with
    | arrive line => cases hline.symm.trans line
    | pass line => cases hline.symm.trans line
    | next line _ hp =>
      obtain rfl := Line.ins.inj (Option.some.inj (hline.symm.trans line))
      obtain ⟨rest, rfl, hend⟩ := ih hrest hjs' hp
      exact ⟨rest, rfl, hend⟩
    | jump line | taken line | passed line =>
      obtain rfl := Line.ins.inj (Option.some.inj (hline.symm.trans line))
      cases hj

theorem of_label {g : FuncId} {d : BlockId} (hl : lines[pc]? = some (.label (.block g d)))
    (h : Path lines f b pc is) : f = g ∧ b = d := by
  cases h with
  | arrive line => simpa using (hl.symm.trans line).symm
  | pass line | next line | jump line | taken line | passed line => cases hl.symm.trans line

theorem of_jump {l : Label} (hl : lines[pc]? = some (.ins (.jump l))) (h : Path lines f b pc is) :
    ∃ pc' rest, lines.idxOf? (.label l) = some pc' ∧ is = .jump l :: rest ∧ Path lines f b pc' rest := by
  cases h with
  | jump line target rest =>
    obtain rfl := Ins.jump.inj (Line.ins.inj (Option.some.inj (hl.symm.trans line)))
    exact ⟨_, _, target, rfl, rest⟩
  | next line goesOn =>
    obtain rfl := Line.ins.inj (Option.some.inj (hl.symm.trans line))
    cases goesOn
  | arrive line | pass line | taken line | passed line => cases hl.symm.trans line

/-- A way through a jump to a block ends there. -/
theorem of_jump_block {g : FuncId} {d : BlockId} (hl : lines[pc]? = some (.ins (.jump (.block g d))))
    (h : Path lines f b pc is) : f = g ∧ b = d := by
  obtain ⟨pc', rest, htarget, -, hp⟩ := h.of_jump hl
  exact hp.of_label (getElem?_of_idxOf? htarget)

theorem of_jumpIfZero {l : Label} (hl : lines[pc]? = some (.ins (.jumpIfZero l)))
    (h : Path lines f b pc is) : ∃ rest, is = .jumpIfZero l :: rest ∧
      (Path lines f b (pc + 1) rest ∨
        ∃ pc', lines.idxOf? (.label l) = some pc' ∧ Path lines f b pc' rest) := by
  cases h with
  | taken line target rest =>
    obtain rfl := Ins.jumpIfZero.inj (Line.ins.inj (Option.some.inj (hl.symm.trans line)))
    exact ⟨_, rfl, .inr ⟨_, target, rest⟩⟩
  | passed line rest =>
    obtain rfl := Ins.jumpIfZero.inj (Line.ins.inj (Option.some.inj (hl.symm.trans line)))
    exact ⟨_, rfl, .inl rest⟩
  | next line goesOn =>
    obtain rfl := Line.ins.inj (Option.some.inj (hl.symm.trans line))
    cases goesOn
  | arrive line | pass line | jump line => cases hl.symm.trans line

theorem of_edge {g : FuncId} {k : Nat} (hl : lines[pc]? = some (.label (.edge g k)))
    (h : Path lines f b pc is) : Path lines f b (pc + 1) is := by
  cases h with
  | pass _ rest => exact rest
  | arrive line | next line | jump line | taken line | passed line => cases hl.symm.trans line

theorem not_ret (h : Path lines f b pc is) : lines[pc]? ≠ some (.ins .ret) := by
  intro hl
  cases h with
  | next line goesOn =>
    obtain rfl := Line.ins.inj (Option.some.inj (hl.symm.trans line))
    cases goesOn
  | arrive line | pass line | jump line | taken line | passed line => cases hl.symm.trans line

theorem test {p : Place} {l : Label}
    (hl : Lies lines pc (code ([Ins.load p .eax, .test, .jumpIfZero l] ++ js)))
    (h : Path lines f b (pc + 3) is ∨ ∃ pc', lines.idxOf? (.label l) = some pc' ∧ Path lines f b pc' is) :
    Path lines f b pc ([Ins.load p .eax, .test, .jumpIfZero l] ++ is) := by
  obtain ⟨hload, htest, hjump, -⟩ := hl.test
  refine .next hload rfl (.next htest rfl ?_)
  rcases h with h | ⟨pc', htarget, h⟩
  · exact .passed hjump h
  · exact .taken hjump htarget h

/-- A way through a test leads on, or to the label. -/
theorem of_test {p : Place} {l : Label}
    (hl : Lies lines pc (code ([Ins.load p .eax, .test, .jumpIfZero l] ++ js)))
    (h : Path lines f b pc is) : ∃ rest, is = [Ins.load p .eax, .test, .jumpIfZero l] ++ rest ∧
      (Path lines f b (pc + 3) rest ∨
        ∃ pc', lines.idxOf? (.label l) = some pc' ∧ Path lines f b pc' rest) := by
  obtain ⟨hload, htest, hjump, -⟩ := hl.test
  have hfirst : Lies lines pc (code [.load p .eax, .test]) :=
    Lies.cons_iff.2 ⟨hload, Lies.cons_iff.2 ⟨htest, List.nil_prefix⟩⟩
  obtain ⟨is, rfl, hend⟩ := h.of_append hfirst (by simp [Ins.goesOn])
  obtain ⟨rest, rfl, hnext⟩ := hend.of_jumpIfZero hjump
  exact ⟨rest, rfl, hnext⟩

end Path

section Ways
variable {m : Module} {lines : List Line} {id : FuncId} {f : Function} {c : Context} {s b d : BlockId}
  {pc pc' : Nat} {is cs : List Ins}

namespace Context.Carries

/-- The code of an edge leads to its target. -/
theorem path (h : c.Carries s d cs) (hl : Lies lines pc (code (cs ++ [Ins.jump (c.blockLabel d)])))
    (htarget : lines.idxOf? (.label (c.blockLabel d)) = some pc') :
    Path lines c.id d pc (cs ++ [Ins.jump (c.blockLabel d)]) := by
  rw [code_append, Lies.append_iff] at hl
  refine Path.append hl.1 h.goesOn (.jump ?_ htarget (.arrive (getElem?_of_idxOf? htarget)))
  simpa [code] using (Lies.cons_iff.1 hl.2).1

theorem of_path (h : c.Carries s d cs) (hl : Lies lines pc (code (cs ++ [Ins.jump (c.blockLabel d)])))
    {j : FuncId} (hp : Path lines j b pc is) : j = c.id ∧ b = d ∧ cs <:+: is := by
  rw [code_append, Lies.append_iff] at hl
  obtain ⟨rest, rfl, hend⟩ := hp.of_append hl.1 h.goesOn
  have hjump := (Lies.cons_iff.1 hl.2).1
  rw [code, List.length_map] at hjump
  obtain ⟨rfl, rfl⟩ := hend.of_jump_block hjump
  exact ⟨rfl, rfl, (List.prefix_append cs rest).isInfix⟩

end Context.Carries

variable {t : Terminator} {n n' : Nat} {ls : Listing}

theorem Listed.path_closes (h : Listed m lines) (hc : c.Closes s n t ls n') (hl : Lies lines pc ls)
    (hlabels : ∀ d ∈ t.successors, ∃ k, lines.idxOf? (.label (c.blockLabel d)) = some k)
    (hb : b ∈ t.successors) : ∃ is, Path lines c.id b pc is := by
  obtain ⟨k, hk⟩ := hlabels b hb
  cases hc with
  | jump copies =>
    obtain rfl := List.mem_singleton.1 hb
    exact ⟨_, copies.path hl hk⟩
  | ret => cases hb
  | fork place copies copies' =>
    obtain ⟨hfirst, hsecond⟩ := Lies.append_iff.1 hl
    obtain ⟨hlabel, hsecond⟩ := Lies.cons_iff.1 hsecond
    simp only [Terminator.successors, List.mem_cons, List.not_mem_nil, or_false] at hb
    rcases hb with rfl | rfl
    · exact ⟨_, .test hfirst (.inl (copies.path hfirst.test.2.2.2 hk))⟩
    · exact ⟨_, .test hfirst (.inr ⟨_, h.idxOf?_eq rfl hlabel, .pass hlabel (copies'.path hsecond hk)⟩)⟩
  | direct place copies =>
    simp only [Terminator.successors, List.mem_cons, List.not_mem_nil, or_false] at hb
    rcases hb with rfl | rfl
    · exact ⟨_, .test hl (.inl (copies.path hl.test.2.2.2 hk))⟩
    · exact ⟨_, .test hl (.inr ⟨_, hk, .arrive (getElem?_of_idxOf? hk)⟩)⟩

/-- A terminator leads nowhere else, and past the copies of the edge that is taken. -/
theorem Listed.of_path_closes (h : Listed m lines) (hc : c.Closes s n t ls n') (hl : Lies lines pc ls)
    {j : FuncId} (hp : Path lines j b pc is) : j = c.id ∧ b ∈ t.successors ∧
      ((∃ cs, c.Carries s b cs ∧ cs <:+: is) ∨ c.needsCopies s b = false) := by
  cases hc with
  | jump copies =>
    obtain ⟨rfl, rfl, hin⟩ := copies.of_path hl hp
    exact ⟨rfl, List.mem_cons_self, .inl ⟨_, copies, hin⟩⟩
  | @ret v p =>
    have hcode : code [.load p .eax, .leave, .ret] = code ([Ins.load p .eax, .leave] ++ [Ins.ret]) := rfl
    rw [hcode, code_append, Lies.append_iff] at hl
    obtain ⟨rest, -, hend⟩ := hp.of_append hl.1 (by simp [Ins.goesOn])
    exact absurd (Lies.cons_iff.1 hl.2).1 hend.not_ret
  | fork place copies copies' =>
    obtain ⟨hfirst, hsecond⟩ := Lies.append_iff.1 hl
    obtain ⟨hlabel, hsecond⟩ := Lies.cons_iff.1 hsecond
    obtain ⟨rest, rfl, hp | ⟨k, hk, hp⟩⟩ := hp.of_test hfirst
    · obtain ⟨rfl, rfl, hin⟩ := copies.of_path hfirst.test.2.2.2 hp
      exact ⟨rfl, List.mem_cons_self, .inl ⟨_, copies, hin.trans (List.suffix_append _ _).isInfix⟩⟩
    · obtain rfl := Option.some.inj (hk.symm.trans (h.idxOf?_eq rfl hlabel))
      obtain ⟨rfl, rfl, hin⟩ := copies'.of_path hsecond (hp.of_edge hlabel)
      exact ⟨rfl, by simp [Terminator.successors],
        .inl ⟨_, copies', hin.trans (List.suffix_append _ _).isInfix⟩⟩
  | direct place copies none =>
    obtain ⟨rest, rfl, hp | ⟨k, hk, hp⟩⟩ := hp.of_test hl
    · obtain ⟨rfl, rfl, hin⟩ := copies.of_path hl.test.2.2.2 hp
      exact ⟨rfl, List.mem_cons_self, .inl ⟨_, copies, hin.trans (List.suffix_append _ _).isInfix⟩⟩
    · obtain ⟨rfl, rfl⟩ := hp.of_label (getElem?_of_idxOf? hk)
      exact ⟨rfl, by simp [Terminator.successors], .inr none⟩

/-- From a block of a verified function control comes to each of its successors and nowhere else, with
a copy for every phi on the way. -/
theorem Listed.paths (h : Listed m lines) (hf : m.function? id = some f) (hv : f.Verified)
    (hs : lines[pc]? = some (.label (.block id s))) :
    (∀ b ∈ f.successors s, ∃ is, Path lines id b (pc + 1) is) ∧
      ∀ j b is, Path lines j b (pc + 1) is →
        j = id ∧ b ∈ f.successors s ∧ (Context.ofFunction m id f).CopiesPhis s b is := by
  obtain ⟨⟨blk, hblk⟩, hr⟩ := h.reachable hf (List.mem_of_getElem? hs)
  obtain ⟨k, hk, -, hcont⟩ := h.block hf hblk hr
  obtain rfl := Option.some.inj (hk.symm.trans (h.idxOf?_eq rfl hs))
  obtain ⟨blk', t, lss, last, n, n', hblk', ht, hlss, hlast, hlies⟩ := hcont
  obtain rfl := Option.some.inj (hblk.symm.trans hblk')
  rw [Lies.append_iff] at hlies
  obtain ⟨iss, hflat, hiss⟩ := Context.body_code hlss hlies.1.error_notMem
  rw [hflat] at hlies
  have hgoes : ∀ j ∈ iss.flatten, j.goesOn := by
    intro j hj
    obtain ⟨is, his, hj⟩ := List.mem_flatten.1 hj
    obtain ⟨x, -, hx⟩ := exists_of_forall₂ hiss his
    exact hx.goesOn j hj
  have hc := Context.terminator_cases hlast
  have hsucc := Function.successors_eq hblk ht
  have hend := hlies.2
  rw [code, List.length_map] at hend
  constructor
  · have hlabels : ∀ d ∈ t.successors, ∃ k, lines.idxOf? (.label (.block id d)) = some k := by
      intro d hd
      obtain ⟨t', ht', hlt⟩ := hv.ends s blk hblk
      obtain rfl := Option.some.inj (ht.symm.trans ht')
      obtain ⟨k, hk, -⟩ := h.block hf (Array.getElem?_eq_getElem (hlt d hd))
        (Function.reachable_successor hr (hsucc ▸ hd) (hlt d hd))
      exact ⟨k, hk⟩
    intro b hb
    obtain ⟨is, his⟩ := h.path_closes hc hend hlabels (hsucc ▸ hb)
    exact ⟨_, his.append hlies.1 hgoes⟩
  · intro j b is hp
    obtain ⟨rest, rfl, hrest⟩ := hp.of_append hlies.1 hgoes
    obtain ⟨rfl, hb, hcopies⟩ := h.of_path_closes hc hend hrest
    rw [← hsucc] at hb
    refine ⟨rfl, hb, ?_⟩
    rcases hcopies with ⟨cs, hcs, hin⟩ | hno
    · exact (hcs.copiesPhis hv hb).mono (hin.trans (List.suffix_append _ _).isInfix)
    · exact Context.copiesPhis_of_needsCopies hno hv hb

end Ways

end IntLang.Assembly
