import IntLang.Proofs.ArgumentPassing
import IntLang.Proofs.References

/-! Where the stack pointer is within a function. How far the code of a function has moved it can be read
off the lines, one after the other: every call is made with the stack aligned, control moves between blocks
with nothing but the frame on the stack, and the function returns with the stack as it was on entry. A run
of the function keeps to this whatever path it takes. -/
namespace IntLang.Assembly
open IntLang.Flow

/-- How far the stack pointer is below where it was on entry, and the frame pointer if the function has
set it. -/
structure Depth where
  stack : Nat
  frame : Option Nat
  deriving DecidableEq, Repr

namespace Depth

/-- Between the instructions of a function with `size` bytes of frame. -/
def inside (size : Nat) : Depth :=
  ⟨8 + size, some 8⟩

/-- The depth after a line. There is none if a call finds the stack not aligned, if control moves on, or a
frame is left, with more than the frame on the stack, or if a function returns with anything on it. -/
def after (size : Nat) (d : Depth) : Line → Option Depth
  | .ins .pushFrame | .ins .pushAcc => some { d with stack := d.stack + 8 }
  | .ins .setFrame => some { d with frame := some d.stack }
  | .ins (.lowerStack n) => some { d with stack := d.stack + n }
  | .ins (.raiseStack n) => if n ≤ d.stack then some { d with stack := d.stack - n } else none
  | .ins (.call ..) => if d.stack % 16 = 8 then some d else none
  | .ins (.jump _) | .ins (.jumpIfZero _) | .label _ => if d = inside size then some d else none
  | .ins .leave => if d = inside size then some ⟨0, none⟩ else none
  | .ins .ret => if d.stack = 0 then some (inside size) else none
  | _ => some d

def through (size : Nat) (d : Depth) (ls : List Line) : Option Depth :=
  ls.foldlM (after size) d

/-- The pointers of a processor are as deep as `d` says, from where the stack pointer was on entry. -/
structure Matches (d : Depth) (top : Int) (s : Processor) : Prop where
  sp : s.sp = top - d.stack
  fp : ∀ k, d.frame = some k → s.fp = top - k

variable {size : Nat} {d d₁ d' : Depth} {l : Line} {a b : List Line}

theorem Matches.push {top : Int} {s : Processor} (h : d.Matches top s) (x : Datum) :
    ({ d with stack := d.stack + 8 } : Depth).Matches top (s.push x) := by
  have hsp := h.sp
  refine ⟨?_, h.fp⟩
  simp only [Processor.push]
  omega

theorem through_cons (h : d.after size l = some d₁) (h' : d₁.through size a = some d') :
    d.through size (l :: a) = some d' := by
  rw [through, List.foldlM_cons, h]
  exact h'

theorem through_append (h : d.through size a = some d₁) (h' : d₁.through size b = some d') :
    d.through size (a ++ b) = some d' := by
  rw [through] at h
  rw [through, List.foldlM_append, h]
  exact h'

theorem of_through_append (h : d.through size (a ++ b) = some d') :
    ∃ d₁, d.through size a = some d₁ ∧ d₁.through size b = some d' := by
  rw [through, List.foldlM_append] at h
  exact Option.bind_eq_some_iff.1 h

theorem of_through_cons (h : d.through size (l :: a) = some d') :
    ∃ d₁, d.after size l = some d₁ ∧ d₁.through size a = some d' := by
  rw [through, List.foldlM_cons] at h
  exact Option.bind_eq_some_iff.1 h

/-- What comes before a label leaves nothing but the frame on the stack. -/
theorem inside_of_label {l : Label} (h : d.through size (a ++ .label l :: b) = some d') :
    d.through size a = some (inside size) := by
  obtain ⟨d₁, hbefore, h⟩ := of_through_append h
  obtain ⟨_, hafter, -⟩ := of_through_cons h
  obtain ⟨rfl, -⟩ := Option.ite_none_right_eq_some.1 hafter
  exact hbefore

end Depth

def Ins.isPlain : Ins → Bool
  | .pushFrame | .pushAcc | .setFrame | .lowerStack _ | .raiseStack _ | .leave => false
  | .jump _ | .jumpIfZero _ | .call .. | .ret => false
  | _ => true

namespace Ins
variable {i : Ins} {s s' : Processor}

theorem after_of_isPlain (h : i.isPlain) (size : Nat) (d : Depth) : d.after size (.ins i) = some d := by
  cases i with
  | pushFrame | pushAcc | setFrame | lowerStack | raiseStack | leave => cases h
  | jump | jumpIfZero | call | ret => cases h
  | _ => rfl

theorem through_of_isPlain {is : List Ins} (h : ∀ i ∈ is, i.isPlain) (size : Nat) (d : Depth) :
    d.through size (is.map .ins) = some d := by
  induction is with
  | nil => rfl
  | cons i is ih =>
    exact Depth.through_cons (after_of_isPlain (h i List.mem_cons_self) size d)
      (ih fun j hj => h j (List.mem_cons_of_mem i hj))

theorem pointers_of_isPlain (h : i.isPlain) (hexec : i.exec s = some s') : s'.sp = s.sp ∧ s'.fp = s.fp := by
  cases i with
  | pushFrame | pushAcc | setFrame | lowerStack | raiseStack | leave => cases h
  | jump | jumpIfZero | call | ret => cases h
  | load | signExtend | widenFlag | test =>
    obtain ⟨n, -, rfl⟩ := Option.map_eq_some_iff.1 hexec
    exact ⟨rfl, rfl⟩
  | clearAcc =>
    obtain rfl := Option.some.inj hexec
    exact ⟨rfl, rfl⟩
  | store r p =>
    obtain ⟨n, -, hwrite⟩ := Option.bind_eq_some_iff.1 hexec
    cases p with
    | imm => cases hwrite
    | frame =>
      obtain rfl := Option.some.inj hwrite
      exact ⟨rfl, rfl⟩
    | global =>
      obtain ⟨-, heq⟩ := Option.ite_none_right_eq_some.1 hwrite
      obtain rfl := Option.some.inj heq
      exact ⟨rfl, rfl⟩
  | alu | compare | setFlag =>
    obtain ⟨a, -, hexec⟩ := Option.bind_eq_some_iff.1 hexec
    obtain ⟨b, -, hexec⟩ := Option.bind_eq_some_iff.1 hexec
    obtain rfl := Option.some.inj hexec
    exact ⟨rfl, rfl⟩
  | divide =>
    obtain ⟨a, -, hexec⟩ := Option.bind_eq_some_iff.1 hexec
    obtain ⟨b, -, hexec⟩ := Option.bind_eq_some_iff.1 hexec
    obtain ⟨c, -, hexec⟩ := Option.bind_eq_some_iff.1 hexec
    obtain ⟨x, -, hexec⟩ := Option.bind_eq_some_iff.1 hexec
    obtain rfl := Option.some.inj hexec
    exact ⟨rfl, rfl⟩

/-- An instruction moves the pointers as the depth says. -/
theorem exec_matches {size : Nat} {d d' : Depth} {top : Int} (h : d.Matches top s)
    (hexec : i.exec s = some s') (hd : d.after size (.ins i) = some d') : d'.Matches top s' := by
  cases hplain : i.isPlain with
  | true =>
    obtain rfl := Option.some.inj ((after_of_isPlain hplain size d).symm.trans hd)
    obtain ⟨hsp, hfp⟩ := pointers_of_isPlain hplain hexec
    exact ⟨hsp.trans h.sp, fun k hk => hfp.trans (h.fp k hk)⟩
  | false =>
    have hsp := h.sp
    cases i with
    | load | store | alu | signExtend | divide | compare | setFlag | widenFlag | test | clearAcc =>
      cases hplain
    | jump | jumpIfZero | call | ret => cases hexec
    | pushFrame =>
      obtain rfl := Option.some.inj hexec
      obtain rfl := Option.some.inj hd
      exact h.push _
    | pushAcc =>
      obtain ⟨n, -, rfl⟩ := Option.map_eq_some_iff.1 hexec
      obtain rfl := Option.some.inj hd
      exact h.push _
    | setFrame =>
      obtain rfl := Option.some.inj hexec
      obtain rfl := Option.some.inj hd
      exact ⟨hsp, fun k hk => Option.some.inj hk ▸ hsp⟩
    | lowerStack n =>
      obtain rfl := Option.some.inj hexec
      obtain rfl := Option.some.inj hd
      refine ⟨?_, h.fp⟩
      dsimp only
      omega
    | raiseStack n =>
      obtain rfl := Option.some.inj hexec
      obtain ⟨hle, heq⟩ := Option.ite_none_right_eq_some.1 hd
      obtain rfl := Option.some.inj heq
      refine ⟨?_, h.fp⟩
      dsimp only
      omega
    | leave =>
      obtain ⟨rfl, heq⟩ := Option.ite_none_right_eq_some.1 hd
      obtain rfl := Option.some.inj heq
      have hfp := h.fp 8 rfl
      rw [exec] at hexec
      split at hexec
      · obtain rfl := Option.some.inj hexec
        refine ⟨?_, fun k hk => by cases hk⟩
        dsimp only
        omega
      · cases hexec

end Ins

namespace Depth
variable {c : Context} {size n n' : Nat} {ls : List Line} {is : List Ins} {b : BlockId}

theorem through_lower (size : Nat) (d : Depth) (k : Nat) :
    d.through size ((if k = 0 then [] else [Ins.lowerStack k]).map .ins) =
      some { d with stack := d.stack + k } := by
  split
  · next hk =>
    rw [hk]
    rfl
  · rfl

theorem through_pushes (size : Nat) (d : Depth) (ps : List Place) :
    d.through size ((ps.flatMap fun p => [Ins.load p .eax, .pushAcc]).map .ins) =
      some { d with stack := d.stack + 8 * ps.length } := by
  induction ps generalizing d with
  | nil => rfl
  | cons p ps ih =>
    refine (ih { d with stack := d.stack + 8 }).trans ?_
    rw [List.length_cons, Nat.mul_succ, Nat.add_assoc, Nat.add_comm 8]

theorem through_passing (size : Nat) (d : Depth) (target : Function) (ps : List Place) :
    d.through size ((Context.passing target ps).map .ins) =
      some { d with stack := d.stack + Context.room ps.length } := by
  rw [Context.passing, List.append_assoc, List.append_assoc, List.map_append, List.map_append]
  refine through_append (through_lower size d _) (through_append (through_pushes size _ _) ?_)
  refine (Ins.through_of_isPlain (fun i hi => ?_) size _).trans ?_
  · rcases List.mem_append.1 hi with hi | hi
    · obtain ⟨x, -, rfl⟩ := List.mem_map.1 hi
      rfl
    · split at hi
      · rw [List.mem_singleton.1 hi]
        rfl
      · cases hi
  · rw [List.length_reverse, List.length_drop, Context.room, Nat.add_assoc, Nat.add_comm (Context.padding _)]

theorem through_cleanup (size : Nat) (d : Depth) (k : Nat) :
    ({ d with stack := d.stack + Context.room k } : Depth).through size ((Context.cleanup k).map .ins) =
      some d := by
  unfold Context.cleanup
  split
  · next hk => simp [Context.room, hk, Context.padding, through]
  · simp [through, after]

/-- The code of an instruction takes off the stack what it puts there. -/
theorem through_written {id : InstrId} {i : Instr} (h : c.Written id i is)
    (hsize : size % 16 = 0) : (inside size).through size (is.map .ins) = some (inside size) := by
  cases h with
  | alloca | phi | load | store | widen | compare =>
    exact Ins.through_of_isPlain (by simp [Ins.isPlain]) size _
  | arith op => exact Ins.through_of_isPlain (by cases op <;> simp [Context.arith, Ins.isPlain]) size _
  | @call callee args target ps r function places result =>
    have hroom := Context.room_mod ps.length
    have haligned : (8 + size + Context.room ps.length) % 16 = 8 := by omega
    rw [List.map_append, List.map_cons, List.map_append]
    refine through_append (through_passing size _ target ps) (through_cons (if_pos haligned) ?_)
    exact through_append (through_cleanup size (inside size) ps.length) rfl

theorem through_flatten {xs : List (InstrId × Instr)} {iss : List (List Ins)}
    (h : List.Forall₂ (fun x is => c.Written x.1 x.2 is) xs iss) (hsize : size % 16 = 0) :
    (inside size).through size (iss.flatten.map .ins) = some (inside size) := by
  induction h with
  | nil => rfl
  | cons hx _ ih =>
    rw [List.flatten_cons, List.map_append]
    exact through_append (through_written hx hsize) ih

theorem through_goto {source target : BlockId} (h : c.Carries source target is) (l : Label) :
    (inside size).through size ((is ++ [Ins.jump l]).map .ins) = some (inside size) := by
  have hplain : ∀ i ∈ is, i.isPlain := by
    intro i hi
    rcases h.mem hi with ⟨v, p, -, rfl⟩ | ⟨k, r, -, rfl⟩ <;> rfl
  rw [List.map_append]
  exact through_append (Ins.through_of_isPlain hplain size _) (through_cons (if_pos rfl) rfl)

theorem through_test (size : Nat) (p : Place) (l : Label) :
    (inside size).through size (([.load p .eax, .test, .jumpIfZero l] : List Ins).map .ins) =
      some (inside size) :=
  through_cons rfl (through_cons rfl (through_cons (if_pos rfl) rfl))

/-- A terminator finds nothing but the frame on the stack, and so does what follows it. -/
theorem through_closes {t : Terminator}
    (h : c.Closes b n t (ls.map .ok) n') : (inside size).through size ls = some (inside size) := by
  generalize hlines : ls.map Except.ok = lines at h
  cases h with
  | jump copies =>
    rw [code_eq_map] at hlines
    obtain rfl := map_ok_inj hlines
    exact through_goto copies _
  | ret =>
    rw [code_eq_map] at hlines
    obtain rfl := map_ok_inj hlines
    exact through_cons rfl (through_cons (if_pos rfl) rfl)
  | fork place copies copies' =>
    rw [code_eq_map, code_eq_map, ← List.map_cons, ← List.map_append] at hlines
    obtain rfl := map_ok_inj hlines
    rw [List.map_append]
    exact through_append (through_append (through_test size _ _) (through_goto copies _))
      (through_cons (if_pos rfl) (through_goto copies' _))
  | direct place copies =>
    rw [code_eq_map, List.map_append] at hlines
    obtain rfl := map_ok_inj hlines
    exact through_append (through_test size _ _) (through_goto copies _)

theorem through_block {blk : Block} (h : c.block b blk n = some (ls.map .ok, n')) (hsize : size % 16 = 0) :
    (inside size).through size ls = some (inside size) := by
  obtain ⟨lss, last, hlss, heq, hlast⟩ := Context.block_cases h
  obtain ⟨label, more, rfl, hlabel, hmore⟩ := List.map_eq_cons_iff.1 heq
  obtain ⟨front, back, rfl, hfront, rfl⟩ := List.map_eq_append_iff.1 hmore
  obtain ⟨iss, hflat, hiss⟩ := Context.body_code hlss (by simp [← hfront])
  rw [hflat, code_eq_map] at hfront
  obtain rfl := map_ok_inj hfront
  obtain rfl := Except.ok.inj hlabel
  refine through_cons (if_pos rfl) (through_append (through_flatten hiss hsize) ?_)
  rcases hlast with ⟨t, -, hlast⟩ | ⟨-, -, hlast⟩
  · exact through_closes (Context.terminator_cases hlast)
  · simp [List.map_eq_singleton_iff] at hlast

theorem through_blocks {bs : List (BlockId × Block)}
    (h : c.blocks bs n = some (ls.map .ok, n')) (hsize : size % 16 = 0) :
    (inside size).through size ls = some (inside size) := by
  induction bs generalizing n ls with
  | nil =>
    obtain ⟨hls, -⟩ := Prod.mk.inj (Option.some.inj h)
    obtain rfl := List.map_eq_nil_iff.1 hls.symm
    rfl
  | cons x bs ih =>
    obtain ⟨⟨first, k⟩, hfirst, hrest⟩ := Option.bind_eq_some_iff.1 h
    obtain ⟨⟨others, k'⟩, hothers, heq⟩ := Option.bind_eq_some_iff.1 hrest
    obtain ⟨hls, rfl⟩ := Prod.mk.inj (Option.some.inj heq)
    obtain ⟨front, back, rfl, rfl, rfl⟩ := List.map_eq_append_iff.1 hls.symm
    exact through_append (through_block hfirst hsize) (ih hothers)

theorem through_prologue (c : Context) :
    (⟨0, none⟩ : Depth).through c.layout.size (c.prologue.map .ins) = some (inside c.layout.size) := by
  have hframe : (⟨0, none⟩ : Depth).through c.layout.size (([.pushFrame, .setFrame] : List Ins).map .ins) =
      some ⟨8, some 8⟩ := rfl
  rw [Context.prologue, List.append_assoc, List.map_append, List.map_append]
  refine through_append hframe (through_append (through_lower _ _ _)
    (Ins.through_of_isPlain (fun i hi => ?_) _ _))
  obtain ⟨x, -, rfl⟩ := List.mem_map.1 hi
  rfl

end Depth

/-- The lines of function `id` from its symbol on, up to the blank line after them. -/
structure Body (lines : List Line) (id : FuncId) (size start : Nat) (own : List Line) : Prop where
  lines_eq : ∃ rest, lines.drop start = own ++ .blank :: rest
  depth : Depth.through size ⟨0, none⟩ own = some (.inside size)
  labels : ∀ l k, lines[k]? = some (.label l) → (∃ b, l = .block id b) ∨ .label l ∈ own →
    ∃ before rest, own = before ++ .label l :: rest ∧ k = start + before.length
  jumps : ∀ i l, .ins i ∈ own → i.target? = some l → (∃ b, l = .block id b) ∨ .label l ∈ own

theorem Context.label_mem_blocks {c : Context} {bs : List (BlockId × Block)} {n n' : Nat} {body : List Line}
    (h : c.blocks bs n = some (body.map .ok, n')) {x : BlockId × Block} (hx : x ∈ bs) :
    .label (.block c.id x.1) ∈ body := by
  obtain ⟨pre, first, post, k, k', hfirst, heq, -⟩ := blocks_split h hx
  obtain ⟨lss, last, -, rfl, -⟩ := block_cases hfirst
  have hin : .ok (.label (.block c.id x.1)) ∈ (body.map .ok : Listing) := by
    rw [heq]
    exact List.mem_append_right _ (List.mem_append_left _ List.mem_cons_self)
  obtain ⟨l, hl, he⟩ := List.mem_map.1 hin
  exact Except.ok.inj he ▸ hl

/-- Jumps lead to blocks, or to labels among the same lines. -/
theorem Context.target_mem_blocks {m : Module} {id : FuncId} {f : Function} {n n' : Nat} {body : List Line}
    (h : (ofFunction m id f).blocks (ofFunction m id f).reachableBlocks n = some (body.map .ok, n'))
    {i : Ins} {l : Label} (hi : .ins i ∈ body) (hl : i.target? = some l) :
    (∃ b, l = .block id b) ∨ .label l ∈ body := by
  obtain ⟨x, hx, first, k, k', hfirst, hin, hsub⟩ := mem_blocks h (List.mem_map_of_mem hi)
  rcases (fits_block (mem_reachableBlocks.1 hx).1 hfirst hin).2 l hl with ⟨d, -, rfl⟩ | hlabel
  · exact .inl ⟨d, rfl⟩
  · obtain ⟨l', hl', he⟩ := List.mem_map.1 (hsub hlabel)
    exact .inr (Except.ok.inj he ▸ hl')

namespace Listed
variable {m : Module} {lines : List Line} {id : FuncId} {f : Function} (h : Listed m lines)
include h

theorem blocks_lines (hf : m.function? id = some f) (hd : f.isDeclaration = false) :
    ∃ start body n n', lines.idxOf? (.symbol f.name) = some start ∧
      (Context.ofFunction m id f).blocks (Context.ofFunction m id f).reachableBlocks n =
        some (body.map .ok, n') ∧
      ∃ rest, lines.drop start = Line.symbol f.name ::
        ((Context.ofFunction m id f).prologue.map Line.ins ++ body) ++ Line.blank :: rest := by
  obtain ⟨pc, ls, n, n', hls, hlies⟩ := h.lies_definition hf hd
  obtain ⟨head, listing, hbody, -, rfl⟩ := Context.definition_eq hls
  obtain ⟨-, hlies⟩ := Lies.append_iff.1 hlies
  have hsymbol := (Lies.cons_iff.1 hlies).1
  obtain ⟨shown, rest, hshown, hdrop⟩ := hlies.drop_eq
  obtain ⟨symbol, more, rfl, hname, hmore⟩ := List.map_eq_cons_iff.1 hshown.symm
  obtain ⟨entry, more, rfl, hentry, hmore⟩ := List.map_eq_append_iff.1 hmore
  obtain ⟨body, last, rfl, rfl, hlast⟩ := List.map_eq_append_iff.1 hmore
  rw [code_eq_map] at hentry
  obtain rfl := map_ok_inj hentry
  obtain rfl : last = [.blank] := map_ok_inj hlast
  obtain rfl := Except.ok.inj hname
  refine ⟨_, body, n, n', h.idxOf?_eq rfl hsymbol, hbody, rest, hdrop.trans ?_⟩
  simp only [List.cons_append, List.append_assoc, List.nil_append]
  rfl

theorem body (hf : m.function? id = some f) (hd : f.isDeclaration = false) :
    ∃ start own, lines.idxOf? (.symbol f.name) = some start ∧
      Body lines id (Context.ofFunction m id f).layout.size start own := by
  obtain ⟨start, body, n, n', hstart, hbody, rest, hdrop⟩ := h.blocks_lines hf hd
  refine ⟨start, .symbol f.name :: ((Context.ofFunction m id f).prologue.map .ins ++ body), hstart,
    ⟨rest, hdrop⟩, ?_, ?_, ?_⟩
  · have hsymbol : (⟨0, none⟩ : Depth).after (Context.ofFunction m id f).layout.size (.symbol f.name) =
        some ⟨0, none⟩ := rfl
    refine Depth.through_cons hsymbol (Depth.through_append (Depth.through_prologue _) ?_)
    exact Depth.through_blocks hbody (Layout.size_mod _)
  · intro l k hk hl
    have hmem : Line.label l ∈ .symbol f.name :: ((Context.ofFunction m id f).prologue.map .ins ++ body) := by
      rcases hl with ⟨b, rfl⟩ | hl
      · obtain ⟨⟨blk, hblk⟩, hr⟩ := h.reachable hf (List.mem_of_getElem? hk)
        have hin := Context.label_mem_blocks hbody (x := (b, blk)) (Context.mem_reachableBlocks.2 ⟨hblk, hr⟩)
        exact List.mem_cons_of_mem _ (List.mem_append_right _ hin)
      · exact hl
    obtain ⟨before, after, heq⟩ := List.append_of_mem hmem
    refine ⟨before, after, heq, ?_⟩
    have hat : lines[start + before.length]? = some (.label l) := by
      rw [← List.getElem?_drop, hdrop, heq]
      simp
    exact Option.some.inj ((h.idxOf?_eq rfl hk).symm.trans (h.idxOf?_eq rfl hat))
  · intro i l hi hl
    rcases List.mem_append.1 ((List.mem_cons.1 hi).resolve_left (by simp)) with hi | hi
    · obtain ⟨j, hj, he⟩ := List.mem_map.1 hi
      obtain rfl := Line.ins.inj he
      rw [(Context.fits_prologue hj).2.1] at hl
      cases hl
    · refine (Context.target_mem_blocks hbody hi hl).imp_right fun hin => ?_
      exact List.mem_cons_of_mem _ (List.mem_append_right _ hin)

end Listed

/-- A run within one function. A call that it makes comes back to the next line with both pointers as they
were, whatever else the callee has done. -/
inductive Activation (lines : List Line) : Nat → Processor → Nat → Processor → Prop where
  | here (pc : Nat) (s : Processor) : Activation lines pc s pc s
  | next {pc pc₁ pc' : Nat} {s s₁ s' : Processor}
      (noCall : ∀ x foreign, lines[pc]? ≠ some (.ins (.call x foreign)))
      (noReturn : lines[pc]? ≠ some (.ins .ret)) (step : step lines pc s = .running pc₁ s₁)
      (rest : Activation lines pc₁ s₁ pc' s') : Activation lines pc s pc' s'
  | back {pc pc' : Nat} {s s₁ s' : Processor} {x : String} {foreign : Bool}
      (call : lines[pc]? = some (.ins (.call x foreign))) (sp : s₁.sp = s.sp) (fp : s₁.fp = s.fp)
      (rest : Activation lines (pc + 1) s₁ pc' s') : Activation lines pc s pc' s'

/-- Line `pc` is one of the function's own, and the pointers are as deep as the lines before it say. -/
def Tracked (own : List Line) (size start : Nat) (top : Int) (pc : Nat) (s : Processor) : Prop :=
  ∃ before rest d, own = before ++ rest ∧ pc = start + before.length ∧
    Depth.through size ⟨0, none⟩ before = some d ∧ d.Matches top s

namespace Body
variable {lines own : List Line} {id : FuncId} {size start pc pc' : Nat} {s s' : Processor} {top : Int}

theorem tracked_start (own : List Line) (size start : Nat) (s : Processor) :
    Tracked own size start s.sp start s :=
  ⟨[], own, ⟨0, none⟩, rfl, rfl, rfl, by simp, fun k hk => by cases hk⟩

theorem tracked_next {l : Line} {before rest : List Line} {d' : Depth} (heq : own = before ++ l :: rest)
    (hd : Depth.through size ⟨0, none⟩ (before ++ [l]) = some d') (hs : d'.Matches top s) :
    Tracked own size start top (start + before.length + 1) s :=
  ⟨before ++ [l], rest, d', by simp [heq], by simp [Nat.add_assoc], hd, hs⟩

variable (h : Body lines id size start own)
include h

/-- The lines of a function do not go on after its end. -/
theorem tracked_line (ht : Tracked own size start top pc s) {l : Line} (hl : lines[pc]? = some l)
    (hblank : l ≠ .blank) : ∃ before rest d d', own = before ++ l :: rest ∧ pc = start + before.length ∧
      Depth.through size ⟨0, none⟩ before = some d ∧ d.Matches top s ∧ d.after size l = some d' ∧
      Depth.through size ⟨0, none⟩ (before ++ [l]) = some d' := by
  obtain ⟨before, rest, d, rfl, rfl, hd, hs⟩ := ht
  obtain ⟨more, hdrop⟩ := h.lines_eq
  rw [← List.getElem?_drop, hdrop, List.append_assoc, List.getElem?_append_right (Nat.le_refl _),
    Nat.sub_self] at hl
  cases rest with
  | nil =>
    exact absurd (Option.some.inj hl).symm hblank
  | cons l' rest =>
    obtain rfl : l' = l := Option.some.inj hl
    obtain ⟨d₁, hd₁, hrest⟩ := Depth.of_through_append h.depth
    obtain rfl := Option.some.inj (hd.symm.trans hd₁)
    obtain ⟨d', hafter, -⟩ := Depth.of_through_cons hrest
    exact ⟨before, rest, d, d', rfl, rfl, hd, hs, hafter,
      Depth.through_append hd (Depth.through_cons hafter rfl)⟩

/-- A jump leads to a line with the same depth. -/
theorem tracked_goto {i : Ins} {l : Label} (hi : .ins i ∈ own) (hl : i.target? = some l)
    (hs : (Depth.inside size).Matches top s) (hgoto : goto lines (.label l) s = .running pc' s') :
    Tracked own size start top pc' s' := by
  unfold goto at hgoto
  split at hgoto
  · next k hk =>
    obtain ⟨rfl, rfl⟩ := Outcome.running.inj hgoto
    obtain ⟨before, rest, heq, rfl⟩ := h.labels l k (getElem?_of_idxOf? hk) (h.jumps i l hi hl)
    exact ⟨before, _, .inside size, heq, rfl, Depth.inside_of_label (heq ▸ h.depth), hs⟩
  · cases hgoto

/-- An instruction keeps track, unless it calls or returns. -/
theorem tracked_execute {i : Ins} {before rest : List Line} {d d' : Depth}
    (heq : own = before ++ Line.ins i :: rest)
    (hs : d.Matches top s) (hafter : d.after size (.ins i) = some d')
    (hd : Depth.through size ⟨0, none⟩ (before ++ [Line.ins i]) = some d')
    (hcall : ∀ x foreign, i ≠ .call x foreign)
    (hret : i ≠ .ret) (hexec : execute lines (start + before.length) s i = .running pc' s') :
    Tracked own size start top pc' s' := by
  have hmem : .ins i ∈ own := by simp [heq]
  cases i with
  | call x foreign => exact absurd rfl (hcall x foreign)
  | ret => exact absurd rfl hret
  | jump l =>
    obtain ⟨rfl, -⟩ := Option.ite_none_right_eq_some.1 hafter
    exact h.tracked_goto hmem rfl hs hexec
  | jumpIfZero l =>
    obtain ⟨rfl, he⟩ := Option.ite_none_right_eq_some.1 hafter
    obtain rfl := Option.some.inj he
    simp only [execute] at hexec
    split at hexec
    · split at hexec
      · exact h.tracked_goto hmem rfl hs hexec
      · obtain ⟨rfl, rfl⟩ := Outcome.running.inj hexec
        exact tracked_next heq hd hs
    · cases hexec
  | _ =>
    simp only [execute] at hexec
    split at hexec
    · next hdone =>
      obtain ⟨rfl, rfl⟩ := Outcome.running.inj hexec
      exact tracked_next heq hd (Ins.exec_matches hs hdone hafter)
    · split at hexec <;> cases hexec

/-- A step keeps track, unless it calls or returns. -/
theorem tracked_step (ht : Tracked own size start top pc s)
    (hcall : ∀ x foreign, lines[pc]? ≠ some (.ins (.call x foreign)))
    (hret : lines[pc]? ≠ some (.ins .ret)) (hstep : step lines pc s = .running pc' s') :
    Tracked own size start top pc' s' := by
  unfold step at hstep
  cases hl : lines[pc]? with
  | none =>
    rw [hl] at hstep
    cases hstep
  | some l =>
    rw [hl] at hstep hcall hret
    have hblank : l ≠ .blank := by
      rintro rfl
      cases hstep
    obtain ⟨before, rest, d, d', heq, rfl, -, hs, hafter, hd'⟩ := h.tracked_line ht hl hblank
    cases l with
    | ins i =>
      refine h.tracked_execute heq hs hafter hd' (fun x foreign he => ?_) (fun he => ?_) hstep
      · exact hcall x foreign (by rw [he])
      · exact hret (by rw [he])
    | label =>
      obtain ⟨rfl, rfl⟩ := Outcome.running.inj hstep
      obtain ⟨rfl, he⟩ := Option.ite_none_right_eq_some.1 hafter
      obtain rfl := Option.some.inj he
      exact tracked_next heq hd' hs
    | symbol | alignCode =>
      obtain ⟨rfl, rfl⟩ := Outcome.running.inj hstep
      obtain rfl := Option.some.inj hafter
      exact tracked_next heq hd' hs
    | _ => cases hstep

theorem tracked_activation (ht : Tracked own size start top pc s) (ha : Activation lines pc s pc' s') :
    Tracked own size start top pc' s' := by
  induction ha with
  | here => exact ht
  | next noCall noReturn step rest ih => exact ih (h.tracked_step ht noCall noReturn step)
  | back call sp fp rest ih =>
    obtain ⟨before, rest, d, d', heq, rfl, -, hs, hafter, hd'⟩ := h.tracked_line ht call (by simp)
    obtain ⟨-, he⟩ := Option.ite_none_right_eq_some.1 hafter
    obtain rfl := Option.some.inj he
    exact ih (tracked_next heq hd' ⟨sp.trans hs.sp, fun k hk => fp.trans (hs.fp k hk)⟩)

/-- Every call is made with an aligned stack. -/
theorem aligned_call (ha : Activation lines start s pc s') (hs : s.sp % 16 = 8) {x : String} {foreign : Bool}
    (hl : lines[pc]? = some (.ins (.call x foreign))) : s'.sp % 16 = 0 := by
  have ht := h.tracked_activation (tracked_start own size start s) ha
  obtain ⟨-, -, d, d', -, -, -, hmatch, hafter, -⟩ := h.tracked_line ht hl (by simp)
  obtain ⟨hmod, -⟩ := Option.ite_none_right_eq_some.1 hafter
  rw [hmatch.sp]
  omega

/-- A function returns with the stack as it was on entry. -/
theorem sp_ret (ha : Activation lines start s pc s') (hl : lines[pc]? = some (.ins .ret)) :
    s'.sp = s.sp := by
  have ht := h.tracked_activation (tracked_start own size start s) ha
  obtain ⟨-, -, d, d', -, -, -, hmatch, hafter, -⟩ := h.tracked_line ht hl (by simp)
  obtain ⟨hzero, -⟩ := Option.ite_none_right_eq_some.1 hafter
  rw [hmatch.sp, hzero]
  simp

/-- Between the instructions of a block nothing but the frame is on the stack. -/
theorem sp_eq {c : Context} (hsize : size % 16 = 0) {b : BlockId} {k : Nat}
    (hk : lines[k]? = some (.label (.block id b))) {xs : List (InstrId × Instr)} {iss : List (List Ins)}
    (hiss : List.Forall₂ (fun x is => c.Written x.1 x.2 is) xs iss) {more : List Line}
    (hlines : lines.drop (k + 1) = iss.flatten.map Line.ins ++ more)
    (ha : Activation lines start s (k + 1 + iss.flatten.length) s') : s'.sp = s'.fp - size := by
  obtain ⟨before, rest, rfl, rfl⟩ := h.labels _ k hk (.inl ⟨b, rfl⟩)
  have hdepth : Depth.through size ⟨0, none⟩
      (before ++ Line.label (.block id b) :: iss.flatten.map Line.ins) =
      some (.inside size) :=
    Depth.through_append (Depth.inside_of_label h.depth)
      (Depth.through_cons (if_pos rfl) (Depth.through_flatten hiss hsize))
  obtain ⟨front, back, d, heq, hpc, hd, hmatch⟩ :=
    h.tracked_activation (tracked_start _ size start s) ha
  obtain rfl : front = before ++ Line.label (.block id b) :: iss.flatten.map Line.ins := by
    obtain ⟨tail, hdrop⟩ := h.lines_eq
    rw [List.append_assoc, List.cons_append] at hdrop
    have hrest : rest ++ Line.blank :: tail = iss.flatten.map Line.ins ++ more := by
      rw [← hlines, Nat.add_assoc, ← List.drop_drop, hdrop, ← List.drop_drop, List.drop_left]
      rfl
    have hsame : front ++ (back ++ Line.blank :: tail) =
        before ++ Line.label (.block id b) :: iss.flatten.map Line.ins ++ more := by
      rw [← List.append_assoc, ← heq, List.append_assoc, List.cons_append, hrest, List.append_assoc,
        List.cons_append]
    refine List.append_inj_left hsame ?_
    rw [List.length_append, List.length_cons, List.length_map]
    omega
  obtain rfl := Option.some.inj (hd.symm.trans hdepth)
  have hsp := hmatch.sp
  have hfp := hmatch.fp 8 rfl
  simp only [Depth.inside] at hsp
  omega

end Body
end IntLang.Assembly
