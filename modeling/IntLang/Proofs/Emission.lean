import IntLang.Assembly.Emit
import IntLang.Proofs.Rejections
import IntLang.Proofs.Wiring

/-! Emission of assembly for finished functions. Every result has a cell of its own in the frame, so
every operand has a place, and nothing is left that could keep a listing from being written. -/
namespace IntLang

def Flow.Terminator.operands : Flow.Terminator → List Flow.Operand
  | .jump _ => []
  | .branch v _ _ | .ret v => [v]

namespace Assembly
open IntLang.Flow

namespace Layout
variable {f : Function} {l : Layout} {id j : InstrId} {cell : Nat}

/-- The result of an instruction has a cell. -/
def Gives (l : Layout) (id : InstrId) (cell : Nat) : Prop :=
  l.results[id]? = some (some cell)

/-- Cells are given away once, and after those of the parameters. -/
structure Sound (l : Layout) : Prop where
  params : l.params ≤ l.cells
  bounds : ∀ id cell, l.Gives id cell → l.params ≤ cell ∧ cell < l.cells
  injective : ∀ i j cell, l.Gives i cell → l.Gives j cell → i = j

theorem gives_add (h : (add f l id).Gives j cell) :
    l.Gives j cell ∨ j = id ∧ cell = l.cells ∧ (add f l id).cells = l.cells + 1 := by
  unfold add at h ⊢
  split at h
  · next hres =>
    rw [if_pos hres]
    rw [Gives, Array.getElem?_setIfInBounds] at h
    by_cases hj : id = j
    · rw [if_pos hj] at h
      split at h
      · exact .inr ⟨hj.symm, (Option.some.inj (Option.some.inj h)).symm, rfl⟩
      · cases h
    · rw [if_neg hj] at h
      exact .inl h
  · exact .inl h

theorem cells_le_add (f : Function) (l : Layout) (id : InstrId) : l.cells ≤ (add f l id).cells := by
  unfold add
  split
  · exact Nat.le_succ _
  · exact Nat.le_refl _

@[simp] theorem params_add (f : Function) (l : Layout) (id : InstrId) :
    (add f l id).params = l.params := by
  unfold add
  split <;> rfl

@[simp] theorem size_results_add (f : Function) (l : Layout) (id : InstrId) :
    (add f l id).results.size = l.results.size := by
  unfold add
  split
  · exact Array.size_setIfInBounds
  · rfl

theorem Sound.add (h : l.Sound) (f : Function) (id : InstrId) : (add f l id).Sound := by
  have hle := cells_le_add f l id
  refine ⟨?_, fun i cell hi => ?_, fun i j cell hi hj => ?_⟩
  · rw [params_add]
    exact Nat.le_trans h.params hle
  · rw [params_add]
    rcases gives_add hi with hold | ⟨-, rfl, hcells⟩
    · have hb := h.bounds i cell hold
      omega
    · have hp := h.params
      omega
  · rcases gives_add hi with hi' | ⟨hid, hc, -⟩ <;> rcases gives_add hj with hj' | ⟨hid', hc', -⟩
    · exact h.injective i j cell hi' hj'
    · exact absurd (h.bounds i cell hi').2 (by omega)
    · exact absurd (h.bounds j cell hj').2 (by omega)
    · exact hid.trans hid'.symm

/-- A cell that has been given away stays so, though perhaps not the same one. -/
theorem Gives.add (h : l.Gives j cell) (f : Function) (id : InstrId) :
    ∃ cell', (add f l id).Gives j cell' := by
  have hlt := (Array.getElem?_eq_some_iff.1 h).1
  unfold Layout.add
  split
  · by_cases hj : id = j
    · exact ⟨l.cells, by simp [Gives, hj, hlt]⟩
    · exact ⟨cell, by simpa [Gives, Array.getElem?_setIfInBounds, hj] using h⟩
  · exact ⟨cell, h⟩

theorem gives_add_self (hid : id < l.results.size)
    (hres : (f.instrs[id]?.bind Instr.resultTy?).isSome) : ∃ cell, (add f l id).Gives id cell := by
  rw [add, if_pos hres]
  exact ⟨l.cells, by simp [Gives, hid]⟩

section Adding
variable (f : Function) (ids : List InstrId)

theorem sound_foldl {l : Layout} (h : l.Sound) : (ids.foldl (add f) l).Sound := by
  induction ids generalizing l with
  | nil => exact h
  | cons id ids ih => exact ih (h.add f id)

theorem gives_foldl_of_gives {l : Layout} (h : l.Gives j cell) :
    ∃ cell', (ids.foldl (add f) l).Gives j cell' := by
  induction ids generalizing l cell with
  | nil => exact ⟨cell, h⟩
  | cons id ids ih =>
    obtain ⟨cell', h'⟩ := h.add f id
    exact ih h'

/-- Every instruction with a result gets a cell. -/
theorem gives_foldl {l : Layout} (hmem : id ∈ ids) (hid : id < l.results.size)
    (hres : (f.instrs[id]?.bind Instr.resultTy?).isSome) :
    ∃ cell, (ids.foldl (add f) l).Gives id cell := by
  induction ids generalizing l with
  | nil => cases hmem
  | cons j ids ih =>
    rcases List.mem_cons.1 hmem with rfl | hmem
    · obtain ⟨cell, hc⟩ := gives_add_self hid hres
      exact gives_foldl_of_gives f ids hc
    · exact ih hmem (by rwa [size_results_add])

@[simp] theorem params_foldl (l : Layout) : (ids.foldl (add f) l).params = l.params := by
  induction ids generalizing l with
  | nil => rfl
  | cons id ids ih => rw [List.foldl_cons, ih, params_add]

end Adding

def initial (f : Function) : Layout :=
  ⟨min f.paramCount argRegs.length, Array.replicate f.instrs.size none,
    min f.paramCount argRegs.length⟩

theorem ofFunction_eq (f : Function) : ofFunction f =
    (f.blocks.toList.flatMap fun b => b.instrs.toList).foldl (add f) (initial f) := by
  unfold ofFunction
  rw [List.foldl_flatMap, ← Array.foldl_toList]
  simp only [Array.foldl_toList]
  rfl

theorem not_gives_initial (f : Function) (id : InstrId) (cell : Nat) : ¬ (initial f).Gives id cell := by
  unfold Gives initial
  rw [Array.getElem?_replicate]
  split <;> simp

theorem sound_initial (f : Function) : (initial f).Sound :=
  ⟨Nat.le_refl _, fun id cell h => absurd h (not_gives_initial f id cell),
    fun i _ cell h => absurd h (not_gives_initial f i cell)⟩

theorem sound_ofFunction (f : Function) : (ofFunction f).Sound := by
  rw [ofFunction_eq]
  exact sound_foldl f _ (sound_initial f)

theorem params_ofFunction (f : Function) : (ofFunction f).params = min f.paramCount argRegs.length := by
  rw [ofFunction_eq, params_foldl]
  rfl

/-- Every instruction that stands in a block has a place for its result. -/
theorem result?_ofFunction {b : BlockId} {blk : Block} (hb : f.blocks[b]? = some blk)
    (hid : id ∈ blk.instrs) {i : Instr} (hi : f.instrs[id]? = some i) (hres : i.resultTy?.isSome) :
    ∃ p, (ofFunction f).result? id = some p := by
  have hmem : id ∈ f.blocks.toList.flatMap fun b => b.instrs.toList :=
    List.mem_flatMap.2 ⟨blk, (Array.mem_of_getElem? hb).val, hid.val⟩
  have hlt : id < (initial f).results.size := by
    simpa [initial] using (Array.getElem?_eq_some_iff.1 hi).1
  obtain ⟨cell, hcell⟩ := gives_foldl f _ hmem hlt (by simpa [hi] using hres)
  rw [← ofFunction_eq, Gives] at hcell
  exact ⟨_, by rw [result?, hcell]; rfl⟩

end Layout

def Listing.Fine (ls : Listing) : Prop :=
  ∃ lines : List Line, ls = lines.map .ok

namespace Listing

theorem fine_code (is : List Ins) : Fine (code is) :=
  ⟨is.map .ins, by simp [code]⟩

theorem fine_nil : Fine [] :=
  ⟨[], rfl⟩

theorem fine_ok (l : Line) : Fine [.ok l] :=
  ⟨[l], rfl⟩

theorem Fine.append {ls ls' : Listing} (h : Fine ls) (h' : Fine ls') : Fine (ls ++ ls') := by
  obtain ⟨lines, rfl⟩ := h
  obtain ⟨lines', rfl⟩ := h'
  exact ⟨lines ++ lines', by simp⟩

theorem fine_flatten {lss : List Listing} (h : ∀ ls ∈ lss, Fine ls) : Fine lss.flatten := by
  induction lss with
  | nil => exact fine_nil
  | cons ls lss ih =>
    rw [List.flatten_cons]
    exact (h ls List.mem_cons_self).append (ih fun ls' h' => h ls' (List.mem_cons_of_mem ls h'))

/-- Without a bound on its size, a listing is written if every line is there. -/
theorem writeFrom_ok (t : Target) (lines : List Line) (text : String) :
    writeFrom t none text (lines.map .ok) = .ok (lines.foldl (fun text l => text ++ l.render t) text) := by
  induction lines generalizing text with
  | nil => rfl
  | cons l lines ih => exact ih (text ++ l.render t)

end Listing

def rendered (t : Target) (lines : List Line) : String :=
  lines.foldl (fun text l => text ++ l.render t) ""

theorem code_append (is js : List Ins) : code (is ++ js) = code is ++ code js :=
  List.map_append

theorem code_flatten {lss : List Listing} (h : ∀ ls ∈ lss, ∃ is, ls = code is) :
    ∃ is, lss.flatten = code is := by
  induction lss with
  | nil => exact ⟨[], rfl⟩
  | cons ls lss ih =>
    obtain ⟨is, rfl⟩ := h ls List.mem_cons_self
    obtain ⟨js, hjs⟩ := ih fun ls' h' => h ls' (List.mem_cons_of_mem _ h')
    exact ⟨is ++ js, by rw [List.flatten_cons, hjs, code_append]⟩

theorem mapM_eq_some {α β : Type} {f : α → Option β} {P : β → Prop} {l : List α}
    (h : ∀ a ∈ l, ∃ b, f a = some b ∧ P b) : ∃ bs, l.mapM f = some bs ∧ ∀ b ∈ bs, P b := by
  induction l with
  | nil => exact ⟨[], rfl, fun b hb => by cases hb⟩
  | cons a l ih =>
    obtain ⟨b, hb, hp⟩ := h a List.mem_cons_self
    obtain ⟨bs, hbs, hps⟩ := ih fun a' h' => h a' (List.mem_cons_of_mem a h')
    refine ⟨b :: bs, by simp [List.mapM_cons, hb, hbs], fun b' hb' => ?_⟩
    rcases List.mem_cons.1 hb' with rfl | hb'
    · exact hp
    · exact hps b' hb'

namespace Context

def ofFunction (m : Module) (id : FuncId) (f : Function) : Context :=
  ⟨m, globalNames m, id, f, .ofFunction f⟩

theorem place?_global {m : Module} {id : FuncId} {f : Function} {g : GlobalId} {p : Place} :
    (ofFunction m id f).place? (.global g) = some p ↔
      ∃ x, m.globals[g]? = some x ∧ p = .global x.name := by
  simp only [place?, Layout.place?, ofFunction, globalNames, Array.getElem?_map, Option.map_map,
    Option.map_eq_some_iff, Function.comp_apply, eq_comm (a := p)]

/-- Everything that is emitted has what it refers to. -/
structure Supplied (c : Context) : Prop where
  operands : ∀ b x, x ∈ c.instrsOf b → ∀ v ∈ x.2.operands, ∃ p, c.place? v = some p
  results : ∀ b x, x ∈ c.instrsOf b → x.2.resultTy?.isSome → ∃ p, c.layout.result? x.1 = some p
  callees : ∀ b x, x ∈ c.instrsOf b → ∀ callee args, x.2 = .call callee args →
    ∃ f, c.module.function? callee = some f
  ends : ∀ (b : BlockId) blk, c.function.blocks[b]? = some blk →
    ∃ t, blk.terminator = some t ∧ ∀ v ∈ t.operands, ∃ p, c.place? v = some p

variable {c : Context}

theorem mem_reachableBlocks {x : BlockId × Block} : x ∈ c.reachableBlocks ↔
    c.function.blocks[x.1]? = some x.2 ∧ c.function.reachable[x.1]? = some true := by
  have hgetD (r : Option Bool) : r.getD false = true ↔ r = some true := by
    cases r <;> simp
  unfold reachableBlocks
  rw [List.mem_filterMap]
  constructor
  · rintro ⟨⟨blk, b⟩, hmem, hsome⟩
    dsimp only at hsome
    split at hsome
    · next hr =>
      rw [← Option.some.inj hsome]
      exact ⟨by simpa using List.mem_zipIdx_iff_getElem?.1 hmem, (hgetD _).1 hr⟩
    · cases hsome
  · rintro ⟨hb, hr⟩
    exact ⟨(x.2, x.1), List.mem_zipIdx_iff_getElem?.2 (by simpa using hb), if_pos ((hgetD _).2 hr)⟩

theorem call_eq (args : List Operand) (hargs : ∀ v ∈ args, ∃ p, c.place? v = some p)
    (target : Function) (result : Place) : ∃ is, c.call target args result = some (code is) := by
  have hplaces (vs : List Operand) (hvs : ∀ v ∈ vs, v ∈ args) : ∃ ps, vs.mapM c.place? = some ps := by
    obtain ⟨ps, hps, -⟩ := mapM_eq_some (P := fun _ => True) fun v hv =>
      (hargs v (hvs v hv)).imp fun p hp => ⟨hp, trivial⟩
    exact ⟨ps, hps⟩
  obtain ⟨ps, hps⟩ := hplaces (args.drop argRegs.length).reverse fun v hv =>
    List.mem_of_mem_drop (List.mem_reverse.1 hv)
  obtain ⟨qs, hqs⟩ := hplaces (args.take argRegs.length) fun v hv => List.mem_of_mem_take hv
  simp only [call, pushArgs, loadArgs, hps, hqs, Option.pure_def, Option.bind_eq_bind,
    Option.bind_some, Option.some.injEq]
  exact ⟨_, by simp only [code, ← List.map_append]; rfl⟩

theorem instr_eq {id : InstrId} {i : Instr} (hops : ∀ v ∈ i.operands, ∃ p, c.place? v = some p)
    (hres : i.resultTy?.isSome → ∃ p, c.layout.result? id = some p)
    (hcall : ∀ callee args, i = .call callee args → ∃ f, c.module.function? callee = some f) :
    ∃ is, c.instr id i = some (code is) := by
  cases i with
  | alloca name => exact ⟨[], rfl⟩
  | phi ty incoming => exact ⟨[], rfl⟩
  | load v | widen v =>
    obtain ⟨p, hp⟩ := hops v (by simp [Instr.operands])
    obtain ⟨r, hr⟩ := hres rfl
    exact ⟨_, by simp [instr, copy, hp, hr]; rfl⟩
  | store v a =>
    obtain ⟨p, hp⟩ := hops v (by simp [Instr.operands])
    obtain ⟨q, hq⟩ := hops a (by simp [Instr.operands])
    exact ⟨_, by simp [instr, hp, hq]; rfl⟩
  | arith op ty l r | compare op l r =>
    obtain ⟨p, hp⟩ := hops l (by simp [Instr.operands])
    obtain ⟨q, hq⟩ := hops r (by simp [Instr.operands])
    obtain ⟨d, hd⟩ := hres rfl
    simp only [instr, loadBoth, hp, hq, hd, Option.pure_def, Option.bind_eq_bind, Option.bind_some,
      Option.some.injEq]
    exact ⟨_, by simp only [code, ← List.map_append]; rfl⟩
  | call callee args =>
    obtain ⟨f, hf⟩ := hcall callee args rfl
    obtain ⟨r, hr⟩ := hres rfl
    obtain ⟨is, his⟩ := call_eq args hops f r
    exact ⟨is, by simp [instr, hf, hr, his]⟩

/-- The copy that an instruction needs when control comes from `source`. -/
def edgeCopy (c : Context) (source : BlockId) (x : InstrId × Instr) : Emitted :=
  match incoming? source x.2 with
  | some v => do c.copy v (← c.layout.result? x.1)
  | none => some []

theorem edgeCopies_eq (c : Context) (source target : BlockId) : c.edgeCopies source target =
    ((c.instrsOf target).mapM (c.edgeCopy source)).map List.flatten := by
  rw [Option.map_eq_bind]
  rfl

namespace Supplied
variable (h : c.Supplied)
include h

theorem edgeCopies (source target : BlockId) : ∃ is, c.edgeCopies source target = some (code is) := by
  obtain ⟨copies, hcopies, hcode⟩ := mapM_eq_some (P := fun ls => ∃ is, ls = code is)
    (f := c.edgeCopy source) (l := c.instrsOf target) fun x hx => by
    cases hv : incoming? source x.2 with
    | none => exact ⟨[], by rw [edgeCopy, hv], [], rfl⟩
    | some v =>
      obtain ⟨id, i⟩ := x
      cases i with
      | phi ty incoming =>
        have hv' := hv
        obtain ⟨y, hy, rfl⟩ := Option.map_eq_some_iff.1 hv
        obtain ⟨p, hp⟩ := h.operands target _ hx y.1 (List.mem_map_of_mem (List.mem_of_find?_eq_some hy))
        obtain ⟨r, hr⟩ := h.results target _ hx rfl
        exact ⟨_, by simp [edgeCopy, hv', copy, hp, hr]; rfl, _, rfl⟩
      | _ => cases hv
  obtain ⟨is, his⟩ := code_flatten hcode
  exact ⟨is, by rw [edgeCopies_eq, hcopies, ← his]; rfl⟩

theorem goto (source target : BlockId) : ∃ is, c.goto source target = some (code is) := by
  obtain ⟨is, his⟩ := h.edgeCopies source target
  exact ⟨is ++ [Ins.jump (c.blockLabel target)], by simp [Context.goto, his, code]⟩

theorem terminator (source : BlockId) (edges : Nat) {t : Terminator}
    (ht : ∀ v ∈ t.operands, ∃ p, c.place? v = some p) :
    ∃ ls n, c.terminator source edges t = some (ls, n) ∧ ls.Fine := by
  cases t with
  | jump dest =>
    obtain ⟨is, his⟩ := h.goto source dest
    exact ⟨code is, edges, by simp [Context.terminator, his], Listing.fine_code is⟩
  | ret v =>
    obtain ⟨p, hp⟩ := ht v (by simp [Terminator.operands])
    exact ⟨_, edges, by simp [Context.terminator, hp]; rfl, Listing.fine_code _⟩
  | branch v onTrue onFalse =>
    obtain ⟨p, hp⟩ := ht v (by simp [Terminator.operands])
    obtain ⟨is, his⟩ := h.goto source onTrue
    obtain ⟨js, hjs⟩ := h.goto source onFalse
    simp only [Context.terminator, hp, his, hjs, Option.pure_def, Option.bind_eq_bind,
      Option.bind_some]
    split
    · exact ⟨_, _, rfl, ((((Listing.fine_code _).append (Listing.fine_code _)).append
        (Listing.fine_code is)).append (Listing.fine_ok _)).append (Listing.fine_code js)⟩
    · exact ⟨_, _, rfl, ((Listing.fine_code _).append (Listing.fine_code _)).append
        (Listing.fine_code is)⟩

theorem block {b : BlockId} {blk : Block} (hb : c.function.blocks[b]? = some blk) (edges : Nat) :
    ∃ ls n, c.block b blk edges = some (ls, n) ∧ ls.Fine := by
  obtain ⟨body, hbody, hfine⟩ := mapM_eq_some (P := Listing.Fine) (f := fun x => c.instr x.1 x.2)
    (l := c.instrsOf b) fun x hx => by
      obtain ⟨is, his⟩ := instr_eq (h.operands b x hx) (h.results b x hx) (h.callees b x hx)
      exact ⟨_, his, Listing.fine_code is⟩
  obtain ⟨t, ht, hops⟩ := h.ends b blk hb
  obtain ⟨last, n, hlast, hfine'⟩ := h.terminator b edges hops
  refine ⟨.ok (.label (c.blockLabel b)) :: body.flatten ++ last, n, ?_,
    ((Listing.fine_ok _).append (Listing.fine_flatten hfine)).append hfine'⟩
  simp only [Context.block, ht, hlast]
  exact (congrArg (Option.bind · _) hbody :)

theorem blocks : ∀ (bs : List (BlockId × Block)) (edges : Nat),
    (∀ x ∈ bs, c.function.blocks[x.1]? = some x.2) → ∃ ls n, c.blocks bs edges = some (ls, n) ∧ ls.Fine
  | [], edges, _ => ⟨[], edges, rfl, Listing.fine_nil⟩
  | (b, blk) :: bs, edges, hbs => by
    obtain ⟨ls, n, hls, hfine⟩ := h.block (hbs (b, blk) List.mem_cons_self) edges
    obtain ⟨ls', n', hls', hfine'⟩ := blocks bs n fun x hx => hbs x (List.mem_cons_of_mem _ hx)
    exact ⟨ls ++ ls', n', by simp [Context.blocks, hls, hls'], hfine.append hfine'⟩

theorem definition (edges : Nat) : ∃ ls n, c.definition edges = some (ls, n) ∧ ls.Fine := by
  obtain ⟨ls, n, hls, hfine⟩ := h.blocks c.reachableBlocks edges fun x hx => (mem_reachableBlocks.1 hx).1
  refine ⟨_, n, by simp only [Context.definition, hls]; rfl, ?_⟩
  exact ((Listing.Fine.append ⟨_, rfl⟩ (Listing.fine_code _)).append hfine).append (Listing.fine_ok _)

end Supplied
end Context

section Modules
variable {m : Module}

theorem functions_eq (h : ∀ id f, m.function? id = some f → f.isDeclaration = false →
      (Context.ofFunction m id f).Supplied) : ∀ (fs : List (FuncId × Function)) (edges : Nat),
    (∀ x ∈ fs, m.function? x.1 = some x.2) → ∃ ls, functions m fs edges = some ls ∧ ls.Fine
  | [], _, _ => ⟨[], rfl, Listing.fine_nil⟩
  | (id, f) :: fs, edges, hfs => by
    have hrest := fun edges => functions_eq h fs edges fun x hx => hfs x (List.mem_cons_of_mem _ hx)
    cases hd : f.isDeclaration with
    | true =>
      obtain ⟨ls, hls, hfine⟩ := hrest edges
      refine ⟨_, by simp [functions, hd, hls]; rfl, Listing.Fine.append ?_ hfine⟩
      split
      · exact Listing.fine_ok _
      · exact Listing.fine_nil
    | false =>
      obtain ⟨ls, n, hls, hfine⟩ := (h id f (hfs (id, f) List.mem_cons_self) hd).definition edges
      obtain ⟨ls', hls', hfine'⟩ := hrest n
      refine ⟨ls ++ ls', ?_, hfine.append hfine'⟩
      simp only [Context.ofFunction] at hls
      simp [functions, hd, hls, hls']

theorem listing?_eq_some (h : ∀ id f, m.function? id = some f → f.isDeclaration = false →
    (Context.ofFunction m id f).Supplied) : ∃ lines : List Line, listing? m = some (lines.map .ok) := by
  obtain ⟨ls, hls, hfine⟩ := functions_eq h m.live 0 fun x hx => mem_live.1 hx
  obtain ⟨lines, hlines⟩ := (((Listing.fine_ok .opening).append (Listing.fine_ok .code)).append
    hfine).append ((Listing.fine_ok .blank).append ⟨dataLines m, rfl⟩)
  refine ⟨lines, ?_⟩
  rw [← hlines]
  simp [listing?, hls]

/-- The text of a listing, for every target. -/
theorem assemblyText_eq_rendered {lines : List Line} (h : listing? m = some (lines.map .ok)) (t : Target) :
    assemblyText m t = .ok (rendered t lines) := by
  simp only [assemblyText, h, Listing.write, Listing.writeFrom_ok]
  rfl

end Modules
end Assembly

namespace Flow.Draft
open IntLang.Assembly
variable {D : Draft} {m : Module} {id : FuncId}

theorem mem_instrsOf {b : BlockId} {x : InstrId × Instr}
    (hx : x ∈ (Context.ofFunction m id D.function).instrsOf b) :
    ∃ p, D.blocks[b]? = some p ∧ x.1 ∈ D.opening b ++ p.instrs ∧ D.code[x.1]? = some x.2 := by
  unfold Context.instrsOf at hx
  split at hx
  · next blk hb =>
    change D.function.blocks[b]? = some blk at hb
    rw [function_blocks] at hb
    obtain ⟨p, hp, rfl⟩ := Option.map_eq_some_iff.1 hb
    obtain ⟨j, hj, hsome⟩ := List.mem_filterMap.1 hx
    obtain ⟨i, hi, rfl⟩ := Option.map_eq_some_iff.1 hsome
    exact ⟨p, hp, hj, by simpa [Context.ofFunction] using hi⟩
  · cases hx

/-- What stands in a block: the creation of a slot, what a slot starts with, or an instruction that
was added to the block. -/
theorem Wired.instr_cases (h : D.Wired m) {b : Nat} {p : Piece} (hp : D.blocks[b]? = some p)
    {id : InstrId} (hid : id ∈ D.opening b ++ p.instrs) {i : Instr} (hi : D.code[id]? = some i) :
    (∃ name, i = .alloca name) ∨
      (∃ init slot, i = .store init (.instr slot) ∧ D.Starts init ∧
        ∃ name, D.code[slot]? = some (.alloca name)) ∨ D.Fits m i ∨ D.Joins b i := by
  rcases List.mem_append.1 hid with hid | hid
  · rw [opening] at hid
    split at hid
    · rcases List.mem_append.1 hid with hid | hid
      · obtain ⟨⟨slot, init⟩, hmem, rfl⟩ := List.mem_map.1 hid
        obtain ⟨j, hj⟩ := List.mem_iff_getElem?.1 hmem
        obtain ⟨⟨name, ha⟩, -⟩ := h.slots.written j slot init hj
        exact .inl ⟨name, Option.some.inj (hi.symm.trans ha)⟩
      · obtain ⟨⟨slot, init⟩, hmem, rfl⟩ := List.mem_map.1 hid
        obtain ⟨j, hj⟩ := List.mem_iff_getElem?.1 hmem
        obtain ⟨halloca, hst, hstart⟩ := h.slots.written j slot init hj
        exact .inr (.inl ⟨init, slot, Option.some.inj (hi.symm.trans hst), hstart, halloca⟩)
    · cases hid
  · obtain ⟨k, hk⟩ := List.mem_iff_getElem?.1 hid
    obtain ⟨i', hi', hcase⟩ := h.instrs b p k id hp hk
    obtain rfl := Option.some.inj (hi.symm.trans hi')
    exact .inr (.inr (hcase.imp_right And.right))

/-- Every call is one that its callee takes. -/
theorem Wired.takes (h : D.Wired m) {j : InstrId} {callee : FuncId} {args : List Operand}
    (hi : D.code[j]? = some (.call callee args)) : Takes m callee args.length := by
  obtain ⟨b, p, hp, hmem⟩ := h.placed j (List.getElem?_eq_some_iff.1 hi).1
  rcases h.instr_cases hp hmem hi with ⟨name, he⟩ | ⟨init, slot, he, -⟩ | hfit | ⟨z, w, he, -⟩
  · cases he
  · cases he
  · exact hfit.1
  · cases he

/-- The result of every instruction has a place. -/
theorem Wired.result? (h : D.Wired m) {j : InstrId} {i : Instr} (hi : D.code[j]? = some i)
    (hres : i.resultTy?.isSome) : ∃ p, (Layout.ofFunction D.function).result? j = some p := by
  obtain ⟨b, p, hp, hmem⟩ := h.placed j (List.getElem?_eq_some_iff.1 hi).1
  have hb : D.function.blocks[b]? = some (D.blockAt b p) := by
    rw [function_blocks, hp]
    rfl
  exact Layout.result?_ofFunction hb (by simpa [blockAt] using hmem) (by simpa using hi) hres

theorem Value.place? (h : D.Wired m) {v : Operand} (hv : D.Value v) :
    ∃ p, (Context.ofFunction m id D.function).place? v = some p := by
  cases v with
  | int n => exact ⟨_, rfl⟩
  | bool b => exact ⟨_, rfl⟩
  | instr j =>
    obtain ⟨i, hi, hres, -⟩ := hv
    exact h.result? hi hres
  | param => exact hv.elim
  | global => exact hv.elim

theorem Address.place? (h : D.Wired m) {v : Operand} (hv : D.Address m v) :
    ∃ p, (Context.ofFunction m id D.function).place? v = some p := by
  cases v with
  | instr j =>
    obtain ⟨name, hi⟩ := hv
    exact h.result? hi rfl
  | global g => exact ⟨_, Context.place?_global.2 ⟨_, Array.getElem?_eq_getElem hv, rfl⟩⟩
  | int | bool | param => exact hv.elim

/-- The operands of an instruction that fits have places. -/
theorem Fits.place? (h : D.Wired m) {i : Instr} (hi : D.Fits m i) :
    ∀ v ∈ i.operands, ∃ p, (Context.ofFunction m id D.function).place? v = some p := by
  intro v hv
  cases i with
  | alloca | phi => exact hi.elim
  | load a =>
    rw [List.mem_singleton.1 hv]
    exact Address.place? h hi
  | widen u =>
    rw [List.mem_singleton.1 hv]
    exact Value.place? h hi
  | store u a =>
    simp only [Instr.operands, List.mem_cons, List.not_mem_nil, or_false] at hv
    rcases hv with rfl | rfl
    · exact hi.1.place? h
    · exact hi.2.place? h
  | arith op ty l r =>
    simp only [Instr.operands, List.mem_cons, List.not_mem_nil, or_false] at hv
    rcases hv with rfl | rfl
    · exact hi.1.1.place? h
    · exact hi.1.2.place? h
  | compare op l r =>
    simp only [Instr.operands, List.mem_cons, List.not_mem_nil, or_false] at hv
    rcases hv with rfl | rfl
    · exact hi.1.place? h
    · exact hi.2.place? h
  | call callee args => exact Value.place? h (hi.2.2 v hv)

theorem Finished.supplied (h : D.Finished m) (id : FuncId) :
    (Context.ofFunction m id D.function).Supplied := by
  refine ⟨fun b x hx v hv => ?_, fun b x hx hres => ?_, fun b x hx callee args he => ?_,
    fun b blk hb => ?_⟩
  · obtain ⟨p, hp, hid, hi⟩ := mem_instrsOf hx
    rcases h.instr_cases hp hid hi with ⟨name, he⟩ | ⟨init, slot, he, hstart, name, hslot⟩ | hfit | hj
    · rw [he] at hv
      cases hv
    · rw [he] at hv
      simp only [Instr.operands, List.mem_cons, List.not_mem_nil, or_false] at hv
      rcases hv with rfl | rfl
      · rcases hstart with rfl | ⟨i, rfl, -⟩
        · exact ⟨_, rfl⟩
        · exact ⟨_, rfl⟩
      · exact h.result? hslot rfl
    · exact hfit.place? h.toWired v hv
    · obtain ⟨z, w, he, -⟩ := hj
      rw [he] at hv
      simp only [Instr.operands, List.map_cons, List.map_nil, List.mem_cons, List.not_mem_nil,
        or_false] at hv
      rcases hv with rfl | rfl <;> exact ⟨_, rfl⟩
  · obtain ⟨p, hp, -, hi⟩ := mem_instrsOf hx
    exact h.result? hi hres
  · obtain ⟨p, hp, hid, hi⟩ := mem_instrsOf hx
    rw [he] at hi
    obtain ⟨f, hf, -⟩ := h.takes hi
    exact ⟨f, hf⟩
  · change D.function.blocks[b]? = some blk at hb
    rw [function_blocks] at hb
    obtain ⟨p, hp, rfl⟩ := Option.map_eq_some_iff.1 hb
    obtain ⟨t, ht⟩ := Option.ne_none_iff_exists'.1 (h.ended b p hp)
    refine ⟨t, ht, fun v hv => ?_⟩
    have hlead := (h.ends b p t hp ht).2
    cases t with
    | jump dest => cases hv
    | branch c onTrue onFalse =>
      rw [List.mem_singleton.1 hv]
      exact hlead.place? h.toWired
    | ret u =>
      rw [List.mem_singleton.1 hv]
      exact hlead.place? h.toWired

end Flow.Draft

namespace Flow.Module.Checked
variable {m : Module}

theorem supplied (h : m.Checked) {id : FuncId} {f : Function} (hf : m.function? id = some f)
    (hd : f.isDeclaration = false) : (Assembly.Context.ofFunction m id f).Supplied := by
  rcases h id f hf with hd' | ⟨D, rfl, hD⟩
  · rw [hd] at hd'
    cases hd'
  · exact hD.supplied id

theorem assemblyText_eq_ok (h : m.Checked) (t : Assembly.Target) :
    ∃ text, Assembly.assemblyText m t = .ok text := by
  obtain ⟨lines, hlines⟩ := Assembly.listing?_eq_some fun _ _ => h.supplied
  exact ⟨_, Assembly.assemblyText_eq_rendered hlines t⟩

end Flow.Module.Checked
end IntLang
