import IntLang.Proofs.Compiled
import IntLang.Proofs.Identifiers
import IntLang.Proofs.Rejections

/-! Labels, slots and instructions of lowered functions. No two blocks of a function have one label, no
two of its slots have one name, and every instruction stands at one place. Lowering keeps this up with
every step. -/
namespace IntLang
open IntLang.Flow

namespace Flow

namespace Function

def slotNames (f : Function) : List String :=
  f.instrs.toList.filterMap Instr.slotName?

def labels (f : Function) : List String :=
  f.blocks.toList.map (·.name)

/-- A function with the given slots, `k` of which open its entry block. -/
structure Neat (f : Function) (k : Nat) (names : List String) : Prop where
  labelled : ∀ (b : Nat) name, f.labels[b]? = some name →
    ∃ base ∈ blockBases, name = base ∨ name = base ++ toString b
  apart : f.labels.Nodup
  order : f.placed.Perm (List.range f.instrs.size)
  opening : 2 * k ≤ (f.blocks[0]?.map (·.instrs.size)).getD 0
  slots : f.slotNames = names
  nodup : names.Nodup
  words : AreWords names

end Function

section Labels

theorem base_append_inj {base base' : String} (hb : base ∈ blockBases) (hb' : base' ∈ blockBases) {n : Nat}
    {suffix : List Char} (hs : ∀ c ∈ suffix, isDigit c = true)
    (h : base.toList ++ (toString n).toList = base'.toList ++ suffix) :
    base = base' ∧ (toString n).toList = suffix := by
  have hbases : blockBases.all (fun w => w.toList.all fun c => !isDigit c) = true := by decide
  have hlast (w : String) (hw : w ∈ blockBases) : ∀ c ∈ w.toList.getLast?, isDigit c = false := by
    intro c hc
    simpa using List.all_eq_true.1 (List.all_eq_true.1 hbases w hw) c (List.mem_of_mem_getLast? hc)
  have hdigits : ∀ c ∈ (toString n).toList, isDigit c = true := by
    rw [Nat.toString_eq_repr, Nat.toList_repr]
    exact fun c hc => isDigit_of_mem_toDigits hc
  obtain ⟨heq, hrest⟩ := append_digits_inj (hlast base hb) (hlast base' hb') hdigits hs h
  exact ⟨String.toList_inj.1 heq, hrest⟩

variable {f : Function} {k : Nat} {names : List String}

theorem Function.Neat.blockName_notMem (h : f.Neat k names) {base : String} (hb : base ∈ blockBases) :
    Builder.blockName f base ∉ f.labels := by
  unfold Builder.blockName
  split
  · intro hmem
    obtain ⟨b, hlt, hname⟩ := List.mem_iff_getElem.1 hmem
    obtain ⟨base', hb', hcase⟩ := h.labelled b _ (by rw [List.getElem?_eq_getElem hlt, hname])
    rcases hcase with hcase | hcase
    · have hlist := congrArg String.toList hcase
      rw [String.toList_append, ← List.append_nil base'.toList] at hlist
      have hdigits := (base_append_inj hb hb' (by simp) hlist).2
      rw [Nat.toString_eq_repr, Nat.toList_repr] at hdigits
      exact Nat.toDigits_ne_nil hdigits
    · have hlist := congrArg String.toList hcase
      rw [String.toList_append, String.toList_append] at hlist
      have hdigits := (base_append_inj hb hb' (by
        rw [Nat.toString_eq_repr, Nat.toList_repr]
        exact fun c hc => isDigit_of_mem_toDigits hc) hlist).2
      rw [Nat.toString_eq_repr, Nat.toList_repr, Nat.toString_eq_repr, Nat.toList_repr] at hdigits
      have hsize : f.blocks.size = b := by
        rw [← digitsValue_toDigits f.blocks.size, hdigits, digitsValue_toDigits]
      simp only [Function.labels, List.length_map, Array.length_toList] at hlt
      omega
  · next hany =>
    intro hmem
    obtain ⟨blk, hblk, hname⟩ := List.mem_map.1 hmem
    refine hany (Array.any_eq_true'.2 ⟨blk, Array.mem_toList_iff.1 hblk, ?_⟩)
    simpa using hname

end Labels

namespace Function.Neat
variable {f : Function} {k : Nat} {names : List String}

theorem append (h : f.Neat k names) {base : String} (hb : base ∈ blockBases) :
    ({ f with blocks := f.blocks.push { name := Builder.blockName f base } } : Function).Neat k names := by
  have hlabels : ({ f with blocks := f.blocks.push { name := Builder.blockName f base } } : Function).labels =
      f.labels ++ [Builder.blockName f base] := by
    simp [labels]
  refine ⟨fun b name hname => ?_, ?_, ?_, ?_, h.slots, h.nodup, h.words⟩
  · rw [hlabels, List.getElem?_append] at hname
    split at hname
    · exact h.labelled b name hname
    · next hlt =>
      have hb0 : b = f.blocks.size := by
        have := (List.getElem?_eq_some_iff.1 hname).1
        simp only [labels, List.length_map, Array.length_toList, List.length_singleton] at hlt this
        omega
      rw [hb0] at hname ⊢
      simp only [labels, List.length_map, Array.length_toList, Nat.sub_self, List.getElem?_cons_zero,
        Option.some.injEq] at hname
      rw [← hname, Builder.blockName]
      split
      · exact ⟨base, hb, .inr rfl⟩
      · exact ⟨base, hb, .inl rfl⟩
  · rw [hlabels, List.nodup_append]
    refine ⟨h.apart, by simp, fun x hx y hy hxy => ?_⟩
    rw [List.mem_singleton] at hy
    exact h.blockName_notMem hb (hy ▸ hxy ▸ hx)
  · simpa [Function.placed] using h.order
  · have hopen := h.opening
    rw [Array.getElem?_push]
    split
    · next hsize => simpa [← hsize] using hopen
    · exact hopen

/-- A block is reworked: instructions are added to it, and nothing is taken out. -/
theorem set (h : f.Neat k names) {g : Function} {id : BlockId} {b b' : Block} {k' : Nat}
    (more : List Instr) (hb : f.blocks[id]? = some b) (hblocks : g.blocks = f.blocks.setIfInBounds id b')
    (hname : b'.name = b.name)
    (hperm : b'.instrs.toList.Perm (b.instrs.toList ++ List.range' f.instrs.size more.length))
    (hinstrs : g.instrs.toList = f.instrs.toList ++ more)
    (hk : 2 * k' ≤ 2 * k + if id = 0 then more.length else 0)
    (hnodup : (names ++ more.filterMap Instr.slotName?).Nodup)
    (hwords : AreWords (names ++ more.filterMap Instr.slotName?)) :
    g.Neat k' (names ++ more.filterMap Instr.slotName?) := by
  have hlist : f.blocks.toList[id]? = some b := by rw [Array.getElem?_toList, hb]
  have hlt : id < f.blocks.size := (Array.getElem?_eq_some_iff.1 hb).1
  have hlabels : g.labels = f.labels := by
    refine List.ext_getElem? fun j => ?_
    rw [labels, hblocks, Array.toList_setIfInBounds, List.getElem?_map, labels, List.getElem?_map,
      List.getElem?_set]
    split
    · next hj =>
      subst hj
      rw [hlist, if_pos (List.getElem?_eq_some_iff.1 hlist).1, Option.map_some, Option.map_some, hname]
    · rfl
  refine ⟨hlabels ▸ h.labelled, hlabels ▸ h.apart, ?_, ?_, ?_, hnodup, hwords⟩
  · have hsize : g.instrs.size = f.instrs.size + more.length := by
      rw [← Array.length_toList, hinstrs, List.length_append, Array.length_toList]
    rw [hsize, List.range_eq_range', ← List.range'_append_1, ← List.range_eq_range', Nat.zero_add]
    refine (placed_set hb hblocks (hperm.trans List.perm_append_comm)).trans ?_
    exact List.perm_append_comm.trans (h.order.append_right _)
  · have hopen := h.opening
    have hlength := hperm.length_eq
    rw [List.length_append, List.length_range', Array.length_toList, Array.length_toList] at hlength
    rw [hblocks, Array.getElem?_setIfInBounds]
    split
    · next hid =>
      subst hid
      simp only [hb, if_true, Option.map_some, Option.getD_some] at hopen hk ⊢
      omega
    · next hid =>
      rw [if_neg hid] at hk
      omega
  · rw [slotNames, hinstrs, List.filterMap_append, ← h.slots]
    rfl

theorem push (h : f.Neat k names) {id : BlockId} {b : Block} (hb : f.blocks[id]? = some b) {i : Instr}
    (hi : i.slotName? = none) : ({ f with
      instrs := f.instrs.push i
      blocks := f.blocks.setIfInBounds id { b with instrs := b.instrs.push f.instrs.size } } :
      Function).Neat k names := by
  have hnames : names ++ [i].filterMap Instr.slotName? = names := by simp [hi]
  rw [← hnames]
  exact h.set [i] hb rfl rfl (by simp) (by simp) (by omega) (hnames.symm ▸ h.nodup) (hnames.symm ▸ h.words)

theorem close (h : f.Neat k names) {id : BlockId} {b : Block} (hb : f.blocks[id]? = some b)
    (t : Terminator) : ({ f with
      blocks := f.blocks.setIfInBounds id { b with terminator := some t } } : Function).Neat k names := by
  rw [← List.append_nil names]
  exact h.set [] hb rfl rfl (by simp) (by simp) (by omega) (by simpa using h.nodup) (by simpa using h.words)

theorem slot (h : f.Neat k names) {entry : Block} (hb : f.blocks[0]? = some entry) {name : String}
    (hnew : name ∉ names) (hword : IsWord name.toList) (init : Operand) : ({ f with
      instrs := (f.instrs.push (.alloca name)).push (.store init (.instr f.instrs.size))
      blocks := f.blocks.setIfInBounds 0 { entry with
        instrs := (entry.instrs.insertIdxIfInBounds k f.instrs.size).insertIdxIfInBounds (k + 1 + k)
          (f.instrs.size + 1) } } : Function).Neat (k + 1) (names ++ [name]) := by
  have hopen := h.opening
  simp only [hb, Option.map_some, Option.getD_some] at hopen
  have hinsert (a : Array InstrId) (i : Nat) (x : InstrId) (hi : i ≤ a.size) :
      (a.insertIdxIfInBounds i x).toList.Perm (x :: a.toList) := by
    cases a
    rw [List.insertIdxIfInBounds_toArray]
    exact List.perm_insertIdx x _ hi
  refine h.set [.alloca name, .store init (.instr f.instrs.size)] hb rfl rfl ?_ (by simp)
    (by simp; omega) ?_ ?_
  · have hfirst := hinsert entry.instrs k f.instrs.size (by omega)
    have hsize := hfirst.length_eq
    rw [Array.length_toList, List.length_cons, Array.length_toList] at hsize
    refine (hinsert _ (k + 1 + k) (f.instrs.size + 1) (by omega)).trans ?_
    have hboth := (hfirst.cons (f.instrs.size + 1)).trans (List.Perm.swap _ _ _)
    have hend : ([f.instrs.size, f.instrs.size + 1] ++ entry.instrs.toList).Perm
        (entry.instrs.toList ++ [f.instrs.size, f.instrs.size + 1]) := List.perm_append_comm
    exact hboth.trans hend
  · exact List.nodup_append.2 ⟨h.nodup, List.pairwise_singleton _ _, fun x hx y hy hxy =>
      hnew (List.mem_singleton.1 hy ▸ hxy ▸ hx)⟩
  · exact areWords_append.2 ⟨h.words, areWords_cons.2 ⟨hword, areWords_nil⟩⟩

end Function.Neat

theorem Function.neat_header {f : Function} (h : f.header = f) : f.Neat 0 [] := by
  rw [← h]
  exact ⟨fun b name hb => by simp [labels, header] at hb, by simp [labels, header],
    by simp [Function.placed, header], Nat.zero_le _, by simp [slotNames, header], .nil, areWords_nil⟩

/-- Every function is in order, no place is empty, and cells have words for names. -/
structure Module.Neat (title : String) (m : Module) : Prop where
  title : m.name = title
  functions : ∀ id f, m.function? id = some f → ∃ k names, f.Neat k names
  full : ∀ id < m.functions.size, m.function? id ≠ none
  words : AreWords (m.globals.toList.map (·.name))

theorem Module.function?_globalCell (m : Module) (name : String) (init : Int32) (id : FuncId) :
    (m.globalCell name init).2.function? id = m.function? id := by
  unfold globalCell
  split <;> rfl

theorem Module.function?_declare_of_some {m : Module} {id : FuncId} {f : Function} {name : String} {n : Nat}
    {variadic : Bool} (h : m.function? id = some f) :
    (m.declare name n variadic).2.function? id = some f := by
  unfold declare
  split
  · exact h
  · exact function?_push_of_some h

namespace Module.Neat
variable {title : String} {m : Module} {id : FuncId} {f g : Function}

theorem empty (name : String) : ({ name } : Module).Neat name :=
  ⟨rfl, fun id f h => by simp [function?] at h, fun id h => by simp at h, areWords_nil⟩

theorem push (h : m.Neat title) (hf : f.header = f) : (m.push f).2.Neat title := by
  refine ⟨h.title, fun id g hg => ?_, fun id hid => ?_, h.words⟩
  · rw [function?_push] at hg
    split at hg
    · exact ⟨0, [], Option.some.inj hg ▸ Function.neat_header hf⟩
    · exact h.functions id g hg
  · rw [function?_push]
    split
    · simp
    · next hne =>
      have hsize : id < m.functions.size + 1 := by simpa [Module.push] using hid
      exact h.full id (Nat.lt_of_le_of_ne (Nat.le_of_lt_succ hsize) hne)

theorem update (h : m.Neat title) (hf : m.function? id = some f) {k : Nat} {names : List String}
    (hg : g.Neat k names) : (m.update id g).Neat title := by
  refine ⟨h.title, fun j g' hg' => ?_, fun j hj => ?_, h.words⟩
  · rw [function?_update hf] at hg'
    split at hg'
    · exact ⟨k, names, Option.some.inj hg' ▸ hg⟩
    · exact h.functions j g' hg'
  · rw [function?_update hf]
    split
    · simp
    · exact h.full j (by simpa [Module.update] using hj)

theorem declare (h : m.Neat title) (name : String) (n : Nat) (variadic : Bool) :
    (m.declare name n variadic).2.Neat title := by
  unfold Module.declare
  split
  · exact h
  · exact h.push rfl

theorem globalCell (h : m.Neat title) {name : String} (hword : IsWord name.toList) (init : Int32) :
    (m.globalCell name init).2.Neat title := by
  unfold Module.globalCell
  split
  · exact h
  · refine ⟨h.title, h.functions, h.full, ?_⟩
    simp [h.words, hword]

end Module.Neat
end Flow

namespace Flow.Builder
variable {α : Type} {b b' : Builder} {f : Function}

theorem getFunction_bind_ok {next : Function → Build α} {a : α} (h : (getFunction >>= next) b = .ok a b') :
    ∃ f, b.module.function? b.function = some f ∧ next f b = .ok a b' := by
  cases hf : b.module.function? b.function with
  | none => simp [bind, EStateM.bind, getFunction, hf] at h
  | some f => exact ⟨f, rfl, by simpa [bind, EStateM.bind, getFunction, hf] using h⟩

theorem openBlock_bind_ok {next : BlockId × Block → Build α} {a : α}
    (h : (openBlock f >>= next) b = .ok a b') :
    ∃ id blk, f.blocks[id]? = some blk ∧ next (id, blk) b = .ok a b' := by
  simp only [openBlock, bind, EStateM.bind, get_apply] at h
  cases hblock : b.block with
  | none =>
    rw [hblock] at h
    cases h
  | some id =>
    simp only [hblock] at h
    cases hblk : f.blocks[id]? with
    | none =>
      simp only [hblk] at h
      cases h
    | some blk =>
      simp only [hblk] at h
      split at h
      · next hopen =>
        split at hopen
        · cases hopen
        · cases hopen
          exact ⟨id, blk, hblk, h⟩
      · cases h

end Flow.Builder

def Scope.names : Scope → List String
  | .slots known => (known.map (·.1)).reverse
  | .globals => []

@[simp] theorem Scope.names_cons (name : String) (slot : Operand) (known : List (String × Operand)) :
    (Scope.slots ((name, slot) :: known)).names = (Scope.slots known).names ++ [name] := by
  simp [names]

namespace Lower
variable {α β : Type}

theorem scope_of_build {step : Build α} {σ σ' : Lowering} {a : α} (h : build step σ = .ok a σ') :
    σ'.scope = σ.scope := by
  unfold build at h
  split at h <;> cases h
  rfl

/-- A step that keeps a property of lowering, if it succeeds. -/
def Keeps (J : Lowering → Prop) (x : Lower α) : Prop :=
  ∀ σ a σ', J σ → x σ = .ok a σ' → J σ'

namespace Keeps
variable {J : Lowering → Prop}

theorem bind {x : Lower α} {f : α → Lower β} (h : Keeps J x) (hf : ∀ a, Keeps J (f a)) :
    Keeps J (x >>= f) := by
  intro σ c σ' hσ hrun
  obtain ⟨a, σ₁, hx, hrest⟩ := exists_of_bind hrun
  exact hf a σ₁ c σ' (h σ a σ₁ hσ hx) hrest

theorem pure (a : α) : Keeps J (pure a) := by
  intro σ c σ' hσ hrun
  cases hrun
  exact hσ

theorem reject (e : CompileError) : Keeps J (reject e : Lower α) := by
  intro σ c σ' hσ hrun
  cases hrun

theorem resolve (name : String) (n : Nat) : Keeps J (resolve name n) := by
  intro σ id σ' hσ hrun
  rcases resolve_cases σ name n with ⟨id', hok, -⟩ | ⟨e, herror, -⟩
  · rw [hok] at hrun
    cases hrun
    exact hσ
  · rw [herror] at hrun
    cases hrun

theorem build {step : Build α} (h : ∀ (σ : Lowering) a b, J σ → step σ.builder = .ok a b →
    J { σ with builder := b }) : Keeps J (build step) := by
  intro σ a σ' hσ hrun
  unfold Lower.build at hrun
  cases hb : step σ.builder with
  | ok c b =>
    rw [hb] at hrun
    cases hrun
    exact h σ _ b hσ hb
  | error e b =>
    rw [hb] at hrun
    cases hrun

end Keeps

end Lower

def Lowering.Neat (title : String) (σ : Lowering) : Prop :=
  σ.builder.module.Neat title ∧ ∃ f, σ.builder.module.function? σ.builder.function = some f ∧
    f.Neat σ.builder.slots σ.scope.names

section Steps
variable {title : String} {σ : Lowering} {f g : Function}

theorem Lowering.Neat.current (h : σ.Neat title)
    (hf : σ.builder.module.function? σ.builder.function = some f) : f.Neat σ.builder.slots σ.scope.names := by
  obtain ⟨-, g, hg, hneat⟩ := h
  exact Option.some.inj (hg.symm.trans hf) ▸ hneat

theorem Lowering.Neat.update (h : σ.Neat title)
    (hf : σ.builder.module.function? σ.builder.function = some f)
    (hg : g.Neat σ.builder.slots σ.scope.names) : ({ σ with builder := { σ.builder with
      module := σ.builder.module.update σ.builder.function g } } : Lowering).Neat title :=
  ⟨h.1.update hf hg, g, by simp [Module.function?_update hf], hg⟩

theorem Lowering.Neat.enlarge (h : σ.Neat title) {m : Module} (hm : m.Neat title)
    (hkept : ∀ id f, σ.builder.module.function? id = some f → m.function? id = some f) :
    ({ σ with builder := { σ.builder with module := m } } : Lowering).Neat title := by
  obtain ⟨-, f, hf, hneat⟩ := h
  exact ⟨hm, f, hkept _ f hf, hneat⟩

theorem Lowering.Neat.entrySlot (h : σ.Neat title) {name : String} {init v : Operand} {b : Builder}
    (hnew : name ∉ σ.scope.names) (hword : IsWord name.toList)
    (hrun : Builder.entrySlot name init σ.builder = .ok v b) : b.module.Neat title ∧
      ∃ f, b.module.function? b.function = some f ∧ f.Neat b.slots (σ.scope.names ++ [name]) := by
  obtain ⟨f, hf, hrest⟩ := Builder.getFunction_bind_ok hrun
  simp only [bind, EStateM.bind, get_apply] at hrest
  cases hentry : f.blocks[0]? with
  | none =>
    simp only [hentry] at hrest
    cases hrest
  | some entry =>
    simp only [hentry] at hrest
    cases hrest
    have hslot := (h.current hf).slot hentry hnew hword init
    exact ⟨h.1.update hf hslot, _, by simp [Module.function?_update hf], hslot⟩

theorem notMem_names_of_lookup {known : List (String × Operand)} {name : String}
    (h : known.lookup name = none) : name ∉ (Scope.slots known).names := by
  rw [Scope.names, List.mem_reverse]
  rintro hmem
  obtain ⟨⟨x, v⟩, hx, rfl⟩ := List.mem_map.1 hmem
  have := List.lookup_eq_none_iff.1 h _ hx
  simp at this

namespace Lower

theorem keeps_address {name : String} (hword : IsWord name.toList) :
    Keeps (Lowering.Neat title) (address name) := by
  intro σ v σ' hσ hrun
  cases hscope : σ.scope with
  | globals =>
    rw [address_globals hscope] at hrun
    cases hrun
    exact hσ.enlarge (hσ.1.globalCell hword 0) fun id f hf => by
      rw [Module.function?_globalCell]
      exact hf
  | slots known =>
    cases hx : known.lookup name with
    | some p =>
      rw [address_slots hscope hx] at hrun
      cases hrun
      exact hσ
    | none =>
      rw [address_new hscope hx] at hrun
      simp only [bind, EStateM.bind, build] at hrun
      cases hb : Builder.entrySlot name (.int 0) σ.builder with
      | error e b =>
        rw [hb] at hrun
        cases hrun
      | ok slot b =>
        rw [hb] at hrun
        cases hrun
        have hnames : σ.scope.names = (Scope.slots known).names := congrArg Scope.names hscope
        obtain ⟨hm, f, hf, hneat⟩ := hσ.entrySlot (hnames ▸ notMem_names_of_lookup hx) hword hb
        rw [hnames] at hneat
        exact ⟨hm, f, hf, by rwa [Scope.names_cons]⟩

theorem keeps_push {i : Instr} (hi : i.slotName? = none) :
    Keeps (Lowering.Neat title) (build (Builder.push i)) := by
  refine .build fun σ a b hσ hrun => ?_
  obtain ⟨f, hf, hrest⟩ := Builder.getFunction_bind_ok hrun
  obtain ⟨id, blk, hblk, hrest⟩ := Builder.openBlock_bind_ok hrest
  cases hrest
  exact hσ.update hf ((hσ.current hf).push hblk hi)

theorem keeps_declare (name : String) (n : Nat) (variadic : Bool) :
    Keeps (Lowering.Neat title) (build (Builder.onModule (·.declare name n variadic))) := by
  refine .build fun σ a b hσ hrun => ?_
  cases hrun
  exact hσ.enlarge (hσ.1.declare name n variadic) fun id f => Module.function?_declare_of_some

def neatAccount (title : String) : Account Prop where
  holds x w := w → Keeps (Lowering.Neat title) x
  nothing := True
  andThen := And
  nothing_andThen := true_and
  andThen_nothing := and_true
  bind h hf hw := (h hw.1).bind fun a => hf a hw.2
  pure a _ := .pure a
  append base hbase _ := by
    refine .build fun σ a b hσ hrun => ?_
    obtain ⟨f, hf, hrest⟩ := Builder.getFunction_bind_ok hrun
    cases hrest
    exact hσ.update hf ((hσ.current hf).append hbase)
  push i hi _ := keeps_push hi
  arith op l r _ := by
    have htype : Keeps (Lowering.Neat title) (build (Builder.typeOf l)) := by
      refine .build fun σ ty b hσ hrun => ?_
      obtain ⟨f, hf, hrest⟩ := Builder.getFunction_bind_ok hrun
      cases hrest
      exact hσ
    rw [Builder.arith, build_bind]
    exact htype.bind fun ty => keeps_push rfl
  store v a _ := by
    rw [Builder.store, build_bind]
    exact (keeps_push rfl).bind fun _ => .build fun σ _ b hσ hrun => by
      cases hrun
      exact hσ
  terminate t _ := by
    refine .build fun σ a b hσ hrun => ?_
    obtain ⟨f, hf, hrest⟩ := Builder.getFunction_bind_ok hrun
    obtain ⟨id, blk, hblk, hrest⟩ := Builder.openBlock_bind_ok hrest
    cases hrest
    exact hσ.update hf ((hσ.current hf).close hblk t)
  position id _ := by
    refine .build fun σ a b hσ hrun => ?_
    cases hrun
    exact hσ

def neatTrees (title : String) : (neatAccount title).OfTrees where
  name x := IsWord x.toList
  operation _ := True
  callee f _ := IsWord f.toList
  print := True
  expr e := AreWords e.identifiers
  exprs es := AreWords (Exprs.identifiers es)
  stmt s := AreWords s.identifiers
  stmts ss := AreWords (Stmts.identifiers ss)
  arms as := AreWords (Arms.identifiers as)
  holds_address _ hx := keeps_address hx
  holds_power _ := keeps_declare _ _ _
  holds_reject _ _ _ := .reject _
  holds_resolve _ _ _ := .resolve _ _
  holds_print _ := keeps_declare _ _ _
  operation_eq _ _ := rfl
  expr_eq e := by cases e <;> simp [Expr.identifiers, neatAccount]
  exprs_eq es := by cases es <;> simp [Exprs.identifiers, neatAccount]
  stmt_eq s := by cases s <;> simp [Stmt.identifiers, neatAccount]
  stmts_eq ss := by cases ss <;> simp [Stmts.identifiers, neatAccount]
  arms_eq as := by cases as <;> simp [Arms.identifiers, neatAccount]

/-- Parameters whose names differ, and are not known yet. -/
theorem keeps_parameters : ∀ {names : List String} (i : Nat), AreWords names → names.Nodup → ∀ σ u σ',
    σ.Neat title → (∀ name ∈ names, name ∉ σ.scope.names) → (∃ known, σ.scope = .slots known) →
    parameters names i σ = .ok u σ' → σ'.Neat title
  | [], _, _, _, σ, u, σ', hσ, _, _, hrun => by
    cases hrun
    exact hσ
  | name :: names, i, hwords, hnodup, σ, u, σ', hσ, hnew, ⟨known, hscope⟩, hrun => by
    rw [areWords_cons] at hwords
    rw [List.nodup_cons] at hnodup
    rw [List.forall_mem_cons] at hnew
    simp only [parameters, bind, EStateM.bind, build] at hrun
    cases hb : Builder.entrySlot name (.param i) σ.builder with
    | error e b =>
      rw [hb] at hrun
      cases hrun
    | ok slot b =>
      obtain ⟨hm, f, hf, hneat⟩ := hσ.entrySlot hnew.1 hwords.1 hb
      simp only [hb, modify_apply, hscope] at hrun
      have hmore : (Scope.slots ((name, slot) :: known)).names = σ.scope.names ++ [name] := by
        rw [Scope.names_cons, hscope]
      refine keeps_parameters (i + 1) hwords.2 hnodup.2 _ u σ' ⟨hm, f, hf, hmore ▸ hneat⟩ (fun x hx => ?_)
        ⟨_, rfl⟩ hrun
      rw [hmore, List.mem_append, List.mem_singleton]
      rintro (hold | rfl)
      · exact hnew.2 x hx hold
      · exact hnodup.1 hx

end Lower

/-- Lowering a body into a declared function leaves the module in order. -/
theorem neat_lowerBody {m m' : Module} {id : FuncId} {scope : Scope} {params : List String} {ss : List Stmt}
    {u : Unit} (hm : m.Neat title) (hf : m.function? id = some f) (hempty : f.header = f)
    (hscope : scope = .slots [] ∨ scope = .globals ∧ params = []) (hparams : AreWords params)
    (hnodup : params.Nodup) (hss : AreWords (Stmts.identifiers ss))
    (h : lowerBody m id scope params ss = (.ok u, m')) : m'.Neat title := by
  have hstart : (⟨{ module := m, function := id }, scope⟩ : Lowering).Neat title := by
    refine ⟨hm, f, hf, ?_⟩
    rcases hscope with rfl | ⟨rfl, -⟩ <;> exact Function.neat_header hempty
  unfold lowerBody at h
  split at h
  · next σ' hrun =>
    obtain ⟨entry, σ₁, happend, hrun⟩ := Lower.exists_of_bind hrun
    obtain ⟨u₂, σ₂, hposition, hrun⟩ := Lower.exists_of_bind hrun
    obtain ⟨u₃, σ₃, hparam, hrun⟩ := Lower.exists_of_bind hrun
    have h₁ := (Lower.neatAccount title).append "entry" (by decide) trivial _ _ _ hstart happend
    have h₂ := (Lower.neatAccount title).position entry trivial _ _ _ h₁ hposition
    have hsame : σ₂.scope = scope :=
      (Lower.scope_of_build hposition).trans (Lower.scope_of_build happend)
    have h₃ : σ₃.Neat title := by
      rcases hscope with rfl | ⟨-, rfl⟩
      · exact Lower.keeps_parameters 0 hparams hnodup _ _ _ h₂ (by simp [hsame, Scope.names]) ⟨_, hsame⟩
          hparam
      · cases hparam
        exact h₂
    have hrest : Lower.Keeps (Lowering.Neat title)
        (Lower.stmts ss >>= fun _ => Lower.build (Builder.ret (.int 0))) :=
      ((Lower.neatTrees title).holds_stmts ss hss).bind fun _ =>
        (Lower.neatAccount title).terminate _ trivial
    obtain ⟨-, rfl⟩ := Prod.mk.inj h
    exact (hrest _ _ _ h₃ hrun).1
  · cases (Prod.mk.inj h).1

end Steps

section Programs
variable {title : String} {m m' : Module}

theorem neat_defineAll : ∀ {fs : List (FuncId × FunctionDef)} {m m' : Module} {u : Unit},
    m.Neat title → m.Tidy →
    (∀ x ∈ fs, m.function? x.1 = some x.2.prototype ∧ ¬ Reserved x.2.name) → (fs.map (·.1)).Nodup →
    (∀ x ∈ fs, AreWords (x.2.params ++ Stmts.identifiers x.2.body) ∧ x.2.params.Nodup) →
    Session.defineAll m fs = (.ok u, m') → m'.Neat title
  | [], m, m', u, hm, _, _, _, _, h => by
    cases h
    exact hm
  | (id, d) :: fs, m, m', u, hm, ht, hfs, hn, hwords, h => by
    rw [List.map_cons, List.nodup_cons] at hn
    rw [List.forall_mem_cons] at hwords
    obtain ⟨hf, hr⟩ := hfs (id, d) List.mem_cons_self
    have hfirst := define_spec ht hf hr
    rw [Session.defineAll] at h
    rcases hrun : Session.define m id d with ⟨e | u', m₁⟩
    · rw [hrun] at h
      cases h
    · simp only [hrun] at h hfirst
      have hm₁ : m₁.Neat title := by
        unfold Session.define at hrun
        split at hrun
        · cases hrun
          exact hm
        · exact neat_lowerBody hm hf rfl (.inl rfl) (areWords_append.1 hwords.1.1).1 hwords.1.2
            (areWords_append.1 hwords.1.1).2 hrun
      have hne (x : FuncId × FunctionDef) (hx : x ∈ fs) : x.1 ≠ id :=
        fun hid => hn.1 (hid ▸ List.mem_map_of_mem (f := (·.1)) hx)
      exact neat_defineAll hm₁ (hfirst.2.1.tidy ht) (fun x hx =>
        ⟨hfirst.2.1.others _ _ (hne x hx) (hfs x (List.mem_cons_of_mem _ hx)).1,
          (hfs x (List.mem_cons_of_mem _ hx)).2⟩) hn.2 hwords.2 h

theorem neat_prototypes : ∀ {ds : List FunctionDef} {m m' : Module} {ids : List FuncId}, m.Neat title →
    Session.prototypes m ds = (.ok ids, m') → m'.Neat title
  | [], m, m', ids, hm, h => by
    cases h
    exact hm
  | d :: ds, m, m', ids, hm, h => by
    rw [Session.prototypes] at h
    rcases prototype_eq m d with ⟨hok, -, -⟩ | ⟨⟨e, he⟩, -⟩
    · simp only [hok] at h
      rcases hrest : Session.prototypes (m.push d.prototype).2 ds with ⟨e | ids', m₁⟩
      · rw [hrest] at h
        cases h
      · simp only [hrest] at h
        cases h
        exact neat_prototypes (hm.push rfl) hrest
    · simp only [he] at h
      cases h

/-- A module that a program with words for names has been compiled into is in order. -/
theorem neat_compileInto {name : String} {p : Program} {u : Unit} (hp : AreWords p.identifiers)
    (hparams : ∀ d ∈ p.functions, d.params.Nodup) (h : Session.compileInto { name } p = (.ok u, m)) :
    m.Neat name := by
  have hproto := prototypes_spec p.functions (declares_empty name) (hides_empty name)
  unfold Session.compileInto at h
  rcases hrun : Session.prototypes { name } p.functions with ⟨e | ids, m₁⟩
  · simp only [hrun] at h
    cases h
  simp only [hrun, List.nil_append] at h hproto
  obtain ⟨hr, hdecl, -, hproto⟩ := hproto
  have hm₁ := neat_prototypes (.empty name) hrun
  cases hn : m₁.find? entryPoint with
  | some id =>
    simp only [Module.add?, hn] at h
    cases h
  | none =>
    have hann := announced hr hdecl hproto hn
    have hpush : m₁.push ⟨entryPoint, 0, .external, false, true, #[], #[]⟩ =
        (m₁.functions.size, (m₁.push entryPrototype).2) := rfl
    simp only [Module.add?, hn, hpush] at h
    have hbodies : ∀ x ∈ ids.zip p.functions,
        AreWords (x.2.params ++ Stmts.identifiers x.2.body) ∧ x.2.params.Nodup := by
      intro x hx
      have hd := (List.of_mem_zip hx).2
      exact ⟨(areWords_cons.1 (hp.function hd)).2, hparams _ hd⟩
    have hspec := defineAll_spec _ hann.declares.tidy hann.prototypes hann.nodup
    rcases hrun₁ : Session.defineAll (m₁.push entryPrototype).2 (ids.zip p.functions) with ⟨e | u₁, m₂⟩
    · simp only [hrun₁] at h
      cases h
    · simp only [hrun₁] at h hspec
      have hm₂ := neat_defineAll (hm₁.push rfl) hann.declares.tidy hann.prototypes hann.nodup hbodies hrun₁
      have hmain := hspec.2.2.1 _ _ hann.apart hann.entry
      rcases hrun₂ : lowerBody m₂ m₁.functions.size .globals [] p.statements with ⟨e | u₂, m₃⟩
      · simp only [hrun₂] at h
        cases h
      · simp only [hrun₂] at h
        obtain ⟨-, rfl⟩ := Prod.mk.inj h
        exact neat_lowerBody hm₂ hmain rfl (.inr ⟨rfl, rfl⟩) areWords_nil .nil hp.statements hrun₂

theorem Compiled.isWord_name {p : Program} (h : Compiled p m) (hp : AreWords p.identifiers) {id : FuncId}
    {f : Function} (hf : m.function? id = some f) : IsWord f.name.toList := by
  rcases h.functions id f hf with hf | hf | ⟨d, hd, hf⟩
  · have hname : f.name = entryPoint := congrArg (fun f => f.name) hf
    rw [hname]
    decide
  · rcases hf.name with hname | hname
    · rw [hname]
      decide
    · rw [hname]
      decide
  · have hname : f.name = d.name := congrArg (fun f => f.name) hf
    exact hname ▸ hp.function hd d.name List.mem_cons_self

end Programs
end IntLang
