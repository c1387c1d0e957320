import IntLang.Proofs.Building
import IntLang.Proofs.ModuleGrowth

/-! Edits of a module in any order: functions are added, declared, erased and built, and global cells
are asked for. The log of an edited module determines which indices are live and which cells there are. -/
namespace IntLang.Flow

inductive BuildOp where
  | block (name : String)
  | position (id : BlockId)
  | slot (name : String) (init : Operand)
  | load (address : Operand)
  | store (value address : Operand)
  | arith (op : ArithOp) (lhs rhs : Operand)
  | compare (op : CmpOp) (lhs rhs : Operand)
  | widen (value : Operand)
  | call (callee : FuncId) (args : List Operand)
  | phi (ty : Ty) (incoming : List (Operand × BlockId))
  | jump (dest : BlockId)
  | branch (cond : Operand) (onTrue onFalse : BlockId)
  | ret (value : Operand)

namespace BuildOp

def run : BuildOp → Build Unit
  | block name => do let _ ← Builder.appendBlock name
  | position id => Builder.positionAt id
  | slot name init => do let _ ← Builder.entrySlot name init
  | load address => do let _ ← Builder.load address
  | store value address => Builder.store value address
  | arith op lhs rhs => do let _ ← Builder.arith op lhs rhs
  | compare op lhs rhs => do let _ ← Builder.compare op lhs rhs
  | widen value => do let _ ← Builder.widen value
  | call callee args => do let _ ← Builder.call callee args
  | phi ty incoming => do let _ ← Builder.phi ty incoming
  | jump dest => Builder.jump dest
  | branch cond onTrue onFalse => Builder.branch cond onTrue onFalse
  | ret value => Builder.ret value

def after (op : BuildOp) (b : Builder) : Builder :=
  match op.run b with
  | .ok _ b' => b'
  | .error _ b' => b'

end BuildOp

/-- What can be asked of a module. A builder keeps its place between two operations, and others can
come between them, so a building operation comes with the place where it is made. -/
inductive Edit where
  | add (f : Function)
  | declare (name : String) (paramCount : Nat) (variadic : Bool)
  | erase (id : FuncId)
  | cell (name : String) (init : Int32)
  | build (id : FuncId) (block : Option BlockId) (slots : Nat) (op : BuildOp)

inductive Reply where
  | function (id : FuncId)
  | refused
  | erased (f : Option Function)
  | cell (id : GlobalId)
  | built

namespace Module

def edit (m : Module) : Edit → Reply × Module
  | .add f =>
    match m.add? f with
    | some (id, m') => (.function id, m')
    | none => (.refused, m)
  | .declare name paramCount variadic =>
    let (id, m') := m.declare name paramCount variadic
    (.function id, m')
  | .erase id =>
    let (f, m') := m.erase id
    (.erased f, m')
  | .cell name init =>
    let (g, m') := m.globalCell name init
    (.cell g, m')
  | .build id block slots op => (.built, (op.after ⟨m, id, block, slots⟩).module)

def edits (m : Module) : List Edit → List (Edit × Reply) × Module
  | [] => ([], m)
  | e :: es =>
    let (r, m') := m.edit e
    let (log, m'') := m'.edits es
    ((e, r) :: log, m'')

end Module

def issued (log : List (Edit × Reply)) : List FuncId :=
  log.filterMap fun
    | (_, .function id) => some id
    | _ => none

/-- The cells that have been asked for, each with the value it was to start with. -/
def asked (log : List (Edit × Reply)) : List Global :=
  log.filterMap fun
    | (.cell name init, _) => some ⟨name, init⟩
    | _ => none

def Edit.Suits (g : Function) : Edit → Prop
  | .add f => g.header = f.header
  | .declare name _ _ => g.name = name
  | _ => True

theorem BuildOp.reworks (op : BuildOp) : Reworks op.run := by
  cases op with
  | block name => exact (Reworks.appendBlock name).discard
  | position id => exact .positionAt id
  | slot name init => exact (Reworks.entrySlot name init).discard
  | arith op l r => exact (Reworks.arith op l r).discard
  | jump | branch | ret => exact .terminate _
  | load | store | compare | widen | call | phi => exact (Reworks.push _).discard

theorem BuildOp.reworked_after (op : BuildOp) (b : Builder) :
    Reworked b.function b.module (op.after b).module := by
  have h := op.reworks b
  unfold BuildOp.after
  split at h
  · next hx => simpa only [hx] using h
  · next hx => simp only [hx, h]; exact .inl rfl

/-- What an edit can come to. -/
inductive Edited (m : Module) : Edit → Reply → Module → Prop where
  | added {f : Function} : m.find? f.name = none →
      Edited m (.add f) (.function m.functions.size) (m.push f).2
  | refused {f : Function} {id : FuncId} : m.find? f.name = some id → Edited m (.add f) .refused m
  | declared {name : String} {n : Nat} {v : Bool} {f : Function} : f.name = name →
      m.find? name = none → Edited m (.declare name n v) (.function m.functions.size) (m.push f).2
  | found {name : String} {n : Nat} {v : Bool} {id : FuncId} : m.find? name = some id →
      Edited m (.declare name n v) (.function id) m
  | erased {id : FuncId} {f : Function} : m.function? id = some f →
      Edited m (.erase id) (.erased (some f)) (m.erase id).2
  | absent {id : FuncId} : m.function? id = none → Edited m (.erase id) (.erased none) m
  | made {name : String} {init : Int32} : m.findGlobal? name = none →
      Edited m (.cell name init) (.cell m.globals.size)
        { m with globals := m.globals.push ⟨name, init⟩ }
  | present {name : String} {init : Int32} {g : GlobalId} : m.findGlobal? name = some g →
      Edited m (.cell name init) (.cell g) m
  | built {id : FuncId} {block : Option BlockId} {slots : Nat} {op : BuildOp} {f g : Function} :
      m.function? id = some f → g.header = f.header →
      Edited m (.build id block slots op) .built (m.update id g)
  | idle {id : FuncId} {block : Option BlockId} {slots : Nat} {op : BuildOp} :
      Edited m (.build id block slots op) .built m

theorem Module.edited (m : Module) (e : Edit) : Edited m e (m.edit e).1 (m.edit e).2 := by
  cases e with
  | add f =>
    cases h : m.find? f.name with
    | none =>
      simp only [edit, add?, h]
      exact .added h
    | some id => simpa only [edit, add?, h] using Edited.refused h
  | declare name n v =>
    cases h : m.find? name with
    | none =>
      simp only [edit, declare, h]
      exact .declared rfl h
    | some id => simpa only [edit, declare, h] using Edited.found h
  | erase id =>
    cases h : m.function? id with
    | none => simpa only [edit, erase, h] using Edited.absent h
    | some f =>
      have he : m.edit (.erase id) = (.erased (some f), (m.erase id).2) := by
        simp only [edit, erase, h]
      rw [he]
      exact .erased h
  | cell name init =>
    cases h : m.findGlobal? name with
    | none => simpa only [edit, globalCell, h] using Edited.made h
    | some g => simpa only [edit, globalCell, h] using Edited.present h
  | build id block slots op =>
    rcases op.reworked_after ⟨m, id, block, slots⟩ with h | ⟨f, g, hf, hg, h⟩
    · simpa only [edit, h] using Edited.idle
    · simpa only [edit, h] using Edited.built hf hg

structure Tracked (log : List (Edit × Reply)) (m : Module) : Prop where
  distinct : m.Distinct
  counted : (issued log).eraseDups = List.range m.functions.size
  alive : ∀ id, m.function? id ≠ none ↔
    id < m.functions.size ∧ ∀ f, (Edit.erase id, Reply.erased (some f)) ∉ log
  past : ∀ id f, (Edit.erase id, Reply.erased (some f)) ∈ log → id < m.functions.size
  kept : ∀ e id g, (e, Reply.function id) ∈ log → m.function? id = some g → e.Suits g

theorem Edit.Suits.of_header {e : Edit} {f g : Function} (h : e.Suits f) (hg : f.header = g.header) :
    e.Suits g := by
  cases e with
  | add => exact hg.symm.trans h
  | declare => exact (Function.name_of_header hg).symm.trans h
  | _ => trivial

theorem issued_append (log log' : List (Edit × Reply)) :
    issued (log ++ log') = issued log ++ issued log' :=
  List.filterMap_append

theorem mem_issued {log : List (Edit × Reply)} {id : FuncId} :
    id ∈ issued log ↔ ∃ e, (e, Reply.function id) ∈ log := by
  rw [issued, List.mem_filterMap]
  constructor
  · rintro ⟨⟨e, r⟩, hmem, hr⟩
    cases r with
    | function j => exact ⟨e, Option.some.inj hr ▸ hmem⟩
    | _ => cases hr
  · rintro ⟨e, hmem⟩
    exact ⟨_, hmem, rfl⟩

theorem eraseDups_append_of_mem {α : Type} [BEq α] [LawfulBEq α] {as bs : List α}
    (h : ∀ b ∈ bs, b ∈ as) : (as ++ bs).eraseDups = as.eraseDups := by
  rw [List.eraseDups_append]
  have hnil : bs.removeAll as = [] := by
    rw [List.removeAll, List.filter_eq_nil_iff]
    intro b hb
    simpa using h b hb
  rw [hnil]
  exact List.append_nil _

theorem eraseDups_append_singleton {α : Type} [BEq α] [LawfulBEq α] {as : List α} {b : α}
    (h : b ∉ as) : (as ++ [b]).eraseDups = as.eraseDups ++ [b] := by
  rw [List.eraseDups_append]
  have hone : [b].removeAll as = [b] := by
    rw [List.removeAll, List.filter_eq_self]
    intro c hc
    simpa [List.mem_singleton.1 hc] using h
  rw [hone]
  rfl

namespace Tracked
variable {log : List (Edit × Reply)} {m m' : Module} {e : Edit} {r : Reply} {f : Function}
  {id : FuncId}

theorem initial (name : String) : Tracked [] { name } :=
  ⟨fun i _ _ _ h => by simp [Module.function?] at h, rfl, fun id => by simp [Module.function?],
    fun _ _ h => by simp at h, fun _ _ _ h => by simp at h⟩

theorem mem_issued_iff (h : Tracked log m) : id ∈ issued log ↔ id < m.functions.size := by
  rw [← List.mem_eraseDups, h.counted, List.mem_range]

theorem lt_of_function? (h : Tracked log m) (hf : m.function? id = some f) : id < m.functions.size :=
  ((h.alive id).1 (by simp [hf])).1

/-- An edit that adds and erases no function. -/
theorem reshape (h : Tracked log m) (hsize : m'.functions.size = m.functions.size)
    (hhead : ∀ id, (m'.function? id).map Function.header = (m.function? id).map Function.header)
    (hissued : ∀ id, r = .function id → id ∈ issued log)
    (herase : ∀ id f, (e, r) ≠ (.erase id, .erased (some f)))
    (hsuits : ∀ id f, r = .function id → m.function? id = some f → e.Suits f) :
    Tracked (log ++ [(e, r)]) m' := by
  have hold (id : FuncId) (g : Function) (hg : m'.function? id = some g) :
      ∃ f, m.function? id = some f ∧ f.header = g.header := by
    have hh := hhead id
    rw [hg] at hh
    exact Option.map_eq_some_iff.1 hh.symm
  refine ⟨fun i j f g hf hg hn => ?_, ?_, fun id => ?_, fun id f hmem => ?_, fun e' id g hmem hg => ?_⟩
  · obtain ⟨f', hf', hfe⟩ := hold i f hf
    obtain ⟨g', hg', hge⟩ := hold j g hg
    refine h.distinct i j f' g' hf' hg' ?_
    exact (Function.name_of_header hfe).trans (hn.trans (Function.name_of_header hge).symm)
  · rw [issued_append, eraseDups_append_of_mem, h.counted, hsize]
    intro id hid
    obtain ⟨e', hmem⟩ := mem_issued.1 hid
    exact hissued id (Prod.mk.inj (List.mem_singleton.1 hmem)).2.symm
  · have hnone : m'.function? id ≠ none ↔ m.function? id ≠ none := by
      have hh := hhead id
      cases hm' : m'.function? id <;> cases hm : m.function? id <;> simp_all
    rw [hnone, h.alive, hsize]
    simp only [List.mem_append, List.mem_singleton, (herase _ _).symm, or_false]
  · rw [hsize]
    refine h.past id f ((List.mem_append.1 hmem).resolve_right fun hlast => ?_)
    exact herase id f (List.mem_singleton.1 hlast).symm
  · obtain ⟨g', hg', hge⟩ := hold id g hg
    refine Edit.Suits.of_header ?_ hge
    rcases List.mem_append.1 hmem with hmem | hmem
    · exact h.kept e' id g' hmem hg'
    · obtain ⟨rfl, rfl⟩ := Prod.mk.inj (List.mem_singleton.1 hmem)
      exact hsuits id g' rfl hg'

/-- An edit that adds a function under the next index. -/
theorem push (h : Tracked log m) (hn : m.find? f.name = none)
    (herase : ∀ id r, (e, Reply.function m.functions.size) ≠ (.erase id, r))
    (hsuits : e.Suits f) :
    Tracked (log ++ [(e, Reply.function m.functions.size)]) (m.push f).2 := by
  have hsize : (m.push f).2.functions.size = m.functions.size + 1 := by simp [Module.push]
  have hpast (id : FuncId) (g : Function) :
      (Edit.erase id, Reply.erased (some g)) ∈ log ++ [(e, Reply.function m.functions.size)] ↔
        (Edit.erase id, Reply.erased (some g)) ∈ log := by
    simp only [List.mem_append, List.mem_singleton, (herase _ _).symm, or_false]
  refine ⟨h.distinct.push hn, ?_, fun id => ?_, fun id g hmem => ?_, fun e' id k hmem hk => ?_⟩
  · have hnew : m.functions.size ∉ issued log := fun hmem =>
      Nat.lt_irrefl _ (h.mem_issued_iff.1 hmem)
    rw [issued_append, hsize, List.range_succ, ← h.counted]
    exact eraseDups_append_singleton hnew
  · simp only [Module.function?_push, hsize, hpast]
    by_cases hid : id = m.functions.size
    · subst hid
      simpa using fun g hmem => Nat.lt_irrefl _ (h.past _ g hmem)
    · rw [if_neg hid, h.alive, Nat.lt_succ_iff_lt_or_eq, or_iff_left hid]
  · rw [hsize]
    exact Nat.lt_succ_of_lt (h.past id g ((hpast id g).1 hmem))
  · rw [Module.function?_push] at hk
    rcases List.mem_append.1 hmem with hmem | hmem
    · have hlt := h.mem_issued_iff.1 (mem_issued.2 ⟨_, hmem⟩)
      rw [if_neg (Nat.ne_of_lt hlt)] at hk
      exact h.kept e' id k hmem hk
    · obtain ⟨rfl, hr⟩ := Prod.mk.inj (List.mem_singleton.1 hmem)
      rw [if_pos (Reply.function.inj hr)] at hk
      exact Option.some.inj hk ▸ hsuits

theorem erase (h : Tracked log m) (hf : m.function? id = some f) :
    Tracked (log ++ [(Edit.erase id, Reply.erased (some f))]) (m.erase id).2 := by
  have hsize : (m.erase id).2.functions.size = m.functions.size := by
    simp [Module.erase, hf]
  have hold (j : FuncId) (g : Function) (hg : (m.erase id).2.function? j = some g) :
      m.function? j = some g := by
    rw [Module.function?_erase] at hg
    split at hg
    · cases hg
    · exact hg
  refine ⟨fun i j g k hg hk => h.distinct i j g k (hold i g hg) (hold j k hk), ?_, fun j => ?_,
    fun j g hmem => ?_, fun e' j k hmem hk => ?_⟩
  · rw [issued_append, hsize, ← h.counted]
    exact congrArg List.eraseDups (List.append_nil _)
  · rw [Module.function?_erase, hsize]
    by_cases hj : j = id
    · subst hj
      simp only [↓reduceIte, ne_eq, not_true_eq_false, List.mem_append, false_iff, not_and]
      exact fun _ hno => hno f (.inr (List.mem_singleton_self _))
    · rw [if_neg hj, h.alive]
      simp only [List.mem_append, List.mem_singleton, Prod.mk.injEq, Edit.erase.injEq, hj, false_and,
        or_false]
  · rw [hsize]
    rcases List.mem_append.1 hmem with hmem | hmem
    · exact h.past j g hmem
    · rw [Edit.erase.inj (Prod.mk.inj (List.mem_singleton.1 hmem)).1]
      exact h.lt_of_function? hf
  · refine h.kept e' j k ((List.mem_append.1 hmem).resolve_right fun hlast => ?_) (hold j k hk)
    cases (Prod.mk.inj (List.mem_singleton.1 hlast)).2

theorem edit (h : Tracked log m) (he : Edited m e r m') : Tracked (log ++ [(e, r)]) m' := by
  cases he with
  | added hn => exact h.push hn (by simp) rfl
  | declared hname hn => exact h.push (hname ▸ hn) (by simp) hname
  | erased hf => exact h.erase hf
  | refused => exact h.reshape rfl (fun _ => rfl) (by simp) (by simp) (by simp)
  | found hid =>
    obtain ⟨f, hf, hname⟩ := Module.function?_of_find? hid
    refine h.reshape rfl (fun _ => rfl) (fun j hj => ?_) (by simp) fun j g hj hg => ?_
    · rw [← Reply.function.inj hj]
      exact h.mem_issued_iff.2 (h.lt_of_function? hf)
    · rw [← Reply.function.inj hj, hf] at hg
      exact Option.some.inj hg ▸ hname
  | absent => exact h.reshape rfl (fun _ => rfl) (by simp) (by simp) (by simp)
  | made => exact h.reshape rfl (fun _ => rfl) (by simp) (by simp) (by simp)
  | present => exact h.reshape rfl (fun _ => rfl) (by simp) (by simp) (by simp)
  | built hf hg =>
    refine h.reshape (by simp [Module.update]) (fun j => ?_) (by simp) (by simp) (by simp)
    rw [Module.function?_update hf]
    split
    · next hj => rw [hj, hf, Option.map_some, Option.map_some, hg]
    · rfl
  | idle => exact h.reshape rfl (fun _ => rfl) (by simp) (by simp) (by simp)

end Tracked

structure Stocked (log : List (Edit × Reply)) (m : Module) : Prop where
  nodup : (m.globals.toList.map (·.name)).Nodup
  cells : m.globals.toList.map (·.name) = ((asked log).map (·.name)).eraseDups
  values : ∀ x ∈ m.globals, (asked log).find? (·.name == x.name) = some x
  replies : ∀ name init g, (Edit.cell name init, Reply.cell g) ∈ log → m.findGlobal? name = some g

namespace Stocked
variable {log : List (Edit × Reply)} {m m' : Module} {e : Edit} {r : Reply} {name : String}
  {init : Int32} {g : GlobalId}

theorem initial (name : String) : Stocked [] { name } :=
  ⟨.nil, rfl, fun x hx => absurd hx (Array.not_mem_empty x), fun _ _ _ h => by simp at h⟩

theorem mem_asked_iff (h : Stocked log m) :
    name ∈ (asked log).map (·.name) ↔ m.findGlobal? name ≠ none := by
  rw [← List.mem_eraseDups, ← h.cells, Module.findGlobal?, ne_eq, Array.findIdx?_eq_none_iff]
  simp

theorem keep (h : Stocked log m) (hglobals : m'.globals = m.globals)
    (hcell : ∀ name init, e ≠ .cell name init) : Stocked (log ++ [(e, r)]) m' := by
  have hasked : asked (log ++ [(e, r)]) = asked log := by
    cases e with
    | cell name init => exact absurd rfl (hcell name init)
    | _ => exact List.filterMap_append.trans (List.append_nil _)
  refine ⟨by rw [hglobals]; exact h.nodup, by rw [hasked, hglobals, h.cells],
    by rw [hasked, hglobals]; exact h.values, fun name init g hmem => ?_⟩
  rw [Module.findGlobal?, hglobals]
  refine h.replies name init g ((List.mem_append.1 hmem).resolve_right fun hlast => ?_)
  exact hcell name init (Prod.mk.inj (List.mem_singleton.1 hlast)).1.symm

theorem asked_append (log : List (Edit × Reply)) (name : String) (init : Int32) (r : Reply) :
    asked (log ++ [(Edit.cell name init, r)]) = asked log ++ [⟨name, init⟩] :=
  List.filterMap_append

/-- What was asked for first is still what was asked for first. -/
theorem find?_asked_append {x : Global} (h : (asked log).find? (·.name == x.name) = some x)
    (name : String) (init : Int32) (r : Reply) :
    (asked (log ++ [(Edit.cell name init, r)])).find? (·.name == x.name) = some x := by
  rw [asked_append, List.find?_append, h]
  rfl

theorem present (h : Stocked log m) (hg : m.findGlobal? name = some g) :
    Stocked (log ++ [(Edit.cell name init, Reply.cell g)]) m := by
  refine ⟨h.nodup, ?_, fun x hx => find?_asked_append (h.values x hx) _ _ _, fun x n k hmem => ?_⟩
  · rw [asked_append, List.map_append, eraseDups_append_of_mem, h.cells]
    intro x hx
    rw [List.map_cons, List.map_nil, List.mem_singleton] at hx
    rw [hx, h.mem_asked_iff, hg]
    simp
  · rcases List.mem_append.1 hmem with hmem | hmem
    · exact h.replies x n k hmem
    · obtain ⟨he, hr⟩ := Prod.mk.inj (List.mem_singleton.1 hmem)
      rw [(Edit.cell.inj he).1, Reply.cell.inj hr, hg]

theorem made (h : Stocked log m) (hg : m.findGlobal? name = none) :
    Stocked (log ++ [(Edit.cell name init, Reply.cell m.globals.size)])
      { m with globals := m.globals.push ⟨name, init⟩ } := by
  have hnew : name ∉ (asked log).map (·.name) := fun hmem => h.mem_asked_iff.1 hmem hg
  refine ⟨?_, ?_, fun x hx => ?_, fun x n k hmem => ?_⟩
  · have hold : name ∉ m.globals.toList.map (·.name) := by
      rwa [h.cells, List.mem_eraseDups]
    simpa using List.nodup_append.2 ⟨h.nodup, List.nodup_singleton name, fun x hx y hy hxy =>
      hold (List.mem_singleton.1 hy ▸ hxy ▸ hx)⟩
  · rw [asked_append, List.map_append, Array.toList_push, List.map_append, h.cells]
    exact (eraseDups_append_singleton hnew).symm
  · rcases Array.mem_push.1 hx with hx | rfl
    · exact find?_asked_append (h.values x hx) _ _ _
    · have hnone : (asked log).find? (·.name == name) = none := by
        rw [List.find?_eq_none]
        rintro x hx hname
        exact hnew (List.mem_map.2 ⟨x, hx, by simpa using hname⟩)
      rw [asked_append, List.find?_append, hnone]
      simp
  · have hpush (x : String) : ({ m with globals := m.globals.push ⟨name, init⟩ } : Module).findGlobal? x =
        (m.findGlobal? x).or (if name == x then some m.globals.size else none) :=
      Array.findIdx?_push
    rw [hpush]
    rcases List.mem_append.1 hmem with hmem | hmem
    · rw [h.replies x n k hmem]
      rfl
    · obtain ⟨he, hr⟩ := Prod.mk.inj (List.mem_singleton.1 hmem)
      rw [(Edit.cell.inj he).1, hg, Reply.cell.inj hr]
      simp

theorem edit (h : Stocked log m) (he : Edited m e r m') : Stocked (log ++ [(e, r)]) m' := by
  cases he with
  | made hg => exact h.made hg
  | present hg => exact h.present hg
  | erased => exact h.keep Module.globals_erase (by simp)
  | _ => exact h.keep rfl (by simp)

end Stocked

section Edits
variable {log : List (Edit × Reply)} {m : Module}

/-- What is known of a log stays known when edits follow. -/
theorem tracked_edits (es : List Edit) {log : List (Edit × Reply)} {m : Module}
    (hf : Tracked log m) (hc : Stocked log m) :
    Tracked (log ++ (m.edits es).1) (m.edits es).2 ∧ Stocked (log ++ (m.edits es).1) (m.edits es).2 := by
  induction es generalizing log m with
  | nil => simpa [Module.edits] using ⟨hf, hc⟩
  | cons e es ih =>
    have he := m.edited e
    have hrest := ih (hf.edit he) (hc.edit he)
    rwa [List.append_assoc] at hrest

/-- Live functions come in the order in which their indices were first given. -/
theorem Tracked.live_eq (h : Tracked log m) :
    m.live.map (·.1) = (issued log).eraseDups.filter fun id => (m.function? id).isSome := by
  rw [h.counted]
  refine Module.eq_of_pairwise_lt id (List.pairwise_map.2 m.pairwise_live)
    (List.pairwise_lt_range.filter _) fun id => ?_
  rw [List.mem_map, List.mem_filter, List.mem_range]
  constructor
  · rintro ⟨⟨j, f⟩, hmem, rfl⟩
    have hf := mem_live.1 hmem
    exact ⟨h.lt_of_function? hf, by simp [hf]⟩
  · rintro ⟨-, hsome⟩
    obtain ⟨f, hf⟩ := Option.isSome_iff_exists.1 hsome
    exact ⟨(id, f), mem_live.2 hf, rfl⟩

theorem Module.Distinct.nodup_names (h : m.Distinct) : (m.live.map (·.2.name)).Nodup := by
  refine List.pairwise_map.2 (m.pairwise_live.imp_of_mem ?_)
  rintro ⟨i, f⟩ ⟨j, g⟩ hf hg hij hname
  exact Nat.ne_of_lt hij (h i j f g (mem_live.1 hf) (mem_live.1 hg) hname)

theorem Module.refused_iff (m : Module) (f : Function) :
    (m.edit (.add f)).1 = .refused ↔ ∃ x ∈ m.live, x.2.name = f.name := by
  have hlive : (∃ x ∈ m.live, x.2.name = f.name) ↔ m.find? f.name ≠ none := by
    rw [ne_eq, Module.find?_eq_none_iff]
    simp only [Prod.exists, mem_live, ne_eq, not_forall, exists_prop, not_not]
  rw [hlive]
  cases hn : m.find? f.name <;> simp [Module.edit, Module.add?, hn]

theorem Tracked.fresh (h : Tracked log m) {e : Edit} {id : FuncId}
    (hr : (m.edit e).1 = .function id) :
    id ∉ issued log ∨ ∃ name n v, e = .declare name n v ∧ m.find? name = some id := by
  have hnew : m.functions.size ∉ issued log := fun hmem => Nat.lt_irrefl _ (h.mem_issued_iff.1 hmem)
  obtain ⟨m', he⟩ : ∃ m', Edited m e (.function id) m' := ⟨_, hr ▸ m.edited e⟩
  cases he with
  | added => exact .inl hnew
  | declared => exact .inl hnew
  | found hid => exact .inr ⟨_, _, _, rfl, hid⟩

end Edits
end IntLang.Flow
