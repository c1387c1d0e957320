import IntLang.Proofs.Emission
import Mathlib.Data.List.Forall2

/-! What has been emitted, told from the fact that something was. The lines of an instruction, of an
edge, of a terminator and of a block each have one form; an erased callee and a block without an end
leave a failure in their place. -/
namespace IntLang.Assembly
open IntLang.Flow

theorem mapM_of_forall₂ {α β : Type} {g : α → Option β} {l : List α} {bs : List β}
    (h : List.Forall₂ (fun a b => g a = some b) l bs) : l.mapM g = some bs := by
  induction h with
  | nil => rfl
  | cons hab _ ih => simp [List.mapM_cons, hab, ih]

theorem forall₂_of_mapM {α β : Type} {g : α → Option β} {l : List α} {bs : List β}
    (h : l.mapM g = some bs) : List.Forall₂ (fun a b => g a = some b) l bs := by
  induction l generalizing bs with
  | nil =>
    obtain rfl := Option.some.inj h
    exact .nil
  | cons a l ih =>
    rw [List.mapM_cons] at h
    obtain ⟨b, hb, h⟩ := Option.bind_eq_some_iff.1 h
    obtain ⟨rest, hrest, heq⟩ := Option.bind_eq_some_iff.1 h
    obtain rfl := Option.some.inj heq
    exact .cons hb (ih hrest)

theorem exists_of_forall₂ {α β : Type} {R : α → β → Prop} {l : List α} {bs : List β}
    (h : List.Forall₂ R l bs) {b : β} (hb : b ∈ bs) : ∃ a ∈ l, R a b := by
  obtain ⟨k, hk, rfl⟩ := List.getElem_of_mem hb
  exact ⟨_, List.getElem_mem (h.length_eq ▸ hk), h.get (h.length_eq ▸ hk) hk⟩

theorem map_ok_inj {a b : List Line} (h : (a.map .ok : Listing) = b.map .ok) : a = b :=
  List.map_injective_iff.2 (fun _ _ => Except.ok.inj) h

theorem code_eq_map (is : List Ins) : code is = (is.map .ins).map .ok := by
  rw [List.map_map]
  rfl

theorem code_inj {is js : List Ins} (h : code is = code js) : is = js := by
  rw [code_eq_map, code_eq_map] at h
  exact List.map_injective_iff.2 (fun _ _ => Line.ins.inj) (map_ok_inj h)

namespace Context

/-- Bytes that `k` arguments take on the stack. -/
def room (k : Nat) : Nat :=
  8 * (k - argRegs.length) + padding (k - argRegs.length)

theorem room_mod (k : Nat) : room k % 16 = 0 := by
  unfold room padding
  split <;> omega

def passing (target : Function) (ps : List Place) : List Ins :=
  (if padding (ps.length - argRegs.length) = 0 then []
    else [.lowerStack (padding (ps.length - argRegs.length))]) ++
  (ps.drop argRegs.length).reverse.flatMap (fun p => [.load p .eax, .pushAcc]) ++
  ((ps.take argRegs.length).zip argRegs).map (fun (p, r) => .load p r) ++
  if target.variadic then [.clearAcc] else []

def cleanup (k : Nat) : List Ins :=
  if k - argRegs.length = 0 then [] else [.raiseStack (room k)]

variable {c : Context} {ls : Listing} {source target b : BlockId} {is : List Ins} {args : List Operand}
  {ps : List Place}

theorem call_code (h : List.Forall₂ (fun v p => c.place? v = some p) args ps) (target : Function)
    (result : Place) :
    c.call target args result = some (code (passing target ps ++
      (Ins.call target.name target.isDeclaration :: (cleanup ps.length ++ [Ins.store .eax result])))) := by
  have hpush := mapM_of_forall₂ (List.forall₂_reverse_iff.2 (List.forall₂_drop argRegs.length h))
  have hload := mapM_of_forall₂ (List.forall₂_take argRegs.length h)
  simp only [call, pushArgs, loadArgs, hpush, hload, Option.pure_def, Option.bind_eq_bind,
    Option.bind_some, h.length_eq, passing, cleanup, room]
  simp [code]

theorem mem_passing {target : Function} {j : Ins} (h : j ∈ passing target ps) :
    (∃ p ∈ ps, ∃ r, j = .load p r) ∨ (∃ n, j = .lowerStack n) ∨ j = .pushAcc ∨ j = .clearAcc := by
  simp only [passing, List.mem_append, List.mem_flatMap, List.mem_map] at h
  rcases h with ((h | ⟨p, hp, h⟩) | ⟨x, hx, rfl⟩) | h
  · split at h
    · cases h
    · exact .inr (.inl ⟨_, List.mem_singleton.1 h⟩)
  · simp only [List.mem_cons, List.not_mem_nil, or_false] at h
    rcases h with rfl | rfl
    · exact .inl ⟨p, List.mem_of_mem_drop (List.mem_reverse.1 hp), .eax, rfl⟩
    · exact .inr (.inr (.inl rfl))
  · exact .inl ⟨x.1, List.mem_of_mem_take (List.of_mem_zip hx).1, x.2, rfl⟩
  · split at h
    · exact .inr (.inr (.inr (List.mem_singleton.1 h)))
    · cases h

theorem mem_cleanup {k : Nat} {j : Ins} (h : j ∈ cleanup k) : ∃ n, j = .raiseStack n := by
  unfold cleanup at h
  split at h
  · cases h
  · exact ⟨_, List.mem_singleton.1 h⟩

/-- A call that has been emitted has a place for each of its arguments. -/
theorem forall₂_of_call {target : Function} {result : Place} (h : c.call target args result = some ls) :
    ∃ ps, List.Forall₂ (fun v p => c.place? v = some p) args ps := by
  obtain ⟨pushed, hpushed, h⟩ := Option.bind_eq_some_iff.1 h
  obtain ⟨loaded, hloaded, -⟩ := Option.bind_eq_some_iff.1 h
  obtain ⟨ps, hps, -⟩ := Option.bind_eq_some_iff.1 hpushed
  obtain ⟨qs, hqs, -⟩ := Option.bind_eq_some_iff.1 hloaded
  have hrest := List.forall₂_reverse_iff.2 (forall₂_of_mapM hps)
  rw [List.reverse_reverse] at hrest
  have happend := List.rel_append (forall₂_of_mapM hqs) hrest
  dsimp only at happend
  rw [List.take_append_drop] at happend
  exact ⟨_, happend⟩

inductive Written (c : Context) (id : InstrId) : Instr → List Ins → Prop where
  | alloca (name : String) : Written c id (.alloca name) []
  | phi (ty : Ty) (incoming : List (Operand × BlockId)) : Written c id (.phi ty incoming) []
  | load {a : Operand} {p r : Place} (place : c.place? a = some p)
      (result : c.layout.result? id = some r) :
      Written c id (.load a) [.load p .eax, .store .eax r]
  | store {v a : Operand} {p q : Place} (value : c.place? v = some p) (address : c.place? a = some q) :
      Written c id (.store v a) [.load p .eax, .store .eax q]
  | arith (op : ArithOp) (ty : Ty) {v w : Operand} {p q r : Place} (lhs : c.place? v = some p)
      (rhs : c.place? w = some q) (result : c.layout.result? id = some r) :
      Written c id (.arith op ty v w)
        ([.load p .eax, .load q .ecx] ++ ((Context.arith op).1 ++ [.store (Context.arith op).2 r]))
  | compare (op : CmpOp) {v w : Operand} {p q r : Place} (lhs : c.place? v = some p)
      (rhs : c.place? w = some q) (result : c.layout.result? id = some r) :
      Written c id (.compare op v w)
        ([.load p .eax, .load q .ecx] ++ [.compare, .setFlag op, .widenFlag, .store .eax r])
  | widen {v : Operand} {p r : Place} (place : c.place? v = some p)
      (result : c.layout.result? id = some r) :
      Written c id (.widen v) [.load p .eax, .store .eax r]
  | call {callee : FuncId} {args : List Operand} {target : Function} {ps : List Place} {r : Place}
      (function : c.module.function? callee = some target)
      (places : List.Forall₂ (fun v p => c.place? v = some p) args ps)
      (result : c.layout.result? id = some r) :
      Written c id (.call callee args) (passing target ps ++
        (.call target.name target.isDeclaration :: (cleanup ps.length ++ [.store .eax r])))

theorem copy_eq_some {v : Operand} {dest : Place} (h : c.copy v dest = some ls) :
    ∃ p, c.place? v = some p ∧ ls = code [.load p .eax, .store .eax dest] := by
  obtain ⟨p, hp, heq⟩ := Option.bind_eq_some_iff.1 h
  exact ⟨p, hp, (Option.some.inj heq).symm⟩

theorem loadBoth_eq_some {v w : Operand} (h : c.loadBoth v w = some ls) :
    ∃ p q, c.place? v = some p ∧ c.place? w = some q ∧ ls = code [.load p .eax, .load q .ecx] := by
  obtain ⟨p, hp, h⟩ := Option.bind_eq_some_iff.1 h
  obtain ⟨q, hq, heq⟩ := Option.bind_eq_some_iff.1 h
  exact ⟨p, q, hp, hq, (Option.some.inj heq).symm⟩

theorem instr_cases {id : InstrId} {i : Instr} (h : c.instr id i = some ls) :
    (∃ is, ls = code is ∧ c.Written id i is) ∨ ls = [.error (.erasedCallee c.function.name)] := by
  cases i with
  | alloca name => exact .inl ⟨[], (Option.some.inj h).symm, .alloca name⟩
  | phi ty incoming => exact .inl ⟨[], (Option.some.inj h).symm, .phi ty incoming⟩
  | load a =>
    obtain ⟨r, hr, h⟩ := Option.bind_eq_some_iff.1 h
    obtain ⟨p, hp, rfl⟩ := copy_eq_some h
    exact .inl ⟨_, rfl, .load hp hr⟩
  | widen v =>
    obtain ⟨r, hr, h⟩ := Option.bind_eq_some_iff.1 h
    obtain ⟨p, hp, rfl⟩ := copy_eq_some h
    exact .inl ⟨_, rfl, .widen hp hr⟩
  | store v a =>
    obtain ⟨p, hp, h⟩ := Option.bind_eq_some_iff.1 h
    obtain ⟨q, hq, heq⟩ := Option.bind_eq_some_iff.1 h
    exact .inl ⟨_, (Option.some.inj heq).symm, .store hp hq⟩
  | arith op ty v w =>
    obtain ⟨both, hboth, h⟩ := Option.bind_eq_some_iff.1 h
    obtain ⟨r, hr, heq⟩ := Option.bind_eq_some_iff.1 h
    obtain ⟨p, q, hp, hq, rfl⟩ := loadBoth_eq_some hboth
    rw [← code_append] at heq
    exact .inl ⟨_, (Option.some.inj heq).symm, .arith op ty hp hq hr⟩
  | compare op v w =>
    obtain ⟨both, hboth, h⟩ := Option.bind_eq_some_iff.1 h
    obtain ⟨r, hr, heq⟩ := Option.bind_eq_some_iff.1 h
    obtain ⟨p, q, hp, hq, rfl⟩ := loadBoth_eq_some hboth
    rw [← code_append] at heq
    exact .inl ⟨_, (Option.some.inj heq).symm, .compare op hp hq hr⟩
  | call callee args =>
    rw [instr] at h
    split at h
    · exact .inr (Option.some.inj h).symm
    · next target htarget =>
      obtain ⟨r, hr, h⟩ := Option.bind_eq_some_iff.1 h
      obtain ⟨ps, hps⟩ := forall₂_of_call h
      rw [call_code hps] at h
      exact .inl ⟨_, (Option.some.inj h).symm, .call htarget hps hr⟩

/-- The code of a block's instructions, if none of them calls an erased function. -/
theorem body_code {lss : List Listing} (h : (c.instrsOf b).mapM (fun x => c.instr x.1 x.2) = some lss)
    (hok : ∀ e : EmitError, .error e ∉ lss.flatten) : ∃ iss, lss.flatten = code iss.flatten ∧
      List.Forall₂ (fun x is => c.Written x.1 x.2 is) (c.instrsOf b) iss := by
  have hall := forall₂_of_mapM h
  clear h
  generalize c.instrsOf b = xs at hall ⊢
  induction hall with
  | nil => exact ⟨[], rfl, .nil⟩
  | @cons x ls xs lss hx _ ih =>
    rw [List.flatten_cons] at hok ⊢
    obtain ⟨iss, hflat, hiss⟩ := ih fun e he => hok e (List.mem_append_right _ he)
    rcases instr_cases hx with ⟨is, rfl, his⟩ | rfl
    · exact ⟨is :: iss, by rw [hflat, List.flatten_cons, code_append], .cons his hiss⟩
    · exact absurd List.mem_cons_self (hok _)

/-- The copies of an edge, one for each phi that has a value for it. -/
theorem edgeCopies_eq_some (h : c.edgeCopies source target = some ls) : ∃ iss,
      List.Forall₂ (fun x is => c.edgeCopy source x = some (code is)) (c.instrsOf target) iss ∧
      ls = code iss.flatten := by
  rw [edgeCopies_eq] at h
  obtain ⟨lss, hlss, rfl⟩ := Option.map_eq_some_iff.1 h
  have hall := forall₂_of_mapM hlss
  clear hlss h
  generalize c.instrsOf target = xs at hall ⊢
  induction hall with
  | nil => exact ⟨[], .nil, rfl⟩
  | @cons x ls xs lss hx _ ih =>
    obtain ⟨iss, hiss, hflat⟩ := ih
    obtain ⟨is, rfl⟩ : ∃ is, ls = code is := by
      unfold edgeCopy at hx
      split at hx
      · obtain ⟨r, -, hx⟩ := Option.bind_eq_some_iff.1 hx
        obtain ⟨p, -, rfl⟩ := copy_eq_some hx
        exact ⟨_, rfl⟩
      · exact ⟨[], (Option.some.inj hx).symm⟩
    exact ⟨is :: iss, .cons hx hiss, by rw [List.flatten_cons, List.flatten_cons, hflat, code_append]⟩

/-- Code that copies what the phis of `target` take when control comes from `source`. -/
def Carries (c : Context) (source target : BlockId) (is : List Ins) : Prop :=
  c.edgeCopies source target = some (code is)

/-- The code of an edge has, one after the other, a copy for each phi that names its source. -/
theorem Carries.flatten (h : c.Carries source target is) : ∃ iss, is = iss.flatten ∧
      List.Forall₂ (fun x is => c.edgeCopy source x = some (code is)) (c.instrsOf target) iss := by
  obtain ⟨iss, hiss, heq⟩ := edgeCopies_eq_some h
  exact ⟨iss, code_inj heq, hiss⟩

theorem Carries.mem (h : c.Carries source target is)
    {j : Ins} (hj : j ∈ is) : (∃ v p, c.place? v = some p ∧ j = .load p .eax) ∨
      ∃ k r, c.layout.result? k = some r ∧ j = .store .eax r := by
  obtain ⟨iss, rfl, hiss⟩ := h.flatten
  obtain ⟨is, his, hj⟩ := List.mem_flatten.1 hj
  obtain ⟨x, -, hx⟩ := exists_of_forall₂ hiss his
  unfold edgeCopy at hx
  split at hx
  · next v _ =>
    obtain ⟨r, hr, hx⟩ := Option.bind_eq_some_iff.1 hx
    obtain ⟨p, hp, heq⟩ := copy_eq_some hx
    rw [code_inj heq] at hj
    simp only [List.mem_cons, List.not_mem_nil, or_false] at hj
    exact hj.imp (fun hj => ⟨v, p, hp, hj⟩) fun hj => ⟨x.1, r, hr, hj⟩
  · rw [code_inj (Option.some.inj hx.symm : code is = code [])] at hj
    cases hj

theorem goto_eq_some (h : c.goto source target = some ls) :
    ∃ is, c.Carries source target is ∧ ls = code (is ++ [Ins.jump (c.blockLabel target)]) := by
  obtain ⟨copies, hcopies, heq⟩ := Option.bind_eq_some_iff.1 h
  obtain ⟨iss, -, rfl⟩ := edgeCopies_eq_some hcopies
  exact ⟨_, hcopies, by rw [code_append]; exact (Option.some.inj heq).symm⟩

/-- The lines of a terminator of block `b`, before which `n` edges have labels and after which `n'`
have. -/
inductive Closes (c : Context) (b : BlockId) (n : Nat) : Terminator → Listing → Nat → Prop where
  | jump {dest : BlockId} {is : List Ins} (copies : c.Carries b dest is) :
      Closes c b n (.jump dest) (code (is ++ [.jump (c.blockLabel dest)])) n
  | ret {v : Operand} {p : Place} (place : c.place? v = some p) :
      Closes c b n (.ret v) (code [.load p .eax, .leave, .ret]) n
  | fork {v : Operand} {p : Place} {onTrue onFalse : BlockId} {is js : List Ins}
      (place : c.place? v = some p) (copies : c.Carries b onTrue is) (copies' : c.Carries b onFalse js) :
      Closes c b n (.branch v onTrue onFalse)
        (code ([.load p .eax, .test, .jumpIfZero (.edge c.id n)] ++
            (is ++ [.jump (c.blockLabel onTrue)])) ++
          .ok (.label (.edge c.id n)) :: code (js ++ [.jump (c.blockLabel onFalse)])) (n + 1)
  | direct {v : Operand} {p : Place} {onTrue onFalse : BlockId} {is : List Ins}
      (place : c.place? v = some p) (copies : c.Carries b onTrue is)
      (none : c.needsCopies b onFalse = false) :
      Closes c b n (.branch v onTrue onFalse)
        (code ([.load p .eax, .test, .jumpIfZero (c.blockLabel onFalse)] ++
          (is ++ [.jump (c.blockLabel onTrue)]))) n

theorem terminator_cases {n n' : Nat} {t : Terminator}
    (h : c.terminator b n t = some (ls, n')) : c.Closes b n t ls n' := by
  cases t with
  | jump dest =>
    obtain ⟨first, hfirst, heq⟩ := Option.bind_eq_some_iff.1 h
    obtain ⟨rfl, rfl⟩ := Prod.mk.inj (Option.some.inj heq)
    obtain ⟨is, his, rfl⟩ := goto_eq_some hfirst
    exact .jump his
  | ret v =>
    obtain ⟨p, hp, heq⟩ := Option.bind_eq_some_iff.1 h
    obtain ⟨rfl, rfl⟩ := Prod.mk.inj (Option.some.inj heq)
    exact .ret hp
  | branch v onTrue onFalse =>
    obtain ⟨p, hp, h⟩ := Option.bind_eq_some_iff.1 h
    dsimp only at h
    split at h
    · obtain ⟨first, hfirst, h⟩ := Option.bind_eq_some_iff.1 h
      obtain ⟨second, hsecond, heq⟩ := Option.bind_eq_some_iff.1 h
      obtain ⟨rfl, rfl⟩ := Prod.mk.inj (Option.some.inj heq)
      obtain ⟨is, his, rfl⟩ := goto_eq_some hfirst
      obtain ⟨js, hjs, rfl⟩ := goto_eq_some hsecond
      simpa [code] using Closes.fork hp his hjs
    · next hno =>
      obtain ⟨first, hfirst, heq⟩ := Option.bind_eq_some_iff.1 h
      obtain ⟨rfl, rfl⟩ := Prod.mk.inj (Option.some.inj heq)
      obtain ⟨is, his, rfl⟩ := goto_eq_some hfirst
      simpa [code] using Closes.direct hp his (by simpa using hno)

/-- The lines of a block: its label, its instructions and how it ends, if it does. -/
theorem block_cases {blk : Block} {n n' : Nat} (h : c.block b blk n = some (ls, n')) : ∃ lss last,
      (c.instrsOf b).mapM (fun x => c.instr x.1 x.2) = some lss ∧
      ls = .ok (.label (c.blockLabel b)) :: (lss.flatten ++ last) ∧
      ((∃ t, blk.terminator = some t ∧ c.terminator b n t = some (last, n')) ∨
        blk.terminator = none ∧ n' = n ∧ last = [.error (.noTerminator blk.name c.function.name)]) := by
  obtain ⟨lss, hlss, h⟩ := Option.bind_eq_some_iff.1 h
  cases ht : blk.terminator with
  | none =>
    rw [ht] at h
    obtain ⟨rfl, rfl⟩ := Prod.mk.inj (Option.some.inj h)
    exact ⟨lss, _, hlss, rfl, .inr ⟨rfl, rfl, rfl⟩⟩
  | some t =>
    rw [ht] at h
    obtain ⟨⟨last, k⟩, hlast, heq⟩ := Option.bind_eq_some_iff.1 h
    obtain ⟨rfl, rfl⟩ := Prod.mk.inj (Option.some.inj heq)
    exact ⟨lss, last, hlss, rfl, .inl ⟨t, rfl, hlast⟩⟩

/-- What an instruction refers to is there. -/
def Serves (c : Context) (id : InstrId) (i : Instr) : Prop :=
  (∀ v ∈ i.operands, (c.place? v).isSome) ∧ (i.resultTy?.isSome → (c.layout.result? id).isSome) ∧
    match i with
    | .call callee _ => (c.module.function? callee).isSome
    | _ => True

instance (c : Context) (id : InstrId) (i : Instr) : Decidable (c.Serves id i) :=
  match i with
  | .call .. | .alloca .. | .load .. | .store .. | .arith .. | .compare .. | .widen .. | .phi .. =>
    instDecidableAnd

def Complete (c : Context) : Prop :=
  ∀ blk ∈ c.function.blocks, (∀ id ∈ blk.instrs, ∀ i ∈ c.function.instrs[id]?, c.Serves id i) ∧
    blk.terminator.isSome ∧ ∀ t ∈ blk.terminator, ∀ v ∈ t.operands, (c.place? v).isSome

instance (c : Context) : Decidable c.Complete :=
  inferInstanceAs (Decidable (∀ blk ∈ c.function.blocks, _))

theorem Complete.supplied (h : c.Complete) : c.Supplied := by
  have hserves {b : BlockId} {x : InstrId × Instr} (hx : x ∈ c.instrsOf b) : c.Serves x.1 x.2 := by
    unfold instrsOf at hx
    split at hx
    · next blk hb =>
      obtain ⟨id, hid, hsome⟩ := List.mem_filterMap.1 hx
      obtain ⟨i, hi, rfl⟩ := Option.map_eq_some_iff.1 hsome
      exact (h blk (Array.mem_of_getElem? hb)).1 id (Array.mem_toList_iff.1 hid) i hi
    · cases hx
  refine ⟨fun b x hx v hv => ?_, fun b x hx hres => ?_, fun b x hx callee args he => ?_, fun b blk hb => ?_⟩
  · exact Option.isSome_iff_exists.1 ((hserves hx).1 v hv)
  · exact Option.isSome_iff_exists.1 ((hserves hx).2.1 hres)
  · have hcallee := (hserves hx).2.2
    rw [he] at hcallee
    exact Option.isSome_iff_exists.1 hcallee
  · obtain ⟨-, hend, hvs⟩ := h blk (Array.mem_of_getElem? hb)
    obtain ⟨t, ht⟩ := Option.isSome_iff_exists.1 hend
    exact ⟨t, ht, fun v hv => Option.isSome_iff_exists.1 (hvs t ht v hv)⟩

end Context

/-- A module with complete functions is emitted. -/
theorem assemblyText_of_complete {m : Module} (h : ∀ x ∈ m.live, x.2.isDeclaration = false →
    (Context.ofFunction m x.1 x.2).Complete) (t : Target) : ∃ text, assemblyText m t = .ok text := by
  obtain ⟨lines, hlines⟩ := listing?_eq_some fun id f hf hd => (h (id, f) (mem_live.2 hf) hd).supplied
  exact ⟨_, assemblyText_eq_rendered hlines t⟩

end IntLang.Assembly
