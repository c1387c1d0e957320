import IntLang.Proofs.Cells
import IntLang.Proofs.LoweredBodies

/-! Why a tree is rejected: the first complaint in the order of lowering. Lowering comes to its end or
stops with that complaint, whatever the module is and wherever the variables live, and in no case
does it misuse the builder. What it leaves in the module is harmless either way. -/
namespace IntLang
open IntLang.Flow

def BinaryOp.rejection : BinaryOp → Option CompileError
  | .in_ => some (.unsupported .in_)
  | .notIn => some (.unsupported .notIn)
  | _ => none

/-- The scope in which one more name has a slot, unless names stand for global cells. -/
def Scope.bound (s : Scope) (name : String) (slot : Operand) : Scope :=
  match s with
  | .slots known => .slots ((name, slot) :: known)
  | .globals => .globals

section Rejection
variable (complaint : String → Nat → Option CompileError)

mutual

/-- The first complaint about an expression. A callee comes before its arguments, and an operator
after its operands. -/
def Expr.rejection : Expr → Option CompileError
  | .number _ | .var _ => none
  | .unary _ e => e.rejection
  | .binary op l r => l.rejection.or (r.rejection.or op.rejection)
  | .call f args => (complaint f args.length).or (Exprs.rejection args)

def Exprs.rejection : List Expr → Option CompileError
  | [] => none
  | e :: es => e.rejection.or (Exprs.rejection es)

end

mutual

def Stmt.rejection : Stmt → Option CompileError
  | .assign _ e | .eval e | .ret e => e.rejection complaint
  | .branch cond body elifs otherwise =>
    (cond.rejection complaint).or ((Stmts.rejection body).or
      ((Arms.rejection elifs).or (Stmts.rejection otherwise)))
  | .loop cond body => (cond.rejection complaint).or (Stmts.rejection body)
  | .print args => Exprs.rejection complaint args
  | .pass => none

def Stmts.rejection : List Stmt → Option CompileError
  | [] => none
  | s :: ss => s.rejection.or (Stmts.rejection ss)

def Arms.rejection : List (Expr × List Stmt) → Option CompileError
  | [] => none
  | (cond, body) :: rest =>
    (cond.rejection complaint).or ((Stmts.rejection body).or (Arms.rejection rest))

end

end Rejection

namespace Flow.Module
variable {m : Module} {f g : Function} {id : FuncId}

theorem find?_update (hf : m.function? id = some f) (hg : g.name = f.name) (name : String) :
    (m.update id g).find? name = m.find? name := by
  let matching (f : Option Function) : Bool := f.any (·.name == name)
  have hfind (m : Module) : m.find? name = (m.functions.map matching).findIdx? fun b => b := by
    rw [Array.findIdx?_map, Module.find?]
    refine congrArg (Array.findIdx? · m.functions) (funext fun f => ?_)
    cases f <;> rfl
  rw [hfind, hfind]
  refine congrArg (Array.findIdx? fun b => b) (Array.ext_getElem? fun j => ?_)
  rw [Array.getElem?_map, Array.getElem?_map, update, Array.getElem?_setIfInBounds]
  split
  · next hj =>
    subst hj
    rw [function?_eq_some.1 hf]
    split
    · simp [matching, hg]
    · next hlt => exact absurd (Array.getElem?_eq_some_iff.1 (function?_eq_some.1 hf)).1 hlt
  · rfl

theorem complaint_update (hf : m.function? id = some f) (hg : g.header = f.header) :
    (m.update id g).complaint = m.complaint := by
  funext name n
  have hname := Function.name_of_header hg
  unfold complaint
  rw [find?_update hf hname]
  cases m.find? name with
  | none => rfl
  | some j =>
    by_cases hj : j = id
    · subst hj
      simp only [Option.bind_some, function?_update hf, ↓reduceIte, hf]
      have hs : g.synthetic = f.synthetic := (congrArg Function.synthetic hg :)
      have hp : g.paramCount = f.paramCount := (congrArg Function.paramCount hg :)
      have hv : g.variadic = f.variadic := (congrArg Function.variadic hg :)
      simp only [Function.complaint, hs, hp, hv]
    · simp only [Option.bind_some, function?_update hf, if_neg hj]

/-- What the compiler adds cannot be called by name. -/
theorem complaint_push (hs : f.synthetic = true) : (m.push f).2.complaint = m.complaint := by
  funext name n
  have hfind : (m.push f).2.find? name = (m.find? name).or (if f.name == name then
      some m.functions.size else none) := by
    unfold find? push
    rw [Array.findIdx?_push]
  unfold complaint
  rw [hfind]
  cases hm : m.find? name with
  | some j =>
    obtain ⟨g, hg, -⟩ := function?_of_find? hm
    simp only [Option.some_or, Option.bind_some, hg, function?_push_of_some hg]
  | none =>
    by_cases hname : f.name = name
    · simp [hname, function?_push, Function.complaint, hs]
    · simp [hname]

theorem complaint_declare (name : String) (n : Nat) (v : Bool) :
    (m.declare name n v).2.complaint = m.complaint := by
  unfold declare
  split
  · rfl
  · exact complaint_push rfl

theorem complaint_globalCell (name : String) (n : Int32) :
    (m.globalCell name n).2.complaint = m.complaint := by
  unfold globalCell
  split <;> rfl

end Flow.Module

def Flow.Instr.operands : Instr → List Operand
  | .alloca _ => []
  | .load a => [a]
  | .store v a => [v, a]
  | .arith _ _ l r | .compare _ l r => [l, r]
  | .widen v => [v]
  | .call _ args => args
  | .phi _ incoming => incoming.map (·.1)

def Flow.Operand.Local : Operand → Prop
  | .global _ => False
  | _ => True

@[simp] theorem Flow.Operand.local_bool (b : Bool) : (Operand.bool b).Local := trivial

@[simp] theorem Flow.Operand.local_int (n : Int32) : (Operand.int n).Local := trivial

@[simp] theorem Flow.Operand.local_instr (id : InstrId) : (Operand.instr id).Local := trivial

def Flow.Instr.Local (i : Instr) : Prop :=
  ∀ v ∈ i.operands, v.Local

/-- A body to be lowered: into which function of which module, and where its variables live. -/
structure Task where
  module : Module
  id : FuncId
  head : Function
  isGlobal : Bool

structure Going (t : Task) (σ : Lowering) (d : Draft) : Prop where
  function : σ.builder.function = t.id
  drawn : Drawn σ d
  framed : d.Framed
  head : d.head = t.head
  complaint : σ.builder.module.complaint = t.module.complaint
  grows : t.head.name ≠ Machine.printSymbol → t.head.name ≠ Machine.powerSymbol →
    Grows t.id t.module σ.builder.module
  scope : σ.scope.isGlobal = t.isGlobal
  slots : ∀ known x p, σ.scope = .slots known → known.lookup x = some p → ∃ id, p = .instr id
  clean : t.isGlobal = false → ∀ i ∈ d.code, i.Local

namespace Going
variable {t : Task} {σ : Lowering} {d d' : Draft}

theorem redraw (h : Going t σ d) (hf : d'.Framed) (hle : Draft.Le d d')
    (hc : t.isGlobal = false → ∀ i ∈ d'.code, i.Local) : Going t (σ.redraw d') d' := by
  have hheader : d'.function.header = d.function.header := by
    rw [Draft.header_function, Draft.header_function, hle.head]
  refine ⟨h.function, h.drawn.redraw d', hf, hle.head.trans h.head, ?_, fun hp hw => ?_, h.scope, h.slots, hc⟩
  · exact (Module.complaint_update h.drawn.function hheader).trans h.complaint
  · have hname : d.function.name = t.head.name := (congrArg Function.name h.head :)
    have hg : Grows σ.builder.function σ.builder.module (σ.redraw d').builder.module :=
      .update h.drawn.function hheader (hname ▸ hp) (hname ▸ hw)
    exact (h.grows hp hw).trans (h.function ▸ hg)

theorem raws (h : Going t σ d) (hs : Relation.ReflTransGen Draft.Raw d d') (new : List Instr)
    (hcode : d'.code = d.code ++ new) (hnew : t.isGlobal = false → ∀ i ∈ new, i.Local) :
    Going t (σ.redraw d') d' := by
  obtain ⟨hf, hle⟩ := h.framed.raws hs
  refine h.redraw hf hle fun hg i hi => ?_
  rw [hcode] at hi
  exact (List.mem_append.1 hi).elim (h.clean hg i) (hnew hg i)

theorem raw (h : Going t σ d) (hs : Draft.Raw d d') (hcode : d'.code = d.code) :
    Going t (σ.redraw d') d' :=
  h.raws (.single hs) [] (by simp [hcode]) fun _ i hi => by cases hi

/-- A change of the module that keeps the function. -/
theorem onModule (h : Going t σ d) {m : Module} (hc : m.complaint = σ.builder.module.complaint)
    (hg : Grows t.id σ.builder.module m) (hf : m.function? σ.builder.function = some d.function) :
    Going t { σ with builder := { σ.builder with module := m } } d :=
  ⟨h.function, ⟨hf, h.drawn.block, h.drawn.slots⟩, h.framed, h.head, hc.trans h.complaint,
    fun hp hw => (h.grows hp hw).trans hg, h.scope, h.slots, h.clean⟩

theorem slot (h : Going t σ d) (name : String) (init : Operand) (hi : init.Local) {scope : Scope}
    (hscope : scope.isGlobal = t.isGlobal)
    (hslots : ∀ known x p, scope = .slots known → known.lookup x = some p → ∃ id, p = .instr id) :
    Going t { σ.redraw (d.slot name init) with scope } (d.slot name init) := by
  have hlocal : ∀ i ∈ [Instr.alloca name, .store init (.instr d.code.length)], i.Local := by
    simp [Instr.Local, Instr.operands, hi]
  have hs := h.raws (.single (.slot name init)) _ rfl fun _ => hlocal
  exact ⟨hs.function, ⟨hs.drawn.function, hs.drawn.block, hs.drawn.slots⟩, hs.framed, hs.head,
    hs.complaint, hs.grows, hscope, hslots, hs.clean⟩

theorem entry (h : Going t σ d) : ∃ p, d.blocks[0]? = some p :=
  ⟨_, List.getElem?_eq_getElem (Nat.lt_of_le_of_lt (Nat.zero_le _) h.framed.current.lt)⟩

end Going

namespace Lower

/-- A step stops with the first complaint, if there is one, and otherwise leaves what `post` says. -/
def Answers {α : Type} (t : Task) (x : Lower α) (σ : Lowering) (rejection : Option CompileError)
    (post : α → Lowering → Prop) : Prop :=
  match x σ with
  | .ok a σ' => rejection = none ∧ post a σ'
  | .error (.rejected e) σ' => rejection = some e ∧ ∃ d, Going t σ' d
  | .error (.misuse _) _ => False

namespace Answers
variable {α β : Type} {t : Task} {x : Lower α} {f : α → Lower β} {σ σ' : Lowering}
  {r r' : Option CompileError} {post post' : α → Lowering → Prop} {post₂ : β → Lowering → Prop}

theorem ok {a : α} (h : x σ = .ok a σ') (hp : post a σ') : Answers t x σ none post := by
  rw [Answers, h]
  exact ⟨rfl, hp⟩

theorem pure {a : α} (hp : post a σ) : Answers t (pure a) σ none post :=
  ok rfl hp

theorem imp (h : Answers t x σ r post) (hp : ∀ a σ', post a σ' → post' a σ') :
    Answers t x σ r post' := by
  unfold Answers at h ⊢
  split at h
  · exact ⟨h.1, hp _ _ h.2⟩
  · exact h
  · exact h

theorem bind (h : Answers t x σ r post) (hf : ∀ a σ', post a σ' → Answers t (f a) σ' r' post₂) :
    Answers t (x >>= f) σ (r.or r') post₂ := by
  unfold Answers at h
  unfold Answers
  change match EStateM.bind x f σ with
    | .ok a σ' => _
    | .error (.rejected e) σ' => _
    | .error (.misuse _) _ => _
  unfold EStateM.bind
  split at h
  · next a σ' hx =>
    have hf' := hf a σ' h.2
    unfold Answers at hf'
    simp only [hx, h.1, Option.none_or]
    exact hf'
  · next e σ' hx =>
    simp only [hx, h.1, Option.some_or, true_and]
    exact h.2
  · exact h.elim

/-- A step that no complaint can stop comes last. -/
theorem before (h : Answers t x σ r post)
    (hf : ∀ a σ', post a σ' → Answers t (f a) σ' none post₂) : Answers t (x >>= f) σ r post₂ := by
  have hb := h.bind hf
  rwa [Option.or_none] at hb

/-- A step that no complaint can stop comes first. -/
theorem after (h : Answers t x σ none post)
    (hf : ∀ a σ', post a σ' → Answers t (f a) σ' r post₂) : Answers t (x >>= f) σ r post₂ :=
  h.bind hf

end Answers

/-- Lowering goes on with a value that is no global cell, unless variables are. -/
def Valued (t : Task) (d : Draft) (v : Operand) (σ : Lowering) : Prop :=
  ∃ d', Going t σ d' ∧ d'.pending = d.pending ∧ (t.isGlobal = false → v.Local)

def Waiting (t : Task) (pending : List Nat) (σ : Lowering) : Prop :=
  ∃ d, Going t σ d ∧ d.pending = pending

section Steps
variable {t : Task} {σ : Lowering} {d : Draft} {v l r : Operand}

theorem push_answers (h : Going t σ d) {i : Instr} (hi : t.isGlobal = false → i.Local) :
    Answers t (build (Builder.push i)) σ none (Valued t d) := by
  refine .ok (draws_push h.framed.current i rfl σ h.drawn) ⟨d.push i, ?_, rfl, fun _ => trivial⟩
  exact h.raws (.single (.push i)) _ rfl fun hg => by simpa using hi hg

theorem arith_answers (h : Going t σ d) (op : ArithOp) (hl : t.isGlobal = false → l.Local)
    (hr : t.isGlobal = false → r.Local) :
    Answers t (build (Builder.arith op l r)) σ none (Valued t d) := by
  refine .ok (draws_arith h.framed.current op l r σ h.drawn)
    ⟨d.push (.arith op (d.function.typeOf l) l r), ?_, rfl, fun _ => trivial⟩
  refine h.raws (.single (.push _)) _ rfl fun hg => ?_
  simp [Instr.Local, Instr.operands, hl hg, hr hg]

theorem zeroTest_answers (h : Going t σ d) (hv : t.isGlobal = false → v.Local) (whenZero : Bool) :
    Answers t (zeroTest v whenZero) σ none (Valued t d) := by
  refine .ok (draws_zeroTest h.framed v whenZero σ h.drawn)
    ⟨d.zeroTest v whenZero, ?_, ?_, fun _ => trivial⟩
  · refine h.raws (Draft.raws_zeroTest d v whenZero) [.compare .eq (.int 0) v,
      .phi .i1 [(.bool whenZero, d.blocks.length), (.bool !whenZero, d.blocks.length + 1)]] ?_
      fun hg => ?_
    · simp [Draft.zeroTest]
    · simp [Instr.Local, Instr.operands, hv hg]
  · simp [Draft.zeroTest, Nat.add_assoc]

theorem unary_answers (h : Going t σ d) (op : UnaryOp) (hv : t.isGlobal = false → v.Local) :
    Answers t (unary op v) σ none (Valued t d) := by
  cases op with
  | negate => exact arith_answers h .sub (fun _ => trivial) hv
  | identity => exact .pure ⟨d, h, rfl, hv⟩
  | not =>
    refine (zeroTest_answers h hv true).after fun z σ₁ ⟨d₁, h₁, hp₁, hz⟩ => ?_
    refine (push_answers h₁ (i := .widen z) fun hg => ?_).imp
      fun u σ₂ ⟨d₂, h₂, hp₂, hu⟩ => ⟨d₂, h₂, hp₂.trans hp₁, hu⟩
    simp [Instr.Local, Instr.operands, hz hg]

theorem logical_answers (h : Going t σ d) (op : ArithOp) (hl : t.isGlobal = false → l.Local)
    (hr : t.isGlobal = false → r.Local) : Answers t (logical op l r) σ none (Valued t d) := by
  refine (zeroTest_answers h hl false).after fun l' σ₁ ⟨d₁, h₁, hp₁, hl'⟩ => ?_
  refine (zeroTest_answers h₁ hr false).after fun r' σ₂ ⟨d₂, h₂, hp₂, hr'⟩ => ?_
  refine (arith_answers h₂ op hl' hr').after fun both σ₃ ⟨d₃, h₃, hp₃, hb⟩ => ?_
  refine (push_answers h₃ (i := .widen both) fun hg => ?_).imp
    fun u σ₄ ⟨d₄, h₄, hp₄, hu⟩ => ⟨d₄, h₄, by rw [hp₄, hp₃, hp₂, hp₁], hu⟩
  simp [Instr.Local, Instr.operands, hb hg]

theorem comparison_answers (h : Going t σ d) (op : CmpOp) (hl : t.isGlobal = false → l.Local)
    (hr : t.isGlobal = false → r.Local) : Answers t (comparison op l r) σ none (Valued t d) := by
  refine (push_answers h (i := .compare op l r) fun hg => ?_).after fun c σ₁ ⟨d₁, h₁, hp₁, hc⟩ => ?_
  · simp [Instr.Local, Instr.operands, hl hg, hr hg]
  refine (push_answers h₁ (i := .widen c) fun hg => ?_).imp
    fun u σ₂ ⟨d₂, h₂, hp₂, hu⟩ => ⟨d₂, h₂, hp₂.trans hp₁, hu⟩
  simp [Instr.Local, Instr.operands, hc hg]

theorem declare_answers (h : Going t σ d) {r : Function} (hr : r = printRoutine ∨ r = powerRoutine) :
    Answers t (build (Builder.onModule (·.declare r.name r.paramCount r.variadic))) σ none fun _ σ' =>
      Going t σ' d := by
  refine .ok (build_onModule _) (h.onModule (Module.complaint_declare _ _ _) (.declare hr) ?_)
  unfold Module.declare
  split
  · exact h.drawn.function
  · exact Module.function?_push_of_some h.drawn.function

theorem binary_answers (h : Going t σ d) (op : BinaryOp) (hl : t.isGlobal = false → l.Local)
    (hr : t.isGlobal = false → r.Local) :
    Answers t (binary op l r) σ op.rejection (Valued t d) := by
  cases op with
  | or => exact logical_answers h .or hl hr
  | and => exact logical_answers h .and hl hr
  | lt => exact comparison_answers h .lt hl hr
  | gt => exact comparison_answers h .gt hl hr
  | le => exact comparison_answers h .le hl hr
  | ge => exact comparison_answers h .ge hl hr
  | eq => exact comparison_answers h .eq hl hr
  | ne => exact comparison_answers h .ne hl hr
  | in_ => exact ⟨rfl, d, h⟩
  | notIn => exact ⟨rfl, d, h⟩
  | add => exact arith_answers h .add hl hr
  | sub => exact arith_answers h .sub hl hr
  | mul => exact arith_answers h .mul hl hr
  | div => exact arith_answers h .div hl hr
  | mod => exact arith_answers h .rem hl hr
  | pow =>
    refine (declare_answers h (r := powerRoutine) (.inr rfl)).after fun f σ₁ h₁ => ?_
    refine push_answers h₁ (i := .call f [l, r]) fun hg => ?_
    simp [Instr.Local, Instr.operands, hl hg, hr hg]

theorem address_answers (h : Going t σ d) (name : String) :
    Answers t (address name) σ none (Valued t d) := by
  have hscope := h.scope
  cases hs : σ.scope with
  | globals =>
    rw [hs] at hscope
    refine .ok (address_globals hs name) ⟨d, h.onModule (Module.complaint_globalCell _ _)
      (.globalCell name) ?_, rfl, fun hno => absurd (hscope.trans hno) (by simp [Scope.isGlobal])⟩
    unfold Module.globalCell
    split <;> exact h.drawn.function
  | slots known =>
    rw [hs] at hscope
    cases hp : known.lookup name with
    | some p =>
      obtain ⟨id, rfl⟩ := h.slots known name p hs hp
      exact .ok (address_slots hs hp) ⟨d, h, rfl, fun _ => trivial⟩
    | none =>
      obtain ⟨entry, hentry⟩ := h.entry
      refine .ok (draws_address hentry h.drawn hs hp)
        ⟨_, h.slot name (.int 0) trivial hscope fun known' x p hk hx => ?_, rfl, fun _ => trivial⟩
      obtain rfl := Scope.slots.inj hk
      rw [List.lookup_cons] at hx
      split at hx
      · exact ⟨_, (Option.some.inj hx).symm⟩
      · exact h.slots known x p hs hx

theorem resolve_answers (h : Going t σ d) (name : String) (n : Nat) :
    Answers t (resolve name n) σ (t.module.complaint name n) fun _ σ' => σ' = σ := by
  rw [← h.complaint, Answers]
  rcases resolve_cases σ name n with ⟨id, hrun, hc⟩ | ⟨e, hrun, hc⟩
  · rw [hrun]
    exact ⟨hc, rfl⟩
  · rw [hrun]
    exact ⟨hc, d, h⟩

end Steps

section Trees
variable {t : Task}

mutual

theorem expr_answers : ∀ (e : Expr) {σ : Lowering} {d : Draft}, Going t σ d →
    Answers t (expr e) σ (e.rejection t.module.complaint) (Valued t d)
  | .number n, σ, d, h => .pure ⟨d, h, rfl, fun _ => trivial⟩
  | .var name, σ, d, h => by
    refine (address_answers h name).after fun p σ₁ ⟨d₁, h₁, hp₁, hp⟩ => ?_
    refine (push_answers h₁ (i := .load p) fun hg => ?_).imp
      fun u σ₂ ⟨d₂, h₂, hp₂, hu⟩ => ⟨d₂, h₂, hp₂.trans hp₁, hu⟩
    simp [Instr.Local, Instr.operands, hp hg]
  | .unary op e, σ, d, h => by
    refine (expr_answers e h).before fun u σ₁ ⟨d₁, h₁, hp₁, hu⟩ => ?_
    exact (unary_answers h₁ op hu).imp fun v σ₂ ⟨d₂, h₂, hp₂, hv⟩ =>
      ⟨d₂, h₂, hp₂.trans hp₁, hv⟩
  | .binary op l r, σ, d, h => by
    refine (expr_answers l h).bind fun u σ₁ ⟨d₁, h₁, hp₁, hu⟩ => ?_
    refine (expr_answers r h₁).bind fun u' σ₂ ⟨d₂, h₂, hp₂, hu'⟩ => ?_
    exact (binary_answers h₂ op hu hu').imp
      fun v σ₃ ⟨d₃, h₃, hp₃, hv⟩ => ⟨d₃, h₃, by rw [hp₃, hp₂, hp₁], hv⟩
  | .call name args, σ, d, h => by
    refine (resolve_answers h name args.length).bind fun f σ₁ hσ => ?_
    subst hσ
    refine (exprs_answers args h).before fun vs σ₂ ⟨d₂, h₂, hp₂, hvs⟩ => ?_
    exact (push_answers h₂ (i := .call f vs) fun hg v hv => hvs hg v hv).imp
      fun v σ₃ ⟨d₃, h₃, hp₃, hv⟩ => ⟨d₃, h₃, hp₃.trans hp₂, hv⟩

theorem exprs_answers : ∀ (es : List Expr) {σ : Lowering} {d : Draft}, Going t σ d →
    Answers t (exprs es) σ (Exprs.rejection t.module.complaint es) fun vs σ' =>
      ∃ d', Going t σ' d' ∧ d'.pending = d.pending ∧ (t.isGlobal = false → ∀ v ∈ vs, v.Local)
  | [], σ, d, h => .pure ⟨d, h, rfl, fun _ v hv => by cases hv⟩
  | e :: es, σ, d, h => by
    refine (expr_answers e h).bind fun v σ₁ ⟨d₁, h₁, hp₁, hv⟩ => ?_
    refine (exprs_answers es h₁).before fun vs σ₂ ⟨d₂, h₂, hp₂, hvs⟩ => ?_
    refine .pure ⟨d₂, h₂, hp₂.trans hp₁, fun hg u hu => ?_⟩
    rcases List.mem_cons.1 hu with rfl | hu
    · exact hv hg
    · exact hvs hg u hu

end

section Blocks
variable {σ : Lowering} {d : Draft}

theorem append_answers (h : Going t σ d) (name : String) :
    Answers t (build (Builder.appendBlock name)) σ none fun b σ' =>
      b = d.blocks.length ∧ Going t σ' (d.append name) :=
  .ok (draws_append (.inl h.framed.current.ne_nil) name rfl σ h.drawn)
    ⟨rfl, h.raw (.append name) rfl⟩

theorem close_answers (h : Going t σ d) (e : Terminator) {b : Nat} (hb : b ∈ d.pending) :
    Answers t (do build (Builder.terminate e); build (Builder.positionAt b)) σ none fun _ σ' =>
      Going t σ' ((d.close e).goto b) :=
  .ok ((draws_terminate h.framed.current e).bind (draws_position b) σ h.drawn)
    (h.raw (.close e hb) rfl)

theorem close_before (h : Going t σ d) (e : Terminator) {b : Nat} (hb : b ∈ d.pending) {α : Type}
    {next : Lower α} {r : Option CompileError} {post : α → Lowering → Prop}
    (hnext : ∀ σ', Going t σ' ((d.close e).goto b) → Answers t next σ' r post) :
    Answers t (do build (Builder.terminate e); build (Builder.positionAt b); next) σ r post := by
  have hs := (close_answers h e hb).after (f := fun _ => next) fun _ => hnext
  rwa [bind_assoc] at hs

theorem test_answers (h : Going t σ d) (cond : Expr) :
    Answers t (test cond) σ (cond.rejection t.module.complaint) fun next =>
      Waiting t (next :: d.pending) := by
  refine (expr_answers cond h).before fun v σ₁ ⟨d₁, h₁, hp₁, hv⟩ => ?_
  refine (zeroTest_answers h₁ hv false).after fun c σ₂ ⟨d₂, h₂, hp₂, hc⟩ => ?_
  refine (append_answers h₂ "if.then").after fun onTrue σ₃ ⟨htrue, h₃⟩ => ?_
  refine (append_answers h₃ "if.else").after fun onFalse σ₄ ⟨hfalse, h₄⟩ => ?_
  subst htrue hfalse
  refine close_before h₄ _ (by simp) fun σ₅ h₅ => ?_
  exact .pure ⟨_, h₅, by simp [hp₂, hp₁]⟩

theorem leave_answers (h : Going t σ d) (v : Operand) :
    Answers t (do
        build (Builder.ret v)
        let dead ← build (Builder.appendBlock "after.ret")
        build (Builder.positionAt dead)) σ none fun _ => Waiting t d.pending := by
  have hdraw := draws_leave h.framed.current v "after.ret"
  rw [Draft.close_append h.framed.current] at hdraw
  refine .ok (hdraw σ h.drawn)
    ⟨((d.append "after.ret").close (.ret v)).goto d.blocks.length, ?_, by simp⟩
  exact h.raws (.tail (.single (.append "after.ret")) (.close _ (List.mem_cons_self ..)))
    [] (by simp) fun _ i hi => by cases hi

theorem store_answers (h : Going t σ d) {v p : Operand} (hv : t.isGlobal = false → v.Local)
    (hp : t.isGlobal = false → p.Local) :
    Answers t (build (Builder.store v p)) σ none fun _ => Waiting t d.pending := by
  refine .ok (draws_store h.framed.current v p σ h.drawn)
    ⟨_, h.raws (.single (.push _)) _ rfl fun hg => ?_, rfl⟩
  simp [Instr.Local, Instr.operands, hv hg, hp hg]

end Blocks

mutual

theorem stmt_answers : ∀ (s : Stmt) {σ : Lowering} {d : Draft}, Going t σ d →
    Answers t (stmt s) σ (s.rejection t.module.complaint) fun _ => Waiting t d.pending
  | .assign name e, σ, d, h => by
    refine (address_answers h name).after fun p σ₁ ⟨d₁, h₁, hp₁, hp⟩ => ?_
    refine (expr_answers e h₁).before fun v σ₂ ⟨d₂, h₂, hp₂, hv⟩ => ?_
    rw [← hp₁, ← hp₂]
    exact store_answers h₂ hv hp
  | .eval e, σ, d, h => by
    refine (expr_answers e h).before fun v σ₁ ⟨d₁, h₁, hp₁, _⟩ => ?_
    exact .pure ⟨d₁, h₁, hp₁⟩
  | .branch cond body elifs otherwise, σ, d, h => by
    refine (append_answers h "if.end").after fun cont σ₁ ⟨hcont, h₁⟩ => ?_
    subst hcont
    refine (test_answers h₁ cond).bind fun next σ₂ ⟨d₂, h₂, hp₂⟩ => ?_
    refine (stmts_answers body h₂).bind fun _ σ₃ ⟨d₃, h₃, hp₃⟩ => ?_
    have hpend₃ : d₃.pending = next :: d.blocks.length :: d.pending := hp₃.trans hp₂
    refine close_before h₃ _ (b := next) (by simp [hpend₃]) fun σ₄ h₄ => ?_
    refine (arms_answers elifs d.blocks.length h₄ (by simp [hpend₃])).bind
      fun _ σ₅ ⟨d₅, h₅, hp₅⟩ => ?_
    refine (stmts_answers otherwise h₅).before fun _ σ₆ ⟨d₆, h₆, hp₆⟩ => ?_
    have hpend₆ : d₆.pending = d.blocks.length :: d.pending := by simp [hp₆, hp₅, hpend₃]
    refine (close_answers h₆ _ (b := d.blocks.length) (by simp [hpend₆])).imp fun _ σ₇ h₇ => ?_
    exact ⟨_, h₇, by simp [hpend₆]⟩
  | .loop cond body, σ, d, h => by
    refine (append_answers h "while.cond").after fun head σ₁ ⟨hhead, h₁⟩ => ?_
    refine (append_answers h₁ "while.body").after fun work σ₂ ⟨hwork, h₂⟩ => ?_
    refine (append_answers h₂ "while.end").after fun after σ₃ ⟨hafter, h₃⟩ => ?_
    have hpend₃ : (((d.append "while.cond").append "while.body").append "while.end").pending =
        after :: work :: head :: d.pending := by
      simp only [Draft.pending_append, hhead, hwork, hafter]
    have hwh : work ≠ head := by simp [hwork, hhead]
    have hah : after ≠ head := by simp [hafter, hhead, Nat.add_assoc]
    have haw : after ≠ work := by simp [hafter, hwork]
    refine close_before h₃ _ (b := head) (by rw [hpend₃]; simp) fun σ₄ h₄ => ?_
    refine (expr_answers cond h₄).bind fun v σ₅ ⟨d₅, h₅, hp₅, hv⟩ => ?_
    refine (zeroTest_answers h₅ hv false).after fun c σ₆ ⟨d₆, h₆, hp₆, _⟩ => ?_
    have hpend₆ : d₆.pending = after :: work :: d.pending := by
      rw [hp₆, hp₅, Draft.pending_goto, Draft.pending_close, hpend₃]
      simp [hah, hwh]
    refine close_before h₆ _ (b := work) (by simp [hpend₆]) fun σ₇ h₇ => ?_
    refine (stmts_answers body h₇).before fun _ σ₈ ⟨d₈, h₈, hp₈⟩ => ?_
    have hpend₈ : d₈.pending = after :: d.pending := by
      rw [hp₈, Draft.pending_goto, Draft.pending_close, hpend₆]
      simp [haw]
    refine (close_answers h₈ _ (b := after) (by simp [hpend₈])).imp fun _ σ₉ h₉ => ?_
    exact ⟨_, h₉, by simp [hpend₈]⟩
  | .print args, σ, d, h => by
    refine (declare_answers h (r := printRoutine) (.inl rfl)).after fun f σ₁ h₁ => ?_
    refine (exprs_answers args h₁).before fun vs σ₂ ⟨d₂, h₂, hp₂, hvs⟩ => ?_
    refine (push_answers h₂ (i := .call f (.int (Int32.ofNat args.length) :: vs))
      fun hg v hv => ?_).after fun u σ₃ ⟨d₃, h₃, hp₃, _⟩ => .pure ⟨d₃, h₃, hp₃.trans hp₂⟩
    rcases List.mem_cons.1 hv with rfl | hv
    · trivial
    · exact hvs hg v hv
  | .ret e, σ, d, h => by
    refine (expr_answers e h).before fun v σ₁ ⟨d₁, h₁, hp₁, _⟩ => ?_
    rw [← hp₁]
    exact leave_answers h₁ v
  | .pass, σ, d, h => .pure ⟨d, h, rfl⟩

theorem stmts_answers : ∀ (ss : List Stmt) {σ : Lowering} {d : Draft}, Going t σ d →
    Answers t (stmts ss) σ (Stmts.rejection t.module.complaint ss) fun _ => Waiting t d.pending
  | [], σ, d, h => .pure ⟨d, h, rfl⟩
  | s :: ss, σ, d, h => by
    refine (stmt_answers s h).bind fun _ σ₁ ⟨d₁, h₁, hp₁⟩ => ?_
    rw [← hp₁]
    exact stmts_answers ss h₁

theorem arms_answers : ∀ (as : List (Expr × List Stmt)) (cont : Nat) {σ : Lowering} {d : Draft},
    Going t σ d → cont ∈ d.pending →
    Answers t (arms as cont) σ (Arms.rejection t.module.complaint as) fun _ => Waiting t d.pending
  | [], cont, σ, d, h, _ => .pure ⟨d, h, rfl⟩
  | (cond, body) :: rest, cont, σ, d, h, hcont => by
    refine (test_answers h cond).bind fun next σ₁ ⟨d₁, h₁, hp₁⟩ => ?_
    refine (stmts_answers body h₁).bind fun _ σ₂ ⟨d₂, h₂, hp₂⟩ => ?_
    have hpend₂ : d₂.pending = next :: d.pending := hp₂.trans hp₁
    refine close_before h₂ _ (b := next) (by simp [hpend₂]) fun σ₃ h₃ => ?_
    have hpend₃ : ((d₂.close (.jump cont)).goto next).pending = d.pending := by simp [hpend₂]
    have hrest := arms_answers rest cont h₃ (hpend₃ ▸ hcont)
    rw [hpend₃] at hrest
    exact hrest

end

theorem parameters_answers : ∀ (names : List String) (i : Nat) {σ : Lowering} {d : Draft},
    Going t σ d → Answers t (parameters names i) σ none fun _ => Waiting t d.pending
  | [], _, σ, d, h => .pure ⟨d, h, rfl⟩
  | name :: names, i, σ, d, h => by
    obtain ⟨entry, hentry⟩ := h.entry
    have hdraw := draws_slot hentry name (.param i) σ h.drawn
    have hrun : parameters (name :: names) i σ = parameters names (i + 1)
        { σ.redraw (d.slot name (.param i)) with
          scope := σ.scope.bound name (.instr d.code.length) } := by
      cases hs : σ.scope <;>
        simp [parameters, bind, EStateM.bind, hdraw, modify_apply, hs, Scope.bound, Lowering.redraw]
    have hscope : (σ.scope.bound name (.instr d.code.length)).isGlobal = t.isGlobal := by
      rw [← h.scope]
      cases σ.scope <;> rfl
    have hnext := parameters_answers names (i + 1) (h.slot name (.param i) trivial hscope
      fun known x p hk hx => ?_)
    · unfold Answers at hnext ⊢
      rw [hrun]
      exact hnext
    · cases hs : σ.scope with
      | globals =>
        rw [hs] at hk
        cases hk
      | slots known' =>
        rw [hs] at hk
        obtain rfl := Scope.slots.inj hk
        rw [List.lookup_cons] at hx
        split at hx
        · exact ⟨_, (Option.some.inj hx).symm⟩
        · exact h.slots known' x p hs hx

end Trees
end Lower

/-- What lowering leaves in a module, whether it has come to its end or was stopped. -/
structure Remainder (m : Module) (id : FuncId) (f : Function) (scope : Scope) (m' : Module) : Prop where
  grows : f.name ≠ Machine.printSymbol → f.name ≠ Machine.powerSymbol → Grows id m m'
  drawn : ∃ D : Draft, m'.function? id = some D.function ∧ D.head = f ∧
    (scope.isGlobal = false → ∀ i ∈ D.code, i.Local)

section Bodies
variable {m : Module} {id : FuncId} {f : Function} {scope : Scope}

theorem Going.remainder {σ : Lowering} {d : Draft} (h : Going ⟨m, id, f, scope.isGlobal⟩ σ d) :
    Remainder m id f scope σ.builder.module where
  grows := h.grows
  drawn := by
    have hf := h.drawn.function
    rw [h.function] at hf
    exact ⟨d, hf, h.head, h.clean⟩

theorem Going.remainder_close {σ : Lowering} {d : Draft} (h : Going ⟨m, id, f, scope.isGlobal⟩ σ d)
    (e : Terminator) : Remainder m id f scope (σ.redraw (d.close e)).builder.module := by
  refine ⟨fun hp hw => ?_, d.close e, ?_, h.head, h.clean⟩
  · have hname : d.function.name = f.name := (congrArg Function.name h.head :)
    have hg : Grows σ.builder.function σ.builder.module (σ.redraw (d.close e)).builder.module :=
      .update h.drawn.function rfl (hname ▸ hp) (hname ▸ hw)
    exact (h.grows hp hw).trans (h.function ▸ hg)
  · have hf := (h.drawn.redraw (d.close e)).function
    rwa [function_redraw, h.function] at hf

theorem Lower.entry_answers (hf : m.function? id = some f) (hempty : f.header = f)
    (hscope : scope = .slots [] ∨ scope = .globals) :
    Answers ⟨m, id, f, scope.isGlobal⟩ (do
        let entry ← build (Builder.appendBlock "entry")
        build (Builder.positionAt entry)) ⟨{ module := m, function := id }, scope⟩ none
      fun _ σ => Going ⟨m, id, f, scope.isGlobal⟩ σ (.start f) := by
  refine .ok (entry_eq hf hempty scope) ⟨rfl, ⟨?_, rfl, rfl⟩, Draft.framed_start f, rfl, ?_,
    fun hp hw => ?_, rfl, ?_, ?_⟩
  · simp [Module.function?_update hf]
  · exact Module.complaint_update hf (Draft.header_function _)
  · exact .update hf (Draft.header_function _) hp hw
  · rintro known x p rfl hx
    rcases hscope with h | h
    · obtain rfl := Scope.slots.inj h
      cases hx
    · cases h
  · intro _ i hi
    simp [Draft.start] at hi

theorem Lower.rest_answers (params : List String) (ss : List Stmt) {σ : Lowering} {d : Draft}
    (h : Going ⟨m, id, f, scope.isGlobal⟩ σ d) :
    Answers ⟨m, id, f, scope.isGlobal⟩ (do
        parameters params 0
        stmts ss
        build (Builder.ret (.int 0))) σ (Stmts.rejection m.complaint ss)
      fun _ σ' => Remainder m id f scope σ'.builder.module := by
  refine (parameters_answers params 0 h).after fun _ σ₁ ⟨d₁, h₁, _⟩ => ?_
  refine (stmts_answers ss h₁).before fun _ σ₂ ⟨d₂, h₂, _⟩ => ?_
  exact .ok (draws_terminate h₂.framed.current _ σ₂ h₂.drawn) (h₂.remainder_close _)

/-- Lowering a body into a function that has been declared stops with the first complaint about it,
if there is one, and comes to its end otherwise. -/
theorem lowerBody_answers (params : List String) (ss : List Stmt) (hf : m.function? id = some f)
    (hempty : f.header = f) (hscope : scope = .slots [] ∨ scope = .globals) :
    match lowerBody m id scope params ss with
    | (.ok _, m') => Stmts.rejection m.complaint ss = none ∧ Remainder m id f scope m'
    | (.error (.rejected e), m') => Stmts.rejection m.complaint ss = some e ∧ Remainder m id f scope m'
    | (.error (.misuse _), _) => False := by
  have hbody := (Lower.entry_answers hf hempty hscope).after fun _ σ₁ h₁ =>
    Lower.rest_answers params ss h₁
  rw [bind_assoc] at hbody
  unfold Lower.Answers at hbody
  unfold lowerBody Lower.body
  split at hbody
  · next hx =>
    simp only [hx]
    exact hbody
  · next hx =>
    simp only [hx]
    exact ⟨hbody.1, hbody.2.elim fun _ hd => hd.remainder⟩
  · exact hbody.elim

end Bodies
end IntLang
