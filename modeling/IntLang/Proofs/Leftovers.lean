import IntLang.Proofs.ModuleEdits
import IntLang.Proofs.SessionInvariant

/-! What is left of an item that fails. The function that was made for it is gone and every other
function is as it was, but the support routines that lowering asked for before it stopped stay
declared, and so do the global cells. -/
namespace IntLang
open IntLang.Flow IntLang.Machine IntLang.Meaning IntLang.Code

inductive Routine where
  | print | power
  deriving DecidableEq

def Routine.function : Routine → Function
  | print => printRoutine
  | power => powerRoutine

theorem Routine.name_injective {r r' : Routine} (h : r.function.name = r'.function.name) : r = r' := by
  revert h
  cases r <;> cases r' <;> decide

theorem Routine.ne_name {name : String} (hp : name ≠ printSymbol) (hw : name ≠ powerSymbol)
    (r : Routine) : name ≠ r.function.name := by
  cases r
  · exact hp
  · exact hw

/-- What comes after a part of a tree: nothing, if that part is rejected. -/
def reached (rejection : Option CompileError) (rest : List Routine) : List Routine :=
  if rejection.isSome then [] else rest

def BinaryOp.routines : BinaryOp → List Routine
  | .pow => [.power]
  | _ => []

section Routines
variable (complaint : String → Nat → Option CompileError)

mutual

def Expr.routines : Expr → List Routine
  | .number _ | .var _ => []
  | .unary _ e => e.routines
  | .binary op l r =>
    l.routines ++ reached (l.rejection complaint)
      (r.routines ++ reached (r.rejection complaint) op.routines)
  | .call f args => reached (complaint f args.length) (Exprs.routines args)

def Exprs.routines : List Expr → List Routine
  | [] => []
  | e :: es => e.routines ++ reached (e.rejection complaint) (Exprs.routines es)

end

mutual

def Stmt.routines : Stmt → List Routine
  | .assign _ e | .eval e | .ret e => e.routines complaint
  | .branch cond body elifs otherwise =>
    cond.routines complaint ++ reached (cond.rejection complaint)
      (Stmts.routines body ++ reached (Stmts.rejection complaint body)
        (Arms.routines elifs ++ reached (Arms.rejection complaint elifs) (Stmts.routines otherwise)))
  | .loop cond body =>
    cond.routines complaint ++ reached (cond.rejection complaint) (Stmts.routines body)
  | .print args => Routine.print :: Exprs.routines complaint args
  | .pass => []

def Stmts.routines : List Stmt → List Routine
  | [] => []
  | s :: ss => s.routines ++ reached (s.rejection complaint) (Stmts.routines ss)

def Arms.routines : List (Expr × List Stmt) → List Routine
  | [] => []
  | (cond, body) :: rest =>
    cond.routines complaint ++ reached (cond.rejection complaint)
      (Stmts.routines body ++ reached (Stmts.rejection complaint body) (Arms.routines rest))

end

end Routines

def Item.routines (ds : List FunctionDef) : Item → List Routine
  | .function d =>
    if Reserved d.name ∨ d.name ∈ names ds then []
    else Stmts.routines (complaint (ds ++ [d])) d.body
  | .statement st => st.routines (complaint ds)

/-- The support routines `rs` have been declared and no other, and no index has been used again. -/
structure Enlisted (rs : List Routine) (m m' : Module) : Prop where
  routines : ∀ r : Routine, m'.find? r.function.name ≠ none ↔ m.find? r.function.name ≠ none ∨ r ∈ rs
  size : m.functions.size ≤ m'.functions.size
  dead : ∀ j < m.functions.size, m.function? j = none → m'.function? j = none

/-- The same, while calls are complained about as before. -/
structure Enrolled (rs : List Routine) (m m' : Module) : Prop extends Enlisted rs m m' where
  complaint : m'.complaint = m.complaint

namespace Enlisted
variable {rs rs' : List Routine} {m m' m'' : Module} {f : Function}

theorem refl (m : Module) : Enlisted [] m m :=
  ⟨fun _ => by simp, Nat.le_refl _, fun _ _ h => h⟩

theorem trans (h : Enlisted rs m m') (h' : Enlisted rs' m' m'') : Enlisted (rs ++ rs') m m'' where
  routines := fun r => by
    rw [h'.routines r, h.routines r, List.mem_append, or_assoc]
  size := Nat.le_trans h.size h'.size
  dead := fun j hj hn => h'.dead j (Nat.lt_of_lt_of_le hj h.size) (h.dead j hj hn)

theorem find?_push (m : Module) (f : Function) (name : String) : (m.push f).2.find? name =
    (m.find? name).or (if f.name == name then some m.functions.size else none) := by
  unfold Module.find? Module.push
  rw [Array.findIdx?_push]

theorem push (hp : f.name ≠ printSymbol) (hw : f.name ≠ powerSymbol) :
    Enlisted [] m (m.push f).2 := by
  refine ⟨fun r => ?_, by simp [Module.push], fun j hj hn => ?_⟩
  · simp [find?_push, Routine.ne_name hp hw r]
  · rw [Module.function?_push, if_neg (Nat.ne_of_lt hj), hn]

theorem erase {id : FuncId} (hf : m.function? id = some f) (hp : f.name ≠ printSymbol)
    (hw : f.name ≠ powerSymbol) : Enlisted [] m (m.erase id).2 := by
  refine ⟨fun r => ?_, by simp [Module.erase, hf], fun j _ hn => ?_⟩
  · simp only [List.not_mem_nil, or_false, ne_eq, not_iff_not, Module.find?_eq_none_iff,
      Module.function?_erase]
    refine ⟨fun h j g hg => ?_, fun h j g hg => ?_⟩
    · by_cases hj : j = id
      · rw [hj, hf] at hg
        exact Option.some.inj hg ▸ Routine.ne_name hp hw r
      · exact h j g (by rw [if_neg hj, hg])
    · split at hg
      · cases hg
      · exact h j g hg
  · rw [Module.function?_erase, hn, ite_self]

end Enlisted

namespace Enrolled
variable {rs rs' : List Routine} {m m' m'' : Module}

theorem refl (m : Module) : Enrolled [] m m :=
  ⟨.refl m, rfl⟩

theorem trans (h : Enrolled rs m m') (h' : Enrolled rs' m' m'') : Enrolled (rs ++ rs') m m'' :=
  ⟨h.toEnlisted.trans h'.toEnlisted, h'.complaint.trans h.complaint⟩

theorem reworked {id : FuncId} (h : Reworked id m m') : Enrolled [] m m' := by
  rcases h with rfl | ⟨f, g, hf, hg, rfl⟩
  · exact refl _
  · refine ⟨⟨fun r => ?_, by simp [Module.update], fun j _ hn => ?_⟩, Module.complaint_update hf hg⟩
    · simp [Module.find?_update hf (Function.name_of_header hg)]
    · rw [Module.function?_update hf, if_neg, hn]
      rintro rfl
      rw [hf] at hn
      cases hn

theorem globalCell (m : Module) (name : String) : Enrolled [] m (m.globalCell name 0).2 := by
  have hfunctions : (m.globalCell name 0).2.functions = m.functions := by
    unfold Module.globalCell
    split <;> rfl
  refine ⟨⟨fun r => ?_, by rw [hfunctions], fun j _ hn => ?_⟩, Module.complaint_globalCell name 0⟩
  · simp [Module.find?, hfunctions]
  · rwa [Module.function?, hfunctions]

theorem declare (r : Routine) (m : Module) :
    Enrolled [r] m (m.declare r.function.name r.function.paramCount r.function.variadic).2 := by
  refine ⟨⟨fun r' => ?_, ?_, fun j hj hn => ?_⟩, Module.complaint_declare _ _ _⟩
  · have hnames : r' ∈ [r] ↔ r.function.name = r'.function.name := by
      rw [List.mem_singleton]
      exact ⟨fun h => h ▸ rfl, fun h => (Routine.name_injective h).symm⟩
    rw [hnames]
    unfold Module.declare
    cases hfind : m.find? r.function.name with
    | some id =>
      refine ⟨.inl, fun h => h.elim (fun h => h) fun hname => ?_⟩
      simp [← hname, hfind]
    | none =>
      rw [Enlisted.find?_push]
      cases m.find? r'.function.name <;> simp
  · unfold Module.declare
    split
    · exact Nat.le_refl _
    · simp [Module.push]
  · unfold Module.declare
    split
    · exact hn
    · rw [Module.function?_push, if_neg (Nat.ne_of_lt hj), hn]

end Enrolled

namespace Lower
variable {α β : Type} {c : String → Nat → Option CompileError} {r r' : Option CompileError}
  {rs rs' : List Routine}

/-- A step that stops with `r`, if that is something, and in any case asks for the routines `rs`. -/
def Asks (c : String → Nat → Option CompileError) (x : Lower α) (r : Option CompileError)
    (rs : List Routine) : Prop :=
  ∀ σ, σ.builder.module.complaint = c → match x σ with
    | .ok _ σ' => r = none ∧ Enrolled rs σ.builder.module σ'.builder.module
    | .error (.rejected e) σ' => r = some e ∧ Enrolled rs σ.builder.module σ'.builder.module
    | .error (.misuse _) _ => True

namespace Asks

theorem bind {x : Lower α} {f : α → Lower β} (h : Asks c x r rs) (hf : ∀ a, Asks c (f a) r' rs') :
    Asks c (x >>= f) (r.or r') (rs ++ reached r rs') := by
  intro σ hσ
  have hx := h σ hσ
  change match EStateM.bind x f σ with
    | .ok _ σ' => _
    | .error (.rejected e) σ' => _
    | .error (.misuse _) _ => _
  unfold EStateM.bind
  split at hx
  · next a σ₁ hrun =>
    obtain ⟨rfl, h₁⟩ := hx
    have h₂ := hf a σ₁ (h₁.complaint.trans hσ)
    simp only [hrun, Option.none_or]
    change match f a σ₁ with
      | .ok _ σ' => r' = none ∧ Enrolled (rs ++ rs') σ.builder.module σ'.builder.module
      | .error (.rejected e) σ' => r' = some e ∧ Enrolled (rs ++ rs') σ.builder.module σ'.builder.module
      | .error (.misuse _) _ => True
    split at h₂
    · next h' => simpa only [h'] using ⟨h₂.1, h₁.trans h₂.2⟩
    · next h' => simpa only [h'] using ⟨h₂.1, h₁.trans h₂.2⟩
    · next h' => simp
  · next e σ₁ hrun =>
    obtain ⟨rfl, h₁⟩ := hx
    simp only [hrun, Option.some_or, true_and]
    simpa [reached] using h₁
  · next hrun => simp only [hrun]

theorem pure (a : α) : Asks c (pure a) none [] :=
  fun _ _ => ⟨rfl, .refl _⟩

theorem build {step : Build α} (h : Reworks step) : Asks c (build step) none [] := by
  intro σ _
  have hb := h σ.builder
  unfold Lower.build
  cases hrun : step σ.builder with
  | ok a b =>
    rw [hrun] at hb
    exact ⟨rfl, .reworked hb⟩
  | error e b => trivial

theorem change {f : Lowering → Lowering} (h : ∀ σ, (f σ).builder.module = σ.builder.module) :
    Asks c (modify f : Lower Unit) none [] := by
  intro σ _
  refine ⟨rfl, ?_⟩
  rw [h]
  exact .refl _

theorem declare (q : Routine) : Asks c (Lower.build (Builder.onModule
    (·.declare q.function.name q.function.paramCount q.function.variadic))) none [q] :=
  fun _ _ => ⟨rfl, .declare q _⟩

theorem address (x : String) : Asks c (address x) none [] := by
  intro σ hσ
  cases hscope : σ.scope with
  | globals =>
    rw [address_globals hscope]
    exact ⟨rfl, .globalCell _ x⟩
  | slots known =>
    cases hx : known.lookup x with
    | some p =>
      rw [address_slots hscope hx]
      exact ⟨rfl, .refl _⟩
    | none =>
      have hnew : Asks c (do
          let slot ← Lower.build (Builder.entrySlot x (.int 0))
          modify ({ · with scope := .slots ((x, slot) :: known) })
          return slot) none [] :=
        (build (.entrySlot x (.int 0))).bind fun slot => (change fun _ => rfl).bind fun _ => pure slot
      rw [address_new hscope hx]
      exact hnew σ hσ

theorem resolve (name : String) (n : Nat) : Asks c (resolve name n) (c name n) [] := by
  rintro σ rfl
  rcases resolve_cases σ name n with ⟨id, hrun, hc⟩ | ⟨e, hrun, hc⟩
  · rw [hrun]
    exact ⟨hc, .refl _⟩
  · rw [hrun]
    exact ⟨hc, .refl _⟩

end Asks

def routineAccount (c : String → Nat → Option CompileError) :
    Account (Option CompileError × List Routine) where
  holds x w := Asks c x w.1 w.2
  nothing := (none, [])
  andThen w w' := (w.1.or w'.1, w.2 ++ reached w.1 w'.2)
  nothing_andThen _ := rfl
  andThen_nothing w := by simp [reached]
  bind h hf := h.bind hf
  pure := .pure
  append _ _ := .build (.appendBlock _)
  push _ _ := .build (.push _)
  arith _ _ _ := .build (.arith _ _ _)
  store _ _ := .build (Reworks.push _).discard
  terminate _ := .build (.terminate _)
  position _ := .build (.positionAt _)

def routineTrees (c : String → Nat → Option CompileError) : (routineAccount c).OfTrees where
  name _ := (none, [])
  operation op := (op.rejection, op.routines)
  callee f n := (c f n, [])
  print := (none, [.print])
  expr e := (e.rejection c, e.routines c)
  exprs es := (Exprs.rejection c es, Exprs.routines c es)
  stmt s := (s.rejection c, s.routines c)
  stmts ss := (Stmts.rejection c ss, Stmts.routines c ss)
  arms as := (Arms.rejection c as, Arms.routines c as)
  holds_address := Asks.address
  holds_power := .declare .power
  holds_reject op hop := by
    rcases List.mem_pair.1 hop with rfl | rfl <;> exact fun _ _ => ⟨rfl, .refl _⟩
  holds_resolve := .resolve
  holds_print := .declare .print
  operation_eq op hop := by cases op <;> first | rfl | simp at hop
  expr_eq e := by cases e <;> rfl
  exprs_eq es := by cases es <;> rfl
  stmt_eq s := by cases s <;> rfl
  stmts_eq ss := by cases ss <;> rfl
  arms_eq as := by cases as <;> rfl

theorem parameters_asks : ∀ (names : List String) (i : Nat), Asks c (parameters names i) none []
  | [], _ => .pure _
  | name :: names, i =>
    (Asks.build (.entrySlot name (.param i))).bind fun _ =>
      (Asks.change fun σ => by cases σ.scope <;> rfl).bind fun _ => parameters_asks names (i + 1)

theorem body_asks (params : List String) (ss : List Stmt) :
    Asks c (body params ss) (Stmts.rejection c ss) (Stmts.routines c ss) :=
  (routineAccount c).body (parameters_asks params 0) ((routineTrees c).holds_stmts ss)

end Lower

section Items
variable {m : Module} {id : FuncId} {f : Function} {scope : Scope}

theorem lowerBody_enrolled (params : List String) (ss : List Stmt) (hf : m.function? id = some f)
    (hempty : f.header = f)
    (hscope : scope = .slots [] ∨ scope = .globals) :
    Enrolled (Stmts.routines m.complaint ss) m (lowerBody m id scope params ss).2 ∧
      Remainder m id f scope (lowerBody m id scope params ss).2 := by
  have hans := lowerBody_answers params ss hf hempty hscope
  have hask := Lower.body_asks params ss ⟨{ module := m, function := id }, scope⟩ rfl
  unfold lowerBody at hans ⊢
  split at hask
  · next h =>
    simp only [h] at hans ⊢
    exact ⟨hask.2, hans.2⟩
  · next h =>
    simp only [h] at hans ⊢
    exact ⟨hask.2, hans.2⟩
  · next h => simp only [h] at hans

/-- A module in which something has been added, worked on and taken out again. -/
structure Left (rs : List Routine) (m m' : Module) : Prop extends Enlarges m m' where
  enlisted : Enlisted rs m m'

theorem Left.refl (m : Module) : Left [] m m :=
  ⟨.refl m, .refl m⟩

theorem left_lowerBody (params : List String) (ss : List Stmt) (hempty : f.header = f)
    (hn : m.find? f.name = none)
    (hv : f.synthetic = false → f.variadic = false) (hp : f.name ≠ printSymbol)
    (hw : f.name ≠ powerSymbol) (hscope : scope = .slots [] ∨ scope = .globals) :
    Left (Stmts.routines (m.push f).2.complaint ss) m
      ((lowerBody (m.push f).2 m.functions.size scope params ss).2.erase m.functions.size).2 := by
  have hnew : (m.push f).2.function? m.functions.size = some f := by simp [Module.function?_push]
  obtain ⟨hask, hrest⟩ := lowerBody_enrolled params ss hnew hempty hscope
  obtain ⟨D, hD, rfl, -⟩ := hrest.drawn
  refine ⟨enlarges_erase hn hv hp hw (hrest.grows hp hw), ?_⟩
  have hall := ((Enlisted.push hp hw).trans hask.toEnlisted).trans (.erase hD hp hw)
  rwa [List.nil_append, List.append_nil] at hall

variable {e : Engine} {ds : List FunctionDef} {store : Store} {s s' : Session} {item : Item}
  {steps : Nat} {diag : Diagnostic}

/-- A statement leaves the same, whether it is rejected, faults or succeeds. -/
theorem InOrder.left_runStatement (h : InOrder e ds store s) {st : Stmt}
    {r : Except Diagnostic Unit} (hrun : s.runStatement steps st = some (r, s')) :
    Left (st.routines (Code.complaint ds)) s.module s'.module := by
  let f := wrapper (s.statements + 1)
  have hfree : s.module.find? f.name = none := h.find?_anonymousName _
  have hprint : f.name ≠ printSymbol := anonymousName_ne_printSymbol _
  have hpower : f.name ≠ powerSymbol := anonymousName_ne_powerSymbol _
  have hcomplaint := (h.image.toDeclares.push_synthetic (f := f) rfl hfree hprint hpower).complaint_eq
  have hleft := left_lowerBody [] [st] rfl hfree (fun hs => by cases hs) hprint hpower
    (.inr rfl : Scope.globals = .slots [] ∨ Scope.globals = .globals)
  have hone : Stmts.routines (Code.complaint ds) [st] = st.routines (Code.complaint ds) := by
    simp [Stmts.routines, reached]
  rw [hcomplaint, hone] at hleft
  have hmodule : s'.module = ((lowerBody (s.module.push f).2 s.module.functions.size .globals []
      [st]).2.erase s.module.functions.size).2 := by
    simp only [Session.runStatement, h.add?_wrapper, Session.runIn] at hrun
    obtain ⟨⟨r', s₁⟩, hin, hres⟩ := Option.bind_eq_some_iff.1 hrun
    obtain ⟨rfl, rfl⟩ := Prod.mk.inj (Option.some.inj hres)
    refine congrArg (fun m => (Module.erase m s.module.functions.size).2) ?_
    split at hin
    · next hlow =>
      obtain ⟨rfl, rfl⟩ := Prod.mk.inj (Option.some.inj hin)
      exact (congrArg Prod.snd hlow).symm
    · next hlow =>
      split at hin
      · obtain ⟨rfl, rfl⟩ := Prod.mk.inj (Option.some.inj hin)
        exact (congrArg Prod.snd hlow).symm
      · obtain ⟨⟨v, e'⟩, -, hend⟩ := Option.bind_eq_some_iff.1 hin
        obtain ⟨-, rfl⟩ := Prod.mk.inj (Option.some.inj hend)
        exact (congrArg Prod.snd hlow).symm
  rw [hmodule]
  exact hleft

/-- A function that is refused leaves what lowering its body has asked for. -/
theorem InOrder.left_addFunction (h : InOrder e ds store s) {d : FunctionDef}
    (hrun : s.addFunction d = (.error diag, s')) :
    Left (Item.routines ds (.function d)) s.module s'.module := by
  have hmem (hr : ¬ Reserved d.name) := h.image.mem_names_iff h.bare.hides hr
  rw [Item.routines]
  unfold Session.addFunction at hrun
  rcases prototype_eq s.module d with ⟨hok, hr, hn⟩ | ⟨⟨err, hbad⟩, hno⟩
  · have hnew : d.name ∉ names ds := fun hd => (hmem hr).1 hd hn
    have hcomplaint := (h.image.toDeclares.push hr hn).complaint_eq
    rw [if_neg (not_or.2 ⟨hr, hnew⟩), ← hcomplaint]
    have hpush : Session.prototype s.module d =
        .ok (s.module.functions.size, (s.module.push d.prototype).2) := hok
    simp only [hpush] at hrun
    have hleft := left_lowerBody (f := d.prototype) d.params d.body rfl hn (fun _ => rfl) (ne_printSymbol hr)
      (ne_powerSymbol hr) (.inl rfl : Scope.slots [] = .slots [] ∨ Scope.slots [] = .globals)
    unfold Session.define at hrun
    cases hd : d.isDeclaration with
    | true =>
      simp only [hd, ↓reduceIte] at hrun
      cases (Prod.mk.inj hrun).1
    | false =>
      simp only [hd, Bool.false_eq_true, ↓reduceIte] at hrun
      split at hrun
      · cases (Prod.mk.inj hrun).1
      · next hlow =>
        rw [← (Prod.mk.inj hrun).2]
        rwa [hlow] at hleft
  · have hold : Reserved d.name ∨ d.name ∈ names ds :=
      hno.elim .inl fun hfind => (em (Reserved d.name)).imp_right fun hr => (hmem hr).2 hfind
    simp only [hbad] at hrun
    rw [if_pos hold, ← (Prod.mk.inj hrun).2]
    exact .refl _

theorem InOrder.left (h : InOrder e ds store s) (hrun : s.execute steps item = some (.error diag, s')) :
    Left (item.routines ds) s.module s'.module := by
  cases item with
  | function d => exact h.left_addFunction (Option.some.inj hrun)
  | statement st => exact h.left_runStatement hrun

end Items

section Failures
variable {rs : List Routine} {m m' : Module}

theorem Flow.Module.lt_of_function? {id : FuncId} {f : Function} (h : m.function? id = some f) :
    id < m.functions.size :=
  (Array.getElem?_eq_some_iff.1 (Module.function?_eq_some.1 h)).1

def newcomers (m m' : Module) : List (FuncId × Function) :=
  m'.live.filter fun x => (m.function? x.1).isNone

theorem mem_newcomers {x : FuncId × Function} :
    x ∈ newcomers m m' ↔ m'.function? x.1 = some x.2 ∧ m.function? x.1 = none := by
  rw [newcomers, List.mem_filter, mem_live, Option.isNone_iff_eq_none]

namespace Left

/-- New functions have indices that were never used. -/
theorem size_le (h : Left rs m m') {x : FuncId × Function} (hx : x ∈ newcomers m m') :
    m.functions.size ≤ x.1 := by
  obtain ⟨hx', hno⟩ := mem_newcomers.1 hx
  refine Nat.le_of_not_lt fun hlt => ?_
  rw [h.enlisted.dead x.1 hlt hno] at hx'
  cases hx'

theorem live_eq (h : Left rs m m') : m'.live = m.live ++ newcomers m m' := by
  refine Module.eq_of_pairwise_lt (·.1) m'.pairwise_live ?_ fun x => ?_
  · refine List.pairwise_append.2 ⟨m.pairwise_live, m'.pairwise_live.filter _, fun x hx y hy => ?_⟩
    exact Nat.lt_of_lt_of_le (Module.lt_of_function? (mem_live.1 hx)) (h.size_le hy)
  · rw [List.mem_append, mem_newcomers, mem_live, mem_live]
    constructor
    · intro hx
      cases hold : m.function? x.1 with
      | none => exact .inr ⟨hx, rfl⟩
      | some f => exact .inl ((h.same x.1 f hold).symm.trans hx)
    · rintro (hx | ⟨hx, -⟩)
      · exact h.same x.1 x.2 hx
      · exact hx

/-- New functions are support routines, declared and no more. -/
theorem routine (h : Left rs m m') (ht : m.Tidy) {x : FuncId × Function} (hx : x ∈ newcomers m m') :
    x.2.isDeclaration = true ∧ ∃ r : Routine, x.2.header = r.function := by
  obtain ⟨hx', hno⟩ := mem_newcomers.1 hx
  have hr := h.added x.1 x.2 hno hx'
  refine ⟨((h.tidy ht).routines x.1 x.2 hx' hr.name).1, ?_⟩
  rcases hr with hr | hr
  · exact ⟨.print, hr⟩
  · exact ⟨.power, hr⟩

/-- A support routine is new exactly if it was asked for and not there. -/
theorem mem_headers (h : Left rs m m') (ht : m.Tidy) (r : Routine) :
    r.function ∈ (newcomers m m').map (·.2.header) ↔ r ∈ rs ∧ m.find? r.function.name = none := by
  have hnone : m.find? r.function.name = none ↔ _ := Module.find?_eq_none_iff
  rw [List.mem_map]
  constructor
  · rintro ⟨x, hx, hheader⟩
    obtain ⟨hx', hno⟩ := mem_newcomers.1 hx
    have hname : x.2.header.name = r.function.name := congrArg Function.name hheader
    have hfree : m.find? r.function.name = none := by
      rw [hnone]
      intro j f hf hjname
      have hj := (h.tidy ht).distinct j x.1 f x.2 (h.same j f hf) hx' (hjname.trans hname.symm)
      rw [hj, hno] at hf
      cases hf
    have hthere : m'.find? r.function.name ≠ none := fun hno' =>
      Module.find?_eq_none_iff.1 hno' x.1 x.2 hx' hname
    exact ⟨((h.enlisted.routines r).1 hthere).resolve_left fun hm => hm hfree, hfree⟩
  · rintro ⟨hr, hfree⟩
    have hthere := (h.enlisted.routines r).2 (.inr hr)
    obtain ⟨j, hj⟩ := Option.ne_none_iff_exists'.1 hthere
    obtain ⟨f, hf, hname⟩ := Module.function?_of_find? hj
    have hno : m.function? j = none := by
      refine Option.eq_none_iff_forall_ne_some.2 fun g hg => hnone.1 hfree j g hg ?_
      rw [Option.some.inj ((h.same j g hg).symm.trans hf), hname]
    have hx : (j, f) ∈ newcomers m m' := mem_newcomers.2 ⟨hf, hno⟩
    obtain ⟨-, r', hr'⟩ := h.routine ht hx
    have hsame : r' = r := Routine.name_injective ((congrArg Function.name hr').symm.trans hname)
    exact ⟨(j, f), hx, hr'.trans (congrArg Routine.function hsame)⟩

theorem nodup_headers (h : Left rs m m') (ht : m.Tidy) :
    ((newcomers m m').map (·.2.header)).Nodup := by
  refine List.pairwise_map.2 ((m'.pairwise_live.filter _).imp_of_mem ?_)
  intro x y hx hy hlt hheader
  have hname := Function.name_of_header hheader
  exact Nat.ne_of_lt hlt ((h.tidy ht).distinct x.1 y.1 x.2 y.2 (mem_newcomers.1 hx).1
    (mem_newcomers.1 hy).1 hname)

/-- The live functions are the same exactly if all that was asked for was there. -/
theorem live_eq_iff (h : Left rs m m') (ht : m.Tidy) :
    m'.live = m.live ↔ ∀ r ∈ rs, m.find? r.function.name ≠ none := by
  rw [h.live_eq, List.append_right_eq_self]
  constructor
  · intro hnil r hr hfree
    have hmem := (h.mem_headers ht r).2 ⟨hr, hfree⟩
    rw [hnil] at hmem
    cases hmem
  · intro hall
    refine List.eq_nil_iff_forall_not_mem.2 fun x hx => ?_
    obtain ⟨-, r, hr⟩ := h.routine ht hx
    obtain ⟨hask, hfree⟩ := (h.mem_headers ht r).1 (hr ▸ List.mem_map_of_mem hx)
    exact hall r hask hfree

end Left

/-- What a failed item leaves in a module if it asked for the given support routines: the functions
that were there, then the routines that were not, and new cells with value zero. -/
structure Flow.Module.Keeps (m : Module) (rs : List Routine) (m' : Module) : Prop where
  functions : ∃ new, m'.live = m.live ++ new ∧
    (∀ x ∈ new, m.functions.size ≤ x.1 ∧ x.2.isDeclaration = true ∧
      ∃ r : Routine, x.2.header = r.function) ∧
    (new.map (·.2.header)).Nodup ∧
    ∀ r : Routine, r.function ∈ new.map (·.2.header) ↔ r ∈ rs ∧ m.find? r.function.name = none
  cells : ∃ cells, m'.globals = m.globals ++ cells ∧ ∀ g ∈ cells, g.init = 0
  same : m'.live = m.live ↔ ∀ r ∈ rs, m.find? r.function.name ≠ none

theorem Left.keeps (h : Left rs m m') (ht : m.Tidy) : m.Keeps rs m' where
  functions := ⟨newcomers m m', h.live_eq, fun _ hx => ⟨h.size_le hx, h.routine ht hx⟩,
    h.nodup_headers ht, h.mem_headers ht⟩
  cells := h.cells
  same := h.live_eq_iff ht

variable {e : Engine} {s s' : Session} {items : List Item} {item : Item} {steps bound : Nat}
  {results : List (Except Diagnostic Unit)} {diag : Diagnostic}

/-- Besides global cells, an item that fails leaves the support routines it asked for, and nothing
else. -/
theorem failed_item_keeps {name : String} (he : e.globals = #[])
    (hrun : (Session.new name e).executeAll steps items = some (results, s))
    (hitem : s.execute bound item = some (.error diag, s')) :
    s.module.Keeps (item.routines (acceptedFunctions items results)) s'.module := by
  obtain ⟨store, h, -⟩ := (Executed.initial name he).toInOrder.executeAll items hrun
  exact (InOrder.left h hitem).keeps h.image.tidy

end Failures

/-- A statement that calls what is not there is rejected, and the routine that prints stays
declared. -/
theorem live_after_rejected_print :
    ((Session.new "m" {}).execute 0 (.statement (.print [.call "missing" []]))).map
      (fun x => (x.1, x.2.module.live)) =
      some (.error (CompileError.unknownFunction "missing").diagnostic, [(1, printRoutine)]) ∧
    (Session.new "m" {}).module.live = [] := by
  decide +kernel

def halvingItems : List Item :=
  [.function ⟨"half", ["n"], [.ret (.binary .div (.var "n") (.number 2))], false⟩,
    .statement (.assign "x" (.call "half" [.number 9]))]

/-- An item that asks for both routines before it calls a function with too many arguments. -/
def overloadedPrint : Item :=
  .statement (.print [.binary .pow (.var "y") (.number 2), .call "half" [.var "x", .var "z"]])

theorem failed_item_keeps_overloadedPrint :
    ∃ rs s r s', (Session.new "m" {}).executeAll 200 halvingItems = some (rs, s) ∧
      s.execute 200 overloadedPrint = some (r, s') ∧
      r = .error (CompileError.argumentCount "half" 1 2).diagnostic ∧
      s.module.Keeps [.print, .power] s'.module ∧ s'.module.globals.map (·.name) = #["x", "y"] := by
  have hrun : ((Session.new "m" {}).executeAll 200 halvingItems).bind (fun x =>
      (x.2.execute 200 overloadedPrint).map fun y => (x.1, y.1, y.2.module.globals.map (·.name))) =
      some ([.ok (), .ok ()], .error (CompileError.argumentCount "half" 1 2).diagnostic, #["x", "y"]) := by
    decide +kernel
  obtain ⟨⟨rs, s⟩, hexec, hitem⟩ := Option.bind_eq_some_iff.1 hrun
  obtain ⟨⟨r, s'⟩, hfail, hresult⟩ := Option.map_eq_some_iff.1 hitem
  obtain ⟨rfl, hrest⟩ := Prod.mk.inj hresult
  obtain ⟨rfl, hcells⟩ := Prod.mk.inj hrest
  have hroutines : overloadedPrint.routines (acceptedFunctions halvingItems [.ok (), .ok ()]) =
      [.print, .power] := by
    decide +kernel
  exact ⟨_, s, _, s', hexec, hfail, rfl, hroutines ▸ failed_item_keeps (e := {}) rfl hexec hfail, hcells⟩

end IntLang
