import IntLang.Proofs.Effects
import IntLang.Proofs.Emission
import IntLang.Proofs.Interactive

/-! What holds of a session whatever items it has been given, and whether they were accepted, rejected
or stopped by a fault: its functions are those of the accepted definitions, every call in them can be
made, the module passes its check and can be written as assembly, and the cells keep their values
from one item to the next. -/
namespace IntLang
open IntLang.Flow IntLang.Machine IntLang.Meaning IntLang.Code IntLang.Assembly

def Item.assigned (item : Item) : List String :=
  Stmts.assigned (Program.statements [item])

def acceptedFunctions (items : List Item) (rs : List (Except Diagnostic Unit)) : List FunctionDef :=
  (items.zip rs).filterMap fun
    | (.function d, .ok _) => some d
    | _ => none

def Session.store (s : Session) : Store :=
  ⟨fun x => (s.globalValue x).getD 0, s.engine.output⟩

def Flow.Function.Contains (f : Function) (i : Instr) : Prop :=
  ∃ blk ∈ f.blocks, ∃ id ∈ blk.instrs, f.instrs[id]? = some i

/-- What holds of a session after items with these results. -/
structure Session.Coherent (items : List Item) (rs : List (Except Diagnostic Unit)) (s : Session) :
    Prop where
  functions : (s.module.live.filter (!·.2.synthetic)).map (·.2.header) =
    (acceptedFunctions items rs).map (·.prototype)
  routines : ∀ id f, s.module.function? id = some f → f.synthetic = true →
    f.isDeclaration = true ∧ (f.header = printRoutine ∨ f.header = powerRoutine)
  noWrapper : ∀ id f, s.module.function? id = some f →
    ¬ "__garter_anonymous".toList <+: f.name.toList
  calls : ∀ id f callee args, s.module.function? id = some f → f.Contains (.call callee args) →
    ∃ g, s.module.function? callee = some g ∧
      (g.paramCount = args.length ∨ g.variadic = true ∧ g.paramCount ≤ args.length)
  verified : s.module.verify = .ok ()
  emitted : ∀ t, ∃ text, assemblyText s.module t = .ok text
  names : (s.module.globals.toList.map (·.name)).Nodup
  cells : s.engine.globals.size ≤ s.module.globals.size

/-- What an item with this result does to a session. -/
structure Session.Continues (w : World) (s : Session) (steps : Nat) (item : Item)
    (r : Except Diagnostic Unit) (s' : Session) : Prop where
  kept : ∀ id f, s.module.function? id = some f → s'.module.function? id = some f
  notDuplicate : ∀ st name, item = .statement st →
    r ≠ .error (CompileError.duplicateFunction name).diagnostic
  redefined : ∀ d id f, item = .function d → s.module.function? id = some f → f.name = d.name →
    f.synthetic = false → r = .error (CompileError.duplicateFunction d.name).diagnostic ∧ s' = s
  cells : s.module.globals.toList <+: s'.module.globals.toList
  evaluated : ∀ st, item = .statement st →
    (∃ err : CompileError, r = .error err.diagnostic ∧ s'.store = s.store) ∨
      ∃ v, (topLevel w steps [st] s.store).map outcome = some (v, s'.store) ∧ r = report v
  values : ∀ x, x ∉ item.assigned → (s'.globalValue x).getD 0 = (s.globalValue x).getD 0

section Complaints
variable {complaint : String → Nat → Option CompileError} {P : CompileError → Prop}

theorem or_cases {a b : Option CompileError} (ha : ∀ e, a = some e → P e)
    (hb : ∀ e, b = some e → P e) : ∀ e, a.or b = some e → P e := by
  intro e h
  cases a with
  | none => exact hb e h
  | some e' => exact ha e h

/-- What holds of all complaints that there can be. -/
structure Complains (complaint : String → Nat → Option CompileError) (P : CompileError → Prop) :
    Prop where
  call : ∀ f n e, complaint f n = some e → P e
  operator : ∀ op, P (.unsupported op)

mutual

/-- A complaint about an expression is one about a call or about an operator. -/
theorem Expr.rejection_cases (h : Complains complaint P) : ∀ (e : Expr) (err : CompileError),
    e.rejection complaint = some err → P err
  | .number _, _, he => by cases he
  | .var _, _, he => by cases he
  | .unary _ e, err, he => Expr.rejection_cases h e err he
  | .binary op l r, err, he => by
    refine or_cases (Expr.rejection_cases h l) (or_cases (Expr.rejection_cases h r) fun e hop => ?_)
      err he
    cases op with
    | in_ | notIn => exact Option.some.inj hop ▸ h.operator _
    | _ => cases hop
  | .call f args, err, he => or_cases (h.call f args.length) (Exprs.rejection_cases h args) err he

theorem Exprs.rejection_cases (h : Complains complaint P) : ∀ (es : List Expr) (err : CompileError),
    Exprs.rejection complaint es = some err → P err
  | [], _, he => by cases he
  | e :: es, err, he => or_cases (Expr.rejection_cases h e) (Exprs.rejection_cases h es) err he

end

mutual

theorem Stmt.rejection_cases (h : Complains complaint P) : ∀ (s : Stmt) (err : CompileError),
    s.rejection complaint = some err → P err
  | .assign _ e, err, he => Expr.rejection_cases h e err he
  | .eval e, err, he => Expr.rejection_cases h e err he
  | .branch cond body elifs otherwise, err, he =>
    or_cases (Expr.rejection_cases h cond) (or_cases (Stmts.rejection_cases h body)
      (or_cases (Arms.rejection_cases h elifs) (Stmts.rejection_cases h otherwise))) err he
  | .loop cond body, err, he =>
    or_cases (Expr.rejection_cases h cond) (Stmts.rejection_cases h body) err he
  | .print args, err, he => Exprs.rejection_cases h args err he
  | .ret e, err, he => Expr.rejection_cases h e err he
  | .pass, _, he => by cases he

theorem Stmts.rejection_cases (h : Complains complaint P) : ∀ (ss : List Stmt) (err : CompileError),
    Stmts.rejection complaint ss = some err → P err
  | [], _, he => by cases he
  | s :: ss, err, he => or_cases (Stmt.rejection_cases h s) (Stmts.rejection_cases h ss) err he

theorem Arms.rejection_cases (h : Complains complaint P) :
    ∀ (as : List (Expr × List Stmt)) (err : CompileError),
    Arms.rejection complaint as = some err → P err
  | [], _, he => by cases he
  | (cond, body) :: rest, err, he => or_cases (Expr.rejection_cases h cond)
      (or_cases (Stmts.rejection_cases h body) (Arms.rejection_cases h rest)) err he

end

end Complaints

def CompileError.initial : CompileError → Char
  | duplicateFunction _ => 'D'
  | reservedName _ | argumentCount .. => 'F'
  | unknownFunction _ => 'U'
  | unsupported _ => 'O'

theorem head?_toList_append {a b : String} {c : Char} (h : a.toList.head? = some c) :
    (a ++ b).toList.head? = some c := by
  rw [String.toList_append, List.head?_append, h]
  rfl

theorem CompileError.head?_message (e : CompileError) : e.message.toList.head? = some e.initial := by
  cases e with
  | argumentCount =>
    repeat apply head?_toList_append
    rfl
  | _ => exact head?_toList_append (head?_toList_append rfl)

/-- The message about a function defined twice is like no other. -/
theorem diagnostic_ne_duplicateFunction {ds : List FunctionDef} {st : Stmt} {err : CompileError}
    (h : st.rejection (complaint ds) = some err) (name : String) :
    err.diagnostic ≠ (CompileError.duplicateFunction name).diagnostic := by
  have hinitial : err.initial ≠ 'D' := by
    refine Stmt.rejection_cases (P := fun e => e.initial ≠ 'D')
      ⟨fun f n e he => ?_, fun op => by simp [CompileError.initial]⟩ st err h
    unfold complaint at he
    split at he
    · rw [← Option.some.inj he]
      simp [CompileError.initial]
    · split at he
      · cases he
      · rw [← Option.some.inj he]
        simp [CompileError.initial]
  intro heq
  have hmessage : err.message = (CompileError.duplicateFunction name).message :=
    congrArg Diagnostic.message heq
  have hhead := err.head?_message
  rw [hmessage, CompileError.head?_message] at hhead
  exact hinitial (Option.some.inj hhead).symm

theorem acceptedFunctions_cons (item : Item) (items : List Item) (r : Except Diagnostic Unit)
    (rs : List (Except Diagnostic Unit)) : acceptedFunctions (item :: items) (r :: rs) =
      acceptedFunctions [item] [r] ++ acceptedFunctions items rs :=
  List.filterMap_append (l := [(item, r)])

section Items
variable {e : Engine} {ds : List FunctionDef} {store : Store} {s s' : Session} {item : Item}
  {steps : Nat} {r : Except Diagnostic Unit}

/-- The store that a session shows is its own. -/
theorem InOrder.store_eq (h : InOrder e ds store s) : store = s.store := by
  have hvars (x : String) : store.vars x = (s.globalValue x).getD 0 := by
    rw [← h.shown.globalValue_eq x, Session.globalValue, Engine.globalValue, Engine.globalValue,
      h.shown.sync_eq]
  have houtput : store.output = s.engine.output := h.shown.serves.output.symm
  cases store
  rw [Session.store, Store.mk.injEq]
  exact ⟨funext hvars, houtput⟩

/-- An item is rejected and leaves no trace that could be seen, or it is accepted and evaluated. -/
theorem InOrder.execute_cases (h : InOrder e ds store s)
    (hrun : s.execute steps item = some (r, s')) :
    (∃ err, ¬ item.Accepted ds ∧ item.rejection ds = some err ∧ r = .error err.diagnostic ∧
        Enlarges s.module s'.module ∧ s'.engine = s.engine) ∨
      (item.Accepted ds ∧ ∃ v store', (topLevel (e.mapAll.world ds) steps (Program.statements [item])
          store).map outcome = some (v, store') ∧ r = report v ∧
        InOrder e (ds ++ Program.functions [item]) store' s' ∧ Grown item s s') := by
  by_cases hacc : item.Accepted ds
  · exact .inr ⟨hacc, h.eval_of_execute hacc hrun⟩
  · obtain ⟨err, s₁, hrej, hexec, hm, he⟩ := h.execute_rejected hacc
    obtain ⟨rfl, rfl⟩ := Prod.mk.inj (Option.some.inj ((hexec steps).symm.trans hrun))
    exact .inl ⟨err, hacc, hrej, rfl, hm, he⟩

/-- A session stays in order and keeps its functions, whatever the item comes to. -/
theorem InOrder.execute (h : InOrder e ds store s) (hrun : s.execute steps item = some (r, s')) :
    ∃ store', InOrder e (ds ++ acceptedFunctions [item] [r]) store' s' ∧
      ∀ id f, s.module.function? id = some f → s'.module.function? id = some f := by
  rcases h.execute_cases hrun with ⟨err, -, -, rfl, hm, he⟩ | ⟨-, v, store', heval, rfl, hs', hg⟩
  · refine ⟨store, ?_, hm.same⟩
    rw [show acceptedFunctions [item] [.error err.diagnostic] = [] by cases item <;> rfl,
      List.append_nil]
    exact h.rejected hm he
  · refine ⟨store', ?_, hg.same⟩
    cases item with
    | statement st => exact hs'
    | function d =>
      change (topLevel _ steps [] store).map outcome = _ at heval
      rw [topLevel, stmts] at heval
      obtain ⟨rfl, -⟩ := Prod.mk.inj (Option.some.inj heval)
      exact hs'

/-- A name that is taken cannot be defined again. -/
theorem InOrder.addFunction_duplicate (h : InOrder e ds store s) {d : FunctionDef} {id : FuncId}
    {f : Function} (hf : s.module.function? id = some f) (hname : f.name = d.name)
    (hsyn : f.synthetic = false) :
    s.addFunction d = (.error (CompileError.duplicateFunction d.name).diagnostic, s) := by
  have hfind : s.module.find? d.name = some id := h.image.tidy.find?_eq_some_iff.2 ⟨f, hf, hname⟩
  have hfree : ¬ reservedStart.toList.isPrefixOf d.name.toList = true := by
    rcases h.routine_or_unreserved hf with hr | hr
    · rw [hr.synthetic] at hsyn
      cases hsyn
    · exact hname ▸ hr
  have herr : Session.prototype s.module d = .error (.duplicateFunction d.name) := by
    simp [Session.prototype, hfree, Module.add?, hfind]
  simp only [Session.addFunction, herr]

theorem InOrder.continues (h : InOrder e ds store s) (hrun : s.execute steps item = some (r, s')) :
    s.Continues (e.mapAll.world ds) steps item r s' := by
  have hstore := h.store_eq
  have hredefined (d : FunctionDef) (id : FuncId) (f : Function) (hitem : item = .function d)
      (hf : s.module.function? id = some f) (hname : f.name = d.name) (hsyn : f.synthetic = false) :
      r = .error (CompileError.duplicateFunction d.name).diagnostic ∧ s' = s := by
    subst hitem
    have hadd := Option.some.inj hrun
    rw [h.addFunction_duplicate hf hname hsyn] at hadd
    exact ⟨(Prod.mk.inj hadd).1.symm, (Prod.mk.inj hadd).2.symm⟩
  rcases h.execute_cases hrun with ⟨err, -, hrej, rfl, hm, he⟩ | ⟨-, v, store', heval, rfl, hs', hg⟩
  · have hsame : s'.store = s.store := (h.rejected hm he).store_eq.symm.trans hstore
    refine ⟨hm.same, fun st name hst heq => ?_, hredefined, ?_, fun st hst => .inl ⟨err, rfl, hsame⟩,
      fun x _ => congrFun (congrArg Store.vars hsame) x⟩
    · subst hst
      exact diagnostic_ne_duplicateFunction hrej name (Except.error.inj heq)
    · obtain ⟨new, hnew, -⟩ := hm.cells
      rw [hnew, Array.toList_append]
      exact List.prefix_append _ _
  · have hstore' := hs'.store_eq
    refine ⟨hg.same, fun st name _ heq => ?_, hredefined, ?_, fun st hst => .inr ⟨v, ?_, rfl⟩,
      fun x hx => ?_⟩
    · cases v with
      | ok v => cases heq
      | error f => exact absurd (congrArg Diagnostic.stage (Except.error.inj heq)) nofun
    · obtain ⟨ys, hys⟩ := addCells_eq s.module.globals (Stmts.names (Program.statements [item]))
      rw [hg.cells, hys]
      exact List.prefix_append _ _
    · subst hst
      rw [← hstore, ← hstore']
      exact heval
    · have hvars := vars_of_topLevel heval hx
      rw [hstore, hstore'] at hvars
      exact hvars

end Items

section Invariant
variable {e : Engine} {ds : List FunctionDef} {store : Store} {s s' : Session} {items : List Item}
  {steps : Nat} {rs : List (Except Diagnostic Unit)}

theorem InOrder.executeAll : ∀ (items : List Item) {ds : List FunctionDef} {store : Store}
    {s : Session} {rs : List (Except Diagnostic Unit)}, InOrder e ds store s →
    s.executeAll steps items = some (rs, s') →
    ∃ store', InOrder e (ds ++ acceptedFunctions items rs) store' s' ∧
      ∀ id f, s.module.function? id = some f → s'.module.function? id = some f
  | [], ds, store, s, rs, h, hrun => by
    obtain ⟨rfl, rfl⟩ := Prod.mk.inj (Option.some.inj hrun)
    refine ⟨store, ?_, fun _ _ hf => hf⟩
    change InOrder e (ds ++ []) store s
    rwa [List.append_nil]
  | item :: items, ds, store, s, rs, h, hrun => by
    obtain ⟨r, s₁, rs', hitem, hrest, rfl⟩ := Session.executeAll_cons_inv hrun
    obtain ⟨store₁, h₁, hsame⟩ := h.execute hitem
    obtain ⟨store', h', hsame'⟩ := InOrder.executeAll items h₁ hrest
    rw [List.append_assoc, ← acceptedFunctions_cons] at h'
    exact ⟨store', h', fun id f hf => hsame' id f (hsame id f hf)⟩

/-- Every call in the body of a function is one that a function of the session takes. -/
theorem InOrder.calls (h : InOrder e ds store s) {id callee : FuncId} {f : Function}
    {args : List Operand} (hf : s.module.function? id = some f)
    (hcall : f.Contains (.call callee args)) : Draft.Takes s.module callee args.length := by
  obtain ⟨blk, hblk, j, hj, hi⟩ := hcall
  rcases h.checked id f hf with hd | ⟨D, rfl, hD⟩
  · rw [Function.isDeclaration, Array.isEmpty_iff] at hd
    rw [hd] at hblk
    exact absurd hblk (Array.not_mem_empty blk)
  · exact hD.takes (by simpa using hi)

theorem InOrder.coherent (h : InOrder e (acceptedFunctions items rs) store s) :
    s.Coherent items rs := by
  refine ⟨?_, fun id f hf hs => ?_, fun id f hf hpre => ?_, fun id f callee args hf hcall => ?_,
    h.checked.verify_eq_ok, h.checked.assemblyText_eq_ok, h.image.tidy.cells, h.few⟩
  · have hdefined := h.defined
    rw [Module.defined, List.map_map] at hdefined
    exact hdefined
  · have hr := h.bare id f hf hs
    exact ⟨(h.image.tidy.routines id f hf hr.name).1, hr⟩
  · rcases h.routine_or_unreserved hf with hr | hr
    · rcases hr.name with hn | hn
      · rw [hn] at hpre
        exact absurd hpre (by decide)
      · rw [hn] at hpre
        exact absurd hpre (by decide)
    · refine hr (List.isPrefixOf_iff_prefix.2 (List.IsPrefix.trans ?_ hpre))
      decide
  · exact h.calls hf hcall

/-- A session is coherent after any items, and every further item continues it. -/
theorem executeAll_coherent {name : String} (he : e.globals = #[])
    (hrun : (Session.new name e).executeAll steps items = some (rs, s)) :
    s.Coherent items rs ∧ ∀ bound item r s', s.execute bound item = some (r, s') →
      s.Continues (e.mapAll.world (acceptedFunctions items rs)) bound item r s' := by
  obtain ⟨store, h, -⟩ := (Executed.initial name he).toInOrder.executeAll items hrun
  exact ⟨InOrder.coherent h, fun bound item r s' hitem => InOrder.continues h hitem⟩

end Invariant

/-- Items of which the third is a redefinition, the fourth calls what is not there, and the fifth
divides by zero. -/
def troubledItems : List Item :=
  [.function ⟨"half", ["n"], [.ret (.binary .div (.var "n") (.number 2))], false⟩,
    .statement (.assign "x" (.call "half" [.binary .pow (.number 3) (.number 2)])),
    .function ⟨"half", [], [.ret (.number 1)], true⟩,
    .statement (.print [.var "x", .call "twice" [.var "y"]]),
    .statement (.assign "x" (.binary .div (.var "x") (.var "z"))),
    .statement (.print [.var "x"])]

theorem executeAll_coherent_troubledItems :
    ∃ rs s, (Session.new "m" {}).executeAll 200 troubledItems = some (rs, s) ∧
      rs = [.ok (), .ok (), .error (CompileError.duplicateFunction "half").diagnostic,
        .error (CompileError.unknownFunction "twice").diagnostic,
        .error Fault.divisionByZero.diagnostic, .ok ()] ∧
      s.engine.output = "4\n" ∧ s.globalValues = [("x", 4), ("z", 0)] ∧ s.Coherent troubledItems rs := by
  have hrun : ((Session.new "m" {}).executeAll 200 troubledItems).map
      (fun x => (x.1, x.2.engine.output, x.2.globalValues)) =
      some ([.ok (), .ok (), .error (CompileError.duplicateFunction "half").diagnostic,
        .error (CompileError.unknownFunction "twice").diagnostic,
        .error Fault.divisionByZero.diagnostic, .ok ()], "4\n", [("x", 4), ("z", 0)]) := by
    decide +kernel
  obtain ⟨⟨rs, s⟩, hexec, hresult⟩ := Option.map_eq_some_iff.1 hrun
  obtain ⟨hrs, hrest⟩ := Prod.mk.inj hresult
  obtain ⟨htext, hvals⟩ := Prod.mk.inj hrest
  exact ⟨rs, s, hexec, hrs, htext, hvals, (executeAll_coherent (e := {}) rfl hexec).1⟩

end IntLang
