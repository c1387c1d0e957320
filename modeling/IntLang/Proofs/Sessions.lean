import IntLang.Proofs.CalledNames
import IntLang.Proofs.ModuleGrowth
import IntLang.Proofs.Preservation

/-! Sessions that execute one item after the other. What a session has executed shows in its module and
its engine: the functions of the items can be called, their variables have cells, and the cells have
the values that evaluating the statements leaves. The functions that statements are wrapped in leave
no trace, and neither do items that are rejected. -/
namespace IntLang
open IntLang.Flow IntLang.Machine IntLang.Meaning IntLang.Code

/-- A session in order: its functions are those of `ds`, and its cells show the store. -/
structure InOrder (e : Engine) (ds : List FunctionDef) (store : Store) (s : Session) : Prop where
  image : Image s.module ds
  unreserved : ∀ d ∈ ds, ¬ Reserved d.name
  bare : s.module.Bare
  checked : s.module.Checked
  isolated : s.module.Isolated
  defined : s.module.defined.map (·.2) = ds.map (·.prototype)
  few : s.engine.globals.size ≤ s.module.globals.size
  shown : Shows s.module (e.mapAll.world ds) store (s.engine.sync s.module)

structure Executed (e : Engine) (done : Program) (store : Store) (s : Session) : Prop extends
    InOrder e done.functions store s where
  cells : s.module.globals = addCells #[] (Stmts.names done.statements)
  full : s.engine.globals.size = s.module.globals.size

section Cells
variable {m m' : Module} {w w' : World} {s : Store} {e : Engine}

theorem Machine.Engine.sync_of_size (h : e.globals.size = m.globals.size) : e.sync m = e := by
  simp [Engine.sync, h]

theorem Machine.Engine.sync_congr (h : m'.globals = m.globals) : e.sync m' = e.sync m := by
  unfold Engine.sync
  rw [h]

/-- Cells are created in the order of the module, in one go or in two. -/
theorem Machine.Engine.sync_sync (hfew : e.globals.size ≤ m.globals.size) {new : Array Global}
    (hm : m'.globals = m.globals ++ new) : (e.sync m).sync m' = e.sync m' := by
  have hsize : (e.sync m).globals.size = m.globals.size := by
    simp [Engine.sync]
    omega
  have hglobals : (e.sync m).globals ++ (m'.globals.extract m.globals.size m'.globals.size).map (·.init) =
      (e.sync m').globals := by
    have hall : m.globals.extract e.globals.size (m.globals ++ new).size =
        m.globals.extract e.globals.size m.globals.size := by
      refine Array.ext (by simp) fun i _ _ => ?_
      simp
    simp only [Engine.sync, hm, Array.append_assoc, ← Array.map_append, Array.extract_append, hall]
    simp [hfew]
  unfold Engine.sync at hsize hglobals ⊢
  simp only [hsize]
  rw [hglobals]

theorem Executed.shows {done : Program} {store : Store} {s : Session} (h : Executed e done store s) :
    Shows s.module (e.mapAll.world done.functions) store s.engine := by
  have hs := h.shown
  rwa [Engine.sync_of_size h.full] at hs

theorem Code.Shows.of_globals (h : Shows m w s e) (hm : m'.globals = m.globals)
    (hn : w'.natives = w.natives) (hs : w'.sink = w.sink) : Shows m' w' s e := by
  have hfind (x : String) : m'.findGlobal? x = m.findGlobal? x := by
    unfold Module.findGlobal?
    rw [hm]
  refine ⟨⟨h.serves.natives.trans hn.symm, h.serves.sink.trans hs.symm, h.serves.output⟩, ?_, ?_, ?_⟩
  · rw [hm]
    exact h.globals.size
  · intro x g hg
    exact h.globals.cell x g (hfind x ▸ hg)
  · intro x hx
    exact h.globals.unseen x (hfind x ▸ hx)

/-- New cells start at zero, as the variables do that had none. -/
theorem Code.Shows.sync (h : Shows m w s e) (hm : Extends m m') : Shows m' w s (e.sync m') := by
  obtain ⟨new, hnew, hz⟩ := hm.cells
  have hsize := h.globals.size
  have hglobals : (e.sync m').globals = e.globals ++ new.map (·.init) := by
    simp [Engine.sync, hnew, hsize]
  refine ⟨⟨h.serves.natives, h.serves.sink, h.serves.output⟩, ?_, ?_, ?_⟩
  · simp [hglobals, hnew, hsize]
  · intro x g hg
    rw [hglobals]
    cases hx : m.findGlobal? x with
    | some g' =>
      obtain rfl : g' = g := Option.some.inj ((hm.findGlobal? hx).symm.trans hg)
      have hcell := h.globals.cell x g' hx
      rw [Array.getElem?_append_left (Array.getElem?_eq_some_iff.1 hcell).1, hcell]
    | none =>
      unfold Module.findGlobal? at hg hx
      rw [hnew, Array.findIdx?_append, hx, Option.none_or] at hg
      obtain ⟨j, hj, rfl⟩ := Option.map_eq_some_iff.1 hg
      obtain ⟨hlt, -⟩ := Array.findIdx?_eq_some_iff_getElem.1 hj
      rw [Array.getElem?_append_right (by omega), h.globals.unseen x hx]
      simp [hsize, hlt, hz _ (Array.getElem_mem hlt)]
  · intro x hx
    refine h.globals.unseen x ?_
    cases hold : m.findGlobal? x with
    | none => rfl
    | some g => exact absurd ((hm.findGlobal? hold).symm.trans hx) (by simp)

end Cells

def Code.complaint (ds : List FunctionDef) (name : String) (given : Nat) : Option CompileError :=
  match ds.find? (·.name = name) with
  | none => some (.unknownFunction name)
  | some d =>
    if given = d.params.length then none else some (.argumentCount name d.params.length given)

/-- Complaints about calls depend on the definitions only. -/
theorem Code.Declares.complaint_eq {m : Module} {ds : List FunctionDef} (h : Declares m ds) :
    m.complaint = complaint ds := by
  funext name n
  unfold Module.complaint complaint
  have hnone (hno : ∀ id k, ¬ Callee m name k id) : ds.find? (·.name = name) = none := by
    rw [List.find?_eq_none]
    intro d hd hname
    obtain ⟨id, hid⟩ := h.declared d hd
    rw [of_decide_eq_true hname] at hid
    exact hno id _ hid
  cases hfind : m.find? name with
  | none =>
    rw [hnone fun id k hid => by rw [Callee, hfind] at hid; cases hid.1]
    rfl
  | some id =>
    obtain ⟨f, hf, -⟩ := Module.function?_of_find? hfind
    simp only [Option.bind_some, hf, Function.complaint]
    cases hs : f.synthetic with
    | true =>
      rw [hnone fun j k hid => ?_]
      · rfl
      · obtain ⟨hj, g, hg, hsyn, -⟩ := hid
        obtain rfl : id = j := Option.some.inj (hfind.symm.trans hj)
        rw [Option.some.inj (hg.symm.trans hf), hs] at hsyn
        cases hsyn
    | false =>
      obtain ⟨d, hd, rfl, hparams⟩ := h.callee name f.paramCount id ⟨hfind, f, hf, hs, rfl⟩
      rw [find?_name_eq_some h.distinct hd]
      simp [h.tidy.fixed id f hf hs, hparams]

/-- An item that can be executed after definitions. -/
def Item.Accepted (ds : List FunctionDef) : Item → Prop
  | .function d => ¬ Reserved d.name ∧ d.name ∉ names ds ∧ Stmts.Accepted (Arity (ds ++ [d])) d.body
  | .statement st => st.Accepted (Arity ds)

def Item.rejection (ds : List FunctionDef) : Item → Option CompileError
  | .function d =>
    if Reserved d.name then some (.reservedName d.name)
    else if d.name ∈ names ds then some (.duplicateFunction d.name)
    else Stmts.rejection (complaint (ds ++ [d])) d.body
  | .statement st => st.rejection (complaint ds)

@[simp] theorem Program.functions_append (p q : Program) :
    Program.functions (p ++ q) = p.functions ++ q.functions :=
  List.filterMap_append

@[simp] theorem Program.statements_append (p q : Program) :
    Program.statements (p ++ q) = p.statements ++ q.statements :=
  List.filterMap_append

theorem Flow.Function.IsRoutine.reserved {f : Function} (h : f.IsRoutine) : Reserved f.name := by
  rcases h.name with hn | hn
  · rw [hn]
    exact reserved_printSymbol
  · rw [hn]
    exact reserved_powerSymbol

theorem Flow.Module.Bare.hides {m : Module} (h : m.Bare) : Hides m :=
  fun id f hf hs => (h id f hf hs).reserved

theorem define_globals {m m' : Module} {id : FuncId} {d : FunctionDef} {u : Unit}
    (h : Session.define m id d = (.ok u, m')) : m'.globals = m.globals := by
  unfold Session.define at h
  split at h
  · rw [(Prod.mk.inj h).2]
  · simpa [Scope.isGlobal] using lowerBody_globals h

section Functions
variable {e : Engine} {ds : List FunctionDef} {store store' : Store} {s s' : Session}
  {d : FunctionDef}

/-- What is left of an item leaves a session in order. -/
theorem InOrder.enlarge (h : InOrder e ds store s) (hm : Enlarges s.module s'.module)
    (hfew : s'.engine.globals.size ≤ s'.module.globals.size)
    (hshown : Shows s'.module (e.mapAll.world ds) store' (s'.engine.sync s'.module)) :
    InOrder e ds store' s' := by
  have ht := hm.tidy h.image.tidy
  refine ⟨⟨?_, fun d hd => ?_⟩, h.unreserved, h.bare.extends hm.toExtends, h.checked.enlarge hm ht,
    h.isolated.enlarge hm, hm.defined_eq ▸ h.defined, hfew, hshown⟩
  · exact h.image.of_callee_iff ht fun _ _ _ => hm.callee_iff h.image.tidy
  · obtain ⟨j, hj⟩ := h.image.implemented d hd
    exact ⟨j, hj.offers (offers_of_extends hm.toExtends h.image.tidy) (hm.same j)⟩

/-- What is left of a rejected item changes no value. -/
theorem InOrder.rejected (h : InOrder e ds store s) (hm : Enlarges s.module s'.module)
    (he : s'.engine = s.engine) : InOrder e ds store s' := by
  obtain ⟨new, hnew, -⟩ := hm.cells
  have hsize := hm.retains.cells
  have hfew := h.few
  refine h.enlarge hm (by rw [he]; omega) ?_
  rw [he, ← Engine.sync_sync h.few hnew]
  exact h.shown.sync hm.toExtends

/-- A function that has been declared and has got its body. -/
theorem InOrder.define {m : Module} {u : Unit} (h : InOrder e ds store s)
    (hr : ¬ Reserved d.name) (hn : s.module.find? d.name = none)
    (hrun : Session.define (s.module.push d.prototype).2 s.module.functions.size d = (.ok u, m))
    (hg : Grows s.module.functions.size (s.module.push d.prototype).2 m)
    (himpl : Implements m d s.module.functions.size) (hshape : Shaped m s.module.functions.size)
    (hlocal : ∀ g, m.function? s.module.functions.size = some g → ∀ i ∈ g.instrs.toList, i.Local) :
    InOrder e (ds ++ [d]) store { s with module := m } := by
  have hdecl := h.image.toDeclares.push hr hn
  have ht := hg.tidy hdecl.tidy
  have hoffers := (offers_push h.image.tidy hdecl.tidy).trans (offers_of_extends hg.toExtends hdecl.tidy)
  have hcells : m.globals = s.module.globals := (define_globals hrun).trans rfl
  refine ⟨⟨hdecl.of_callee_iff ht fun _ _ _ => hg.callee_iff hdecl.tidy, fun d' hd' => ?_⟩,
    fun d' hd' => ?_, (h.bare.push rfl).extends hg.toExtends, ?_, h.isolated.grows hg hlocal, ?_, ?_, ?_⟩
  · rcases List.mem_append.1 hd' with hd' | hd'
    · obtain ⟨j, hj⟩ := h.image.implemented d' hd'
      exact ⟨j, hj.offers hoffers (hg.same j)⟩
    · exact ⟨_, List.mem_singleton.1 hd' ▸ himpl⟩
  · rcases List.mem_append.1 hd' with hd' | hd'
    · exact h.unreserved d' hd'
    · rwa [List.mem_singleton.1 hd']
  · refine h.checked.grows hg ht fun f hf => (hshape f hf).imp_right ?_
    rintro ⟨D, rfl, hD⟩
    exact ⟨D, rfl, hD.finished⟩
  · rw [hg.defined_eq rfl, List.map_append, List.map_append, h.defined]
    rfl
  · rw [hcells]
    exact h.few
  · rw [Engine.sync_congr hcells]
    exact h.shown.of_globals hcells rfl rfl

/-- What a body that is rejected leaves behind is taken out again. -/
theorem InOrder.undefine {m : Module} {err : CompileError} (h : InOrder e ds store s)
    (hr : ¬ Reserved d.name) (hn : s.module.find? d.name = none)
    (hrun : Session.define (s.module.push d.prototype).2 s.module.functions.size d =
      (.error (.rejected err), m)) :
    Stmts.rejection (complaint (ds ++ [d])) d.body = some err ∧
      Enlarges s.module (m.erase s.module.functions.size).2 := by
  have hf : (s.module.push d.prototype).2.function? s.module.functions.size = some d.prototype := by
    simp [Module.function?_push]
  have hans := lowerBody_answers d.params d.body hf rfl (.inl rfl)
  rw [(h.image.toDeclares.push hr hn).complaint_eq] at hans
  unfold Session.define at hrun
  split at hrun
  · cases hrun
  · simp only [hrun] at hans
    exact ⟨hans.1, enlarges_erase hn (fun _ => rfl) (ne_printSymbol hr) (ne_powerSymbol hr)
      (hans.2.grows (ne_printSymbol hr) (ne_powerSymbol hr))⟩

/-- The body of a function uses no global cell. -/
theorem define_local {m m' : Module} {id : FuncId} {u : Unit}
    (hf : m.function? id = some d.prototype) (hrun : Session.define m id d = (.ok u, m')) :
    ∀ g, m'.function? id = some g → ∀ i ∈ g.instrs.toList, i.Local := by
  intro g hg i hi
  have hans := lowerBody_answers d.params d.body hf rfl (.inl rfl)
  unfold Session.define at hrun
  split at hrun
  · rw [← (Prod.mk.inj hrun).2, hf] at hg
    rw [← Option.some.inj hg] at hi
    simp [FunctionDef.prototype] at hi
  · simp only [hrun] at hans
    obtain ⟨D, hD, -, hlocal⟩ := hans.2.drawn
    rw [Option.some.inj (hg.symm.trans hD)] at hi
    exact hlocal rfl i (by simpa using hi)

/-- A function is added exactly if it is accepted. -/
theorem InOrder.addFunction (h : InOrder e ds store s) (d : FunctionDef) :
    match s.addFunction d with
    | (.ok _, s') => (Item.function d).Accepted ds ∧ InOrder e (ds ++ [d]) store s' ∧
        (∀ j f, s.module.function? j = some f → s'.module.function? j = some f) ∧
        s'.module.globals = s.module.globals ∧ s'.engine = s.engine
    | (.error diag, s') => ¬ (Item.function d).Accepted ds ∧
        (∃ err, (Item.function d).rejection ds = some err ∧ diag = err.diagnostic) ∧
        Enlarges s.module s'.module ∧ s'.engine = s.engine := by
  have hmem (hr : ¬ Reserved d.name) := h.image.mem_names_iff h.bare.hides hr
  unfold Session.addFunction Item.rejection
  by_cases hr : Reserved d.name
  · have herr : Session.prototype s.module d = .error (.reservedName d.name) := if_pos hr
    simp only [herr, if_pos hr]
    exact ⟨fun hacc => hacc.1 hr, ⟨_, rfl, rfl⟩, .refl _, trivial⟩
  cases hn : s.module.find? d.name with
  | some id =>
    have hold : d.name ∈ names ds := (hmem hr).2 (by simp [hn])
    have herr : Session.prototype s.module d = .error (.duplicateFunction d.name) := by
      have hno : ¬ reservedStart.toList.isPrefixOf d.name.toList = true := hr
      simp [Session.prototype, hno, Module.add?, hn]
    simp only [herr, if_neg hr, if_pos hold]
    exact ⟨fun hacc => hacc.2.1 hold, ⟨_, rfl, rfl⟩, .refl _, trivial⟩
  | none =>
    have hnew : d.name ∉ names ds := fun hd => (hmem hr).1 hd hn
    have hpush : Session.prototype s.module d =
        .ok (s.module.functions.size, (s.module.push d.prototype).2) := by
      rcases prototype_eq s.module d with ⟨hok, -⟩ | ⟨-, hbad⟩
      · exact hok
      · exact absurd hn (hbad.resolve_left hr)
    simp only [hpush, if_neg hr, if_neg hnew]
    have hdecl := h.image.toDeclares.push hr hn
    have hf : (s.module.push d.prototype).2.function? s.module.functions.size = some d.prototype := by
      simp [Module.function?_push]
    have hspec := define_spec hdecl.tidy hf hr
    rw [hdecl.callable_eq] at hspec
    rcases hrun : Session.define (s.module.push d.prototype).2 s.module.functions.size d with
      ⟨(err | err) | u, m⟩
    · simp only [hrun] at hspec ⊢
      obtain ⟨hrej, hm⟩ := h.undefine hr hn hrun
      exact ⟨fun hacc => hspec hacc.2.2, ⟨err, hrej, rfl⟩, hm, trivial⟩
    · simp only [hrun] at hspec
    · simp only [hrun] at hspec ⊢
      obtain ⟨hacc, hg, himpl, hshape⟩ := hspec
      exact ⟨⟨hr, hnew, hacc⟩, h.define hr hn hrun hg himpl hshape (define_local hf hrun), hg.same,
        (define_globals hrun).trans rfl, trivial⟩

end Functions

def wrapper (n : Nat) : Function :=
  { name := Session.anonymousName n, paramCount := 0, linkage := .internal, synthetic := true }

theorem toList_anonymousName (n : Nat) :
    (Session.anonymousName n).toList = "__garter_anonymous".toList ++ (toString n).toList := by
  simp only [Session.anonymousName, String.toList_append]
  rfl

theorem reserved_anonymousName (n : Nat) : Reserved (Session.anonymousName n) := by
  rw [Reserved, toList_anonymousName]
  rfl

theorem anonymousName_ne_printSymbol (n : Nat) : Session.anonymousName n ≠ printSymbol := by
  intro h
  have hlist := congrArg String.toList h
  rw [toList_anonymousName] at hlist
  cases hlist

theorem anonymousName_ne_powerSymbol (n : Nat) : Session.anonymousName n ≠ powerSymbol := by
  intro h
  have hlist := congrArg String.toList h
  rw [toList_anonymousName] at hlist
  cases hlist

/-- A statement in a function of its own, ready to run. -/
structure Wrapped (e : Engine) (ds : List FunctionDef) (store : Store) (s : Session) (st : Stmt)
    (id : FuncId) (m : Module) : Prop where
  linked : Linked m (e.mapAll.world ds)
  body : ∃ f, m.function? id = some f ∧ f.isDeclaration = false ∧
    BodyCode ⟨m, f, .globals⟩ [] [st]
  checked : m.Checked
  start : Shows m (e.mapAll.world ds) store (s.engine.sync m)
  enlarges : Enlarges s.module (m.erase id).2
  cells : m.globals = addCells s.module.globals (Stmts.names [st])

section Statements
variable {e : Engine} {ds : List FunctionDef} {store : Store} {s : Session} {st : Stmt} {m : Module}
  {id : FuncId} {n : Nat}

/-- Every function is a support routine or one that programs can define. -/
theorem InOrder.routine_or_unreserved (h : InOrder e ds store s) {f : Function}
    (hf : s.module.function? id = some f) : f.IsRoutine ∨ ¬ Reserved f.name := by
  cases hs : f.synthetic with
  | true => exact .inl (h.bare id f hf hs)
  | false =>
    have hcallee := h.image.tidy.callee_iff.2 ⟨f, hf, rfl, hs, rfl⟩
    obtain ⟨d, hd, hn, -⟩ := h.image.callee _ _ id hcallee
    exact .inr (hn ▸ h.unreserved d hd)

theorem InOrder.find?_anonymousName (h : InOrder e ds store s) (n : Nat) :
    s.module.find? (Session.anonymousName n) = none := by
  rw [Module.find?_eq_none_iff]
  intro j f hf hname
  rcases h.routine_or_unreserved hf with hr | hr
  · rcases hr.name with hn | hn
    · exact anonymousName_ne_printSymbol n (hname.symm.trans hn)
    · exact anonymousName_ne_powerSymbol n (hname.symm.trans hn)
  · exact hr (hname ▸ reserved_anonymousName n)

/-- A statement is wrapped exactly if it is accepted. -/
theorem InOrder.wrap (h : InOrder e ds store s) (st : Stmt) (n : Nat) :
    match lowerBody (s.module.push (wrapper n)).2 s.module.functions.size .globals [] [st] with
    | (.ok _, m) => st.Accepted (Arity ds) ∧ m.verify = .ok () ∧
        Wrapped e ds store s st s.module.functions.size m
    | (.error (.rejected err), m) => ¬ st.Accepted (Arity ds) ∧
        st.rejection (complaint ds) = some err ∧
        Enlarges s.module (m.erase s.module.functions.size).2
    | (.error (.misuse _), _) => False := by
  have hfree := h.find?_anonymousName n
  have hprint := anonymousName_ne_printSymbol n
  have hpower := anonymousName_ne_powerSymbol n
  have hdecl := h.image.toDeclares.push_synthetic (f := wrapper n) rfl hfree hprint hpower
  have hf : (s.module.push (wrapper n)).2.function? s.module.functions.size = some (wrapper n) := by
    simp [Module.function?_push]
  have hspec := lowerBody_spec [st] hdecl.tidy hf rfl rfl hprint hpower
    (.inr ⟨rfl, rfl⟩ : Scope.globals = .slots [] ∨ Scope.globals = .globals ∧ [] = [])
  have hans := lowerBody_answers [] [st] hf rfl
    (.inr rfl : Scope.globals = .slots [] ∨ Scope.globals = .globals)
  have hone : Stmts.Accepted (Arity ds) [st] ↔ st.Accepted (Arity ds) := and_iff_left trivial
  have hrej : Stmts.rejection (complaint ds) [st] = st.rejection (complaint ds) := Option.or_none
  rw [hdecl.callable_eq, hone] at hspec
  rw [hdecl.complaint_eq, hrej] at hans
  rcases hrun : lowerBody (s.module.push (wrapper n)).2 s.module.functions.size .globals [] [st] with
    ⟨(err | err) | u, m⟩
  · simp only [hrun] at hspec hans ⊢
    exact ⟨hspec, hans.1, enlarges_erase hfree (fun hs => by cases hs) hprint hpower
      (hans.2.grows hprint hpower)⟩
  · simp only [hrun] at hspec
  · simp only [hrun] at hspec ⊢
    obtain ⟨hacc, hlow⟩ := hspec
    have hg := hlow.grows
    have ht := hg.tidy hdecl.tidy
    obtain ⟨D, scope, hD, hcomplete, hle, hcode⟩ := hlow.code
    have hoffers := (offers_push h.image.tidy hdecl.tidy).trans (offers_of_extends hg.toExtends hdecl.tidy)
    have himage : Image m ds := by
      refine ⟨hdecl.of_callee_iff ht fun _ _ _ => hg.callee_iff hdecl.tidy, fun d hd => ?_⟩
      obtain ⟨j, hj⟩ := h.image.implemented d hd
      exact ⟨j, hj.offers hoffers (hg.same j)⟩
    have hchecked : m.Checked := h.checked.grows hg ht fun f hf =>
      .inr ⟨D, Option.some.inj (hf.symm.trans hD), hcomplete.finished⟩
    refine ⟨hacc, hchecked.verify_eq_ok, himage.linked_mapAll e,
      ⟨D.function, hD, hcomplete.not_isDeclaration, ?_⟩, hchecked, ?_,
      enlarges_erase hfree (fun hs => by cases hs) hprint hpower hg, lowerBody_globals hrun⟩
    · cases scope with
      | slots => exact hle.elim
      | globals => exact hcode
    · obtain ⟨new, hnew, -⟩ := hg.cells
      have hpushed : Shows (s.module.push (wrapper n)).2 (e.mapAll.world ds) store
          (s.engine.sync s.module) := h.shown.of_globals rfl rfl rfl
      rw [← Engine.sync_sync h.few hnew]
      exact hpushed.sync hg.toExtends

theorem InOrder.add?_wrapper (h : InOrder e ds store s) (n : Nat) :
    s.module.add? ⟨Session.anonymousName n, 0, .internal, false, true, #[], #[]⟩ =
      some (s.module.functions.size, (s.module.push (wrapper n)).2) := by
  unfold Module.add?
  simp only [h.find?_anonymousName n]
  rfl

def report (r : Except Fault Int32) : Except Diagnostic Unit :=
  (r.map fun _ => ()).mapError Fault.diagnostic

/-- An accepted statement is run in a function of its own. -/
theorem InOrder.runStatement_eq (h : InOrder e ds store s) (hacc : st.Accepted (Arity ds)) :
    ∃ id m, Wrapped e ds store s st id m ∧
      ∀ steps, s.runStatement steps st = (s.engine.run steps m id []).map fun x =>
        (report x.1, ⟨(m.erase id).2, s.statements + 1, x.2⟩) := by
  have hwrap := h.wrap st (s.statements + 1)
  have hadd := h.add?_wrapper (s.statements + 1)
  rcases hrun : lowerBody (s.module.push (wrapper (s.statements + 1))).2 s.module.functions.size
    .globals [] [st] with ⟨(err | err) | u, m⟩
  · simp only [hrun] at hwrap
    exact absurd hacc hwrap.1
  · simp only [hrun] at hwrap
  · simp only [hrun] at hwrap
    obtain ⟨-, hverify, hwrapped⟩ := hwrap
    refine ⟨_, m, hwrapped, fun steps => ?_⟩
    simp only [Session.runStatement, hadd, Session.runIn, hrun, hverify]
    rcases s.engine.run steps m s.module.functions.size [] with _ | ⟨f | v, e'⟩ <;> rfl

/-- A statement that is not accepted is reported as such. -/
theorem InOrder.runStatement_rejected (h : InOrder e ds store s)
    (hno : ¬ st.Accepted (Arity ds)) : ∃ err m, st.rejection (complaint ds) = some err ∧
      Enlarges s.module m ∧ ∀ steps, s.runStatement steps st =
        some (.error err.diagnostic, ⟨m, s.statements + 1, s.engine⟩) := by
  have hwrap := h.wrap st (s.statements + 1)
  have hadd := h.add?_wrapper (s.statements + 1)
  rcases hrun : lowerBody (s.module.push (wrapper (s.statements + 1))).2 s.module.functions.size
    .globals [] [st] with ⟨(err | err) | u, m⟩
  · simp only [hrun] at hwrap
    refine ⟨err, (m.erase s.module.functions.size).2, hwrap.2.1, hwrap.2.2, fun steps => ?_⟩
    simp only [Session.runStatement, hadd, Session.runIn, hrun]
    rfl
  · simp only [hrun] at hwrap
  · simp only [hrun] at hwrap
    exact absurd hwrap.1 hno

/-- A statement that has run leaves the store that its evaluation leaves. -/
theorem InOrder.ran (h : InOrder e ds store s) (hw : Wrapped e ds store s st id m) {store' : Store}
    {e' : Engine} (hs : Shows m (e.mapAll.world ds) store' e') :
    InOrder e ds store' ⟨(m.erase id).2, s.statements + 1, e'⟩ := by
  have hglobals : (m.erase id).2.globals = m.globals := Module.globals_erase
  have hsize : e'.globals.size = (m.erase id).2.globals.size := by
    rw [hglobals]
    exact hs.globals.size
  refine h.enlarge hw.enlarges (Nat.le_of_eq hsize) ?_
  change Shows _ _ _ (e'.sync (m.erase id).2)
  rw [Engine.sync_of_size hsize]
  exact hs.of_globals hglobals rfl rfl

end Statements

theorem Executed.initial {e : Engine} (name : String) (he : e.globals = #[]) :
    Executed e [] ⟨fun _ => 0, e.output⟩ (Session.new name e) := by
  have hno (id : FuncId) (f : Function) : (Session.new name e).module.function? id ≠ some f := by
    simp [Session.new, Module.function?]
  have hsize : (Session.new name e).engine.globals.size = (Session.new name e).module.globals.size := by
    change e.globals.size = 0
    rw [he]
    rfl
  refine ⟨⟨⟨declares_empty name, fun d hd => by cases hd⟩, fun d hd => absurd hd List.not_mem_nil,
    fun id f hf => absurd hf (hno id f), fun id f hf => absurd hf (hno id f),
    fun id f hf => absurd hf (hno id f), rfl, Nat.le_of_eq hsize, ?_⟩, rfl, hsize⟩
  rw [Engine.sync_of_size hsize]
  refine ⟨⟨rfl, rfl, rfl⟩, hsize, fun x g hg => ?_, fun x _ => rfl⟩
  simp [Session.new, Module.findGlobal?] at hg

end IntLang
