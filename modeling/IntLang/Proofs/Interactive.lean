import IntLang.Proofs.Sessions

/-! Items are executed one by one. As long as calls name functions which are there by then and no
statement returns, the session holds what evaluating the statements so far gives. -/
namespace IntLang
open IntLang.Flow IntLang.Machine IntLang.Meaning IntLang.Code

def Session.executeAll (s : Session) (steps : Nat) :
    List Item → Option (List (Except Diagnostic Unit) × Session)
  | [] => some ([], s)
  | item :: items => (s.execute steps item).bind fun x =>
    (x.2.executeAll steps items).map fun y => (x.1 :: y.1, y.2)

/-- The first item that fails does so with `d` and leaves `s'`. -/
def Session.FailsAt (s : Session) (steps : Nat) : List Item → Diagnostic → Session → Prop
  | [], _, _ => False
  | item :: items, d, s' => s.execute steps item = some (.error d, s') ∨
      ∃ s₁, s.execute steps item = some (.ok (), s₁) ∧ s₁.FailsAt steps items d s'

/-- Items that can be executed one after the other. -/
def Items.Accepted : List FunctionDef → List Item → Prop
  | _, [] => True
  | ds, item :: items => item.Accepted ds ∧ Items.Accepted (ds ++ Program.functions [item]) items

def Item.calls : Item → List String
  | .function d => Stmts.calls d.body
  | .statement st => st.calls

/-- Every call names a function of `ds`, of its own item or of an earlier one. -/
def Items.CallBack : List FunctionDef → List Item → Prop
  | _, [] => True
  | ds, item :: items => (∀ f ∈ item.calls, f ∈ names (ds ++ Program.functions [item])) ∧
      Items.CallBack (ds ++ Program.functions [item]) items

theorem Session.executeAll_cons {s s₁ s' : Session} {steps : Nat} {item : Item} {items : List Item}
    {r : Except Diagnostic Unit} {rs : List (Except Diagnostic Unit)}
    (h : s.execute steps item = some (r, s₁)) (h' : s₁.executeAll steps items = some (rs, s')) :
    s.executeAll steps (item :: items) = some (r :: rs, s') := by
  rw [Session.executeAll, h, Option.bind_some, h']
  rfl

theorem Session.executeAll_cons_inv {s s' : Session} {steps : Nat} {item : Item} {items : List Item}
    {rs : List (Except Diagnostic Unit)} (h : s.executeAll steps (item :: items) = some (rs, s')) :
    ∃ r s₁ rs', s.execute steps item = some (r, s₁) ∧ s₁.executeAll steps items = some (rs', s') ∧
      rs = r :: rs' := by
  obtain ⟨⟨r, s₁⟩, hitem, hrest⟩ := Option.bind_eq_some_iff.1 h
  obtain ⟨⟨rs', s₂⟩, hitems, hres⟩ := Option.map_eq_some_iff.1 hrest
  obtain ⟨rfl, rfl⟩ := Prod.mk.inj hres
  exact ⟨r, s₁, rs', hitem, hitems, rfl⟩

/-- What an accepted item leaves of the session. -/
structure Grown (item : Item) (s s' : Session) : Prop where
  same : ∀ j f, s.module.function? j = some f → s'.module.function? j = some f
  cells : s'.module.globals = addCells s.module.globals (Stmts.names (Program.statements [item]))
  full : s.engine.globals.size = s.module.globals.size →
    s'.engine.globals.size = s'.module.globals.size

theorem Executed.grown {e : Engine} {done : Program} {store store' : Store} {s s' : Session}
    {item : Item} (h : Executed e done store s)
    (hs : InOrder e (done.functions ++ Program.functions [item]) store' s') (hg : Grown item s s') :
    Executed e (done ++ [item]) store' s' := by
  rw [← Program.functions_append] at hs
  refine ⟨hs, ?_, hg.full h.full⟩
  rw [hg.cells, h.cells, Program.statements_append, Stmts.names_append, addCells_append]

section Items
variable {e : Engine} {ds : List FunctionDef} {store store' : Store} {s s' : Session} {item : Item}
  {steps n : Nat}

/-- An item that is not accepted is reported as such. -/
theorem InOrder.execute_rejected (h : InOrder e ds store s) (hno : ¬ item.Accepted ds) :
    ∃ err s', item.rejection ds = some err ∧
      (∀ steps, s.execute steps item = some (.error err.diagnostic, s')) ∧
      Enlarges s.module s'.module ∧ s'.engine = s.engine := by
  cases item with
  | statement st =>
    obtain ⟨err, m, hrej, hm, hrun⟩ := h.runStatement_rejected hno
    exact ⟨err, _, hrej, hrun, hm, rfl⟩
  | function d =>
    have hadd := h.addFunction d
    rcases hrun : s.addFunction d with ⟨diag | u, s'⟩
    · simp only [hrun] at hadd
      obtain ⟨-, ⟨err, hrej, rfl⟩, hm, he⟩ := hadd
      exact ⟨err, s', hrej, fun steps => congrArg some hrun, hm, he⟩
    · simp only [hrun] at hadd
      exact absurd hadd.1 hno

theorem InOrder.execute_function (h : InOrder e ds store s) {d : FunctionDef}
    (hacc : (Item.function d).Accepted ds) :
    ∃ s', (∀ steps, s.execute steps (.function d) = some (.ok (), s')) ∧
      InOrder e (ds ++ [d]) store s' ∧ Grown (.function d) s s' := by
  have hadd := h.addFunction d
  rcases hrun : s.addFunction d with ⟨diag | u, s'⟩
  · simp only [hrun] at hadd
    exact absurd hacc hadd.1
  · simp only [hrun] at hadd
    obtain ⟨-, hs', hsame, hcells, he⟩ := hadd
    refine ⟨s', fun steps => congrArg some hrun, hs', hsame, hcells, fun hfull => ?_⟩
    rw [he, hcells]
    exact hfull

theorem Wrapped.grown {st : Stmt} {id : FuncId} {m : Module} (hw : Wrapped e ds store s st id m)
    {e' : Engine} (hs : Shows m (e.mapAll.world ds) store' e') :
    Grown (.statement st) s ⟨(m.erase id).2, s.statements + 1, e'⟩ where
  same := hw.enlarges.same
  cells := Module.globals_erase.trans hw.cells
  full := fun _ => hs.globals.size.trans (congrArg Array.size Module.globals_erase.symm)

/-- What executing an item gives, evaluating it gives. -/
theorem InOrder.eval_of_execute (h : InOrder e ds store s) (hacc : item.Accepted ds)
    {r : Except Diagnostic Unit} (hrun : s.execute steps item = some (r, s')) :
    ∃ v store', (topLevel (e.mapAll.world ds) steps (Program.statements [item])
        store).map outcome = some (v, store') ∧ r = report v ∧
      InOrder e (ds ++ Program.functions [item]) store' s' ∧ Grown item s s' := by
  cases item with
  | function d =>
    obtain ⟨s₁, hexec, hdone, hgrown⟩ := h.execute_function hacc
    obtain ⟨rfl, rfl⟩ := Prod.mk.inj (Option.some.inj ((hexec steps).symm.trans hrun))
    refine ⟨.ok 0, store, ?_, rfl, hdone, hgrown⟩
    change (topLevel _ steps [] store).map outcome = _
    rw [topLevel, stmts]
    rfl
  | statement st =>
    obtain ⟨id, m, hwrap, hexec⟩ := h.runStatement_eq hacc
    obtain ⟨f, hf, hd, hb⟩ := hwrap.body
    have heq : (s.engine.run steps m id []).map _ = some (r, s') := (hexec steps).symm.trans hrun
    obtain ⟨⟨v, e'⟩, hrun', hres⟩ := Option.map_eq_some_iff.1 heq
    obtain ⟨rfl, rfl⟩ := Prod.mk.inj hres
    obtain ⟨store', heval, hshows⟩ := topLevel_of_run hwrap.linked hf hd hb hwrap.start hrun'
    refine ⟨v, store', heval, rfl, ?_, hwrap.grown hshows⟩
    change InOrder e (ds ++ []) _ _
    rw [List.append_nil]
    exact h.ran hwrap hshows

/-- What evaluating an item gives, executing it gives. -/
theorem InOrder.execute_of_eval (h : InOrder e ds store s) (hacc : item.Accepted ds)
    {v : Except Fault Int32}
    (heval : (topLevel (e.mapAll.world ds) n (Program.statements [item]) store).map
      outcome = some (v, store')) :
    ∃ steps s', s.execute steps item = some (report v, s') ∧
      InOrder e (ds ++ Program.functions [item]) store' s' ∧ Grown item s s' := by
  cases item with
  | function d =>
    obtain ⟨s₁, hexec, hdone, hgrown⟩ := h.execute_function hacc
    change (topLevel _ n [] store).map outcome = _ at heval
    rw [topLevel, stmts] at heval
    obtain ⟨rfl, rfl⟩ := Prod.mk.inj (Option.some.inj heval)
    exact ⟨0, s₁, hexec 0, hdone, hgrown⟩
  | statement st =>
    obtain ⟨id, m, hwrap, hexec⟩ := h.runStatement_eq hacc
    obtain ⟨f, hf, hd, hb⟩ := hwrap.body
    obtain ⟨k, e', hrun, hshows⟩ := run_of_topLevel hwrap.linked hf hd hb hwrap.start heval
    refine ⟨k, _, (hexec k).trans ?_, ?_, hwrap.grown hshows⟩
    · rw [hrun]
      rfl
    · change InOrder e (ds ++ []) _ _
      rw [List.append_nil]
      exact h.ran hwrap hshows

/-- A larger bound on the steps changes nothing. -/
theorem InOrder.execute_mono (h : InOrder e ds store s) {x : Except Diagnostic Unit × Session}
    (hrun : s.execute n item = some x) (hn : n ≤ steps) : s.execute steps item = some x := by
  by_cases hacc : item.Accepted ds
  · cases item with
    | function d => exact hrun
    | statement st =>
      obtain ⟨id, m, hwrap, hexec⟩ := h.runStatement_eq hacc
      obtain ⟨f, hf, hd, -⟩ := hwrap.body
      have heq : (s.engine.run n m id []).map _ = some x := (hexec n).symm.trans hrun
      obtain ⟨y, hy, hx⟩ := Option.map_eq_some_iff.1 heq
      rw [run_entry hf hd] at hy
      refine (hexec steps).trans ?_
      rw [run_entry hf hd, Config.run_mono hy hn, ← hx]
      rfl
  · obtain ⟨err, s', -, hexec, -⟩ := h.execute_rejected hacc
    rw [hexec steps, ← hexec n, hrun]

end Items

section Executed
variable {e : Engine} {done : Program} {store store' : Store} {s s' : Session} {item : Item}
  {steps n : Nat}

theorem Executed.eval_of_execute (h : Executed e done store s) (hacc : item.Accepted done.functions)
    {r : Except Diagnostic Unit} (hrun : s.execute steps item = some (r, s')) :
    ∃ v store', (topLevel (e.mapAll.world done.functions) steps (Program.statements [item])
        store).map outcome = some (v, store') ∧ r = report v ∧
      Executed e (done ++ [item]) store' s' := by
  obtain ⟨v, store', heval, hr, hs', hg⟩ := h.toInOrder.eval_of_execute hacc hrun
  exact ⟨v, store', heval, hr, h.grown hs' hg⟩

theorem Executed.execute_of_eval (h : Executed e done store s) (hacc : item.Accepted done.functions)
    {v : Except Fault Int32}
    (heval : (topLevel (e.mapAll.world done.functions) n (Program.statements [item]) store).map
      outcome = some (v, store')) :
    ∃ steps s', s.execute steps item = some (report v, s') ∧
      Executed e (done ++ [item]) store' s' := by
  obtain ⟨steps, s', hrun, hs', hg⟩ := h.toInOrder.execute_of_eval hacc heval
  exact ⟨steps, s', hrun, h.grown hs' hg⟩

end Executed

/-- Items that can be executed after definitions, and keep to the conditions on calls and returns. -/
structure Orderly (ds : List FunctionDef) (items : List Item) : Prop where
  selfcontained : Selfcontained ds
  accepted : Items.Accepted ds items
  calls : Items.CallBack ds items
  noReturn : Stmts.NoReturn (Program.statements items)

theorem Program.statements_cons (item : Item) (items : List Item) :
    Program.statements (item :: items) = Program.statements [item] ++ Program.statements items :=
  Program.statements_append [item] items

theorem Stmts.noReturn_append {ss ss' : List Stmt} :
    Stmts.NoReturn (ss ++ ss') ↔ Stmts.NoReturn ss ∧ Stmts.NoReturn ss' := by
  induction ss with
  | nil => simp [Stmts.NoReturn]
  | cons s ss ih => simp only [List.cons_append, Stmts.NoReturn, ih, and_assoc]

theorem Meaning.mem_names_append {ds ds' : List FunctionDef} {f : String} (h : f ∈ names ds) :
    f ∈ names (ds ++ ds') := by
  unfold names at h ⊢
  rw [List.map_append]
  exact List.mem_append_left _ h

section Orderly
variable {ds : List FunctionDef} {item : Item} {items : List Item}

theorem Orderly.noReturn_item (h : Orderly ds (item :: items)) :
    Stmts.NoReturn (Program.statements [item]) := by
  have hall := h.noReturn
  rw [Program.statements_cons, Stmts.noReturn_append] at hall
  exact hall.1

theorem Orderly.tail (h : Orderly ds (item :: items)) :
    Orderly (ds ++ Program.functions [item]) items := by
  have hall := h.noReturn
  rw [Program.statements_cons, Stmts.noReturn_append] at hall
  refine ⟨fun d hd f hf => ?_, h.accepted.2, h.calls.2, hall.2⟩
  rcases List.mem_append.1 hd with hd | hd
  · exact mem_names_append (h.selfcontained d hd f hf)
  · refine h.calls.1 f ?_
    cases item with
    | function d' => exact List.mem_singleton.1 hd ▸ hf
    | statement st => cases hd

/-- Later definitions make no difference to an item. -/
theorem Orderly.topLevel_eq (h : Orderly ds (item :: items)) (e : Engine) (n : Nat) :
    topLevel (e.world ds) n (Program.statements [item]) =
      topLevel (e.world (ds ++ Program.functions (item :: items))) n (Program.statements [item]) := by
  refine topLevel_append h.selfcontained n fun f hf => ?_
  cases item with
  | function d => cases hf
  | statement st =>
    have hmem : f ∈ st.calls := by simpa [Program.statements, Stmts.calls] using hf
    simpa [Program.functions] using h.calls.1 f hmem

end Orderly

section Runs
variable {e : Engine} {done : Program} {store store' : Store} {s s' : Session} {item : Item}
  {items : List Item} {steps n : Nat}

/-- Without a return the only value is zero. -/
theorem Meaning.topLevel_of_outcome {w : World} {ss : List Stmt} (hss : Stmts.NoReturn ss)
    {v : Except Fault Int32} (h : (topLevel w n ss store).map outcome = some (v, store')) :
    topLevel w n ss store = some (v.map fun _ => none, store') := by
  have hgo : GoesOn (topLevel w n ss) := goesOn_stmts ss hss
  obtain ⟨⟨r, s₁⟩, hrun, hout⟩ := Option.map_eq_some_iff.1 h
  obtain ⟨rfl, rfl⟩ := Prod.mk.inj hout
  rw [hrun]
  cases r with
  | error f => rfl
  | ok r =>
    obtain rfl := hgo _ _ _ hrun
    rfl

/-- The first item, and then the others, in the world of all. -/
theorem Orderly.topLevel_cons (h : Orderly done.functions (item :: items)) (e : Engine) (n : Nat)
    (store : Store) :
    topLevel (e.world (Program.functions (done ++ item :: items))) n
        (Program.statements (item :: items)) store =
      (topLevel (e.world done.functions) n (Program.statements [item]) >>= fun _ =>
        topLevel (e.world (Program.functions (done ++ item :: items))) n
          (Program.statements items)) store := by
  rw [h.topLevel_eq e n, Program.statements_cons, Program.functions_append]
  exact stmts_append _ _ store h.noReturn_item

theorem append_cons (done : Program) (item : Item) (items : List Item) :
    done ++ item :: items = (done ++ [item]) ++ items := by
  simp

theorem Executed.orderly_tail (h : Orderly done.functions (item :: items)) :
    Orderly (Program.functions (done ++ [item])) items := by
  rw [Program.functions_append]
  exact h.tail

/-- If every item comes to its end, so do the statements of all. -/
theorem Executed.eval_of_executeAll : ∀ (items : List Item) {done : Program} {store : Store}
    {s s' : Session} {rs : List (Except Diagnostic Unit)}, Executed e done store s →
    Orderly done.functions items → s.executeAll steps items = some (rs, s') →
    (∀ r ∈ rs, r = .ok ()) →
    ∃ store', topLevel (e.mapAll.world (Program.functions (done ++ items))) steps
        (Program.statements items) store = some (.ok none, store') ∧
      Executed e (done ++ items) store' s'
  | [], done, store, s, s', rs, h, ho, hrun, _ => by
    obtain ⟨-, rfl⟩ := Prod.mk.inj (Option.some.inj hrun)
    refine ⟨store, ?_, by rwa [List.append_nil]⟩
    change topLevel _ steps [] store = _
    rw [topLevel, stmts]
    rfl
  | item :: items, done, store, s, s', rs, h, ho, hrun, hok => by
    obtain ⟨r, s₁, rs', hitem, hrest, rfl⟩ := Session.executeAll_cons_inv hrun
    obtain ⟨v, store₁, heval, hr, hdone⟩ := h.eval_of_execute ho.accepted.1 hitem
    have hv := topLevel_of_outcome ho.noReturn_item heval
    obtain ⟨store', hothers, hall⟩ := Executed.eval_of_executeAll items hdone (orderly_tail ho)
      hrest fun r hr => hok r (List.mem_cons_of_mem _ hr)
    rw [← append_cons] at hothers hall
    refine ⟨store', ?_, hall⟩
    rw [ho.topLevel_cons, bind_apply, hv]
    cases v with
    | ok v => exact hothers
    | error f =>
      have hbad : report (.error f) = .ok () := hr ▸ hok r List.mem_cons_self
      cases hbad

/-- If the statements of all come to their end, so does every item. -/
theorem Executed.executeAll_of_eval : ∀ (items : List Item) {done : Program} {store store' : Store}
    {s : Session}, Executed e done store s → Orderly done.functions items →
    topLevel (e.mapAll.world (Program.functions (done ++ items))) n (Program.statements items) store =
      some (.ok none, store') →
    ∃ k, ∀ steps, k ≤ steps → ∃ rs s', s.executeAll steps items = some (rs, s') ∧
      (∀ r ∈ rs, r = .ok ()) ∧ Executed e (done ++ items) store' s'
  | [], done, store, store', s, h, ho, heval => by
    change topLevel _ n [] store = _ at heval
    rw [topLevel, stmts] at heval
    obtain ⟨-, rfl⟩ := Prod.mk.inj (Option.some.inj heval)
    exact ⟨0, fun steps _ => ⟨[], s, rfl, by simp, by rwa [List.append_nil]⟩⟩
  | item :: items, done, store, store', s, h, ho, heval => by
    rw [ho.topLevel_cons, bind_apply] at heval
    rcases hfirst : topLevel (e.mapAll.world done.functions) n (Program.statements [item]) store with
      _ | ⟨f | v, store₁⟩
    · simp [hfirst] at heval
    · simp [hfirst] at heval
    · rw [hfirst] at heval
      have hout : (topLevel (e.mapAll.world done.functions) n (Program.statements [item]) store).map
          outcome = some (.ok (v.getD 0), store₁) := by
        rw [hfirst]
        rfl
      obtain ⟨k, s₁, hitem, hdone⟩ := h.execute_of_eval ho.accepted.1 hout
      rw [append_cons] at heval
      obtain ⟨k', hrest⟩ := Executed.executeAll_of_eval items hdone (orderly_tail ho) heval
      refine ⟨max k k', fun steps hsteps => ?_⟩
      obtain ⟨rs, s', hrun, hok, hall⟩ := hrest steps (by omega)
      have hitem' := h.execute_mono hitem (Nat.le_trans (Nat.le_max_left k k') hsteps)
      rw [← append_cons] at hall
      refine ⟨_, s', Session.executeAll_cons hitem' hrun, fun r hr => ?_, hall⟩
      rcases List.mem_cons.1 hr with rfl | hr
      · rfl
      · exact hok r hr

/-- If an item is the first to fault, so do the statements of all. -/
theorem Executed.eval_of_failsAt : ∀ (items : List Item) {done : Program} {store : Store}
    {s s' : Session} {d : Diagnostic}, Executed e done store s → Orderly done.functions items →
    s.FailsAt steps items d s' →
    ∃ f store' upto, topLevel (e.mapAll.world (Program.functions (done ++ items))) steps
        (Program.statements items) store = some (.error f, store') ∧ d = f.diagnostic ∧
      upto <+: done ++ items ∧ Executed e upto store' s'
  | [], _, _, _, _, _, _, _, hfail => hfail.elim
  | item :: items, done, store, s, s', d, h, ho, hfail => by
    rcases hfail with hitem | ⟨s₁, hitem, hrest⟩
    · obtain ⟨v, store₁, heval, hr, hdone⟩ := h.eval_of_execute ho.accepted.1 hitem
      have hv := topLevel_of_outcome ho.noReturn_item heval
      cases v with
      | ok v => cases hr
      | error f =>
        refine ⟨f, store₁, done ++ [item], ?_, Except.error.inj hr,
          ⟨items, (append_cons done item items).symm⟩, hdone⟩
        rw [ho.topLevel_cons, bind_apply, hv]
        rfl
    · obtain ⟨v, store₁, heval, hr, hdone⟩ := h.eval_of_execute ho.accepted.1 hitem
      have hv := topLevel_of_outcome ho.noReturn_item heval
      cases v with
      | error f => cases hr
      | ok v =>
        obtain ⟨f, store', upto, hothers, hd, hprefix, hlast⟩ :=
          Executed.eval_of_failsAt items hdone (orderly_tail ho) hrest
        rw [← append_cons] at hothers hprefix
        refine ⟨f, store', upto, ?_, hd, hprefix, hlast⟩
        rw [ho.topLevel_cons, bind_apply, hv]
        exact hothers

/-- If the statements of all fault, an item is the first to do so. -/
theorem Executed.failsAt_of_eval : ∀ (items : List Item) {done : Program} {store store' : Store}
    {s : Session} {f : Fault}, Executed e done store s → Orderly done.functions items →
    topLevel (e.mapAll.world (Program.functions (done ++ items))) n (Program.statements items) store =
      some (.error f, store') →
    ∃ k, ∀ steps, k ≤ steps → ∃ s' upto, s.FailsAt steps items f.diagnostic s' ∧
      upto <+: done ++ items ∧ Executed e upto store' s'
  | [], done, store, store', s, f, h, ho, heval => by
    change topLevel _ n [] store = _ at heval
    rw [topLevel, stmts] at heval
    cases heval
  | item :: items, done, store, store', s, f, h, ho, heval => by
    rw [ho.topLevel_cons, bind_apply] at heval
    rcases hfirst : topLevel (e.mapAll.world done.functions) n (Program.statements [item]) store with
      _ | ⟨r, store₁⟩
    · simp [hfirst] at heval
    have hout : (topLevel (e.mapAll.world done.functions) n (Program.statements [item]) store).map
        outcome = some (outcome (r, store₁)) := by
      rw [hfirst]
      rfl
    obtain ⟨k, s₁, hitem, hdone⟩ := h.execute_of_eval ho.accepted.1 hout
    have hmono (steps : Nat) (hk : k ≤ steps) := h.execute_mono hitem hk
    cases r with
    | error f' =>
      simp only [hfirst, Option.some.injEq, Prod.mk.injEq, Except.error.injEq] at heval
      obtain ⟨rfl, rfl⟩ := heval
      exact ⟨k, fun steps hsteps => ⟨s₁, done ++ [item], .inl (hmono steps hsteps),
        ⟨items, (append_cons done item items).symm⟩, hdone⟩⟩
    | ok v =>
      simp only [hfirst] at heval
      rw [append_cons] at heval
      obtain ⟨k', hrest⟩ := Executed.failsAt_of_eval items hdone (orderly_tail ho) heval
      refine ⟨max k k', fun steps hsteps => ?_⟩
      obtain ⟨s', upto, hfail, hprefix, hlast⟩ := hrest steps (by omega)
      rw [← append_cons] at hprefix
      exact ⟨s', upto, .inr ⟨s₁, hmono steps (by omega), hfail⟩, hprefix, hlast⟩

/-- Some item is reported to be wrong exactly if not all of them are accepted. -/
theorem Executed.semantic_iff : ∀ (items : List Item) {done : Program} {store : Store}
    {s s' : Session} {rs : List (Except Diagnostic Unit)}, Executed e done store s →
    s.executeAll steps items = some (rs, s') →
    ((∃ d, .error d ∈ rs ∧ d.stage = .semantic) ↔ ¬ Items.Accepted done.functions items)
  | [], done, store, s, s', rs, h, hrun => by
    obtain ⟨rfl, -⟩ := Prod.mk.inj (Option.some.inj hrun)
    simp [Items.Accepted]
  | item :: items, done, store, s, s', rs, h, hrun => by
    obtain ⟨r, s₁, rs', hitem, hrest, rfl⟩ := Session.executeAll_cons_inv hrun
    by_cases hacc : item.Accepted done.functions
    · obtain ⟨v, store₁, -, rfl, hdone⟩ := h.eval_of_execute hacc hitem
      have hothers := Executed.semantic_iff items hdone hrest
      rw [Program.functions_append] at hothers
      rw [Items.Accepted, and_iff_right hacc, ← hothers]
      refine exists_congr fun d => and_congr_left fun hd => ?_
      have hne : Except.error d ≠ report v := by
        rintro hv
        cases v with
        | ok v => cases hv
        | error f =>
          rw [Except.error.inj hv] at hd
          cases hd
      rw [List.mem_cons, or_iff_right hne]
    · obtain ⟨err, s₂, -, hexec, -⟩ := h.execute_rejected hacc
      obtain ⟨rfl, -⟩ := Prod.mk.inj (Option.some.inj ((hexec steps).symm.trans hitem))
      exact ⟨fun _ hall => hacc hall.1, fun _ => ⟨err.diagnostic, List.mem_cons_self, rfl⟩⟩

end Runs
end IntLang
