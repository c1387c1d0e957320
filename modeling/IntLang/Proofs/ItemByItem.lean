import IntLang.Proofs.Interactive

/-! Executing the items of a program one by one agrees with compiling the program and running its entry
point, provided that calls name functions which are there by then and no statement returns. -/
namespace IntLang
open IntLang.Flow IntLang.Machine IntLang.Meaning IntLang.Code

section Cells
variable {gs : Array Global} {m : Module} {w : World} {store : Store}

def Distinct (gs : Array Global) : Prop :=
  (gs.toList.map (·.name)).Nodup

theorem any_name_iff (gs : Array Global) (x : String) :
    gs.any (·.name == x) = true ↔ x ∈ gs.toList.map (·.name) := by
  rw [← Array.any_toList, List.any_eq_true, List.mem_map]
  exact exists_congr fun g => and_congr_right' beq_iff_eq

theorem Distinct.addCell (h : Distinct gs) (x : String) : Distinct (addCell gs x) := by
  unfold IntLang.addCell
  split
  · exact h
  · next hx =>
    rw [any_name_iff] at hx
    simp only [Distinct, Array.toList_push, List.map_append, List.map_cons, List.map_nil]
    exact List.nodup_append.2 ⟨h, by simp, fun a ha b hb hab =>
      hx (List.mem_singleton.1 hb ▸ hab ▸ ha)⟩

theorem Distinct.addCells (h : Distinct gs) (xs : List String) : Distinct (addCells gs xs) := by
  induction xs generalizing gs with
  | nil => exact h
  | cons x xs ih => exact ih (h.addCell x)

theorem Code.Shows.globalValues_eq {s : Session} (h : Shows s.module w store s.engine)
    (hd : Distinct s.module.globals) :
    s.globalValues = s.module.globals.toList.map fun g => (g.name, store.vars g.name) := by
  unfold Session.globalValues
  rw [h.sync_eq]
  have hsize := h.globals.size
  refine List.ext_getElem (by simp [hsize]) fun g hg _ => ?_
  have hlt : g < s.module.globals.size := by simp at hg; omega
  have hcell := h.globals.cell _ g (Module.findGlobal?_of_nodup hd hlt)
  rw [Array.getElem?_eq_getElem (hsize.symm ▸ hlt)] at hcell
  simpa using Option.some.inj hcell

/-- Of a module with more cells, the others have kept their zero. -/
theorem Code.Shows.globalValues_append {s t : Session} {w' : World} {xs : List String}
    (hs : Shows s.module w store s.engine) (ht : Shows t.module w' store t.engine)
    (hd : Distinct s.module.globals) (hcells : t.module.globals = addCells s.module.globals xs) :
    ∃ ys : List String, t.globalValues = s.globalValues ++ ys.map (·, 0) := by
  have hd' : Distinct t.module.globals := hcells ▸ hd.addCells xs
  obtain ⟨ys, hys⟩ := addCells_eq s.module.globals xs
  rw [← hcells] at hys
  refine ⟨ys, ?_⟩
  rw [hs.globalValues_eq hd, ht.globalValues_eq hd', hys, List.map_append, List.map_map]
  refine congrArg _ (List.map_congr_left fun y hy => ?_)
  have hnew : s.module.findGlobal? y = none := by
    refine Array.findIdx?_eq_none_iff.2 fun g hg => ?_
    rw [Distinct, hys, List.map_append, List.nodup_append] at hd'
    simpa using hd'.2.2 g.name (List.mem_map_of_mem hg.val) y (by simpa using hy)
  exact congrArg (y, ·) (hs.globals.unseen y hnew)

end Cells

theorem defineAll_globals : ∀ (fs : List (FuncId × FunctionDef)) {m m' : Module} {u : Unit},
    Session.defineAll m fs = (.ok u, m') → m'.globals = m.globals
  | [], m, m', u, h => by rw [← (Prod.mk.inj h).2]
  | (id, d) :: fs, m, m', u, h => by
    rw [Session.defineAll] at h
    split at h
    · next m₁ hrun => exact (defineAll_globals fs h).trans (define_globals hrun)
    · cases h

/-- A compiled module has the cells of the statements. -/
theorem compileInto_globals {name : String} {p : Program} {m : Module} {u : Unit}
    (h : Session.compileInto { name } p = (.ok u, m)) :
    m.globals = addCells #[] (Stmts.names p.statements) := by
  have hproto := prototypes_spec p.functions (declares_empty name) (hides_empty name)
  unfold Session.compileInto at h
  split at h
  · cases h
  · next ids m₁ hrun =>
    simp only [hrun] at hproto
    have hnone : m₁.globals = #[] := hproto.2.2.2.globals
    unfold Module.add? at h
    split at h
    · cases h
    · next main m₂ hadd =>
      split at hadd
      · cases hadd
      · obtain ⟨-, rfl⟩ := Prod.mk.inj (Option.some.inj hadd)
        split at h
        · cases h
        · next m₃ hbodies =>
          split at h
          · cases h
          · next m₄ hbody =>
            obtain ⟨-, rfl⟩ := Prod.mk.inj h
            have hsame : m₃.globals = m₁.globals := (defineAll_globals _ hbodies).trans rfl
            rw [lowerBody_globals hbody, hsame, hnone]
            rfl

/-- Definitions with names of their own allow the same calls of the first ones, with more or without. -/
theorem sameCalls_append {ds more : List FunctionDef} {fs : List String}
    (hnodup : (names (ds ++ more)).Nodup) (hfs : ∀ f ∈ fs, f ∈ names ds) :
    SameCalls (Arity ds) (Arity (ds ++ more)) fs := by
  intro f hf n
  constructor
  · rintro ⟨d, hd, hrest⟩
    exact ⟨d, List.mem_append_left more hd, hrest⟩
  · rintro ⟨d, hd, rfl, hn⟩
    rcases List.mem_append.1 hd with hd | hd
    · exact ⟨d, hd, rfl, hn⟩
    · rw [names, List.map_append, List.nodup_append] at hnodup
      exact absurd rfl (hnodup.2.2 d.name (hfs d.name hf) d.name (List.mem_map_of_mem hd))

theorem names_append (ds more : List FunctionDef) : names (ds ++ more) = names ds ++ names more :=
  List.map_append

theorem nodup_names_snoc {ds : List FunctionDef} {d : FunctionDef} (h : (names ds).Nodup)
    (hd : d.name ∉ names ds) : (names (ds ++ [d])).Nodup := by
  rw [names_append]
  refine List.nodup_append.2 ⟨h, List.pairwise_singleton _ _, ?_⟩
  intro a ha b hb hab
  obtain rfl : b = d.name := List.mem_singleton.1 hb
  exact hd (hab ▸ ha)

/-- Items that are accepted together. -/
structure Items.Together (ds : List FunctionDef) (items : List Item) : Prop where
  distinct : (names (ds ++ Program.functions items)).Nodup
  bodies : ∀ d ∈ Program.functions items, ¬ Reserved d.name ∧
    Stmts.Accepted (Arity (ds ++ Program.functions items)) d.body
  statements : Stmts.Accepted (Arity (ds ++ Program.functions items)) (Program.statements items)

/-- Items are accepted one after the other exactly if they are accepted together. -/
theorem Items.accepted_iff : ∀ (items : List Item) {ds : List FunctionDef}, (names ds).Nodup →
    Items.CallBack ds items → (Items.Accepted ds items ↔ Items.Together ds items)
  | [], ds, hds, _ => by
    refine ⟨fun _ => ⟨?_, fun d hd => (by cases hd), trivial⟩, fun _ => trivial⟩
    rwa [show Program.functions [] = [] from rfl, List.append_nil]
  | .function d :: items, ds, hds, hcalls => by
    have hfs : ds ++ Program.functions (.function d :: items) =
        (ds ++ [d]) ++ Program.functions items := by
      rw [List.append_assoc]
      rfl
    have hsame (hall : (names (ds ++ [d] ++ Program.functions items)).Nodup) :=
      Stmts.accepted_congr d.body (sameCalls_append hall hcalls.1)
    constructor
    · rintro ⟨⟨hr, hnew, hbody⟩, hrest⟩
      have hds' := nodup_names_snoc hds hnew
      obtain ⟨hall, hbodies, hstmts⟩ := (Items.accepted_iff items hds' hcalls.2).1 hrest
      refine ⟨hfs ▸ hall, fun d' hd' => ?_, hfs ▸ hstmts⟩
      rw [hfs]
      rcases List.mem_cons.1 hd' with rfl | hd'
      · exact ⟨hr, (hsame hall).1 hbody⟩
      · exact hbodies d' hd'
    · rintro ⟨hall, hbodies, hstmts⟩
      rw [hfs] at hall hbodies hstmts
      have hds' : (names (ds ++ [d])).Nodup := by
        rw [names_append] at hall
        exact (List.nodup_append.1 hall).1
      obtain ⟨hr, hbody⟩ := hbodies d List.mem_cons_self
      refine ⟨⟨hr, fun hd => ?_, (hsame hall).2 hbody⟩, (Items.accepted_iff items hds' hcalls.2).2
        ⟨hall, fun d' hd' => hbodies d' (List.mem_cons_of_mem d hd'), hstmts⟩⟩
      rw [names_append, List.nodup_append] at hds'
      exact hds'.2.2 d.name hd d.name List.mem_cons_self rfl
  | .statement st :: items, ds, hds, hcalls => by
    have hnil : ds ++ Program.functions [.statement st] = ds := List.append_nil ds
    have hlast := hcalls.2
    have hfirst := hcalls.1
    rw [hnil] at hlast hfirst
    have hsame (hall : (names (ds ++ Program.functions items)).Nodup) :=
      Stmt.accepted_congr st (sameCalls_append hall hfirst)
    have hrest := Items.accepted_iff items hds hlast
    rw [Items.Accepted, hnil, hrest]
    constructor
    · rintro ⟨hst, hall, hbodies, hstmts⟩
      exact ⟨hall, hbodies, (hsame hall).1 hst, hstmts⟩
    · rintro ⟨hall, hbodies, hst, hstmts⟩
      exact ⟨(hsame hall).2 hst, hall, hbodies, hstmts⟩

/-- A program compiles exactly if its items are accepted one after the other. -/
theorem Program.compiles_iff {p : Program} (hmain : entryPoint ∉ names p.functions)
    (hcalls : Items.CallBack [] p) : p.Compiles ↔ Items.Accepted [] p := by
  have hnil : (names ([] : List FunctionDef)).Nodup := List.nodup_nil
  rw [Items.accepted_iff p hnil hcalls]
  constructor
  · intro h
    exact ⟨h.distinct, fun d hd => ⟨h.unreserved d hd, h.bodies d hd⟩, h.statements⟩
  · intro h
    exact ⟨fun d hd => (h.bodies d hd).1, h.distinct, hmain, fun d hd => (h.bodies d hd).2,
      h.statements⟩

section Main
variable {name : String} {e : Engine} {p : Program}

theorem compile_error_iff (hmain : entryPoint ∉ names p.functions) (hcalls : Items.CallBack [] p) :
    (∃ d, ((Session.new name e).compile p).1 = .error d) ↔ ¬ Items.Accepted [] p := by
  rw [← Program.compiles_iff hmain hcalls]
  have hspec := compileInto_spec name p
  unfold Session.compile Session.new
  rcases hrun : Session.compileInto { name } p with ⟨d | u, m⟩
  · simp only [hrun] at hspec
    exact ⟨fun _ => hspec.1, fun _ => ⟨d, rfl⟩⟩
  · simp only [hrun] at hspec
    refine ⟨fun hd => ?_, fun hno => absurd hspec.1 hno⟩
    obtain ⟨d, hd⟩ := hd
    cases hd

theorem Items.Accepted.of_append : ∀ {pre post : List Item} {ds : List FunctionDef},
    Items.Accepted ds (pre ++ post) → Items.Accepted ds pre
  | [], _, _, _ => trivial
  | _ :: _, _, _, h => ⟨h.1, of_append h.2⟩

theorem distinct_empty : Distinct #[] :=
  List.nodup_nil

theorem compile_cells {t : Session} (ht : (Session.new name e).compile p = (.ok (), t)) :
    t.module.globals = addCells #[] (Stmts.names p.statements) :=
  compileInto_globals (compile_eq_ok ht).1

/-- A session shows what another one does, but for more cells, which are at zero. -/
def Session.Covers (t s : Session) : Prop :=
  t.engine.output = s.engine.output ∧
    ∃ ys : List String, t.globalValues = s.globalValues ++ ys.map (·, 0)

section Agreement
variable {t : Session} (he : e.globals = #[]) (ho : Orderly [] p)
  (ht : (Session.new name e).compile p = (.ok (), t))
include he ho ht

/-- The compiled program returns exactly if all items come to their end. -/
theorem call_eq_ok_iff (name' : String) (v : Int32) (text : String) (vals : List (String × Int32)) :
    (∃ steps t', t.call steps entryPoint [] = some (.ok v, t') ∧ t'.engine.output = text ∧
        t'.globalValues = vals) ↔
      v = 0 ∧ ∃ steps rs s, (Session.new name' e).executeAll steps p = some (rs, s) ∧
        (∀ r ∈ rs, r = .ok ()) ∧ s.engine.output = text ∧ s.globalValues = vals := by
  have hstart := Executed.initial name' he
  have hvalues {store : Store} {t' s : Session} (hmod : t'.module = t.module)
      (hshow : Shows t'.module (e.mapAll.world p.functions) store t'.engine)
      (hdone : Executed e p store s) :
      t'.engine.output = s.engine.output ∧ t'.globalValues = s.globalValues := by
    have hsame : t'.module.globals = s.module.globals := by
      rw [hmod, compile_cells ht, hdone.cells]
    have hd : Distinct s.module.globals := hdone.cells ▸ distinct_empty.addCells _
    refine ⟨hshow.serves.output.trans hdone.shows.serves.output.symm, ?_⟩
    rw [hshow.globalValues_eq (hsame ▸ hd), hdone.shows.globalValues_eq hd, hsame]
  constructor
  · rintro ⟨steps, t', hcall, rfl, rfl⟩
    obtain ⟨u, store, heval, hu, hmod, hshow⟩ := eval_of_call he ht hcall
    have heval' := topLevel_of_outcome ho.noReturn heval
    cases u with
    | error f => cases hu
    | ok u =>
      obtain ⟨k, hall⟩ := hstart.executeAll_of_eval p ho heval'
      obtain ⟨rs, s, hrun, hok, hdone⟩ := hall k (Nat.le_refl k)
      obtain ⟨hout, hvals⟩ := hvalues hmod hshow hdone
      refine ⟨?_, k, rs, s, hrun, hok, hout.symm, hvals.symm⟩
      rw [heval'] at heval
      exact (Except.ok.inj hu).trans (Except.ok.inj (Prod.mk.inj (Option.some.inj heval)).1).symm
  · rintro ⟨rfl, steps, rs, s, hrun, hok, rfl, rfl⟩
    obtain ⟨store, heval, hdone⟩ := hstart.eval_of_executeAll p ho hrun hok
    have hout := congrArg (Option.map outcome) heval
    obtain ⟨k, t', hcall, hmod, hshow⟩ := call_of_eval he ht hout
    exact ⟨k, t', hcall, hvalues hmod hshow hdone⟩

/-- The compiled program faults exactly as the first item does that faults. -/
theorem call_eq_error_iff (name' : String) (d : Diagnostic) :
    (∀ steps t', t.call steps entryPoint [] = some (.error d, t') →
        ∃ steps s, (Session.new name' e).FailsAt steps p d s ∧ t'.Covers s) ∧
      ∀ steps s, (Session.new name' e).FailsAt steps p d s →
        ∃ steps t', t.call steps entryPoint [] = some (.error d, t') ∧ t'.Covers s := by
  have hstart := Executed.initial name' he
  have hcovers {store : Store} {t' s : Session} {upto : Program} (hmod : t'.module = t.module)
      (hshow : Shows t'.module (e.mapAll.world p.functions) store t'.engine)
      (hupto : upto <+: p) (hdone : Executed e upto store s) : t'.Covers s := by
    obtain ⟨rest, hrest⟩ := hupto
    have hcells : t'.module.globals =
        addCells s.module.globals (Stmts.names (Program.statements rest)) := by
      rw [hmod, compile_cells ht, hdone.cells, ← addCells_append, ← Stmts.names_append,
        ← Program.statements_append, hrest]
    exact ⟨hshow.serves.output.trans hdone.shows.serves.output.symm,
      hdone.shows.globalValues_append hshow (hdone.cells ▸ distinct_empty.addCells _) hcells⟩
  constructor
  · intro steps t' hcall
    obtain ⟨u, store, heval, hu, hmod, hshow⟩ := eval_of_call he ht hcall
    cases u with
    | ok u => cases hu
    | error f =>
      obtain rfl : d = f.diagnostic := Except.error.inj hu
      obtain ⟨k, hall⟩ := hstart.failsAt_of_eval p ho (topLevel_of_outcome ho.noReturn heval)
      obtain ⟨s, upto, hfail, hupto, hdone⟩ := hall k (Nat.le_refl k)
      exact ⟨k, s, hfail, hcovers hmod hshow hupto hdone⟩
  · intro steps s hfail
    obtain ⟨f, store, upto, heval, rfl, hupto, hdone⟩ := hstart.eval_of_failsAt p ho hfail
    have hout := congrArg (Option.map outcome) heval
    obtain ⟨k, t', hcall, hmod, hshow⟩ := call_of_eval he ht hout
    exact ⟨k, t', hcall, hcovers hmod hshow hupto hdone⟩

end Agreement

/-- Executing a program item by item agrees with compiling it and running its entry point. -/
theorem executeAll_agrees_with_compile (name name' : String) (he : e.globals = #[])
    (hmain : entryPoint ∉ names p.functions) (hreturn : Stmts.NoReturn p.statements)
    (hcalls : Items.CallBack [] p) :
    (∀ pre post steps rs s d, p = pre ++ post →
      (Session.new name e).executeAll steps pre = some (rs, s) → .error d ∈ rs →
      d.stage = .semantic → ∃ d', ((Session.new name' e).compile p).1 = .error d') ∧
    (∀ steps rs s d, (Session.new name e).executeAll steps p = some (rs, s) →
      ((Session.new name' e).compile p).1 = .error d → ∃ d', .error d' ∈ rs ∧ d'.stage = .semantic) ∧
    ∀ t, (Session.new name' e).compile p = (.ok (), t) →
      (∀ v text vals,
        (∃ steps t', t.call steps entryPoint [] = some (.ok v, t') ∧ t'.engine.output = text ∧
          t'.globalValues = vals) ↔
        v = 0 ∧ ∃ steps rs s, (Session.new name e).executeAll steps p = some (rs, s) ∧
          (∀ r ∈ rs, r = .ok ()) ∧ s.engine.output = text ∧ s.globalValues = vals) ∧
      ∀ d, (∀ steps t', t.call steps entryPoint [] = some (.error d, t') →
          ∃ steps s, (Session.new name e).FailsAt steps p d s ∧ t'.Covers s) ∧
        ∀ steps s, (Session.new name e).FailsAt steps p d s →
          ∃ steps t', t.call steps entryPoint [] = some (.error d, t') ∧ t'.Covers s := by
  have hstart := Executed.initial name he
  have hfails : (∃ d, ((Session.new name' e).compile p).1 = .error d) ↔ ¬ Items.Accepted [] p :=
    compile_error_iff hmain hcalls
  refine ⟨?_, ?_, ?_⟩
  · intro pre post steps rs s d hp hrun hd hstage
    have hno := (hstart.semantic_iff pre hrun).1 ⟨d, hd, hstage⟩
    refine hfails.2 fun hacc => hno ?_
    rw [hp] at hacc
    exact hacc.of_append
  · intro steps rs s d hrun hd
    exact (hstart.semantic_iff p hrun).2 (hfails.1 ⟨d, hd⟩)
  · intro t ht
    have hacc : Items.Accepted [] p := by
      by_contra hno
      obtain ⟨d, hd⟩ := hfails.2 hno
      rw [ht] at hd
      cases hd
    have ho : Orderly [] p := ⟨fun d hd => (by cases hd), hacc, hcalls, hreturn⟩
    exact ⟨call_eq_ok_iff he ho ht name, call_eq_error_iff he ho ht name⟩

/-- Halves and prints numbers in a loop, with a function between two statements. -/
def halvingProgram : Program :=
  [.statement (.assign "x" (.number 9)),
    .function ⟨"half", ["n"], [.ret (.binary .div (.var "n") (.number 2))], false⟩,
    .statement (.loop (.var "x") [.assign "x" (.call "half" [.var "x"]), .print [.var "x"]]),
    .statement (.assign "y" (.number 7))]

theorem executeAll_agrees_halvingProgram :
    entryPoint ∉ names halvingProgram.functions ∧ Stmts.NoReturn halvingProgram.statements ∧
    Items.CallBack [] halvingProgram ∧
    ∃ t, (Session.new "n" {}).compile halvingProgram = (.ok (), t) ∧
      ∃ steps t', t.call steps entryPoint [] = some (.ok 0, t') ∧
        t'.engine.output = "4\n2\n1\n0\n" ∧ t'.globalValues = [("x", 0), ("y", 7)] := by
  have hmain : entryPoint ∉ names halvingProgram.functions := by decide
  have hreturn : Stmts.NoReturn halvingProgram.statements := by
    simp [halvingProgram, Program.statements, Stmts.NoReturn, Stmt.NoReturn]
  have hcalls : Items.CallBack [] halvingProgram := by
    simp [halvingProgram, Items.CallBack, Item.calls, Stmts.calls, Stmt.calls, Expr.calls,
      Exprs.calls, names, Program.functions]
  have hok : ((Session.new "n" {}).compile halvingProgram).1 = .ok () := by decide +kernel
  have hcompile : (Session.new "n" {}).compile halvingProgram = (.ok (), _) := Prod.ext hok rfl
  have hrun : ((Session.new "m" {}).executeAll 200 halvingProgram).map
      (fun x => (x.1, x.2.engine.output, x.2.globalValues)) =
      some ([.ok (), .ok (), .ok (), .ok ()], "4\n2\n1\n0\n", [("x", 0), ("y", 7)]) := by
    decide +kernel
  obtain ⟨⟨rs, s⟩, hexec, hresult⟩ := Option.map_eq_some_iff.1 hrun
  obtain ⟨rfl, hrest⟩ := Prod.mk.inj hresult
  obtain ⟨htext, hvals⟩ := Prod.mk.inj hrest
  have hagree := executeAll_agrees_with_compile "m" "n" (e := {}) rfl hmain hreturn hcalls
  exact ⟨hmain, hreturn, hcalls, _, hcompile, ((hagree.2.2 _ hcompile).1 0 _ _).2
    ⟨rfl, 200, _, s, hexec, by simp, htext, hvals⟩⟩

end Main
end IntLang
