import IntLang.Proofs.Compiled

/-! Compiling preserves meaning. Running the entry point of a compiled program and evaluating its
syntax tree come to the same: the same value or fault, the same text and the same global values. -/
namespace IntLang
open IntLang.Flow IntLang.Machine IntLang.Meaning IntLang.Code

section Shown
variable {m : Module} {w : World} {s : Store} {e : Engine}

theorem Code.GlobalsAgree.initial (hz : ∀ g ∈ m.globals, g.init = 0) :
    GlobalsAgree m (m.globals.map (·.init)) fun _ => 0 where
  size := by simp
  cell := fun x g hg => by
    have hlt := Module.findGlobal?_lt hg
    rw [Array.getElem?_map, Array.getElem?_eq_getElem hlt]
    simp [hz _ (Array.getElem_mem hlt)]
  unseen := fun _ _ => rfl

/-- A fresh engine has all global cells at zero. -/
theorem Code.Shows.initial (hz : ∀ g ∈ m.globals, g.init = 0) (he : e.globals = #[])
    (hn : e.natives = w.natives) (hs : e.sink = w.sink) :
    Shows m w ⟨fun _ => 0, e.output⟩ (e.sync m) where
  serves := ⟨hn, hs, rfl⟩
  globals := by simpa [Engine.sync, he] using GlobalsAgree.initial hz

theorem Code.Shows.sync_eq (h : Shows m w s e) : e.sync m = e := by
  simp [Engine.sync, h.globals.size]

theorem Code.Shows.globalValue_eq (h : Shows m w s e) (x : String) :
    (e.globalValue m x).getD 0 = s.vars x := by
  rw [Engine.globalValue, h.sync_eq]
  cases hg : m.findGlobal? x with
  | none => exact (h.globals.unseen x hg).symm
  | some g => simp [h.globals.cell x g hg]

end Shown

section Main
variable {name : String} {e : Engine} {p : Program} {s : Session} {m : Module}

def Machine.Engine.world (e : Engine) (ds : List FunctionDef) : World :=
  ⟨ds, e.natives, e.sink⟩

theorem Code.Image.linked_mapAll {ds : List FunctionDef} (h : Image m ds) (e : Engine) :
    Linked m (e.mapAll.world ds) :=
  h.linked rfl rfl

section Calls
variable (he : e.globals = #[]) (h : (Session.new name e).compile p = (.ok (), s))
include he h

/-- The entry point of a compiled program starts with all variables at zero. -/
theorem compile_start : ∃ id f, (∀ steps, s.call steps entryPoint [] =
        (s.engine.run steps s.module id []).map fun x =>
          (x.1.mapError Fault.diagnostic, { s with engine := x.2 })) ∧
      s.module.function? id = some f ∧ f.isDeclaration = false ∧
      BodyCode ⟨s.module, f, .globals⟩ [] p.statements ∧
      Linked s.module (e.mapAll.world p.functions) ∧
      Shows s.module (e.mapAll.world p.functions) ⟨fun _ => 0, e.output⟩
        (s.engine.sync s.module) := by
  obtain ⟨-, -, hc, heng⟩ := compile_eq_ok h
  obtain ⟨id, f, hfind, hf, hd, hb⟩ := hc.main
  refine ⟨id, f, fun steps => ?_, hf, hd, hb, hc.image.linked_mapAll e, ?_⟩
  · simp only [Session.call, hfind]
    rcases s.engine.run steps s.module id [] with _ | ⟨f | n, e'⟩ <;> rfl
  · rw [heng]
    exact Shows.initial (e := e.mapAll) hc.zero he rfl rfl

/-- What running the entry point gives, evaluating the statements gives. -/
theorem eval_of_call {steps : Nat} {r : Except Diagnostic Int32} {s' : Session}
    (hrun : s.call steps entryPoint [] = some (r, s')) :
    ∃ v store, (topLevel (e.mapAll.world p.functions) steps p.statements
        ⟨fun _ => 0, e.output⟩).map outcome = some (v, store) ∧
      r = v.mapError Fault.diagnostic ∧ s'.module = s.module ∧
      Shows s'.module (e.mapAll.world p.functions) store s'.engine := by
  obtain ⟨id, f, hcall, hf, hd, hb, hlink, hshow⟩ := compile_start he h
  rw [hcall] at hrun
  obtain ⟨⟨v, e'⟩, hk, heq⟩ := Option.map_eq_some_iff.1 hrun
  obtain ⟨rfl, rfl⟩ := Prod.mk.inj heq
  obtain ⟨store, heval, hshow'⟩ := topLevel_of_run hlink hf hd hb hshow hk
  exact ⟨v, store, heval, rfl, rfl, hshow'⟩

/-- What evaluating the statements gives, running the entry point gives. -/
theorem call_of_eval {n : Nat} {v : Except Fault Int32} {store : Store}
    (heval : (topLevel (e.mapAll.world p.functions) n p.statements
      ⟨fun _ => 0, e.output⟩).map outcome = some (v, store)) :
    ∃ steps s', s.call steps entryPoint [] = some (v.mapError Fault.diagnostic, s') ∧
      s'.module = s.module ∧ Shows s'.module (e.mapAll.world p.functions) store s'.engine := by
  obtain ⟨id, f, hcall, hf, hd, hb, hlink, hshow⟩ := compile_start he h
  obtain ⟨k, e', hrun, hshow'⟩ := run_of_topLevel hlink hf hd hb hshow heval
  refine ⟨k, { s with engine := e' }, ?_, rfl, hshow'⟩
  rw [hcall, hrun]
  rfl

end Calls

/-- A compiled program runs to a result exactly if its tree evaluates to that result. -/
theorem call_entryPoint_iff_program (he : e.globals = #[])
    (h : (Session.new name e).compile p = (.ok (), s)) (r : Except Diagnostic Int32) (text : String)
    (vars : String → Int32) :
    (∃ steps s', s.call steps entryPoint [] = some (r, s') ∧ s'.engine.output = text ∧
        ∀ x, (s'.globalValue x).getD 0 = vars x) ↔
      ∃ bound v, program e.mapAll.natives e.sink e.output bound p = some (v, ⟨vars, text⟩) ∧
        v.mapError Fault.diagnostic = r := by
  constructor
  · rintro ⟨steps, s', hrun, rfl, hvars⟩
    obtain ⟨v, ⟨vars', text⟩, heval, rfl, -, hshow⟩ := eval_of_call he h hrun
    obtain rfl : vars' = vars := funext fun x => (hshow.globalValue_eq x).symm.trans (hvars x)
    obtain rfl : s'.engine.output = text := hshow.serves.output
    exact ⟨steps, v, heval, rfl⟩
  · rintro ⟨n, v, heval, rfl⟩
    obtain ⟨k, s', hrun, -, hshow⟩ := call_of_eval he h heval
    exact ⟨k, s', hrun, hshow.serves.output, hshow.globalValue_eq⟩

def sumProgram : Program :=
  [.function ⟨"twice", ["n"], [.ret (.binary .mul (.var "n") (.number 2))], false⟩,
    .statement (.loop (.binary .lt (.var "i") (.number 3))
      [.assign "i" (.binary .add (.var "i") (.number 1)),
        .assign "sum" (.binary .add (.var "sum") (.call "twice" [.var "i"]))]),
    .statement (.print [.var "sum"]),
    .statement (.ret (.var "sum"))]

theorem call_entryPoint_sumProgram : ∃ s, (Session.new "m" {}).compile sumProgram = (.ok (), s) ∧
    ∃ steps s', s.call steps entryPoint [] = some (.ok 12, s') ∧ s'.engine.output = "12\n" ∧
      (s'.globalValue "sum").getD 0 = 12 := by
  have hok : ((Session.new "m" {}).compile sumProgram).1 = .ok () := by decide +kernel
  have heval : (program ({} : Engine).mapAll.natives {} "" 5 sumProgram).map
      (fun x => (x.1, x.2.output, x.2.vars "sum")) = some (.ok 12, "12\n", 12) := by decide +kernel
  obtain ⟨⟨v, vars, text⟩, hprogram, hresult⟩ := Option.map_eq_some_iff.1 heval
  obtain ⟨rfl, hrest⟩ := Prod.mk.inj hresult
  obtain ⟨rfl, hsum⟩ := Prod.mk.inj hrest
  have hcompile : (Session.new "m" {}).compile sumProgram = (.ok (), _) := Prod.ext hok rfl
  obtain ⟨steps, s', hcall, htext, hvars⟩ :=
    (call_entryPoint_iff_program (e := {}) rfl hcompile _ _ vars).2 ⟨5, _, hprogram, rfl⟩
  exact ⟨_, hcompile, steps, s', hcall, htext, (hvars "sum").trans hsum⟩

end Main
end IntLang
