import IntLang.Proofs.StmtRuns
import Mathlib.Tactic.Choose

/-! From statements to whole bodies: the entry block gives every variable its slot and its first
value, the statements follow, and calls nest. The induction is on the bound of the evaluation, which
every call uses up by one. -/
namespace IntLang.Code
open IntLang.Flow IntLang.Machine IntLang.Meaning

theorem foldl_update_of_notMem (ps : List (String × Int32)) (vars : String → Int32) {x : String}
    (h : x ∉ ps.map (·.1)) :
    ps.foldl (fun vars p => Function.update vars p.1 p.2) vars x = vars x := by
  induction ps generalizing vars with
  | nil => rfl
  | cons p ps ih =>
    simp only [List.map_cons, List.mem_cons, not_or] at h
    rw [List.foldl_cons, ih _ h.2, Function.update_of_ne h.1]

def startValue (args : List Int32) : Operand → Int32
  | .int n => n
  | .param i => args[i]?.getD 0
  | _ => 0

/-- Of several parameters with one name the last one counts. -/
theorem parameters_eq_startValue {params : List String} {args : List Int32} {x : String}
    {init : Operand} (hlen : args.length = params.length) (h : Starts params x init) :
    parameters params args x = startValue args init := by
  have hkeys : (params.zip args).map (·.1) = params := by
    rw [List.map_fst_zip]
    exact Nat.le_of_eq hlen.symm
  rcases h with ⟨hx, rfl⟩ | ⟨i, rfl, hi, hlast⟩
  · exact foldl_update_of_notMem _ _ (by rwa [hkeys])
  · obtain ⟨hlt, hxi⟩ := List.getElem?_eq_some_iff.1 hi
    have hlt' : i < args.length := hlen ▸ hlt
    have hz : i < (params.zip args).length := by
      rw [List.length_zip]
      exact Nat.lt_min.2 ⟨hlt, hlt'⟩
    have hsplit : params.zip args =
        (params.zip args).take i ++ (x, args[i]) :: (params.zip args).drop (i + 1) := by
      conv => lhs; rw [← List.take_append_drop i (params.zip args), List.drop_eq_getElem_cons hz]
      simp [hxi]
    have hrest : x ∉ ((params.zip args).drop (i + 1)).map (·.1) := by
      rw [List.map_drop, hkeys]
      intro hmem
      obtain ⟨j, hj, hxj⟩ := List.getElem_of_mem hmem
      refine hlast (i + 1 + j) (by omega) ?_
      rw [List.getElem_drop] at hxj
      exact List.getElem?_eq_some_iff.2 ⟨_, hxj⟩
    rw [parameters, hsplit, List.foldl_append, List.foldl_cons, foldl_update_of_notMem _ _ hrest,
      Function.update_self, startValue, List.getElem?_eq_getElem hlt', Option.getD_some]

/-- A frame in the entry block that has created `j` slots and initialised `k`. -/
structure Opening (t : Activation) (args : List Int32) (slots : List (InstrId × Operand))
    (j k : Nat) (fr : Frame) : Prop where
  function : fr.function = t.id
  block : fr.block = 0
  next : fr.next = j + k
  pending : fr.pending = none
  given : fr.args = args
  size : fr.results.size = t.site.function.instrs.size
  cells : fr.cells.size = j
  results : ∀ (i : Nat) id init, i < j → slots[i]? = some (id, init) →
    fr.results[id]? = some (.cell i)
  values : ∀ (i : Nat) id init, i < k → slots[i]? = some (id, init) →
    fr.cells[i]? = some (startValue args init)

section Opening
variable {t : Activation} {args : List Int32} {slots : List (InstrId × Operand)} {n j k : Nat}
  {fr : Frame} {e : Engine} {id : InstrId} {init : Operand}

theorem Opening.create (hf : t.site.module.function? t.id = some t.site.function)
    (hp : Prologue t.site.function n slots) (h : Opening t args slots j 0 fr)
    (hj : slots[j]? = some (id, init)) :
    ∃ fr', Config.step t.site.module ⟨e, fr, t.below⟩ = .running ⟨e, fr', t.below⟩ ∧
      Opening t args slots (j + 1) 0 fr' := by
  obtain ⟨name, hh⟩ := hp.create j id init hj
  have hlt : id < fr.results.size := by
    obtain ⟨_, _, _, hi⟩ := hh
    rw [h.size]
    exact (Array.getElem?_eq_some_iff.1 hi).1
  have hstep : fr.step t.site.module e.globals = _ :=
    step_of_holds (by rw [h.function, hf]) (by rw [h.block, h.next]; exact hh)
  refine ⟨_, step_of_proceed (c := ⟨e, fr, t.below⟩) hstep, h.function, h.block, ?_, h.pending,
    h.given, ?_, ?_, ?_, ?_⟩
  · exact congrArg (· + 1) h.next
  · simpa [Frame.give] using h.size
  · simp [Frame.give, h.cells]
  · intro i id' init' hi hs
    rcases Nat.lt_succ_iff_lt_or_eq.1 hi with hi | rfl
    · have hne : id ≠ id' := by
        rintro rfl
        exact absurd (hp.distinct i j id _ _ hs hj) (Nat.ne_of_lt hi)
      simp [Frame.give, Array.getElem?_setIfInBounds_ne hne, h.results i id' init' hi hs]
    · obtain rfl : id = id' := congrArg Prod.fst (Option.some.inj (hj.symm.trans hs))
      simp [Frame.give, hlt, h.cells]
  · exact fun i _ _ hi => absurd hi (Nat.not_lt_zero i)

theorem Opening.int_init (hp : Prologue t.site.function args.length slots)
    (h : Opening t args slots j k fr) {i : Nat} (hi : slots[i]? = some (id, init)) :
    fr.int init = .ok (startValue args init) := by
  rcases hp.init i id init hi with rfl | ⟨p, rfl, hlt⟩
  · rfl
  · simp [Frame.int, Frame.eval, h.given, hlt, startValue]

theorem Opening.store (hf : t.site.module.function? t.id = some t.site.function)
    (hp : Prologue t.site.function args.length slots) (h : Opening t args slots slots.length k fr)
    (hk : slots[k]? = some (id, init)) :
    ∃ fr', Config.step t.site.module ⟨e, fr, t.below⟩ = .running ⟨e, fr', t.below⟩ ∧
      Opening t args slots slots.length (k + 1) fr' := by
  obtain ⟨id', hh⟩ := hp.store k id init hk
  have hlt : k < slots.length := (List.getElem?_eq_some_iff.1 hk).1
  have hcell : fr.eval (.instr id) = .cell k := by
    simp [Frame.eval, h.results k id init hlt hk]
  have hexec : fr.exec t.site.function.name e.globals id' (.store init (.instr id)) =
      .ok (.proceed { fr with
        cells := fr.cells.setIfInBounds k (startValue args init), next := fr.next + 1 }
        e.globals) := by
    simp only [Frame.exec, h.int_init hp hk, hcell]
    rfl
  have hstep : fr.step t.site.module e.globals = _ :=
    step_of_holds (by rw [h.function, hf]) (by rw [h.block, h.next]; exact hh)
  refine ⟨_, step_of_proceed (c := ⟨e, fr, t.below⟩) (hstep.trans hexec), h.function, h.block, ?_,
    h.pending, h.given, h.size, ?_, h.results, ?_⟩
  · exact congrArg (· + 1) h.next
  · simpa using h.cells
  · intro i id₂ init₂ hi hs
    rcases Nat.lt_succ_iff_lt_or_eq.1 hi with hi | rfl
    · simp [Array.getElem?_setIfInBounds_ne (Nat.ne_of_gt hi), h.values i id₂ init₂ hi hs]
    · obtain ⟨rfl, rfl⟩ := Prod.mk.inj (Option.some.inj (hk.symm.trans hs))
      simp [h.cells, hlt]

theorem Opening.creates (hf : t.site.module.function? t.id = some t.site.function)
    (hp : Prologue t.site.function n slots) (h : Opening t args slots 0 0 fr) :
    ∀ j, j ≤ slots.length → ∃ fr', Steps t.site.module j ⟨e, fr, t.below⟩ ⟨e, fr', t.below⟩ ∧
      Opening t args slots j 0 fr'
  | 0, _ => ⟨fr, .refl _, h⟩
  | j + 1, hj => by
    obtain ⟨fr₁, s₁, h₁⟩ := h.creates hf hp j (Nat.le_of_succ_le hj)
    obtain ⟨fr₂, s₂, h₂⟩ := h₁.create (e := e) hf hp (List.getElem?_eq_getElem hj)
    exact ⟨fr₂, s₁.trans (.one s₂), h₂⟩

theorem Opening.stores (hf : t.site.module.function? t.id = some t.site.function)
    (hp : Prologue t.site.function args.length slots) (h : Opening t args slots slots.length 0 fr) :
    ∀ k, k ≤ slots.length → ∃ fr', Steps t.site.module k ⟨e, fr, t.below⟩ ⟨e, fr', t.below⟩ ∧
      Opening t args slots slots.length k fr'
  | 0, _ => ⟨fr, .refl _, h⟩
  | k + 1, hk => by
    obtain ⟨fr₁, s₁, h₁⟩ := h.stores hf hp k (Nat.le_of_succ_le hk)
    obtain ⟨fr₂, s₂, h₂⟩ := h₁.store (e := e) hf hp (List.getElem?_eq_getElem hk)
    exact ⟨fr₂, s₁.trans (.one s₂), h₂⟩

/-- The slots of a body hold the values its variables start with. -/
theorem Opening.slotsAgree {params : List String} {known : List (String × Operand)}
    (hp : Prologue t.site.function n slots) (hk : Slotted params slots known)
    (hlen : args.length = params.length)
    (h : Opening t args slots slots.length slots.length fr) :
    SlotsAgree t.site.function known fr (parameters params args) := by
  have hslot (x : String) : ∃ j : Nat, ∀ p, known.lookup x = some p → ∃ id init,
      slots[j]? = some (id, init) ∧ p = .instr id ∧ Starts params x init := by
    cases hx : known.lookup x with
    | none => exact ⟨0, fun _ => nofun⟩
    | some p =>
      obtain ⟨j, id, init, h₁, h₂, h₃⟩ := hk.slot x p hx
      exact ⟨j, fun q hq => ⟨id, init, h₁, Option.some.inj hq ▸ h₂, h₃⟩⟩
  choose cell hcell using hslot
  refine ⟨cell, fun x p hx => ?_, fun x y p q hx hy hxy => ?_⟩
  · obtain ⟨id, init, hs, rfl, hst⟩ := hcell x p hx
    have hlt : cell x < slots.length := (List.getElem?_eq_some_iff.1 hs).1
    obtain ⟨name, _, _, _, hi⟩ := hp.create _ id init hs
    refine ⟨id, name, rfl, hi, h.results _ id init hlt hs, ?_⟩
    rw [parameters_eq_startValue hlen hst]
    exact h.values _ id init hlt hs
  · obtain ⟨id, init, hs, rfl, -⟩ := hcell x p hx
    obtain ⟨id', init', hs', rfl, -⟩ := hcell y q hy
    rw [hxy, hs'] at hs
    obtain rfl : id' = id := congrArg Prod.fst (Option.some.inj hs)
    exact hk.injective x y _ hx hy

end Opening

def entryFrame (f : Function) (id : FuncId) (args : List Int32) : Frame :=
  { function := id, args, results := Array.replicate f.instrs.size .undef }

def Begins (t : Activation) (params : List String) (args : List Int32) (s : Store) : Prop :=
  match t.site.scope with
  | .slots _ => s.vars = parameters params args
  | .globals => GlobalsAgree t.site.module t.globals s.vars

section Bodies
variable {t : Activation} {w : World} {s : Store} {n : Nat} {params : List String}
  {args : List Int32} {ss : List Stmt} {e : Engine}

/-- A whole body follows the evaluation of its statements, and returns zero at its end. -/
theorem body_follows (hf : t.site.module.function? t.id = some t.site.function)
    (hsup : Supported t.site.module w) {call : Calls}
    (hcall : CallsFollow t.site.module w n (t.below.size + 1) call)
    (hb : BodyCode t.site params ss) (hlen : args.length = params.length)
    (hserves : Serves w s e) (hglobals : e.globals = t.globals) (hs : Begins t params args s) :
    Follows t.site.module n (Left t w) ⟨e, entryFrame t.site.function t.id args, t.below⟩
      (stmts w call n ss s) fun r => Returns t w (r.getD 0) := by
  obtain ⟨slots, hp, hscope, k, b, hss, hret⟩ := hb
  rw [← hlen] at hp
  have hopen : Opening t args slots 0 0 (entryFrame t.site.function t.id args) :=
    ⟨rfl, rfl, rfl, rfl, rfl, by simp [entryFrame], rfl, fun i _ _ h => absurd h (Nat.not_lt_zero i),
      fun i _ _ h => absurd h (Nat.not_lt_zero i)⟩
  obtain ⟨fr₁, s₁, h₁⟩ := hopen.creates (e := e) hf hp slots.length (Nat.le_refl _)
  obtain ⟨fr₂, s₂, h₂⟩ := h₁.stores (e := e) hf hp slots.length (Nat.le_refl _)
  have hst : Stands t w s ⟨0, 2 * slots.length, k⟩ ⟨e, fr₂, t.below⟩ := by
    refine ⟨h₂.function, h₂.block, ?_, h₂.pending, h₂.size, rfl, hserves, ?_⟩
    · exact h₂.next.trans (Nat.two_mul _).symm
    · unfold Begins at hs
      unfold Activation.Agrees
      split at hscope
      · next known hk =>
        simp only [hk] at hs ⊢
        exact ⟨hglobals, hs ▸ h₂.slotsAgree hp hscope hlen⟩
      · next hk =>
        simp only [hk] at hs ⊢
        exact hglobals ▸ hs
  refine .later (s₁.trans s₂) ?_
  have h := stmts_follows hf hsup hcall ss hss hst
  generalize stmts w call n ss s = r at h ⊢
  rcases r with _ | ⟨f | r, s'⟩
  · exact h
  · exact h
  · obtain ⟨j, c, hj, hc⟩ := h
    cases r with
    | some v => exact ⟨j, c, hj, hc⟩
    | none => exact ⟨j, c, hj, Stands.returns hf hc hret rfl⟩

end Bodies

/-- The functions that can be called by name are those of the evaluation, and their code is that of
their bodies. -/
structure Linked (m : Module) (w : World) : Prop extends Supported m w where
  function : ∀ name n id, Callee m name n id → ∃ d f,
    w.functions.find? (·.name = name) = some d ∧ m.function? id = some f ∧ f.name = name ∧
      d.params.length = n ∧ f.isDeclaration = d.isDeclaration ∧
      (d.isDeclaration = false → ∃ known, BodyCode ⟨m, f, .slots known⟩ d.params d.body)

section Calls
variable {m : Module} {w : World} {s : Store} {c : Config} {fr : Frame} {f : Function} {id : FuncId}
  {args : List Int32} {n : Nat}

/-- Engines of one world differ in their cells and their text only. -/
theorem Serves.engine_eq {s' : Store} {e e' : Engine} (h : Serves w s e) (h' : Serves w s' e')
    (hg : e'.globals = e.globals) : e' = { e with output := s'.output } := by
  have hn := h'.natives.trans h.natives.symm
  have hk := h'.sink.trans h.sink.symm
  have ho := h'.output
  cases e'
  simp_all

theorem unresolved_follows (hf : m.function? id = some f) (hd : f.isDeclaration = true)
    (hn : w.natives.lookup f.name = none) (hs : Serves w s c.engine)
    (hc : c.top.step m c.engine.globals = .ok (.call fr id args))
    {post : Int32 → Store → Config → Prop} :
    Follows m n (fun s' e => e = { c.engine with output := s'.output } ∧ s'.vars = s.vars) c
      (called (fun text => some (foreign w f.name args text)) s) post := by
  simp only [called, foreign, hn, Option.map_some]
  refine ⟨1, c.engine, ?_, by rw [← hs.output], rfl⟩
  rw [Config.run, Config.step, hc]
  simp only [Engine.enter, hf, hd, ↓reduceIte, hs.natives, hn]

theorem enter_frame {e : Engine} (hf : m.function? id = some f) (hd : f.isDeclaration = false) :
    e.enter m id args = .ok (.frame (entryFrame f id args)) := by
  simp [Engine.enter, hf, hd, entryFrame]

theorem step_deep (hf : m.function? id = some f) (hd : f.isDeclaration = false)
    (hc : c.top.step m c.engine.globals = .ok (.call fr id args))
    (hdeep : maxCallDepth ≤ c.below.size + 1) :
    c.step m = .finished (.error .callDepth) c.engine := by
  rw [Config.step, hc]
  simp [enter_frame hf hd, hdeep]

theorem step_call (hf : m.function? id = some f) (hd : f.isDeclaration = false)
    (hc : c.top.step m c.engine.globals = .ok (.call fr id args))
    (hdeep : ¬ maxCallDepth ≤ c.below.size + 1) :
    c.step m = .running ⟨c.engine, entryFrame f id args, c.below.push fr⟩ := by
  rw [Config.step, hc]
  simp [enter_frame hf hd, hdeep]

/-- A body that returns hands its value to the frame below it. -/
theorem Returns.step_eq {t : Activation} {v : Int32} {below : Array Frame} {d : Config}
    (h : Returns t w v s d) (hb : t.below = below.push fr) :
    d.step t.site.module = .running ⟨d.engine, fr.resume v, below⟩ := by
  rw [Config.step, h.step, h.below, hb]
  simp

/-- Calls follow their evaluations, as deep as the bound goes. -/
theorem calls_follow (hlink : Linked m w) : ∀ n depth, CallsFollow m w n depth (call w n depth)
  | 0, _ => fun _ _ _ _ _ _ _ _ _ _ => rfl
  | n + 1, depth => by
    intro name id args c fr s hdepth hcallee hs hstep
    obtain ⟨d, f, hd, hf, rfl, hlen, hdecl, hcode⟩ := hlink.function name _ id hcallee
    cases hdec : d.isDeclaration with
    | true =>
      have hcall : call w (n + 1) depth f.name args = fun text =>
          some (foreign w f.name args text) := by
        funext text
        simp [call, hd, hdec]
      rw [hcall]
      cases hn : w.natives.lookup f.name with
      | none => exact unresolved_follows hf (hdecl.trans hdec) hn hs hstep
      | some native => exact native_follows hf (hdecl.trans hdec) hn hs hstep
    | false =>
      simp only [called, call, hd, hdec, Bool.false_eq_true, ↓reduceIte]
      split
      · next hdeep =>
        refine ⟨1, c.engine, ?_, by rw [← hs.output], rfl⟩
        rw [Config.run, step_deep hf (hdecl.trans hdec) hstep (hdepth ▸ hdeep)]
      · next hdeep =>
        obtain ⟨known, hbody⟩ := hcode hdec
        let t : Activation := ⟨⟨m, f, .slots known⟩, id, c.below.push fr, c.engine.globals⟩
        have hcalls : CallsFollow m w n (t.below.size + 1) (call w n (depth + 1)) := by
          simpa [t, hdepth] using calls_follow hlink n (depth + 1)
        have hrun := body_follows (t := t) (s := ⟨parameters d.params args, s.output⟩) hf
          hlink.toSupported hcalls hbody hlen.symm ⟨hs.natives, hs.sink, hs.output⟩ rfl rfl
        have hfirst := step_call hf (hdecl.trans hdec) hstep (hdepth ▸ hdeep)
        have hall := hrun.after (.one hfirst)
        rw [Nat.add_comm] at hall
        generalize stmts w (call w n (depth + 1)) n d.body ⟨parameters d.params args, s.output⟩ = r
          at hall ⊢
        rcases r with _ | ⟨e | v, s'⟩
        · exact hall
        · obtain ⟨k, e', hk, hleft⟩ := hall
          obtain ⟨⟨hn, hsk, ho⟩, hg⟩ := hleft
          exact ⟨k, e', hk, hs.engine_eq ⟨hn, hsk, ho⟩ hg, rfl⟩
        · obtain ⟨k, c', hk, hret⟩ := hall
          refine ⟨k + 1, _, hk.trans (.one (hret.step_eq rfl)), ?_, rfl⟩
          rw [hs.engine_eq hret.serves hret.remains]

end Calls

structure Shows (m : Module) (w : World) (s : Store) (e : Engine) : Prop where
  serves : Serves w s e
  globals : GlobalsAgree m e.globals s.vars

section TopLevel
variable {m : Module} {w : World} {s : Store} {f : Function} {id : FuncId} {ss : List Stmt}
  {e : Engine}

theorem topLevel_follows (hlink : Linked m w) (hf : m.function? id = some f)
    (hb : BodyCode ⟨m, f, .globals⟩ [] ss) (hs : Shows m w s e) (n : Nat) :
    Follows m n (Shows m w) ⟨e, entryFrame f id [], #[]⟩ (topLevel w n ss s) fun r s' d =>
      ∃ e', Config.run m 1 d = some (.ok (r.getD 0), e') ∧ Shows m w s' e' := by
  let t : Activation := ⟨⟨m, f, .globals⟩, id, #[], e.globals⟩
  have hnone : ([] : List Int32).length = ([] : List String).length := rfl
  have h := body_follows (t := t) hf hlink.toSupported (calls_follow hlink n 1) hb hnone hs.serves rfl
    hs.globals
  refine h.imp (fun s' e' h => ⟨h.serves, h.remains⟩) fun r s' d h => ?_
  refine ⟨d.engine, ?_, h.serves, h.remains⟩
  rw [Config.run, Config.step, h.step, h.below]
  rfl

theorem run_entry (hf : m.function? id = some f) (hd : f.isDeclaration = false) (n : Nat) :
    e.run n m id [] = Config.run m n ⟨e.sync m, entryFrame f id [], #[]⟩ := by
  rw [Engine.run, enter_frame hf hd]

/-- What the evaluation of top-level statements gives, the run gives. -/
theorem run_of_topLevel (hlink : Linked m w) (hf : m.function? id = some f)
    (hd : f.isDeclaration = false) (hb : BodyCode ⟨m, f, .globals⟩ [] ss)
    (hs : Shows m w s (e.sync m)) {n : Nat} {r : Except Fault Int32} {s' : Store}
    (h : (topLevel w n ss s).map outcome = some (r, s')) :
    ∃ k e', e.run k m id [] = some (r, e') ∧ Shows m w s' e' := by
  have hrun := topLevel_follows hlink hf hb hs n
  simp only [run_entry hf hd]
  rcases ht : topLevel w n ss s with _ | ⟨fault | v, s₁⟩
  · simp [ht] at h
  · rw [ht] at h hrun
    obtain ⟨rfl, rfl⟩ := Prod.mk.inj (Option.some.inj h)
    exact hrun
  · rw [ht] at h hrun
    obtain ⟨rfl, rfl⟩ := Prod.mk.inj (Option.some.inj h)
    obtain ⟨k, d, hk, e', he, hshow⟩ := hrun
    exact ⟨k + 1, e', (hk.run_eq 1).trans he, hshow⟩

/-- What the run gives, the evaluation gives within as many steps. -/
theorem topLevel_of_run (hlink : Linked m w) (hf : m.function? id = some f)
    (hd : f.isDeclaration = false) (hb : BodyCode ⟨m, f, .globals⟩ [] ss)
    (hs : Shows m w s (e.sync m)) {k : Nat} {r : Except Fault Int32} {e' : Engine}
    (h : e.run k m id [] = some (r, e')) :
    ∃ s', (topLevel w k ss s).map outcome = some (r, s') ∧ Shows m w s' e' := by
  have hsome : topLevel w k ss s ≠ none := by
    intro hnone
    have hrun := topLevel_follows hlink hf hb hs k
    rw [hnone] at hrun
    rw [run_entry hf hd] at h
    exact absurd (h.symm.trans hrun) (by simp)
  obtain ⟨⟨r₁, s₁⟩, hr⟩ := Option.ne_none_iff_exists'.1 hsome
  have hout : (topLevel w k ss s).map outcome = some (r₁.map (·.getD 0), s₁) := by
    rw [hr]
    rfl
  obtain ⟨k', e₁, hk', hshow⟩ := run_of_topLevel hlink hf hd hb hs hout
  rw [run_entry hf hd] at h hk'
  obtain ⟨rfl, rfl⟩ := Prod.mk.inj (Config.run_unique h hk')
  exact ⟨s₁, hout, hshow⟩

end TopLevel
end IntLang.Code
