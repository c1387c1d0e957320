import IntLang.Proofs.SessionInvariant

/-! Functions of a program are isolated from the variables at top level. No instruction of such a
function can get hold of a global cell, and all that it calls stays as it is, so two runs of it in
different states of a session go side by side: they differ in nothing but the text before them. -/
namespace IntLang
open IntLang.Flow IntLang.Machine IntLang.Meaning IntLang.Code

namespace Machine.Frame
variable {fr : Frame} {v : Operand}

/-- No result is the address of a global cell. -/
def Clean (fr : Frame) : Prop :=
  ∀ (i : Nat) (g : GlobalId), fr.results[i]? ≠ some (.global g)

theorem Clean.eval (h : fr.Clean) (hv : v.Local) (g : GlobalId) : fr.eval v ≠ .global g := by
  cases v with
  | bool b => simp [Frame.eval]
  | int n => simp [Frame.eval]
  | param i =>
    rw [Frame.eval]
    split <;> simp
  | instr id =>
    rw [Frame.eval]
    cases hr : fr.results[id]? with
    | none => simp
    | some s =>
      rintro rfl
      exact h id g hr
  | global g' => exact hv.elim

theorem Clean.set (h : fr.Clean) (id : InstrId) {s : Slot} (hs : ∀ g, s ≠ .global g) (i : Nat)
    (g : GlobalId) : (fr.results.setIfInBounds id s)[i]? ≠ some (.global g) := by
  rw [Array.getElem?_setIfInBounds]
  split
  · split
    · exact fun heq => hs g (Option.some.inj heq)
    · nofun
  · exact h i g

theorem Clean.give (h : fr.Clean) (id : InstrId) {s : Slot} (hs : ∀ g, s ≠ .global g) :
    (fr.give id s).Clean :=
  h.set id hs

theorem Clean.resume (h : fr.Clean) (n : Int32) : (fr.resume n).Clean := by
  unfold Frame.resume
  split
  · exact h.set _ nofun
  · exact h

end Machine.Frame

/-- What a frame does next has nothing to do with the global cells, and calls one of `callees` at
most. -/
inductive Quiet (fr : Frame) (callees : FuncId → Prop) (x : Array Int32 → Except Fault Action) :
    Prop where
  | fault (f : Fault) (h : ∀ globals, x globals = .error f)
  | proceed (fr' : Frame) (clean : fr'.Clean) (same : fr'.function = fr.function)
      (h : ∀ globals, x globals = .ok (.proceed fr' globals))
  | call (fr' : Frame) (callee : FuncId) (args : List Int32) (clean : fr'.Clean)
      (same : fr'.function = fr.function) (hc : callees callee)
      (h : ∀ globals, x globals = .ok (.call fr' callee args))
  | ret (n : Int32) (h : ∀ globals, x globals = .ok (.ret n))

theorem Quiet.bind {fr : Frame} {callees : FuncId → Prop} {α : Type} (y : Except Fault α)
    {k : α → Array Int32 → Except Fault Action} (h : ∀ a, y = .ok a → Quiet fr callees (k a)) :
    Quiet fr callees fun globals => y >>= fun a => k a globals := by
  cases y with
  | error f => exact .fault f fun _ => rfl
  | ok a => exact h a rfl

namespace Machine.Frame
variable {fr : Frame}

theorem arithSlot_ne_global {op : ArithOp} {l r : Operand} {s : Slot}
    (h : fr.arithSlot op l r = .ok s) (g : GlobalId) : s ≠ .global g := by
  unfold arithSlot at h
  split at h
  · cases h
    nofun
  · cases h
    nofun
  · cases hl : fr.int l with
    | error f => simp [hl, bind, Except.bind] at h
    | ok a =>
      cases hr : fr.int r with
      | error f => simp [hl, hr, bind, Except.bind] at h
      | ok b =>
        simp only [hl, hr, bind, Except.bind] at h
        split at h
        · cases h
        · cases h
          nofun

/-- An instruction without the address of a global cell leaves the global cells alone. -/
theorem Clean.exec (h : fr.Clean) (id : InstrId) (name : String) {i : Instr} (hi : i.Local) :
    Quiet fr (fun callee => ∃ vs, i = .call callee vs) fun globals => fr.exec name globals id i := by
  have hlocal (v : Operand) (hv : v ∈ i.operands) := h.eval (hi v hv)
  cases i with
  | alloca name =>
    have hc : ({ fr with cells := fr.cells.push 0 }.give id (.cell fr.cells.size)).Clean :=
      h.set id (by simp)
    exact .proceed _ hc rfl fun _ => rfl
  | load a =>
    have ha := hlocal a (by simp [Instr.operands])
    simp only [Frame.exec]
    cases hs : fr.eval a with
    | cell k => exact .proceed _ (h.give id (s := .int _) (by simp)) rfl fun _ => rfl
    | global g => exact absurd hs (ha g)
    | undef | int | bool => exact .fault _ fun _ => rfl
  | store v a =>
    have ha := hlocal a (by simp [Instr.operands])
    refine .bind (fr.int v) fun n _ => ?_
    cases hs : fr.eval a with
    | cell k =>
      have hc : ({ fr with cells := fr.cells.setIfInBounds k n }.advance).Clean := h
      exact .proceed _ hc rfl fun _ => rfl
    | global g => exact absurd hs (ha g)
    | undef | int | bool => exact .fault _ fun _ => rfl
  | arith op ty l r =>
    refine .bind (fr.arithSlot op l r) fun s hs => ?_
    exact .proceed _ (h.give id (arithSlot_ne_global hs)) rfl fun _ => rfl
  | compare op l r =>
    refine .bind (fr.int l) fun a _ => .bind (fr.int r) fun b _ => ?_
    exact .proceed _ (h.give id (s := .bool _) (by simp)) rfl fun _ => rfl
  | widen v =>
    refine .bind (fr.int v) fun n _ => ?_
    exact .proceed _ (h.give id (s := .int n) (by simp)) rfl fun _ => rfl
  | phi ty incoming =>
    simp only [Frame.exec]
    cases hfind : incoming.find? (fun x => fr.previous = some x.2) with
    | none => exact .fault _ fun _ => rfl
    | some x =>
      have hx := hlocal x.1 (List.mem_map_of_mem (List.mem_of_find?_eq_some hfind))
      exact .proceed _ (h.give id hx) rfl fun _ => rfl
  | call callee args =>
    refine .bind (fr.ints args) fun ns _ => ?_
    have hc : ({ fr.advance with pending := some id } : Frame).Clean := h
    exact .call _ callee ns hc rfl ⟨args, rfl⟩ fun _ => rfl

theorem Clean.leave (h : fr.Clean) (f : Function) (b : Block) :
    Quiet fr (fun _ => False) fun globals => fr.leave f b globals := by
  unfold Frame.leave
  cases b.terminator with
  | none => exact .fault _ fun _ => rfl
  | some t =>
    cases t with
    | jump dest => exact .proceed (fr.goto dest) h rfl fun _ => rfl
    | branch v onTrue onFalse =>
      refine .bind (fr.int v) fun n _ => ?_
      exact .proceed (fr.goto (if n = 0 then onFalse else onTrue)) h rfl fun _ => rfl
    | ret v => exact .bind (fr.int v) fun n _ => .ret n fun _ => rfl

end Machine.Frame

/-- The functions of a program use no global cell, and whatever they call is there. -/
structure Flow.Module.Closed (m : Module) : Prop where
  isolated : m.Isolated
  calls : ∀ id f callee vs, m.function? id = some f → f.synthetic = false →
    f.Contains (.call callee vs) → ∃ g, m.function? callee = some g
  routines : ∀ id f, m.function? id = some f → f.synthetic = true → f.isDeclaration = true

structure Flow.Module.Hosts (m : Module) (fr : Frame) : Prop where
  clean : fr.Clean
  function : ∃ f, m.function? fr.function = some f ∧ f.synthetic = false

/-- What code of `m` refers to is there in `m'` too, and the engines differ in nothing that it can
find out. -/
structure Beside (m m' : Module) (e e' : Engine) : Prop where
  closed : m.Closed
  same : ∀ id f, m.function? id = some f → m'.function? id = some f
  natives : e'.natives = e.natives
  sink : ∀ text line, e'.sink.refuses (e'.output ++ text) line = e.sink.refuses (e.output ++ text) line

section Beside
variable {m m' : Module} {e e' : Engine}

theorem Machine.Engine.print_print (e : Engine) (text more : String) :
    (e.print text).print more = e.print (text ++ more) := by
  simp only [Engine.print, String.append_assoc]

theorem Machine.Engine.print_empty (e : Engine) : e.print "" = e := by
  simp only [Engine.print, String.append_empty]

theorem Machine.Engine.print_inj {text more : String} (h : e.print text = e.print more) :
    text = more := by
  have hlist := congrArg (fun e => e.output.toList) h
  simp only [Engine.print, String.toList_append, List.append_cancel_left_eq] at hlist
  exact String.toList_inj.1 hlist

theorem Flow.Module.Closed.step (h : m.Closed) {fr : Frame} (hfr : m.Hosts fr) :
    Quiet fr (fun callee => ∃ g, m.function? callee = some g) fun globals => fr.step m globals := by
  obtain ⟨f, hf, hsyn⟩ := hfr.function
  simp only [Frame.step, hf]
  cases hb : f.blocks[fr.block]? with
  | none => exact .fault _ fun _ => rfl
  | some b =>
    simp only
    cases hi : b.instrs[fr.next]?.bind fun id => f.instrs[id]?.map (id, ·) with
    | none =>
      simp only
      cases hfr.clean.leave f b with
      | fault x h => exact .fault x h
      | proceed fr' hc hf h => exact .proceed fr' hc hf h
      | call fr' callee args hc hf hno h => exact hno.elim
      | ret n h => exact .ret n h
    | some x =>
      obtain ⟨id, hid, hx⟩ := Option.bind_eq_some_iff.1 hi
      obtain ⟨i, hinstr, rfl⟩ := Option.map_eq_some_iff.1 hx
      simp only
      have hlocal := h.isolated fr.function f hf hsyn i
        (Array.mem_toList_iff.2 (Array.mem_of_getElem? hinstr))
      cases hfr.clean.exec id f.name hlocal with
      | fault x h => exact .fault x h
      | proceed fr' hc hf h => exact .proceed fr' hc hf h
      | call fr' callee args hc hfun hcall heq =>
        obtain ⟨vs, rfl⟩ := hcall
        refine .call fr' callee args hc hfun (h.calls fr.function f callee vs hf hsyn ?_) heq
        exact ⟨b, Array.mem_of_getElem? hb, id, Array.mem_of_getElem? hid, hinstr⟩
      | ret n h => exact .ret n h

theorem Beside.enter (h : Beside m m' e e') {callee : FuncId} {g : Function}
    (hg : m.function? callee = some g) (args : List Int32) (text : String) :
    (e'.print text).enter m' callee args = (e.print text).enter m callee args := by
  simp only [Engine.enter, hg, h.same callee g hg]
  split
  · have hcall (native : Native) : (e'.print text).callNative g.name native args =
        (e.print text).callNative g.name native args := by
      simp only [Engine.callNative, Engine.print, h.sink]
    simp only [Engine.print, h.natives] at hcall ⊢
    simp only [hcall]
  · rfl

theorem Flow.Module.Hosts.next {fr fr' : Frame} (h : m.Hosts fr) (hc : fr'.Clean)
    (hf : fr'.function = fr.function) : m.Hosts fr' := by
  refine ⟨hc, ?_⟩
  rw [hf]
  exact h.function

theorem Flow.Module.Hosts.resume {fr : Frame} (h : m.Hosts fr) (n : Int32) : m.Hosts (fr.resume n) := by
  refine h.next (h.clean.resume n) ?_
  unfold Frame.resume
  split <;> rfl

/-- A function that is called begins with a frame of its own. -/
theorem Flow.Module.Closed.enter (h : m.Closed) {callee : FuncId} {args : List Int32} {fr : Frame}
    (hrun : e.enter m callee args = .ok (.frame fr)) : m.Hosts fr := by
  unfold Engine.enter at hrun
  cases hg : m.function? callee with
  | none => simp [hg] at hrun
  | some g =>
    simp only [hg] at hrun
    split at hrun
    · split at hrun <;> cases hrun
    · next hd =>
      obtain rfl := Entered.frame.inj (Except.ok.inj hrun)
      refine ⟨fun i g' => ?_, g, hg, ?_⟩
      · simp only [Array.getElem?_replicate]
        split <;> nofun
      · cases hs : g.synthetic with
        | false => rfl
        | true => exact absurd (h.routines callee g hg hs) hd

/-- One step of each run: both end alike, or both go on alike. -/
theorem Beside.step (h : Beside m m' e e') (text : String) {top : Frame} {below : Array Frame}
    (htop : m.Hosts top) (hbelow : ∀ fr ∈ below, m.Hosts fr) :
    (∃ r more, Config.step m ⟨e.print text, top, below⟩ = .finished r (e.print more) ∧
        Config.step m' ⟨e'.print text, top, below⟩ = .finished r (e'.print more)) ∨
      ∃ more top' below', m.Hosts top' ∧ (∀ fr ∈ below', m.Hosts fr) ∧
        Config.step m ⟨e.print text, top, below⟩ = .running ⟨e.print more, top', below'⟩ ∧
        Config.step m' ⟨e'.print text, top, below⟩ = .running ⟨e'.print more, top', below'⟩ := by
  have hstep' (globals : Array Int32) : top.step m' globals = top.step m globals := by
    obtain ⟨f, hf, -⟩ := htop.function
    simp only [Frame.step, hf, h.same _ f hf]
  cases h.closed.step htop with
  | fault f heq =>
    exact .inl ⟨.error f, text, by simp only [Config.step, heq], by simp only [Config.step, hstep', heq]⟩
  | proceed fr hc hf heq =>
    exact .inr ⟨text, fr, below, htop.next hc hf, hbelow, by simp only [Config.step, heq],
      by simp only [Config.step, hstep', heq]⟩
  | ret n heq =>
    cases hback : below.back? with
    | none =>
      exact .inl ⟨.ok n, text, by simp only [Config.step, heq, hback],
        by simp only [Config.step, hstep', heq, hback]⟩
    | some caller =>
      refine .inr ⟨text, caller.resume n, below.pop, ?_, fun fr hfr => ?_,
        by simp only [Config.step, heq, hback], by simp only [Config.step, hstep', heq, hback]⟩
      · exact (hbelow caller (Array.mem_of_back? hback)).resume n
      · refine hbelow fr (Array.mem_toList_iff.1 ((List.dropLast_prefix _).subset ?_))
        rw [← Array.toList_pop]
        exact Array.mem_toList_iff.2 hfr
  | call fr callee args hc hf hg heq =>
    obtain ⟨g, hg⟩ := hg
    have henter := h.enter hg args text
    have hfr := htop.next hc hf
    cases hrun : (e.print text).enter m callee args with
    | error f =>
      rw [hrun] at henter
      exact .inl ⟨.error f, text, by simp only [Config.step, heq, hrun],
        by simp only [Config.step, hstep', heq, henter]⟩
    | ok x =>
      rw [hrun] at henter
      cases x with
      | frame fr' =>
        by_cases hdeep : below.size + 1 ≥ maxCallDepth
        · exact .inl ⟨.error .callDepth, text, by simp only [Config.step, heq, hrun, if_pos hdeep],
            by simp only [Config.step, hstep', heq, henter, if_pos hdeep]⟩
        · refine .inr ⟨text, fr', below.push fr, h.closed.enter hrun, fun x hx => ?_,
            by simp only [Config.step, heq, hrun, if_neg hdeep],
            by simp only [Config.step, hstep', heq, henter, if_neg hdeep]⟩
          rcases Array.mem_push.1 hx with hx | rfl
          · exact hbelow x hx
          · exact hfr
      | result r more =>
        have hprint := e.print_print text more
        have hprint' := e'.print_print text more
        cases r with
        | error f =>
          exact .inl ⟨.error f, text ++ more, by simp only [Config.step, heq, hrun, hprint],
            by simp only [Config.step, hstep', heq, henter, hprint']⟩
        | ok n =>
          exact .inr ⟨text ++ more, fr.resume n, below, hfr.resume n, hbelow,
            by simp only [Config.step, heq, hrun, hprint],
            by simp only [Config.step, hstep', heq, henter, hprint']⟩

theorem Beside.run (h : Beside m m' e e') {r : Except Fault Int32} {last : Engine} (n : Nat) :
    ∀ (text : String) {top : Frame} {below : Array Frame}, m.Hosts top →
      (∀ fr ∈ below, m.Hosts fr) → Config.run m n ⟨e.print text, top, below⟩ = some (r, last) →
      ∃ more, last = e.print more ∧
        Config.run m' n ⟨e'.print text, top, below⟩ = some (r, e'.print more) := by
  induction n with
  | zero =>
    intro text top below _ _ hrun
    cases hrun
  | succ n ih =>
    intro text top below htop hbelow hrun
    rcases h.step text htop hbelow with ⟨r', more, hs, hs'⟩ | ⟨more, top', below', htop', hbelow', hs, hs'⟩
    · simp only [Config.run, hs] at hrun
      obtain ⟨rfl, rfl⟩ := Prod.mk.inj (Option.some.inj hrun)
      exact ⟨more, rfl, by simp only [Config.run, hs']⟩
    · simp only [Config.run, hs] at hrun
      obtain ⟨more', hlast, hrun'⟩ := ih more htop' hbelow' hrun
      exact ⟨more', hlast, by simpa only [Config.run, hs'] using hrun'⟩

/-- A run of a function of the program adds to the text and changes nothing else. -/
theorem Beside.run_function {n : Nat} {id : FuncId} {f : Function} {args : List Int32}
    {r : Except Fault Int32} {last : Engine} (h : Beside m m' (e.sync m) (e'.sync m'))
    (hf : m.function? id = some f) (hrun : e.run n m id args = some (r, last)) :
    ∃ text, last = (e.sync m).print text ∧ e'.run n m' id args = some (r, (e'.sync m').print text) := by
  have henter := h.enter hf args ""
  rw [Engine.print_empty, Engine.print_empty] at henter
  unfold Engine.run at hrun ⊢
  dsimp only at hrun ⊢
  rw [henter]
  cases hent : (e.sync m).enter m id args with
  | error fault =>
    rw [hent] at hrun
    obtain ⟨rfl, rfl⟩ := Prod.mk.inj (Option.some.inj hrun)
    refine ⟨"", (Engine.print_empty _).symm, ?_⟩
    rw [Engine.print_empty]
  | ok x =>
    rw [hent] at hrun
    cases x with
    | result r' text =>
      obtain ⟨rfl, rfl⟩ := Prod.mk.inj (Option.some.inj hrun)
      exact ⟨text, rfl, rfl⟩
    | frame top =>
      have hnone : ∀ fr ∈ (#[] : Array Frame), m.Hosts fr := fun fr hfr =>
        absurd hfr (Array.not_mem_empty fr)
      have hstart : Config.run m n ⟨(e.sync m).print "", top, #[]⟩ = some (r, last) := by
        rw [Engine.print_empty]
        exact hrun
      have hgo := h.run n "" (h.closed.enter hent) hnone hstart
      rw [Engine.print_empty] at hgo
      exact hgo

end Beside

section Sessions
variable {e : Engine} {ds ds' : List FunctionDef} {store store' : Store} {s s' : Session}

theorem InOrder.closed (h : InOrder e ds store s) : s.module.Closed := by
  refine ⟨h.isolated, fun id f callee vs hf _ hcall => ?_, fun id f hf hs => ?_⟩
  · obtain ⟨blk, hblk, j, hj, hi⟩ := hcall
    obtain ⟨g, hg, -⟩ := h.calls hf ⟨blk, hblk, j, hj, hi⟩
    exact ⟨g, hg⟩
  · exact (h.image.tidy.routines id f hf (h.bare id f hf hs).name).1

theorem InOrder.natives (h : InOrder e ds store s) : s.engine.natives = e.mapAll.natives :=
  h.shown.serves.natives

theorem InOrder.sink (h : InOrder e ds store s) : s.engine.sink = e.sink :=
  h.shown.serves.sink

theorem InOrder.beside (h : InOrder e ds store s) (h' : InOrder e ds' store' s')
    (hsame : ∀ id f, s.module.function? id = some f → s'.module.function? id = some f)
    (hsink : ∀ text line, e.sink.refuses (s'.engine.output ++ text) line =
      e.sink.refuses (s.engine.output ++ text) line) :
    Beside s.module s'.module (s.engine.sync s.module) (s'.engine.sync s'.module) := by
  refine ⟨h.closed, hsame, h'.natives.trans h.natives.symm, fun text line => ?_⟩
  change s'.engine.sink.refuses (s'.engine.output ++ text) line =
    s.engine.sink.refuses (s.engine.output ++ text) line
  rw [h.sink, h'.sink]
  exact hsink text line

theorem Session.call_eq {bound : Nat} {f : String} {id : FuncId} (hfind : s.module.find? f = some id)
    (args : List Int32) : s.call bound f args = (s.engine.run bound s.module id args).map fun x =>
      (x.1.mapError Fault.diagnostic, { s with engine := x.2 }) := by
  simp only [Session.call, hfind]
  rcases s.engine.run bound s.module id args with _ | ⟨f | n, e'⟩ <;> rfl

/-- Printing and creating the cells leave all values as they are. -/
theorem InOrder.globalValue_print (h : InOrder e ds store s) (text x : String) :
    ({ s with engine := (s.engine.sync s.module).print text } : Session).globalValue x =
      s.globalValue x := by
  have hsync : ((s.engine.sync s.module).print text).sync s.module =
      (s.engine.sync s.module).print text := by
    apply Engine.sync_of_size
    exact h.shown.globals.size
  simp only [Session.globalValue, Engine.globalValue, hsync]
  rfl

/-- A run of a function changes no value at top level, and its result and its text are the same in
every later state of the session. -/
theorem call_isolated (he : e.globals = #[]) {name : String} {steps : Nat} {items : List Item}
    {rs : List (Except Diagnostic Unit)}
    (hrun : (Session.new name e).executeAll steps items = some (rs, s)) {id : FuncId} {f : Function}
    (hf : s.module.function? id = some f) {bound : Nat} {args : List Int32}
    {r : Except Diagnostic Int32} {t : Session}
    (hcall : s.call bound f.name args = some (r, t)) :
    ∃ text, t = { s with engine := (s.engine.sync s.module).print text } ∧
      (∀ x, t.globalValue x = s.globalValue x) ∧
      ∀ steps' more rs' s', s.executeAll steps' more = some (rs', s') →
        (∀ written line, e.sink.refuses (s'.engine.output ++ written) line =
          e.sink.refuses (s.engine.output ++ written) line) →
        s'.call bound f.name args =
          some (r, { s' with engine := (s'.engine.sync s'.module).print text }) := by
  obtain ⟨store, h, -⟩ := (Executed.initial name he).toInOrder.executeAll items hrun
  have hfind : s.module.find? f.name = some id := h.image.tidy.find?_eq_some_iff.2 ⟨f, hf, rfl⟩
  rw [Session.call_eq hfind] at hcall
  obtain ⟨⟨v, last⟩, hfun, hres⟩ := Option.map_eq_some_iff.1 hcall
  obtain ⟨rfl, rfl⟩ := Prod.mk.inj hres
  have hself := h.beside h (fun _ _ hg => hg) fun _ _ => rfl
  obtain ⟨text, rfl, -⟩ := hself.run_function hf hfun
  refine ⟨text, rfl, h.globalValue_print text, fun steps' more rs' s' hmore hsink => ?_⟩
  obtain ⟨store', h', hsame⟩ := h.executeAll more hmore
  obtain ⟨text', htext, hrun'⟩ := (h.beside h' hsame hsink).run_function hf hfun
  have hfind' : s'.module.find? f.name = some id :=
    h'.image.tidy.find?_eq_some_iff.2 ⟨f, hsame id f hf, rfl⟩
  rw [Engine.print_inj htext, Session.call_eq hfind', hrun']
  rfl

/-- A function whose variable has the name of one at top level, a value for that, and then a second
function, a call that fails and a new value. -/
def sharedName : List Item × List Item :=
  ([.function ⟨"half", ["n"], [.assign "x" (.binary .div (.var "n") (.number 2)), .print [.var "x"],
      .ret (.binary .div (.number 12) (.var "x"))], false⟩,
    .statement (.assign "x" (.number 40))],
    [.function ⟨"twice", ["x"], [.ret (.binary .mul (.call "half" [.var "x"]) (.number 4))], false⟩,
      .statement (.assign "x" (.call "twice" [.number 1])),
      .statement (.assign "x" (.call "twice" [.number 7]))])

theorem call_isolated_sharedName :
    ∃ rs s rs' s' f t, (Session.new "m" {}).executeAll 200 sharedName.1 = some (rs, s) ∧
      s.executeAll 200 sharedName.2 = some (rs', s') ∧ s.module.function? 0 = some f ∧
      s.call 200 f.name [9] = some (.ok 3, t) ∧ s'.globalValue "x" = some 16 ∧
      s.globalValue "x" = some 40 ∧ t.globalValue "x" = some 40 ∧
      ∃ t', s'.call 200 f.name [9] = some (.ok 3, t') := by
  have hall : (((Session.new "m" {}).executeAll 200 sharedName.1).bind fun x =>
      (x.2.executeAll 200 sharedName.2).bind fun y => (x.2.module.function? 0).bind fun f =>
        (x.2.call 200 f.name [9]).map fun z =>
          (z.1, x.2.globalValue "x", y.2.globalValue "x")) = some (.ok 3, some 40, some 16) := by
    decide +kernel
  obtain ⟨⟨rs, s⟩, hs, hall⟩ := Option.bind_eq_some_iff.1 hall
  obtain ⟨⟨rs', s'⟩, hs', hall⟩ := Option.bind_eq_some_iff.1 hall
  obtain ⟨f, hf, hall⟩ := Option.bind_eq_some_iff.1 hall
  obtain ⟨⟨r, t⟩, ht, hall⟩ := Option.map_eq_some_iff.1 hall
  simp only [Prod.mk.injEq] at hall
  obtain ⟨rfl, hx, hx'⟩ := hall
  obtain ⟨text, -, hvalues, hlater⟩ := call_isolated (e := {}) rfl hs hf ht
  exact ⟨rs, s, rs', s', f, t, hs, hs', hf, ht, hx', hx, (hvalues "x").trans hx, _,
    hlater 200 sharedName.2 rs' s' hs' fun _ _ => rfl⟩

end Sessions
end IntLang
