import IntLang.Proofs.Code
import IntLang.Proofs.Runs

/-! Single steps through code. The state of the machine at a place of a body is tied to the store of
an evaluation: the text is the same, and every variable that the body knows has its value. -/
namespace IntLang.Code
open IntLang.Flow IntLang.Machine IntLang.Meaning

/-- One activation of a body, with what waits for it. -/
structure Activation where
  site : Site
  id : FuncId
  below : Array Frame
  globals : Array Int32

/-- Each variable has a cell of the frame to itself, and the cell holds its value. -/
def SlotsAgree (f : Function) (known : List (String × Operand)) (fr : Frame)
    (vars : String → Int32) : Prop :=
  ∃ cell : String → Nat,
    (∀ x p, known.lookup x = some p → ∃ id name, p = .instr id ∧
      f.instrs[id]? = some (.alloca name) ∧ fr.results[id]? = some (.cell (cell x)) ∧
      fr.cells[cell x]? = some (vars x)) ∧
    ∀ x y p q, known.lookup x = some p → known.lookup y = some q → cell x = cell y → x = y

/-- Every global cell holds the value of its variable, and a variable without one is zero. -/
structure GlobalsAgree (m : Module) (globals : Array Int32) (vars : String → Int32) : Prop where
  size : globals.size = m.globals.size
  cell : ∀ x g, m.findGlobal? x = some g → globals[g]? = some (vars x)
  unseen : ∀ x, m.findGlobal? x = none → vars x = 0

namespace Activation

def Agrees (t : Activation) (fr : Frame) (globals : Array Int32) (vars : String → Int32) : Prop :=
  match t.site.scope with
  | .slots known => globals = t.globals ∧ SlotsAgree t.site.function known fr vars
  | .globals => GlobalsAgree t.site.module globals vars

def Remains (t : Activation) (globals : Array Int32) (vars : String → Int32) : Prop :=
  match t.site.scope with
  | .slots _ => globals = t.globals
  | .globals => GlobalsAgree t.site.module globals vars

theorem Agrees.remains {t : Activation} {fr : Frame} {globals : Array Int32}
    {vars : String → Int32} (h : t.Agrees fr globals vars) : t.Remains globals vars := by
  unfold Agrees at h
  unfold Remains
  split at h
  · exact h.1
  · exact h

end Activation

/-- An engine in the world of an evaluation, with the text of its store. -/
structure Serves (w : World) (s : Store) (e : Engine) : Prop where
  natives : e.natives = w.natives
  sink : e.sink = w.sink
  output : e.output = s.output

/-- What a fault leaves behind. -/
structure Left (t : Activation) (w : World) (s : Store) (e : Engine) : Prop where
  serves : Serves w s e
  remains : t.Remains e.globals s.vars

/-- The machine stands at `a` in the activation `t`. -/
structure Stands (t : Activation) (w : World) (s : Store) (a : Cursor) (c : Config) : Prop where
  function : c.top.function = t.id
  block : c.top.block = a.block
  next : c.top.next = a.index
  pending : c.top.pending = none
  size : c.top.results.size = t.site.function.instrs.size
  below : c.below = t.below
  serves : Serves w s c.engine
  agrees : t.Agrees c.top c.engine.globals s.vars

theorem Stands.congr {t : Activation} {w : World} {s : Store} {a b : Cursor} {c : Config}
    (h : Stands t w s a c) (hb : b.block = a.block) (hi : b.index = a.index) : Stands t w s b c :=
  { h with block := h.block.trans hb.symm, next := h.next.trans hi.symm }

/-- Results with an index below `k` are the same. -/
def Keeps (k : Nat) (c d : Config) : Prop :=
  ∀ id, id < k → d.top.results[id]? = c.top.results[id]?

theorem Keeps.refl (k : Nat) (c : Config) : Keeps k c c :=
  fun _ _ => rfl

theorem Keeps.trans {k : Nat} {c d e : Config} (h : Keeps k c d) (h' : Keeps k d e) : Keeps k c e :=
  fun id hid => (h' id hid).trans (h id hid)

theorem Keeps.less {j k : Nat} {c d : Config} (h : Keeps k c d) (hj : j ≤ k) : Keeps j c d :=
  fun id hid => h id (Nat.lt_of_lt_of_le hid hj)

/-- An operand that refers to no result from `k` on. -/
def Below (k : Nat) (v : Operand) : Prop :=
  ∀ id, v = .instr id → id < k

def Plain : Operand → Prop
  | .param _ => False
  | _ => True

variable {fr : Frame} {v : Operand} {globals : Array Int32} {m : Module}

theorem Keeps.eval {k : Nat} {c d : Config} (h : Keeps k c d) (hv : Below k v)
    (hp : Plain v) : d.top.eval v = c.top.eval v := by
  cases v with
  | instr id => simp only [Frame.eval, h id (hv id rfl)]
  | param i => exact hp.elim
  | _ => rfl

theorem int_of_eval {n : Int32} (h : fr.eval v = .int n) : fr.int v = .ok n := by
  rw [Frame.int, h]

theorem int_of_eval_bool {b : Bool} (h : fr.eval v = .bool b) : fr.int v = .ok (if b then 1 else 0) := by
  rw [Frame.int, h]

theorem step_of_holds {f : Function} {id : InstrId} {i : Instr} (hf : m.function? fr.function = some f)
    (h : Holds f fr.block fr.next id i) : fr.step m globals = fr.exec f.name globals id i := by
  obtain ⟨blk, hb, hid, hi⟩ := h
  simp [Frame.step, hf, hb, hid, hi]

section Steps
variable {t : Activation} {w : World} {s : Store} {a b : Cursor} {c : Config}
  {i : Instr} {id : InstrId}

theorem Stands.step_eq (hf : t.site.module.function? t.id = some t.site.function)
    (h : Stands t w s a c) (he : Emitted t.site.function a i id b) :
    c.top.step t.site.module c.engine.globals =
      c.top.exec t.site.function.name c.engine.globals id i := by
  apply step_of_holds
  · rw [h.function, hf]
  · rw [h.block, h.next]
    exact he.holds

theorem Stands.leave_eq (hf : t.site.module.function? t.id = some t.site.function)
    {k : Terminator} (h : Stands t w s a c) (hk : Closed t.site.function a k) :
    ∃ blk, blk.terminator = some k ∧
      c.top.step t.site.module c.engine.globals =
        c.top.leave t.site.function blk c.engine.globals := by
  obtain ⟨blk, hb, hs, ht⟩ := hk
  refine ⟨blk, ht, ?_⟩
  have hn : blk.instrs[c.top.next]? = none := by simp [h.next, ← hs]
  simp [Frame.step, h.function, hf, h.block, hb, hn]

theorem step_of_proceed (h : c.top.step m c.engine.globals = .ok (.proceed fr globals)) :
    c.step m = .running ⟨{ c.engine with globals := globals }, fr, c.below⟩ := by
  rw [Config.step, h]

theorem step_of_error {f : Fault}
    (h : c.top.step m c.engine.globals = .error f) : c.step m = .finished (.error f) c.engine := by
  rw [Config.step, h]

theorem SlotsAgree.give {f : Function} {known : List (String × Operand)}
    {vars : String → Int32} (h : SlotsAgree f known fr vars) (r : Slot)
    (hi : ∀ name, f.instrs[id]? ≠ some (.alloca name)) : SlotsAgree f known (fr.give id r) vars := by
  obtain ⟨cell, hc, hinj⟩ := h
  refine ⟨cell, fun x p hp => ?_, hinj⟩
  obtain ⟨id', name, rfl, ha, hr, hv⟩ := hc x p hp
  refine ⟨id', name, rfl, ha, ?_, hv⟩
  have hne : id ≠ id' := fun e => hi name (e ▸ ha)
  simpa [Frame.give, Array.getElem?_setIfInBounds_ne hne] using hr

/-- Noting a result moves on by one place and changes no variable. -/
theorem Stands.give (h : Stands t w s a c) (he : Emitted t.site.function a i id b) (r : Slot)
    (hi : ∀ name, i ≠ .alloca name) :
    Stands t w s b ⟨c.engine, c.top.give id r, c.below⟩ := by
  obtain ⟨blk, hb, hid, hii⟩ := he.holds
  refine ⟨h.function, ?_, ?_, h.pending, ?_, h.below, h.serves, ?_⟩
  · exact h.block.trans he.block.symm
  · exact (congrArg (· + 1) h.next).trans he.index.symm
  · simpa [Frame.give] using h.size
  · have hag := h.agrees
    unfold Activation.Agrees at hag ⊢
    split at hag
    · exact ⟨hag.1, hag.2.give r fun name hn => hi name (Option.some.inj (hii.symm.trans hn))⟩
    · exact hag

theorem Stands.eval_give (h : Stands t w s a c) (he : Emitted t.site.function a i id b) (r : Slot) :
    (c.top.give id r).eval (.instr id) = r := by
  obtain ⟨blk, -, -, hii⟩ := he.holds
  have hlt : id < c.top.results.size := by
    rw [h.size]
    exact (Array.getElem?_eq_some_iff.1 hii).1
  simp [Frame.eval, Frame.give, hlt]

theorem keeps_give (he : Emitted t.site.function a i id b) (r : Slot) :
    Keeps a.fresh c ⟨c.engine, c.top.give id r, c.below⟩ := by
  intro j hj
  have hne : id ≠ j := Nat.ne_of_gt (Nat.lt_of_lt_of_le hj he.lower)
  simp [Frame.give, Array.getElem?_setIfInBounds_ne hne]

/-- One step through an instruction that only gives a result. -/
theorem Stands.gives (hf : t.site.module.function? t.id = some t.site.function)
    (h : Stands t w s a c) (he : Single t.site.function i a v b) {r : Slot}
    (hi : ∀ name, i ≠ .alloca name)
    (hx : ∀ id, c.top.exec t.site.function.name c.engine.globals id i =
      .ok (.proceed (c.top.give id r) c.engine.globals)) :
    ∃ d, Steps t.site.module 1 c d ∧ Stands t w s b d ∧ d.top.eval v = r ∧ Keeps a.fresh c d := by
  obtain ⟨id, he, rfl⟩ := he
  refine ⟨_, .one (step_of_proceed ((h.step_eq hf he).trans (hx id))), h.give he r hi, ?_, ?_⟩
  · exact h.eval_give he r
  · exact keeps_give he r

/-- A jump comes to the start of its target. -/
theorem Stands.goto (h : Stands t w s a c) (dest : BlockId) (k : Nat) :
    Stands t w s ⟨dest, 0, k⟩ ⟨c.engine, c.top.goto dest, c.below⟩ := by
  refine ⟨h.function, rfl, rfl, h.pending, h.size, h.below, h.serves, ?_⟩
  have hag := h.agrees
  unfold Activation.Agrees at hag ⊢
  split at hag <;> exact hag

theorem Stands.jumps (hf : t.site.module.function? t.id = some t.site.function)
    (h : Stands t w s a c) {dest : BlockId} (hk : Closed t.site.function a (.jump dest)) (k : Nat) :
    ∃ d, Steps t.site.module 1 c d ∧ Stands t w s ⟨dest, 0, k⟩ d ∧
      d.top.previous = some a.block ∧ Keeps k c d := by
  obtain ⟨blk, ht, hs⟩ := h.leave_eq hf hk
  refine ⟨⟨c.engine, c.top.goto dest, c.below⟩, .one (step_of_proceed (hs.trans ?_)), h.goto dest k, ?_,
    fun _ _ => rfl⟩
  · rw [Frame.leave, ht]
  · exact congrArg some h.block

theorem Stands.branches (hf : t.site.module.function? t.id = some t.site.function)
    (h : Stands t w s a c) {onTrue onFalse : BlockId} {p : Bool}
    (hk : Closed t.site.function a (.branch v onTrue onFalse)) (hv : c.top.eval v = .bool p)
    (k : Nat) :
    ∃ d, Steps t.site.module 1 c d ∧ Stands t w s ⟨if p then onTrue else onFalse, 0, k⟩ d ∧
      Keeps k c d := by
  obtain ⟨blk, ht, hs⟩ := h.leave_eq hf hk
  refine ⟨⟨c.engine, c.top.goto (if p then onTrue else onFalse), c.below⟩,
    .one (step_of_proceed (hs.trans ?_)), h.goto _ k, fun _ _ => rfl⟩
  rw [Frame.leave, ht]
  simp only [int_of_eval_bool hv]
  cases p <;> rfl

end Steps
end IntLang.Code
