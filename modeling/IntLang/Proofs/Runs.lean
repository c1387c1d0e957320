import IntLang.Proofs.Evaluation

/-! Runs of the machine, counted by steps, and what it means that a run follows an evaluation: it
comes to the value that the evaluation gives, it stops at the same fault, or it goes on for at least
as many steps as the evaluation was bounded by. What one instruction can come to is said once. -/
namespace IntLang

theorem except_bind_eq_ok {ε α β : Type} {x : Except ε α} {g : α → Except ε β} {b : β} :
    x >>= g = .ok b ↔ ∃ a, x = .ok a ∧ g a = .ok b := by
  cases x with
  | error e => simp [bind, Except.bind]
  | ok a => simp [bind, Except.bind]

theorem except_bind_eq_error {ε α β : Type} {x : Except ε α} {g : α → Except ε β} {e : ε} :
    x >>= g = .error e ↔ x = .error e ∨ ∃ a, x = .ok a ∧ g a = .error e := by
  cases x with
  | error e => simp [bind, Except.bind]
  | ok a => simp [bind, Except.bind]

end IntLang

namespace IntLang.Machine
open IntLang.Flow

/-- `n` steps, none of which ends the run. -/
inductive Steps (m : Module) : Nat → Config → Config → Prop where
  | refl (c : Config) : Steps m 0 c c
  | head {n : Nat} {c d e : Config} (step : c.step m = .running d) (rest : Steps m n d e) :
      Steps m (n + 1) c e

namespace Steps
variable {m : Module} {n k : Nat} {c d e : Config}

theorem one (h : c.step m = .running d) : Steps m 1 c d :=
  .head h (.refl d)

theorem trans (h : Steps m n c d) (h' : Steps m k d e) : Steps m (n + k) c e := by
  induction h with
  | refl => simpa using h'
  | head hs _ ih =>
    rw [Nat.add_right_comm]
    exact .head hs (ih h')

theorem run_eq (h : Steps m n c d) (k : Nat) : c.run m (n + k) = d.run m k := by
  induction h with
  | refl => rw [Nat.zero_add]
  | head hs _ ih =>
    rw [Nat.add_right_comm, Config.run, hs]
    exact ih

end Steps

namespace Config
variable {m : Module} {n k : Nat} {c : Config} {r : Except Fault Int32 × Engine}

theorem run_mono (h : c.run m n = some r) (hk : n ≤ k) : c.run m k = some r := by
  induction n generalizing c k with
  | zero => simp [run] at h
  | succ n ih =>
    obtain ⟨k, rfl⟩ : ∃ j, k = j + 1 := ⟨k - 1, by omega⟩
    rw [run] at h ⊢
    split at h
    · next hs => exact ih h (by omega)
    · next hs => exact h

theorem run_none_of_le (h : c.run m n = none) (hk : k ≤ n) : c.run m k = none := by
  cases hr : c.run m k with
  | none => rfl
  | some r => rw [run_mono hr hk] at h; cases h

/-- A run has one outcome, whatever number of steps it is given. -/
theorem run_unique {r' : Except Fault Int32 × Engine} (h : c.run m n = some r)
    (h' : c.run m k = some r') : r = r' := by
  have hn := run_mono h (Nat.le_max_left n k)
  rw [run_mono h' (Nat.le_max_right n k)] at hn
  exact (Option.some.inj hn).symm

end Config

namespace Frame
variable {fr : Frame} {id : InstrId} {i : Instr}

/-- What executing the instruction `id` can come to. -/
inductive Comes (fr : Frame) (id : InstrId) : Instr → Except Fault Action → Prop where
  | next {i : Instr} {fr' : Frame} {globals : Array Int32} (function : fr'.function = fr.function)
      (block : fr'.block = fr.block) (next : fr'.next = fr.next + 1)
      (previous : fr'.previous = fr.previous) (pending : fr'.pending = fr.pending)
      (results : fr'.results.size = fr.results.size) : Comes fr id i (.ok (.proceed fr' globals))
  | call {callee : FuncId} {vs : List Operand} {ns : List Int32} (args : fr.ints vs = .ok ns) :
      Comes fr id (.call callee vs) (.ok (.call { fr.advance with pending := some id } callee ns))
  | arith {op : ArithOp} {ty : Ty} {l r : Operand} {e : Fault} (slot : fr.arithSlot op l r = .error e) :
      Comes fr id (.arith op ty l r) (.error e)
  | notInteger {i : Instr} (s : Slot) : Comes fr id i (.error (.notInteger s))
  | loadThrough {i : Instr} (s : Slot) : Comes fr id i (.error (.loadThrough s))
  | storeThrough {i : Instr} (s : Slot) : Comes fr id i (.error (.storeThrough s))
  | noIncoming {ty : Ty} {incoming : List (Operand × BlockId)} {name : String}
      (unknown : incoming.find? (fun x => fr.previous = some x.2) = none) :
      Comes fr id (.phi ty incoming) (.error (.noIncoming name))

theorem int_eq_error {v : Operand} {e : Fault} (h : fr.int v = .error e) : ∃ s, e = .notInteger s := by
  unfold Frame.int at h
  split at h
  · cases h
  · cases h
  · exact ⟨_, (Except.error.inj h).symm⟩

theorem ints_eq_error {vs : List Operand} {e : Fault} (h : fr.ints vs = .error e) :
    ∃ s, e = .notInteger s := by
  induction vs with
  | nil => cases h
  | cons v vs ih =>
    rcases except_bind_eq_error.1 h with h | ⟨n, -, h⟩
    · exact int_eq_error h
    · rcases except_bind_eq_error.1 h with h | ⟨ns, -, h⟩
      · exact ih h
      · cases h

theorem Comes.int (v : Operand) {k : Int32 → Except Fault Action} (hk : ∀ n, fr.Comes id i (k n)) :
    fr.Comes id i (fr.int v >>= k) := by
  cases h : fr.int v with
  | error e =>
    obtain ⟨s, rfl⟩ := int_eq_error h
    exact .notInteger s
  | ok n => exact hk n

theorem Comes.ints (vs : List Operand) {k : List Int32 → Except Fault Action}
    (hk : ∀ ns, fr.ints vs = .ok ns → fr.Comes id i (k ns)) : fr.Comes id i (fr.ints vs >>= k) := by
  cases h : fr.ints vs with
  | error e =>
    obtain ⟨s, rfl⟩ := ints_eq_error h
    exact .notInteger s
  | ok ns => exact hk ns h

theorem comes_exec (fr : Frame) (name : String) (globals : Array Int32) (id : InstrId) (i : Instr) :
    fr.Comes id i (fr.exec name globals id i) := by
  have hgive (s : Slot) : fr.Comes id i (.ok (.proceed (fr.give id s) globals)) :=
    .next rfl rfl rfl rfl rfl Array.size_setIfInBounds
  cases i with
  | alloca => exact .next rfl rfl rfl rfl rfl Array.size_setIfInBounds
  | load a =>
    simp only [Frame.exec]
    split
    · exact hgive _
    · exact hgive _
    · exact .loadThrough _
  | store v a =>
    refine .int v fun n => ?_
    split
    · exact .next rfl rfl rfl rfl rfl rfl
    · exact .next rfl rfl rfl rfl rfl rfl
    · exact .storeThrough _
  | arith op ty l r =>
    cases h : fr.arithSlot op l r with
    | error e =>
      simp only [Frame.exec, h]
      exact .arith h
    | ok s =>
      simp only [Frame.exec, h]
      exact hgive s
  | compare op l r => exact .int l fun a => .int r fun b => hgive _
  | widen v => exact .int v fun n => hgive _
  | phi ty incoming =>
    simp only [Frame.exec]
    split
    · exact hgive _
    · exact .noIncoming ‹_›
  | call callee vs => exact .ints vs fun ns hns => .call hns

end Frame
end IntLang.Machine

namespace IntLang.Meaning
open IntLang.Flow IntLang.Machine

theorem bind_apply {α β : Type} (x : Eval α) (f : α → Eval β) (s : Store) :
    (x >>= f) s = match x s with
      | none => none
      | some (.error e, s') => some (.error e, s')
      | some (.ok a, s') => f a s' := by
  change (x s).bind _ = _
  rcases x s with _ | ⟨_ | _, _⟩ <;> rfl

/-- The run from `c` follows an evaluation with result `r`. A fault leaves an engine that `kept`
relates to the store; a value is met in a state that `post` describes. -/
def Follows {α : Type} (m : Module) (n : Nat) (kept : Store → Engine → Prop) (c : Config)
    (r : Option (Except Fault α × Store)) (post : α → Store → Config → Prop) : Prop :=
  match r with
  | none => c.run m n = none
  | some (.error f, s) => ∃ k e, c.run m k = some (.error f, e) ∧ kept s e
  | some (.ok a, s) => ∃ k d, Steps m k c d ∧ post a s d

namespace Follows
variable {α β : Type} {m : Module} {n k : Nat} {kept kept' : Store → Engine → Prop}
  {c d : Config} {r : Option (Except Fault α × Store)} {post post' : α → Store → Config → Prop}

theorem value {a : α} {s : Store} (h : post a s c) :
    Follows m n kept c (some (.ok a, s)) post :=
  ⟨0, c, .refl c, h⟩

theorem less (h : Follows m n kept c r post) (hk : k ≤ n) : Follows m k kept c r post := by
  rcases r with _ | ⟨_ | _, _⟩
  · exact Config.run_none_of_le h hk
  · exact h
  · exact h

/-- What follows an evaluation after some steps has followed it from the start, and for longer. -/
theorem after (hs : Steps m k c d) (h : Follows m n kept d r post) :
    Follows m (k + n) kept c r post := by
  rcases r with _ | ⟨f | a, s⟩
  · exact (hs.run_eq n).trans h
  · obtain ⟨j, e, hr, he⟩ := h
    exact ⟨k + j, e, (hs.run_eq j).trans hr, he⟩
  · obtain ⟨j, e, hr, he⟩ := h
    exact ⟨k + j, e, hs.trans hr, he⟩

theorem later (hs : Steps m k c d) (h : Follows m n kept d r post) : Follows m n kept c r post :=
  (after hs h).less (Nat.le_add_left n k)

theorem imp (h : Follows m n kept c r post) (hk : ∀ s e, kept s e → kept' s e)
    (hp : ∀ a s d, post a s d → post' a s d) : Follows m n kept' c r post' := by
  rcases r with _ | ⟨f | a, s⟩
  · exact h
  · obtain ⟨j, e, hr, he⟩ := h
    exact ⟨j, e, hr, hk s e he⟩
  · obtain ⟨j, e, hr, he⟩ := h
    exact ⟨j, e, hr, hp a s e he⟩

theorem bind {x : Eval α} {f : α → Eval β} {s : Store} {post' : β → Store → Config → Prop}
    (h : Follows m n kept c (x s) post)
    (hf : ∀ a s' d, post a s' d → Follows m n kept d (f a s') post') :
    Follows m n kept c ((x >>= f) s) post' := by
  rw [bind_apply]
  rcases hx : x s with _ | ⟨e | a, s'⟩
  · simpa [Follows, hx] using h
  · simpa [Follows, hx] using h
  · rw [hx] at h
    obtain ⟨k, d, hs, hp⟩ := h
    exact later hs (hf a s' d hp)

end Follows
end IntLang.Meaning
