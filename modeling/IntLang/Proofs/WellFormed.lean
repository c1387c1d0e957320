import IntLang.Proofs.SessionInvariant

/-! Generated code is well formed, so running it leads to no fault but those that a program itself
can bring about. -/
namespace IntLang
open IntLang.Flow IntLang.Machine IntLang.Meaning IntLang.Code

/-- Every phi opens its block, and every operand is defined before it is used and has the type that
the use needs. -/
structure Flow.Function.WellFormed (f : Function) : Prop where
  phis : ∀ b k id i, Holds f b k id i → i.IsPhi → k = 0
  operands : ∀ b k id i, Holds f b k id i → ∀ v ty, (v, ty) ∈ i.needs → f.Provides b k v ty
  ends : ∀ b k t, Leaves f b k t → ∀ v ty, (v, ty) ∈ t.needs → f.Provides b k v ty

structure Flow.Module.WellFormed (m : Module) : Prop where
  verify : m.verify = .ok ()
  functions : ∀ id f, m.function? id = some f → f.WellFormed

namespace Flow.Draft
variable {D : Draft} {m : Module} {b k : Nat} {id : InstrId} {i : Instr} {p : Piece}

/-- What stands at a position: the creation of a slot, the store of what it starts with, or an
instruction that was added to the block. -/
theorem holds_cases (h : Holds D.function b k id i) : ∃ p, D.blocks[b]? = some p ∧
    D.code[id]? = some i ∧
    ((b = 0 ∧ ∃ (j : Nat) (slot : InstrId) (init : Operand), D.slots[j]? = some (slot, init) ∧
      (id = slot ∧ k = j ∨ id = slot + 1 ∧ k = D.slots.length + j)) ∨
    ∃ k', p.instrs[k']? = some id ∧ k = (D.opening b).length + k') := by
  obtain ⟨blk, hblk, hk, hi⟩ := h
  rw [function_blocks] at hblk
  obtain ⟨p, hp, rfl⟩ := Option.map_eq_some_iff.1 hblk
  refine ⟨p, hp, by simpa using hi, ?_⟩
  simp only [blockAt, List.getElem?_toArray, List.getElem?_append] at hk
  split at hk
  · next hlt =>
    have h0 : b = 0 := by
      by_contra hne
      simp [opening, hne] at hlt
    subst h0
    refine .inl ⟨rfl, ?_⟩
    simp only [opening, ↓reduceIte, List.getElem?_append, List.length_map, List.getElem?_map] at hk
    split at hk
    · obtain ⟨⟨slot, init⟩, hj, rfl⟩ := Option.map_eq_some_iff.1 hk
      exact ⟨k, slot, init, hj, .inl ⟨rfl, rfl⟩⟩
    · obtain ⟨⟨slot, init⟩, hj, rfl⟩ := Option.map_eq_some_iff.1 hk
      exact ⟨k - D.slots.length, slot, init, hj, .inr ⟨rfl, by omega⟩⟩
  · exact .inr ⟨_, hk, by omega⟩

/-- Control never comes to the entry block, so what joins two outcomes is not there. -/
theorem Wired.joins_pos (h : D.Wired m) (hj : D.Joins b i) : 0 < b := by
  obtain ⟨z, w, -, hz⟩ := hj
  obtain ⟨p, t, hp, ht, hb⟩ := (hz z).2 (.inl rfl)
  exact ((h.ends z p t hp ht).1 b hb).1

/-- The address of a slot is there for the store of what the slot starts with. -/
theorem Finished.provides_slot (h : D.Finished m) {j : Nat} {slot : InstrId} {init : Operand}
    (hj : D.slots[j]? = some (slot, init)) :
    D.function.Provides 0 (D.slots.length + j) (.instr slot) .ptr := by
  obtain ⟨⟨name, ha⟩, -⟩ := h.slots.written j slot init hj
  have hlt := (List.getElem?_eq_some_iff.1 hj).1
  refine ⟨by simp [Function.typeOf, ha, Instr.resultTy?], ?_⟩
  rintro id ⟨⟩
  refine ⟨⟨_, by simpa using ha, rfl⟩, fun ids hw => ?_⟩
  obtain ⟨p, hp⟩ : ∃ p, D.blocks[0]? = some p :=
    ⟨_, List.getElem?_eq_getElem (List.length_pos_iff.2 h.nonempty)⟩
  refine (h.ordered.passed hw).1 j slot (D.blockAt 0 p) (by omega) (by rw [function_blocks, hp]; rfl) ?_
  have hopen : (D.opening 0)[j]? = some slot := by
    rw [opening, if_pos rfl, List.getElem?_append_left (by simpa using hlt), List.getElem?_map, hj]
    rfl
  simp only [blockAt, List.getElem?_toArray]
  rw [List.getElem?_append_left (List.getElem?_eq_some_iff.1 hopen).1, hopen]

theorem Finished.wellFormed (h : D.Finished m) : D.function.WellFormed where
  phis b k id i hi hphi := by
    obtain ⟨p, hp, hcode, ⟨rfl, j, slot, init, hj, hid⟩ | ⟨k', hk', rfl⟩⟩ := holds_cases hi
    · obtain ⟨⟨name, ha⟩, hst, -⟩ := h.slots.written j slot init hj
      rcases hid with ⟨rfl, -⟩ | ⟨rfl, -⟩
      · rw [Option.some.inj (hcode.symm.trans ha)] at hphi
        exact hphi.elim
      · rw [Option.some.inj (hcode.symm.trans hst)] at hphi
        exact hphi.elim
    · obtain ⟨i', hi', hcase⟩ := h.instrs b p k' id hp hk'
      obtain rfl := Option.some.inj (hcode.symm.trans hi')
      rcases hcase with hfit | ⟨rfl, hj⟩
      · exact absurd hphi hfit.not_isPhi
      · simp [opening, Nat.ne_of_gt (h.joins_pos hj)]
  operands b k id i hi v ty hv := by
    obtain ⟨p, hp, hcode, ⟨rfl, j, slot, init, hj, hid⟩ | ⟨k', hk', rfl⟩⟩ := holds_cases hi
    · obtain ⟨⟨name, ha⟩, hst, hstart⟩ := h.slots.written j slot init hj
      rcases hid with ⟨rfl, -⟩ | ⟨rfl, rfl⟩
      · rw [Option.some.inj (hcode.symm.trans ha)] at hv
        cases hv
      · rw [Option.some.inj (hcode.symm.trans hst)] at hv
        simp only [Instr.needs, List.mem_cons, List.not_mem_nil, or_false, Prod.mk.injEq] at hv
        rcases hv with ⟨rfl, rfl⟩ | ⟨rfl, rfl⟩
        · rcases hstart with rfl | ⟨n, rfl, -⟩
          · exact ⟨rfl, by simp⟩
          · exact ⟨rfl, by simp⟩
        · exact h.provides_slot hj
    · obtain ⟨i', hi', hneeds⟩ := h.ordered.uses b p k' id hp hk'
      obtain rfl := Option.some.inj (hcode.symm.trans hi')
      have hlt := (List.getElem?_eq_some_iff.1 hk').1
      exact h.ordered.provides hp (Nat.le_of_lt hlt) (hneeds v ty hv)
  ends b k t ht v ty hv := by
    obtain ⟨blk, hblk, rfl, ht⟩ := ht
    rw [function_blocks] at hblk
    obtain ⟨p, hp, rfl⟩ := Option.map_eq_some_iff.1 hblk
    have hbefore := (h.ordered.ends b p t hp ht).1 v ty hv
    rw [← List.take_length (l := p.instrs)] at hbefore
    simpa [blockAt] using h.ordered.provides hp (Nat.le_refl _) hbefore

end Flow.Draft

theorem Flow.Module.Checked.wellFormed {m : Module} (h : m.Checked) : m.WellFormed := by
  refine ⟨h.verify_eq_ok, fun id f hf => ?_⟩
  rcases h id f hf with hd | ⟨D, rfl, hD⟩
  · rw [Function.isDeclaration, Array.isEmpty_iff] at hd
    have hnone (b : BlockId) (blk : Block) : f.blocks[b]? ≠ some blk := by simp [hd]
    exact ⟨fun b k id i hi => hi.elim fun blk hblk => absurd hblk.1 (hnone b blk),
      fun b k id i hi => hi.elim fun blk hblk => absurd hblk.1 (hnone b blk),
      fun b k t ht => ht.elim fun blk hblk => absurd hblk.1 (hnone b blk)⟩
  · exact hD.wellFormed

def Machine.Fault.Expected : Fault → Prop
  | .divisionByZero | .divisionOverflow | .callDepth | .unresolved _ => True
  | _ => False

/-- Lines are always written, and what a program may find outside does not fail. -/
structure Machine.Engine.Reliable (e : Engine) : Prop where
  sink : ∀ text line, e.sink.refuses text line = none
  natives : ∀ name native args, e.natives.lookup name = some native → ∃ r, native.run args = .ok r

def Foreseen {α : Type} (r : Except Diagnostic α) : Prop :=
  (∃ v, r = .ok v) ∨ ∃ f : Fault, f.Expected ∧ r = .error f.diagnostic

section Faults
variable {e : Engine} {ds : List FunctionDef} {store store' : Store} {s s' : Session}
  {items : List Item} {steps : Nat}

theorem lookup_mapAll {name : String} (h : ¬ Reserved name) :
    e.mapAll.natives.lookup name = e.natives.lookup name := by
  have hp : (name == printSymbol) = false := beq_false_of_ne (ne_printSymbol h)
  have hw : (name == powerSymbol) = false := beq_false_of_ne (ne_powerSymbol h)
  simp [Engine.mapAll, Engine.map, List.lookup_cons, hp, hw]

theorem Machine.Engine.Reliable.foreign (h : e.Reliable) {name : String} (hr : ¬ Reserved name)
    {args : List Int32} {text text' : String} {f : Fault}
    (hrun : foreign (e.mapAll.world ds) name args text = (.error f, text')) : f.Expected := by
  have hnatives : (e.mapAll.world ds).natives.lookup name = e.natives.lookup name :=
    lookup_mapAll hr
  rw [Meaning.foreign, hnatives] at hrun
  cases hlook : e.natives.lookup name with
  | none =>
    rw [hlook] at hrun
    cases (Prod.mk.inj hrun).1
    trivial
  | some native =>
    obtain ⟨⟨n, line⟩, hok⟩ := h.natives name native args hlook
    have hsink : (e.mapAll.world ds).sink.refuses text line = none := h.sink text line
    simp only [hlook, hok, hsink] at hrun
    split at hrun <;> cases (Prod.mk.inj hrun).1

/-- Statements that run to a fault run to one that can be expected. -/
theorem Machine.Engine.Reliable.topLevel (h : e.Reliable) (hr : ∀ d ∈ ds, ¬ Reserved d.name)
    {ss : List Stmt} {f : Fault}
    (hrun : (topLevel (e.mapAll.world ds) steps ss store).map outcome = some (.error f, store')) :
    f.Expected := by
  obtain ⟨⟨r, s₁⟩, heval, heq⟩ := Option.map_eq_some_iff.1 hrun
  have hsink (text line part reason : String) :
      (e.mapAll.world ds).sink.refuses text line ≠ some (part, reason) := by
    rw [show (e.mapAll.world ds).sink.refuses text line = none from h.sink text line]
    nofun
  have hallow : Allows Fault.Expected (e.mapAll.world ds) (Meaning.call (e.mapAll.world ds) steps 1) :=
    allows_call trivial trivial trivial (fun text line part reason hno => absurd hno (hsink _ _ _ _))
      (fun d hd _ args text g text' hf => h.foreign (hr d hd) hf) steps 1
  refine (within_stmts hallow steps ss store r s₁ heval).2 f ?_
  cases r with
  | error g =>
    cases (Prod.mk.inj heq).1
    rfl
  | ok v => cases (Prod.mk.inj heq).1

/-- A run of the entry point of a compiled program. -/
theorem Machine.Engine.Reliable.call (h : e.Reliable) (he : e.globals = #[]) {name : String}
    {p : Program} (hp : p.Compiles) (hs : (Session.new name e).compile p = (.ok (), s))
    {r : Except Diagnostic Int32} (hrun : s.call steps entryPoint [] = some (r, s')) : Foreseen r := by
  obtain ⟨v, store, heval, rfl, -⟩ := eval_of_call he hs hrun
  cases v with
  | ok n => exact .inl ⟨n, rfl⟩
  | error f => exact .inr ⟨f, h.topLevel hp.unreserved heval, rfl⟩

theorem InOrder.runStatement_foreseen (h : InOrder e ds store s) (he : e.Reliable) {st : Stmt}
    {r : Except Diagnostic Unit} (hrun : s.runStatement steps st = some (r, s')) :
    (∃ err : CompileError, r = .error err.diagnostic) ∨ Foreseen r := by
  have hexec : s.execute steps (.statement st) = some (r, s') := hrun
  rcases h.execute_cases hexec with ⟨err, -, -, rfl, -⟩ | ⟨-, v, store', heval, rfl, -⟩
  · exact .inl ⟨err, rfl⟩
  · cases v with
    | ok n => exact .inr (.inl ⟨(), rfl⟩)
    | error f => exact .inr (.inr ⟨f, he.topLevel h.unreserved heval, rfl⟩)

/-- A statement that has been lowered, before it is run. -/
theorem InOrder.wrap_wellFormed (h : InOrder e ds store s) {st : Stmt} {n : Nat} {u : Unit}
    {m : Module} (hrun : lowerBody (s.module.push (wrapper n)).2 s.module.functions.size .globals []
      [st] = (.ok u, m)) : m.WellFormed := by
  have hwrap := h.wrap st n
  rw [hrun] at hwrap
  exact hwrap.2.2.checked.wellFormed

end Faults

theorem lowerBody_ne_misuse {m : Module} {id : FuncId} {f : Function} {scope : Scope}
    (hf : m.function? id = some f) (hempty : f.header = f)
    (hscope : scope = .slots [] ∨ scope = .globals) (params : List String) (ss : List Stmt)
    (misuse : Misuse) : (lowerBody m id scope params ss).1 ≠ .error (.misuse misuse) := by
  have h := lowerBody_answers params ss hf hempty hscope
  intro heq
  rcases hrun : lowerBody m id scope params ss with ⟨r, m'⟩
  rw [hrun] at h heq
  obtain rfl : r = _ := heq
  exact h

/-- Lowering never misuses the builder; what it generates for programs that compile and in sessions
is well formed; and no run of it comes to a fault that cannot be expected. -/
theorem generated_wellFormed {e : Engine} (he : e.globals = #[]) (hrel : e.Reliable) (name : String) :
    (∀ m id f scope params ss misuse, m.function? id = some f → f.header = f →
      scope = .slots [] ∨ scope = .globals →
      (lowerBody m id scope params ss).1 ≠ .error (.misuse misuse)) ∧
    (∀ p : Program, p.Compiles → ∃ s, (Session.new name e).compile p = (.ok (), s) ∧
      s.module.WellFormed ∧
      ∀ steps r s', s.call steps entryPoint [] = some (r, s') → Foreseen r) ∧
    (∀ p : Program, ¬ p.Compiles → ∃ d s, (Session.new name e).compile p = (.error d, s) ∧
      d.stage = .semantic) ∧
    ∀ steps items rs s, (Session.new name e).executeAll steps items = some (rs, s) →
      s.module.WellFormed ∧ ∀ st,
        (∀ n u m, lowerBody (s.module.push (wrapper n)).2 s.module.functions.size .globals [] [st] =
          (.ok u, m) → m.WellFormed) ∧
        ∀ bound r s', s.runStatement bound st = some (r, s') →
          (∃ err : CompileError, r = .error err.diagnostic) ∨ Foreseen r := by
  refine ⟨fun m id f scope params ss misuse hf hempty hscope =>
    lowerBody_ne_misuse hf hempty hscope params ss misuse, fun p hp => ?_, fun p hp => ?_,
    fun steps items rs s hrun => ?_⟩
  · have hspec := compileInto_spec name p
    rcases hrun : Session.compileInto { name } p with ⟨d | u, m⟩
    · simp only [hrun] at hspec
      exact absurd hp hspec.1
    · simp only [hrun] at hspec
      have hs : (Session.new name e).compile p = (.ok (), { Session.new name e with module := m }) := by
        simp [Session.compile, Session.new, hrun]
      exact ⟨_, hs, hspec.2.checked.wellFormed, fun steps r s' => hrel.call he hp hs⟩
  · have hspec := compileInto_spec name p
    rcases hrun : Session.compileInto { name } p with ⟨d | u, m⟩
    · simp only [hrun] at hspec
      exact ⟨d, { Session.new name e with module := m },
        by simp [Session.compile, Session.new, hrun], hspec.2⟩
    · simp only [hrun] at hspec
      exact absurd hspec.1 hp
  · obtain ⟨store, h, -⟩ := (Executed.initial name he).toInOrder.executeAll items hrun
    exact ⟨h.checked.wellFormed, fun st => ⟨fun n u m => h.wrap_wellFormed,
      fun bound r s' => h.runStatement_foreseen hrel⟩⟩

/-- Conditions with both logical operators, an early return with statements after it, a loop, and at
last a division by zero in a function. -/
def crossingProgram : Program :=
  [.function ⟨"ratio", ["a", "b"],
      [.branch (.binary .and (.unary .not (.var "a")) (.binary .or (.var "b") (.var "c")))
        [.ret (.number 0), .assign "c" (.number 1)] [(.var "c", [.pass])] [.assign "c" (.var "b")],
        .ret (.binary .div (.var "a") (.var "c"))], false⟩,
    .statement (.loop (.binary .lt (.var "i") (.number 3))
      [.print [.call "ratio" [.number 6, .binary .sub (.number 2) (.var "i")]],
        .assign "i" (.binary .add (.var "i") (.number 1))])]

theorem generated_wellFormed_crossingProgram :
    ∃ s, (Session.new "m" {}).compile crossingProgram = (.ok (), s) ∧ s.module.WellFormed ∧
      ∃ s', s.call 300 entryPoint [] = some (.error Fault.divisionByZero.diagnostic, s') ∧
        s'.engine.output = "3\n6\n" ∧
        Foreseen (.error Fault.divisionByZero.diagnostic : Except Diagnostic Int32) := by
  obtain ⟨-, hok, hno, -⟩ := generated_wellFormed (e := {}) rfl ⟨fun _ _ => rfl, fun _ _ _ => nofun⟩ "m"
  have hcompiles : crossingProgram.Compiles := by
    by_contra h
    obtain ⟨d, s, hd, -⟩ := hno crossingProgram h
    have hfine : ((Session.new "m" {}).compile crossingProgram).1 = .ok () := by decide +kernel
    rw [hd] at hfine
    cases hfine
  obtain ⟨s, hs, hformed, hruns⟩ := hok crossingProgram hcompiles
  have hcall : (((Session.new "m" {}).compile crossingProgram).2.call 300 entryPoint []).map
      (fun x => (x.1, x.2.engine.output)) = some (.error Fault.divisionByZero.diagnostic, "3\n6\n") := by
    decide +kernel
  rw [hs] at hcall
  obtain ⟨⟨r, s'⟩, hcall, hresult⟩ := Option.map_eq_some_iff.1 hcall
  obtain ⟨rfl, htext⟩ := Prod.mk.inj hresult
  exact ⟨s, hs, hformed, s', hcall, htext, hruns 300 _ s' hcall⟩

end IntLang
