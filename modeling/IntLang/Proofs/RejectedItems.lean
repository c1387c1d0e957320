import IntLang.Proofs.SessionInvariant

/-! Rejected items cannot be noticed afterwards. Two sessions in order for the same definitions and the
same store answer every item alike, however much their modules differ in indices, support routines and
cells that hold zero; and a rejected item leaves a session in order for what it was in order for. -/
namespace IntLang
open IntLang.Flow IntLang.Machine IntLang.Meaning IntLang.Code

/-- Executes items one after the other and notes what each of them comes to: its result, and all the
text that has been written by then. -/
def Session.log (s : Session) (steps : Nat) :
    List Item → Option (List (Except Diagnostic Unit × String) × Session)
  | [] => some ([], s)
  | item :: items => (s.execute steps item).bind fun x =>
    (x.2.log steps items).map fun y => ((x.1, x.2.engine.output) :: y.1, y.2)

theorem Session.log_cons {s s₁ s' : Session} {steps : Nat} {item : Item} {items : List Item}
    {r : Except Diagnostic Unit} {entries : List (Except Diagnostic Unit × String)}
    (h : s.execute steps item = some (r, s₁)) (h' : s₁.log steps items = some (entries, s')) :
    s.log steps (item :: items) = some ((r, s₁.engine.output) :: entries, s') := by
  rw [Session.log, h, Option.bind_some, h']
  rfl

theorem Session.log_cons_inv {s s' : Session} {steps : Nat} {item : Item} {items : List Item}
    {entries : List (Except Diagnostic Unit × String)}
    (h : s.log steps (item :: items) = some (entries, s')) :
    ∃ r s₁ entries', s.execute steps item = some (r, s₁) ∧
      s₁.log steps items = some (entries', s') ∧ entries = (r, s₁.engine.output) :: entries' := by
  obtain ⟨⟨r, s₁⟩, hitem, hrest⟩ := Option.bind_eq_some_iff.1 h
  obtain ⟨⟨entries', s₂⟩, hitems, hres⟩ := Option.map_eq_some_iff.1 hrest
  obtain ⟨rfl, rfl⟩ := Prod.mk.inj hres
  exact ⟨r, s₁, entries', hitem, hitems, rfl⟩

def Session.Alike (e : Engine) (s t : Session) : Prop :=
  ∃ ds store, InOrder e ds store s ∧ InOrder e ds store t

section Alike
variable {e : Engine} {s s' t t' : Session} {item : Item} {steps : Nat} {r : Except Diagnostic Unit}

theorem Session.Alike.store_eq (h : s.Alike e t) : t.store = s.store := by
  obtain ⟨ds, store, hs, ht⟩ := h
  rw [← hs.store_eq, ← ht.store_eq]

/-- Sessions that are alike give the same answer and stay alike. -/
theorem Session.Alike.execute (h : s.Alike e t) (hrun : s.execute steps item = some (r, s')) :
    ∃ n t', (∀ bound, n ≤ bound → t.execute bound item = some (r, t')) ∧ s'.Alike e t' := by
  obtain ⟨ds, store, hs, ht⟩ := h
  rcases hs.execute_cases hrun with ⟨err, hno, hrej, rfl, hm, he⟩ | ⟨hacc, v, store', heval, rfl, hs', -⟩
  · obtain ⟨err', t', hrej', hexec, hm', he'⟩ := ht.execute_rejected hno
    obtain rfl : err = err' := Option.some.inj (hrej.symm.trans hrej')
    exact ⟨0, t', fun bound _ => hexec bound, ds, store, hs.rejected hm he, ht.rejected hm' he'⟩
  · obtain ⟨n, t', hexec, ht', -⟩ := ht.execute_of_eval hacc heval
    exact ⟨n, t', fun bound hn => ht.execute_mono hexec hn, _, store', hs', ht'⟩

theorem Session.Alike.log : ∀ (items : List Item) {s t : Session}
    {entries : List (Except Diagnostic Unit × String)}, s.Alike e t →
    s.log steps items = some (entries, s') →
    ∃ n t', (∀ bound, n ≤ bound → t.log bound items = some (entries, t')) ∧ s'.Alike e t'
  | [], s, t, entries, h, hrun => by
    obtain ⟨rfl, rfl⟩ := Prod.mk.inj (Option.some.inj hrun)
    exact ⟨0, t, fun _ _ => rfl, h⟩
  | item :: items, s, t, entries, h, hrun => by
    obtain ⟨r, s₁, entries', hitem, hrest, rfl⟩ := Session.log_cons_inv hrun
    obtain ⟨n, t₁, hexec, h₁⟩ := h.execute hitem
    obtain ⟨k, t', hlog, h'⟩ := Session.Alike.log items h₁ hrest
    have htext : t₁.engine.output = s₁.engine.output := congrArg Store.output h₁.store_eq
    refine ⟨max n k, t', fun bound hb => ?_, h'⟩
    rw [← htext]
    exact Session.log_cons (hexec bound (by omega)) (hlog bound (by omega))

/-- A session that has rejected an item is like what it was before. -/
theorem InOrder.alike_of_semantic {ds : List FunctionDef} {store : Store} (h : InOrder e ds store s)
    {d : Diagnostic} (hrun : s.execute steps item = some (.error d, s')) (hd : d.stage = .semantic) :
    s'.Alike e s := by
  rcases h.execute_cases hrun with ⟨err, -, -, -, hm, he⟩ | ⟨-, v, store', -, hr, -⟩
  · exact ⟨ds, store, h.rejected hm he, h⟩
  · cases v with
    | ok v => cases hr
    | error f =>
      rw [Except.error.inj hr] at hd
      cases hd

/-- Leaving out a rejected item changes no entry but its own, and no value. -/
theorem InOrder.log_eraseIdx : ∀ (items : List Item) (k : Nat) {ds : List FunctionDef}
    {store : Store} {s : Session} {entries : List (Except Diagnostic Unit × String)} {d : Diagnostic}
    {text : String}, InOrder e ds store s → s.log steps items = some (entries, s') →
    entries[k]? = some (.error d, text) → d.stage = .semantic →
    ∃ n t', (∀ bound, n ≤ bound → s.log bound (items.eraseIdx k) = some (entries.eraseIdx k, t')) ∧
      s'.Alike e t'
  | [], k, ds, store, s, entries, d, text, h, hrun, hk, hd => by
    obtain ⟨rfl, -⟩ := Prod.mk.inj (Option.some.inj hrun)
    simp at hk
  | item :: items, 0, ds, store, s, entries, d, text, h, hrun, hk, hd => by
    obtain ⟨r, s₁, entries', hitem, hrest, rfl⟩ := Session.log_cons_inv hrun
    obtain ⟨rfl, -⟩ := Prod.mk.inj (Option.some.inj hk)
    exact (h.alike_of_semantic hitem hd).log items hrest
  | item :: items, k + 1, ds, store, s, entries, d, text, h, hrun, hk, hd => by
    obtain ⟨r, s₁, entries', hitem, hrest, rfl⟩ := Session.log_cons_inv hrun
    obtain ⟨store₁, h₁, -⟩ := h.execute hitem
    obtain ⟨n, t', hlog, halike⟩ := InOrder.log_eraseIdx items k h₁ hrest hk hd
    refine ⟨max steps n, t', fun bound hb => ?_, halike⟩
    exact Session.log_cons (h.execute_mono hitem (by omega)) (hlog bound (by omega))

end Alike

/-- A rejected item can be left out: all other items come to the same, and in the end all variables
have the same values. -/
theorem log_without_rejected {e : Engine} (he : e.globals = #[]) {name : String} {steps k : Nat}
    {items : List Item} {entries : List (Except Diagnostic Unit × String)} {s : Session}
    {d : Diagnostic} {text : String}
    (hrun : (Session.new name e).log steps items = some (entries, s))
    (hk : entries[k]? = some (.error d, text)) (hd : d.stage = .semantic) :
    ∃ n s', (∀ bound, n ≤ bound →
        (Session.new name e).log bound (items.eraseIdx k) = some (entries.eraseIdx k, s')) ∧
      ∀ x, (s'.globalValue x).getD 0 = (s.globalValue x).getD 0 := by
  obtain ⟨n, s', hlog, halike⟩ := (Executed.initial name he).toInOrder.log_eraseIdx items k hrun hk hd
  exact ⟨n, s', hlog, congrFun (congrArg Store.vars halike.store_eq)⟩

/-- The rejected item mentions a variable of its own and a routine that nothing else uses. -/
def rejectingItems : List Item :=
  [.function ⟨"next", ["n"], [.ret (.binary .add (.var "n") (.number 1))], false⟩,
    .statement (.assign "x" (.call "next" [.number 1])),
    .statement (.assign "y" (.call "later" [.binary .pow (.var "z") (.number 2)])),
    .statement (.assign "x" (.binary .div (.var "x") (.var "y"))),
    .statement (.print [.var "x", .var "z"])]

theorem log_without_rejected_rejectingItems :
    ∃ entries s, (Session.new "m" {}).log 200 rejectingItems = some (entries, s) ∧
      entries.map (·.1) = [.ok (), .ok (),
        .error (CompileError.unknownFunction "later").diagnostic,
        .error Fault.divisionByZero.diagnostic, .ok ()] ∧
      ∃ n s', (∀ bound, n ≤ bound → (Session.new "m" {}).log bound (rejectingItems.eraseIdx 2) =
          some (entries.eraseIdx 2, s')) ∧
        ∀ x, (s'.globalValue x).getD 0 = (s.globalValue x).getD 0 := by
  have hlog : ((Session.new "m" {}).log 200 rejectingItems).map (·.1) =
      some [(.ok (), ""), (.ok (), ""), (.error (CompileError.unknownFunction "later").diagnostic, ""),
        (.error Fault.divisionByZero.diagnostic, ""), (.ok (), "2 0\n")] := by
    decide +kernel
  obtain ⟨⟨entries, s⟩, hrun, rfl⟩ := Option.map_eq_some_iff.1 hlog
  exact ⟨_, s, hrun, rfl, log_without_rejected (e := {}) rfl hrun rfl rfl⟩

end IntLang
