import IntLang.Proofs.BodyRuns
import IntLang.Proofs.LoweredBodies

/-! Code in modules that change around it. Code depends on its module only through the functions that
it calls, so it stays the code of its body as long as these can be called. A module is the image of
definitions if its functions are theirs. -/
namespace IntLang.Code
open IntLang.Flow IntLang.Machine IntLang.Meaning

structure Offers (m m' : Module) : Prop where
  callee : ∀ name n id, Callee m name n id → Callee m' name n id
  routine : ∀ name id, name = printSymbol ∨ name = powerSymbol → m.find? name = some id →
    m'.find? name = some id

theorem Offers.trans {m m' m'' : Module} (h : Offers m m') (h' : Offers m' m'') : Offers m m'' :=
  ⟨fun name n id hc => h'.callee name n id (h.callee name n id hc),
    fun name id hr hf => h'.routine name id hr (h.routine name id hr hf)⟩

theorem offers_of_extends {m m' : Module} (h : Extends m m') (ht : m.Tidy) : Offers m m' :=
  ⟨fun _ _ _ => (h.callee_iff ht).2, fun _ _ _ => h.find? ht⟩

section Mono
variable {m m' : Module} {f : Function} {known : List (String × Operand)}

theorem BinaryCode.offers (hm : Offers m m') {op : BinaryOp} {l r v : Operand} {a b : Cursor}
    (h : BinaryCode ⟨m, f, .slots known⟩ op l r a v b) :
    BinaryCode ⟨m', f, .slots known⟩ op l r a v b := by
  cases op with
  | pow =>
    obtain ⟨id, hid, hs⟩ := h
    exact ⟨id, hm.routine _ id (.inr rfl) hid, hs⟩
  | _ => exact h

mutual

theorem ExprCode.offers (hm : Offers m m') : ∀ (e : Expr) {a : Cursor} {v : Operand} {b : Cursor},
    ExprCode ⟨m, f, .slots known⟩ e a v b → ExprCode ⟨m', f, .slots known⟩ e a v b
  | .number _, _, _, _, h => h
  | .var _, _, _, _, h => h
  | .unary _ e, _, _, _, h => by
    obtain ⟨u, d, he, hu⟩ := h
    exact ⟨u, d, ExprCode.offers hm e he, hu⟩
  | .binary _ l r, _, _, _, h => by
    obtain ⟨u, d, u', d', hl, hr, hb⟩ := h
    exact ⟨u, d, u', d', ExprCode.offers hm l hl, ExprCode.offers hm r hr, hb.offers hm⟩
  | .call _ args, _, _, _, h => by
    obtain ⟨id, vs, d, hc, hargs, hs⟩ := h
    exact ⟨id, vs, d, hm.callee _ _ id hc, ExprsCode.offers hm args hargs, hs⟩

theorem ExprsCode.offers (hm : Offers m m') :
    ∀ (es : List Expr) {a : Cursor} {vs : List Operand} {b : Cursor},
      ExprsCode ⟨m, f, .slots known⟩ es a vs b → ExprsCode ⟨m', f, .slots known⟩ es a vs b
  | [], _, _, _, h => h
  | e :: es, _, _, _, h => by
    obtain ⟨v, d, us, he, hes, hv⟩ := h
    exact ⟨v, d, us, ExprCode.offers hm e he, ExprsCode.offers hm es hes, hv⟩

end

theorem TestCode.offers (hm : Offers m m') {cond : Expr} {a : Cursor} {onTrue onFalse : BlockId}
    (h : TestCode ⟨m, f, .slots known⟩ cond a onTrue onFalse) :
    TestCode ⟨m', f, .slots known⟩ cond a onTrue onFalse := by
  obtain ⟨v, d, c, e, he, hz⟩ := h
  exact ⟨v, d, c, e, ExprCode.offers hm cond he, hz⟩

mutual

theorem StmtCode.offers (hm : Offers m m') : ∀ (s : Stmt) {a b : Cursor},
    StmtCode ⟨m, f, .slots known⟩ s a b → StmtCode ⟨m', f, .slots known⟩ s a b
  | .assign _ e, _, _, h => by
    obtain ⟨p, a', v, d, hp, hw, he, hs⟩ := h
    exact ⟨p, a', v, d, hp, hw, ExprCode.offers hm e he, hs⟩
  | .eval e, _, _, h => by
    obtain ⟨v, he⟩ := h
    exact ⟨v, ExprCode.offers hm e he⟩
  | .branch _ body elifs otherwise, _, _, h => by
    obtain ⟨onTrue, next, k, ht, ⟨d, hb, hd⟩, hi, k', d', e, ha, ho, he⟩ := h
    exact ⟨onTrue, next, k, ht.offers hm, ⟨d, StmtsCode.offers hm body hb, hd⟩, hi, k', d', e,
      ArmsCode.offers hm elifs ha, StmtsCode.offers hm otherwise ho, he⟩
  | .loop _ body, _, _, h => by
    obtain ⟨head, k, work, hh, ht, hi, k', d, hb, hd⟩ := h
    exact ⟨head, k, work, hh, ht.offers hm, hi, k', d, StmtsCode.offers hm body hb, hd⟩
  | .print args, _, _, h => by
    obtain ⟨id, vs, d, u, hid, hargs, hs⟩ := h
    exact ⟨id, vs, d, u, hm.routine _ id (.inl rfl) hid, ExprsCode.offers hm args hargs, hs⟩
  | .ret e, _, _, h => by
    obtain ⟨v, d, he, hd⟩ := h
    exact ⟨v, d, ExprCode.offers hm e he, hd⟩
  | .pass, _, _, h => h

theorem StmtsCode.offers (hm : Offers m m') : ∀ (ss : List Stmt) {a b : Cursor},
    StmtsCode ⟨m, f, .slots known⟩ ss a b → StmtsCode ⟨m', f, .slots known⟩ ss a b
  | [], _, _, h => h
  | s :: ss, _, _, h => by
    obtain ⟨d, hs, hss⟩ := h
    exact ⟨d, StmtCode.offers hm s hs, StmtsCode.offers hm ss hss⟩

theorem ArmsCode.offers (hm : Offers m m') :
    ∀ (as : List (Expr × List Stmt)) {a : Cursor} {cont : BlockId} {b : Cursor},
      ArmsCode ⟨m, f, .slots known⟩ as a cont b → ArmsCode ⟨m', f, .slots known⟩ as a cont b
  | [], _, _, _, h => h
  | (_, body) :: rest, _, _, _, h => by
    obtain ⟨onTrue, next, k, ht, ⟨d, hb, hd⟩, k', hr⟩ := h
    exact ⟨onTrue, next, k, ht.offers hm, ⟨d, StmtsCode.offers hm body hb, hd⟩, k',
      ArmsCode.offers hm rest hr⟩

end

theorem BodyCode.offers (hm : Offers m m') {params : List String} {ss : List Stmt}
    (h : BodyCode ⟨m, f, .slots known⟩ params ss) : BodyCode ⟨m', f, .slots known⟩ params ss := by
  obtain ⟨slots, hp, hs, k, b, hss, hb⟩ := h
  exact ⟨slots, hp, hs, k, b, StmtsCode.offers hm ss hss, hb⟩

end Mono

def Arity (ds : List FunctionDef) (name : String) (n : Nat) : Prop :=
  ∃ d ∈ ds, d.name = name ∧ d.params.length = n

/-- The functions that can be called in a module are these. -/
structure Declares (m : Module) (ds : List FunctionDef) : Prop where
  tidy : m.Tidy
  distinct : (ds.map (·.name)).Nodup
  declared : ∀ d ∈ ds, Callable m d.name d.params.length
  callee : ∀ name n id, Callee m name n id → Arity ds name n

/-- The function `id` does what the definition says. -/
structure Implements (m : Module) (d : FunctionDef) (id : FuncId) : Prop where
  callee : Callee m d.name d.params.length id
  body : ∃ f, m.function? id = some f ∧ f.isDeclaration = d.isDeclaration ∧
    (d.isDeclaration = false → ∃ known, BodyCode ⟨m, f, .slots known⟩ d.params d.body)

/-- The functions that can be called in a module are those of definitions, and do what these say. -/
structure Image (m : Module) (ds : List FunctionDef) : Prop extends Declares m ds where
  implemented : ∀ d ∈ ds, ∃ id, Implements m d id

section Images
variable {m m' : Module} {ds : List FunctionDef} {d : FunctionDef} {id : FuncId}

theorem Declares.callable_eq (h : Declares m ds) : Callable m = Arity ds := by
  funext name n
  refine propext ⟨fun ⟨id, hid⟩ => h.callee name n id hid, ?_⟩
  rintro ⟨d, hd, rfl, rfl⟩
  exact h.declared d hd

theorem Declares.of_callee_iff (h : Declares m ds) (ht : m'.Tidy)
    (hc : ∀ name n id, Callee m' name n id ↔ Callee m name n id) : Declares m' ds where
  tidy := ht
  distinct := h.distinct
  declared := fun d hd => (h.declared d hd).imp fun id => (hc _ _ id).2
  callee := fun name n id hid => h.callee name n id ((hc name n id).1 hid)

theorem Implements.offers (h : Implements m d id) (hm : Offers m m')
    (hf : ∀ f, m.function? id = some f → m'.function? id = some f) : Implements m' d id where
  callee := hm.callee _ _ id h.callee
  body := by
    obtain ⟨f, hid, hd, hb⟩ := h.body
    exact ⟨f, hf f hid, hd, fun hno => (hb hno).imp fun _ => BodyCode.offers hm⟩

theorem find?_name_eq_some (hn : (ds.map (·.name)).Nodup) (hd : d ∈ ds) :
    ds.find? (·.name = d.name) = some d := by
  induction ds with
  | nil => cases hd
  | cons e ds ih =>
    rw [List.map_cons, List.nodup_cons] at hn
    rcases List.mem_cons.1 hd with rfl | hd
    · simp
    · have hne : e.name ≠ d.name := fun he => hn.1 (he ▸ List.mem_map_of_mem hd)
      simpa [hne] using ih hn.2 hd

/-- Calls in the image of definitions are calls of these. -/
theorem Image.linked (h : Image m ds) {natives : List (String × Native)} {sink : Sink}
    (hp : natives.lookup printSymbol = some .print)
    (hw : natives.lookup powerSymbol = some .power) : Linked m ⟨ds, natives, sink⟩ where
  print := hp
  power := hw
  declared := fun name id hname hid => by
    obtain ⟨f, hf, rfl⟩ := Module.function?_of_find? hid
    exact ⟨f, hf, (h.tidy.routines id f hf hname).1, rfl⟩
  function := fun name n id hid => by
    obtain ⟨d, hd, rfl, rfl⟩ := h.callee name n id hid
    obtain ⟨j, hj⟩ := h.implemented d hd
    obtain rfl : j = id := Option.some.inj (hj.callee.1.symm.trans hid.1)
    obtain ⟨f, hf, hdecl, hbody⟩ := hj.body
    obtain ⟨g, hg, hn⟩ := Module.function?_of_find? hid.1
    obtain rfl : g = f := Option.some.inj (hg.symm.trans hf)
    exact ⟨d, g, find?_name_eq_some h.distinct hd, hf, hn, rfl, hdecl, hbody⟩

end Images
end IntLang.Code
