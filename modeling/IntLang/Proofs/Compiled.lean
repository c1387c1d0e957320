import IntLang.Proofs.Linking
import IntLang.Proofs.Wiring
import IntLang.Session

/-! What compiling a program leaves in a module: first every function is declared, then every body is
lowered, and a program is rejected exactly if one of its parts is. -/
namespace IntLang
open IntLang.Flow IntLang.Machine IntLang.Code

def Reserved (name : String) : Prop :=
  reservedStart.toList.isPrefixOf name.toList = true

instance (name : String) : Decidable (Reserved name) :=
  inferInstanceAs (Decidable (_ = true))

def FunctionDef.prototype (d : FunctionDef) : Function :=
  { name := d.name, paramCount := d.params.length, linkage := Session.linkage d }

theorem reserved_printSymbol : Reserved printSymbol := by decide

theorem reserved_powerSymbol : Reserved powerSymbol := by decide

theorem not_reserved_entryPoint : ¬ Reserved entryPoint := by decide

def Hides (m : Module) : Prop :=
  ∀ id f, m.function? id = some f → f.synthetic = true → Reserved f.name

section Names
variable {m : Module} {ds : List FunctionDef} {d : FunctionDef} {f : Function} {name : String}

theorem ne_printSymbol (h : ¬ Reserved name) : name ≠ printSymbol :=
  fun e => h (e ▸ reserved_printSymbol)

theorem ne_powerSymbol (h : ¬ Reserved name) : name ≠ powerSymbol :=
  fun e => h (e ▸ reserved_powerSymbol)

theorem Code.Declares.mem_names_iff (h : Declares m ds) (hh : Hides m) (hr : ¬ Reserved name) :
    name ∈ ds.map (·.name) ↔ m.find? name ≠ none := by
  constructor
  · intro hmem
    obtain ⟨d, hd, rfl⟩ := List.mem_map.1 hmem
    obtain ⟨id, hid⟩ := h.declared d hd
    simp [hid.1]
  · intro hne
    obtain ⟨id, hid⟩ := Option.ne_none_iff_exists'.1 hne
    obtain ⟨f, hf, rfl⟩ := Module.function?_of_find? hid
    have hs : f.synthetic = false := by
      cases hs : f.synthetic with
      | false => rfl
      | true => exact absurd (hh id f hf hs) hr
    obtain ⟨d, hd, hn, -⟩ := h.callee f.name f.paramCount id ⟨hid, f, hf, hs, rfl⟩
    exact hn ▸ List.mem_map_of_mem hd

theorem Code.Declares.push_synthetic (h : Declares m ds) (hs : f.synthetic = true)
    (hn : m.find? f.name = none) (hp : f.name ≠ printSymbol) (hw : f.name ≠ powerSymbol) :
    Declares (m.push f).2 ds := by
  have ht := h.tidy.push hn (fun hf => absurd hf (by simp [hs])) fun hr => absurd hr (by simp [hp, hw])
  refine h.of_callee_iff ht fun name n id => ?_
  rw [ht.callee_iff, h.tidy.callee_iff, Module.function?_push]
  constructor
  · rintro ⟨g, hg, hname, hsyn, hpar⟩
    split at hg
    · rw [← Option.some.inj hg, hs] at hsyn
      cases hsyn
    · exact ⟨g, hg, hname, hsyn, hpar⟩
  · rintro ⟨g, hg, hrest⟩
    refine ⟨g, ?_, hrest⟩
    rw [← Module.function?_push]
    exact Module.function?_push_of_some hg

theorem Code.Declares.push (h : Declares m ds) (hr : ¬ Reserved d.name)
    (hn : m.find? d.name = none) : Declares (m.push d.prototype).2 (ds ++ [d]) := by
  have ht := h.tidy.push (f := d.prototype) hn (fun _ => rfl) fun hname =>
    absurd hname (not_or.2 ⟨ne_printSymbol hr, ne_powerSymbol hr⟩)
  have hold : ∀ name n id, Callee m name n id → Callee (m.push d.prototype).2 name n id := by
    intro name n id hid
    obtain ⟨g, hg, hrest⟩ := h.tidy.callee_iff.1 hid
    exact ht.callee_iff.2 ⟨g, Module.function?_push_of_some hg, hrest⟩
  refine ⟨ht, ?_, fun e he => ?_, fun name n id hid => ?_⟩
  · rw [List.map_append, List.nodup_append]
    refine ⟨h.distinct, by simp, ?_⟩
    rintro _ hmem _ hd rfl
    obtain ⟨e, he, hen⟩ := List.mem_map.1 hmem
    obtain ⟨id, hid⟩ := h.declared e he
    simp only [List.map_cons, List.map_nil, List.mem_singleton] at hd
    rw [hen, hd, Callee, hn] at hid
    cases hid.1
  · rcases List.mem_append.1 he with he | he
    · exact (h.declared e he).imp fun id => hold _ _ id
    · rw [List.mem_singleton.1 he]
      exact ⟨m.functions.size, ht.callee_iff.2 ⟨d.prototype, by simp [Module.function?_push], rfl, rfl, rfl⟩⟩
  · obtain ⟨g, hg, hname, hs, hp⟩ := ht.callee_iff.1 hid
    rw [Module.function?_push] at hg
    split at hg
    · obtain rfl := Option.some.inj hg
      exact ⟨d, by simp, hname, hp⟩
    · obtain ⟨e, he, hrest⟩ := h.callee name n id (h.tidy.callee_iff.2 ⟨g, hg, hname, hs, hp⟩)
      exact ⟨e, List.mem_append_left _ he, hrest⟩

theorem Hides.push (hh : Hides m) (hf : f.synthetic = true → Reserved f.name) :
    Hides (m.push f).2 := by
  intro id g hg hs
  rw [Module.function?_push] at hg
  split at hg
  · obtain rfl := Option.some.inj hg
    exact hf hs
  · exact hh id g hg hs

end Names

section Prototypes
variable {m : Module} {ds : List FunctionDef} {d : FunctionDef}

/-- A function is declared exactly if its name is free. -/
theorem prototype_eq (m : Module) (d : FunctionDef) :
    (Session.prototype m d = .ok (m.push d.prototype) ∧ ¬ Reserved d.name ∧ m.find? d.name = none) ∨
      ((∃ e, Session.prototype m d = .error e) ∧ (Reserved d.name ∨ m.find? d.name ≠ none)) := by
  unfold Session.prototype Module.add?
  split
  · next hr => exact .inr ⟨⟨_, rfl⟩, .inl hr⟩
  · next hr =>
    cases hn : m.find? d.name with
    | none => exact .inl ⟨rfl, hr, rfl⟩
    | some id => exact .inr ⟨⟨_, rfl⟩, .inr (by simp)⟩

structure Prototyped (m : Module) (ids : List FuncId) (ds : List FunctionDef) (m' : Module) :
    Prop where
  functions : List.Forall₂ (fun id d => m'.function? id = some d.prototype) ids ds
  nodup : ids.Nodup
  fresh : ∀ id ∈ ids, m.function? id = none
  kept : ∀ j f, m.function? j = some f → m'.function? j = some f
  only : ∀ j f, m'.function? j = some f → j ∈ ids ∨ m.function? j = some f
  globals : m'.globals = m.globals

theorem Prototyped.cons {ids : List FuncId} {m' : Module}
    (h : Prototyped (m.push d.prototype).2 ids ds m') :
    Prototyped m (m.functions.size :: ids) (d :: ds) m' := by
  have hnew : (m.push d.prototype).2.function? m.functions.size = some d.prototype := by
    simp [Module.function?_push]
  refine ⟨.cons (h.kept _ _ hnew) h.functions, List.nodup_cons.2 ⟨fun hmem => ?_, h.nodup⟩,
    fun id hid => ?_, fun j f hf => h.kept j f (Module.function?_push_of_some hf),
    fun j f hf => ?_, h.globals⟩
  · exact absurd (hnew.symm.trans (h.fresh _ hmem)) (by simp)
  · rcases List.mem_cons.1 hid with rfl | hid
    · exact Module.function?_size
    · have hnone := h.fresh id hid
      rw [Module.function?_push] at hnone
      split at hnone
      · cases hnone
      · exact hnone
  · rcases h.only j f hf with hj | hj
    · exact .inl (List.mem_cons_of_mem _ hj)
    · rw [Module.function?_push] at hj
      split at hj
      · next hj' => exact .inl (hj' ▸ List.mem_cons_self)
      · exact .inr hj

/-- Functions are declared exactly if their names are free and differ. -/
theorem prototypes_spec : ∀ (ds : List FunctionDef) {m : Module} {ds₀ : List FunctionDef},
    Declares m ds₀ → Hides m →
    match Session.prototypes m ds with
    | (.ok ids, m') => (∀ d ∈ ds, ¬ Reserved d.name) ∧ Declares m' (ds₀ ++ ds) ∧ Hides m' ∧
        Prototyped m ids ds m'
    | (.error _, _) => ¬ ((∀ d ∈ ds, ¬ Reserved d.name) ∧ ((ds₀ ++ ds).map (·.name)).Nodup)
  | [], m, ds₀, h, hh => by
    rw [Session.prototypes]
    exact ⟨by simp, by simpa using h, hh, .nil, .nil, by simp, fun _ _ hf => hf,
      fun _ _ hf => .inr hf, rfl⟩
  | d :: ds, m, ds₀, h, hh => by
    rw [Session.prototypes]
    rcases prototype_eq m d with ⟨hok, hr, hn⟩ | ⟨⟨e, he⟩, hbad⟩
    · have ih := prototypes_spec ds (h.push hr hn) (hh.push (f := d.prototype) nofun)
      simp only [hok]
      rcases hrest : Session.prototypes (m.push d.prototype).2 ds with ⟨e | ids, m'⟩
      · simp only [hrest] at ih ⊢
        rintro ⟨hres, hnodup⟩
        exact ih ⟨fun e he => hres e (List.mem_cons_of_mem _ he), by simpa using hnodup⟩
      · simp only [hrest] at ih ⊢
        obtain ⟨hres, hdecl, hhide, hproto⟩ := ih
        refine ⟨fun e he => ?_, by simpa using hdecl, hhide, hproto.cons⟩
        rcases List.mem_cons.1 he with rfl | he
        · exact hr
        · exact hres e he
    · simp only [he]
      rintro ⟨hres, hnodup⟩
      have hd := hres d List.mem_cons_self
      have hmem := (h.mem_names_iff hh hd).2 (hbad.resolve_left hd)
      rw [List.map_append, List.nodup_append] at hnodup
      exact hnodup.2.2 _ hmem d.name (by simp) rfl

end Prototypes

def Shaped (m : Module) (id : FuncId) : Prop :=
  ∀ f, m.function? id = some f → f.isDeclaration = true ∨ ∃ D : Draft, f = D.function ∧ D.Complete id m

theorem Shaped.extends {m m' : Module} {id : FuncId} (h : Shaped m id) (hm : Extends m m')
    (hf : ∀ f, m'.function? id = some f → m.function? id = some f) : Shaped m' id :=
  fun f hid => (h f (hf f hid)).imp (fun hd => hd) fun ⟨D, hD, hc⟩ => ⟨D, hD, hc.extends hm⟩

section Bodies
variable {m : Module} {d : FunctionDef} {id : FuncId}

theorem FunctionDef.body_eq_nil (h : d.isDeclaration = true) : d.body = [] := by
  simp only [FunctionDef.isDeclaration, Bool.and_eq_true, List.isEmpty_iff] at h
  exact h.2

theorem implements_prototype (ht : m.Tidy) (hf : m.function? id = some d.prototype)
    (hd : d.isDeclaration = true) : Implements m d id where
  callee := ht.callee_iff.2 ⟨_, hf, rfl, rfl, rfl⟩
  body := ⟨_, hf, hd.symm, fun hno => absurd hd (by simp [hno])⟩

theorem LoweredBody.implements {m' : Module} (ht : m.Tidy) (hf : m.function? id = some d.prototype)
    (hd : d.isDeclaration = false) (h : LoweredBody id m (.slots []) d.params d.body m') :
    Implements m' d id ∧ Shaped m' id := by
  obtain ⟨D, scope, hD, hcomplete, hle, hcode⟩ := h.code
  refine ⟨⟨(h.grows.callee_iff ht).2 (ht.callee_iff.2 ⟨_, hf, rfl, rfl, rfl⟩), D.function, hD,
    hcomplete.not_isDeclaration.trans hd.symm, fun _ => ?_⟩, fun f hid => .inr ⟨D, ?_, hcomplete⟩⟩
  · cases scope with
    | slots known => exact ⟨known, hcode⟩
    | globals => exact hle.elim
  · exact Option.some.inj (hid.symm.trans hD)

/-- A declared function gets its body exactly if that is accepted. -/
theorem define_spec (ht : m.Tidy) (hf : m.function? id = some d.prototype)
    (hr : ¬ Reserved d.name) :
    match Session.define m id d with
    | (.ok _, m') => Stmts.Accepted (Callable m) d.body ∧ Grows id m m' ∧ Implements m' d id ∧
        Shaped m' id
    | (.error (.rejected _), _) => ¬ Stmts.Accepted (Callable m) d.body
    | (.error (.misuse _), _) => False := by
  unfold Session.define
  cases hd : d.isDeclaration with
  | true =>
    refine ⟨?_, .refl id m, implements_prototype ht hf hd, fun f hid => .inl ?_⟩
    · rw [FunctionDef.body_eq_nil hd]
      trivial
    · rw [Option.some.inj (hid.symm.trans hf)]
      rfl
  | false =>
    have h := lowerBody_spec d.body ht hf rfl rfl (ne_printSymbol hr) (ne_powerSymbol hr)
      (.inl rfl : Scope.slots [] = .slots [] ∨ Scope.slots [] = .globals ∧ d.params = [])
    simp only [Bool.false_eq_true, ↓reduceIte]
    rcases hrun : lowerBody m id (.slots []) d.params d.body with ⟨(e | e) | u, m'⟩
    · simpa only [hrun] using h
    · simp only [hrun] at h
    · simp only [hrun] at h ⊢
      exact ⟨h.1, h.2.grows, h.2.implements ht hf hd⟩

/-- Declared functions get their bodies exactly if all of these are accepted. -/
theorem defineAll_spec : ∀ (fs : List (FuncId × FunctionDef)) {m : Module}, m.Tidy →
    (∀ x ∈ fs, m.function? x.1 = some x.2.prototype ∧ ¬ Reserved x.2.name) →
    (fs.map (·.1)).Nodup →
    match Session.defineAll m fs with
    | (.ok _, m') => (∀ x ∈ fs, Stmts.Accepted (Callable m) x.2.body) ∧ Extends m m' ∧
        (∀ j f, j ∉ fs.map (·.1) → m.function? j = some f → m'.function? j = some f) ∧
        ∀ x ∈ fs, Implements m' x.2 x.1 ∧ Shaped m' x.1
    | (.error (.rejected _), _) => ¬ ∀ x ∈ fs, Stmts.Accepted (Callable m) x.2.body
    | (.error (.misuse _), _) => False
  | [], m, _, _, _ => by
    rw [Session.defineAll]
    exact ⟨by simp, .refl m, fun _ _ _ hf => hf, by simp⟩
  | (id, d) :: fs, m, ht, hfs, hn => by
    rw [List.map_cons, List.nodup_cons] at hn
    obtain ⟨hf, hr⟩ := hfs (id, d) List.mem_cons_self
    have hfirst := define_spec ht hf hr
    rw [Session.defineAll]
    rcases hrun : Session.define m id d with ⟨(e | e) | u, m₁⟩
    · simp only [hrun] at hfirst ⊢
      exact fun hall => hfirst (hall _ List.mem_cons_self)
    · simp only [hrun] at hfirst
    · simp only [hrun] at hfirst ⊢
      obtain ⟨hacc, hg, himpl, hshape⟩ := hfirst
      have hne (x : FuncId × FunctionDef) (hx : x ∈ fs) : x.1 ≠ id :=
        fun hid => hn.1 (hid ▸ List.mem_map_of_mem (f := (·.1)) hx)
      have ih := defineAll_spec fs (hg.tidy ht) (fun x hx =>
        ⟨hg.others _ _ (hne x hx) (hfs x (List.mem_cons_of_mem _ hx)).1,
          (hfs x (List.mem_cons_of_mem _ hx)).2⟩) hn.2
      rw [hg.callable_eq ht] at ih
      rcases hrest : Session.defineAll m₁ fs with ⟨(e | e) | u, m₂⟩
      · simp only [hrest] at ih ⊢
        exact fun hall => ih fun x hx => hall x (List.mem_cons_of_mem _ hx)
      · simp only [hrest] at ih
      · simp only [hrest] at ih ⊢
        obtain ⟨haccs, hext, hkept, himpls⟩ := ih
        refine ⟨fun x hx => ?_, hg.toExtends.trans hext, fun j f hj hf => ?_, fun x hx => ?_⟩
        · rcases List.mem_cons.1 hx with rfl | hx
          · exact hacc
          · exact haccs x hx
        · rw [List.map_cons, List.mem_cons, not_or] at hj
          exact hkept j f hj.2 (hg.others j f hj.1 hf)
        · rcases List.mem_cons.1 hx with rfl | hx
          · have hlive (f : Function) : m₁.function? id = some f → m₂.function? id = some f :=
              hkept id f hn.1
            refine ⟨himpl.offers (offers_of_extends hext (hg.tidy ht)) hlive,
              hshape.extends hext fun f hid => ?_⟩
            obtain ⟨f₁, hf₁, -⟩ := himpl.body
            rw [Option.some.inj (hid.symm.trans (hlive f₁ hf₁))]
            exact hf₁
          · exact himpls x hx

end Bodies

structure Program.Compiles (p : Program) : Prop where
  unreserved : ∀ d ∈ p.functions, ¬ Reserved d.name
  distinct : (p.functions.map (·.name)).Nodup
  notMain : entryPoint ∉ p.functions.map (·.name)
  bodies : ∀ d ∈ p.functions, Stmts.Accepted (Arity p.functions) d.body
  statements : Stmts.Accepted (Arity p.functions) p.statements

def entryPrototype : Function :=
  { name := entryPoint, paramCount := 0, linkage := .external, synthetic := true }

/-- A module that a program has been compiled into. -/
structure Compiled (p : Program) (m : Module) : Prop where
  image : Image m p.functions
  main : ∃ id f, m.find? entryPoint = some id ∧ m.function? id = some f ∧ f.isDeclaration = false ∧
    BodyCode ⟨m, f, .globals⟩ [] p.statements
  zero : ∀ g ∈ m.globals, g.init = 0
  shaped : ∀ id, Shaped m id
  functions : ∀ id f, m.function? id = some f → f.header = entryPrototype ∨ f.IsRoutine ∨
    ∃ d ∈ p.functions, f.header = d.prototype

theorem declares_empty (name : String) : Declares { name } [] :=
  ⟨⟨fun i _ _ _ h => by simp [Module.function?] at h, fun i _ h => by simp [Module.function?] at h,
    fun i _ h => by simp [Module.function?] at h, .nil⟩, .nil, fun _ h => (nomatch h),
    fun _ _ id h => by simp [Callee, Module.function?] at h⟩

theorem hides_empty (name : String) : Hides { name } :=
  fun id f h => by simp [Module.function?] at h

/-- A module in which the functions of a program and its entry point are declared, and no other. -/
structure Announced (p : Program) (m : Module) (fs : List (FuncId × FunctionDef)) (main : FuncId) :
    Prop where
  declares : Declares m p.functions
  functions : fs.map (·.2) = p.functions
  prototypes : ∀ x ∈ fs, m.function? x.1 = some x.2.prototype ∧ ¬ Reserved x.2.name
  nodup : (fs.map (·.1)).Nodup
  entry : m.function? main = some entryPrototype
  apart : main ∉ fs.map (·.1)
  only : ∀ j f, m.function? j = some f → j = main ∨ j ∈ fs.map (·.1)
  globals : m.globals = #[]

section Programs
variable {p : Program} {m : Module} {fs : List (FuncId × FunctionDef)} {main : FuncId}

theorem Compiled.checked (h : Compiled p m) : m.Checked := by
  intro id f hf
  refine (h.shaped id f hf).imp_right ?_
  rintro ⟨D, rfl, hD⟩
  exact ⟨D, rfl, hD.finished⟩

/-- A module that goes on from there has these functions and the routines. -/
theorem Announced.function_cases (h : Announced p m fs main) {m' : Module} (hm : Extends m m')
    {j : FuncId} {f : Function} (hj : m'.function? j = some f) :
    j = main ∧ f.header = entryPrototype ∨ f.IsRoutine ∨
      ∃ x ∈ fs, x.1 = j ∧ f.header = x.2.prototype := by
  cases hmj : m.function? j with
  | none => exact .inr (.inl (hm.added j f hmj hj))
  | some g =>
    obtain ⟨f', hf', hhead⟩ := hm.kept j g hmj
    obtain rfl := Option.some.inj (hj.symm.trans hf')
    rcases h.only j g hmj with rfl | hmem
    · obtain rfl := Option.some.inj (hmj.symm.trans h.entry)
      exact .inl ⟨rfl, hhead⟩
    · obtain ⟨x, hx, rfl⟩ := List.mem_map.1 hmem
      obtain rfl := Option.some.inj (hmj.symm.trans (h.prototypes x hx).1)
      exact .inr (.inr ⟨x, hx, rfl, hhead⟩)

theorem Announced.forall_functions (h : Announced p m fs main) (P : FunctionDef → Prop) :
    (∀ x ∈ fs, P x.2) ↔ ∀ d ∈ p.functions, P d := by
  rw [← h.functions, List.forall_mem_map]

/-- All bodies are written, and last the statements into the entry point. -/
theorem Announced.compiled (h : Announced p m fs main) {m₁ m₂ : Module} (hext : Extends m m₁)
    (himpl : ∀ x ∈ fs, Implements m₁ x.2 x.1 ∧ Shaped m₁ x.1)
    (hlow : LoweredBody main m₁ .globals [] p.statements m₂) : Compiled p m₂ := by
  have hdecl := h.declares
  have hall := hext.trans hlow.grows.toExtends
  have ht₂ := hall.tidy hdecl.tidy
  obtain ⟨D, scope, hD, hcomplete, hle, hcode⟩ := hlow.code
  have hlive (x : FuncId × FunctionDef) (hx : x ∈ fs) (f : Function)
      (hf : m₁.function? x.1 = some f) : m₂.function? x.1 = some f :=
    hlow.grows.others _ f (fun he => h.apart (he ▸ List.mem_map_of_mem (f := (·.1)) hx)) hf
  refine ⟨⟨hdecl.of_callee_iff ht₂ fun _ _ _ => hall.callee_iff hdecl.tidy, ?_⟩,
    ⟨main, D.function, ?_, hD, hcomplete.not_isDeclaration, ?_⟩, ?_, fun j f hj => ?_,
    fun j f hj => ?_⟩
  · rw [← h.forall_functions fun d => ∃ id, Implements m₂ d id]
    exact fun x hx => ⟨x.1, (himpl x hx).1.offers
      (offers_of_extends hlow.grows.toExtends (hext.tidy hdecl.tidy)) (hlive x hx)⟩
  · exact hall.find? hdecl.tidy (hdecl.tidy.find?_eq_some_iff.2 ⟨_, h.entry, rfl⟩)
  · cases scope with
    | slots => exact hle.elim
    | globals => exact hcode
  · obtain ⟨new, hnew, hz⟩ := hall.cells
    rw [hnew, h.globals]
    simpa using hz
  · rcases h.function_cases hall hj with ⟨rfl, -⟩ | hroutine | ⟨x, hx, rfl, -⟩
    · exact .inr ⟨D, Option.some.inj (hj.symm.trans hD), hcomplete⟩
    · exact .inl (ht₂.routines j f hj hroutine.name).1
    · refine (himpl x hx).2.extends hlow.grows.toExtends (fun f' hf' => ?_) f hj
      obtain ⟨f₁, hf₁, -⟩ := (himpl x hx).1.body
      rw [Option.some.inj (hf'.symm.trans (hlive x hx f₁ hf₁))]
      exact hf₁
  · rcases h.function_cases hall hj with ⟨-, hhead⟩ | hroutine | ⟨x, hx, -, hhead⟩
    · exact .inl hhead
    · exact .inr (.inl hroutine)
    · exact .inr (.inr ⟨x.2, h.functions ▸ List.mem_map_of_mem hx, hhead⟩)

/-- The bodies of a program, and then its statements. -/
theorem bodies_spec (h : Announced p m fs main) :
    match Session.defineAll m fs with
    | (.error (.rejected _), _) => ¬ ∀ d ∈ p.functions, Stmts.Accepted (Arity p.functions) d.body
    | (.error (.misuse _), _) => False
    | (.ok _, m₁) =>
      (∀ d ∈ p.functions, Stmts.Accepted (Arity p.functions) d.body) ∧
      match lowerBody m₁ main .globals [] p.statements with
      | (.error (.rejected _), _) => ¬ Stmts.Accepted (Arity p.functions) p.statements
      | (.error (.misuse _), _) => False
      | (.ok _, m₂) => Stmts.Accepted (Arity p.functions) p.statements ∧ Compiled p m₂ := by
  have hdecl := h.declares
  have hspec := defineAll_spec fs hdecl.tidy h.prototypes h.nodup
  rw [h.forall_functions fun d => Stmts.Accepted (Callable m) d.body, hdecl.callable_eq] at hspec
  rcases hrun : Session.defineAll m fs with ⟨(e | e) | u, m₁⟩
  · simpa only [hrun] using hspec
  · simp only [hrun] at hspec
  · simp only [hrun] at hspec ⊢
    obtain ⟨hacc, hext, hkept, himpl⟩ := hspec
    refine ⟨hacc, ?_⟩
    have hbody := lowerBody_spec p.statements (hext.tidy hdecl.tidy) (hkept main _ h.apart h.entry)
      rfl rfl (ne_printSymbol not_reserved_entryPoint) (ne_powerSymbol not_reserved_entryPoint)
      (.inr ⟨rfl, rfl⟩ : Scope.globals = .slots [] ∨ Scope.globals = .globals ∧ [] = [])
    rw [hext.callable_eq hdecl.tidy, hdecl.callable_eq] at hbody
    rcases hrun₂ : lowerBody m₁ main .globals [] p.statements with ⟨(e | e) | u, m₂⟩
    · simpa only [hrun₂] using hbody
    · simp only [hrun₂] at hbody
    · simp only [hrun₂] at hbody ⊢
      exact ⟨hbody.1, h.compiled hext himpl hbody.2⟩

theorem announced {name : String} {ids : List FuncId} (hr : ∀ d ∈ p.functions, ¬ Reserved d.name)
    (hdecl : Declares m p.functions) (hproto : Prototyped { name } ids p.functions m)
    (hn : m.find? entryPoint = none) :
    Announced p (m.push entryPrototype).2 (ids.zip p.functions) m.functions.size := by
  have hlen := hproto.functions.length_eq
  have hfirst : (ids.zip p.functions).map (·.1) = ids := List.map_fst_zip (Nat.le_of_eq hlen)
  refine ⟨hdecl.push_synthetic rfl hn (ne_printSymbol not_reserved_entryPoint)
    (ne_powerSymbol not_reserved_entryPoint), List.map_snd_zip (Nat.le_of_eq hlen.symm),
    fun x hx => ⟨?_, hr x.2 (List.of_mem_zip hx).2⟩, hfirst.symm.subst hproto.nodup,
    by simp [Module.function?_push], ?_, fun j f hj => ?_, hproto.globals⟩
  · exact Module.function?_push_of_some (List.forall₂_zip hproto.functions hx)
  · intro hmem
    obtain ⟨x, hx, hid⟩ := List.mem_map.1 hmem
    have hlive := List.forall₂_zip hproto.functions hx
    rw [hid, Module.function?_size] at hlive
    cases hlive
  · rw [Module.function?_push] at hj
    split at hj
    · next hsize => exact .inl hsize
    · rw [hfirst]
      refine .inr ((hproto.only j f hj).resolve_right fun hnone => ?_)
      simp [Module.function?] at hnone

/-- Compiling a program succeeds exactly if the program can be compiled. -/
theorem compileInto_spec (name : String) (p : Program) :
    match Session.compileInto { name } p with
    | (.ok _, m) => p.Compiles ∧ Compiled p m
    | (.error e, _) => ¬ p.Compiles ∧ e.stage = .semantic := by
  have hproto := prototypes_spec p.functions (declares_empty name) (hides_empty name)
  unfold Session.compileInto
  rcases hrun : Session.prototypes { name } p.functions with ⟨e | ids, m₁⟩
  · simp only [hrun, List.nil_append] at hproto ⊢
    exact ⟨fun h => hproto ⟨h.unreserved, h.distinct⟩, rfl⟩
  simp only [hrun, List.nil_append] at hproto ⊢
  obtain ⟨hr, hdecl, hhide, hproto⟩ := hproto
  have hmem := hdecl.mem_names_iff hhide not_reserved_entryPoint
  unfold Module.add?
  cases hn : m₁.find? entryPoint with
  | some id => exact ⟨fun h => h.notMain (hmem.2 (by simp [hn])), rfl⟩
  | none =>
    have hnotMain : entryPoint ∉ p.functions.map (·.name) := fun h => hmem.1 h hn
    have hspec := bodies_spec (announced hr hdecl hproto hn)
    have hpush : m₁.push ⟨entryPoint, 0, .external, false, true, #[], #[]⟩ =
        (m₁.functions.size, (m₁.push entryPrototype).2) := rfl
    simp only [hpush]
    rcases hrun₁ : Session.defineAll (m₁.push entryPrototype).2 (ids.zip p.functions) with
      ⟨(e | e) | u, m₂⟩
    · simp only [hrun₁] at hspec ⊢
      exact ⟨fun h => hspec h.bodies, rfl⟩
    · simp only [hrun₁] at hspec
    · simp only [hrun₁] at hspec ⊢
      obtain ⟨hbodies, hspec⟩ := hspec
      rcases hrun₂ : lowerBody m₂ m₁.functions.size .globals [] p.statements with ⟨(e | e) | u, m₃⟩
      · simp only [hrun₂] at hspec ⊢
        exact ⟨fun h => hspec h.statements, rfl⟩
      · simp only [hrun₂] at hspec
      · simp only [hrun₂] at hspec ⊢
        rw [hspec.2.checked.verify_eq_ok]
        exact ⟨⟨hr, hdecl.distinct, hnotMain, hbodies, hspec.1⟩, hspec.2⟩

theorem compile_eq_ok {name : String} {e : Machine.Engine} {s : Session}
    (h : (Session.new name e).compile p = (.ok (), s)) :
    Session.compileInto { name } p = (.ok (), s.module) ∧ p.Compiles ∧ Compiled p s.module ∧
      s.engine = e.mapAll := by
  have hspec := compileInto_spec name p
  unfold Session.compile Session.new at h
  rcases hrun : Session.compileInto { name } p with ⟨r, m⟩
  simp only [hrun] at hspec h
  obtain ⟨rfl, rfl⟩ := Prod.mk.inj h
  exact ⟨rfl, hspec.1, hspec.2, rfl⟩

end Programs
end IntLang
