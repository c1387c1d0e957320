import IntLang.Proofs.FirstBadToken
import IntLang.Proofs.Words

/-! The names in a program. In a program that has been parsed they are words, and no function names a
parameter twice. -/
namespace IntLang

mutual

def Expr.identifiers : Expr → List String
  | .number _ => []
  | .var name => [name]
  | .unary _ operand => operand.identifiers
  | .binary _ lhs rhs => lhs.identifiers ++ rhs.identifiers
  | .call callee args => callee :: Exprs.identifiers args

def Exprs.identifiers : List Expr → List String
  | [] => []
  | e :: es => e.identifiers ++ Exprs.identifiers es

end

mutual

def Stmt.identifiers : Stmt → List String
  | .assign target value => target :: value.identifiers
  | .eval value | .ret value => value.identifiers
  | .branch cond body elifs otherwise =>
    cond.identifiers ++ Stmts.identifiers body ++ Arms.identifiers elifs ++ Stmts.identifiers otherwise
  | .loop cond body => cond.identifiers ++ Stmts.identifiers body
  | .print args => Exprs.identifiers args
  | .pass => []

def Stmts.identifiers : List Stmt → List String
  | [] => []
  | s :: ss => s.identifiers ++ Stmts.identifiers ss

def Arms.identifiers : List (Expr × List Stmt) → List String
  | [] => []
  | (cond, body) :: es => cond.identifiers ++ Stmts.identifiers body ++ Arms.identifiers es

end

def Item.identifiers : Item → List String
  | .function f => f.name :: f.params ++ Stmts.identifiers f.body
  | .statement s => s.identifiers

def Program.identifiers (p : Program) : List String :=
  p.flatMap Item.identifiers

def AreWords (names : List String) : Prop :=
  ∀ name ∈ names, IsWord name.toList

@[simp] theorem areWords_nil : AreWords [] :=
  fun _ h => absurd h List.not_mem_nil

@[simp] theorem areWords_cons {name : String} {names : List String} :
    AreWords (name :: names) ↔ IsWord name.toList ∧ AreWords names :=
  List.forall_mem_cons

@[simp] theorem areWords_append {names more : List String} :
    AreWords (names ++ more) ↔ AreWords names ∧ AreWords more :=
  List.forall_mem_append

section Programs
variable {p : Program}

theorem AreWords.function (h : AreWords p.identifiers) {d : FunctionDef} (hd : d ∈ p.functions) :
    AreWords (d.name :: d.params ++ Stmts.identifiers d.body) := by
  obtain ⟨item, hitem, hfun⟩ := List.mem_filterMap.1 hd
  cases item with
  | statement s => cases hfun
  | function f =>
    cases hfun
    exact fun name hname => h name (List.mem_flatMap.2 ⟨_, hitem, hname⟩)

theorem Stmts.mem_identifiers {name : String} {ss : List Stmt} :
    name ∈ Stmts.identifiers ss ↔ ∃ s ∈ ss, name ∈ s.identifiers := by
  induction ss with
  | nil => simp [Stmts.identifiers]
  | cons s ss ih => simp [Stmts.identifiers, ih]

theorem AreWords.statements (h : AreWords p.identifiers) : AreWords (Stmts.identifiers p.statements) := by
  intro name hname
  obtain ⟨s, hs, hname⟩ := Stmts.mem_identifiers.1 hname
  obtain ⟨item, hitem, hstmt⟩ := List.mem_filterMap.1 hs
  cases item with
  | function f => cases hstmt
  | statement s' =>
    cases hstmt
    exact h name (List.mem_flatMap.2 ⟨_, hitem, hname⟩)

end Programs

/-- All names in what a phrase stands for have a property. Operators with their operands keep it, if
what they are applied to has it. -/
def Phrase.Named (P : String → Prop) : (s : Phrase) → s.Value → Prop
  | expr _, e => ∀ name ∈ Expr.identifiers e, P name
  | tail _, f => ∀ e : Expr, (∀ name ∈ e.identifiers, P name) → ∀ name ∈ (f e).identifiers, P name
  | list, es | arguments, es => ∀ name ∈ Exprs.identifiers es, P name
  | stmt, s => ∀ name ∈ Stmt.identifiers s, P name
  | block, ss | otherwise, ss => ∀ name ∈ Stmts.identifiers ss, P name
  | elifs, es => ∀ name ∈ Arms.identifiers es, P name

/-- The names of a derivation are among its tokens. -/
theorem Tree.named {P : String → Prop} {s : Phrase} (t : Tree s)
    (h : ∀ name, .ident name ∈ t.tokens → P name) :
    s.Named P t.value := by
  induction t with
  | chain _ first rest ih₁ ih₂ =>
    simp only [tokens, List.mem_append] at h
    exact ih₂ (fun name hname => h name (.inr hname)) _ (ih₁ fun name hname => h name (.inl hname))
  | done => exact fun e he => he
  | more op _ operand rest ih₁ ih₂ =>
    simp only [tokens, List.mem_append] at h
    refine fun e he => ih₂ (fun name hname => h name (.inr (.inr hname))) _ ?_
    simp only [Expr.identifiers, List.forall_mem_append]
    exact ⟨he, ih₁ fun name hname => h name (.inr (.inl hname))⟩
  | affirmed _ ih | unsigned _ ih | base _ ih | some _ ih => exact ih h
  | not _ ih | minus _ ih | plus _ ih => exact ih fun name hname => h name (List.mem_cons_of_mem _ hname)
  | number | none | pass | empty | noElif | noElse => exact fun name hname => absurd hname List.not_mem_nil
  | var name => simpa [Phrase.Named, value, Expr.identifiers, tokens] using h
  | last _ ih => simpa [Phrase.Named, value, Exprs.identifiers] using ih h
  | eval _ ih | ret _ ih | print _ ih =>
    simp only [tokens, List.mem_cons, List.mem_append] at h
    exact ih fun name hname => h name (by simp [hname])
  | paren _ ih | else_ _ ih =>
    simp only [tokens, List.mem_cons, List.mem_append] at h
    exact ih fun name hname => h name (by simp [hname])
  | call name _ ih | assign name _ ih =>
    simp only [tokens, List.mem_cons, List.mem_append] at h
    refine List.forall_mem_cons.2 ⟨h name (.inl rfl), ih fun n hn => h n (by simp [hn])⟩
  | raised _ _ ih₁ ih₂ | comma _ _ ih₁ ih₂ | loop _ _ ih₁ ih₂ | cons _ _ ih₁ ih₂ =>
    simp only [tokens, List.mem_cons, List.mem_append] at h
    exact List.forall_mem_append.2 ⟨ih₁ fun n hn => h n (by simp [hn]), ih₂ fun n hn => h n (by simp [hn])⟩
  | elif _ _ _ ih₁ ih₂ ih₃ =>
    simp only [tokens, List.mem_cons, List.mem_append] at h
    exact List.forall_mem_append.2 ⟨List.forall_mem_append.2 ⟨ih₁ fun n hn => h n (by simp [hn]),
      ih₂ fun n hn => h n (by simp [hn])⟩, ih₃ fun n hn => h n (by simp [hn])⟩
  | branch _ _ _ _ ih₁ ih₂ ih₃ ih₄ =>
    simp only [tokens, List.mem_cons, List.mem_append] at h
    exact List.forall_mem_append.2 ⟨List.forall_mem_append.2 ⟨List.forall_mem_append.2
      ⟨ih₁ fun n hn => h n (by simp [hn]), ih₂ fun n hn => h n (by simp [hn])⟩,
      ih₃ fun n hn => h n (by simp [hn])⟩, ih₄ fun n hn => h n (by simp [hn])⟩

theorem ItemTree.mem_paramTokens {param : String} : ∀ {params : List String}, param ∈ params →
    .ident param ∈ paramTokens params
  | [p], h => by simpa [paramTokens] using h
  | p :: q :: params, h => by
    have hrest : param ∈ q :: params → Token.ident param ∈ paramTokens (q :: params) := mem_paramTokens
    rw [paramTokens, List.map_cons, List.map_cons, List.intersperse_cons_cons]
    rcases List.mem_cons.1 h with rfl | h
    · exact List.mem_cons_self
    · exact List.mem_cons_of_mem _ (List.mem_cons_of_mem _ (hrest h))

theorem ItemTree.named {P : String → Prop} (t : ItemTree) (h : ∀ name, .ident name ∈ t.tokens → P name) :
    ∀ name ∈ t.value.identifiers, P name := by
  cases t with
  | statement s => exact s.named h
  | function exported f params body =>
    refine List.forall_mem_append.2 ⟨List.forall_mem_cons.2 ⟨h f (by simp [tokens]), fun name hname =>
      h name (by simp [tokens, mem_paramTokens hname])⟩,
      body.named fun name hname => h name (by simp [tokens, hname])⟩

/-- A program that has been parsed has words for names, and names no parameter of a function twice. -/
theorem words_of_parseProgram {cs : List Char} {p : Program} (h : parseProgram cs = .ok p) :
    AreWords p.identifiers ∧ ∀ d ∈ p.functions, d.params.Nodup := by
  obtain ⟨t, rfl, hdistinct, htokens⟩ := exists_tree h
  constructor
  · intro name hname
    obtain ⟨item, hitem, hname⟩ := List.mem_flatMap.1 hname
    obtain ⟨i, hi, rfl⟩ := List.mem_map.1 hitem
    refine i.named (P := fun name => IsWord name.toList) (fun name hident => ?_) name hname
    have hmem : Token.ident name ∈ (Source.ofText cs).tokens :=
      htokens ▸ List.mem_flatMap.2 ⟨i, hi, hident⟩
    exact (isWord_of_isName (writable_of_mem_tokens hmem (by simp [Token.Valid]))).1
  · intro d hd
    obtain ⟨item, hitem, hfun⟩ := List.mem_filterMap.1 hd
    obtain ⟨i, hi, rfl⟩ := List.mem_map.1 hitem
    cases i with
    | statement s => cases hfun
    | function exported f params body =>
      cases hfun
      exact hdistinct _ hi

end IntLang
