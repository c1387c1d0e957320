import IntLang.Proofs.ResultNames

/-! The text of a module as a sequence of words. Where names are words, each construct is known by what
it starts with, and equal texts have equal words. -/
namespace IntLang

def wordOf (cs : List Char) : List String :=
  if cs.isEmpty then [] else [String.ofList cs]

def wordsFrom (begun : List Char) : List Char → List String
  | [] => wordOf begun
  | c :: cs =>
    if breaks.contains c then wordOf begun ++ (if c = '\n' then ["\n"] else []) ++ wordsFrom [] cs
    else wordsFrom (begun ++ [c]) cs

/-- The words of a text. The end of a line counts as a word. -/
def words (s : String) : List String :=
  wordsFrom [] s.toList

theorem wordsFrom_append_cons {c : Char} (hc : breaks.contains c = true) (cs : List Char) :
    ∀ begun u : List Char, wordsFrom begun (u ++ c :: cs) = wordsFrom begun u ++ wordsFrom [] (c :: cs)
  | begun, [] => by
    simp only [List.nil_append, wordsFrom, hc, ↓reduceIte, wordOf, List.isEmpty_nil, List.append_assoc]
  | begun, d :: u => by
    rw [List.cons_append, wordsFrom, wordsFrom]
    split
    · simp only [wordsFrom_append_cons hc cs [] u, List.append_assoc]
    · exact wordsFrom_append_cons hc cs _ u

theorem wordsFrom_of_notMem : ∀ {begun w : List Char}, (∀ c ∈ w, c ∉ breaks) →
    wordsFrom begun w = wordOf (begun ++ w)
  | begun, [], _ => by rw [wordsFrom, List.append_nil]
  | begun, c :: w, h => by
    rw [List.forall_mem_cons] at h
    rw [wordsFrom, if_neg (by simpa using h.1), wordsFrom_of_notMem h.2, List.append_assoc,
      List.singleton_append]

theorem words_of_unbroken {w : String} (h : Unbroken w) : words w = [w] := by
  rw [words, wordsFrom_of_notMem h.2, List.nil_append, wordOf, if_neg (by simpa using h.1),
    String.ofList_toList]

theorem wordsFrom_toList (s : String) : wordsFrom [] s.toList = words s := rfl

/-- What stands before a break is read on its own. -/
theorem wordsFrom_toList_append {s : String} {c : Char} {cs : List Char} (hc : breaks.contains c = true) :
    wordsFrom [] (s.toList ++ c :: cs) = words s ++ wordsFrom [] (c :: cs) :=
  wordsFrom_append_cons hc cs [] s.toList

/-- Whole lines. -/
def Lined (s : String) : Prop :=
  s = "" ∨ ∃ u, s = u ++ "\n"

theorem lined_append_newline (u : String) : Lined (u ++ "\n") :=
  .inr ⟨u, rfl⟩

theorem lined_append_of_eq {t u : String} (h : t = u ++ "\n") (s : String) : Lined (s ++ t) :=
  .inr ⟨s ++ u, by rw [h, String.append_assoc]⟩

theorem Lined.append {s t : String} (hs : Lined s) (ht : Lined t) : Lined (s ++ t) := by
  rcases ht with rfl | ⟨u, hu⟩
  · rwa [String.append_empty]
  · exact lined_append_of_eq hu s

theorem lined_join : ∀ {xs : List String}, (∀ x ∈ xs, Lined x) → Lined (String.join xs)
  | [], _ => .inl rfl
  | x :: xs, h => by
    rw [List.forall_mem_cons] at h
    rw [String.join_cons]
    exact h.1.append (lined_join h.2)

theorem words_append_of_lined {s : String} (h : Lined s) (t : String) :
    words (s ++ t) = words s ++ words t := by
  rcases h with rfl | ⟨u, rfl⟩
  · simp [words, wordsFrom, wordOf]
  · unfold words
    simp [wordsFrom_toList_append, wordsFrom, wordOf, breaks]

theorem words_newline_append (t : String) : words ("\n" ++ t) = "\n" :: words t :=
  words_append_of_lined (lined_append_newline "") t

theorem words_join : ∀ {xs : List String}, (∀ x ∈ xs, Lined x) → words (String.join xs) = xs.flatMap words
  | [], _ => by simp [words, wordsFrom, wordOf]
  | x :: xs, h => by
    rw [List.forall_mem_cons] at h
    rw [String.join_cons, words_append_of_lined h.1, words_join h.2, List.flatMap_cons]

theorem words_commas : ∀ xs : List String, words (Flow.Naming.commas xs) = xs.flatMap words
  | [] => by simp [Flow.Naming.commas, words, wordsFrom, wordOf]
  | [x] => by simp [Flow.Naming.commas]
  | x :: y :: xs => by
    have hrest := words_commas (y :: xs)
    unfold Flow.Naming.commas at hrest ⊢
    rw [String.intercalate_cons_cons, List.flatMap_cons, ← hrest]
    unfold words
    simp [wordsFrom_toList, wordsFrom_toList_append, wordsFrom, wordOf, breaks]

/-- Lines that blank lines keep apart, and what comes after them. -/
theorem words_intercalate_lines (t : String) : ∀ {xs : List String}, xs ≠ [] → (∀ x ∈ xs, Lined x) →
    "\n" :: words ("\n".intercalate xs ++ t) = xs.flatMap ("\n" :: words ·) ++ words t
  | [x], _, h => by simp [words_append_of_lined (h x (by simp))]
  | x :: y :: xs, _, h => by
    rw [List.forall_mem_cons] at h
    have hrest := words_intercalate_lines t (List.cons_ne_nil y xs) h.2
    rw [String.intercalate_cons_cons, List.flatMap_cons, List.append_assoc, ← hrest, String.append_assoc,
      words_append_of_lined (lined_append_newline x)]
    unfold words
    simp [wordsFrom_toList, wordsFrom_toList_append, wordsFrom, wordOf, breaks]

theorem Unbroken.append {v w : String} (hv : Unbroken v) (hw : Unbroken w) : Unbroken (v ++ w) := by
  refine ⟨by simp [hv.1], fun c hc => ?_⟩
  rw [String.toList_append, List.mem_append] at hc
  exact hc.elim (hv.2 c) (hw.2 c)

namespace Flow

def Linkage.words : Linkage → List String
  | external => []
  | internal => ["internal"]
  | weak => ["extern_weak"]

namespace Naming

def typedWords (n : Naming) (v : Operand) : List String :=
  [(n.function.typeOf v).name, n.operand v]

def calleeWords (n : Naming) (callee : FuncId) : List String :=
  match n.module.function? callee with
  | some f => (if f.variadic then ["i32", "..."] else []) ++ ["@" ++ f.name]
  | none => ["@<erased>"]

def instrWords (n : Naming) : Instr → List String
  | .alloca _ => ["alloca", "i32"]
  | .load address => "load" :: "i32" :: n.typedWords address
  | .store value address => "store" :: n.typedWords value ++ n.typedWords address
  | .arith op ty lhs rhs => [op.mnemonic, ty.name, n.operand lhs, n.operand rhs]
  | .compare op lhs rhs => "icmp" :: op.mnemonic :: n.typedWords lhs ++ [n.operand rhs]
  | .widen value => "zext" :: n.typedWords value ++ ["to", "i32"]
  | .call callee args => "call" :: "i32" :: n.calleeWords callee ++ args.flatMap n.typedWords
  | .phi ty incoming =>
    "phi" :: ty.name :: incoming.flatMap fun x => ["[", n.operand x.1, n.block x.2, "]"]

def endWords (n : Naming) : Option Terminator → List String
  | some (.jump dest) => ["br", "label", n.block dest]
  | some (.branch cond onTrue onFalse) =>
    "br" :: n.typedWords cond ++ ["label", n.block onTrue, "label", n.block onFalse]
  | some (.ret value) => "ret" :: n.typedWords value
  | none => [";", "missing", "terminator"]

def lineWords (n : Naming) (id : InstrId) : List String :=
  match n.function.instrs[id]? with
  | some i =>
    (if i.resultTy?.isSome then [n.operand (.instr id), "="] else []) ++ n.instrWords i ++ ["\n"]
  | none => []

def blockWords (n : Naming) (b : Block) : List String :=
  b.name :: "\n" :: b.instrs.toList.flatMap n.lineWords ++ n.endWords b.terminator ++ ["\n"]

end Naming

namespace Function

def paramWords (f : Function) (numbered : Bool) : List String :=
  ((List.range f.paramCount).flatMap fun i => if numbered then ["i32", "%" ++ toString i] else ["i32"]) ++
    if f.variadic then ["..."] else []

def signatureWords (f : Function) (numbered : Bool) : List String :=
  f.linkage.words ++ "i32" :: ("@" ++ f.name) :: f.paramWords numbered

/-- What the text of a function of module `m` refers to. -/
def naming (f : Function) (m : Module) : Naming :=
  ⟨m, f, f.resultNames⟩

def textWords (f : Function) (m : Module) : List String :=
  if f.isDeclaration then "declare" :: f.signatureWords false ++ ["\n"]
  else
    "define" :: f.signatureWords true ++
      "\x7b" :: (f.blocks.toList.flatMap ("\n" :: (f.naming m).blockWords ·) ++ ["\x7d", "\n"])

end Function

def Global.textWords (g : Global) : List String :=
  ["@" ++ g.name, "=", "internal", "global", "i32", toString g.init.toInt, "\n"]

def cellWords : List Global → List String
  | [] => []
  | g :: gs => "\n" :: (g :: gs).flatMap Global.textWords

def Module.functionWords (m : Module) : List String :=
  m.live.flatMap fun x => "\n" :: x.2.textWords m

def Module.textWords (m : Module) : List String :=
  cellWords m.globals.toList ++ m.functionWords

namespace Naming

/-- An operand that has a name, or needs none. -/
def Knows (n : Naming) : Operand → Prop
  | .bool _ | .int _ => True
  | .param i => i < n.function.paramCount
  | .instr id => ∃ name, n.results[id]?.join = some name
  | .global g => (g : Nat) < n.module.globals.size

def Reads (n : Naming) : Instr → Prop
  | .alloca _ => True
  | .load address => n.Knows address
  | .store value address => n.Knows value ∧ n.Knows address
  | .arith _ _ lhs rhs | .compare _ lhs rhs => n.Knows lhs ∧ n.Knows rhs
  | .widen value => n.Knows value
  | .call callee args => n.module.function? callee ≠ none ∧ ∀ v ∈ args, n.Knows v
  | .phi _ incoming => ∀ x ∈ incoming, n.Knows x.1 ∧ (x.2 : Nat) < n.function.blocks.size

/-- An end that refers to what is there. -/
def Leads (n : Naming) : Terminator → Prop
  | .jump dest => (dest : Nat) < n.function.blocks.size
  | .branch cond onTrue onFalse => n.Knows cond ∧
    (onTrue : Nat) < n.function.blocks.size ∧ (onFalse : Nat) < n.function.blocks.size
  | .ret value => n.Knows value

/-- A function that refers to what is there, under names that are words and tell things apart. -/
structure Legible (n : Naming) : Prop where
  results : ∀ (id : InstrId) name, n.results[id]?.join = some name → Unbroken name
  labels : ∀ b ∈ n.function.blocks, Unbroken b.name
  cells : ∀ g ∈ n.module.globals, Unbroken g.name
  functions : ∀ id f, n.module.function? id = some f → Unbroken f.name
  named : ∀ id : InstrId, n.Knows (.instr id) ↔
    ∃ i, n.function.instrs[id]? = some i ∧ i.resultTy?.isSome = true
  slots : ∀ (id : InstrId) name, n.function.instrs[id]? = some (.alloca name) →
    n.results[id]?.join = some name
  numbers : ∀ (id : InstrId), ∀ j < n.function.paramCount, n.results[id]?.join ≠ some (toString j)
  apart : (n.module.globals.toList.map (·.name)).Nodup
  instrs : ∀ i ∈ n.function.instrs, n.Reads i
  placed : ∀ b ∈ n.function.blocks, ∀ id ∈ b.instrs, ∃ i, n.function.instrs[id]? = some i
  ends : ∀ b ∈ n.function.blocks, ∃ t, b.terminator = some t ∧ n.Leads t

end Naming

@[simp] theorem Ty.unbroken_name (t : Ty) : Unbroken t.name := by
  cases t <;> exact unbroken_literal rfl (by decide)

@[simp] theorem ArithOp.unbroken_mnemonic (op : ArithOp) : Unbroken op.mnemonic := by
  cases op <;> exact unbroken_literal rfl (by decide)

@[simp] theorem CmpOp.unbroken_mnemonic (op : CmpOp) : Unbroken op.mnemonic := by
  cases op <;> exact unbroken_literal rfl (by decide)

theorem unbroken_percent : Unbroken "%" := unbroken_literal rfl (by decide)

theorem unbroken_at : Unbroken "@" := unbroken_literal rfl (by decide)

theorem unbroken_toString_nat (k : Nat) : Unbroken (toString k) :=
  toString_natCast k ▸ unbroken_toString k

theorem wordsFrom_percent {w : String} (hw : Unbroken w) : wordsFrom ['%'] w.toList = ["%" ++ w] := by
  rw [← words_of_unbroken (unbroken_percent.append hw)]
  unfold words
  simp [wordsFrom, breaks]

theorem wordsFrom_at {w : String} {cs : List Char} (hw : Unbroken w) :
    wordsFrom ['@'] (w.toList ++ '(' :: cs) = ("@" ++ w) :: wordsFrom [] cs := by
  rw [wordsFrom_append_cons (by decide), ← List.singleton_append (x := "@" ++ w),
    ← words_of_unbroken (unbroken_at.append hw)]
  unfold words
  simp [wordsFrom, wordOf, breaks]

section
attribute [local simp] wordsFrom wordOf breaks wordsFrom_toList wordsFrom_toList_append words_of_unbroken
  wordsFrom_at wordsFrom_percent

namespace Naming
variable {n : Naming}

namespace Legible

theorem unbroken_operand (h : n.Legible) {v : Operand} (hv : n.Knows v) : Unbroken (n.operand v) := by
  cases v with
  | bool b =>
    simp only [operand]
    split <;> exact unbroken_literal rfl (by decide)
  | int k => exact unbroken_toString k.toInt
  | param i => exact unbroken_percent.append (unbroken_toString_nat i)
  | instr id =>
    obtain ⟨name, hname⟩ := hv
    simp only [operand, hname]
    exact unbroken_percent.append (h.results id name hname)
  | global g =>
    have hg : (g : Nat) < n.module.globals.size := hv
    simp only [operand, Array.getElem?_eq_getElem hg, Option.map_some, Option.getD_some]
    exact unbroken_at.append (h.cells _ (Array.getElem_mem hg))

theorem unbroken_block (h : n.Legible) {b : BlockId} (hb : (b : Nat) < n.function.blocks.size) :
    Unbroken (n.block b) := by
  simp only [block, Array.getElem?_eq_getElem hb, Option.map_some, Option.getD_some]
  exact unbroken_percent.append (h.labels _ (Array.getElem_mem hb))

theorem words_typed (h : n.Legible) {v : Operand} (hv : n.Knows v) :
    words (n.typed v) = n.typedWords v := by
  unfold words typed typedWords
  simp [h.unbroken_operand hv]

theorem words_arguments (h : n.Legible) {args : List Operand} (hargs : ∀ v ∈ args, n.Knows v) :
    words (commas (args.map n.typed)) = args.flatMap n.typedWords := by
  rw [words_commas, List.flatMap_map]
  exact List.flatMap_congr fun v hv => h.words_typed (hargs v hv)

theorem words_incoming (h : n.Legible) {incoming : List (Operand × BlockId)}
    (hin : ∀ x ∈ incoming, n.Knows x.1 ∧ (x.2 : Nat) < n.function.blocks.size) :
    words (commas (incoming.map fun (v, b) => "[ " ++ n.operand v ++ ", " ++ n.block b ++ " ]")) =
      incoming.flatMap fun x => ["[", n.operand x.1, n.block x.2, "]"] := by
  rw [words_commas, List.flatMap_map]
  refine List.flatMap_congr fun x hx => ?_
  obtain ⟨hv, hb⟩ := hin x hx
  unfold words
  simp [h.unbroken_operand hv, h.unbroken_block hb]

theorem words_instr (h : n.Legible) {i : Instr} (hi : n.Reads i) :
    words (n.instr i) = n.instrWords i := by
  cases i with
  | alloca name => exact (by rfl : words "alloca i32" = ["alloca", "i32"])
  | load address =>
    unfold words instr instrWords
    simp [h.words_typed hi]
  | store value address =>
    unfold words instr instrWords
    simp [h.words_typed hi.1, h.words_typed hi.2]
  | arith op ty lhs rhs =>
    unfold words instr instrWords
    simp [h.unbroken_operand hi.1, h.unbroken_operand hi.2]
  | compare op lhs rhs =>
    unfold words instr instrWords
    simp [h.words_typed hi.1, h.unbroken_operand hi.2]
  | widen value =>
    unfold words instr instrWords
    simp [h.words_typed hi]
  | call callee args =>
    obtain ⟨f, hf⟩ := Option.ne_none_iff_exists'.1 hi.1
    have hname := h.functions callee f hf
    simp only [instr, instrWords, calleeWords, hf]
    unfold words
    cases f.variadic <;> simp [hname, h.words_arguments hi.2]
  | phi ty incoming =>
    unfold words instr instrWords
    simp [h.words_incoming hi]

theorem words_terminator (h : n.Legible) {t : Terminator} (ht : n.Leads t) :
    words (n.terminator (some t)) = n.endWords (some t) := by
  unfold words terminator endWords
  cases t with
  | jump dest => simp [h.unbroken_block ht]
  | branch cond onTrue onFalse =>
    simp [h.words_typed ht.1, h.unbroken_block ht.2.1, h.unbroken_block ht.2.2]
  | ret value => simp [h.words_typed ht]

theorem lined_instrLine (id : InstrId) : Lined (n.instrLine id) := by
  unfold instrLine
  split
  · exact .inr ⟨_, rfl⟩
  · exact .inl rfl

theorem words_instrLine (h : n.Legible) {id : InstrId} {i : Instr} (hi : n.function.instrs[id]? = some i) :
    words (n.instrLine id) = n.lineWords id := by
  have hreads := h.instrs i (Array.mem_of_getElem? hi)
  simp only [instrLine, lineWords, hi]
  unfold words
  split
  · next hres => simp [h.unbroken_operand ((h.named id).2 ⟨i, hi, hres⟩), h.words_instr hreads]
  · simp [h.words_instr hreads]

theorem words_blockText (h : n.Legible) {b : Block} (hb : b ∈ n.function.blocks) :
    words (n.blockText b) = n.blockWords b := by
  obtain ⟨t, ht, hleads⟩ := h.ends b hb
  have hlines : words (String.join (b.instrs.toList.map n.instrLine)) =
      b.instrs.toList.flatMap n.lineWords := by
    rw [words_join (by simp [lined_instrLine]), List.flatMap_map]
    refine List.flatMap_congr fun id hid => ?_
    obtain ⟨i, hi⟩ := h.placed b hb id (Array.mem_toList_iff.1 hid)
    exact h.words_instrLine hi
  unfold blockText blockWords
  generalize String.join (b.instrs.toList.map n.instrLine) = lines at hlines ⊢
  unfold words
  simp [h.labels b hb, hlines, ht, h.words_terminator hleads]

end Legible
end Naming

namespace Function
variable {f : Function} {m : Module}

theorem words_param (numbered : Bool) (i : Nat) :
    words (if numbered then "i32 %" ++ toString i else "i32") =
      if numbered then ["i32", "%" ++ toString i] else ["i32"] := by
  have hword := unbroken_toString_nat i
  generalize toString i = w at hword ⊢
  unfold words
  split <;> simp [hword]

theorem words_signature {numbered : Bool} (hname : Unbroken f.name) :
    words (f.signature numbered) = f.signatureWords numbered := by
  obtain ⟨params, hparams, hsig⟩ : ∃ params, words params = f.paramWords numbered ∧
      f.signature numbered = f.linkage.keyword ++ "i32 @" ++ f.name ++ "(" ++ params ++ ")" := by
    refine ⟨_, ?_, rfl⟩
    have hdots : words "..." = ["..."] := by rfl
    rw [words_commas, paramWords]
    split <;>
      simp only [List.flatMap_append, List.flatMap_map, words_param, List.flatMap_singleton, hdots,
        List.append_nil]
  rw [hsig, signatureWords]
  cases hl : f.linkage <;> unfold words <;> simp [hname, hparams, Linkage.words, Linkage.keyword]

theorem lined_render (f : Function) (m : Module) : Lined (f.render m) := by
  unfold render
  split
  · exact lined_append_newline _
  · exact lined_append_of_eq (u := "\x7d") rfl _

theorem words_render (hname : Unbroken f.name) (h : (f.naming m).Legible) :
    words (f.render m) = f.textWords m := by
  unfold render textWords
  split
  · unfold words
    simp [words_signature hname]
  · next hdecl =>
    have hlined : ∀ x ∈ f.blocks.toList.map (f.naming m).blockText, Lined x := by
      simp only [List.mem_map, forall_exists_index, and_imp, forall_apply_eq_imp_iff₂]
      exact fun b _ => .inr ⟨_, rfl⟩
    have hblocks :
        "\n" :: words ("\n".intercalate (f.blocks.toList.map (f.naming m).blockText) ++ "\x7d\n") =
          f.blocks.toList.flatMap ("\n" :: (f.naming m).blockWords ·) ++ ["\x7d", "\n"] := by
      rw [words_intercalate_lines _ (by simpa [isDeclaration] using hdecl) hlined, List.flatMap_map]
      congr 1
      refine List.flatMap_congr fun b hb => ?_
      rw [h.words_blockText (Array.mem_toList_iff.1 hb)]
    have hsignature : words (f.signature true) = f.signatureWords true := words_signature hname
    rw [← hblocks]
    refine (congrArg words String.append_assoc).trans ?_
    change words (_ ++ ("\n".intercalate (f.blocks.toList.map (f.naming m).blockText) ++ "\x7d\n")) = _
    generalize "\n".intercalate (f.blocks.toList.map (f.naming m).blockText) ++ "\x7d\n" = body
    unfold words
    simp [hsignature]

end Function

theorem Global.words_text {g : Global} (hg : Unbroken g.name) :
    words ("@" ++ g.name ++ " = internal global i32 " ++ toString g.init.toInt ++ "\n") = g.textWords := by
  have hnumber := unbroken_toString g.init.toInt
  generalize hw : toString g.init.toInt = w at hnumber
  rw [textWords, hw]
  have hname := unbroken_at.append hg
  generalize "@" ++ g.name = cell at hname ⊢
  unfold words
  simp [hname, hnumber]

/-- A module of which every part can be read. -/
structure Module.Legible (m : Module) : Prop where
  cells : ∀ g ∈ m.globals, Unbroken g.name
  functions : ∀ id f, m.function? id = some f → (f.naming m).Legible

theorem Module.render_eq (m : Module) : m.render = "; ModuleID = '" ++ m.name ++ "'\n" ++
    (m.renderGlobals ++ String.join (m.live.map fun x => "\n" ++ x.2.render m)) :=
  String.append_assoc

/-- What the text of a module says after the module's name. -/
theorem Module.Legible.words_render {m : Module} (h : m.Legible) :
    ∃ body, m.render = "; ModuleID = '" ++ m.name ++ "'\n" ++ body ∧ words body = m.textWords := by
  have hlines : ∀ x ∈ m.globals.toList.map fun g : Global =>
      "@" ++ g.name ++ " = internal global i32 " ++ toString g.init.toInt ++ "\n", Lined x := by
    simp only [List.mem_map, forall_exists_index, and_imp, forall_apply_eq_imp_iff₂]
    exact fun g _ => lined_append_newline _
  have hglobals : Lined m.renderGlobals ∧ words m.renderGlobals = cellWords m.globals.toList := by
    have hcells (g : Global) (hg : g ∈ m.globals.toList) := h.cells g (Array.mem_toList_iff.1 hg)
    unfold renderGlobals
    rw [← Array.isEmpty_toList]
    cases hm : m.globals.toList with
    | nil => exact ⟨.inl rfl, rfl⟩
    | cons g gs =>
      rw [hm] at hlines hcells
      refine ⟨(lined_append_newline "").append (lined_join hlines), ?_⟩
      rw [if_neg (by simp), words_newline_append, words_join hlines, List.flatMap_map, cellWords]
      exact congrArg (List.cons "\n") (List.flatMap_congr fun g hg => Global.words_text (hcells g hg))
  have hfunctions : ∀ x ∈ m.live.map fun x : FuncId × Function => "\n" ++ x.2.render m, Lined x := by
    simp only [List.mem_map, forall_exists_index, and_imp, forall_apply_eq_imp_iff₂]
    exact fun x _ => (lined_append_newline "").append (x.2.lined_render m)
  refine ⟨_, m.render_eq, ?_⟩
  rw [words_append_of_lined hglobals.1, hglobals.2, textWords, functionWords, words_join hfunctions,
    List.flatMap_map]
  congr 1
  refine List.flatMap_congr fun x hx => ?_
  have hlegible := h.functions x.1 x.2 (mem_live.1 hx)
  rw [words_newline_append, Function.words_render (hlegible.functions x.1 x.2 (mem_live.1 hx)) hlegible]

end

end Flow
end IntLang
