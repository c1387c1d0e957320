import IntLang.Proofs.ModuleWords

/-! What the words of a block say about the block. Two functions may number their instructions in
different ways; where their words are the same, one is the other after renaming. -/
namespace IntLang.Flow

section Lists
variable {α β : Type}

/-- Parts that end by themselves are known from a sequence, if what follows the last is no part. -/
theorem forall₂_of_flatMap {u : α → List String} {v : β → List String} {R : α → β → Prop}
    (stop : List String → Prop) : ∀ {as : List α} {bs : List β} {r r' : List String},
    (∀ a ∈ as, ∀ b ∈ bs, ∀ s s', u a ++ s = v b ++ s' → R a b ∧ s = s') →
    (∀ a ∈ as, ∀ s, ¬ stop (u a ++ s)) → (∀ b ∈ bs, ∀ s, ¬ stop (v b ++ s)) → stop r → stop r' →
    as.flatMap u ++ r = bs.flatMap v ++ r' → List.Forall₂ R as bs ∧ r = r'
  | [], [], r, r', _, _, _, _, _, h => ⟨.nil, h⟩
  | [], b :: bs, r, r', _, _, hv, hr, _, h => by
    rw [List.flatMap_nil, List.nil_append, List.flatMap_cons, List.append_assoc] at h
    exact absurd (h ▸ hr) (hv b List.mem_cons_self _)
  | a :: as, [], r, r', _, hu, _, _, hr', h => by
    rw [List.flatMap_nil, List.nil_append, List.flatMap_cons, List.append_assoc] at h
    exact absurd (h ▸ hr') (hu a List.mem_cons_self _)
  | a :: as, b :: bs, r, r', hR, hu, hv, hr, hr', h => by
    rw [List.flatMap_cons, List.flatMap_cons, List.append_assoc, List.append_assoc] at h
    obtain ⟨hab, hrest⟩ := hR a List.mem_cons_self b List.mem_cons_self _ _ h
    obtain ⟨hall, heq⟩ := forall₂_of_flatMap stop
      (fun a ha b hb => hR a (List.mem_cons_of_mem _ ha) b (List.mem_cons_of_mem _ hb))
      (fun a ha => hu a (List.mem_cons_of_mem _ ha)) (fun b hb => hv b (List.mem_cons_of_mem _ hb))
      hr hr' hrest
    exact ⟨.cons hab hall, heq⟩

theorem eq_map_of_forall₂ {g : α → β} {as : List α} {bs : List β}
    (h : List.Forall₂ (fun a b => b = g a) as bs) : bs = as.map g := by
  induction h with
  | nil => rfl
  | cons hb _ ih => rw [List.map_cons, hb, ih]

end Lists

structure Renaming where
  result : InstrId → InstrId
  block : BlockId → BlockId
  callee : FuncId → FuncId

def Renaming.ofResults (σ : InstrId → InstrId) : Renaming :=
  ⟨σ, id, id⟩

def Operand.rename (ρ : Renaming) : Operand → Operand
  | .instr id => .instr (ρ.result id)
  | .bool b => .bool b
  | .int n => .int n
  | .param i => .param i
  | .global g => .global g

def Instr.rename (ρ : Renaming) : Instr → Instr
  | .alloca name => .alloca name
  | .load address => .load (address.rename ρ)
  | .store value address => .store (value.rename ρ) (address.rename ρ)
  | .arith op ty lhs rhs => .arith op ty (lhs.rename ρ) (rhs.rename ρ)
  | .compare op lhs rhs => .compare op (lhs.rename ρ) (rhs.rename ρ)
  | .widen value => .widen (value.rename ρ)
  | .call callee args => .call (ρ.callee callee) (args.map (·.rename ρ))
  | .phi ty incoming => .phi ty (incoming.map fun x => (x.1.rename ρ, ρ.block x.2))

def Terminator.rename (ρ : Renaming) : Terminator → Terminator
  | .jump dest => .jump (ρ.block dest)
  | .branch cond onTrue onFalse => .branch (cond.rename ρ) (ρ.block onTrue) (ρ.block onFalse)
  | .ret value => .ret (value.rename ρ)

theorem ArithOp.mnemonic_inj {op op' : ArithOp} (h : op.mnemonic = op'.mnemonic) : op = op' := by
  cases op <;> cases op' <;> simp [ArithOp.mnemonic] at h ⊢

theorem CmpOp.mnemonic_inj {op op' : CmpOp} (h : op.mnemonic = op'.mnemonic) : op = op' := by
  cases op <;> cases op' <;> simp [CmpOp.mnemonic] at h ⊢

theorem Ty.name_inj {t t' : Ty} (h : t.name = t'.name) : t = t' := by
  cases t <;> cases t' <;> simp [Ty.name] at h ⊢

namespace Naming
variable {n n' : Naming} {ρ τ : Renaming} {r r' : List String} {id : InstrId} {i : Instr} {v : Operand}

structure Alike (n : Naming) (ρ τ : Renaming) : Prop where
  result : ∀ id, n.Knows (.instr id) → ρ.result id = τ.result id
  block : ∀ b : Nat, b < n.function.blocks.size → ρ.block b = τ.block b
  callee : ∀ id, n.module.function? id ≠ none → ρ.callee id = τ.callee id

namespace Alike

theorem operand (h : n.Alike ρ τ) (hv : n.Knows v) : v.rename ρ = v.rename τ := by
  cases v with
  | instr id => rw [Operand.rename, Operand.rename, h.result id hv]
  | _ => rfl

theorem instr (h : n.Alike ρ τ) (hi : n.Reads i) : i.rename ρ = i.rename τ := by
  cases i with
  | alloca name => rfl
  | load | widen => simp only [Instr.rename, h.operand hi]
  | store | arith | compare => simp only [Instr.rename, h.operand hi.1, h.operand hi.2]
  | call callee args =>
    simp only [Instr.rename, h.callee callee hi.1, List.map_congr_left fun v hv => h.operand (hi.2 v hv)]
  | phi ty incoming =>
    rw [Instr.rename, Instr.rename]
    refine congrArg _ (List.map_congr_left fun x hx => ?_)
    rw [h.operand (hi x hx).1, h.block x.2 (hi x hx).2]

theorem terminator (h : n.Alike ρ τ) {t : Terminator} (ht : n.Leads t) : t.rename ρ = t.rename τ := by
  cases t with
  | jump dest => rw [Terminator.rename, Terminator.rename, h.block dest ht]
  | branch cond onTrue onFalse =>
    rw [Terminator.rename, Terminator.rename, h.operand ht.1, h.block _ ht.2.1, h.block _ ht.2.2]
  | ret value => rw [Terminator.rename, Terminator.rename, h.operand ht]

end Alike

structure Agree (ρ : Renaming) (n n' : Naming) : Prop where
  legible : n.Legible
  legible' : n'.Legible
  results : ∀ (id id' : InstrId) name, n.results[id]?.join = some name →
    n'.results[id']?.join = some name → id' = ρ.result id
  labels : ∀ (b b' : BlockId) name, n.function.labels[b]? = some name →
    n'.function.labels[b']? = some name → b' = ρ.block b
  callees : ∀ id id' name, (n.module.function? id).map (·.name) = some name →
    (n'.module.function? id').map (·.name) = some name → id' = ρ.callee id
  globals : n'.module.globals = n.module.globals
  params : n'.function.paramCount = n.function.paramCount

def kindOf (s : String) : Option Nat :=
  s.toList.head?.map fun c =>
    if c = '%' then 0 else if c = '@' then 1 else if isDigit c || c = '-' then 2 else 3

def kind : Operand → Nat
  | .param _ | .instr _ => 0
  | .global _ => 1
  | .int _ => 2
  | .bool _ => 3

theorem kindOf_operand (hv : n.Knows v) : kindOf (n.operand v) = some (kind v) := by
  cases v with
  | bool b => cases b <;> simp [operand, kindOf, kind, isDigit]
  | int k =>
    obtain ⟨c, cs, hk, hc, -⟩ := exists_toString_cons k.toInt
    have hne (d : Char) (hd : isDigit d = false ∧ d ≠ '-') : c ≠ d := by
      rintro rfl
      simp [hd] at hc
    have hnumber : (isDigit c || c = '-') = true := by simpa using hc
    simp only [operand, kindOf, kind, hk, List.head?_cons, Option.map_some, if_neg (hne '%' (by decide)),
      if_neg (hne '@' (by decide)), if_pos hnumber]
  | global g => simp [operand, kindOf, kind]
  | param i => simp [operand, kindOf, kind]
  | instr id =>
    obtain ⟨name, hname⟩ := hv
    simp [operand, kindOf, kind, hname]

theorem operand_instr {name : String} (h : n.results[id]?.join = some name) :
    n.operand (.instr id) = "%" ++ name := by
  simp only [operand, h]

theorem operand_global {g : GlobalId} (h : (g : Nat) < n.module.globals.size) :
    n.operand (.global g) = "@" ++ n.module.globals[g].name := by
  simp only [operand, Array.getElem?_eq_getElem h, Option.map_some, Option.getD_some]

theorem block_eq {b : BlockId} {name : String} (h : n.function.labels[b]? = some name) :
    n.block b = "%" ++ name := by
  have hget : n.function.blocks[b]?.map (·.name) = some name := by simpa [Function.labels] using h
  rw [block, hget, Option.getD_some]

theorem exists_label {b : BlockId} (h : (b : Nat) < n.function.blocks.size) :
    ∃ name, n.function.labels[b]? = some name :=
  ⟨_, List.getElem?_eq_getElem (by simpa [Function.labels] using h)⟩

namespace Agree

theorem global_inj (h : Agree ρ n n') {g g' : GlobalId} (hg : (g : Nat) < n.module.globals.size)
    (hg' : (g' : Nat) < n'.module.globals.size) (heq : n.operand (.global g) = n'.operand (.global g')) :
    g = g' := by
  rw [operand_global hg, operand_global hg'] at heq
  have hnames := (String.append_right_inj "@").1 heq
  simp only [h.globals] at hnames hg'
  have hsame : (n.module.globals.toList.map (·.name))[g]? =
      (n.module.globals.toList.map (·.name))[g']? := by simp [hg, hg', hnames]
  exact (List.getElem?_inj (by simpa using hg) h.legible.apart).1 hsame

theorem operand (h : Agree ρ n n') {w : Operand} (hv : n.Knows v) (hw : n'.Knows w)
    (heq : n.operand v = n'.operand w) : w = v.rename ρ := by
  have hkind : kind v = kind w := by
    have hsame := kindOf_operand hv
    rw [heq, kindOf_operand hw] at hsame
    exact (Option.some.inj hsame).symm
  cases v with
  | bool b =>
    cases w with
    | bool c => cases b <;> cases c <;> simp [Naming.operand, Operand.rename] at heq ⊢
    | _ => cases hkind
  | int k =>
    cases w with
    | int l => rw [Operand.rename, Int32.toInt_inj.1 (toString_int_inj heq)]
    | _ => cases hkind
  | global g =>
    cases w with
    | global g' => rw [Operand.rename, h.global_inj hv hw heq]
    | _ => cases hkind
  | param i =>
    cases w with
    | param j => rw [Operand.rename, toString_nat_inj ((String.append_right_inj "%").1 heq)]
    | instr id =>
      obtain ⟨name, hname⟩ := hw
      rw [operand_instr hname] at heq
      rw [← (String.append_right_inj "%").1 heq] at hname
      exact absurd hname (h.legible'.numbers id i (h.params ▸ hv))
    | _ => cases hkind
  | instr id =>
    obtain ⟨name, hname⟩ := hv
    rw [operand_instr hname] at heq
    cases w with
    | param j =>
      rw [(String.append_right_inj "%").1 heq] at hname
      exact absurd hname (h.legible.numbers id j (h.params ▸ hw))
    | instr id' =>
      obtain ⟨name', hname'⟩ := hw
      rw [operand_instr hname'] at heq
      rw [← (String.append_right_inj "%").1 heq] at hname'
      rw [Operand.rename, h.results id id' name hname hname']
    | _ => cases hkind

theorem typed (h : Agree ρ n n') {w : Operand} (hv : n.Knows v) (hw : n'.Knows w)
    (heq : n.typedWords v ++ r = n'.typedWords w ++ r') : w = v.rename ρ ∧ r = r' := by
  simp only [typedWords, List.cons_append, List.nil_append, List.cons.injEq] at heq
  exact ⟨h.operand hv hw heq.2.1, heq.2.2⟩

theorem block (h : Agree ρ n n') {b b' : BlockId} (hb : (b : Nat) < n.function.blocks.size)
    (hb' : (b' : Nat) < n'.function.blocks.size) (heq : n.block b = n'.block b') : b' = ρ.block b := by
  obtain ⟨name, hname⟩ := exists_label hb
  obtain ⟨name', hname'⟩ := exists_label hb'
  rw [block_eq hname, block_eq hname'] at heq
  exact h.labels b b' name hname ((String.append_right_inj "%").1 heq ▸ hname')

theorem arguments (h : Agree ρ n n') {args args' : List Operand} (hargs : ∀ v ∈ args, n.Knows v)
    (hargs' : ∀ v ∈ args', n'.Knows v)
    (heq : args.flatMap n.typedWords ++ "\n" :: r = args'.flatMap n'.typedWords ++ "\n" :: r') :
    args' = args.map (·.rename ρ) ∧ r = r' := by
  have hstop (n : Naming) (v : Operand) (s : List String) : (n.typedWords v ++ s).head? ≠ some "\n" := by
    simp only [typedWords, List.cons_append, List.head?_cons]
    cases n.function.typeOf v <;> decide
  obtain ⟨hall, hrest⟩ := forall₂_of_flatMap (fun s => s.head? = some "\n")
    (fun v hv w hw _ _ => h.typed (hargs v hv) (hargs' w hw)) (fun v _ => hstop n v) (fun w _ => hstop n' w)
    rfl rfl heq
  exact ⟨eq_map_of_forall₂ hall, (List.cons.inj hrest).2⟩

theorem incoming (h : Agree ρ n n') {xs xs' : List (Operand × BlockId)}
    (hxs : ∀ x ∈ xs, n.Knows x.1 ∧ (x.2 : Nat) < n.function.blocks.size)
    (hxs' : ∀ x ∈ xs', n'.Knows x.1 ∧ (x.2 : Nat) < n'.function.blocks.size)
    (heq : xs.flatMap (fun x => ["[", n.operand x.1, n.block x.2, "]"]) ++ "\n" :: r =
      xs'.flatMap (fun x => ["[", n'.operand x.1, n'.block x.2, "]"]) ++ "\n" :: r') :
    xs' = xs.map (fun x => (x.1.rename ρ, ρ.block x.2)) ∧ r = r' := by
  have hstep (x : Operand × BlockId) (hx : x ∈ xs) (x' : Operand × BlockId) (hx' : x' ∈ xs')
      (s s' : List String) (hs : ["[", n.operand x.1, n.block x.2, "]"] ++ s =
        ["[", n'.operand x'.1, n'.block x'.2, "]"] ++ s') :
      x' = (x.1.rename ρ, ρ.block x.2) ∧ s = s' := by
    simp only [List.cons_append, List.nil_append, List.cons.injEq, true_and] at hs
    obtain ⟨hv, hb⟩ := hxs x hx
    obtain ⟨hv', hb'⟩ := hxs' x' hx'
    exact ⟨Prod.ext (h.operand hv hv' hs.1) (h.block hb hb' hs.2.1), hs.2.2⟩
  obtain ⟨hall, hrest⟩ := forall₂_of_flatMap (fun s => s.head? = some "\n") hstep (fun _ _ _ => by simp)
    (fun _ _ _ => by simp) rfl rfl heq
  exact ⟨eq_map_of_forall₂ hall, (List.cons.inj hrest).2⟩

theorem callee (h : Agree ρ n n') {c c' : FuncId} (hc : n.module.function? c ≠ none)
    (hc' : n'.module.function? c' ≠ none) (heq : n.calleeWords c ++ r = n'.calleeWords c' ++ r') :
    c' = ρ.callee c ∧ r = r' := by
  obtain ⟨f, hf⟩ := Option.ne_none_iff_exists'.1 hc
  obtain ⟨f', hf'⟩ := Option.ne_none_iff_exists'.1 hc'
  have hname : f.name = f'.name ∧ r = r' := by
    simp only [calleeWords, hf, hf'] at heq
    have hmark (w : String) : "@" ++ w ≠ "i32" := fun h => by
      simpa using congrArg (fun s => s.toList.head?) h
    cases hv : f.variadic <;> cases hv' : f'.variadic <;>
      simp only [hv, hv', Bool.false_eq_true, ↓reduceIte, List.nil_append, List.cons_append,
        List.cons.injEq, hmark, false_and, (hmark _).symm, true_and] at heq
    all_goals exact ⟨(String.append_right_inj "@").1 heq.1, heq.2⟩
  refine ⟨h.callees c c' f.name ?_ ?_, hname.2⟩
  · rw [hf, Option.map_some]
  · rw [hf', Option.map_some, hname.1]

end Agree

def opcode : Instr → String
  | .alloca _ => "alloca"
  | .load _ => "load"
  | .store .. => "store"
  | .arith op .. => op.mnemonic
  | .compare .. => "icmp"
  | .widen _ => "zext"
  | .call .. => "call"
  | .phi .. => "phi"

theorem head?_instrWords (n : Naming) (i : Instr) : (n.instrWords i).head? = some (opcode i) := by
  cases i <;> rfl

def opcodeKind (w : String) : Nat :=
  match w with
  | "alloca" => 0
  | "load" => 1
  | "store" => 2
  | "icmp" => 4
  | "zext" => 5
  | "call" => 6
  | "phi" => 7
  | _ => 3

theorem opcodeKind_opcode (i : Instr) : opcodeKind (opcode i) = i.ctorIdx := by
  cases i with
  | arith op => cases op <;> rfl
  | _ => rfl

namespace Agree

/-- The text of an instruction determines it, but for the name of a slot. -/
theorem instr (h : Agree ρ n n') {i' : Instr} (hi : n.Reads i) (hi' : n'.Reads i')
    (heq : n.instrWords i ++ "\n" :: r = n'.instrWords i' ++ "\n" :: r') :
    ((∀ a b, i = .alloca a → i' = .alloca b → a = b) → i' = i.rename ρ) ∧ r = r' := by
  have hkind : i.ctorIdx = i'.ctorIdx := by
    have hhead := congrArg List.head? heq
    rw [List.head?_append, List.head?_append, head?_instrWords, head?_instrWords] at hhead
    rw [← opcodeKind_opcode, ← opcodeKind_opcode, Option.some.inj hhead]
  cases i with
  | alloca name =>
    cases i' with
    | alloca name' =>
      simp only [instrWords, List.cons_append, List.nil_append, List.cons.injEq, true_and] at heq
      exact ⟨fun hslot => by rw [Instr.rename, hslot name name' rfl rfl], heq⟩
    | _ => cases hkind
  | load address =>
    cases i' with
    | load address' =>
      simp only [instrWords, List.cons_append, List.cons.injEq, true_and] at heq
      obtain ⟨ha, hr⟩ := h.typed hi hi' heq
      exact ⟨fun _ => by rw [Instr.rename, ha], (List.cons.inj hr).2⟩
    | _ => cases hkind
  | store value address =>
    cases i' with
    | store value' address' =>
      simp only [instrWords, List.cons_append, List.append_assoc, List.cons.injEq, true_and] at heq
      obtain ⟨hv, hrest⟩ := h.typed hi.1 hi'.1 heq
      obtain ⟨ha, hr⟩ := h.typed hi.2 hi'.2 hrest
      exact ⟨fun _ => by rw [Instr.rename, hv, ha], (List.cons.inj hr).2⟩
    | _ => cases hkind
  | arith op ty lhs rhs =>
    cases i' with
    | arith op' ty' lhs' rhs' =>
      simp only [instrWords, List.cons_append, List.nil_append, List.cons.injEq, true_and] at heq
      obtain ⟨hop, hty, hl, hr, hrest⟩ := heq
      refine ⟨fun _ => ?_, hrest⟩
      rw [Instr.rename, h.operand hi.1 hi'.1 hl, h.operand hi.2 hi'.2 hr, ArithOp.mnemonic_inj hop,
        Ty.name_inj hty]
    | _ => cases hkind
  | compare op lhs rhs =>
    cases i' with
    | compare op' lhs' rhs' =>
      simp only [instrWords, List.cons_append, List.nil_append, List.append_assoc, List.cons.injEq,
        true_and] at heq
      obtain ⟨hl, hrest⟩ := h.typed hi.1 hi'.1 heq.2
      simp only [List.cons.injEq, true_and] at hrest
      refine ⟨fun _ => ?_, hrest.2⟩
      rw [Instr.rename, hl, h.operand hi.2 hi'.2 hrest.1, CmpOp.mnemonic_inj heq.1]
    | _ => cases hkind
  | widen value =>
    cases i' with
    | widen value' =>
      simp only [instrWords, List.cons_append, List.nil_append, List.append_assoc, List.cons.injEq,
        true_and] at heq
      obtain ⟨hv, hrest⟩ := h.typed hi hi' heq
      simp only [List.cons.injEq, true_and] at hrest
      exact ⟨fun _ => by rw [Instr.rename, hv], hrest⟩
    | _ => cases hkind
  | call callee args =>
    cases i' with
    | call callee' args' =>
      simp only [instrWords, List.cons_append, List.append_assoc, List.cons.injEq, true_and] at heq
      obtain ⟨hc, hrest⟩ := h.callee hi.1 hi'.1 heq
      obtain ⟨ha, hr⟩ := h.arguments hi.2 hi'.2 hrest
      exact ⟨fun _ => by rw [Instr.rename, hc, ha], hr⟩
    | _ => cases hkind
  | phi ty xs =>
    cases i' with
    | phi ty' xs' =>
      simp only [instrWords, List.cons_append, List.cons.injEq, true_and] at heq
      obtain ⟨hx, hr⟩ := h.incoming hi hi' heq.2
      exact ⟨fun _ => by rw [Instr.rename, hx, Ty.name_inj heq.1], hr⟩
    | _ => cases hkind

theorem terminator (h : Agree ρ n n') {t t' : Terminator} (ht : n.Leads t) (ht' : n'.Leads t')
    (heq : n.endWords (some t) ++ r = n'.endWords (some t') ++ r') : t' = t.rename ρ ∧ r = r' := by
  have hlabel (n : Naming) (v : Operand) : (n.function.typeOf v).name ≠ "label" := by
    cases n.function.typeOf v <;> decide
  cases t with
  | jump dest =>
    cases t' with
    | jump dest' =>
      simp only [endWords, List.cons_append, List.nil_append, List.cons.injEq, true_and] at heq
      rw [Terminator.rename, h.block ht ht' heq.1]
      exact ⟨rfl, heq.2⟩
    | branch | ret => simp [endWords, typedWords, (hlabel _ _).symm] at heq
  | branch cond onTrue onFalse =>
    cases t' with
    | branch cond' onTrue' onFalse' =>
      simp only [endWords, List.cons_append, List.append_assoc, List.nil_append, List.cons.injEq,
        true_and] at heq
      obtain ⟨hc, hrest⟩ := h.typed ht.1 ht'.1 heq
      simp only [List.cons.injEq, true_and] at hrest
      rw [Terminator.rename, hc, h.block ht.2.1 ht'.2.1 hrest.1, h.block ht.2.2 ht'.2.2 hrest.2.1]
      exact ⟨rfl, hrest.2.2⟩
    | jump | ret => simp [endWords, typedWords, hlabel] at heq
  | ret value =>
    cases t' with
    | ret value' =>
      simp only [endWords, List.cons_append, List.cons.injEq, true_and] at heq
      obtain ⟨hv, hr⟩ := h.typed ht ht' heq
      exact ⟨by rw [Terminator.rename, hv], hr⟩
    | jump | branch => simp [endWords] at heq

end Agree

/-- An instruction of one function is that of another after renaming, and so is its result. -/
def Copied (ρ : Renaming) (n n' : Naming) (id id' : InstrId) : Prop :=
  ∃ i, n.function.instrs[id]? = some i ∧ n'.function.instrs[id']? = some (i.rename ρ) ∧
    (n.Knows (.instr id) → id' = ρ.result id)

structure Mirrored (ρ : Renaming) (n n' : Naming) (b b' : Block) : Prop where
  name : b'.name = b.name
  instrs : List.Forall₂ (Copied ρ n n') b.instrs.toList b'.instrs.toList
  terminator : b'.terminator = b.terminator.map (·.rename ρ)

theorem lineWords_of_isSome (hi : n.function.instrs[id]? = some i) (hres : i.resultTy?.isSome = true) :
    n.lineWords id = n.operand (.instr id) :: "=" :: (n.instrWords i ++ ["\n"]) := by
  simp only [lineWords, hi, if_pos hres, List.cons_append, List.nil_append]

theorem lineWords_of_not_isSome (hi : n.function.instrs[id]? = some i)
    (hres : ¬ i.resultTy?.isSome = true) : n.lineWords id = n.instrWords i ++ ["\n"] := by
  simp only [lineWords, hi, if_neg hres, List.nil_append]

theorem kindOf_opcode (i : Instr) : kindOf (opcode i) = some 3 := by
  cases i with
  | arith op => cases op <;> simp [opcode, ArithOp.mnemonic, kindOf, isDigit]
  | _ => simp [opcode, kindOf, isDigit]

/-- A line that shows a result is no line that shows none. -/
theorem instrWords_append_ne (hid : n'.Knows (.instr id)) (i : Instr) :
    n.instrWords i ++ r ≠ n'.operand (.instr id) :: r' := by
  intro heq
  have hhead := congrArg List.head? heq
  rw [List.head?_append, head?_instrWords] at hhead
  have hkind := kindOf_opcode i
  rw [Option.some.inj hhead, kindOf_operand hid] at hkind
  cases hkind

def EndsBlock (ws : List String) : Prop :=
  ∃ w ∈ ws.head?, w = "br" ∨ w = "ret"

theorem endsBlock_endWords (n : Naming) (t : Terminator) (ws : List String) :
    EndsBlock (n.endWords (some t) ++ ws) := by
  cases t <;> simp [EndsBlock, endWords]

theorem Legible.not_endsBlock (h : n.Legible)
    (hi : n.function.instrs[id]? = some i) (ws : List String) : ¬ EndsBlock (n.lineWords id ++ ws) := by
  rintro ⟨w, hw, hend⟩
  by_cases hres : i.resultTy?.isSome = true
  · have hkind := kindOf_operand ((h.named id).2 ⟨i, hi, hres⟩)
    rw [lineWords_of_isSome hi hres] at hw
    rw [Option.some.inj hw] at hkind
    rcases hend with rfl | rfl <;> simp [kindOf, kind, isDigit] at hkind
  · rw [lineWords_of_not_isSome hi hres, List.append_assoc, List.head?_append, head?_instrWords] at hw
    have hkind := opcodeKind_opcode i
    rw [Option.some.inj hw] at hkind
    cases i with
    | store => rcases hend with rfl | rfl <;> cases hkind
    | _ => exact hres rfl

namespace Agree

theorem line (h : Agree ρ n n') {id' : InstrId} {i' : Instr} (hid : n.function.instrs[id]? = some i)
    (hid' : n'.function.instrs[id']? = some i') (heq : n.lineWords id ++ r = n'.lineWords id' ++ r') :
    Copied ρ n n' id id' ∧ r = r' := by
  have hi := h.legible.instrs i (Array.mem_of_getElem? hid)
  have hi' := h.legible'.instrs i' (Array.mem_of_getElem? hid')
  by_cases hres : i.resultTy?.isSome = true <;> by_cases hres' : i'.resultTy?.isSome = true
  · have hknows := (h.legible.named id).2 ⟨i, hid, hres⟩
    have hknows' := (h.legible'.named id').2 ⟨i', hid', hres'⟩
    rw [lineWords_of_isSome hid hres, lineWords_of_isSome hid' hres'] at heq
    simp only [List.cons_append, List.append_assoc, List.nil_append, List.cons.injEq, true_and] at heq
    obtain ⟨hname, hrest⟩ := heq
    obtain ⟨hinstr, hr⟩ := h.instr hi hi' hrest
    have hresult := Operand.instr.inj (h.operand hknows hknows' hname)
    refine ⟨⟨i, hid, ?_, fun _ => hresult⟩, hr⟩
    rw [hid', hinstr]
    rintro a b rfl rfl
    rw [operand_instr (h.legible.slots id a hid), operand_instr (h.legible'.slots id' b hid')] at hname
    exact (String.append_right_inj "%").1 hname
  · rw [lineWords_of_isSome hid hres, lineWords_of_not_isSome hid' hres', List.cons_append,
      List.append_assoc] at heq
    exact absurd heq.symm (instrWords_append_ne ((h.legible.named id).2 ⟨i, hid, hres⟩) i')
  · rw [lineWords_of_not_isSome hid hres, lineWords_of_isSome hid' hres', List.cons_append,
      List.append_assoc] at heq
    exact absurd heq (instrWords_append_ne ((h.legible'.named id').2 ⟨i', hid', hres'⟩) i)
  · rw [lineWords_of_not_isSome hid hres, lineWords_of_not_isSome hid' hres', List.append_assoc,
      List.append_assoc] at heq
    obtain ⟨hinstr, hr⟩ := h.instr hi hi' heq
    refine ⟨⟨i, hid, ?_, fun hknows => ?_⟩, hr⟩
    · rw [hid', hinstr]
      rintro a b rfl
      exact absurd rfl hres
    · obtain ⟨j, hj, hjres⟩ := (h.legible.named id).1 hknows
      exact absurd (Option.some.inj (hid.symm.trans hj) ▸ hjres) hres

theorem blockText (h : Agree ρ n n') {b b' : Block} (hb : b ∈ n.function.blocks)
    (hb' : b' ∈ n'.function.blocks) (heq : n.blockWords b ++ r = n'.blockWords b' ++ r') :
    Mirrored ρ n n' b b' ∧ r = r' := by
  obtain ⟨t, ht, hleads⟩ := h.legible.ends b hb
  obtain ⟨t', ht', hleads'⟩ := h.legible'.ends b' hb'
  simp only [blockWords, ht, ht', List.cons_append, List.append_assoc, List.cons.injEq, true_and] at heq
  obtain ⟨hname, hlines⟩ := heq
  have hplaced (id : InstrId) (hid : id ∈ b.instrs.toList) :=
    h.legible.placed b hb id (Array.mem_toList_iff.1 hid)
  have hplaced' (id : InstrId) (hid : id ∈ b'.instrs.toList) :=
    h.legible'.placed b' hb' id (Array.mem_toList_iff.1 hid)
  have hline (id : InstrId) (hid : id ∈ b.instrs.toList) (id' : InstrId) (hid' : id' ∈ b'.instrs.toList)
      (s s' : List String) (hs : n.lineWords id ++ s = n'.lineWords id' ++ s') :
      Copied ρ n n' id id' ∧ s = s' := by
    obtain ⟨i, hi⟩ := hplaced id hid
    obtain ⟨i', hi'⟩ := hplaced' id' hid'
    exact h.line hi hi' hs
  obtain ⟨hall, hrest⟩ := forall₂_of_flatMap EndsBlock hline
    (fun id hid ws => (hplaced id hid).elim fun i hi => h.legible.not_endsBlock hi ws)
    (fun id hid ws => (hplaced' id hid).elim fun i hi => h.legible'.not_endsBlock hi ws)
    (endsBlock_endWords n t _) (endsBlock_endWords n' t' _) hlines
  obtain ⟨hend, hr⟩ := h.terminator hleads hleads' hrest
  refine ⟨⟨hname.symm, hall, ?_⟩, (List.cons.inj hr).2⟩
  rw [ht, ht', hend, Option.map_some]

end Agree
end Naming
end IntLang.Flow
