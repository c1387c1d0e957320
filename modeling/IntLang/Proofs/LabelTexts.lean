import IntLang.Proofs.VerifierSoundness

/-! Labels as an assembler reads them. If the functions and cells of a module have words for names, the
only rows of its text that define a name are those of its functions, blocks, edges and cells, and no two of
them define the same. Whatever is referred to within the module is defined, and control runs into a block
only from the entry code or by a jump. -/
namespace IntLang.Flow

/-- The name of the function that an instruction calls, and whether it is only declared. -/
def Module.callee? (m : Module) : Instr → Option (String × Bool)
  | .call callee _ => (m.function? callee).map fun g => (g.name, g.isDeclaration)
  | _ => none

end IntLang.Flow

namespace IntLang.Assembly
open IntLang.Flow

/-- The rows after the label of a block: its code with the calls of its instructions, a jump or a return, and
then another block or the end of the function. -/
def BlockRows (m : Module) (t : Target) (id : FuncId) (f : Function) (b : BlockId) (rows : List String) :
    Prop :=
  ∃ body close next rest, rows = body ++ close :: next :: rest ∧
    (∀ s ∈ body, (∃ i, readRow? t s = some (.ins i)) ∨ ∃ k, readRow? t s = some (.label (.edge id k))) ∧
    (close = "    ret" ∨ ∃ x, close = "    jmp " ++ x) ∧
    (next = "" ∨ ∃ d, readRow? t next = some (.label (.block id d))) ∧
    body.filterMap (fun s => (readRow? t s).bind Line.call?) =
      ((Context.ofFunction m id f).instrsOf b).filterMap fun x =>
        (m.callee? x.2).map fun c => (c.1, c.2 && t = .linux)

/-- The rows of a text that an assembler can resolve. Calls bear a mark of what is defined elsewhere on one
of the targets only. -/
structure Consistent (m : Module) (t : Target) (rows : List String) : Prop where
  once : ∀ (i j : Nat) x, rows[i]? = some (x ++ ":") → rows[j]? = some (x ++ ":") → i = j
  jumps : ∀ x, "    jmp " ++ x ∈ rows ∨ "    je " ++ x ∈ rows → x ++ ":" ∈ rows
  cells : ∀ s ∈ rows, ∀ x, x ++ "(%rip)" ∈ rowWords s ∨ x ++ "(%rip)," ∈ rowWords s → x ++ ":" ∈ rows
  calls : ∀ x, "    call " ++ x ∈ rows → ∃ id g, m.function? id = some g ∧
    readCall? t x = some (.call g.name (g.isDeclaration && t = .linux)) ∧
    (g.isDeclaration = false → x ++ ":" ∈ rows)
  functions : ∀ id f, m.function? id = some f → f.isDeclaration = false →
    ∃ before start entry first rest, rows = before ++ start :: (entry ++ first :: rest) ∧
      readRow? t start = some (.symbol f.name) ∧
      entry.mapM (readRow? t) = some ((Context.ofFunction m id f).prologue.map .ins) ∧
      readRow? t first = some (.label (.block id 0))
  blocks : ∀ id f b (pc : Nat) s, m.function? id = some f → rows[pc]? = some s →
    readRow? t s = some (.label (.block id b)) →
    BlockRows m t id f b (rows.drop (pc + 1))

namespace Context
variable {m : Module} {id : FuncId} {f : Function} {c : Context}

theorem Written.calls {k : InstrId} {i : Instr} {is : List Ins} (h : (ofFunction m id f).Written k i is) :
    (is.map Line.ins).filterMap Line.call? = (m.callee? i).toList := by
  cases h with
  | arith op => cases op <;> rfl
  | @call callee args target ps r function places result =>
    have hpass : ((passing target ps).map Line.ins).filterMap Line.call? = [] := by
      rw [List.filterMap_eq_nil_iff]
      rintro l hl
      obtain ⟨j, hj, rfl⟩ := List.mem_map.1 hl
      rcases mem_passing hj with ⟨p, -, r, rfl⟩ | ⟨n, rfl⟩ | rfl | rfl <;> rfl
    have hclean : ((cleanup ps.length).map Line.ins).filterMap Line.call? = [] := by
      rw [List.filterMap_eq_nil_iff]
      rintro l hl
      obtain ⟨j, hj, rfl⟩ := List.mem_map.1 hl
      obtain ⟨n, rfl⟩ := mem_cleanup hj
      rfl
    have hcallee : m.callee? (.call callee args) = some (target.name, target.isDeclaration) := by
      have hfun : m.function? callee = some target := function
      rw [Module.callee?, hfun]
      rfl
    rw [hcallee, List.map_append, List.filterMap_append, hpass, List.map_cons, List.map_append,
      List.filterMap_cons, List.filterMap_append, hclean]
    rfl
  | _ => rfl

/-- A block makes the calls of its instructions, in their order. -/
theorem calls_body {xs : List (InstrId × Instr)} {iss : List (List Ins)}
    (h : List.Forall₂ (fun x is => (ofFunction m id f).Written x.1 x.2 is) xs iss) :
    (iss.flatten.map Line.ins).filterMap Line.call? = xs.filterMap fun x => m.callee? x.2 := by
  induction h with
  | nil => rfl
  | @cons x is xs iss hx _ ih =>
    rw [List.flatten_cons, List.map_append, List.filterMap_append, ih, hx.calls, List.filterMap_cons]
    cases m.callee? x.2 <;> rfl

/-- A terminator makes no call, and ends in a jump or a return. -/
theorem Closes.ends {b : BlockId} {t : Terminator} {n n' : Nat} {last : List Line}
    (h : c.Closes b n t (last.map .ok) n') : ∃ body close, last = body ++ [Line.ins close] ∧
      (close = .ret ∨ ∃ l, close = .jump l) ∧
      ∀ l ∈ body, l.call? = none ∧ ((∃ i, l = .ins i) ∨ ∃ k, l = .label (.edge c.id k)) := by
  have hcopies {d : BlockId} {is : List Ins} (his : c.Carries b d is) (l : Line)
      (hl : l ∈ is.map Line.ins) :
      l.call? = none ∧ ((∃ i, l = .ins i) ∨ ∃ k, l = .label (.edge c.id k)) := by
    obtain ⟨j, hj, rfl⟩ := List.mem_map.1 hl
    rcases his.mem hj with ⟨v, p, -, rfl⟩ | ⟨k, r, -, rfl⟩ <;> exact ⟨rfl, .inl ⟨_, rfl⟩⟩
  have htest {p : Place} {l' : Label} (l : Line)
      (hl : l ∈ [Ins.load p .eax, .test, .jumpIfZero l'].map Line.ins) :
      l.call? = none ∧ ((∃ i, l = .ins i) ∨ ∃ k, l = .label (.edge c.id k)) := by
    simp only [List.map_cons, List.map_nil, List.mem_cons, List.not_mem_nil, or_false] at hl
    rcases hl with rfl | rfl | rfl <;> exact ⟨rfl, .inl ⟨_, rfl⟩⟩
  generalize hls : last.map Except.ok = ls at h
  cases h with
  | @jump dest is copies =>
    rw [code_eq_map, List.map_append] at hls
    exact ⟨is.map .ins, .jump _, map_ok_inj hls, .inr ⟨_, rfl⟩, hcopies copies⟩
  | @ret v p place =>
    rw [code_eq_map] at hls
    refine ⟨[.ins (.load p .eax), .ins .leave], .ret, map_ok_inj hls, .inl rfl, fun l hl => ?_⟩
    simp only [List.mem_cons, List.not_mem_nil, or_false] at hl
    rcases hl with rfl | rfl <;> exact ⟨rfl, .inl ⟨_, rfl⟩⟩
  | @fork v p onTrue onFalse is js place copies copies' =>
    refine ⟨[Ins.load p .eax, .test, .jumpIfZero (.edge c.id n)].map Line.ins ++ (is.map Line.ins ++
      (Line.ins (.jump (c.blockLabel onTrue)) :: .label (.edge c.id n) :: js.map Line.ins)),
      .jump (c.blockLabel onFalse), map_ok_inj ?_, .inr ⟨_, rfl⟩, fun l hl => ?_⟩
    · rw [hls]
      simp [code_eq_map]
    · rcases List.mem_append.1 hl with hl | hl
      · exact htest l hl
      rcases List.mem_append.1 hl with hl | hl
      · exact hcopies copies l hl
      rcases List.mem_cons.1 hl with rfl | hl
      · exact ⟨rfl, .inl ⟨_, rfl⟩⟩
      rcases List.mem_cons.1 hl with rfl | hl
      · exact ⟨rfl, .inr ⟨n, rfl⟩⟩
      · exact hcopies copies' l hl
  | @direct v p onTrue onFalse is place copies none =>
    refine ⟨[Ins.load p .eax, .test, .jumpIfZero (c.blockLabel onFalse)].map Line.ins ++ is.map Line.ins,
      .jump (c.blockLabel onTrue), map_ok_inj ?_, .inr ⟨_, rfl⟩, fun l hl => ?_⟩
    · rw [hls]
      simp [code_eq_map]
    · exact (List.mem_append.1 hl).elim (htest l) (hcopies copies l)

end Context

section Listings
variable {m : Module} {lines : List Line} {id : FuncId} {f : Function}

theorem Listed.cell_mem (h : Listed m lines) {g : Global} (hg : g ∈ m.globals.toList) :
    .label (.global g.name) ∈ lines := by
  obtain ⟨body, -, heq⟩ := h.lines_eq
  obtain ⟨head, hdata, -⟩ := dataLines_eq m
  have hin : .label (.global g.name) ∈ dataLines m := by
    rw [hdata]
    exact List.mem_append_right _ (List.mem_flatMap.2 ⟨g, hg, List.mem_cons_self⟩)
  have hmem : .ok (.label (.global g.name)) ∈ lines.map (Except.ok : Line → Except EmitError Line) := by
    rw [heq]
    exact List.mem_append_right _ (List.mem_append_right _ (List.mem_append_right _
      (List.mem_map_of_mem hin)))
  obtain ⟨l, hl, he⟩ := List.mem_map.1 hmem
  exact Except.ok.inj he ▸ hl

/-- A function stands under its symbol, and its entry code before its entry block. -/
theorem Listed.definition_lines (h : Listed m lines) (hf : m.function? id = some f)
    (hd : f.isDeclaration = false) : ∃ before rest, lines = before ++ Line.symbol f.name ::
      ((Context.ofFunction m id f).prologue.map Line.ins ++ Line.label (.block id 0) :: rest) := by
  obtain ⟨pc, -, hlies⟩ := h.lies_entry hf hd
  obtain ⟨shown, rest, hshown, hdrop⟩ := hlies.drop_eq
  refine ⟨lines.take pc, rest, ?_⟩
  have heq : shown = Line.symbol f.name :: ((Context.ofFunction m id f).prologue.map Line.ins ++
      [Line.label (.block id 0)]) := by
    refine map_ok_inj (hshown.symm.trans ?_)
    simp [code_eq_map]
  refine (List.take_append_drop pc lines).symm.trans ?_
  rw [hdrop, heq]
  simp

theorem Listed.known (h : Listed m lines) {l : Line} {p : Place} (hl : l ∈ lines) (hp : p ∈ l.places) :
    p.Known m := by
  cases l with
  | ins i =>
    obtain ⟨j, hfits⟩ := h.belongs hl
    cases i with
    | load | store =>
      rw [List.mem_singleton.1 hp]
      exact hfits
    | _ => cases hp
  | _ => cases hp

/-- The lines of a block end in a jump or a return, and call what its instructions call. -/
theorem Listed.block_shape (h : Listed m lines) (hf : m.function? id = some f) {b : BlockId} {pc : Nat}
    (hpc : lines[pc]? = some (.label (.block id b))) :
    ∃ body close next rest, lines.drop (pc + 1) = body ++ Line.ins close :: next :: rest ∧
      (∀ l ∈ body, (∃ i, l = .ins i) ∨ ∃ k, l = .label (.edge id k)) ∧
      (close = .ret ∨ ∃ l, close = .jump l) ∧ (next = .blank ∨ ∃ d, next = .label (.block id d)) ∧
      body.filterMap Line.call? =
        ((Context.ofFunction m id f).instrsOf b).filterMap fun x => m.callee? x.2 := by
  obtain ⟨t, iss, last, n, n', next, rest, -, hiss, hlast, hdrop, hnext⟩ := h.block_lines hf hpc
  obtain ⟨body, close, rfl, hclose, hbody⟩ := hlast.ends
  refine ⟨iss.flatten.map Line.ins ++ body, close, next, rest, ?_, fun l hl => ?_, hclose, hnext, ?_⟩
  · rw [hdrop]
    simp
  · rcases List.mem_append.1 hl with hl | hl
    · obtain ⟨i, -, rfl⟩ := List.mem_map.1 hl
      exact .inl ⟨i, rfl⟩
    · exact (hbody l hl).2
  · rw [List.filterMap_append, Context.calls_body hiss,
      List.filterMap_eq_nil_iff.2 fun l hl => (hbody l hl).1, List.append_nil]

end Listings

theorem Line.eq_of_call? {l : Line} {c : String × Bool} (h : l.call? = some c) :
    l = .ins (.call c.1 c.2) := by
  unfold call? at h
  split at h
  · rw [← Option.some.inj h]
  · cases h

section Rows
variable {t : Target} {s x w : String} {l : Line} {i : Ins} {ws : List String}

theorem rowWords_eq_singleton (h : rowWords x = [w]) : w = x := by
  obtain ⟨cs, hsplit, rfl⟩ := List.map_eq_singleton_iff.1 h
  have hjoin := @List.intercalate_splitOn _ x.toList _ _ ' '
  rw [hsplit] at hjoin
  rw [← String.toList_inj, String.toList_ofList, ← hjoin]
  simp [List.intercalate]

theorem readRow?_indented (hw : ' ' ∉ w.toList) (x : String) :
    readRow? t ("    " ++ (w ++ (" " ++ x))) =
      ((readIns? t (w :: rowWords x)).map .ins).or (readData? (w :: rowWords x)) := by
  have hblanks : "    " ++ (w ++ (" " ++ x)) =
      "" ++ (" " ++ ("" ++ (" " ++ ("" ++ (" " ++ ("" ++ (" " ++ (w ++ (" " ++ x)))))))))  :=
    String.toList_inj.1 (by simp)
  rw [hblanks, readRow?, rowWords_append (by decide), rowWords_append (by decide),
    rowWords_append (by decide), rowWords_append (by decide), rowWords_append hw]
  rfl

theorem readIns?_unary (hplain : readPlain? w = none) (hbinary : ∀ a b, readBinary? t w a b = none)
    (h : readIns? t (w :: rowWords x) = some i) : readUnary? t w x = some i := by
  rcases hws : rowWords x with _ | ⟨a, _ | ⟨b, _ | ⟨c, ws⟩⟩⟩ <;> rw [hws] at h
  · cases hplain.symm.trans h
  · rw [← rowWords_eq_singleton hws]
    exact h
  · cases (hbinary a b).symm.trans h
  · cases h

theorem readData?_of_ne (h : w ≠ ".long") (ws : List String) : readData? (w :: ws) = none := by
  unfold readData?
  split
  · next heq => exact absurd (List.cons.inj heq).1 h
  · rfl

/-- What is read from a row with one operand. -/
theorem readUnary?_of_readRow? (hs : s = "    " ++ (w ++ " ")) (hw : ' ' ∉ w.toList) (hlong : w ≠ ".long")
    (hplain : readPlain? w = none) (hbinary : ∀ a b, readBinary? t w a b = none)
    (h : readRow? t (s ++ x) = some l) : ∃ i, l = .ins i ∧ readUnary? t w x = some i := by
  rw [hs, String.append_assoc, String.append_assoc, readRow?_indented hw, readData?_of_ne hlong,
    Option.or_none] at h
  obtain ⟨i, hi, rfl⟩ := Option.map_eq_some_iff.1 h
  exact ⟨i, rfl, readIns?_unary hplain hbinary hi⟩

theorem jump_of_readRow? (h : readRow? t ("    jmp " ++ x) = some l) :
    ∃ d : Label, x = d.render t ∧ l = .ins (.jump d) := by
  obtain ⟨i, rfl, hi⟩ := readUnary?_of_readRow? (w := "jmp") (by decide) (by decide) (by decide) rfl
    (fun _ _ => rfl) h
  obtain ⟨d, hd, rfl⟩ := Option.map_eq_some_iff.1 hi
  exact ⟨d, readLabel?_eq_some.1 hd, rfl⟩

theorem jumpIfZero_of_readRow? (h : readRow? t ("    je " ++ x) = some l) :
    ∃ d : Label, x = d.render t ∧ l = .ins (.jumpIfZero d) := by
  obtain ⟨i, rfl, hi⟩ := readUnary?_of_readRow? (w := "je") (by decide) (by decide) (by decide) rfl
    (fun _ _ => rfl) h
  obtain ⟨d, hd, rfl⟩ := Option.map_eq_some_iff.1 hi
  exact ⟨d, readLabel?_eq_some.1 hd, rfl⟩

theorem call_of_readRow? (h : readRow? t ("    call " ++ x) = some l) :
    ∃ f foreign, readCall? t x = some (.call f foreign) ∧ l = .ins (.call f foreign) ∧
      (foreign = false → x = t.symbolMark ++ f) := by
  obtain ⟨i, rfl, hi⟩ := readUnary?_of_readRow? (w := "call") (by decide) (by decide) (by decide) rfl
    (fun _ _ => rfl) h
  replace hi : readCall? t x = some i := hi
  cases t with
  | darwin =>
    obtain ⟨f, hf, rfl⟩ := Option.map_eq_some_iff.1 hi
    exact ⟨f, false, hi, rfl, fun _ => after?_eq_some.1 hf⟩
  | linux =>
    cases hx : before? "@PLT" x with
    | some f =>
      simp only [readCall?, hx] at hi
      obtain rfl := Option.some.inj hi
      exact ⟨f, true, by rw [readCall?, hx], rfl, by simp⟩
    | none =>
      simp only [readCall?, hx] at hi
      obtain rfl := Option.some.inj hi
      exact ⟨x, false, by rw [readCall?, hx], rfl, by simp [Target.symbolMark]⟩

theorem Line.eq_of_heard {l l' : Line} (h : l.heard t = l') (hl : ∀ f foreign, l' ≠ .ins (.call f foreign)) :
    l = l' := by
  cases l with
  | ins i =>
    cases i with
    | call f foreign => exact absurd h.symm (hl f _)
    | _ => exact h
  | _ => exact h

theorem Line.call?_heard (l : Line) :
    (l.heard t).call? = l.call?.map fun c => (c.1, c.2 && t = .linux) := by
  cases l with
  | ins i => cases i <;> rfl
  | _ => rfl

theorem Place.eq_global {p : Place} (h : x ++ "(%rip)" = p.render t) :
    ∃ y, p = .global y ∧ x = (Label.global y).render t := by
  cases p with
  | imm n =>
    have hfree : Free ['('] (Place.render t (.imm n)) :=
      free_append.2 ⟨by decide, (free_int n.toInt).mono (by decide)⟩
    exact absurd (show '(' ∈ ['('] by decide) (hfree '(' (by rw [← h]; simp))
  | frame offset =>
    have hend := congrArg String.toList h
    rw [Place.render, String.toList_append, String.toList_append] at hend
    exact absurd (List.append_inj' hend rfl).2 (by decide)
  | global y => exact ⟨y, rfl, (String.append_left_inj _).1 h⟩

/-- The rows before the lines define nothing, refer to nothing and are not indented. -/
theorem header_plain (hs : s ∈ t.header) : ':' ∉ s.toList ∧ s.toList.head? ≠ some ' ' ∧
    (∀ w ∈ rowWords s, '(' ∉ w.toList) ∧ (readRow? t s = none ∨ readRow? t s = some .blank) := by
  have hall : ∀ s ∈ t.header, ':' ∉ s.toList ∧ s.toList.head? ≠ some ' ' ∧
      (∀ w ∈ rowWords s, '(' ∉ w.toList) ∧ (readRow? t s = none ∨ readRow? t s = some .blank) := by
    cases t <;> decide +kernel
  exact hall s hs

end Rows

section Texts
variable {m : Module} {rest : List Line} {t : Target} (h : Listed m (.opening :: rest))
  (hopening : .opening ∉ rest) (hw : m.NamedByWords) {s x : String} {l : Line}
include h hopening hw

namespace Listed

theorem worded_rest (hl : l ∈ rest) : ∃ ws, l.Worded t ws :=
  h.worded t hw (List.mem_cons_of_mem _ hl) (fun he => hopening (he ▸ hl))

theorem readRow?_row (hl : l ∈ rest) : readRow? t (l.row t) = some (l.heard t) := by
  obtain ⟨ws, hws⟩ := h.worded_rest (t := t) hopening hw hl
  exact hws.readRow?

/-- An indented row is read, and is that of an instruction. -/
theorem readRow?_isSome (hs : s ∈ t.header ++ rest.map (Line.row t)) (hhead : s.toList.head? = some ' ') :
    ∃ l' ∈ rest, l'.row t = s ∧ readRow? t s = some (l'.heard t) := by
  rcases List.mem_append.1 hs with hs | hs
  · exact absurd hhead (header_plain hs).2.1
  · obtain ⟨l', hl', rfl⟩ := List.mem_map.1 hs
    exact ⟨l', hl', rfl, h.readRow?_row hopening hw hl'⟩

omit h hopening hw in
theorem row_mem (hl : l ∈ Line.opening :: rest) (hne : l ≠ .opening) :
    l.row t ∈ t.header ++ rest.map (Line.row t) :=
  List.mem_append_right _ (List.mem_map_of_mem ((List.mem_cons.1 hl).resolve_left hne))

omit h hopening hw in
theorem label_row_mem {d : Label} (hd : .label d ∈ Line.opening :: rest) :
    d.render t ++ ":" ∈ t.header ++ rest.map (Line.row t) := by
  have hrow : (Line.label d).row t = d.render t ++ ":" :=
    Line.row_of_render (String.toList_inj.1 (by simp [Line.render]))
  rw [← hrow]
  exact row_mem hd (by simp)

omit h hopening hw in
theorem getElem?_rows {i : Nat} (hi : (t.header ++ rest.map (Line.row t))[i]? = some s) :
    s ∈ t.header ∨ ∃ k l, i = t.header.length + k ∧ rest[k]? = some l ∧ l.row t = s := by
  rw [List.getElem?_append] at hi
  split at hi
  · exact .inl (List.mem_of_getElem? hi)
  · rw [List.getElem?_map, Option.map_eq_some_iff] at hi
    obtain ⟨l, hl, rfl⟩ := hi
    exact .inr ⟨i - t.header.length, l, by omega, hl, rfl⟩

theorem rows_once {i j : Nat} (hi : (t.header ++ rest.map (Line.row t))[i]? = some (x ++ ":"))
    (hj : (t.header ++ rest.map (Line.row t))[j]? = some (x ++ ":")) : i = j := by
  have hmark {i : Nat} (hi : (t.header ++ rest.map (Line.row t))[i]? = some (x ++ ":")) :
      ∃ k l, i = t.header.length + k ∧ (Line.opening :: rest)[k + 1]? = some l ∧ l.isMark ∧
        readRow? t (x ++ ":") = some l := by
    rcases getElem?_rows hi with hs | ⟨k, l, rfl, hl, hrow⟩
    · exact absurd (by simp) (header_plain hs).1
    · obtain ⟨ws, hws⟩ := h.worded_rest (t := t) hopening hw (List.mem_of_getElem? hl)
      have hl' : l.isMark := hws.isMark (by rw [hrow]; simp)
      refine ⟨k, l, rfl, hl, hl', ?_⟩
      rw [← hrow, hws.readRow?]
      cases l <;> first | rfl | cases hl'
  obtain ⟨k, l, rfl, hl, hm, hread⟩ := hmark hi
  obtain ⟨k', l', rfl, hl', -, hread'⟩ := hmark hj
  obtain rfl := Option.some.inj (hread.symm.trans hread')
  have := Option.some.inj ((h.idxOf?_eq hm hl).symm.trans (h.idxOf?_eq hm hl'))
  omega

theorem rows_jumps (hm : m.verify = .ok ()) (hx : "    jmp " ++ x ∈ t.header ++ rest.map (Line.row t) ∨
      "    je " ++ x ∈ t.header ++ rest.map (Line.row t)) :
    x ++ ":" ∈ t.header ++ rest.map (Line.row t) := by
  have hcalls (d : Label) (f : String) (foreign : Bool) :
      Line.ins (.jump d) ≠ .ins (.call f foreign) ∧ Line.ins (.jumpIfZero d) ≠ .ins (.call f foreign) := by
    simp
  rcases hx with hx | hx
  · obtain ⟨l, hl, -, hread⟩ := h.readRow?_isSome hopening hw hx (by simp)
    obtain ⟨d, rfl, hd⟩ := jump_of_readRow? hread
    obtain rfl := Line.eq_of_heard hd fun f foreign => (hcalls d f foreign).1
    exact label_row_mem (h.target_mem hm (List.mem_cons_of_mem _ hl) rfl)
  · obtain ⟨l, hl, -, hread⟩ := h.readRow?_isSome hopening hw hx (by simp)
    obtain ⟨d, rfl, hd⟩ := jumpIfZero_of_readRow? hread
    obtain rfl := Line.eq_of_heard hd fun f foreign => (hcalls d f foreign).2
    exact label_row_mem (h.target_mem hm (List.mem_cons_of_mem _ hl) rfl)

theorem rows_cells (hs : s ∈ t.header ++ rest.map (Line.row t))
    (hx : x ++ "(%rip)" ∈ rowWords s ∨ x ++ "(%rip)," ∈ rowWords s) :
    x ++ ":" ∈ t.header ++ rest.map (Line.row t) := by
  rcases List.mem_append.1 hs with hs | hs
  · have hplain := (header_plain hs).2.2.1
    rcases hx with hx | hx
    · exact absurd (by simp) (hplain _ hx)
    · exact absurd (by simp) (hplain _ hx)
  obtain ⟨l, hl, rfl⟩ := List.mem_map.1 hs
  obtain ⟨ws, hws⟩ := h.worded_rest (t := t) hopening hw hl
  rw [hws.rowWords_eq] at hx
  obtain ⟨p, hp, hxp⟩ : ∃ p ∈ l.places, x ++ "(%rip)" = p.render t := by
    rcases hx with hx | hx
    · obtain ⟨p, hp, he | he⟩ := hws.places _ hx (by simp)
      · exact ⟨p, hp, he⟩
      · have hlast := congrArg (fun s => s.toList.getLast?) he
        simp at hlast
    · obtain ⟨p, hp, he | he⟩ := hws.places _ hx (by simp)
      · have hcomma := (p.free_render t hw (h.known (List.mem_cons_of_mem _ hl) hp)) ',' (by rw [← he]; simp)
        exact absurd List.mem_cons_self hcomma
      · refine ⟨p, hp, (String.append_left_inj ",").1 (Eq.trans ?_ he)⟩
        exact String.toList_inj.1 (by simp)
  obtain ⟨y, rfl, rfl⟩ := Place.eq_global hxp
  obtain ⟨g, hmem, rfl⟩ := h.known (List.mem_cons_of_mem _ hl) hp
  exact label_row_mem (h.cell_mem hmem)

theorem rows_calls (hx : "    call " ++ x ∈ t.header ++ rest.map (Line.row t)) :
    ∃ id g, m.function? id = some g ∧
      readCall? t x = some (.call g.name (g.isDeclaration && t = .linux)) ∧
      (g.isDeclaration = false → x ++ ":" ∈ t.header ++ rest.map (Line.row t)) := by
  obtain ⟨l, hl, -, hread⟩ := h.readRow?_isSome hopening hw hx (by simp)
  obtain ⟨f, foreign, hcall, heard, hsymbol⟩ := call_of_readRow? hread
  have hcall? := Line.call?_heard (t := t) l
  rw [heard] at hcall?
  obtain ⟨c, hc, he⟩ := Option.map_eq_some_iff.1 hcall?.symm
  obtain ⟨rfl, rfl⟩ := Prod.mk.inj he
  rw [Line.eq_of_call? hc] at hl
  obtain ⟨-, id, g, hid, hname, hforeign⟩ := h.belongs (List.mem_cons_of_mem _ hl)
  refine ⟨id, g, hid, by rw [hcall, hname, hforeign], fun hd => ?_⟩
  obtain ⟨pc, -, hpc, -⟩ := h.function hid hd
  have hrow : (Line.symbol g.name).row t = t.symbolMark ++ g.name ++ ":" :=
    Line.row_of_render (String.toList_inj.1 (by simp [Line.render]))
  rw [hsymbol (by rw [hforeign, hd]; rfl), ← hname, ← hrow]
  exact row_mem (List.mem_of_getElem? hpc) (by simp)

/-- A function stands under its name, and its entry code before its entry block. -/
theorem rows_functions {id : FuncId} {f : Function} (hid : m.function? id = some f)
    (hd : f.isDeclaration = false) : ∃ before start entry first after,
      t.header ++ rest.map (Line.row t) = before ++ start :: (entry ++ first :: after) ∧
      readRow? t start = some (.symbol f.name) ∧
      entry.mapM (readRow? t) = some ((Context.ofFunction m id f).prologue.map .ins) ∧
      readRow? t first = some (.label (.block id 0)) := by
  obtain ⟨before, after, heq⟩ := h.definition_lines hid hd
  obtain ⟨before, rfl⟩ : ∃ ls, before = .opening :: ls := by
    cases before with
    | nil => cases (List.cons.inj heq).1
    | cons l ls => exact ⟨ls, by rw [(List.cons.inj heq).1]⟩
  have hrest := (List.cons.inj heq).2
  have hread (l : Line) (hl : l ∈ rest) := h.readRow?_row (t := t) hopening hw hl
  refine ⟨t.header ++ before.map (Line.row t), (Line.symbol f.name).row t,
    ((Context.ofFunction m id f).prologue.map Line.ins).map (Line.row t),
    (Line.label (.block id 0)).row t, after.map (Line.row t), ?_, ?_, ?_, ?_⟩
  · rw [hrest]
    simp
  · exact hread _ (by simp [hrest])
  · apply mapM_of_forall₂
    rw [List.forall₂_map_left_iff, List.forall₂_same]
    intro l hl
    rw [hread l (by rw [hrest]; simp [hl])]
    obtain ⟨j, hj, rfl⟩ := List.mem_map.1 hl
    have hnone := (Context.fits_prologue hj).2.2
    cases j <;> first | rfl | cases hnone
  · exact hread _ (by simp [hrest])

/-- A block ends in a jump or a return, and calls what its instructions call. -/
theorem rows_blocks {id : FuncId} {f : Function} {b : BlockId} {pc : Nat} (hid : m.function? id = some f)
    (hpc : (t.header ++ rest.map (Line.row t))[pc]? = some s)
    (hs : readRow? t s = some (.label (.block id b))) :
    BlockRows m t id f b ((t.header ++ rest.map (Line.row t)).drop (pc + 1)) := by
  have hread (l : Line) (hl : l ∈ rest) := h.readRow?_row (t := t) hopening hw hl
  rcases getElem?_rows hpc with hhead | ⟨k, l, rfl, hl, rfl⟩
  · rcases (header_plain hhead).2.2.2 with hnone | hblank
    · cases hnone.symm.trans hs
    · cases hblank.symm.trans hs
  rw [hread l (List.mem_of_getElem? hl)] at hs
  obtain rfl := Line.eq_of_heard (Option.some.inj hs) (by simp)
  obtain ⟨body, close, next, after, hdrop, hbody, hclose, hnext, hcalls⟩ :=
    h.block_shape hid ((List.getElem?_cons_succ (a := Line.opening)).trans hl)
  rw [List.drop_succ_cons] at hdrop
  have hmem (l : Line) (hl : l ∈ body ++ Line.ins close :: next :: after) : l ∈ rest :=
    List.mem_of_mem_drop (hdrop ▸ hl)
  refine ⟨body.map (Line.row t), (Line.ins close).row t, next.row t, after.map (Line.row t),
    ?_, ?_, ?_, ?_, ?_⟩
  · rw [Nat.add_assoc, List.drop_length_add_append, ← List.map_drop, hdrop]
    simp
  · rintro s hs
    obtain ⟨l, hl, rfl⟩ := List.mem_map.1 hs
    rw [hread l (hmem l (List.mem_append_left _ hl))]
    rcases hbody l hl with ⟨i, rfl⟩ | ⟨j, rfl⟩
    · exact .inl ⟨_, rfl⟩
    · exact .inr ⟨j, rfl⟩
  · rcases hclose with rfl | ⟨d, rfl⟩
    · exact .inl (Line.row_of_render rfl)
    · exact .inr ⟨d.render t, Line.row_of_render (String.toList_inj.1 (by simp [Line.render, Ins.render]))⟩
  · rcases hnext with rfl | ⟨d, rfl⟩
    · exact .inl (Line.row_of_render rfl)
    · exact .inr ⟨d, hread _ (hmem _ (by simp))⟩
  · have hrow (l : Line) (hl : l ∈ body) : (readRow? t (l.row t)).bind Line.call? =
        l.call?.map fun c => (c.1, c.2 && t = .linux) := by
      rw [hread l (hmem l (List.mem_append_left _ hl)), Option.bind_some, Line.call?_heard]
    rw [List.filterMap_map, ← List.map_filterMap, ← hcalls, List.map_filterMap]
    exact List.filterMap_congr hrow

end Listed

end Texts

/-- In the text of a verified module with words for names, labels are consistent: each is defined once,
what is referred to within the module is defined, and no block runs into the next one. -/
theorem assemblyText_consistent {m : Module} {t : Target} {text : String} (hmade : m.Made)
    (hm : m.verify = .ok ()) (hw : m.NamedByWords) (htext : assemblyText m t = .ok text) :
    ∃ rows, textRows? text = some rows ∧ Consistent m t rows := by
  obtain ⟨lines, hlines, rfl⟩ := rendered_of_assemblyText htext
  have h : Listed m lines := ⟨hmade.distinct, hmade.nodup_cells, hlines⟩
  obtain ⟨rest, rfl, hopening, hrows⟩ := h.textRows? t hw
  refine ⟨_, hrows, ?_, ?_, ?_, ?_, ?_, ?_⟩
  · exact fun i j x hi hj => h.rows_once hopening hw hi hj
  · exact fun x hx => h.rows_jumps hopening hw hm hx
  · exact fun s hs x hx => h.rows_cells hopening hw hs hx
  · exact fun x hx => h.rows_calls hopening hw hx
  · exact fun id f hid hd => h.rows_functions hopening hw hid hd
  · exact fun id f b pc s hid hpc hs => h.rows_blocks hopening hw hid hpc hs

/-- The counting function, and one that calls it, keeps the value in a cell and hands it to a routine. -/
def tallyEdits : List Edit :=
  loopEdits ++ [.cell "total" 0, .declare "put" 1 false,
    .add { name := "main", paramCount := 0, linkage := .external },
    .build 2 none 0 (.block "entry"),
    .build 2 (some 0) 0 (.call 0 [.int 3]),
    .build 2 (some 0) 0 (.store (.instr 0) (.global 0)),
    .build 2 (some 0) 0 (.load (.global 0)),
    .build 2 (some 0) 0 (.call 1 [.instr 2]),
    .build 2 (some 0) 0 (.ret (.instr 2))]

def tallyModule : Module :=
  (({ name := "tally" } : Module).edits tallyEdits).2

theorem assemblyText_consistent_tallyModule : tallyModule.verify = .ok () ∧
    ∃ text rows, assemblyText tallyModule .darwin = .ok text ∧ textRows? text = some rows ∧
      Consistent tallyModule .darwin rows ∧
      ∃ s ∈ rows, readRow? .darwin s = some (.symbol "count") := by
  have hm : tallyModule.verify = .ok () := by decide +kernel
  obtain ⟨text, hemit⟩ := assemblyText_of_complete (m := tallyModule) (by decide +kernel) .darwin
  obtain ⟨rows, htext, hrows⟩ := assemblyText_consistent ⟨_, _, rfl⟩ hm
    ⟨by decide +kernel, by decide +kernel⟩ hemit
  refine ⟨hm, text, rows, hemit, htext, hrows, ?_⟩
  have hf : tallyModule.function? 0 = some loopFunction := by decide +kernel
  obtain ⟨before, start, entry, first, rest, heq, hstart, -⟩ := hrows.functions 0 loopFunction hf rfl
  exact ⟨start, by simp [heq], hstart⟩

end IntLang.Assembly
