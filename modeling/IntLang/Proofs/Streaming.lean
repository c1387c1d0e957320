import IntLang.Console.LineReader
import IntLang.Console.Repl
import IntLang.Proofs.LineByLine
import IntLang.Proofs.LockstepRules

/-! Items are executed as they are read. A text that comes in line by line is parsed item by item as it
would be parsed at once: the items that get executed are those of its program, or those before the place
where it stops being one, whatever executing them comes to. -/
namespace IntLang
open IntLang.Text IntLang.Text.Utf8

namespace Parser

/-- The items that a parser finds one after the other on its way to another state. -/
inductive Yields : Parser → List Item → Parser → Prop where
  | nil (p : Parser) : Yields p [] p
  | cons {p p' r : Parser} {i : Item} {items : List Item} (h : item p = .ok (some i) p')
      (rest : Yields p' items r) : Yields p (i :: items) r

/-- What the parser finds instead of an item: the end of the input, or an error. -/
inductive Ends : Parser → Option Diagnostic → Prop where
  | done {r r' : Parser} (h : item r = .ok none r') : Ends r none
  | failed {r r' : Parser} {e : ParseError} (h : item r = .error e r') : Ends r (some e.diagnostic)

theorem Beside.refl (p : Parser) : Beside 0 p p := by
  refine ⟨⟨rfl, rfl⟩, ?_, ?_⟩
  · cases p.current <;> rfl
  · cases p.lookahead <;> rfl

theorem length_rest_of_item {p p' : Parser} {i : Item} (h : item p = .ok (some i) p') :
    p'.rest.length < p.rest.length := by
  have hagree := (Beside.refl p).item
  rw [h] at hagree
  cases hagree with
  | ok _ hpost => exact hpost rfl

/-- Reading all items is finding them one after the other. -/
theorem exists_yields {n : Nat} {p : Parser} (hn : p.rest.length < n) :
    ∃ items r, Yields p items r ∧
      ((∃ r', item r = .ok none r' ∧ itemsUpTo n p = .ok items r') ∨
        ∃ e r', item r = .error e r' ∧ itemsUpTo n p = .error e r') := by
  induction n generalizing p with
  | zero => exact absurd hn (Nat.not_lt_zero _)
  | succ n ih =>
    rw [itemsUpTo]
    cases hitem : item p with
    | error e p' => exact ⟨[], p, .nil p, .inr ⟨e, p', hitem, bind_of_error hitem⟩⟩
    | ok o p' =>
      rw [bind_of_ok hitem]
      cases o with
      | none => exact ⟨[], p, .nil p, .inl ⟨p', hitem, rfl⟩⟩
      | some i =>
        have hless := length_rest_of_item hitem
        obtain ⟨items, r, hyields, hend⟩ := ih (p := p') (by omega)
        refine ⟨i :: items, r, .cons hitem hyields, ?_⟩
        rcases hend with ⟨r', hr, hrest⟩ | ⟨e, r', hr, hrest⟩
        · exact .inl ⟨r', hr, bind_of_ok hrest⟩
        · exact .inr ⟨e, r', hr, bind_of_error hrest⟩

end Parser

/-- The items that parsing a text gets to see: all of them, or those that are complete before it fails. -/
def CompleteItems (cs : List Char) (items : List Item) : Prop :=
  match parseProgram cs with
  | .ok program => items = program
  | .error d => ∃ r, Parser.Yields { source := Source.ofText cs } items r ∧ Parser.Ends r (some d)

def parseFailure? (cs : List Char) : Option Diagnostic :=
  match parseProgram cs with
  | .ok _ => none
  | .error d => some d

theorem exists_completeItems (cs : List Char) : ∃ items r, CompleteItems cs items ∧
    Parser.Yields { source := Source.ofText cs } items r ∧ Parser.Ends r (parseFailure? cs) := by
  have hbound := Parser.length_rest_lt { source := Source.ofText cs }
  obtain ⟨items, r, hyields, hend⟩ := Parser.exists_yields (Nat.lt_of_add_right_lt hbound)
  refine ⟨items, r, ?_⟩
  rcases hend with ⟨r', hr, hall⟩ | ⟨e, r', hr, hall⟩
  · have hparse : parseProgram cs = .ok items := by
      have hprogram : Parser.program { source := Source.ofText cs } = .ok items r' := hall
      rw [parseProgram, hprogram]
    rw [CompleteItems, parseFailure?, hparse]
    exact ⟨rfl, hyields, .done hr⟩
  · have hparse : parseProgram cs = .error e.diagnostic := by
      have hprogram : Parser.program { source := Source.ofText cs } = .error e r' := hall
      rw [parseProgram, hprogram]
    rw [CompleteItems, parseFailure?, hparse]
    exact ⟨⟨r, hyields, .failed hr⟩, hyields, .failed hr⟩

namespace Console

namespace LineReader

inductive Delivers : LineReader → List (List UInt8 × List Char) → Prop where
  | nothing {r r' : LineReader} (h : r.readLine = (.ok ([], []), r')) : Delivers r []
  | line {r r' : LineReader} {l : List UInt8} {cs : List Char} {ls : List (List UInt8 × List Char)}
      (h : r.readLine = (.ok (l, cs), r')) (hl : l ≠ []) (rest : Delivers r' ls) :
      Delivers r ((l, cs) :: ls)

theorem readLine_cons {l : List UInt8} {ls : List (List UInt8)} {cs : List Char}
    (h : Lines (l :: ls)) (hl : decodeLine l = .ok cs) :
    ({ lines := l :: ls } : LineReader).readLine = (.ok (l, cs), { lines := ls }) := by
  have hline : lineFrom l ls = (.ok l, { lines := ls }) := by
    cases h with
    | last => rfl
    | cons body =>
      cases ls with
      | nil => rfl
      | cons m ls => rw [lineFrom, endsLine, List.getLast?_concat, decide_eq_true rfl, if_pos rfl]
  rw [readLine, buffer, List.drop_nil, lineFrom, endsLine, List.getLast?_nil, if_neg (by simp), hl, hline]
  simp [asText, hl, Except.map]

theorem exists_delivers {ls : List (List UInt8)} (h : Lines ls) (htext : ∀ l ∈ ls, IsText l) :
    ∃ ms, Delivers { lines := ls } ms ∧ ms.map (·.1) = ls ∧
      (ms.flatMap (·.2)).flatMap String.utf8EncodeChar = ls.flatten := by
  induction ls with
  | nil => exact ⟨[], .nothing rfl, rfl, rfl⟩
  | cons l ls ih =>
    obtain ⟨⟨s, hs⟩, hls⟩ := List.forall_mem_cons.1 htext
    obtain ⟨ms, hdelivers, hmap, hchars⟩ := ih h.tail hls
    have hdecode : decodeLine l = .ok s.toList := decodeLine_text hs
    refine ⟨(l, s.toList) :: ms, .line (readLine_cons h hdecode) ?_ hdelivers, ?_, ?_⟩
    · cases h with
      | last hne => exact hne
      | cons body => simp
    · rw [List.map_cons, hmap]
    · rw [List.flatMap_cons, List.flatMap_append, hchars, ← encode_eq_flatMap, hs, List.flatten_cons]

/-- A text is handed over line by line, and these are the lines that its source is made of. -/
theorem exists_delivers_encode (source : String) :
    ∃ lines, Delivers (LineReader.ofBytes (encode source)) lines ∧
      lines.flatMap (·.2) = source.toList ∧
      (Source.ofBytes (encode source)).pending = lines.flatMap (Source.lineEvents ·.1) := by
  have hlines := lines_splitLines (encode source)
  have htext : ∀ l ∈ splitLines (encode source), IsText l :=
    hlines.isText ⟨source, (flatten_splitLines _).symm⟩
  obtain ⟨ms, hdelivers, hmap, hchars⟩ := exists_delivers hlines htext
  refine ⟨ms, hdelivers, ?_, ?_⟩
  · rw [flatten_splitLines, ← encode_ofList] at hchars
    rw [← encode_injective hchars, String.toList_ofList]
  · rw [Source.ofBytes, ← hmap, List.flatMap_map]

end LineReader

namespace Repl

def failure? : Except Diagnostic Unit → Option Diagnostic
  | .ok _ => none
  | .error d => some d

/-- Executes items one after the other, whatever each of them comes to: what it prints, and how it fails. -/
def serve (steps : Nat) : List Item → Session → Option (List (String × Option Diagnostic))
  | [], _ => some []
  | i :: items, s => (s.execute steps i).bind fun x =>
    (serve steps items { x.2 with engine := { x.2.engine with output := "" } }).map
      ((x.2.engine.output, failure? x.1) :: ·)

def heading : Stage → String
  | .lexical => "Lex error"
  | .syntactic => "Parse error"
  | .semantic => "Compile error"
  | .backend => "Backend error"
  | .runtime => "Runtime error"
  | .io => "I/O error"

/-- A text tells of a diagnostic: its kind and message, the line and column if it has them, and maybe some
advice. -/
def Tells (d : Diagnostic) (text : String) : Prop :=
  ∃ place advice, text = "\x1b[1m\x1b[31m" ++ heading d.stage ++ "\x1b[39m\x1b[0m: \x1b[31m" ++ d.message ++
      "\x1b[39m\n" ++ place ++ advice ∧
    place = d.position.elim "" (fun p => "  at " ++ toString p.line ++ ":" ++ toString p.col ++ "\n") ∧
    (advice = "" ∨ ∃ h, advice = "\x1b[1m\x1b[33mhelp:\x1b[39m\x1b[0m \x1b[33m" ++ h ++ "\x1b[39m\n")

theorem tells_report (d : Diagnostic) : Tells d (report none d) := by
  have hheading : d.stage.label = heading d.stage := by cases d.stage <;> rfl
  have hbold (x : String) : Style.bold.apply x = "\x1b[1m" ++ x ++ "\x1b[0m" := rfl
  have hred (x : String) : Style.red.apply x = "\x1b[31m" ++ x ++ "\x1b[39m" := rfl
  have hyellow (x : String) : Style.yellow.apply x = "\x1b[33m" ++ x ++ "\x1b[39m" := rfl
  refine ⟨_, hintText d, ?_, rfl, ?_⟩
  · rw [report, hheading, hbold, hred, hred, ← String.toList_inj]
    cases d.position <;> simp [placeText]
  · rw [hintText]
    cases hint? d with
    | none => exact .inl rfl
    | some h =>
      refine .inr ⟨h, String.toList_inj.1 ?_⟩
      simp [hbold, hyellow]

/-- What has been written after the turns of the loop: all that items have printed, and a report of every
failure, the last one of the parser. -/
def written (t : Transcript) (turns : List (String × Option Diagnostic)) (d : Option Diagnostic) :
    Transcript where
  stdout := t.stdout ++ String.join (turns.map (·.1))
  stderr := t.stderr ++ String.join ((turns.filterMap (·.2) ++ d.toList).map (report none))

theorem written_cons (t : Transcript) (printed : String) (failure : Option Diagnostic)
    (turns : List (String × Option Diagnostic)) (d : Option Diagnostic) :
    written ((t.out printed).err ((failure.map (report none)).getD "")) turns d =
      written t ((printed, failure) :: turns) d := by
  cases failure <;>
    simp [written, Transcript.out, Transcript.err, String.join_cons, String.append_assoc]

theorem prompts_false (p q : Parser) : prompts false p q = "" := rfl

theorem loop_item {steps n : Nat} {q q' : Parser} {i : Item} (h : Parser.item q = .ok (some i) q')
    (s : Session) (t : Transcript) :
    loop false steps (n + 1) q s t = (s.execute steps i).bind fun x =>
      loop false steps n q' { x.2 with engine := { x.2.engine with output := "" } }
        ((t.out x.2.engine.output).err (((failure? x.1).map (report none)).getD "")) := by
  rw [loop, turn, h]
  dsimp only
  cases s.execute steps i with
  | none => rfl
  | some x =>
    obtain ⟨r, s'⟩ := x
    cases r <;> simp [prompts_false, failure?]

/-- The loop executes what a parser beside its own yields, and ends as that one does. -/
theorem loop_eq_serve {p q r : Parser} {items : List Item} {d : Option Diagnostic} {n : Nat}
    (h : Parser.Yields p items r) (hend : Parser.Ends r d) (hq : Parser.Beside 0 p q)
    (hn : p.rest.length < n) (steps : Nat) (s : Session) (t : Transcript) :
    loop false steps n q s t =
      (serve steps items s).map fun turns => (if d.isSome then 1 else 0, written t turns d) := by
  induction h generalizing q n s t with
  | nil p =>
    obtain ⟨n, rfl⟩ := Parser.exists_succ hn
    have hagree := hq.item
    cases hend with
    | done hp =>
      rw [hp] at hagree
      generalize hitem : Parser.item q = x at hagree
      cases hagree with
      | ok hbeside =>
        rw [loop, turn, hitem]
        simp [prompts_false, Transcript.out, written, serve]
    | failed hp =>
      rw [hp] at hagree
      generalize hitem : Parser.item q = x at hagree
      cases hagree with
      | error he =>
        rw [ParseError.down_zero] at hitem
        rw [loop, turn, hitem]
        simp [prompts_false, Transcript.out, Transcript.err, written, serve]
  | cons hp rest ih =>
    obtain ⟨n, rfl⟩ := Parser.exists_succ hn
    have hless := Parser.length_rest_of_item hp
    have hagree := hq.item
    rw [hp] at hagree
    generalize hitem : Parser.item q = x at hagree
    cases hagree with
    | ok hbeside =>
      rw [loop_item hitem, serve, Option.map_bind]
      refine congrArg _ (funext fun y => ?_)
      rw [ih hend hbeside (by omega), Function.comp_apply, Option.map_map]
      simp only [written_cons, Function.comp_def]

end Repl
end Console

open Console

/-- Non-interactive input is executed item by item as it comes in line by line: its items are those of the
whole text, up to where it cannot be parsed. What they print and every failure is written out, and the error
that ends the input is told last. -/
theorem run_eq_serve (source : String) :
    (∃ lines, LineReader.Delivers (LineReader.ofBytes (encode source)) lines ∧
      lines.flatMap (·.2) = source.toList ∧
      (Source.ofBytes (encode source)).pending = lines.flatMap (Source.lineEvents ·.1)) ∧
    ∃ items, CompleteItems source.toList items ∧ ∀ steps,
      (Repl.serve steps items Repl.start = none →
        Repl.run (Source.ofBytes (encode source)) false steps = none) ∧
      ∀ turns, Repl.serve steps items Repl.start = some turns →
        ∃ told, List.Forall₂ Repl.Tells (turns.filterMap (·.2) ++ (parseFailure? source.toList).toList) told ∧
          Repl.run (Source.ofBytes (encode source)) false steps =
            some (if (parseFailure? source.toList).isSome then 1 else 0,
              ⟨String.join (turns.map (·.1)), String.join told⟩) := by
  refine ⟨LineReader.exists_delivers_encode source, ?_⟩
  obtain ⟨items, r, hitems, hyields, hend⟩ := exists_completeItems source.toList
  have hbeside : Parser.Beside 0 { source := Source.ofText source.toList }
      { source := Source.ofBytes (encode source) } := ⟨Source.beside_ofBytes source, rfl, rfl⟩
  have hbound := Parser.length_rest_lt { source := Source.ofBytes (encode source) }
  rw [hbeside.rest] at hbound
  have hrun (steps : Nat) := Repl.loop_eq_serve hyields hend hbeside (Nat.lt_of_add_right_lt hbound) steps
    Repl.start {}
  refine ⟨items, hitems, fun steps => ⟨fun hnone => ?_, fun turns hturns => ?_⟩⟩
  · exact (hrun steps).trans (by rw [hnone]; rfl)
  · refine ⟨_, List.forall₂_map_right_iff.2 (List.forall₂_same.2 fun d _ => Repl.tells_report d), ?_⟩
    refine (hrun steps).trans ?_
    simp [hturns, Repl.written]

end IntLang
