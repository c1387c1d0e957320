import IntLang.Machine.Basic
import IntLang.Proofs.Encoding
import IntLang.Proofs.Words

/-! Printed text can be read back. A line of decimals is cut at its spaces and a text at its newlines, and no
decimal holds either, so the values of every print call are found again, those of a call without values too.
All of the text is ASCII, so that a call returns how many bytes it has written. -/
namespace IntLang.Machine
open IntLang.Text

def readDigits? (cs : List Char) : Option Nat :=
  if !cs.isEmpty && cs.all isDigit then some (digitsValue cs) else none

def readDecimal? (cs : List Char) : Option Int32 :=
  if cs.head? = some '-' then (readDigits? cs.tail).bind fun n => fit? (-n)
  else (readDigits? cs).bind fun n => fit? n

/-- The decimals of a line, which stand between spaces. An empty line has none. -/
def readLine? (cs : List Char) : Option (List Int32) :=
  if cs.isEmpty then some [] else (cs.splitOn ' ').mapM readDecimal?

def readLines? (cs : List Char) : Option (List (List Int32)) :=
  (cs.splitOn '\n').dropLast.mapM readLine?

/-- Prints values, those of each call on a line of their own; gives for each call what it returns and what it
writes. -/
def Engine.printEach (e : Engine) : List (List Int32) → List (Except Fault Int32 × String) × Engine
  | [] => ([], e)
  | vs :: vss =>
    let call := e.callNative printSymbol .print (Int32.ofNat vs.length :: vs)
    let (calls, e') := (e.print call.2).printEach vss
    (call :: calls, e')

theorem fit?_toInt (v : Int32) : fit? v.toInt = some v := by
  rw [fit?, if_pos ⟨v.minValue_le_toInt, v.toInt_le⟩, Int32.ofInt_toInt]

theorem readDigits?_toDigits (n : Nat) : readDigits? (Nat.toDigits 10 n) = some n := by
  have hall : (Nat.toDigits 10 n).all isDigit = true :=
    List.all_eq_true.2 fun c hc => isDigit_of_mem_toDigits hc
  have hne : (Nat.toDigits 10 n).isEmpty = false := List.isEmpty_eq_false_iff.2 Nat.toDigits_ne_nil
  rw [readDigits?, hne, hall, if_pos (by rfl), digitsValue_toDigits]

theorem readDecimal?_toString (v : Int32) : readDecimal? (toString v.toInt).toList = some v := by
  have hsign (n : Nat) : (Nat.toDigits 10 n).head? ≠ some '-' := fun h => by
    cases isDigit_of_mem_toDigits (List.mem_of_head? h)
  rw [Int.toString_eq_repr, Int.repr_eq_if]
  split
  · next h =>
    rw [Nat.toList_repr, readDecimal?, if_neg (hsign _), readDigits?_toDigits, Option.bind_some,
      Int.toNat_of_nonneg h, fit?_toInt]
  · next h =>
    have hminus : ("-" ++ (-v.toInt).toNat.repr).toList = '-' :: Nat.toDigits 10 (-v.toInt).toNat := by
      rw [String.toList_append, Nat.toList_repr]
      rfl
    rw [hminus, readDecimal?, List.head?_cons, if_pos rfl, List.tail_cons, readDigits?_toDigits,
      Option.bind_some, Int.toNat_of_nonneg (by omega), Int.neg_neg, fit?_toInt]

theorem mapM_map_eq_some {α β : Type} {f : α → β} {g : β → Option α} {xs : List α}
    (h : ∀ x ∈ xs, g (f x) = some x) : (xs.map f).mapM g = some xs := by
  induction xs with
  | nil => rfl
  | cons x xs ih =>
    rw [List.forall_mem_cons] at h
    rw [List.map_cons, List.mapM_cons, h.1, ih h.2]
    rfl

theorem toList_decimals (vs : List Int32) :
    (decimals vs).toList = [' '].intercalate (vs.map fun v => (toString v.toInt).toList) := by
  rw [decimals, String.toList_intercalate, List.map_map]
  rfl

theorem toList_decimals_cons (v : Int32) (vs : List Int32) :
    (decimals (v :: vs)).toList =
      (toString v.toInt).toList ++ (if vs.isEmpty then [] else ' ' :: (decimals vs).toList) := by
  cases vs with
  | nil => simp [toList_decimals]
  | cons u vs => simp [toList_decimals]

theorem readLine?_decimals (vs : List Int32) : readLine? (decimals vs).toList = some vs := by
  cases vs with
  | nil => rfl
  | cons v vs =>
    have hspace : ∀ w ∈ (v :: vs).map fun v => (toString v.toInt).toList, ' ' ∉ w := by
      intro w hw
      obtain ⟨u, -, rfl⟩ := List.mem_map.1 hw
      exact fun hc => (unbroken_toString u.toInt).2 _ hc (by decide)
    have hne : (decimals (v :: vs)).toList.isEmpty = false := by
      rw [toList_decimals_cons, List.isEmpty_eq_false_iff]
      exact List.append_ne_nil_of_left_ne_nil (unbroken_toString v.toInt).1 _
    rw [readLine?, hne, if_neg Bool.false_ne_true, toList_decimals,
      List.splitOn_intercalate ' ' hspace (by simp)]
    exact mapM_map_eq_some fun u _ => readDecimal?_toString u

def Plain (c : Char) : Prop :=
  c ≠ '\n' ∧ c.utf8Size = 1

theorem plain_of_isDigit {c : Char} (h : isDigit c = true) : Plain c := by
  refine ⟨(solid_of_isDigit h).ne_newline, Char.utf8Size_eq_one_iff.2 ?_⟩
  simp only [isDigit, Bool.and_eq_true, decide_eq_true_eq, Char.le_def] at h
  exact UInt32.le_trans h.2 (by decide)

theorem plain_of_mem_toString {n : Int} {c : Char} (h : c ∈ (toString n).toList) : Plain c := by
  obtain ⟨d, ds, hn, hd, hds⟩ := exists_toString_cons n
  rw [hn, List.mem_cons] at h
  rcases h with rfl | h
  · rcases hd with hd | rfl
    · exact plain_of_isDigit hd
    · exact ⟨by decide, by decide⟩
  · exact plain_of_isDigit (hds c h)

theorem plain_of_mem_decimals {vs : List Int32} {c : Char} (h : c ∈ (decimals vs).toList) : Plain c := by
  induction vs with
  | nil => cases h
  | cons v vs ih =>
    rw [toList_decimals_cons, List.mem_append] at h
    rcases h with h | h
    · exact plain_of_mem_toString h
    · split at h
      · cases h
      · rcases List.mem_cons.1 h with rfl | h
        · exact ⟨by decide, by decide⟩
        · exact ih h

/-- Where every character takes one byte, bytes can be counted by characters. -/
theorem length_encode {s : String} (h : ∀ c ∈ s.toList, c.utf8Size = 1) :
    (Utf8.encode s).length = s.length := by
  rw [Utf8.encode_eq_flatMap, List.length_flatMap, ← String.length_toList]
  simp only [String.length_utf8EncodeChar]
  rw [List.map_congr_left h]
  simp

theorem splitOn_lines {ws : List (List Char)} (h : ∀ w ∈ ws, '\n' ∉ w) :
    (ws.flatMap (· ++ ['\n'])).splitOn '\n' = ws ++ [[]] := by
  induction ws with
  | nil => rfl
  | cons w ws ih =>
    rw [List.forall_mem_cons] at h
    rw [List.flatMap_cons, List.append_assoc, List.singleton_append,
      List.splitOn_append_cons_self_of_not_mem h.1, ih h.2, List.cons_append]

theorem readLines?_decimals (vss : List (List Int32)) :
    readLines? (String.join (vss.map fun vs => decimals vs ++ "\n")).toList = some vss := by
  have hlines : (String.join (vss.map fun vs => decimals vs ++ "\n")).toList =
      (vss.map fun vs => (decimals vs).toList).flatMap (· ++ ['\n']) := by
    rw [String.toList_join, List.flatMap_map, List.flatMap_map]
    simp only [String.toList_append]
    rfl
  have hnewline : ∀ w ∈ vss.map fun vs => (decimals vs).toList, '\n' ∉ w := by
    intro w hw
    obtain ⟨vs, -, rfl⟩ := List.mem_map.1 hw
    exact fun hc => (plain_of_mem_decimals hc).1 rfl
  rw [hlines, readLines?, splitOn_lines hnewline, List.dropLast_concat]
  exact mapM_map_eq_some fun vs _ => readLine?_decimals vs

section Calls
variable {vs : List Int32}

theorem printedLine_eq (h : vs.length < 2 ^ 31) :
    printedLine (Int32.ofNat vs.length :: vs) = decimals vs ++ "\n" := by
  rw [printedLine, shownValues, Int32.toInt_ofNat_of_lt h, Int.toNat_natCast, List.take_length]

theorem length_encode_decimals (vs : List Int32) :
    (Utf8.encode (decimals vs)).length = (decimals vs).length :=
  length_encode fun _ hc => (plain_of_mem_decimals hc).2

theorem length_encode_line (vs : List Int32) :
    (Utf8.encode (decimals vs ++ "\n")).length = (decimals vs ++ "\n").length := by
  refine length_encode fun c hc => ?_
  rw [String.toList_append, List.mem_append] at hc
  rcases hc with hc | hc
  · exact (plain_of_mem_decimals hc).2
  · obtain rfl := List.mem_singleton.1 hc
    decide

/-- Where nothing is refused, a call writes its line and returns the length of it. -/
theorem callNative_print {e : Engine} (hsink : ∀ text line, e.sink.refuses text line = none)
    (h : vs.length < 2 ^ 31) :
    e.callNative printSymbol .print (Int32.ofNat vs.length :: vs) =
      (.ok (Int32.ofNat (decimals vs ++ "\n").length), decimals vs ++ "\n") := by
  have hne : decimals vs ++ "\n" ≠ "" := fun heq => by
    have := congrArg String.toList heq
    simp at this
  simp only [Engine.callNative, Native.run, printedLine_eq h, hne, if_false, hsink]

end Calls

/-- What calls print one after the other is what the text was before and a line for each call. -/
theorem printEach_eq {vss : List (List Int32)} (e : Engine)
    (hsink : ∀ text line, e.sink.refuses text line = none) (hcount : ∀ vs ∈ vss, vs.length < 2 ^ 31) :
    (e.printEach vss).1 =
        vss.map (fun vs => (.ok (Int32.ofNat (decimals vs ++ "\n").length), decimals vs ++ "\n")) ∧
      (e.printEach vss).2.output = e.output ++ String.join (vss.map fun vs => decimals vs ++ "\n") := by
  induction vss generalizing e with
  | nil => simp [Engine.printEach]
  | cons vs vss ih =>
    rw [List.forall_mem_cons] at hcount
    obtain ⟨hcalls, houtput⟩ := ih (e.print (decimals vs ++ "\n")) hsink hcount.2
    simp only [Engine.printEach, callNative_print hsink hcount.1, hcalls, houtput]
    simp [Engine.print, String.append_assoc]

/-- The values of all calls can be read off the text that the calls have written, and each call returns
how many bytes it has written. -/
theorem printEach_readable {vss : List (List Int32)} (e : Engine)
    (hsink : ∀ text line, e.sink.refuses text line = none) (hcount : ∀ vs ∈ vss, vs.length < 2 ^ 31)
    (hline : ∀ vs ∈ vss, (Utf8.encode (decimals vs)).length < 2 ^ 31 - 1) :
    ∃ calls e', e.printEach vss = (calls, e') ∧
      e'.output = e.output ++ String.join (calls.map (·.2)) ∧
      readLines? (String.join (calls.map (·.2))).toList = some vss ∧
      ∀ call ∈ calls, ∃ n : Int32, call.1 = .ok n ∧ n.toInt = (Utf8.encode call.2).length := by
  obtain ⟨hcalls, houtput⟩ := printEach_eq e hsink hcount
  have htexts : (e.printEach vss).1.map (·.2) = vss.map fun vs => decimals vs ++ "\n" := by
    rw [hcalls, List.map_map]
    rfl
  refine ⟨_, _, rfl, ?_, ?_, ?_⟩
  · rw [htexts, houtput]
  · rw [htexts, readLines?_decimals]
  · intro call hcall
    rw [hcalls] at hcall
    obtain ⟨vs, hvs, rfl⟩ := List.mem_map.1 hcall
    refine ⟨_, rfl, ?_⟩
    have hbound := hline vs hvs
    rw [length_encode_decimals] at hbound
    have hlength : (decimals vs ++ "\n").length = (decimals vs).length + 1 := String.length_append ..
    rw [length_encode_line, Int32.toInt_ofNat_of_lt (by omega)]

def extremeValues : List (List Int32) :=
  [[-2147483648, 0], [], [2147483647, -1, 10]]

theorem printEach_readable_extremeValues :
    (∀ vs ∈ extremeValues, vs.length < 2 ^ 31) ∧
    (∀ vs ∈ extremeValues, (Utf8.encode (decimals vs)).length < 2 ^ 31 - 1) ∧
    ∃ calls e', ({} : Engine).printEach extremeValues = (calls, e') ∧
      e'.output = "" ++ String.join (calls.map (·.2)) ∧
      readLines? (String.join (calls.map (·.2))).toList = some extremeValues ∧
      ∀ call ∈ calls, ∃ n : Int32, call.1 = .ok n ∧ n.toInt = (Utf8.encode call.2).length := by
  have hcount : ∀ vs ∈ extremeValues, vs.length < 2 ^ 31 := by decide
  have hline : ∀ vs ∈ extremeValues, (Utf8.encode (decimals vs)).length < 2 ^ 31 - 1 := by decide +kernel
  exact ⟨hcount, hline, printEach_readable {} (fun _ _ => rfl) hcount hline⟩

end IntLang.Machine
