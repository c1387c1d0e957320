import IntLang.Proofs.Spelling

/-! Words in a text: runs of characters between breaks, which are known from a text that starts with
them. Names are words, and so are numbers, but no number is a name. -/
namespace IntLang

def breaks : List Char := ['(', ')', ' ', '\n', ',', ':']

/-- The word has characters, and none that would end it. -/
def Unbroken (w : String) : Prop :=
  w.toList ≠ [] ∧ ∀ c ∈ w.toList, c ∉ breaks

/-- What follows is not a part of the word before it. -/
def Stops (r : List Char) : Prop :=
  ∀ c ∈ r.head?, c ∈ breaks

theorem stops_cons {c : Char} (h : c ∈ breaks) (r : List Char) : Stops (c :: r) := by
  rintro d hd
  exact Option.some.inj hd ▸ h

/-- A run of one kind is known from a list that starts with it and goes on with another kind. -/
theorem append_inj_of_run {α : Type} {p : α → Bool} {v w r r' : List α} (hv : ∀ c ∈ v, p c = true)
    (hw : ∀ c ∈ w, p c = true) (hr : ∀ c ∈ r.head?, p c = false) (hr' : ∀ c ∈ r'.head?, p c = false)
    (h : v ++ r = w ++ r') : v = w ∧ r = r' := by
  have htake {u t : List α} (hu : ∀ c ∈ u, p c = true) (ht : ∀ c ∈ t.head?, p c = false) :
      (u ++ t).takeWhile p = u := by
    have hstop : t.takeWhile p = [] := by
      cases t with
      | nil => rfl
      | cons c t => exact List.takeWhile_cons_of_neg (by simp [ht c rfl])
    rw [List.takeWhile_append_of_pos hu, hstop, List.append_nil]
  have heq : v = w := by rw [← htake hv hr, h, htake hw hr']
  exact ⟨heq, List.append_cancel_left (heq ▸ h)⟩

/-- Digits at the end of a text are known if no digit stands before them. -/
theorem append_digits_inj {a b ds es : List Char} (ha : ∀ c ∈ a.getLast?, isDigit c = false)
    (hb : ∀ c ∈ b.getLast?, isDigit c = false) (hds : ∀ c ∈ ds, isDigit c = true)
    (hes : ∀ c ∈ es, isDigit c = true) (h : a ++ ds = b ++ es) : a = b ∧ ds = es := by
  have hrev : ds.reverse ++ a.reverse = es.reverse ++ b.reverse := by
    rw [← List.reverse_append, h, List.reverse_append]
  obtain ⟨hd, hr⟩ := append_inj_of_run (by simpa using hds) (by simpa using hes) (by simpa using ha)
    (by simpa using hb) hrev
  exact ⟨List.reverse_inj.1 hr, List.reverse_inj.1 hd⟩

/-- An unbroken word is known from a text that starts with it. -/
theorem unbroken_append_inj {v w : String} {r r' : List Char} (hv : Unbroken v) (hw : Unbroken w)
    (hr : Stops r) (hr' : Stops r') (h : v.toList ++ r = w.toList ++ r') : v = w ∧ r = r' := by
  have hstop {t : List Char} (ht : Stops t) : ∀ c ∈ t.head?, (!breaks.contains c) = false :=
    fun c hc => by simp [ht c hc]
  obtain ⟨heq, hrest⟩ := append_inj_of_run (p := fun c => !breaks.contains c)
    (by simpa using hv.2) (by simpa using hw.2) (hstop hr) (hstop hr') h
  exact ⟨String.toList_inj.1 heq, hrest⟩

theorem unbroken_literal {w : String} (h : w.toList.all (fun c => !breaks.contains c) = true)
    (hne : w.toList ≠ []) : Unbroken w :=
  ⟨hne, fun c hc hmem => by simpa [hmem] using List.all_eq_true.1 h c hc⟩

instance : DecidablePred IsWord := fun w =>
  decidable_of_iff (w.head?.any isNameStart && w.tail.all isNameChar) <| by
    cases w with
    | nil => simp [IsWord]
    | cons c cs => simp [IsWord]

theorem notMem_breaks {c : Char} (h : isWordChar c = true) : c ∉ breaks := by
  intro hmem
  have hall : breaks.all (fun c => !isWordChar c) = true := by decide
  simpa [h] using List.all_eq_true.1 hall c hmem

theorem unbroken_of_isWord {w : String} (h : IsWord w.toList) : Unbroken w := by
  obtain ⟨c, cs, hw, hc, hcs⟩ := h
  refine ⟨hw ▸ List.cons_ne_nil c cs,
    hw ▸ List.forall_mem_cons.2 ⟨notMem_breaks ?_, fun d hd => notMem_breaks ?_⟩⟩
  · rw [isWordChar_eq, isWordStart_eq, hc, Bool.true_or]
  · rw [isWordChar_eq_isNameChar, hcs d hd]

/-- The text of a number starts with a digit or a sign, and goes on with digits. -/
theorem exists_toString_cons (n : Int) : ∃ c cs, (toString n).toList = c :: cs ∧
    (isDigit c = true ∨ c = '-') ∧ ∀ d ∈ cs, isDigit d = true := by
  rw [Int.toString_eq_repr, Int.repr_eq_if]
  have hdigits (k : Nat) (d : Char) := isDigit_of_mem_toDigits (n := k) (c := d)
  split
  · cases hcs : Nat.toDigits 10 n.toNat with
    | nil => exact absurd hcs Nat.toDigits_ne_nil
    | cons c cs =>
      have hall := hdigits n.toNat
      rw [hcs, List.forall_mem_cons] at hall
      exact ⟨c, cs, by rw [Nat.toList_repr, hcs], .inl hall.1, hall.2⟩
  · exact ⟨'-', Nat.toDigits 10 (-n).toNat, by simp [Nat.toList_repr], .inr rfl, hdigits _⟩

theorem toString_natCast (j : Nat) : toString j = toString (j : Int) := by
  rw [Int.toString_eq_repr, Int.repr_eq_if, if_pos (Int.natCast_nonneg j), Int.toNat_natCast,
    Nat.toString_eq_repr]

theorem toString_int_inj {a b : Int} (h : toString a = toString b) : a = b := by
  have hsign (k : Nat) : '-' ∉ Nat.toDigits 10 k := fun hmem => by
    cases isDigit_of_mem_toDigits hmem
  have hvalue {k l : Nat} (hkl : Nat.toDigits 10 k = Nat.toDigits 10 l) : k = l := by
    rw [← digitsValue_toDigits k, hkl, digitsValue_toDigits]
  have hlist := congrArg String.toList h
  rw [Int.toString_eq_repr, Int.toString_eq_repr, Int.repr_eq_if, Int.repr_eq_if] at hlist
  split at hlist <;> split at hlist <;>
    simp only [String.toList_append, Nat.toList_repr] at hlist
  · have := hvalue hlist
    omega
  · exact absurd (hlist ▸ List.mem_append_left _ List.mem_cons_self) (hsign a.toNat)
  · exact absurd (hlist ▸ List.mem_append_left _ List.mem_cons_self) (hsign b.toNat)
  · have := hvalue (List.append_cancel_left hlist)
    omega

theorem toString_nat_inj {k l : Nat} (h : toString k = toString l) : k = l := by
  rw [toString_natCast, toString_natCast] at h
  exact Int.ofNat_inj.1 (toString_int_inj h)

theorem unbroken_toString (n : Int) : Unbroken (toString n) := by
  obtain ⟨c, cs, hn, hc, hcs⟩ := exists_toString_cons n
  have hdigit (d : Char) (hd : isDigit d = true) : d ∉ breaks :=
    notMem_breaks (by rw [isWordChar_eq, hd, Bool.or_true])
  refine ⟨hn ▸ List.cons_ne_nil c cs, hn ▸ List.forall_mem_cons.2 ⟨?_, fun d hd => hdigit d (hcs d hd)⟩⟩
  rcases hc with hc | rfl
  · exact hdigit c hc
  · decide

theorem not_isWord_toString (n : Int) : ¬ IsWord (toString n).toList := by
  rintro ⟨c, cs, hn, hc, -⟩
  obtain ⟨c', cs', hn', hc', -⟩ := exists_toString_cons n
  obtain rfl := (List.cons.inj (hn.symm.trans hn')).1
  rw [← isWordStart_eq] at hc
  rcases hc' with hc' | rfl
  · rw [isDigit_eq_false_of_isWordStart hc] at hc'
    cases hc'
  · exact absurd hc (by decide)

end IntLang
