import IntLang.Proofs.Alignment
import Mathlib.Data.List.Induction
import Mathlib.Data.Nat.Digits.Defs

/-! Numbers in a text. A run of digits is taken in digit by digit in 32-bit words, and the result is what
one gets by taking the decimal value of the whole run and asking once whether it fits: a product or a sum
that is too large on the way means that the value is too large in the end. -/
namespace IntLang

def digitsValue (cs : List Char) : Nat :=
  Nat.ofDigits 10 (cs.reverse.map digitValue)

def maxInteger : Nat := 2147483647

/-- The places do not have to be known in advance. -/
theorem digitsValue_eq_foldl (cs : List Char) :
    digitsValue cs = cs.foldl (fun n c => n * 10 + digitValue c) 0 := by
  induction cs using List.reverseRecOn with
  | nil => rfl
  | append_singleton cs c ih =>
    rw [digitsValue, List.reverse_concat, List.map_cons, Nat.ofDigits_cons, ← digitsValue, ih,
      List.foldl_append, List.foldl_cons, List.foldl_nil]
    omega

section Fitting
variable {n : Nat}

theorem fit?_of_le (h : n ≤ maxInteger) : fit? n = some (Int32.ofNat n) := by
  have hmax : Int32.maxValue.toInt = 2147483647 := by decide
  have hmin : Int32.minValue.toInt = -2147483648 := by decide
  unfold maxInteger at h
  rw [fit?, if_pos (by omega), Int32.ofInt_eq_ofNat]

theorem fit?_of_lt (h : maxInteger < n) : fit? n = none := by
  have hmax : Int32.maxValue.toInt = 2147483647 := by decide
  unfold maxInteger at h
  rw [fit?, if_neg (by omega)]

theorem toInt_ofNat_of_le (h : n ≤ maxInteger) : (Int32.ofNat n).toInt = n := by
  unfold maxInteger at h
  exact Int32.toInt_ofNat_of_lt (by omega)

theorem appendDigit_ofNat (h : n ≤ maxInteger) (c : Char) :
    appendDigit (Int32.ofNat n) c =
      (fit? (n * 10 : Nat)).bind fun tens => fit? (tens.toInt + digitValue c) := by
  rw [appendDigit, toInt_ofNat_of_le h]
  push_cast
  rfl

/-- One more digit fits exactly if the number with that digit does. -/
theorem fit?_bind_appendDigit (n : Nat) (c : Char) :
    (fit? n).bind (appendDigit · c) = fit? (n * 10 + digitValue c : Nat) := by
  by_cases hn : n ≤ maxInteger
  · rw [fit?_of_le hn, Option.bind_some, appendDigit_ofNat hn]
    by_cases htens : n * 10 ≤ maxInteger
    · rw [fit?_of_le htens, Option.bind_some, toInt_ofNat_of_le htens, Int.natCast_add]
    · rw [fit?_of_lt (by omega), fit?_of_lt (by omega), Option.bind_none]
  · rw [fit?_of_lt (by omega), fit?_of_lt (by omega), Option.bind_none]

/-- So does a whole run of digits, after a number that fits or does not. -/
theorem foldl_appendDigit (n : Nat) (cs : List Char) :
    cs.foldl (fun n d => n.bind (appendDigit · d)) (fit? n) =
      fit? (cs.foldl (fun n c => n * 10 + digitValue c) n : Nat) := by
  induction cs generalizing n with
  | nil => rfl
  | cons c cs ih => rw [List.foldl_cons, List.foldl_cons, fit?_bind_appendDigit, ih]

theorem digitValue_le (c : Char) : digitValue c ≤ maxInteger := by
  have hvalid : c.toNat.isValidChar := c.valid
  unfold Nat.isValidChar at hvalid
  unfold digitValue maxInteger
  omega

end Fitting

theorem runNumber?_eq_fit? {cs : List Char} (h : cs ≠ []) : runNumber? cs = fit? (digitsValue cs) := by
  cases cs with
  | nil => exact absurd rfl h
  | cons c cs =>
    rw [runNumber?, ← fit?_of_le (digitValue_le c), foldl_appendDigit, digitsValue_eq_foldl, List.foldl_cons,
      Nat.zero_mul, Nat.zero_add]

/-- A run of digits is the number that it denotes. -/
theorem numberToken_of_le {cs : List Char} (hne : cs ≠ []) (h : digitsValue cs ≤ maxInteger) :
    numberToken cs = .number (Int32.ofNat (digitsValue cs)) := by
  rw [numberToken, runNumber?_eq_fit? hne, fit?_of_le h]

theorem numberToken_of_lt {cs : List Char} (hne : cs ≠ []) (h : maxInteger < digitsValue cs) :
    numberToken cs = .invalid .integerTooLarge := by
  rw [numberToken, runNumber?_eq_fit? hne, fit?_of_lt h]

theorem scans_digits {ds : List Char} {next : Option Char} (hne : ds ≠ [])
    (hds : ∀ c ∈ ds, isDigit c = true) (hnext : ∀ c, next = some c → isDigit c = false) :
    Scans ds next (numberToken ds) := by
  cases ds with
  | nil => exact absurd rfl hne
  | cons c w =>
    rw [List.forall_mem_cons] at hds
    exact .number hds.1 hds.2 hnext

namespace Source

/-- A token is found after a gap, and taken as a whole, whenever the lines are requested. -/
theorem nextLexeme_of_scans {s : Source} {gap w : List Char} {rest : List Event} {t : Token}
    (hs : withoutRequests s.pending = (gap ++ w).map .char ++ rest) (hgap : Gap gap)
    (h : Scans w (following rest) t) :
    s.nextLexeme.1 = ⟨t, s.position.afterAll gap⟩ ∧ withoutRequests s.nextLexeme.2.pending = rest ∧
      s.nextLexeme.2.position = s.position.afterAll (gap ++ w) := by
  have hrest : .request ∉ rest := fun hmem =>
    request_not_mem_withoutRequests s.pending (hs ▸ List.mem_append_right _ hmem)
  have hhand : AtHand rest := fun hhead => hrest (List.mem_of_head? hhead)
  obtain ⟨n', hplain⟩ := nextLexeme_scans h hhand 0 (s.position.afterAll gap)
  have hbeside : Beside 0 (Source.mk ((gap ++ w).map .char ++ rest) 0 s.position) s := by
    refine ⟨?_, rfl⟩
    rw [← hs, withoutRequests_idem]
  obtain ⟨hlexeme, hafter⟩ := hbeside.nextLexeme
  rw [List.map_append, List.append_assoc, nextLexeme_gap hgap, hplain] at hlexeme hafter
  refine ⟨hlexeme, ?_, ?_⟩
  · rw [hafter.heard]
    exact List.filter_eq_self.2 fun e he => decide_eq_true fun heq => hrest (heq ▸ he)
  · rw [hafter.position, Position.afterAll_append, Position.down_zero]

end Source

/-- Wherever a token starts with a digit, the whole run of digits is taken and nothing else: it is the
number that it denotes, or one error if that number is larger than any 32-bit integer. -/
theorem nextLexeme_digits (s : Source) {gap ds : List Char} {rest : List Event} (hgap : Gap gap)
    (hne : ds ≠ []) (hds : ∀ c ∈ ds, isDigit c = true)
    (hs : Source.withoutRequests s.pending = (gap ++ ds).map .char ++ rest)
    (hrest : ∀ c, following rest = some c → isDigit c = false) :
    Source.withoutRequests s.nextLexeme.2.pending = rest ∧
    s.nextLexeme.2.position = s.position.afterAll (gap ++ ds) ∧
    s.nextLexeme.1.position = s.position.afterAll gap ∧
    (digitsValue ds ≤ 2147483647 →
      ∃ n : Int32, s.nextLexeme.1.token = .number n ∧ n.toInt = digitsValue ds) ∧
    (2147483647 < digitsValue ds → s.nextLexeme.1.token = .invalid .integerTooLarge) := by
  obtain ⟨hlexeme, hpending, hposition⟩ := Source.nextLexeme_of_scans hs hgap (scans_digits hne hds hrest)
  rw [hlexeme]
  refine ⟨hpending, hposition, rfl, fun hle => ?_, numberToken_of_lt hne⟩
  exact ⟨Int32.ofNat (digitsValue ds), numberToken_of_le hne hle, toInt_ofNat_of_le hle⟩

/-- The lines `#1` and `0214748364` with a last digit and an `x`, read one by one. -/
def limitSource (last : UInt8) : Source :=
  .ofBytes [35, 49, 10, 48, 50, 49, 52, 55, 52, 56, 51, 54, 52, last, 120]

theorem nextLexeme_digits_limitSource :
    (Source.withoutRequests (limitSource 55).pending =
        (['#', '1', '\n'] ++ "02147483647".toList).map .char ++ [.char 'x'] ∧
      Source.withoutRequests (limitSource 55).nextLexeme.2.pending = [.char 'x'] ∧
      ∃ n : Int32, (limitSource 55).nextLexeme.1.token = .number n ∧ n.toInt = 2147483647) ∧
    (Source.withoutRequests (limitSource 56).pending =
        (['#', '1', '\n'] ++ "02147483648".toList).map .char ++ [.char 'x'] ∧
      Source.withoutRequests (limitSource 56).nextLexeme.2.pending = [.char 'x'] ∧
      (limitSource 56).nextLexeme.1.token = .invalid .integerTooLarge) := by
  have hgap : Gap ['#', '1', '\n'] := .comment ['1'] (by decide) .nil
  have hnext (c : Char) (hc : following [.char 'x'] = some c) : isDigit c = false := by
    obtain rfl := Option.some.inj hc
    decide
  constructor
  · have hs : Source.withoutRequests (limitSource 55).pending =
        (['#', '1', '\n'] ++ "02147483647".toList).map .char ++ [.char 'x'] := by decide
    have hvalue : digitsValue "02147483647".toList = 2147483647 := by decide
    obtain ⟨hpending, -, -, hnumber, -⟩ := nextLexeme_digits (limitSource 55) hgap (by decide)
      (List.all_eq_true.1 (by decide)) hs hnext
    rw [hvalue] at hnumber
    exact ⟨hs, hpending, hnumber (by decide)⟩
  · have hs : Source.withoutRequests (limitSource 56).pending =
        (['#', '1', '\n'] ++ "02147483648".toList).map .char ++ [.char 'x'] := by decide
    have hvalue : digitsValue "02147483648".toList = 2147483648 := by decide
    obtain ⟨hpending, -, -, -, herror⟩ := nextLexeme_digits (limitSource 56) hgap (by decide)
      (List.all_eq_true.1 (by decide)) hs hnext
    rw [hvalue] at herror
    exact ⟨hs, hpending, herror (by decide)⟩

end IntLang
