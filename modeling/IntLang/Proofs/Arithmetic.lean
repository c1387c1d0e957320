import IntLang.Proofs.Evaluation
import Mathlib.Algebra.Ring.Int.Defs
import Mathlib.Algebra.Ring.Nat
import Mathlib.Logic.Function.Iterate

/-! The machine's arithmetic on 32-bit words computes what the operators mean on integers: quotients and
remainders where they exist, sums, differences, products and powers up to wrapping. -/
namespace IntLang.Machine
open IntLang.Meaning

theorem toInt_minInteger : minInteger.toInt = -2147483648 := by
  decide

theorem toInt_neg_one : (-1 : Int32).toInt = -1 := by
  decide

/-- Only the smallest integer divided by minus one has a quotient that is too large. -/
theorem quotient_overflow_iff (a b : Int32) :
    2147483647 < a.toInt.tdiv b.toInt ↔ a = minInteger ∧ b = -1 := by
  have ha := a.le_toInt
  have ha' := a.toInt_lt
  rw [← Int32.toInt_inj, toInt_minInteger, ← Int32.toInt_inj, toInt_neg_one]
  by_cases h1 : b.toInt = 1
  · rw [h1, Int.tdiv_one]
    omega
  by_cases h2 : b.toInt = -1
  · rw [h2, Int.tdiv_neg, Int.tdiv_one]
    omega
  · have hq : (a.toInt.tdiv b.toInt).natAbs = a.toInt.natAbs / b.toInt.natAbs := Int.natAbs_tdiv _ _
    have hle : a.toInt.natAbs / b.toInt.natAbs ≤ a.toInt.natAbs / 2 := by
      by_cases h0 : b.toInt = 0
      · simp [h0]
      · exact Nat.div_le_div_left (by omega) (by omega)
    omega

theorem ofInt_tdiv_toInt (a b : Int32) : Int32.ofInt (a.toInt.tdiv b.toInt) = a / b := by
  rw [Int32.ofInt_tdiv a.minValue_le_toInt a.toInt_le b.minValue_le_toInt b.toInt_le,
    Int32.ofInt_toInt, Int32.ofInt_toInt]

theorem ofInt_tmod_toInt (a b : Int32) : Int32.ofInt (a.toInt.tmod b.toInt) = a % b := by
  rw [Int32.ofInt_tmod a.minValue_le_toInt a.toInt_le b.minValue_le_toInt b.toInt_le,
    Int32.ofInt_toInt, Int32.ofInt_toInt]

theorem toInt_eq_zero (b : Int32) : b.toInt = 0 ↔ b = 0 :=
  Int32.toInt_inj (y := 0)

theorem arith_div (a b : Int32) : arith .div a b = divide Int.tdiv a b := by
  simp only [arith, divide, toInt_eq_zero, quotient_overflow_iff, ofInt_tdiv_toInt]

theorem arith_rem (a b : Int32) : arith .rem a b = divide Int.tmod a b := by
  simp only [arith, divide, toInt_eq_zero, quotient_overflow_iff, ofInt_tmod_toInt]

theorem arith_add (a b : Int32) : arith .add a b = .ok (Int32.ofInt (a.toInt + b.toInt)) := by
  simp [arith]

theorem arith_sub (a b : Int32) : arith .sub a b = .ok (Int32.ofInt (a.toInt - b.toInt)) := by
  simp [arith]

theorem arith_mul (a b : Int32) : arith .mul a b = .ok (Int32.ofInt (a.toInt * b.toInt)) := by
  simp [arith]

theorem mod_two_eq_one_iff {n : Int32} (h : ¬ n ≤ 0) : n % 2 = 1 ↔ n.toInt.toNat % 2 = 1 := by
  have hpos := (toInt_half h).1
  have htwo : (2 : Int32).toInt = 2 := by decide
  have hone : (1 : Int32).toInt = 1 := by decide
  rw [← Int32.toInt_inj, Int32.toInt_mod, htwo, hone, Int.tmod_eq_emod_of_nonneg (Int.le_of_lt hpos)]
  omega

/-- Wrapping the factors and the product gives the same as wrapping only the product. -/
theorem power_eq_ofInt (base exponent : Int32) :
    power base exponent = Int32.ofInt (base.toInt ^ exponent.toInt.toNat) := by
  induction exponent using power.induct base with
  | case1 e h =>
    have hzero : e.toInt.toNat = 0 := Int.toNat_of_nonpos (Int32.le_iff_toInt_le.1 h)
    rw [power, dif_pos h, hzero, pow_zero]
    rfl
  | case2 e h hodd ih =>
    have hhalf := (toInt_half h).2
    have hsum : e.toInt.toNat = (e / 2).toInt.toNat + (e / 2).toInt.toNat + 1 := by
      have := (mod_two_eq_one_iff h).1 hodd
      omega
    rw [power, dif_neg h, if_pos hodd, ih, hsum, pow_succ, pow_add, Int32.ofInt_mul, Int32.ofInt_mul,
      Int32.ofInt_toInt]
  | case3 e h heven ih =>
    have hhalf := (toInt_half h).2
    have hsum : e.toInt.toNat = (e / 2).toInt.toNat + (e / 2).toInt.toNat := by
      have := mt (mod_two_eq_one_iff h).2 heven
      omega
    rw [power, dif_neg h, if_neg heven, ih, hsum, pow_add, Int32.ofInt_mul]

theorem iterate_mul_eq_ofInt (base : Int32) (n : Nat) :
    (· * base)^[n] 1 = Int32.ofInt (base.toInt ^ n) := by
  induction n with
  | zero =>
    rw [pow_zero]
    rfl
  | succ n ih =>
    rw [Function.iterate_succ_apply', ih, pow_succ, Int32.ofInt_mul, Int32.ofInt_toInt]

/-- A power is exact up to wrapping: it is the signed 32-bit residue of the power of integers, and the
same as multiplying as often as the exponent says, wrapping each product. -/
theorem power_eq_residue (base exponent : Int32) :
    Native.power.run [base, exponent] = .ok (power base exponent, "") ∧
    (power base exponent).toInt =
      (if exponent ≤ 0 then 1 else (base.toInt ^ exponent.toInt.toNat).bmod (2 ^ 32)) ∧
    power base exponent = (· * base)^[exponent.toInt.toNat] 1 := by
  refine ⟨rfl, ?_, ?_⟩
  · split
    · next h =>
      rw [power, dif_pos h]
      rfl
    · rw [power_eq_ofInt, Int32.toInt_ofInt]
      rfl
  · rw [power_eq_ofInt, iterate_mul_eq_ofInt]

end IntLang.Machine
