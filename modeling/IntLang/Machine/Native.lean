/-! The support routines that a running program can call: printing a line and exponentiation. -/
namespace IntLang.Machine

inductive Native where
  | print
  | power
  deriving DecidableEq, Repr

def printSymbol : String := "__garter_print"

def powerSymbol : String := "__garter_exponentiate"

/-- The values a print call shows: as many as its first argument says and as there are. -/
def shownValues : List Int32 → List Int32
  | [] => []
  | count :: values => values.take count.toInt.toNat

def decimals (vs : List Int32) : String :=
  " ".intercalate (vs.map fun v => toString v.toInt)

def printedLine (args : List Int32) : String :=
  decimals (shownValues args) ++ "\n"

theorem toInt_half {n : Int32} (h : ¬ n ≤ 0) : 0 < n.toInt ∧ (n / 2).toInt = n.toInt / 2 := by
  have hpos : 0 < n.toInt := by simpa using mt Int32.le_iff_toInt_le.2 h
  rw [Int32.toInt_div_of_ne_right n 2 (by decide)]
  exact ⟨hpos, Int.tdiv_eq_ediv_of_nonneg (Int.le_of_lt hpos)⟩

/-- A power with wrapping multiplication, by repeated squaring. An exponent that is not positive
counts as zero. -/
def power (base exponent : Int32) : Int32 :=
  if _h : exponent ≤ 0 then 1
  else
    let half := power base (exponent / 2)
    let square := half * half
    if exponent % 2 = 1 then square * base else square
termination_by exponent.toInt.toNat
decreasing_by
  have := toInt_half _h
  omega

inductive NativeError where
  | powerArguments
  | unwritten (reason : String)
  deriving DecidableEq, Repr

def NativeError.message : NativeError → String
  | powerArguments => "exponentiate takes two arguments"
  | unwritten reason => reason

structure Sink where
  refuses : String → String → Option (String × String) := fun _ _ => none

def Native.run : Native → List Int32 → Except NativeError (Int32 × String)
  | print, args =>
    let line := printedLine args
    .ok (Int32.ofNat line.length, line)
  | power, [base, exponent] => .ok (Machine.power base exponent, "")
  | power, _ => .error .powerArguments

end IntLang.Machine
