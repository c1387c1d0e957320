import IntLang.Text.Utf8

/-! Input as a reader delivers it: one line at a time, each up to and including its newline, and
each either text or a failure. -/
namespace IntLang.Text

inductive ReadError where
  | invalidUtf8
  | isDirectory
  deriving DecidableEq, Repr

def ReadError.message : ReadError → String
  | .invalidUtf8 => "stream did not contain valid UTF-8"
  | .isDirectory => "Is a directory (os error 21)"

def newline : UInt8 := 10

/-- Bytes cut after each newline. No line is empty; only the last may lack its newline. -/
def splitLines : List UInt8 → List (List UInt8)
  | [] => []
  | b :: bs =>
    if b = newline then [b] :: splitLines bs
    else
      match splitLines bs with
      | [] => [[b]]
      | l :: ls => (b :: l) :: ls

def decodeLine (bs : List UInt8) : Except ReadError (List Char) :=
  match Utf8.decode? bs with
  | some cs => .ok cs
  | none => .error .invalidUtf8

@[simp]
theorem flatten_splitLines (bs : List UInt8) : (splitLines bs).flatten = bs := by
  induction bs with
  | nil => rfl
  | cons b bs ih =>
    rw [splitLines]
    split
    · simp [ih]
    · split
      · next h => simp_all
      · next h =>
        rw [h] at ih
        simpa using ih

theorem ne_nil_of_mem_splitLines {bs l : List UInt8} (h : l ∈ splitLines bs) : l ≠ [] := by
  induction bs generalizing l with
  | nil => simp [splitLines] at h
  | cons b bs ih =>
    rw [splitLines] at h
    split at h
    · rcases List.mem_cons.1 h with rfl | h
      · simp
      · exact ih h
    · split at h
      · simp_all
      · next hs =>
        rcases List.mem_cons.1 h with rfl | h
        · simp
        · exact ih (hs ▸ List.mem_cons_of_mem _ h)

end IntLang.Text
