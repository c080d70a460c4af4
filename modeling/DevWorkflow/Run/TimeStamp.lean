import DevWorkflow.Text

/-!
# Time stamps

The date and time as they stand in the names of backups: eight digits, a dash and six digits, which sort as the times do.
-/

namespace DevWorkflow

/-- A date and a time of day. -/
structure ClockTime where
  year : Nat
  month : Nat
  day : Nat
  hour : Nat
  minute : Nat
  second : Nat
deriving DecidableEq, Repr

namespace ClockTime

/-- A number in at least the given number of digits. -/
def padded (width n : Nat) : Text :=
  let digits := Nat.toDigits 10 n
  List.replicate (width - digits.length) '0' ++ digits

/-- The date and time as they stand in names of backups. -/
def render (t : ClockTime) : Text :=
  padded 4 t.year ++ padded 2 t.month ++ padded 2 t.day ++ ['-'] ++ padded 2 t.hour ++ padded 2 t.minute
    ++ padded 2 t.second

example : (render ⟨2024, 3, 9, 7, 5, 30⟩) = "20240309-070530".toList := by decide

end ClockTime

end DevWorkflow
