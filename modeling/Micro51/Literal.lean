/- # Literals

A literal is a truth value, a number in base ten or sixteen, or a character
in quotes. Where a signed value is wanted, and for every negative number,
the range is that of two's complement. A number in base ten whose digits are
too many is not read at all, not even if all but a few of them are zeros in
front.

Key definitions: `Literal.number?`, `Literal.read`, `bitIndex`.
Key theorems: `Literal.number?_eq_some_iff`, `Literal.number?_eq_error_iff`.
-/
import Micro51.Diagnostic
import Micro51.Text.Brackets

namespace Micro51

namespace Literal

/-- The number that a text writes in base ten, if it is such a numeral. -/
def number? (t : Text) : Except Cause (Option Int) :=
  match Text.decimal? t with
  | none => .ok none
  | some n =>
    if Text.digitLimit < Text.digitCount t then .error (.digitsExceeded (Text.digitCount t))
    else .ok (some n)

section

variable {t : Text}

theorem number?_eq_some_iff {n : Int} :
    number? t = .ok (some n) ↔
      Text.decimal? t = some n ∧ Text.digitCount t ≤ Text.digitLimit := by
  unfold number?
  cases Text.decimal? t with
  | none => simp
  | some m =>
    by_cases long : Text.digitLimit < Text.digitCount t
    · simp [if_pos long, Nat.not_le.mpr long]
    · simp [if_neg long, Nat.not_lt.mp long]

theorem number?_of_none (other : Text.decimal? t = none) : number? t = .ok none := by
  rw [number?, other]

/-- A text is too long to be read only if it is a numeral. -/
theorem number?_eq_error_iff {cause : Cause} :
    number? t = .error cause ↔ cause = .digitsExceeded (Text.digitCount t) ∧
      Text.digitLimit < Text.digitCount t ∧ (Text.decimal? t).isSome = true := by
  unfold number?
  cases Text.decimal? t with
  | none => simp
  | some m =>
    by_cases long : Text.digitLimit < Text.digitCount t
    · simp [long, eq_comm]
    · simp [long]

end

/-- The constant that a text is, if it is a literal at all. -/
def read (t : Text) (signed : Bool) : Except Cause (Option Constant) :=
  let s := String.ofList t
  if s = "true" then .ok (some ⟨s, .bool, 1⟩)
  else if s = "false" then .ok (some ⟨s, .bool, 0⟩)
  else match Text.hexadecimal? t with
    | some n =>
      if n > 0xFF then .error (.outOfRange s "0x00..0xff")
      else .ok (some ⟨s, if signed then .cint else .int, n⟩)
    | none => match number? t with
      | .error cause => .error cause
      | .ok (some n) =>
        if signed || n < 0 then
          if n < -128 || n > 127 then .error (.outOfRange s "-128..127")
          else .ok (some ⟨s, .cint, n⟩)
        else if n > 255 then .error (.outOfRange s "0..255")
        else .ok (some ⟨s, .int, n⟩)
      | .ok none => match t with
        | [a, c, b] =>
          if a == Text.quote && b == Text.quote then
            if c.toNat > 0xFF then .error (.outOfRange s "0..255")
            else .ok (some ⟨s, .char, c.toNat⟩)
          else .ok none
        | _ => .ok none

end Literal

/-- The number of a bit in a byte. -/
def bitIndex (t : Text) : Except Cause Nat :=
  let t := Text.trim t
  match Literal.number? t with
  | .error cause => .error cause
  | .ok none => .error (.bitIndexNotNumber (String.ofList t))
  | .ok (some n) =>
    if n < 0 || n > 7 then .error (.outOfRange (String.ofList t) "0..7")
    else .ok n.toNat

/-- The number of a bit is a numeral from 0 to 7. -/
theorem bitIndex_eq_ok {t : Text} {i : Nat} (h : bitIndex t = .ok i) :
    ∃ n : Int, Text.decimal? (Text.trim t) = some n ∧ 0 ≤ n ∧ n ≤ 7 ∧ i = n.toNat := by
  unfold bitIndex at h
  simp only at h
  split at h
  · cases h
  · cases h
  · next n number =>
    split at h
    · cases h
    · next range =>
      simp only [Bool.or_eq_true, decide_eq_true_eq, not_or, Int.not_lt] at range
      cases h
      exact ⟨n, (Literal.number?_eq_some_iff.mp number).1, range.1, by omega, rfl⟩

end Micro51
