import Mathlib.Tactic

/-!
# `Lib.Digits` — numbers written in decimal

Numbers in fields of a fixed width, with leading zeros, and with a fixed number of decimals. Fields are read back
by `readDigits`: a number of at most `w` digits is read back from the `w` digits written (`readDigits_field`).
-/

namespace Digits

/-- The decimal digits of a number, `w` of them. -/
def padded : Nat → Nat → List Char
  | 0, _ => []
  | w + 1, n => padded w (n / 10) ++ [Nat.digitChar (n % 10)]

/-- The value of a digit. -/
def digitValue (c : Char) : Option Nat := if c.isDigit then some (c.toNat - '0'.toNat) else none

/-- Read `w` digits after the number `acc`. -/
def readDigits : Nat → Nat → List Char → Option (Nat × List Char)
  | 0, acc, text => some (acc, text)
  | _ + 1, _, [] => none
  | w + 1, acc, c :: text => (digitValue c).bind fun d => readDigits w (acc * 10 + d) text

theorem digitValue_digitChar {d : Nat} (h : d < 10) : digitValue (Nat.digitChar d) = some d := by
  revert d
  decide +kernel

theorem isDigit_of_mem_padded {w n : Nat} {c : Char} (h : c ∈ padded w n) : c.isDigit = true := by
  induction w generalizing n with
  | zero => exact absurd h List.not_mem_nil
  | succ w ih =>
      rcases List.mem_append.mp h with h | h
      · exact ih h
      · rw [List.mem_singleton.mp h]
        have hdigit : ∀ d < 10, (Nat.digitChar d).isDigit = true := by decide +kernel
        exact hdigit _ (Nat.mod_lt n (by decide))

/-- The last digit is read last. -/
theorem readDigits_succ (w acc : Nat) (text : List Char) :
    readDigits (w + 1) acc text = (readDigits w acc text).bind fun read => readDigits 1 read.1 read.2 := by
  induction w generalizing acc text with
  | zero => rfl
  | succ w ih =>
      cases text with
      | nil => rfl
      | cons c text =>
          show ((digitValue c).bind fun d => readDigits (w + 1) (acc * 10 + d) text) =
            ((digitValue c).bind fun d => readDigits w (acc * 10 + d) text).bind _
          rw [Option.bind_assoc]
          exact Option.bind_congr fun d _ => ih (acc * 10 + d) text

/-- What `w` digits are read as, whatever follows. -/
theorem readDigits_padded (w acc n : Nat) (rest : List Char) :
    readDigits w acc (padded w n ++ rest) = some (acc * 10 ^ w + n % 10 ^ w, rest) := by
  induction w generalizing n rest with
  | zero => simp [readDigits, padded, Nat.mod_one]
  | succ w ih =>
      rw [readDigits_succ, padded, List.append_assoc, List.singleton_append, ih, Option.bind_some]
      show ((digitValue (Nat.digitChar (n % 10))).bind _) = _
      rw [digitValue_digitChar (Nat.mod_lt n (by decide)), Option.bind_some]
      show some ((acc * 10 ^ w + n / 10 % 10 ^ w) * 10 + n % 10, rest) = _
      have hmod : n % 10 ^ (w + 1) = n % 10 + 10 * (n / 10 % 10 ^ w) := by
        rw [pow_succ', Nat.mod_mul]
      rw [hmod, pow_succ]
      congr 2
      ring

/-- A number that fits is read back. -/
theorem readDigits_field {w n : Nat} (h : n < 10 ^ w) (rest : List Char) :
    readDigits w 0 (padded w n ++ rest) = some (n, rest) := by
  rw [readDigits_padded, Nat.zero_mul, Nat.zero_add, Nat.mod_eq_of_lt h]

/-- A number of units of `10 ^ -w`, with `w` decimals. -/
def fixed (w n : Nat) : List Char := Nat.toDigits 10 (n / 10 ^ w) ++ '.' :: padded w (n % 10 ^ w)

theorem isDigit_of_mem_fixed {w n : Nat} {c : Char} (h : c ∈ fixed w n) : c.isDigit = true ∨ c = '.' := by
  rcases List.mem_append.mp h with h | h
  · exact Or.inl (Nat.isDigit_of_mem_toDigits (by decide) (by decide) h)
  · rcases List.mem_cons.mp h with h | h
    · exact Or.inr h
    · exact Or.inl (isDigit_of_mem_padded h)

end Digits
