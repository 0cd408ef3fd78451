import Mathlib.Data.Rat.Floor
import Mathlib.Tactic

/-!
# `Lib.Binary64` — rounding of exact rationals into the binary64 format

A finite binary64 number is a rational `m * 2 ^ e` with a 53-bit mantissa. This module says how an exact
rational lands on that grid (`round`, to nearest with ties to even) and how it lands on the integers
(`roundHalfAway`, the C library's `llround` before its range check). Arithmetic on doubles is then exact
rational arithmetic followed by `round`; nothing here depends on hardware floats, so every definition
evaluates in the kernel.

## Contents
- **Scale.** `exponent q` is the binary exponent of `q` (`exponent_spec`), `ulp q` its grid spacing.
- **Grid.** `Representable`, with `round_of_representable`: a number on the grid is its own rounding.
- **Integers.** `roundHalfAway` is monotone, fixes the integers, and sends a number on the grid to a
  number on the grid (`representable_roundHalfAway`).
- **Values.** `Double` adds the infinities and NaN, with the comparisons C makes on them.
-/

namespace Binary64

/-! ## Scale -/

/-- The binary exponent of `q`: the `k` with `2 ^ k ≤ |q| < 2 ^ (k + 1)` (for `q ≠ 0`). -/
def exponent (q : ℚ) : ℤ :=
  let k : ℤ := (Nat.log2 q.num.natAbs : ℤ) - (Nat.log2 q.den : ℤ)
  if (2 : ℚ) ^ k ≤ |q| then k else k - 1

/-- The spacing of the binary64 grid around `q`; it stops shrinking at the subnormals. -/
def ulp (q : ℚ) : ℚ := 2 ^ max (exponent q - 52) (-1074)

/-- Round to the nearest integer, ties to the even one. -/
def roundHalfEven (q : ℚ) : ℤ :=
  if q - ⌊q⌋ < 1 / 2 then ⌊q⌋
  else if 1 / 2 < q - ⌊q⌋ then ⌊q⌋ + 1
  else if ⌊q⌋ % 2 = 0 then ⌊q⌋ else ⌊q⌋ + 1

/-- Round to the nearest binary64 number, ties to the even mantissa. Overflow to infinity is left out:
    no computation built on it leaves the finite range. -/
def round (q : ℚ) : ℚ :=
  if q = 0 then 0 else roundHalfEven (q / ulp q) * ulp q

/-- A rational is the quotient of its numerator's and its denominator's size. -/
theorem abs_eq_natAbs_div (q : ℚ) : |q| = (q.num.natAbs : ℚ) / q.den := by
  conv_lhs => rw [← Rat.num_div_den q]
  rw [abs_div, Nat.abs_cast, Nat.cast_natAbs, Int.cast_abs]

/-- A non-zero natural lies between the powers of two its `log2` names. -/
theorem log2_bounds {n : Nat} (hn : n ≠ 0) :
    (2 : ℚ) ^ (Nat.log2 n : ℤ) ≤ n ∧ (n : ℚ) < 2 ^ ((Nat.log2 n : ℤ) + 1) := by
  constructor
  · have h : 2 ^ n.log2 ≤ n := Nat.log2_self_le hn
    exact_mod_cast h
  · have h : n < 2 ^ (n.log2 + 1) := Nat.lt_log2_self
    exact_mod_cast h

/-- **`exponent` is the binary exponent.** -/
theorem exponent_spec {q : ℚ} (hq : q ≠ 0) :
    (2 : ℚ) ^ exponent q ≤ |q| ∧ |q| < 2 ^ (exponent q + 1) := by
  have hn : q.num.natAbs ≠ 0 := by simpa using hq
  obtain ⟨hn1, hn2⟩ := log2_bounds hn
  obtain ⟨hd1, hd2⟩ := log2_bounds q.den_nz
  have hd : (0 : ℚ) < q.den := by exact_mod_cast q.den_pos
  set a : ℤ := (Nat.log2 q.num.natAbs : ℤ) with ha
  set b : ℤ := (Nat.log2 q.den : ℤ) with hb
  have habs := abs_eq_natAbs_div q
  have hupper : |q| < 2 ^ (a - b + 1) := by
    rw [habs, div_lt_iff₀ hd]
    calc (q.num.natAbs : ℚ) < 2 ^ (a + 1) := hn2
      _ = 2 ^ (a - b + 1) * 2 ^ b := by rw [← zpow_add₀ (by norm_num)]; congr 1; ring
      _ ≤ 2 ^ (a - b + 1) * q.den := by gcongr
  have hlower : (2 : ℚ) ^ (a - b - 1) < |q| := by
    rw [habs, lt_div_iff₀ hd]
    calc (2 : ℚ) ^ (a - b - 1) * q.den < 2 ^ (a - b - 1) * 2 ^ (b + 1) := by gcongr
      _ = 2 ^ a := by rw [← zpow_add₀ (by norm_num)]; congr 1; ring
      _ ≤ q.num.natAbs := hn1
  unfold exponent
  simp only [← ha, ← hb]
  by_cases h : (2 : ℚ) ^ (a - b) ≤ |q|
  · rw [if_pos h]
    exact ⟨h, hupper⟩
  · rw [if_neg h]
    refine ⟨hlower.le, ?_⟩
    rw [sub_add_cancel]
    exact not_le.mp h

/-! ## The grid -/

/-- `q` is a finite binary64 number. -/
def Representable (q : ℚ) : Prop :=
  ∃ m e : ℤ, |m| < 2 ^ 53 ∧ -1074 ≤ e ∧ e ≤ 971 ∧ q = m * 2 ^ e

theorem roundHalfEven_intCast (n : ℤ) : roundHalfEven n = n := by
  simp [roundHalfEven]

theorem floor_le_roundHalfEven (q : ℚ) : ⌊q⌋ ≤ roundHalfEven q := by
  unfold roundHalfEven
  split_ifs <;> omega

theorem roundHalfEven_le_floor_add_one (q : ℚ) : roundHalfEven q ≤ ⌊q⌋ + 1 := by
  unfold roundHalfEven
  split_ifs <;> omega

theorem roundHalfEven_mono {x y : ℚ} (h : x ≤ y) : roundHalfEven x ≤ roundHalfEven y := by
  rcases (Int.floor_mono h).lt_or_eq with hlt | heq
  · calc roundHalfEven x ≤ ⌊x⌋ + 1 := roundHalfEven_le_floor_add_one x
      _ ≤ ⌊y⌋ := hlt
      _ ≤ roundHalfEven y := floor_le_roundHalfEven y
  · -- both are rounded from the same integer, the smaller one by no more than the other
    unfold roundHalfEven
    rw [heq]
    split_ifs <;> first | omega | linarith

/-- A number on the grid is a whole number of its own `ulp`s. -/
theorem Representable.div_ulp {q : ℚ} (h : Representable q) (hq : q ≠ 0) :
    ∃ n : ℤ, q / ulp q = n := by
  obtain ⟨m, e, hm, he, -, rfl⟩ := h
  set k := max (exponent ((m : ℚ) * 2 ^ e) - 52) (-1074) with hk
  have hke : k ≤ e := by
    -- the mantissa has at most 53 bits, so the exponent is below `53 + e`
    have hlt : (2 : ℚ) ^ exponent ((m : ℚ) * 2 ^ e) < 2 ^ (53 + e) := by
      have hmq : |(m : ℚ)| < 2 ^ (53 : ℤ) := by exact_mod_cast hm
      calc (2 : ℚ) ^ exponent ((m : ℚ) * 2 ^ e) ≤ |(m : ℚ) * 2 ^ e| := (exponent_spec hq).1
        _ = |(m : ℚ)| * 2 ^ e := by rw [abs_mul, abs_of_pos (by positivity : (0 : ℚ) < 2 ^ e)]
        _ < 2 ^ (53 : ℤ) * 2 ^ e := by gcongr
        _ = 2 ^ (53 + e) := by rw [← zpow_add₀ (by norm_num)]
    have := (zpow_lt_zpow_iff_right₀ (by norm_num : (1 : ℚ) < 2)).mp hlt
    omega
  refine ⟨m * 2 ^ (e - k).toNat, ?_⟩
  have hcast : ((2 : ℚ) ^ (e - k).toNat) = 2 ^ (e - k) := by
    rw [← zpow_natCast, Int.toNat_of_nonneg (by omega)]
  rw [ulp, ← hk]
  push_cast
  rw [hcast, zpow_sub₀ (by norm_num)]
  ring

/-- **A number on the grid is its own rounding.** -/
theorem round_of_representable {q : ℚ} (h : Representable q) : round q = q := by
  unfold round
  by_cases hq : q = 0
  · rw [if_pos hq, hq]
  · rw [if_neg hq]
    obtain ⟨n, hn⟩ := h.div_ulp hq
    rw [hn, roundHalfEven_intCast, ← hn]
    have hu : ulp q ≠ 0 := by unfold ulp; positivity
    exact div_mul_cancel₀ q hu

theorem representable_intCast {n : ℤ} (h : |n| < 2 ^ 53) : Representable n :=
  ⟨n, 0, h, by norm_num, by norm_num, by simp⟩

/-- The integers up to `2 ^ 53` are all on the grid. -/
theorem representable_intCast_of_le {n : ℤ} (h : |n| ≤ 2 ^ 53) : Representable n := by
  rcases h.lt_or_eq with hlt | heq
  · exact representable_intCast hlt
  · rcases abs_eq (by norm_num) |>.mp heq with rfl | rfl
    · exact ⟨1, 53, by norm_num, by norm_num, by norm_num, by norm_num⟩
    · exact ⟨-1, 53, by norm_num, by norm_num, by norm_num, by norm_num⟩

/-! ## Rounding to the integers -/

/-- Round to the nearest integer, ties away from zero. -/
def roundHalfAway (q : ℚ) : ℤ := if 0 ≤ q then ⌊q + 1 / 2⌋ else ⌈q - 1 / 2⌉

@[simp] theorem roundHalfAway_intCast (n : ℤ) : roundHalfAway n = n := by
  unfold roundHalfAway
  split
  · rw [Int.floor_eq_iff]; constructor <;> linarith
  · rw [Int.ceil_eq_iff]; constructor <;> linarith

theorem roundHalfAway_mono {x y : ℚ} (h : x ≤ y) : roundHalfAway x ≤ roundHalfAway y := by
  unfold roundHalfAway
  by_cases hx : 0 ≤ x
  · rw [if_pos hx, if_pos (hx.trans h)]
    exact Int.floor_mono (by linarith)
  · rw [if_neg hx]
    by_cases hy : 0 ≤ y
    · -- the two rounding rules meet at zero
      rw [if_pos hy]
      have h1 : ⌈x - 1 / 2⌉ ≤ 0 := Int.ceil_le.mpr (by push_cast; linarith)
      have h2 : 0 ≤ ⌊y + 1 / 2⌋ := Int.le_floor.mpr (by push_cast; linarith)
      exact h1.trans h2
    · rw [if_neg hy]
      exact Int.ceil_mono (by linarith)

/-- An integer bound on a number bounds its rounding. -/
theorem roundHalfAway_le {q : ℚ} {n : ℤ} (h : q ≤ n) : roundHalfAway q ≤ n := by
  simpa using roundHalfAway_mono h

theorem le_roundHalfAway {q : ℚ} {n : ℤ} (h : (n : ℚ) ≤ q) : n ≤ roundHalfAway q := by
  simpa using roundHalfAway_mono h

/-- A number on the grid of magnitude `2 ^ 52` or more is an integer. -/
theorem Representable.exists_int {q : ℚ} (h : Representable q) (hq : 2 ^ 52 ≤ |q|) :
    ∃ n : ℤ, q = n := by
  obtain ⟨m, e, hm, -, -, rfl⟩ := h
  have he : 0 ≤ e := by
    by_contra hneg
    have hmq : |(m : ℚ)| ≤ 2 ^ 53 := by exact_mod_cast hm.le
    have hle : (2 : ℚ) ^ e ≤ 2 ^ (-1 : ℤ) := zpow_le_zpow_right₀ (by norm_num) (by omega)
    have hpos : (0 : ℚ) < 2 ^ e := by positivity
    rw [abs_mul, abs_of_pos hpos] at hq
    have hlt : |(m : ℚ)| < 2 ^ 53 := by exact_mod_cast hm
    have : |(m : ℚ)| * 2 ^ e ≤ |(m : ℚ)| * 2 ^ (-1 : ℤ) := by gcongr
    norm_num at this hlt hq
    linarith
  refine ⟨m * 2 ^ e.toNat, ?_⟩
  push_cast
  rw [← zpow_natCast, Int.toNat_of_nonneg he]

/-- **Rounding to the integers stays on the grid.** -/
theorem representable_roundHalfAway {q : ℚ} (h : Representable q) :
    Representable (roundHalfAway q : ℤ) := by
  by_cases hq : 2 ^ 52 ≤ |q|
  · obtain ⟨n, rfl⟩ := h.exists_int hq
    rwa [roundHalfAway_intCast]
  · have hb := abs_lt.mp (not_le.mp hq)
    have h1 : roundHalfAway q ≤ (2 ^ 52 : ℤ) := roundHalfAway_le (by push_cast; linarith [hb.2])
    have h2 : (-2 ^ 52 : ℤ) ≤ roundHalfAway q := le_roundHalfAway (by push_cast; linarith [hb.1])
    exact representable_intCast (by rw [abs_lt]; constructor <;> omega)

/-! ## Values with the infinities and NaN -/

/-- A value of C's type `double`. A finite value is carried as the rational it denotes; whether that
    rational is on the grid is a separate predicate (`Representable`), so that exact coordinates can be
    written as well. -/
inductive Double where
  | nan
  | negInf
  | fin (q : ℚ)
  | posInf
  deriving DecidableEq

namespace Double

/-- C's `x < y`: false as soon as one side is NaN. -/
def lt : Double → Double → Bool
  | .nan, _ => false
  | _, .nan => false
  | .negInf, .negInf => false
  | .negInf, _ => true
  | .fin _, .negInf => false
  | .fin p, .fin q => decide (p < q)
  | .fin _, .posInf => true
  | .posInf, _ => false

/-- C's `x != y`: true as soon as one side is NaN. -/
def ne : Double → Double → Bool
  | .nan, _ => true
  | _, .nan => true
  | x, y => decide (x ≠ y)

/-- `isinf(x) && x < 0`. -/
def isNegInf : Double → Bool
  | .negInf => true
  | _ => false

/-- `isinf(x) && x > 0`. -/
def isPosInf : Double → Bool
  | .posInf => true
  | _ => false

/-- Conversion of an integer to `double`. -/
def ofInt (n : ℤ) : Double := .fin (round n)

theorem ofInt_of_representable {n : ℤ} (h : Representable n) : ofInt n = .fin n := by
  rw [ofInt, round_of_representable h]

@[simp] theorem lt_fin_fin (p q : ℚ) : lt (.fin p) (.fin q) = decide (p < q) := rfl
@[simp] theorem lt_fin_posInf (p : ℚ) : lt (.fin p) .posInf = true := rfl
@[simp] theorem lt_posInf (y : Double) : lt .posInf y = false := by cases y <;> rfl

end Double

end Binary64
