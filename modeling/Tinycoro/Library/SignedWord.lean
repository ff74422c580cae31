import Mathlib.Data.BitVec
import Mathlib.Tactic.Ring

/-! A counter kept modulo `2 ^ w` and read as a signed word. The reading is the counter
less a whole number of laps, and a lap ends where the sign bit turns on. The readings of
two counters that are close are subtracted faithfully exactly where they are in one lap. -/
namespace SignedWord

/-- The laps that the signed reading of a counter drops. -/
def lap (w n : Nat) : Nat := (n + 2 ^ (w - 1)) / 2 ^ w

/-- Subtracting the signed readings `x` and `y` of the counters `a` and `b` does not
overflow, and the difference is zero, negative or positive as that of the counters is. -/
structure Faithful {w : Nat} (x y : BitVec w) (a b : Nat) : Prop where
  fits : x.ssubOverflow y = false
  zero : x.toInt - y.toInt = 0 ↔ a = b
  neg : x.toInt - y.toInt < 0 ↔ a < b
  pos : 0 < x.toInt - y.toInt ↔ b < a

variable {w a b : Nat}

theorem two_pow_eq (hw : 0 < w) : 2 ^ w = 2 * 2 ^ (w - 1) := by
  obtain ⟨v, rfl⟩ : ∃ v, w = v + 1 := ⟨w - 1, by omega⟩
  rw [Nat.add_sub_cancel, Nat.pow_succ, Nat.mul_comm]

theorem lap_mono (h : a ≤ b) : lap w a ≤ lap w b :=
  Nat.div_le_div_right (by omega)

theorem toInt_eq (hw : 0 < w) (n : Nat) :
    (BitVec.ofNat w n).toInt = (n : Int) - ((2 ^ w : Nat) : Int) * lap w n := by
  have hPow := two_pow_eq hw
  have hSplit := Nat.div_add_mod (n + 2 ^ (w - 1)) (2 ^ w)
  have hMod := Nat.mod_lt (n + 2 ^ (w - 1)) (Nat.two_pow_pos w)
  have hEq : (n : Int) = (n - ((2 ^ w : Nat) : Int) * lap w n) + ((2 ^ w : Nat) : Int) * lap w n :=
    by ring
  rw [BitVec.toInt_ofNat', hEq, Int.add_mul_bmod_self_left, ← hEq]
  have hLap : ((2 ^ w : Nat) : Int) * lap w n + ((n + 2 ^ (w - 1)) % 2 ^ w : Nat) = n +
      (2 ^ (w - 1) : Nat) := by
    exact_mod_cast hSplit
  apply Int.bmod_eq_of_le <;> omega

/-- In one lap the subtraction is that of the counters. -/
theorem faithful_of_lap_eq (hw : 0 < w) (hLe : a ≤ b) (hClose : b ≤ a + 2 ^ (w - 1))
    (hLap : lap w a = lap w b) : Faithful (BitVec.ofNat w a) (BitVec.ofNat w b) a b := by
  have hDiff : (BitVec.ofNat w a).toInt - (BitVec.ofNat w b).toInt = (a : Int) - b := by
    rw [toInt_eq hw, toInt_eq hw, hLap]
    ring
  have hCast : (2 : Int) ^ (w - 1) = ((2 ^ (w - 1) : Nat) : Int) := by norm_cast
  have hPos : 0 < 2 ^ (w - 1) := Nat.two_pow_pos _
  constructor
  · rw [BitVec.ssubOverflow, hDiff, Bool.or_eq_false_iff, decide_eq_false_iff_not,
      decide_eq_false_iff_not, hCast]
    omega
  all_goals
    rw [hDiff]
    omega

/-- Across the end of a lap it overflows. -/
theorem overflow_of_lap_ne (hw : 0 < w) (hLe : a ≤ b) (hClose : b ≤ a + 2 ^ (w - 1))
    (hLap : lap w a ≠ lap w b) : (BitVec.ofNat w a).ssubOverflow (BitVec.ofNat w b) = true := by
  have hLt : lap w a + 1 ≤ lap w b := Nat.lt_of_le_of_ne (lap_mono hLe) hLap
  have hPow := two_pow_eq hw
  have hMul : ((2 ^ w : Nat) : Int) * (lap w a + 1) ≤ ((2 ^ w : Nat) : Int) * lap w b :=
    Int.mul_le_mul_of_nonneg_left (by exact_mod_cast hLt) (Int.natCast_nonneg _)
  have hCast : (2 : Int) ^ (w - 1) = ((2 ^ (w - 1) : Nat) : Int) := by norm_cast
  rw [BitVec.ssubOverflow, Bool.or_eq_true_iff, decide_eq_true_iff, hCast, toInt_eq hw, toInt_eq hw]
  left
  rw [mul_add, mul_one] at hMul
  omega

theorem faithful_iff (hw : 0 < w) (hLe : a ≤ b) (hClose : b ≤ a + 2 ^ (w - 1)) :
    Faithful (BitVec.ofNat w a) (BitVec.ofNat w b) a b ↔ lap w a = lap w b := by
  constructor
  · intro h
    by_contra hLap
    exact absurd (overflow_of_lap_ne hw hLe hClose hLap) (by rw [h.fits]; decide)
  · exact faithful_of_lap_eq hw hLe hClose

/-- The last counter of a lap is one below the sign bit. -/
theorem lap_ne_of_half (hw : 0 < w) : lap w (2 ^ (w - 1) - 1) ≠ lap w (2 ^ (w - 1) - 1 + 1) := by
  have hPow := two_pow_eq hw
  have hPos : 0 < 2 ^ (w - 1) := Nat.two_pow_pos _
  have hBefore : lap w (2 ^ (w - 1) - 1) = 0 := Nat.div_eq_of_lt (by omega)
  have hAfter : lap w (2 ^ (w - 1) - 1 + 1) = 1 := by
    rw [lap, Nat.sub_add_cancel hPos, show 2 ^ (w - 1) + 2 ^ (w - 1) = 2 ^ w by omega,
      Nat.div_self (Nat.two_pow_pos w)]
  omega

end SignedWord
