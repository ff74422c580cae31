import Mathlib.Data.Nat.Bitwise
import Mathlib.Data.Nat.ModEq

/-! Indices into a ring whose size is a power of two. The size carries the bit
test by which code states that it is one, and a position is reduced to an index
by masking. -/
namespace Ring

/-- A power of two, at least two. -/
structure Size where
  val : Nat
  two_le : 2 ≤ val
  power : val &&& (val - 1) = 0

/-- The bit test leaves only powers of two: halving keeps it, and an odd number
passes it only if it is one. -/
theorem exists_two_pow {n : Nat} (hPos : 0 < n) (h : n &&& (n - 1) = 0) : ∃ k, n = 2 ^ k := by
  induction n using Nat.strongRecOn with
  | _ n ih =>
    have hHalf : n / 2 &&& (n - 1) / 2 = 0 := by rw [← Nat.and_div_two, h]
    rcases Nat.even_or_odd' n with ⟨m, rfl | rfl⟩
    · have hPred : (2 * m - 1) / 2 = m - 1 := by omega
      rw [hPred, Nat.mul_div_cancel_left m (by decide)] at hHalf
      obtain ⟨k, hk⟩ := ih m (by omega) (by omega) hHalf
      exact ⟨k + 1, by rw [hk, Nat.pow_succ, Nat.mul_comm]⟩
    · have hSame : (2 * m + 1) / 2 = m := by omega
      have hPred : (2 * m + 1 - 1) / 2 = m := by omega
      rw [hSame, hPred, Nat.and_self] at hHalf
      exact ⟨0, by rw [hHalf]; rfl⟩

namespace Size

variable (n : Size)

def mask : Nat := n.val - 1

theorem and_mask (p : Nat) : p &&& n.mask = p % n.val := by
  obtain ⟨k, hk⟩ := exists_two_pow (Nat.lt_of_lt_of_le (by decide) n.two_le) n.power
  rw [mask, hk]
  exact Nat.and_two_pow_sub_one_eq_mod p k

/-- The index of a position. -/
def index (p : Nat) : Fin n.val :=
  ⟨p &&& n.mask, by
    rw [n.and_mask]
    exact Nat.mod_lt p (Nat.lt_of_lt_of_le (by decide) n.two_le)⟩

variable {n}

variable {p q : Nat}

theorem index_eq_iff : n.index p = n.index q ↔ p % n.val = q % n.val := by
  rw [index, index, Fin.mk.injEq, n.and_mask, n.and_mask]

/-- Different positions of one index are at least a lap apart. -/
theorem lap_le_of_index_eq (h : n.index p = n.index q) (hLt : p < q) : p + n.val ≤ q := by
  have hDvd : n.val ∣ q - p := (Nat.modEq_iff_dvd' (Nat.le_of_lt hLt)).mp (index_eq_iff.mp h)
  have hLe := Nat.le_of_dvd (Nat.sub_pos_of_lt hLt) hDvd
  omega

/-- Positions less than a lap apart have different indices. -/
theorem index_ne_of_lt (hLt : p < q) (hLap : q < p + n.val) : n.index p ≠ n.index q :=
  fun hEq => Nat.not_le_of_lt hLap (lap_le_of_index_eq hEq hLt)

/-- The index after that of a position is the index of the next position. -/
theorem index_succ (p : Nat) : n.index ((n.index p).val + 1) = n.index (p + 1) := by
  have hIndex : (n.index p).val = p % n.val := n.and_mask p
  rw [index_eq_iff, hIndex, Nat.mod_add_mod]

theorem index_add_lap (p : Nat) : n.index (p + n.val) = n.index p :=
  index_eq_iff.mpr (Nat.add_mod_right p n.val)

theorem index_val (i : Fin n.val) : n.index i.val = i := by
  apply Fin.ext
  exact (n.and_mask i.val).trans (Nat.mod_eq_of_lt i.isLt)

end Size
end Ring
