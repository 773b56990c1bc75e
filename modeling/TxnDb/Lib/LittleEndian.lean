import Mathlib.Data.List.Basic
import Mathlib.Order.Nat
import Mathlib.Tactic.Ring

/-!
# Little-endian integers

The bytes of an integer, least significant first: `toLE width n` for the
`width` lowest bytes of `n`, and `ofLE` for the integer back. The two are
inverse of each other on integers that fit (`ofLE_toLE`) and on byte strings of
the given width (`toLE_ofLE`).
-/

namespace LittleEndian

/-- The `width` lowest bytes of `n`. -/
def toLE : (width n : ℕ) → List UInt8
  | 0, _ => []
  | width + 1, n => UInt8.ofNat n :: toLE width (n / 256)

/-- The integer of a byte string. -/
def ofLE : List UInt8 → ℕ
  | [] => 0
  | b :: bs => b.toNat + 256 * ofLE bs

@[simp] theorem length_toLE (width n : ℕ) : (toLE width n).length = width := by
  induction width generalizing n with
  | zero => rfl
  | succ width ih => rw [toLE, List.length_cons, ih]

/-- The bytes hold the integer up to their width. -/
theorem ofLE_toLE_mod (width n : ℕ) : ofLE (toLE width n) = n % 256 ^ width := by
  induction width generalizing n with
  | zero => simp [toLE, ofLE, Nat.mod_one]
  | succ width ih =>
    rw [toLE, ofLE, ih, UInt8.toNat_ofNat',
      show 256 ^ (width + 1) = 256 * 256 ^ width from Nat.pow_succ', Nat.mod_mul]

theorem ofLE_toLE {width n : ℕ} (h : n < 256 ^ width) : ofLE (toLE width n) = n := by
  rw [ofLE_toLE_mod, Nat.mod_eq_of_lt h]

theorem toLE_ofLE (bs : List UInt8) : toLE bs.length (ofLE bs) = bs := by
  induction bs with
  | nil => rfl
  | cons b bs ih =>
    have hb := b.toNat_lt
    rw [List.length_cons, ofLE, toLE,
      show (b.toNat + 256 * ofLE bs) / 256 = ofLE bs by omega, ih]
    congr 1
    apply UInt8.toNat_inj.1
    rw [UInt8.toNat_ofNat']
    omega

/-- Only the lowest bytes count. -/
theorem toLE_mod (width n : ℕ) : toLE width (n % 256 ^ width) = toLE width n := by
  conv_rhs => rw [← toLE_ofLE (toLE width n), length_toLE, ofLE_toLE_mod]

theorem ofLE_lt (bs : List UInt8) : ofLE bs < 256 ^ bs.length := by
  have h := ofLE_toLE_mod bs.length (ofLE bs)
  rw [toLE_ofLE] at h
  rw [h]
  exact Nat.mod_lt _ (Nat.pow_pos (by decide))

end LittleEndian
