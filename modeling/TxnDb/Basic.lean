import Mathlib.Algebra.Ring.Nat
import Mathlib.Data.List.Sigma
import Mathlib.Order.Nat

/-!
# Keys, values, timestamps and errors

Keys and values are byte strings. A timestamp is a `u64`, here a natural number
whose arithmetic wraps around at `2 ^ 64` (`wrap`); `Timestamp::ZERO`, that of
the empty database, is `0`.
-/

namespace TxnDb

/-- A key: its bytes. -/
abbrev Key := List UInt8

/-- A value: its bytes. -/
abbrev Value := List UInt8

/-- A `u64` sum: it wraps around. -/
def wrap (n : ℕ) : ℕ := n % 2 ^ 64

theorem wrap_of_lt {n : ℕ} (h : n < 2 ^ 64) : wrap n = n := Nat.mod_eq_of_lt h

theorem wrap_lt (n : ℕ) : wrap n < 2 ^ 64 := Nat.mod_lt n (by decide)

/-- An entry of a commit batch: a key, with the value to write, or `none` for a
    tombstone. -/
abbrev WriteEntry := (_ : Key) × Option Value

/-- What can go wrong while running a transaction. -/
inductive TxnError
  /-- A conflict on a key of `keyLen` bytes aborted the commit. -/
  | conflict (keyLen : ℕ)
  /-- The backing store failed. The in-memory store never does. -/
  | store (context detail : String)
  /-- The commit log failed, or a record read back from it was not intact. -/
  | durability (detail : String)
  deriving DecidableEq

/-- Running the transaction again is the right response. -/
def TxnError.isRetryable : TxnError → Bool
  | .conflict _ => true
  | _ => false

/-- The kind of an error. -/
def TxnError.kind : TxnError → String
  | .conflict _ => "Conflict"
  | .store _ _ => "Store"
  | .durability _ => "Durability"

instance decidableEqExcept {ε α : Type*} [DecidableEq ε] [DecidableEq α] :
    DecidableEq (Except ε α)
  | .ok a, .ok b => decidable_of_iff (a = b) ⟨congrArg _, Except.ok.inj⟩
  | .error a, .error b => decidable_of_iff (a = b) ⟨congrArg _, Except.error.inj⟩
  | .ok _, .error _ => isFalse nofun
  | .error _, .ok _ => isFalse nofun

end TxnDb
