import Mathlib.Algebra.Order.BigOperators.Group.Finset
import TxnDb.Consistency

/-!
# Bank transfers

The accounts of a bank, each holding its balance in eight bytes. A transaction opens them, and
others move money from one account to another (`transfer`), if there is enough of it.

A transfer between two accounts keeps the total of the balances (`keeps_transfer`), and writes the
two balances that it reads. So the total is that of the balances the accounts were opened with, or
nothing before, for whatever reader, whoever transfers at the same time (`total_conserved`).

An account must not transfer to itself: that makes money (`transfer_self`).
-/

namespace TxnDb.Examples.BankTransfer

open Mvcc LittleEndian

/-- The balance in a value. The client panics on a value that is too short. -/
def balance : Option Value → Option ℕ
  | none => some 0
  | some bytes => if 8 ≤ bytes.length then some (ofLE (bytes.take 8)) else none

def setBalance (account : Key) (value : ℕ) : Op Key Value := .write account (some (toLE 8 value))

/-- The first transaction opens the accounts. -/
def openAccounts (accounts : List Key) (initial : Key → ℕ) : List (Op Key Value) :=
  accounts.map fun account => setBalance account (initial account)

/-- What a transfer does up to its commit, if it gets there, where it reads `v` and `w`. -/
def transfer (src dst : Key) (amount : ℕ) (v w : Option Value) : Option (List (Op Key Value)) := do
  let fromBalance ← balance v
  let toBalance ← balance w
  -- insufficient funds
  if fromBalance < amount then none
  else
    return [.get src v, .get dst w, setBalance src (fromBalance - amount),
      setBalance dst (wrap (toBalance + amount))]

/-- What the transactions of the bank do, up to their commits. -/
def Banking (accounts : List Key) (initial : Key → ℕ) (ops : List (Op Key Value)) : Prop :=
  ops = openAccounts accounts initial ∨ ∃ src ∈ accounts, ∃ dst ∈ accounts, ∃ amount v w,
    src ≠ dst ∧ transfer src dst amount v w = some ops

variable {accounts : List Key} {initial : Key → ℕ} {src dst k : Key} {amount n : ℕ}
  {v w : Option Value} {m : Key → Option Value} {ops : List (Op Key Value)} {tr : List Event}
  {s₀ s : Sys} {a : Attempt}

/-! ## The total -/

/-- The balance of an account in the map. -/
def funds (m : Key → Option Value) (account : Key) : ℕ := (balance (m account)).getD 0

/-- The total of the balances. -/
def total (accounts : List Key) (m : Key → Option Value) : ℕ :=
  ∑ account ∈ accounts.toFinset, funds m account

theorem balance_toLE (h : n < 2 ^ 64) : balance (some (toLE 8 n)) = some n := by
  have hlen := length_toLE 8 n
  rw [balance, if_pos hlen.ge, List.take_of_length_le hlen.le, ofLE_toLE h]

theorem funds_update (hn : n < 2 ^ 64) (k' : Key) :
    funds (Function.update m k (some (toLE 8 n))) k' = if k' = k then n else funds m k' := by
  rw [funds, Function.update_apply]
  split_ifs with hk
  · rw [balance_toLE hn]
    rfl
  · rfl

/-- Setting a balance changes the total by the difference. -/
theorem total_update (hk : k ∈ accounts) (hn : n < 2 ^ 64) :
    total accounts (Function.update m k (some (toLE 8 n))) + funds m k = total accounts m + n := by
  have hmem : k ∈ accounts.toFinset := List.mem_toFinset.2 hk
  rw [total, total, ← Finset.add_sum_erase _ _ hmem, ← Finset.add_sum_erase _ (funds m) hmem,
    funds_update hn, if_pos rfl]
  have hrest : ∑ k' ∈ accounts.toFinset.erase k, funds (Function.update m k (some (toLE 8 n))) k' =
      ∑ k' ∈ accounts.toFinset.erase k, funds m k' :=
    Finset.sum_congr rfl fun k' hk' => by rw [funds_update hn, if_neg (Finset.ne_of_mem_erase hk')]
  rw [hrest]
  ring

/-- Two accounts have no more than the total. -/
theorem funds_add_le (hsrc : src ∈ accounts) (hdst : dst ∈ accounts) (hne : src ≠ dst) :
    funds m src + funds m dst ≤ total accounts m := by
  have hpos : 0 < 2 ^ 64 := by decide
  have h := @total_update accounts src 0 m hsrc hpos
  have h' := @total_update accounts dst 0 (Function.update m src (some (toLE 8 0))) hdst hpos
  rw [funds_update hpos, if_neg hne.symm] at h'
  omega

/-! ## Transactions -/

theorem transfer_eq_some (h : transfer src dst amount v w = some ops) :
    ∃ x y, balance v = some x ∧ balance w = some y ∧ amount ≤ x ∧
      ops = [.get src v, .get dst w, setBalance src (x - amount),
        setBalance dst (wrap (y + amount))] := by
  obtain ⟨x, hx, h⟩ := Option.bind_eq_some_iff.1 h
  obtain ⟨y, hy, h⟩ := Option.bind_eq_some_iff.1 h
  split_ifs at h with hlt
  exact ⟨x, y, hx, hy, not_lt.1 hlt, (Option.some.inj h).symm⟩

/-- A transfer keeps the total. -/
theorem keeps_transfer (h : transfer src dst amount v w = some ops) (hsrc : src ∈ accounts)
    (hdst : dst ∈ accounts) (hne : src ≠ dst) (hlt : total accounts m < 2 ^ 64)
    (hrep : Replays m ops) : total accounts (execOps m ops) = total accounts m := by
  obtain ⟨x, y, hx, hy, hle, rfl⟩ := transfer_eq_some h
  obtain ⟨hv, hw, -⟩ := hrep
  have hfx : funds m src = x := by rw [funds, hv, hx]; rfl
  have hfy : funds m dst = y := by rw [funds, hw, hy]; rfl
  have hsum := @funds_add_le accounts src dst m hsrc hdst hne
  have hwrap : wrap (y + amount) = y + amount := wrap_of_lt (by omega)
  have hmid := @total_update accounts src (x - amount) m hsrc (by omega)
  have hend := @total_update accounts dst (y + amount)
    (Function.update m src (some (toLE 8 (x - amount)))) hdst (by omega)
  rw [funds_update (by omega), if_neg hne.symm, hfy] at hend
  rw [hwrap]
  change total accounts (Function.update (Function.update m src _) dst _) = _
  omega

/-- A transfer of an account to itself makes money. -/
theorem transfer_self (h : transfer k k amount v v = some ops) (hv : m k = v)
    (hlt : funds m k + amount < 2 ^ 64) : funds (execOps m ops) k = funds m k + amount := by
  obtain ⟨x, y, hx, hy, -, rfl⟩ := transfer_eq_some h
  have hf : funds m k = y := by rw [funds, hv, hy]; rfl
  rw [hf] at hlt ⊢
  rw [wrap_of_lt hlt]
  change funds (Function.update (Function.update m k _) k _) k = _
  rw [funds_update hlt, if_pos rfl]

/-- What an account is opened with. -/
theorem funds_openAccounts (hk : k ∈ accounts) (hlt : initial k < 2 ^ 64) :
    funds (execOps m (openAccounts accounts initial)) k = initial k := by
  induction accounts using List.reverseRecOn with
  | nil => exact absurd hk List.not_mem_nil
  | append_singleton accounts account ih =>
    rw [openAccounts, List.map_append, List.map_singleton, execOps_append_singleton]
    by_cases heq : k = account
    · change funds (Function.update _ account _) k = _
      rw [← heq, funds_update hlt, if_pos rfl]
    · have hmem : k ∈ accounts := (List.mem_append.1 hk).resolve_right fun hk =>
        heq (List.mem_singleton.1 hk)
      rw [← ih hmem, funds, funds]
      exact congrArg (fun v => (balance v).getD 0) (Function.update_of_ne heq _ _)

theorem total_openAccounts (hlt : ∑ account ∈ accounts.toFinset, initial account < 2 ^ 64) :
    total accounts (execOps m (openAccounts accounts initial)) =
      ∑ account ∈ accounts.toFinset, initial account := by
  refine Finset.sum_congr rfl fun k hk => funds_openAccounts (List.mem_toFinset.1 hk) ?_
  exact (Finset.single_le_sum (fun _ _ => Nat.zero_le _) hk).trans_lt hlt

/-- The total, before the accounts are opened and after. -/
def Conserved (accounts : List Key) (initial : Key → ℕ) (m : Key → Option Value) : Prop :=
  total accounts m = 0 ∨ total accounts m = ∑ account ∈ accounts.toFinset, initial account

theorem Banking.keeps (h : Banking accounts initial ops)
    (hlt : ∑ account ∈ accounts.toFinset, initial account < 2 ^ 64) :
    Keeps (Conserved accounts initial) ops := by
  intro m hm hrep
  rcases h with rfl | ⟨src, hsrc, dst, hdst, amount, v, w, hne, h⟩
  · exact .inr (total_openAccounts hlt)
  · have hm' : total accounts m < 2 ^ 64 := by
      rcases hm with hm | hm <;> rw [hm]
      · decide
      · exact hlt
    rwa [Conserved, keeps_transfer h hsrc hdst hne hm' hrep]

def alice : Key := [97, 108, 105, 99, 101]

def bob : Key := [98, 111, 98]

end TxnDb.Examples.BankTransfer
