import Mathlib.Algebra.Group.Int.Defs
import Mathlib.Algebra.Group.Nat.Defs
import Mathlib.Data.Nat.Basic

namespace SpicaKernel
open BitVec
set_option autoImplicit true

/-- A time on a clock of 32 bits that wraps around. -/
abbrev Time := BitVec 32

namespace Time

/-- How many ticks a time lies ahead of another. -/
def ahead (t e : Time) : Nat := (e - t).toNat

/-- The same as a signed number: times in the past have a negative lead. -/
def lead (t e : Time) : Int := (e - t).toInt

def before (a b : Time) : Bool := (a - b).toInt < 0

def beforeEq (a b : Time) : Bool := 0 ≤ (b - a).toInt

theorem ahead_lt (t e : Time) : ahead t e < 2 ^ 32 := (e - t).isLt

theorem ahead_self (t : Time) : ahead t t = 0 := by
  unfold ahead
  bv_omega

theorem ahead_eq_zero : ahead t e = 0 ↔ e = t := by
  unfold ahead
  bv_omega

theorem ahead_succ (h : ahead t e ≠ 0) : ahead (t + 1) e = ahead t e - 1 := by
  unfold ahead at *
  bv_omega

theorem ahead_add : (t.toNat + ahead t e) % 2 ^ 32 = e.toNat := by
  unfold ahead
  bv_omega

theorem start_of_ahead (h : e.toNat % M = ahead t e) : t.toNat = e.toNat - e.toNat % M := by
  have hle := Nat.mod_le e.toNat M
  unfold ahead at *
  bv_omega

theorem lead_eq (t e : Time) :
    lead t e = if ahead t e < 2 ^ 31 then (ahead t e : Int) else ahead t e - 2 ^ 32 := by
  unfold lead ahead
  rw [toInt_eq_toNat_cond]
  split <;> split <;> omega

theorem lead_neg : lead t e < 0 ↔ 2 ^ 31 ≤ ahead t e := by
  have := ahead_lt t e
  rw [lead_eq]
  split <;> omega

theorem lead_lt (t e : Time) : lead t e < 2 ^ 31 := toInt_lt

theorem lead_self (t : Time) : lead t t = 0 := by simp [lead]

theorem lead_of_ahead (h : ahead t e < 2 ^ 31) : lead t e = ahead t e := by
  rw [lead_eq, if_pos h]

theorem lead_add (t : Time) (h : n < 2 ^ 31) : lead t (t + BitVec.ofNat 32 n) = n := by
  have hn : ahead t (t + BitVec.ofNat 32 n) = n := by
    unfold ahead
    bv_omega
  rw [lead_of_ahead (by omega), hn]

theorem lead_inj (h : lead t a = lead t b) : a = b := by
  have hsub : a - t = b - t := eq_of_toInt_eq h
  bv_omega

theorem lead_sub (t : Time) (h₁ : -2 ^ 31 ≤ lead t a - lead t b)
    (h₂ : lead t a - lead t b < 2 ^ 31) : lead b a = lead t a - lead t b := by
  have hsub : a - b = (a - t) - (b - t) := by bv_omega
  unfold lead at *
  rw [hsub, toInt_sub, Int.bmod_eq_of_le (by omega) (by omega)]

theorem before_iff (t : Time) (h₁ : -2 ^ 31 ≤ lead t a - lead t b)
    (h₂ : lead t a - lead t b < 2 ^ 31) : before a b = true ↔ lead t a < lead t b := by
  have hlead : before a b = true ↔ lead b a < 0 := by simp [before, lead]
  rw [hlead, lead_sub t h₁ h₂]
  omega

theorem beforeEq_iff (h : -2 ^ 31 < lead t e) : beforeEq e t = true ↔ lead t e ≤ 0 := by
  have hlead : beforeEq e t = true ↔ 0 ≤ lead e t := by simp [beforeEq, lead]
  have hlt := lead_lt t e
  have hself := lead_self t
  rw [hlead, lead_sub t (by omega) (by omega)]
  omega

theorem lead_succ (h : -2 ^ 31 < lead t e) : lead (t + 1) e = lead t e - 1 := by
  have hone : lead t (t + 1) = 1 := lead_add t (n := 1) (by decide)
  have hlt := lead_lt t e
  rw [lead_sub t (by omega) (by omega), hone]

end Time

end SpicaKernel
