import Mathlib.Algebra.Group.Nat.Defs
import Mathlib.Data.Fintype.Card

namespace SpicaKernel
set_option autoImplicit true

/-- `find_next_bit` or `find_next_zero_bit` by the value: the first from `size - n` on, or `size`.-/
def findNext (bits : Nat → Bool) (v : Bool) (size : Nat) : Nat → Nat
  | 0 => size
  | n + 1 => if bits (size - (n + 1)) = v then size - (n + 1) else findNext bits v size n

theorem findNext_spec (bits : Nat → Bool) (v : Bool) (h : offset ≤ size) :
    ∃ r, findNext bits v size (size - offset) = r ∧ offset ≤ r ∧ r ≤ size ∧
      (r < size → bits r = v) ∧ ∀ i, offset ≤ i → i < r → bits i = !v := by
  generalize hn : size - offset = n
  induction n generalizing offset with
  | zero => exact ⟨size, rfl, h, Nat.le_refl _, fun _ => by omega, fun i hi hi' => by omega⟩
  | succ n ih =>
    rw [findNext, show size - (n + 1) = offset by omega]
    split
    next hv => exact ⟨offset, rfl, Nat.le_refl _, h, fun _ => hv, fun i hi hi' => by omega⟩
    next hv =>
      obtain ⟨r, he, hle, hle', hbit, hskip⟩ := @ih (offset + 1) (by omega) (by omega)
      refine ⟨r, he, by omega, hle', hbit, fun i hi hi' => ?_⟩
      obtain rfl | hlt := Nat.eq_or_lt_of_le hi
      · exact Bool.eq_not.mpr hv
      · exact hskip i hlt hi'

namespace Scan
open List

/-- What a partial map holds from one place up to another, in order. -/
def between (f : Nat → Option α) (a b : Nat) : List α := (range' a (b - a)).filterMap f

variable {f g : Nat → Option α}

theorem between_self (f : Nat → Option α) (a : Nat) : between f a a = [] := by
  simp [between]

theorem between_append (hab : a ≤ b) (hbc : b ≤ c) :
    between f a c = between f a b ++ between f b c := by
  obtain ⟨k, rfl⟩ := Nat.exists_eq_add_of_le hab
  obtain ⟨l, rfl⟩ := Nat.exists_eq_add_of_le hbc
  rw [between, between, between, ← filterMap_append, Nat.add_sub_cancel_left,
    Nat.add_sub_cancel_left, range'_append_1, Nat.add_assoc, Nat.add_sub_cancel_left]

theorem between_succ (f : Nat → Option α) (a : Nat) : between f a (a + 1) = (f a).toList := by
  rw [between]
  cases h : f a <;> simp [h]

theorem between_congr (h : ∀ i, a ≤ i → i < b → f i = g i) : between f a b = between g a b := by
  refine filterMap_congr fun i hi => ?_
  rw [mem_range'_1] at hi
  exact h i hi.1 (by omega)

theorem between_eq_nil (h : ∀ i, a ≤ i → i < b → f i = none) : between f a b = [] := by
  rw [between_congr (g := fun _ => none) h]
  exact filterMap_eq_nil_iff.mpr fun _ _ => rfl

theorem map_between (g : α → β) (f : Nat → Option α) (a b : Nat) :
    (between f a b).map g = between (fun i => (f i).map g) a b := by
  rw [between, between, map_filterMap]

structure Part (f : Nat → Option α) (a most : Nat) (found : List α) (next : Nat) : Prop where
  lt : a < next
  short : found.length ≤ most
  eq : found = between f a next

theorem Part.skip {next : Nat} (h : Part f b most found next) (hab : a ≤ b)
    (hnone : ∀ i, a ≤ i → i < b → f i = none) : Part f a most found next := by
  refine ⟨Nat.lt_of_le_of_lt hab h.lt, h.short, ?_⟩
  rw [between_append hab (Nat.le_of_lt h.lt), between_eq_nil hnone]
  exact h.eq

theorem Part.congr {next : Nat} (h : Part f a most found next)
    (hfg : ∀ i, a ≤ i → i < next → g i = f i) :
    Part g a most found next :=
  ⟨h.lt, h.short, h.eq.trans (between_congr hfg).symm⟩

theorem Part.nothing (hab : a < b) (hnone : ∀ i, a ≤ i → i < b → f i = none) : Part f a most [] b :=
  ⟨hab, Nat.zero_le _, (between_eq_nil hnone).symm⟩

theorem find_from (p : Fin n → Bool) (k : Nat) :
    (((finRange n).drop k).find? p = none ∧ ∀ m : Fin n, k ≤ m → p m = false) ∨
      ∃ m : Fin n, ((finRange n).drop k).find? p = some m ∧ k ≤ m ∧ p m = true ∧
        ∀ j : Fin n, k ≤ j → j < m → p j = false := by
  by_cases hk : k < n
  · have hcons : (finRange n).drop k = ⟨k, hk⟩ :: (finRange n).drop (k + 1) := by
      rw [drop_eq_getElem_cons (by simpa using hk)]
      simp
    rw [hcons]
    cases hp : p ⟨k, hk⟩ with
    | true =>
      refine .inr ⟨⟨k, hk⟩, find?_cons_of_pos hp, Nat.le_refl k, hp, fun j hj hj' => ?_⟩
      exact absurd hj (Nat.not_le.mpr hj')
    | false =>
      have hskip : ∀ j : Fin n, k ≤ j → (j : Nat) ≠ k → k + 1 ≤ j := fun j hj hne => by omega
      rw [find?_cons_of_neg (by simp [hp])]
      rcases find_from p (k + 1) with ⟨hf, hnone⟩ | ⟨m, hf, hkm, hm, hfirst⟩
      · refine .inl ⟨hf, fun j hj => ?_⟩
        by_cases hjk : (j : Nat) = k
        · rwa [show j = ⟨k, hk⟩ from Fin.ext hjk]
        · exact hnone j (hskip j hj hjk)
      · refine .inr ⟨m, hf, Nat.le_of_succ_le hkm, hm, fun j hj hj' => ?_⟩
        by_cases hjk : (j : Nat) = k
        · rwa [show j = ⟨k, hk⟩ from Fin.ext hjk]
        · exact hfirst j (hskip j hj hjk) hj'
  · refine .inl ⟨?_, fun m hm => absurd (Nat.lt_of_le_of_lt hm m.isLt) hk⟩
    rw [drop_of_length_le (by simpa using hk)]
    rfl
termination_by n - k

end Scan

namespace Tally
open Function

variable {ι α : Type} [Fintype ι]

/-- How many places of a table hold a value that counts. -/
def tally (p : α → Bool) (f : ι → α) : Nat := (Finset.univ.filter fun i => p (f i)).card

variable {p : α → Bool} {f : ι → α} {i j : ι}

theorem tally_eq_zero : tally p f = 0 ↔ ∀ i, p (f i) = false := by
  simp [tally]

theorem tally_eq_card : tally p f = Fintype.card ι ↔ ∀ i, p (f i) = true := by
  rw [tally, Finset.card_eq_iff_eq_univ]
  simp

theorem eq_of_tally_eq_one (h : tally p f = 1) (hi : p (f i)) (hj : p (f j)) : i = j :=
  Finset.card_le_one.mp (Nat.le_of_eq h) i (by simp [hi]) j (by simp [hj])

variable [DecidableEq ι]

theorem tally_update_same (h : p v = p (f i)) : tally p (update f i v) = tally p f := by
  refine congrArg Finset.card (Finset.filter_congr fun j _ => ?_)
  by_cases hj : j = i
  · rw [hj, update_self, h]
  · rw [update_of_ne hj]

theorem tally_update_fill (h : p (f i) = false) (hv : p v) :
    tally p (update f i v) = tally p f + 1 := by
  have hset : (Finset.univ.filter fun j => p (update f i v j)) =
      insert i (Finset.univ.filter fun j => p (f j)) := by
    ext j
    by_cases hj : j = i
    · simp [hj, hv]
    · simp [hj]
  rw [tally, hset, Finset.card_insert_of_notMem (by simp [h]), tally]

theorem tally_update_clear (h : p (f i)) (hv : p v = false) :
    tally p (update f i v) + 1 = tally p f := by
  have hclear : p (update f i v i) = false := by rwa [update_self]
  rw [← tally_update_fill hclear h, update_idem, update_eq_self]

end Tally

end SpicaKernel
