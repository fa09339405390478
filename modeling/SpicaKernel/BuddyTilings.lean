import Mathlib.Data.Nat.Bitwise
import Mathlib.Tactic.Ring

namespace SpicaKernel
set_option autoImplicit true

def InBlock (p o x : Nat) : Prop := p ≤ x ∧ x < p + 2 ^ o

/-- The other half of the block of the next order. -/
def buddyOf (p o : Nat) : Nat := if p / 2 ^ o % 2 = 0 then p + 2 ^ o else p - 2 ^ o

/-- The start of the block of the next order. -/
def parentOf (p o : Nat) : Nat := if p / 2 ^ o % 2 = 0 then p else p - 2 ^ o

theorem inBlock_self (p o : Nat) : InBlock p o p :=
  ⟨Nat.le_refl p, Nat.lt_add_of_pos_right (Nat.two_pow_pos o)⟩

theorem eq_of_inBlock (hp : 2 ^ o ∣ p) (hq : 2 ^ o ∣ q) (h : InBlock q o p) : q = p :=
  Nat.le_antisymm h.1 (Nat.le_of_lt_add_of_dvd h.2 hp hq)

theorem even_or_odd (h : 2 ^ o ∣ p) : (∃ m, p = 2 * (m * 2 ^ o) ∧ p / 2 ^ o % 2 = 0) ∨
      ∃ m, p = 2 * (m * 2 ^ o) + 2 ^ o ∧ p / 2 ^ o % 2 = 1 := by
  obtain ⟨k, rfl⟩ := h
  rw [Nat.mul_div_cancel_left k (Nat.two_pow_pos o)]
  rcases Nat.mod_two_eq_zero_or_one k with hk | hk
  · refine .inl ⟨k / 2, ?_, hk⟩
    obtain ⟨m, rfl⟩ : ∃ m, k = 2 * m := ⟨k / 2, by omega⟩
    rw [Nat.mul_div_cancel_left m (by decide)]
    ring
  · refine .inr ⟨k / 2, ?_, hk⟩
    obtain ⟨m, rfl⟩ : ∃ m, k = 2 * m + 1 := ⟨k / 2, by omega⟩
    have hm : (2 * m + 1) / 2 = m := by omega
    rw [hm]
    ring

theorem double_div (m o : Nat) : 2 * (m * 2 ^ o) / 2 ^ o % 2 = 0 := by
  rw [← Nat.mul_assoc, Nat.mul_div_cancel _ (Nat.two_pow_pos o)]
  omega

theorem double_succ_div (m o : Nat) : (2 * (m * 2 ^ o) + 2 ^ o) / 2 ^ o % 2 = 1 := by
  rw [← Nat.mul_assoc, Nat.add_div_right _ (Nat.two_pow_pos o),
    Nat.mul_div_cancel _ (Nat.two_pow_pos o)]
  omega

section Aligned

variable (h : 2 ^ o ∣ p)
include h

theorem parentOf_aligned : 2 ^ (o + 1) ∣ parentOf p o := by
  rcases even_or_odd h with ⟨m, hp, hm⟩ | ⟨m, hp, hm⟩
  · rw [parentOf, if_pos hm, hp]
    exact ⟨m, by ring⟩
  · rw [parentOf, if_neg (by omega), hp, Nat.add_sub_cancel]
    exact ⟨m, by ring⟩

theorem buddyOf_buddyOf : buddyOf (buddyOf p o) o = p := by
  rcases even_or_odd h with ⟨m, hp, hm⟩ | ⟨m, hp, hm⟩
  · have hb : buddyOf p o = 2 * (m * 2 ^ o) + 2 ^ o := by rw [buddyOf, if_pos hm, hp]
    have hd := double_succ_div m o
    rw [hb, buddyOf, if_neg (by omega), hp, Nat.add_sub_cancel]
  · have hb : buddyOf p o = 2 * (m * 2 ^ o) := by
      rw [buddyOf, if_neg (by omega), hp, Nat.add_sub_cancel]
    rw [hb, buddyOf, if_pos (double_div m o), hp]

theorem buddyOf_ne : buddyOf p o ≠ p := by
  rcases even_or_odd h with ⟨m, hp, hm⟩ | ⟨m, hp, hm⟩
  · rw [buddyOf, if_pos hm]
    omega
  · rw [buddyOf, if_neg (by omega)]
    omega

theorem inBlock_parentOf :
    InBlock (parentOf p o) (o + 1) x ↔ InBlock p o x ∨ InBlock (buddyOf p o) o x := by
  have hsucc : 2 ^ (o + 1) = 2 ^ o + 2 ^ o := by ring
  unfold InBlock
  rcases even_or_odd h with ⟨m, hp, hm⟩ | ⟨m, hp, hm⟩
  · rw [parentOf, buddyOf, if_pos hm, if_pos hm]
    omega
  · rw [parentOf, buddyOf, if_neg (by omega), if_neg (by omega)]
    omega

end Aligned

theorem buddyOf_upper (h : 2 ^ (o + 1) ∣ p) : buddyOf (p + 2 ^ o) o = p := by
  obtain ⟨m, rfl⟩ := h
  have he : 2 ^ (o + 1) * m + 2 ^ o = 2 * (m * 2 ^ o) + 2 ^ o := by ring
  have hd := double_succ_div m o
  rw [he, buddyOf, if_neg (by omega), Nat.add_sub_cancel]
  ring

theorem inBlock_halves : InBlock p (o + 1) x ↔ InBlock p o x ∨ InBlock (p + 2 ^ o) o x := by
  have hsucc : 2 ^ (o + 1) = 2 ^ o + 2 ^ o := by ring
  unfold InBlock
  omega

theorem xor_two_pow (h : 2 ^ o ∣ p) : p ^^^ 1 <<< o = buddyOf p o := by
  obtain ⟨k, rfl⟩ := h
  have hk : 2 ^ o * k = k <<< o := by rw [Nat.shiftLeft_eq, Nat.mul_comm]
  rw [buddyOf, Nat.mul_div_cancel_left k (Nat.two_pow_pos o), hk, ← Nat.shiftLeft_xor_distrib]
  split
  · rename_i he
    rw [Nat.xor_one_of_even (Nat.even_iff.mpr he), Nat.shiftLeft_eq, Nat.shiftLeft_eq]
    ring
  · rename_i ho
    rw [Nat.xor_one_of_odd (Nat.odd_iff.mpr (by omega)), Nat.shiftLeft_eq, Nat.shiftLeft_eq,
      Nat.sub_mul, Nat.one_mul]

theorem ldiff_one (k : Nat) : Nat.ldiff k 1 = k - k % 2 := by
  have hzero : ∀ m, Nat.ldiff m 0 = m := by
    intro m
    apply Nat.eq_of_testBit_eq
    simp [Nat.testBit_ldiff]
  rcases Nat.mod_two_eq_zero_or_one k with hk | hk
  · obtain ⟨m, rfl⟩ : ∃ m, k = 2 * m := ⟨k / 2, by omega⟩
    have hbit := Nat.ldiff_bit false m true 0
    simp only [hzero] at hbit
    rw [hk]
    exact hbit
  · obtain ⟨m, rfl⟩ : ∃ m, k = 2 * m + 1 := ⟨k / 2, by omega⟩
    have hbit := Nat.ldiff_bit true m true 0
    simp only [hzero] at hbit
    rw [hk]
    exact hbit

theorem ldiff_two_pow (h : 2 ^ o ∣ p) : Nat.ldiff p (1 <<< o) = parentOf p o := by
  obtain ⟨k, rfl⟩ := h
  have hk : 2 ^ o * k = k <<< o := by rw [Nat.shiftLeft_eq, Nat.mul_comm]
  have hshift : Nat.ldiff (k <<< o) (1 <<< o) = Nat.ldiff k 1 <<< o := by
    apply Nat.eq_of_testBit_eq
    intro i
    simp only [Nat.testBit_ldiff, Nat.testBit_shiftLeft]
    cases decide (i ≥ o) <;> simp
  rw [parentOf, Nat.mul_div_cancel_left k (Nat.two_pow_pos o), hk, hshift, ldiff_one]
  split
  · rename_i he
    rw [he, Nat.sub_zero]
  · rename_i ho
    have ho : k % 2 = 1 := by omega
    rw [ho, Nat.shiftLeft_eq, Nat.shiftLeft_eq, Nat.sub_mul, Nat.one_mul]

/-- Free blocks and held places make up a space, with no two free buddies below the top order. -/
structure Tiling (top : Nat) (Space : Nat → Prop) (Free : Nat → Nat → Prop) (Held : Nat → Prop) :
    Prop where
  order_lt : Free p o → o < top
  aligned : Free p o → 2 ^ o ∣ p
  disjoint : Free p o → Free q n → InBlock p o x → InBlock q n x → p = q ∧ o = n
  unpaired : Free p o → o + 1 < top → ¬ Free (buddyOf p o) o
  space : Space x ↔ Held x ∨ ∃ p o, Free p o ∧ InBlock p o x
  apart : Held x → Free p o → ¬ InBlock p o x

namespace Tiling

theorem congr (h : Tiling top Space Free Held) (hf : ∀ p o, Free' p o ↔ Free p o)
    (hh : ∀ x, Held' x ↔ Held x) : Tiling top Space Free' Held' := by
  obtain rfl : Free' = Free := by
    funext p o
    exact propext (hf p o)
  obtain rfl : Held' = Held := funext fun x => propext (hh x)
  exact h

theorem take (h : Tiling top Space Free Held) (hp : Free p o) :
    Tiling top Space (fun q n => Free q n ∧ ¬ (q = p ∧ n = o))
      (fun x => Held x ∨ InBlock p o x) where
  order_lt hq := h.order_lt hq.1
  aligned hq := h.aligned hq.1
  disjoint hq hr := h.disjoint hq.1 hr.1
  unpaired hq hlt hb := h.unpaired hq.1 hlt hb.1
  space := by
    intro x
    rw [h.space]
    constructor
    · rintro (hx | ⟨q, n, hq, hx⟩)
      · exact .inl (.inl hx)
      · by_cases he : q = p ∧ n = o
        · obtain ⟨rfl, rfl⟩ := he
          exact .inl (.inr hx)
        · exact .inr ⟨q, n, ⟨hq, he⟩, hx⟩
    · rintro ((hx | hx) | ⟨q, n, hq, hx⟩)
      · exact .inl hx
      · exact .inr ⟨p, o, hp, hx⟩
      · exact .inr ⟨q, n, hq.1, hx⟩
  apart := by
    rintro x q n (hx | hx) hq hxq
    · exact h.apart hx hq.1 hxq
    · obtain ⟨rfl, rfl⟩ := h.disjoint hq.1 hp hxq hx
      exact hq.2 ⟨rfl, rfl⟩

theorem put (h : Tiling top Space Free Held) (ho : o < top) (ha : 2 ^ o ∣ p)
    (hheld : ∀ x, InBlock p o x → Held x) (hb : o + 1 < top → ¬ Free (buddyOf p o) o) :
    Tiling top Space (fun q n => Free q n ∨ (q = p ∧ n = o))
      (fun x => Held x ∧ ¬ InBlock p o x) where
  order_lt := by
    rintro q n (hq | ⟨rfl, rfl⟩)
    · exact h.order_lt hq
    · exact ho
  aligned := by
    rintro q n (hq | ⟨rfl, rfl⟩)
    · exact h.aligned hq
    · exact ha
  disjoint := by
    rintro q n r m x (hq | ⟨rfl, rfl⟩) (hr | ⟨rfl, rfl⟩) hxq hxr
    · exact h.disjoint hq hr hxq hxr
    · exact absurd hxq (h.apart (hheld x hxr) hq)
    · exact absurd hxr (h.apart (hheld x hxq) hr)
    · exact ⟨rfl, rfl⟩
  unpaired := by
    rintro q n (hq | ⟨rfl, rfl⟩) hlt (hbq | ⟨hbq, hn⟩)
    · exact h.unpaired hq hlt hbq
    · -- the new block is the buddy of a free one, so that one is its buddy
      subst hn
      apply hb hlt
      rw [← hbq, buddyOf_buddyOf (h.aligned hq)]
      exact hq
    · exact hb hlt hbq
    · exact buddyOf_ne ha hbq
  space := by
    intro x
    rw [h.space]
    constructor
    · rintro (hx | ⟨q, n, hq, hx⟩)
      · by_cases hin : InBlock p o x
        · exact .inr ⟨p, o, .inr ⟨rfl, rfl⟩, hin⟩
        · exact .inl ⟨hx, hin⟩
      · exact .inr ⟨q, n, .inl hq, hx⟩
    · rintro (hx | ⟨q, n, hq | ⟨rfl, rfl⟩, hx⟩)
      · exact .inl hx.1
      · exact .inr ⟨q, n, hq, hx⟩
      · exact .inl (hheld x hx)
  apart := by
    rintro x q n hx (hq | ⟨rfl, rfl⟩)
    · exact h.apart hx.1 hq
    · exact hx.2

/-- A block without held places is inside of a free one. -/
theorem contained (h : Tiling top Space Free Held) (ho : o < top) (hp : 2 ^ o ∣ p)
    (hin : ∀ x, InBlock p o x → Space x ∧ ¬ Held x) :
    ∃ q n, Free q n ∧ o ≤ n ∧ InBlock q n p := by
  induction o generalizing p with
  | zero =>
    obtain ⟨hspace, hnot⟩ := hin p (inBlock_self p 0)
    obtain ⟨q, n, hq, hx⟩ := (h.space.mp hspace).resolve_left hnot
    exact ⟨q, n, hq, Nat.zero_le n, hx⟩
  | succ o ih =>
    have hlow : 2 ^ o ∣ p := Nat.dvd_trans (Nat.pow_dvd_pow 2 (Nat.le_succ o)) hp
    have hhigh : 2 ^ o ∣ p + 2 ^ o := Nat.dvd_add hlow (Nat.dvd_refl _)
    obtain ⟨q, n, hq, hn, hx⟩ := ih (Nat.lt_of_succ_lt ho) hlow fun x hx =>
      hin x (inBlock_halves.mpr (.inl hx))
    obtain ⟨r, m, hr, hm, hy⟩ := ih (Nat.lt_of_succ_lt ho) hhigh fun x hx =>
      hin x (inBlock_halves.mpr (.inr hx))
    rcases Nat.lt_or_eq_of_le hn with hn | rfl
    · exact ⟨q, n, hq, hn, hx⟩
    rcases Nat.lt_or_eq_of_le hm with hm | rfl
    · have hr' := Nat.dvd_trans (Nat.pow_dvd_pow 2 hm) (h.aligned hr)
      have hlt := Nat.pow_lt_pow_right Nat.one_lt_two (Nat.lt_succ_self o)
      have hle : r ≤ p := Nat.le_of_lt_add_of_dvd (by have := hy.1; omega) hr' hp
      exact ⟨r, m, hr, hm, hle, Nat.lt_of_le_of_lt (Nat.le_add_right p _) hy.2⟩
    -- both halves are free, though they are buddies
    obtain rfl := eq_of_inBlock hlow (h.aligned hq) hx
    obtain rfl := eq_of_inBlock hhigh (h.aligned hr) hy
    exact (h.unpaired hr ho (by rwa [buddyOf_upper hp])).elim

end Tiling

end SpicaKernel
