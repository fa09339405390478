import Mathlib.Tactic.Linarith
import Mathlib.Tactic.LinearCombination
import Mathlib.Tactic.Positivity
import Mathlib.Tactic.Ring

namespace SpicaKernel.Rational
set_option autoImplicit true

/-- The loop of `rational_best_approximation`. -/
def approximate (maxN maxD n d n0 d0 n1 d1 : Nat) : Nat × Nat :=
  if maxN < n1 ∨ maxD < d1 then (n0, d0)
  else if h : d = 0 then (n1, d1)
  else approximate maxN maxD d (n % d) n1 d1 ((n0 + n / d * n1) % 2 ^ 32)
    ((d0 + n / d * d1) % 2 ^ 32)
termination_by d
decreasing_by exact Nat.mod_lt n (Nat.pos_of_ne_zero h)

def rationalBestApproximation (givenN givenD maxN maxD : Nat) : Nat × Nat :=
  approximate maxN maxD givenN givenD 0 1 1 0

/-- The first fraction is closer to `N / D` than the second. -/
def Closer (N D : Nat) (f g : Nat × Nat) : Prop :=
  |(f.1 / f.2 : ℚ) - N / D| < |(g.1 / g.2 : ℚ) - N / D|

/-- Neighbours of each other in a Farey sequence. -/
def Adjacent (f g : Nat × Nat) : Prop := f.1 * g.2 = g.1 * f.2 + 1 ∨ g.1 * f.2 = f.1 * g.2 + 1

def Fits (maxN maxD : Nat) (f : Nat × Nat) : Prop := f.1 ≤ maxN ∧ 1 ≤ f.2 ∧ f.2 ≤ maxD

theorem closer_iff (hD : 0 < D) (he : 0 < e) (hq : 0 < q) : Closer N D (m, e) (p, q) ↔
    |(m * D - N * e : Int)| * q < |(p * D - N * q : Int)| * e := by
  have hscale (a : Nat) {b : Nat} (hb : 0 < b) :
      |(a / b : ℚ) - N / D| = (|(a * D - N * b : Int)| : Int) / b / D := by
    have hb' : (0 : ℚ) < b := by exact_mod_cast hb
    have hD' : (0 : ℚ) < D := by exact_mod_cast hD
    rw [div_sub_div _ _ hb'.ne' hD'.ne', abs_div, abs_of_pos (mul_pos hb' hD'), div_div]
    push_cast
    rw [mul_comm (b : ℚ) N]
  rw [Closer, hscale m he, hscale p hq, div_lt_div_iff_of_pos_right (by exact_mod_cast hD),
    div_lt_div_iff₀ (by exact_mod_cast he) (by exact_mod_cast hq)]
  exact_mod_cast Iff.rfl

theorem Adjacent.mediant (h : Adjacent (p, q) (p', q')) (k : Nat) :
    Adjacent (p' + k * p, q' + k * q) (p, q) := by
  have hl : (p' + k * p) * q = p' * q + k * (p * q) := by ring
  have hr : p * (q' + k * q) = p * q' + k * (p * q) := by ring
  simp only [Adjacent] at h ⊢
  omega

/-- The two last convergents and the remainders of the division. -/
structure Convergents (N D n d n0 d0 n1 d1 : Nat) : Prop where
  num : N = n1 * n + n0 * d
  den : D = d1 * n + d0 * d
  adjacent : Adjacent (n1, d1) (n0, d0)

theorem Convergents.next (h : Convergents N D n d n0 d0 n1 d1) :
    Convergents N D d (n % d) n1 d1 (n0 + n / d * n1) (d0 + n / d * d1) := by
  have hdiv := Nat.div_add_mod n d
  refine ⟨?_, ?_, h.adjacent.mediant (n / d)⟩
  · rw [h.num]
    nth_rewrite 1 [← hdiv]
    ring
  · rw [h.den]
    nth_rewrite 1 [← hdiv]
    ring

theorem Convergents.le (h : Convergents N D n d n0 d0 n1 d1) (hn : 0 < n) : n1 ≤ N ∧ d1 ≤ D := by
  rw [h.num, h.den]
  exact ⟨Nat.le_add_right_of_le (Nat.le_mul_of_pos_right n1 hn),
    Nat.le_add_right_of_le (Nat.le_mul_of_pos_right d1 hn)⟩

section
variable (h : Convergents N D n d p' q' p q)
include h

/-- A fraction is told by its coordinates for the last two convergents. -/
theorem Convergents.distance (u v : Int) :
    |(p * u + p' * v) * D - N * (q * u + q' * v)| = |d * u - n * v| := by
  have hsplit : (p * u + p' * v) * D - N * (q * u + q' * v) =
      (p * q' - p' * q) * (d * u - n * v) := by
    rw [h.num, h.den]
    push_cast
    ring
  have hadj := h.adjacent
  simp only [Adjacent] at hadj
  rw [hsplit, abs_mul]
  rcases hadj with hadj | hadj
  · rw [show (p * q' - p' * q : Int) = 1 by omega, abs_one, one_mul]
  · rw [show (p * q' - p' * q : Int) = -1 by omega, abs_neg, abs_one, one_mul]

theorem Convergents.distance_last :
    |(p * D - N * q : Int)| = d := by
  have hself := h.distance 1 0
  simpa only [mul_one, mul_zero, add_zero, sub_zero, Nat.abs_cast] using hself

theorem Convergents.coordinates (m e : Int) :
    ∃ u v, m = p * u + p' * v ∧ e = q * u + q' * v := by
  have hadj := h.adjacent
  simp only [Adjacent] at hadj
  rcases hadj with hadj | hadj
  · have hdet : (p * q' - p' * q : Int) = 1 := by omega
    exact ⟨m * q' - e * p', e * p - m * q, by linear_combination -m * hdet,
      by linear_combination -e * hdet⟩
  · have hdet : (p * q' - p' * q : Int) = -1 := by omega
    exact ⟨e * p' - m * q', m * q - e * p, by linear_combination m * hdet,
      by linear_combination e * hdet⟩

theorem Convergents.pos (hn : 0 < n) (hq : 0 < q) : 0 < D :=
  hq.trans_le (h.le hn).2

/-- A fraction between the last two convergents is on the other side of `N / D` than the last. -/
theorem Convergents.closer_between (hq : 0 < q) (hf : 0 < q' + k * q) (hk : d * k < n) :
    Closer N D (p' + k * p, q' + k * q) (p, q) ↔ n * q < d * q' + 2 * k * (d * q) := by
  have hone : |((p' + k * p : Nat) * D - N * (q' + k * q : Nat) : Int)| = n - d * k := by
    have hneg : (d * k - n * 1 : Int) ≤ 0 := by
      linarith
    have hdist := h.distance k 1
    rw [abs_of_nonpos hneg, mul_one, mul_one, mul_one, neg_sub] at hdist
    push_cast
    rw [add_comm (p' : Int), add_comm (q' : Int), mul_comm (k : Int) p, mul_comm (k : Int) q, hdist]
  rw [closer_iff (h.pos (Nat.zero_lt_of_lt hk) hq) hf hq, hone, h.distance_last]
  zify
  constructor <;> intro hlt <;> linarith

omit h in
theorem between_lt (hout : maxN < p' + n / d * p ∨ maxD < q' + n / d * q)
    (hf : Fits maxN maxD (p' + k * p, q' + k * q)) : d * k < n := by
  by_contra hk
  have hdiv : n / d ≤ k := Nat.div_le_of_le_mul (Nat.not_lt.mp hk)
  have := Nat.mul_le_mul_right p hdiv
  have := Nat.mul_le_mul_right q hdiv
  have := hf.1
  have := hf.2.2
  omega

/-- If a fraction is closer than the last convergent, then so is one between the last two. -/
theorem Convergents.exists_closer (hd : 0 < d) (hle : d ≤ n) (hq : 0 < q) (hq' : q' ≤ q)
    (hf : Fits maxN maxD (m, e)) (hc : Closer N D (m, e) (p, q)) :
    ∃ k, Fits maxN maxD (p' + k * p, q' + k * q) ∧ n * q < d * q' + 2 * k * (d * q) := by
  obtain ⟨u, v, hm, he⟩ := h.coordinates m e
  rw [closer_iff (h.pos (hd.trans_le hle) hq) hf.2.1 hq, h.distance_last, hm, he, h.distance] at hc
  have hslow : (d * q' : Int) ≤ n * q := by exact_mod_cast Nat.mul_le_mul hle hq'
  have hlow := mul_le_mul_of_nonneg_right (le_abs_self (d * u - n * v : Int)) (Int.natCast_nonneg q)
  have hhigh := mul_le_mul_of_nonneg_right (neg_le_abs (d * u - n * v : Int)) (Int.natCast_nonneg q)
  have hv : 0 < v := by
    refine lt_of_mul_lt_mul_left (show (n * q + d * q' : Int) * 0 < _ * v by linarith) ?_
    positivity
  have hkey : (n * q - d * q' : Int) < 2 * (d * q) * u := by
    have := le_mul_of_one_le_right (sub_nonneg.mpr hslow) hv
    linarith
  have hu : 0 < u := by
    refine lt_of_mul_lt_mul_left (show (2 * (d * q) : Int) * 0 < _ * u by linarith) ?_
    positivity
  obtain ⟨k, rfl⟩ := Int.eq_ofNat_of_zero_le hu.le
  have hm' : p' + k * p ≤ m := by
    have := le_mul_of_one_le_right (Int.natCast_nonneg p') hv
    linarith
  have he' : q' + k * q ≤ e := by
    have := le_mul_of_one_le_right (Int.natCast_nonneg q') hv
    linarith
  have hpos : 0 < q' + k * q := Nat.add_pos_right q' (Nat.mul_pos (by exact_mod_cast hu) hq)
  refine ⟨k, ⟨hm'.trans hf.1, hpos, he'.trans hf.2.2⟩, ?_⟩
  zify
  linarith

end

/-- The expansion of `N / D` as a continued fraction, with the remainders `n` and `d` of the
division and the last two convergents `p' / q'` and `p / q`. -/
inductive Expansion (N D : Nat) : Nat → Nat → Nat → Nat → Nat → Nat → Prop where
  | start : Expansion N D N D 0 1 1 0
  | next : Expansion N D n d p' q' p q → 0 < d →
      Expansion N D d (n % d) p q (p' + n / d * p) (q' + n / d * q)

/-- No fraction that fits between the last two convergents that fit is closer than the last. -/
def NoneBetween (N D maxN maxD : Nat) : Prop :=
  ∀ n d p' q' p q k, Expansion N D n d p' q' p q → 0 < d → Fits maxN maxD (p, q) →
    (maxN < p' + n / d * p ∨ maxD < q' + n / d * q) →
      Fits maxN maxD (p' + k * p, q' + k * q) → d * q' + 2 * k * (d * q) ≤ n * q

def Best (N D maxN maxD : Nat) (r : Nat × Nat) : Prop :=
  Fits maxN maxD r ∧ ∀ f, Fits maxN maxD f → ¬ Closer N D f r

theorem Expansion.convergents (h : Expansion N D n d p' q' p q) :
    Convergents N D n d p' q' p q := by
  induction h with
  | start => exact ⟨by omega, by omega, .inl rfl⟩
  | next _ _ ih => exact ih.next

theorem Expansion.grows (h : Expansion N D n d p' q' p q) (hd : 0 < d) :
    p = 1 ∧ q = 0 ∨ p ≤ p' + n / d * p ∧ q ≤ q' + n / d * q := by
  cases h with
  | start => exact .inl ⟨rfl, rfl⟩
  | @next n _ _ _ _ _ _ hd' =>
    have hdiv : 0 < _ / (n % _) := Nat.div_pos (Nat.mod_lt n hd').le hd
    exact .inr ⟨Nat.le_add_left_of_le (Nat.le_mul_of_pos_left _ hdiv),
      Nat.le_add_left_of_le (Nat.le_mul_of_pos_left _ hdiv)⟩

theorem Convergents.approximate_turn (h : Convergents N D n d n0 d0 n1 d1) (hN : N < 2 ^ 32)
    (hD : D < 2 ^ 32) (hd : 0 < d) (hin : ¬ (maxN < n1 ∨ maxD < d1)) :
    approximate maxN maxD n d n0 d0 n1 d1 =
      approximate maxN maxD d (n % d) n1 d1 (n0 + n / d * n1) (d0 + n / d * d1) := by
  have hle := h.next.le hd
  rw [approximate, if_neg hin, dif_neg hd.ne', Nat.mod_eq_of_lt (hle.1.trans_lt hN),
    Nat.mod_eq_of_lt (hle.2.trans_lt hD)]

/-- The loop comes to each state whose convergent is within the bounds. -/
theorem Expansion.reached (h : Expansion N D n d p' q' p q) (hN : N < 2 ^ 32) (hD : D < 2 ^ 32)
    (hmaxN : 1 ≤ maxN) (hp : p ≤ maxN) (hq : q ≤ maxD) :
    rationalBestApproximation N D maxN maxD = approximate maxN maxD n d p' q' p q := by
  induction h with
  | start => rfl
  | @next n d p' q' p q h hd ih =>
    have hin : p ≤ maxN ∧ q ≤ maxD := by
      have := h.grows hd
      omega
    rw [ih hin.1 hin.2, h.convergents.approximate_turn hN hD hd (by omega)]

theorem Expansion.best (h : Expansion N D n d n0 d0 n1 d1) (hN : N < 2 ^ 32) (hD : D < 2 ^ 32)
    (hd : d < n) (hd0 : d0 ≤ d1) (hfit : Fits maxN maxD (n1, d1))
    (hnone : NoneBetween N D maxN maxD) :
    Best N D maxN maxD (approximate maxN maxD n d n0 d0 n1 d1) := by
  induction d using Nat.strong_induction_on generalizing n n0 d0 n1 d1 with
  | _ d ih =>
    have hc := h.convergents
    have hpos := hfit.2.1
    have hin : ¬ (maxN < n1 ∨ maxD < d1) := not_or.mpr ⟨hfit.1.not_gt, hfit.2.2.not_gt⟩
    obtain rfl | h0 := Nat.eq_zero_or_pos d
    · -- the given fraction itself
      rw [approximate, if_neg hin, dif_pos rfl]
      refine ⟨hfit, fun f hf hcloser => ?_⟩
      rw [closer_iff (hc.pos hd hpos) hf.2.1 hpos, hc.distance_last, Nat.cast_zero,
        zero_mul] at hcloser
      exact absurd hcloser (not_lt.mpr (by positivity))
    · rw [hc.approximate_turn hN hD h0 hin]
      by_cases hout : maxN < n0 + n / d * n1 ∨ maxD < d0 + n / d * d1
      · rw [approximate, if_pos hout]
        refine ⟨hfit, fun f hf hcloser => ?_⟩
        obtain ⟨k, hk, hlt⟩ := hc.exists_closer h0 hd.le hpos hd0 hf hcloser
        exact absurd (hnone n d n0 d0 n1 d1 k h h0 hfit hout hk) (Nat.not_le.mpr hlt)
      · obtain ⟨hn, hd'⟩ := not_or.mp hout
        have hgrow : d1 ≤ d0 + n / d * d1 :=
          Nat.le_add_left_of_le (Nat.le_mul_of_pos_left d1 (Nat.div_pos hd.le h0))
        exact ih (n % d) (Nat.mod_lt n h0) (h.next h0) (Nat.mod_lt n h0) hgrow
          ⟨not_lt.mp hn, hpos.trans hgrow, not_lt.mp hd'⟩

/-- The approximation is the best one exactly if the integer part fits and no fraction that fits
between the last two convergents is closer. -/
theorem rational_best_approximation_best (hN : givenN < 2 ^ 32) (hD : givenD < 2 ^ 32)
    (hpos : 1 ≤ givenD) (hmaxN : 1 ≤ maxN) (hmaxD : 1 ≤ maxD) :
    Best givenN givenD maxN maxD (rationalBestApproximation givenN givenD maxN maxD) ↔
      givenN / givenD ≤ maxN ∧ NoneBetween givenN givenD maxN maxD := by
  have hstart : Expansion givenN givenD givenN givenD 0 1 1 0 := .start
  have hturn : rationalBestApproximation givenN givenD maxN maxD = approximate maxN maxD givenD
      (givenN % givenD) 1 0 (0 + givenN / givenD * 1) (1 + givenN / givenD * 0) :=
    hstart.convergents.approximate_turn hN hD hpos (by omega)
  constructor
  · refine fun hbest => ⟨?_, fun n d p' q' p q k h hd hfit hout hk => ?_⟩
    · by_contra hfloor
      rw [hturn, approximate, if_pos (.inl (by omega))] at hbest
      exact absurd hbest.1.2.1 (by decide)
    · rw [h.reached hN hD hmaxN hfit.1 hfit.2.2,
        h.convergents.approximate_turn hN hD hd (not_or.mpr ⟨hfit.1.not_gt, hfit.2.2.not_gt⟩),
        approximate, if_pos hout] at hbest
      have hcloser := hbest.2 _ hk
      rwa [h.convergents.closer_between hfit.2.1 hk.2.1 (between_lt hout hk), Nat.not_lt] at hcloser
  · rintro ⟨hfloor, hnone⟩
    rw [hturn]
    refine (hstart.next hpos).best hN hD (Nat.mod_lt _ hpos) (Nat.zero_le _) ?_ hnone
    simpa [Fits] using ⟨hfloor, hmaxD⟩

theorem expansion_31415 (h : Expansion 31415 10000 n d p' q' p q) :
    (n, d, p', q', p, q) = (31415, 10000, 0, 1, 1, 0) ∨
      (n, d, p', q', p, q) = (10000, 1415, 1, 0, 3, 1) ∨
      (n, d, p', q', p, q) = (1415, 95, 3, 1, 22, 7) ∨ 31 < q := by
  induction h with
  | start => exact .inl rfl
  | next h hd ih =>
    obtain heq | heq | heq | hq := ih
    · cases heq
      exact .inr (.inl rfl)
    · cases heq
      exact .inr (.inr (.inl rfl))
    · cases heq
      exact .inr (.inr (.inr (by decide)))
    · have := h.grows hd
      omega

/-- The frequency ratio 3.1415 with 8 bits for the numerator and 5 bits for the denominator. -/
theorem rational_best_approximation_best_pll :
    Best 31415 10000 255 31 (rationalBestApproximation 31415 10000 255 31) := by
  refine (rational_best_approximation_best (by decide) (by decide) (by decide) (by decide)
    (by decide)).mpr ⟨by decide, fun n d p' q' p q k h hd hfit hout hk => ?_⟩
  simp only [Fits] at hfit hk
  obtain heq | heq | heq | hq := expansion_31415 h
  · cases heq
    omega
  · cases heq
    omega
  · cases heq
    omega
  · omega

/-- One half is returned for two fifths, though one third is closer; and a denominator can be 0. -/
theorem rational_best_approximation_misses : rationalBestApproximation 2 5 4 4 = (1, 2) ∧
    Fits 4 4 (1, 3) ∧ Closer 2 5 (1, 3) (1, 2) ∧ rationalBestApproximation 10 1 5 5 = (1, 0) := by
  refine ⟨by simp [rationalBestApproximation, approximate], ⟨by decide, by decide, by decide⟩, ?_,
    by simp [rationalBestApproximation, approximate]⟩
  norm_num [Closer, abs_of_pos, abs_of_neg]

end SpicaKernel.Rational
