import Mathlib.Algebra.GroupWithZero.Nat
import Mathlib.Tactic.Common

namespace SpicaKernel.Digits
open BitVec
set_option autoImplicit true

/-- The digit of a number at a place, to the base `b`. -/
def digit (b i h : Nat) : Nat := i / b ^ h % b

theorem mod_succ (b i h : Nat) : i % b ^ (h + 1) = digit b i h * b ^ h + i % b ^ h := by
  rw [Nat.mod_pow_succ, digit, Nat.mul_comm, Nat.add_comm]

theorem mod_succ_eq_iff (hb : 0 < b) :
    i % b ^ (h + 1) = j % b ^ (h + 1) ↔ digit b i h = digit b j h ∧ i % b ^ h = j % b ^ h := by
  have hpos : 0 < b ^ h := Nat.pow_pos hb
  constructor
  · intro he
    have hlow : i % b ^ h = j % b ^ h := by
      rw [← Nat.mod_mod_of_dvd i (Nat.pow_dvd_pow b (Nat.le_succ h)), he,
        Nat.mod_mod_of_dvd j (Nat.pow_dvd_pow b (Nat.le_succ h))]
    rw [mod_succ, mod_succ, hlow] at he
    exact ⟨Nat.eq_of_mul_eq_mul_right hpos (Nat.add_right_cancel he), hlow⟩
  · rintro ⟨hd, hm⟩
    rw [mod_succ, mod_succ, hd, hm]

theorem add_lt_pow_succ (o : Fin b) (hr : r < b ^ h) : o * b ^ h + r < b ^ (h + 1) := by
  have hle : (o + 1) * b ^ h ≤ b * b ^ h := Nat.mul_le_mul_right _ o.isLt
  rw [Nat.add_mul] at hle
  rw [Nat.pow_succ']
  omega

theorem div_pow_eq_of_le {b : Nat} (hij : i / b ^ k = j / b ^ k) (hkh : k ≤ h) :
    i / b ^ h = j / b ^ h := by
  obtain ⟨d, rfl⟩ := Nat.exists_eq_add_of_le hkh
  rw [Nat.pow_add, ← Nat.div_div_eq_div_mul, ← Nat.div_div_eq_div_mul, hij]

theorem lt_pow_of_div_eq (hij : i / b ^ k = j / b ^ k) (hkh : k ≤ h) (hb : 0 < b)
    (hj : j < b ^ h) : i < b ^ h := by
  have hzero := div_pow_eq_of_le hij hkh
  rw [Nat.div_eq_of_lt hj] at hzero
  exact (Nat.div_eq_zero_iff_lt (Nat.pow_pos hb)).mp hzero

theorem next_le_pow (hb : 0 < b) (hi : i < b ^ h) (hkh : k ≤ h) :
    (i / b ^ k + 1) * b ^ k ≤ b ^ h := by
  obtain ⟨d, rfl⟩ := Nat.exists_eq_add_of_le hkh
  have hlt : i / b ^ k < b ^ d := by
    rw [Nat.div_lt_iff_lt_mul (Nat.pow_pos hb), Nat.mul_comm, ← Nat.pow_add]
    exact hi
  calc (i / b ^ k + 1) * b ^ k ≤ b ^ d * b ^ k := Nat.mul_le_mul_right _ hlt
    _ = b ^ (k + d) := by rw [Nat.mul_comm, ← Nat.pow_add]

theorem lt_next (hb : 0 < b) (i k : Nat) : i < (i / b ^ k + 1) * b ^ k :=
  Nat.lt_mul_of_div_lt (Nat.lt_succ_self _) (Nat.pow_pos hb)

theorem div_eq_of_lt_next (hb : 0 < b) (hij : i ≤ j)
    (hj : j < (i / b ^ k + 1) * b ^ k) : j / b ^ k = i / b ^ k := by
  have hle : i / b ^ k ≤ j / b ^ k := Nat.div_le_div_right hij
  have hlt : j / b ^ k < i / b ^ k + 1 := (Nat.div_lt_iff_lt_mul (Nat.pow_pos hb)).mpr hj
  omega

theorem div_pow_succ (b i k : Nat) : i / b ^ (k + 1) = i / b ^ k / b := by
  rw [Nat.pow_succ, Nat.div_div_eq_div_mul]

section Place

variable {b : Nat} [NeZero b]

def place (b : Nat) [NeZero b] (i h : Nat) : Fin b := Fin.ofNat b (i / b ^ h)

theorem place_eq_iff : place b i h = place b j h ↔ digit b i h = digit b j h := Fin.ext_iff

theorem place_add (o : Fin b) (hr : r < b ^ h) : place b (o * b ^ h + r) h = o := by
  apply Fin.ext
  change (o * b ^ h + r) / b ^ h % b = o
  rw [Nat.mul_comm, Nat.mul_add_div (Nat.zero_lt_of_lt hr), Nat.div_eq_of_lt hr, Nat.add_zero,
    Nat.mod_eq_of_lt o.isLt]

theorem exists_compose (q : Nat) (o : Fin b) (hr : r < b ^ h) :
    ∃ i, i / b ^ (h + 1) = q ∧ place b i h = o ∧ i % b ^ h = r := by
  have hpos : 0 < b ^ h := Nat.zero_lt_of_lt hr
  have hdiv : ((q * b + o) * b ^ h + r) / b ^ h = q * b + o := by
    rw [Nat.mul_comm, Nat.mul_add_div hpos, Nat.div_eq_of_lt hr, Nat.add_zero]
  refine ⟨(q * b + o) * b ^ h + r, ?_, ?_, ?_⟩
  · rw [Nat.pow_succ, ← Nat.div_div_eq_div_mul, hdiv, Nat.mul_comm,
      Nat.mul_add_div (Nat.pos_of_neZero b), Nat.div_eq_of_lt o.isLt, Nat.add_zero]
  · apply Fin.ext
    change ((q * b + o) * b ^ h + r) / b ^ h % b = o
    rw [hdiv, Nat.mul_add_mod_self_right, Nat.mod_eq_of_lt o.isLt]
  · rw [Nat.mul_add_mod_self_right, Nat.mod_eq_of_lt hr]

theorem place_of_lt (hi : i < b ^ h) : place b i h = 0 := by
  rw [place, Nat.div_eq_of_lt hi]
  rfl

theorem lt_of_place_eq_zero (hi : i < b ^ (h + 1)) (h0 : place b i h = 0) : i < b ^ h := by
  have hd : digit b i h = 0 := congrArg Fin.val h0
  have hlow := Nat.mod_lt i (Nat.pow_pos (n := h) (Nat.pos_of_neZero b))
  rw [← Nat.mod_eq_of_lt hi, mod_succ, hd, Nat.zero_mul, Nat.zero_add]
  exact hlow

def SetAt (m i : Nat) (v : α) (f f' : Nat → α) : Prop :=
  ∀ j, f' j = if j % m = i % m then v else f j

theorem SetAt.branch {g k : Fin b → Nat → α} (hoff : ∀ o, o ≠ place b i h → k o = g o)
    (hset : SetAt (b ^ h) i v (g (place b i h)) (k (place b i h))) :
    SetAt (b ^ (h + 1)) i v (fun j => g (place b j h) j) (fun j => k (place b j h) j) := by
  intro j
  simp only [mod_succ_eq_iff (Nat.pos_of_neZero b), ← place_eq_iff]
  by_cases hp : place b j h = place b i h
  · rw [hp, hset j]
    simp
  · rw [hoff _ hp]
    simp [hp]

end Place

section Bits

theorem or_mask (x s : Nat) : x ||| (2 ^ s - 1) = x / 2 ^ s * 2 ^ s + (2 ^ s - 1) := by
  have hlt : 2 ^ s - 1 < 2 ^ s := Nat.sub_lt (Nat.two_pow_pos s) Nat.one_pos
  rw [Nat.mul_comm, Nat.two_pow_add_eq_or_of_lt hlt]
  apply Nat.eq_of_testBit_eq
  intro i
  rw [Nat.testBit_or, Nat.testBit_or, Nat.testBit_two_pow_mul, Nat.testBit_div_two_pow]
  by_cases hi : i < s
  · simp [hi]
  · simp [Nat.sub_add_cancel (Nat.not_lt.mp hi), Nat.not_lt.mp hi]

theorem xor_low (y : Nat) (hm : m < 2 ^ s) : y ^^^ y % 2 ^ s ^^^ m = y / 2 ^ s * 2 ^ s + m := by
  rw [Nat.mul_comm, Nat.two_pow_add_eq_or_of_lt hm]
  apply Nat.eq_of_testBit_eq
  intro i
  rw [Nat.testBit_xor, Nat.testBit_xor, Nat.testBit_or,
    Nat.testBit_two_pow_mul, Nat.testBit_div_two_pow]
  by_cases hi : i < s
  · simp [hi, Nat.not_le.mpr hi]
  · have hle := Nat.not_lt.mp hi
    have hzero : m.testBit i = false :=
      Nat.testBit_lt_two_pow (Nat.lt_of_lt_of_le hm (Nat.pow_le_pow_right (by decide) hle))
    simp [hi, hzero, hle]

variable {w s x : Nat}

theorem one_shiftLeft (hs : s < w) : 1#w <<< s = BitVec.ofNat w (2 ^ s) := by
  have hw : 1 < 2 ^ w := Nat.one_lt_two_pow (by omega)
  apply eq_of_toNat_eq
  rw [toNat_shiftLeft, toNat_ofNat, toNat_ofNat, Nat.mod_eq_of_lt hw, Nat.shiftLeft_eq, Nat.one_mul]

theorem mask_eq (hs : s < w) : 1#w <<< s - 1#w = BitVec.ofNat w (2 ^ s - 1) := by
  have hw : w ≠ 0 := by omega
  rw [one_shiftLeft hs, ofNat_sub_ofNat_of_le _ _ (Nat.one_lt_two_pow hw) Nat.one_le_two_pow]

theorem and_not_mask (y : BitVec w) (hs : s < w) :
    y &&& ~~~(1#w <<< s - 1#w) = (y >>> s) <<< s := by
  rw [mask_eq hs]
  apply eq_of_getLsbD_eq
  intro i hi
  simp only [getLsbD_and, getLsbD_not, getLsbD_ofNat]
  by_cases his : i < s
  · simp [his]
  · simp [his, hi, Nat.add_sub_cancel' (Nat.not_lt.mp his)]

theorem ofNat_skip (hs : s < w) (hx : x < 2 ^ w) :
    (BitVec.ofNat w x &&& ~~~(1#w <<< s - 1#w)) + 1#w <<< s =
      BitVec.ofNat w ((x / 2 ^ s + 1) * 2 ^ s) := by
  rw [and_not_mask _ hs]
  apply eq_of_toNat_eq
  simp [Nat.shiftLeft_eq, Nat.shiftRight_eq_div_pow, Nat.mod_eq_of_lt hx, Nat.add_mul]

theorem ofNat_or_mask (hs : s < w) (hx : x < 2 ^ w) :
    (BitVec.ofNat w x ||| (1#w <<< s - 1#w)) + 1#w = BitVec.ofNat w ((x / 2 ^ s + 1) * 2 ^ s) := by
  have hw : 1 < 2 ^ w := Nat.one_lt_two_pow (by omega)
  have hpow : 2 ^ s < 2 ^ w := Nat.pow_lt_pow_right (by decide) hs
  have hpos := Nat.two_pow_pos s
  have hmask : 2 ^ s - 1 < 2 ^ w := by omega
  rw [mask_eq hs]
  apply eq_of_toNat_eq
  rw [toNat_add, toNat_or, toNat_ofNat,
    toNat_ofNat, toNat_ofNat, Nat.mod_eq_of_lt hx, Nat.mod_eq_of_lt hmask, or_mask,
    Nat.mod_eq_of_lt hw, Nat.add_mul]
  congr 1
  omega

end Bits

end SpicaKernel.Digits
