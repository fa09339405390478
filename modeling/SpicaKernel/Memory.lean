import Mathlib.Data.List.Basic
import Mathlib.Data.Nat.ModEq

namespace SpicaKernel
open List
set_option autoImplicit true

/-- The cells of `m` after the list `bs` is copied to those from `off` on. -/
def store (m : Nat → α) (off : Nat) (bs : List α) : Nat → α :=
  fun i => if off ≤ i then (bs[i - off]?).getD (m i) else m i

def load (m : Nat → α) (off n : Nat) : List α := (List.range n).map (fun i => m (off + i))

@[simp] theorem store_nil (m : Nat → α) (off : Nat) : store m off [] = m := by
  funext i
  simp [store]

theorem store_outside (h : i < off ∨ off + bs.length ≤ i) : store m off bs i = m i := by
  unfold store
  split
  next hle =>
    rw [List.getElem?_eq_none (by omega)]
    rfl
  next => rfl

theorem store_inside (h : k < bs.length) : some (store m off bs (off + k)) = bs[k]? := by
  unfold store
  rw [if_pos (Nat.le_add_right off k), Nat.add_sub_cancel_left, List.getElem?_eq_getElem h]
  rfl

theorem store_congr_at (h : m i = m' i) : store m off bs i = store m' off bs i := by
  unfold store
  rw [h]

@[simp] theorem load_length (m : Nat → α) (off n : Nat) : (load m off n).length = n := by
  simp [load]

theorem load_getElem? (h : k < n) : (load m off n)[k]? = some (m (off + k)) := by
  simp [load, h]

theorem load_congr (h : ∀ i, off ≤ i → i < off + n → m i = m' i) :
    load m off n = load m' off n := by
  apply map_congr_left
  intro i hi
  rw [mem_range] at hi
  exact h (off + i) (by omega) (by omega)

theorem load_store (bs : List α) : load (store m off bs) off bs.length = bs := by
  apply ext_getElem?
  intro i
  rcases Nat.lt_or_ge i bs.length with hi | hi
  · rw [load_getElem? hi, store_inside hi]
  · rw [List.getElem?_eq_none hi, List.getElem?_eq_none (by simpa using hi)]

theorem load_store_apart (h : off' + n ≤ off ∨ off + bs.length ≤ off') :
    load (store m off bs) off' n = load m off' n := by
  apply load_congr
  intro i hle hlt
  exact store_outside (by omega)

theorem store_load (m : Nat → α) (off n : Nat) : store m off (load m off n) = m := by
  funext i
  by_cases hi : off ≤ i ∧ i < off + n
  · unfold store
    rw [if_pos hi.1, load_getElem? (by omega), Nat.add_sub_cancel' hi.1]
    rfl
  · exact store_outside (by rw [load_length]; omega)

theorem store_append (m : Nat → α) (off : Nat) (as bs : List α) :
    store m off (as ++ bs) = store (store m off as) (off + as.length) bs := by
  funext i
  by_cases hlow : i < off + as.length
  · rw [store_outside (.inl hlow)]
    unfold store
    split
    next => rw [getElem?_append_left (by omega)]
    next => rfl
  · unfold store
    rw [if_pos (by omega), if_pos (by omega), getElem?_append_right (by omega),
      if_pos (by omega), List.getElem?_eq_none (show as.length ≤ i - off by omega), Nat.sub_sub]
    rfl

theorem store_comm (h : off + as.length ≤ off' ∨ off' + bs.length ≤ off) :
    store (store m off as) off' bs = store (store m off' bs) off as := by
  funext i
  by_cases hi : off ≤ i ∧ i < off + as.length
  · rw [store_outside (by omega)]
    unfold store
    rw [if_pos hi.1, if_pos hi.1, List.getElem?_eq_getElem (by omega)]
    rfl
  · rw [store_outside (show i < off ∨ off + as.length ≤ i by omega)]
    apply store_congr_at
    exact store_outside (show i < off ∨ off + as.length ≤ i by omega)

theorem load_append (m : Nat → α) (off a b : Nat) :
    load m off (a + b) = load m off a ++ load m (off + a) b := by
  simp [load, range_add, Nat.add_assoc]

/-- The `k` lowest bytes of a number, the lowest one first. -/
def leBytes : Nat → Nat → List UInt8
  | 0, _ => []
  | k + 1, v => UInt8.ofNat v :: leBytes k (v / 256)

def leValue : List UInt8 → Nat
  | [] => 0
  | b :: bs => b.toNat + 256 * leValue bs

@[simp] theorem leBytes_length (k v : Nat) : (leBytes k v).length = k := by
  induction k generalizing v with
  | zero => rfl
  | succ k ih => simp [leBytes, ih]

theorem leValue_lt (bs : List UInt8) : leValue bs < 256 ^ bs.length := by
  induction bs with
  | nil => decide
  | cons b bs ih =>
    have := b.toNat_lt
    rw [leValue, length_cons]
    omega

theorem leValue_leBytes (h : v < 256 ^ k) : leValue (leBytes k v) = v := by
  induction k generalizing v with
  | zero =>
    simp only [leBytes, leValue]
    omega
  | succ k ih =>
    rw [leBytes, leValue, ih (by omega), UInt8.toNat_ofNat']
    omega

/-- A copy into a ring of `n` cells, in two parts where it runs over the end. -/
def storeRing (n : Nat) (m : Nat → α) (off : Nat) (bs : List α) : Nat → α :=
  store (store m off (bs.take (n - off))) 0 (bs.drop (n - off))

/-- A copy out of a ring of `n` cells, in two parts where it runs over the end. -/
def loadRing (n : Nat) (m : Nat → α) (off k : Nat) : List α :=
  load m off (min k (n - off)) ++ load m 0 (k - min k (n - off))

theorem ring_index {off n i : Nat} (hoff : off ≤ n) (hi : i < n) :
    (off + i) % n = if i < n - off then off + i else i - (n - off) := by
  split
  next h => exact Nat.mod_eq_of_lt (by omega)
  next h =>
    rw [Nat.mod_eq_sub_mod (by omega), show off + i - n = i - (n - off) by omega]
    exact Nat.mod_eq_of_lt (by omega)

theorem ring_distance (hn : 0 < n) (hp : p ≤ w) (hnear : w < p + n) :
    (if w % n ≥ p % n then w % n - p % n else (n - p % n) + w % n) = w - p := by
  obtain ⟨d, rfl⟩ := Nat.exists_eq_add_of_le hp
  have hc := Nat.mod_lt p hn
  have hw := ring_index hc.le (show d < n by omega)
  rw [Nat.mod_add_mod] at hw
  split at hw <;> split <;> omega

theorem storeRing_inside (hoff : off ≤ n) (hlen : bs.length ≤ n)
    (hi : i < bs.length) : some (storeRing n m off bs ((off + i) % n)) = bs[i]? := by
  rw [ring_index hoff (by omega)]
  unfold storeRing
  split
  next h =>
    rw [store_outside (by simp; omega), store_inside (by simp; omega), getElem?_take_of_lt h]
  next h =>
    rw [← Nat.zero_add (i - (n - off)), store_inside (by simp; omega), getElem?_drop,
      show n - off + (i - (n - off)) = i by omega]

theorem storeRing_outside {m : Nat → α} (hoff : off ≤ n) (hlen : bs.length ≤ n)
    (h : ∀ i, i < bs.length → j ≠ (off + i) % n) : storeRing n m off bs j = m j := by
  have hcell : ∀ i, i < bs.length → j ≠ if i < n - off then off + i else i - (n - off) :=
    fun i hi => ring_index hoff (show i < n by omega) ▸ h i hi
  unfold storeRing
  have hlow : 0 + (bs.drop (n - off)).length ≤ j := by
    by_contra hj
    rw [length_drop] at hj
    have := hcell (n - off + j) (by omega)
    rw [if_neg (by omega)] at this
    omega
  rw [store_outside (.inr hlow)]
  apply store_outside
  rw [length_take]
  by_contra hj
  have := hcell (j - off) (by omega)
  rw [if_pos (by omega)] at this
  omega

theorem storeRing_append (h : a.length = min (a ++ b).length (n - off)) :
    storeRing n m off (a ++ b) = store (store m off a) 0 b := by
  unfold storeRing
  rw [length_append] at h
  rcases Nat.lt_or_ge a.length (n - off) with hlt | hge
  · have hb : b = [] := eq_nil_of_length_eq_zero (by omega)
    rw [hb, append_nil, take_of_length_le (by omega), drop_of_length_le (by omega)]
  · rw [take_left' (by omega), drop_left' (by omega)]

/-- The ring holds the stream `H` from position `p` on, each byte in the cell of its remainder. -/
structure Holds (n : Nat) (m : Nat → α) (H : List α) (p : Nat) : Prop where
  le : p ≤ H.length
  room : H.length ≤ p + n
  get : ∀ q, p ≤ q → q < H.length → some (m (q % n)) = H[q]?

namespace Holds

theorem mono (h : Holds n m H p) (hp : p ≤ p') (hle : p' ≤ H.length) : Holds n m H p' where
  le := hle
  room := by have := h.room; omega
  get := fun q hq hlt => h.get q (by omega) hlt

theorem of_append (h : Holds n m (H ++ bs) p) (hp : p ≤ H.length) : Holds n m H p where
  le := hp
  room := by
    have := h.room
    rw [length_append] at this
    omega
  get := by
    intro q hq hlt
    rw [h.get q hq (by rw [length_append]; omega), getElem?_append_left hlt]

theorem of_cells (h : Holds n m H p) (hm : ∀ j, j < n → m' j = m j) : Holds n m' H p where
  le := h.le
  room := h.room
  get := by
    intro q hq hlt
    have hn : 0 < n := by
      have := h.room
      omega
    rw [hm (q % n) (Nat.mod_lt q hn)]
    exact h.get q hq hlt

theorem congr (h : Holds n m H p) (hroom : H.length + k ≤ p + n)
    (hm : ∀ j, (∀ i, i < k → j ≠ (H.length + i) % n) → m' j = m j) : Holds n m' H p where
  le := h.le
  room := h.room
  get := by
    intro q hq hlt
    rw [hm, h.get q hq hlt]
    intro i hi he
    -- two positions less than a whole round apart cannot share a cell
    have hmod : (H.length + i) % n = q % n := he.symm
    have hdiff := (Nat.modEq_iff_dvd' (by omega)).mp hmod.symm
    have := Nat.le_of_dvd (by omega) hdiff
    omega

theorem storeRing (h : Holds n m H p) (hroom : H.length + bs.length ≤ p + n)
    (hoff : off ≤ n) (hmod : off % n = H.length % n) :
    Holds n (storeRing n m off bs) (H ++ bs) p := by
  have hlen : bs.length ≤ n := by have := h.le; omega
  have hcell : ∀ i, (off + i) % n = (H.length + i) % n := fun i => Nat.ModEq.add_right i hmod
  have hkept : Holds n (SpicaKernel.storeRing n m off bs) H p := by
    apply h.congr hroom
    intro j hj
    exact storeRing_outside hoff hlen fun i hi => hcell i ▸ hj i hi
  refine ⟨?_, ?_, ?_⟩
  · have := h.le
    rw [length_append]
    omega
  · rw [length_append]
    omega
  · intro q hq hlt
    rw [length_append] at hlt
    rcases Nat.lt_or_ge q H.length with hold | hnew
    · rw [getElem?_append_left hold]
      exact hkept.get q hq hold
    · obtain ⟨i, rfl⟩ := Nat.exists_eq_add_of_le hnew
      rw [getElem?_append_right (by omega), Nat.add_sub_cancel_left, ← hcell i]
      exact storeRing_inside hoff hlen (by omega)

theorem loadRing (h : Holds n m H p) (hk : p + k ≤ H.length) (hkn : k ≤ n) (hoff : off ≤ n)
    (hmod : off % n = p % n) : loadRing n m off k = (H.drop p).take k := by
  apply ext_getElem?
  intro i
  rcases Nat.lt_or_ge i k with hi | hi
  · have hget := h.get (p + i) (by omega) (by omega)
    rw [← Nat.ModEq.add_right i hmod, ring_index hoff (by omega)] at hget
    rw [getElem?_take_of_lt hi, getElem?_drop, ← hget]
    unfold SpicaKernel.loadRing
    rcases Nat.lt_or_ge i (n - off) with hlow | hhigh
    · rw [getElem?_append_left (by simp; omega), load_getElem? (by omega), if_pos hlow]
    · rw [getElem?_append_right (by simp; omega), load_length,
        load_getElem? (by omega), if_neg (by omega)]
      congr 2
      omega
  · rw [List.getElem?_eq_none (by simp [SpicaKernel.loadRing]; omega),
      List.getElem?_eq_none (by simp; omega)]

end Holds

namespace Buffer
open List

variable {α : Type}

def get (b : List α) (i : Int) : Option α := if 0 ≤ i then b[i.toNat]? else none

/-- A buffer with another element at an index, which has to be inside. -/
def put (b : List α) (i : Nat) (v : α) : Option (List α) :=
  if i < b.length then some (b.set i v) else none

/-- A buffer after a number of its elements are copied to another place of it. -/
def copy (b : List α) (dst src n : Nat) : Option (List α) :=
  if dst + n ≤ b.length ∧ src + n ≤ b.length then
    some (b.take dst ++ (b.drop src).take n ++ b.drop (dst + n))
  else none

theorem get_natCast (b : List α) (i : Nat) : get b i = b[i]? := by
  rw [get, if_pos (Int.natCast_nonneg i), Int.toNat_natCast]

theorem put_append (xs : List α) (a v : α) (rest : List α) :
    put (xs ++ a :: rest) xs.length v = some (xs ++ v :: rest) := by
  have hlt : xs.length < (xs ++ a :: rest).length := by
    rw [length_append, length_cons]
    omega
  rw [put, if_pos hlt, set_append_right _ _ (Nat.le_refl _), Nat.sub_self, set_cons_zero]

theorem copy_append (xs old rest : List α) (hn : src + old.length ≤ xs.length) :
    copy (xs ++ (old ++ rest)) xs.length src old.length =
      some (xs ++ ((xs.drop src).take old.length ++ rest)) := by
  have hdst : xs.length + old.length ≤ (xs ++ (old ++ rest)).length := by
    rw [length_append, length_append]
    omega
  have hsrc : src + old.length ≤ (xs ++ (old ++ rest)).length := by
    omega
  have hread : ((xs ++ (old ++ rest)).drop src).take old.length =
      (xs.drop src).take old.length := by
    rw [drop_append_of_le_length (by omega), take_append_of_le_length]
    rw [length_drop]
    omega
  rw [copy, if_pos ⟨hdst, hsrc⟩, take_left, hread, ← drop_drop, drop_left,
    drop_left, List.append_assoc]

end Buffer

end SpicaKernel
