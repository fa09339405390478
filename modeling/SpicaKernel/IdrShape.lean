import SpicaKernel.Digits
import SpicaKernel.Idr
import SpicaKernel.Tables

namespace SpicaKernel.Ids
open Function Digits Tally List
set_option autoImplicit true

scoped instance neZero_places : NeZero 32 := ⟨by decide⟩

/-- A place of a layer: its bit and its pointer. -/
abbrev Cell (α : Type) := Bool × Slot α

/-- What the leaf layers are used for: which cells there may be, and which of them count. -/
structure Kind (α : Type) where
  Good : Cell α → Prop
  counts : Cell α → Bool
  good_empty : Good (false, .null)
  counts_empty : counts (false, .null) = false
  empty_of_not : Good c → counts c = false → c = (false, .null)

/-- Which places count in a layer with so many layers below it. -/
def Kind.occupied (K : Kind α) : Nat → Cell α → Bool
  | 0, c => K.counts c
  | _ + 1, c => !c.2.isNull

namespace LayerOf

def cells (p : Layer α) (n : Place) : Cell α := (p.bitmap n, p.ary n)

theorem cells_setAry (p : Layer α) (n : Place) (s : Slot α) :
    (p.setAry n s).cells = update p.cells n (p.bitmap n, s) := by
  funext m
  by_cases hm : m = n
  · subst hm
    simp [cells, setAry]
  · simp [cells, setAry, hm]

theorem cells_setBit (p : Layer α) (n : Place) (b : Bool) :
    (p.setBit n b).cells = update p.cells n (b, p.ary n) := by
  funext m
  by_cases hm : m = n
  · subst hm
    simp [cells, setBit]
  · simp [cells, setBit, hm]

theorem cells_setBit_setAry (p : Layer α) (n : Place) (b : Bool) (s : Slot α) :
    ((p.setBit n b).setAry n s).cells = update p.cells n (b, s) := by
  have hbit : (p.setBit n b).bitmap n = b := update_self ..
  rw [cells_setAry, cells_setBit, update_idem, hbit]

theorem full_iff {p : Layer α} : p.full = true ↔ ∀ n, (p.cells n).1 = true := decide_eq_true_iff

theorem full_congr {p q : Layer α} (h : ∀ n, p.bitmap n = q.bitmap n) : p.full = q.full := by
  rw [full, full, funext h]

end LayerOf

/-- The cell of an id below a cell with so many layers. -/
def cell : Nat → Cell α → Nat → Cell α
  | 0, c, _ => c
  | h + 1, (_, .node p), i => cell h (p.cells (place 32 i h)) i
  | _ + 1, _, _ => (false, .null)

inductive Valid (K : Kind α) : Nat → Cell α → Prop where
  | leaf (hgood : K.Good c) : Valid K 0 c
  | null : Valid K (h + 1) (false, .null)
  | node {h : Nat} {p : Layer α} (hlayer : p.layer = h)
      (hcount : p.count = tally (K.occupied h) p.cells) (hplaces : ∀ n, Valid K h (p.cells n)) :
      Valid K (h + 1) (p.full, .node p)

section Cells

variable {K : Kind α} {h : Nat} {c : Cell α}

theorem cell_node (h : Nat) (b : Bool) (p : Layer α) (i : Nat) :
    cell (h + 1) (b, .node p) i = cell h (p.cells (place 32 i h)) i := rfl

@[simp] theorem cell_empty (h i : Nat) : cell h (false, .null) i = ((false, .null) : Cell α) := by
  cases h <;> rfl

theorem valid_empty (K : Kind α) (h : Nat) : Valid K h (false, .null) := by
  cases h with
  | zero => exact .leaf K.good_empty
  | succ h => exact .null

theorem cell_congr (hij : i % 32 ^ h = j % 32 ^ h) : cell h c i = cell h c j := by
  induction h generalizing c with
  | zero => rfl
  | succ h ih =>
    obtain ⟨hplace, hlow⟩ := (mod_succ_eq_iff (by decide)).mp hij
    obtain ⟨b, s⟩ := c
    cases s with
    | node p =>
      rw [cell_node, place_eq_iff.mpr hplace]
      exact ih hlow
    | _ => rfl

theorem setAt_cell (h : Nat) (c : Cell α) (i : Nat) :
    SetAt (32 ^ h) i (cell h c i) (cell h c) (cell h c) := by
  intro j
  split
  next hj => exact cell_congr hj
  next => rfl

theorem Valid.bit_iff (hv : Valid K h c) : c.1 = true ↔ ∀ i, (cell h c i).1 = true := by
  induction hv with
  | leaf => simp [cell]
  | null => simp [cell]
  | @node h p hlayer hcount hplaces ih =>
    rw [LayerOf.full_iff]
    constructor
    · intro hfull i
      exact (ih _).mp (hfull _) i
    · intro hall n
      refine (ih n).mpr fun i => ?_
      have hlt : i % 32 ^ h < 32 ^ h := Nat.mod_lt _ (Nat.pow_pos (by decide))
      have hi := hall (n * 32 ^ h + i % 32 ^ h)
      rw [cell_node, place_add n hlt] at hi
      rw [← hi]
      refine congrArg Prod.fst (cell_congr ?_)
      rw [Nat.mul_add_mod_self_right, Nat.mod_mod]

theorem not_valid_item : ¬ Valid K (h + 1) (b, .item y) := by
  intro hv
  cases hv

theorem Valid.node_inv (hv : Valid K (h + 1) (b, .node p)) :
    b = p.full ∧ p.layer = h ∧ p.count = tally (K.occupied h) p.cells ∧
      ∀ n, Valid K h (p.cells n) := by
  cases hv with
  | node hlayer hcount hplaces => exact ⟨rfl, hlayer, hcount, hplaces⟩

theorem Valid.bit_of_taken (hv : Valid K (h + 1) (b, .node p)) (n : Place)
    (hall : ∀ j : Nat, n * 32 ^ h ≤ j → j < (n + 1) * 32 ^ h →
      (cell (h + 1) (b, .node p) j).1 = true) : p.bitmap n = true := by
  obtain ⟨-, -, -, hplaces⟩ := hv.node_inv
  refine (hplaces n).bit_iff.mpr fun j => ?_
  have hlt : j % 32 ^ h < 32 ^ h := Nat.mod_lt _ (Nat.pow_pos (by decide))
  have hj := hall (n * 32 ^ h + j % 32 ^ h) (Nat.le_add_right _ _) (by
    rw [Nat.add_mul, Nat.one_mul]
    exact Nat.add_lt_add_left hlt _)
  rw [cell_node, place_add n hlt] at hj
  rw [← hj]
  refine congrArg Prod.fst (cell_congr ?_)
  rw [Nat.mul_add_mod_self_right, Nat.mod_mod]

theorem Valid.replace (hv : Valid K (h + 1) (b, .node p))
    (hlayer : q.layer = p.layer) (hcells : q.cells = update p.cells n c)
    (hcount : q.count = tally (K.occupied h) q.cells) (hc : Valid K h c) :
    Valid K (h + 1) (q.full, .node q) := by
  obtain ⟨-, hl, -, hplaces⟩ := hv.node_inv
  refine .node (hlayer.trans hl) hcount fun m => ?_
  rw [hcells]
  by_cases hm : m = n
  · rw [hm, update_self]
    exact hc
  · rw [update_of_ne hm]
    exact hplaces m

theorem cell_replace (hcells : p'.cells = update p.cells (place 32 i h) c)
    (hset : SetAt (32 ^ h) i v (cell h (p.cells (place 32 i h))) (cell h c)) :
    SetAt (32 ^ (h + 1)) i v (cell (h + 1) (b, .node p)) (cell (h + 1) (b', .node p')) := by
  refine SetAt.branch (g := fun n => cell h (p.cells n)) (k := fun n => cell h (p'.cells n)) ?_ ?_
  · intro n hn
    rw [hcells, update_of_ne hn]
  · rw [hcells, update_self]
    exact hset

end Cells

def Along (x : Nat) : Nat → Path α → Prop
  | _, [] => True
  | l, (q, m) :: path => m = place 32 x (l + 1) ∧ q.bitmap m = false ∧ Along x (l + 1) path

theorem Along.congr (hp : Along x l path)
    (hxy : y / 32 ^ (l + 1) = x / 32 ^ (l + 1)) : Along y l path := by
  induction path generalizing l with
  | nil => trivial
  | cons qm path ih =>
    obtain ⟨hm, hbit, hrest⟩ := hp
    refine ⟨?_, hbit, ih hrest (div_pow_eq_of_le hxy (Nat.le_succ _))⟩
    rw [hm, place, place, hxy]

section Paths

variable {K : Kind α} {path : Path α} {p p' : Layer α} {L l x : Nat}

theorem Valid.focus (hv : Valid K L (b, .node (plug p path))) (hL : path.length + (l + 1) = L) :
    Valid K (l + 1) (p.full, .node p) := by
  induction path generalizing p l with
  | nil =>
    rw [length_nil, Nat.zero_add] at hL
    subst hL
    obtain ⟨rfl, -⟩ := hv.node_inv
    exact hv
  | cons qm path ih =>
    obtain ⟨q, m⟩ := qm
    rw [length_cons] at hL
    have hq := ih (l := l + 1) hv (by omega)
    obtain ⟨-, -, -, hplaces⟩ := hq.node_inv
    have hm := hplaces m
    rw [LayerOf.cells_setAry, update_self] at hm
    obtain ⟨hbit, -⟩ := hm.node_inv
    rw [hbit] at hm
    exact hm

section
variable (hv : Valid K L (b, .node (plug p ((q, m) :: path)))) (hL : path.length + (l + 2) = L)
include hv hL

theorem Valid.focus_above :
    Valid K (l + 1 + 1) ((q.setAry m (.node p)).full, .node (q.setAry m (.node p))) := by
  have hplug : Valid K L (b, .node (plug (q.setAry m (.node p)) path)) := hv
  exact hplug.focus (by omega)

theorem Valid.bit_eq_full : q.bitmap m = p.full := by
  obtain ⟨-, -, -, hplaces⟩ := (hv.focus_above (l := l) hL).node_inv
  have hm := hplaces m
  rw [LayerOf.cells_setAry, update_self] at hm
  exact hm.node_inv.1

end

theorem cell_focus (hp : Along x l path) (hL : path.length + (l + 1) = L)
    (hj : j / 32 ^ (l + 1) = x / 32 ^ (l + 1)) :
    cell L (b, .node (plug p path)) j = cell (l + 1) (d, .node p) j := by
  induction path generalizing p l d with
  | nil =>
    rw [length_nil, Nat.zero_add] at hL
    subst hL
    rfl
  | cons qm path ih =>
    obtain ⟨q, m⟩ := qm
    obtain ⟨hm, -, hrest⟩ := hp
    rw [length_cons] at hL
    have hup := ih (p := q.setAry m (.node p)) (d := false) hrest (by omega)
      (div_pow_eq_of_le hj (Nat.le_succ _))
    have hplace : place 32 j (l + 1) = m := by rw [hm, place, place, hj]
    rw [plug, hup, cell_node, hplace, LayerOf.cells_setAry, update_self]
    rfl

section
variable (hv : Valid K L (b, .node (plug p path))) (hp : Along x l path)
    (hL : path.length + (l + 1) = L) (hp' : Valid K (l + 1) (p.full, .node p'))
include hv hp hL hp'

theorem Valid.plug_set (hset : SetAt (32 ^ (l + 1)) x v (cell (l + 1) (p.full, .node p))
      (cell (l + 1) (p.full, .node p'))) :
    Valid K L (b, .node (plug p' path)) ∧
      SetAt (32 ^ L) x v (cell L (b, .node (plug p path))) (cell L (b, .node (plug p' path))) := by
  induction path generalizing p p' l with
  | nil =>
    rw [length_nil, Nat.zero_add] at hL
    subst hL
    obtain ⟨rfl, -⟩ := hv.node_inv
    exact ⟨hp', hset⟩
  | cons qm path ih =>
    obtain ⟨q, m⟩ := qm
    have hbit := hv.bit_eq_full (l := l) (by rw [length_cons] at hL; omega)
    obtain ⟨hm, -, hrest⟩ := hp
    rw [length_cons] at hL
    have hq := hv.focus_above (l := l) (by omega)
    have hcells : (q.setAry m (.node p')).cells =
        update (q.setAry m (.node p)).cells m (p.full, .node p') := by
      rw [LayerOf.cells_setAry, LayerOf.cells_setAry, update_idem, hbit]
    have hold : (q.setAry m (.node p)).cells m = (p.full, .node p) := by
      rw [LayerOf.cells_setAry, update_self, hbit]
    have hcount : (q.setAry m (.node p')).count =
        tally (K.occupied (l + 1)) (q.setAry m (.node p')).cells := by
      rw [hcells, tally_update_same (by rw [hold]; rfl)]
      exact hq.node_inv.2.2.1
    have hq' : Valid K (l + 1 + 1) ((q.setAry m (.node p')).full, .node (q.setAry m (.node p'))) :=
      hq.replace rfl hcells hcount hp'
    have hfull : (q.setAry m (.node p')).full = (q.setAry m (.node p)).full :=
      LayerOf.full_congr fun _ => rfl
    refine ih (l := l + 1) hv hrest (by omega) hq' ?_
    subst hm
    refine cell_replace hcells ?_
    rw [hold]
    exact hset

theorem Valid.plug_same (hsame : ∀ j, cell (l + 1) (p.full, .node p') j = cell (l + 1) (p.full,
  .node p) j) :
    Valid K L (b, .node (plug p' path)) ∧
      ∀ j, cell L (b, .node (plug p' path)) j = cell L (b, .node (plug p path)) j := by
  obtain ⟨hv', hset⟩ := hv.plug_set hp hL hp' (v := cell (l + 1) (p.full, .node p) x) (by
    intro j
    rw [hsame]
    exact setAt_cell (l + 1) (p.full, .node p) x j)
  refine ⟨hv', fun j => ?_⟩
  rw [hset j, ← cell_focus (b := b) hp hL rfl]
  exact (setAt_cell L (b, .node (plug p path)) x j).symm

end

theorem Along.top_bit (hp : Along x l path) (hL : path.length + (l + 1) = L) (hne : path ≠ []) :
    (plug p path).bitmap (place 32 x (L - 1)) = false := by
  induction path generalizing p l with
  | nil => exact absurd rfl hne
  | cons qm path ih =>
    obtain ⟨hm, hbit, hrest⟩ := hp
    rw [length_cons] at hL
    by_cases hpath : path = []
    · subst hpath
      have hl : L - 1 = l + 1 := by
        rw [length_nil] at hL
        omega
      rw [hl, ← hm]
      exact hbit
    · exact ih hrest (by omega) hpath

end Paths

open BitVec

section Numbers

variable {x l : Nat}

theorem two_pow_mul_five (l : Nat) : 2 ^ (5 * l) = 32 ^ l := by rw [Nat.pow_mul]

theorem sshiftRight_ofNat (hx : x < 2 ^ 31) (k : Nat) :
    (BitVec.ofNat 32 x).sshiftRight k = BitVec.ofNat 32 (x / 2 ^ k) := by
  have hmsb : (BitVec.ofNat 32 x).msb = false := by
    rw [msb_eq_false_iff_two_mul_lt, toNat_ofNat]
    omega
  rw [sshiftRight_eq_of_msb_false hmsb]
  apply eq_of_toNat_eq
  have hle : x / 2 ^ k ≤ x := Nat.div_le_self _ _
  rw [toNat_ushiftRight, toNat_ofNat, toNat_ofNat,
    Nat.mod_eq_of_lt (by omega), Nat.mod_eq_of_lt (by omega), Nat.shiftRight_eq_div_pow]

theorem toInt_ofNat (hx : x < 2 ^ 31) : (BitVec.ofNat 32 x).toInt = x := by
  have hnat : (BitVec.ofNat 32 x).toNat = x := by
    rw [toNat_ofNat, Nat.mod_eq_of_lt (by omega)]
  rw [toInt_eq_toNat_of_lt (by omega), hnat]

theorem sle_ofNat (hl : l ≤ 6) (hx : x < 2 ^ 31) :
    (1#32 <<< (l * 5)).sle (BitVec.ofNat 32 x) = true ↔ 32 ^ l ≤ x := by
  have hpow : 32 ^ l ≤ 2 ^ 30 := Nat.pow_le_pow_right (n := 32) (by decide) hl
  rw [one_shiftLeft (by omega), Nat.mul_comm, two_pow_mul_five, sle_eq_decide,
    decide_eq_true_iff, toInt_ofNat (by omega), toInt_ofNat hx, Int.ofNat_le]

theorem idPlace_ofNat (hx : x < 2 ^ 31) (l : Nat) :
    idPlace (BitVec.ofNat 32 x) l = place 32 x l := by
  have hle : x / 2 ^ (5 * l) ≤ x := Nat.div_le_self _ _
  rw [idPlace, sshiftRight_ofNat hx, toNat_ofNat, Nat.mod_eq_of_lt (by omega),
    two_pow_mul_five, place]

theorem nextStart_ofNat (hl : l ≤ 6) (hx : x < 2 ^ 31) :
    nextStart (BitVec.ofNat 32 x) l = BitVec.ofNat 32 ((x / 32 ^ l + 1) * 32 ^ l) := by
  rw [nextStart, ofNat_or_mask (by omega) (by omega), two_pow_mul_five]

/-- The number with another digit at a place and zeros below it, if the digit is another one. -/
def moved (x l : Nat) (m : Place) : Nat :=
  if m ≠ place 32 x l then (x / 32 ^ (l + 1) * 32 + m) * 32 ^ l else x

theorem idAt_ofNat (hx : x < 2 ^ 31) (l : Nat) (m : Place) :
    idAt (BitVec.ofNat 32 x) l (place 32 x l) m = BitVec.ofNat 32 (moved x l m) := by
  rw [idAt, moved]
  split
  next =>
    have hxor : x / 2 ^ (5 * l) ^^^ (place 32 x l : Nat) ^^^ m = x / 32 ^ (l + 1) * 32 + m := by
      rw [two_pow_mul_five, div_pow_succ]
      exact xor_low (s := 5) _ m.isLt
    rw [sshiftRight_ofNat hx, ← ofNat_xor, ← ofNat_xor, hxor]
    apply eq_of_toNat_eq
    rw [toNat_shiftLeft, toNat_ofNat, toNat_ofNat, Nat.shiftLeft_eq,
      two_pow_mul_five, Nat.mod_mul_mod]
  next => rfl

theorem moved_spec (hm : place 32 x l ≤ m) :
    x ≤ moved x l m ∧ moved x l m / 32 ^ (l + 1) = x / 32 ^ (l + 1) ∧ place 32 (moved x l m) l = m ∧
      ∀ j, x ≤ j → j < moved x l m → j / 32 ^ (l + 1) = x / 32 ^ (l + 1) ∧
        place 32 x l ≤ place 32 j l ∧ place 32 j l < m := by
  have hpos : 0 < 32 ^ l := Nat.pow_pos (by decide)
  rw [moved]
  split
  next hne =>
    have hlt : (place 32 x l : Nat) < m := by
      have hne' : (m : Nat) ≠ place 32 x l := fun h => hne (Fin.ext h)
      omega
    change x / 32 ^ l % 32 < m at hlt
    rw [div_pow_succ]
    have hdiv : (x / 32 ^ l / 32 * 32 + m) * 32 ^ l / 32 ^ l = x / 32 ^ l / 32 * 32 + m :=
      Nat.mul_div_cancel _ hpos
    refine ⟨?_, ?_, ?_, fun j hj hj' => ?_⟩
    · refine Nat.le_of_lt (Nat.lt_of_lt_of_le (lt_next (b := 32) (by decide) x l) ?_)
      exact Nat.mul_le_mul_right _ (by omega)
    · rw [div_pow_succ]
      omega
    · apply Fin.ext
      change (x / 32 ^ l / 32 * 32 + m) * 32 ^ l / 32 ^ l % 32 = m
      omega
    · have hge : x / 32 ^ l ≤ j / 32 ^ l := Nat.div_le_div_right hj
      have hlt' : j / 32 ^ l < x / 32 ^ l / 32 * 32 + m := (Nat.div_lt_iff_lt_mul hpos).mpr hj'
      refine ⟨by rw [div_pow_succ]; omega, ?_, ?_⟩
      · change x / 32 ^ l % 32 ≤ j / 32 ^ l % 32
        omega
      · change j / 32 ^ l % 32 < m
        omega
  next heq =>
    have hm' : m = place 32 x l := by
      by_contra hne
      exact heq hne
    exact ⟨Nat.le_refl x, rfl, hm'.symm, fun j hj hj' => absurd hj' (Nat.not_lt.mpr hj)⟩

end Numbers

theorem LayerOf.nextZero_cases (p : Layer α) (n : Place) :
    (p.nextZero n = none ∧ ∀ m, n ≤ m → p.bitmap m = true) ∨
      ∃ m, p.nextZero n = some m ∧ n ≤ m ∧ p.bitmap m = false ∧
        ∀ k, n ≤ k → k < m → p.bitmap k = true := by
  rcases Scan.find_from (fun m => !p.bitmap m) n with ⟨hf, hall⟩ | ⟨m, hf, hnm, hm, hfirst⟩
  · exact .inl ⟨hf, fun m hm => by simpa using hall m hm⟩
  · exact .inr ⟨m, hf, hnm, by simpa using hm, fun k hk hk' => by simpa using hfirst k hk hk'⟩

structure LayerOf.Clean (p : Layer α) : Prop where
  bitmap : ∀ n, p.bitmap n = false
  ary : ∀ n, n ≠ 0 → p.ary n = .null
  count : p.count = 0

structure LayerOf.Empty (p : Layer α) : Prop where
  cells : p.cells = fun _ => (false, .null)
  count : p.count = 0

theorem getFromFreeList_cases {free : List (Layer α)} (hfree : ∀ p ∈ free, p.Clean) :
    getFromFreeList free = none ∨ ∃ new rest, getFromFreeList free = some (new, rest) ∧
      new.Empty ∧ ∀ p ∈ rest, p.Clean := by
  cases free with
  | nil => exact .inl rfl
  | cons p rest =>
    have hp := hfree p mem_cons_self
    refine .inr ⟨p.setAry 0 .null, rest, rfl, ⟨?_, hp.count⟩,
      fun q hq => hfree q (mem_cons_of_mem p hq)⟩
    funext n
    rw [LayerOf.cells_setAry]
    by_cases hn : n = 0
    · rw [hn, update_self, hp.bitmap]
    · rw [update_of_ne hn, LayerOf.cells, hp.bitmap, hp.ary n hn]

theorem occupied_empty (K : Kind α) (h : Nat) : K.occupied h (false, .null) = false := by
  cases h with
  | zero => exact K.counts_empty
  | succ h => rfl

namespace LayerOf.Empty

variable {p : Layer α} (hp : p.Empty)
include hp

theorem full : p.full = false := by
  have hbit : p.bitmap 0 = false := congrArg Prod.fst (congrFun hp.cells 0)
  cases hf : p.full with
  | true => exact absurd ((LayerOf.full_iff.mp hf 0).symm.trans hbit) (by decide)
  | false => rfl

theorem valid (K : Kind α) (h : Nat) : Valid K (h + 1) (false, .node { p with layer := h }) := by
  have hcells : ({ p with layer := h } : Layer α).cells = fun _ => (false, .null) := hp.cells
  have hv : Valid K (h + 1)
      (({ p with layer := h } : Layer α).full, .node { p with layer := h }) := by
    refine .node rfl ?_ fun n => ?_
    · rw [hcells]
      exact hp.count.trans (tally_eq_zero.mpr fun _ => occupied_empty K h).symm
    · rw [hcells]
      exact valid_empty K h
  exact hp.full ▸ hv

theorem cell (h : Nat) (b : Bool) (i : Nat) :
    Ids.cell (h + 1) (b, .node { p with layer := h }) i = (false, .null) := by
  have hcells : ({ p with layer := h } : Layer α).cells = fun _ => (false, .null) := hp.cells
  rw [cell_node, hcells, cell_empty]

end LayerOf.Empty

/-- The loop of `sub_alloc` is at the layer of an id, and nothing is free from the start to it. -/
structure Searching (K : Kind α) (L s : Nat) (b : Bool) (cells : Nat → Cell α) (c : Cursor α)
    (x : Nat) : Prop where
  id : c.id = BitVec.ofNat 32 x
  level : c.path.length + (c.l + 1) = L
  along : Along x c.l c.path
  valid : Valid K L (b, .node (plug c.p c.path))
  same : ∀ j, cell L (b, .node (plug c.p c.path)) j = cells j
  start : s ≤ x
  bound : x < 32 ^ L
  taken : ∀ j, s ≤ j → j < x → (cells j).1 = true
  free : ∀ p ∈ c.free, p.Clean

inductive Searched (K : Kind α) (L s : Nat) (b : Bool) (cells : Nat → Cell α) :
    Option (Outcome α × List (Layer α)) → Prop where
  | found (hs : Searching K L s b cells ⟨BitVec.ofNat 32 x, 0, p, path, free⟩ x)
      (hx : (cells x).1 = false) : Searched K L s b cells
        (some (.found (BitVec.ofNat 32 x) p path, free))
  | needToGrow (hv : Valid K L (b, .node top)) (hsame : ∀ j, cell L (b, .node top) j = cells j)
      (htaken : ∀ j, s ≤ j → j < 32 ^ L → (cells j).1 = true) (hfree : ∀ p ∈ free, p.Clean) :
      Searched K L s b cells (some (.needToGrow (BitVec.ofNat 32 (32 ^ L)) top, free))
  | noLayer (hv : Valid K L (b, .node top)) (hsame : ∀ j, cell L (b, .node top) j = cells j)
      (hfree : ∀ p ∈ free, p.Clean) : Searched K L s b cells (some (.noLayer top, free))

/-- Something is free in the tree, or the ids of the last place of the top layer are all taken. -/
def InReach (L s : Nat) (cells : Nat → Cell α) : Prop :=
  (∃ f, s ≤ f ∧ f < 32 ^ L ∧ (cells f).1 = false) ∨
    ∀ j, 31 * 32 ^ (L - 1) ≤ j → j < 32 ^ L → (cells j).1 = true

def Cursor.rank (L : Nat) (c : Cursor α) (x : Nat) : Nat := (32 ^ L - x) * (L + 1) + c.l

theorem rank_lt (hx : x < y) (hy : y ≤ N) (hl : l' ≤ L) :
    (N - y) * (L + 1) + l' < (N - x) * (L + 1) + l := by
  have hmul : (N - y + 1) * (L + 1) ≤ (N - x) * (L + 1) := Nat.mul_le_mul_right _ (by omega)
  rw [Nat.add_mul] at hmul
  omega

namespace Searching

variable {K : Kind α} {L s x : Nat} {b : Bool} {cells : Nat → Cell α} {c : Cursor α}

section
variable (h : Searching K L s b cells c x)
include h

theorem lt (hL : L ≤ 6) : x < 2 ^ 30 :=
  Nat.lt_of_lt_of_le h.bound (Nat.pow_le_pow_right (n := 32) (by decide) hL)

theorem cell_eq (hj : j / 32 ^ (c.l + 1) = x / 32 ^ (c.l + 1)) :
    cells j = cell c.l (c.p.cells (place 32 j c.l)) j := by
  rw [← h.same j, cell_focus (d := false) h.along h.level hj, cell_node]

theorem taken_of_bit (hj : j / 32 ^ (c.l + 1) = x / 32 ^ (c.l + 1))
    (hbit : c.p.bitmap (place 32 j c.l) = true) :
    (cells j).1 = true := by
  obtain ⟨-, -, -, hplaces⟩ := (h.valid.focus h.level).node_inv
  rw [h.cell_eq hj]
  exact (hplaces _).bit_iff.mp hbit j

theorem up (hL : L ≤ 6) (hreach : InReach L s cells)
    (hbits : ∀ m, place 32 x c.l ≤ m → c.p.bitmap m = true) :
    (∃ c' y, subAllocUp L c = .next c' ∧ Searching K L s b cells c' y ∧ c'.rank L y < c.rank L x) ∨
      ∃ r, subAllocUp L c = .stop r ∧ Searched K L s b cells r := by
  obtain ⟨id, l, p, path, free⟩ := c
  have hid : id = BitVec.ofNat 32 x := h.id
  have hlevel : path.length + (l + 1) = L := h.level
  have hle := next_le_pow (b := 32) (by decide) h.bound (k := l + 1) (by omega)
  have hgt := lt_next (b := 32) (by decide) x (l + 1)
  have hL30 : 32 ^ L ≤ 2 ^ 30 := Nat.pow_le_pow_right (n := 32) (by decide) hL
  have htaken : ∀ j, s ≤ j → j < (x / 32 ^ (l + 1) + 1) * 32 ^ (l + 1) → (cells j).1 = true := by
    intro j hj hj'
    by_cases hjx : j < x
    · exact h.taken j hj hjx
    · have hdiv := div_eq_of_lt_next (by decide) (Nat.not_lt.mp hjx) hj'
      refine h.taken_of_bit hdiv (hbits _ ?_)
      change x / 32 ^ l % 32 ≤ j / 32 ^ l % 32
      have hmono : x / 32 ^ l ≤ j / 32 ^ l := Nat.div_le_div_right (Nat.not_lt.mp hjx)
      rw [div_pow_succ, div_pow_succ] at hdiv
      omega
  have hnext : nextStart id (l + 1) = BitVec.ofNat 32 ((x / 32 ^ (l + 1) + 1) * 32 ^ (l + 1)) := by
    rw [hid, nextStart_ofNat (by omega) (by omega)]
  generalize hy : (x / 32 ^ (l + 1) + 1) * 32 ^ (l + 1) = y at *
  cases path with
  | nil =>
    have hl : l + 1 = L := by simpa using hlevel
    have hyL : y = 32 ^ L := by
      rw [← hy, hl, Nat.div_eq_of_lt h.bound]
      omega
    refine .inr ⟨some (.needToGrow (BitVec.ofNat 32 y) p, free), ?_, ?_⟩
    · simp only [subAllocUp, hnext]
    · rw [hyL]
      exact .needToGrow h.valid h.same (hyL ▸ htaken) h.free
  | cons qm path =>
    obtain ⟨q, m⟩ := qm
    rw [length_cons] at hlevel
    obtain ⟨hm, hbit, hrest⟩ := h.along
    simp only [subAllocUp, hnext]
    by_cases hsame : id.sshiftRight (5 * (l + 2)) = (BitVec.ofNat 32 y).sshiftRight (5 * (l + 2))
    · have hdiv : y / 32 ^ (l + 2) = x / 32 ^ (l + 2) := by
        have hxle : x / 2 ^ (5 * (l + 2)) ≤ x := Nat.div_le_self _ _
        have hyle : y / 2 ^ (5 * (l + 2)) ≤ y := Nat.div_le_self _ _
        rw [hid, sshiftRight_ofNat (by omega), sshiftRight_ofNat (by omega)] at hsame
        have hnat := congrArg BitVec.toNat hsame
        rw [toNat_ofNat, toNat_ofNat, Nat.mod_eq_of_lt (by omega),
          Nat.mod_eq_of_lt (by omega), two_pow_mul_five] at hnat
        exact hnat.symm
      have hyL : y < 32 ^ L := lt_pow_of_div_eq hdiv (by omega) (by decide) h.bound
      refine .inl ⟨_, y, if_pos hsame, ⟨rfl, by change path.length + (l + 1 + 1) = L; omega,
        hrest.congr hdiv, h.valid, h.same, Nat.le_trans h.start (Nat.le_of_lt hgt), hyL, htaken,
        h.free⟩, ?_⟩
      exact rank_lt hgt hle (by change l + 1 ≤ L; omega)
    · -- The carry has left the layer above: the search starts again at the top.
      have hyL : y < 32 ^ L := by
        refine Nat.lt_of_le_of_ne hle fun heq => ?_
        rw [heq] at htaken
        rcases hreach with ⟨f, hsf, hf, hfree⟩ | hlast
        · exact absurd ((htaken f hsf hf).symm.trans hfree) (by decide)
        · have htop : (plug p ((q, m) :: path)).bitmap (place 32 x (L - 1)) = false :=
            h.along.top_bit (by rw [length_cons]; omega) (by simp)
          obtain ⟨h', rfl⟩ : ∃ h', L = h' + 1 := ⟨L - 1, by omega⟩
          rw [Nat.add_sub_cancel] at htop
          have hblock : 31 * 32 ^ h' ≤ x := by
            have hstep : 32 ^ (l + 1) ≤ 32 ^ h' := Nat.pow_le_pow_right (by decide) (by omega)
            have hlow : y ≤ x + 32 ^ (l + 1) := by
              rw [← hy, Nat.add_mul, Nat.one_mul]
              exact Nat.add_le_add_right (Nat.div_mul_le_self _ _) _
            omega
          have hplace : place 32 x h' = 31 := by
            apply Fin.ext
            change x / 32 ^ h' % 32 = 31
            rw [Nat.div_eq_of_lt_le hblock (by omega)]
          have hfull := h.valid.bit_of_taken 31 fun j hj hj' => by
            rw [h.same]
            refine hlast j hj ?_
            omega
          rw [hplace] at htop
          exact absurd (hfull.symm.trans htop) (by decide)
      refine .inl ⟨_, y, if_neg hsame, ⟨rfl, by change 0 + (L - 1 + 1) = L; omega, trivial, h.valid,
        h.same, Nat.le_trans h.start (Nat.le_of_lt hgt), hyL, htaken, h.free⟩, ?_⟩
      exact rank_lt hgt hle (Nat.sub_le _ _)

theorem move (hm : place 32 x c.l ≤ m)
    (hbits : ∀ k, place 32 x c.l ≤ k → k < m → c.p.bitmap k = true) :
    Searching K L s b cells { c with id := BitVec.ofNat 32 (moved x c.l m) } (moved x c.l m) := by
  obtain ⟨hle, hdiv, -, hbetween⟩ := moved_spec hm
  have hlevel := h.level
  refine ⟨rfl, h.level, h.along.congr hdiv, h.valid, h.same, Nat.le_trans h.start hle,
    lt_pow_of_div_eq hdiv (by omega) (by decide) h.bound, fun j hj hj' => ?_, h.free⟩
  by_cases hjx : j < x
  · exact h.taken j hj hjx
  · obtain ⟨hjdiv, hjge, hjlt⟩ := hbetween j (Nat.not_lt.mp hjx) hj'
    exact h.taken_of_bit hjdiv (hbits _ hjge hjlt)

theorem enter (hl : c.l = l + 1)
    (hq : c.p.ary (place 32 x c.l) = .node q) (hbit : c.p.bitmap (place 32 x c.l) = false) :
    Searching K L s b cells
      ⟨BitVec.ofNat 32 x, l, q, (c.p, place 32 x c.l) :: c.path, c.free⟩ x := by
  have hplug : plug q ((c.p, place 32 x c.l) :: c.path) = plug c.p c.path := by
    rw [plug, ← hq, LayerOf.setAry, update_eq_self]
  have hlevel := h.level
  refine ⟨rfl, ?_, ⟨by rw [hl], hbit, hl ▸ h.along⟩, ?_, ?_, h.start, h.bound, h.taken, h.free⟩
  · change c.path.length + 1 + (l + 1) = L
    omega
  · rw [hplug]
    exact h.valid
  · rw [hplug]
    exact h.same

end

theorem fill {new : Layer α} (h : Searching K L s b cells c x) (hl : c.l = l + 1)
    (hnull : c.p.ary n = .null) (hbit : c.p.bitmap n = false) (hnew : new.Empty)
    (hfree : ∀ p ∈ rest, p.Clean) :
    Searching K L s b cells ⟨c.id, c.l, { c.p.setAry n (.node { new with layer := l }) with
      count := c.p.count + 1 }, c.path, rest⟩ x := by
  obtain ⟨id, l', p, path, free₀⟩ := c
  obtain rfl : l' = l + 1 := hl
  have hfocus := h.valid.focus h.level
  obtain ⟨-, -, hcount, hplaces⟩ := hfocus.node_inv
  have hold : p.cells n = (false, .null) := by
    rw [LayerOf.cells, hbit, hnull]
  have hcells : ({ p.setAry n (.node { new with layer := l }) with
      count := p.count + 1 } : Layer α).cells =
        update p.cells n (false, .node { new with layer := l }) := by
    rw [← hbit]
    exact LayerOf.cells_setAry p n _
  have hvalid := hfocus.replace (q := { p.setAry n (.node { new with layer := l }) with
      count := p.count + 1 }) rfl hcells (by
    rw [hcells, tally_update_fill (by rw [hold]; rfl) rfl, ← hcount]) (hnew.valid K l)
  have hfull : ({ p.setAry n (.node { new with layer := l }) with
      count := p.count + 1 } : Layer α).full = p.full := LayerOf.full_congr fun _ => rfl
  rw [hfull] at hvalid
  have hsame : ∀ j, cell (l + 1 + 1)
      (p.full, .node { p.setAry n (.node { new with layer := l }) with
      count := p.count + 1 }) j = cell (l + 1 + 1) (p.full, .node p) j := by
    intro j
    rw [cell_node, cell_node, hcells]
    by_cases hj : place 32 j (l + 1) = n
    · rw [hj, update_self, hnew.cell, hold, cell_empty]
    · rw [update_of_ne hj]
  obtain ⟨hv', hs'⟩ := h.valid.plug_same h.along h.level hvalid hsame
  exact ⟨h.id, h.level, h.along, hv', fun j => (hs' j).trans (h.same j), h.start, h.bound, h.taken,
    hfree⟩

theorem down (h : Searching K L s b cells c x) (hL : L ≤ 6)
    (hbit : c.p.bitmap (place 32 x c.l) = false) :
    (∃ c', subAllocDown c (BitVec.ofNat 32 x) (place 32 x c.l) = .next c' ∧
        Searching K L s b cells c' x ∧ c'.rank L x < c.rank L x) ∨
      ∃ r, subAllocDown c (BitVec.ofNat 32 x) (place 32 x c.l) = .stop r ∧
        Searched K L s b cells r := by
  have hx30 := h.lt hL
  have hid := h.id
  have hspace : ¬ (MAX_ID_BIT ≤ BitVec.ofNat 32 x ∨ (BitVec.ofNat 32 x).slt 0#32 = true) := by
    rintro (hge | hneg)
    · rw [le_def, toNat_ofNat, Nat.mod_eq_of_lt (by omega)] at hge
      change 2 ^ 31 ≤ x at hge
      omega
    · rw [slt_eq_decide, decide_eq_true_iff, toInt_ofNat (by omega)] at hneg
      change (x : Int) < 0 at hneg
      omega
  rw [subAllocDown, if_neg hspace]
  by_cases hl : c.l = 0
  · rw [if_pos hl]
    obtain ⟨id, l, p, path, free⟩ := c
    obtain rfl : l = 0 := hl
    obtain rfl : id = BitVec.ofNat 32 x := hid
    refine .inr ⟨_, rfl, .found h ?_⟩
    rw [h.cell_eq rfl]
    exact hbit
  · obtain ⟨l, hl⟩ := Nat.exists_eq_succ_of_ne_zero hl
    have hsub : c.l - 1 = l := by omega
    have hlower : ∀ c' : Cursor α, c'.l = l → c'.rank L x < c.rank L x := by
      intro c' hc'
      rw [Cursor.rank, Cursor.rank]
      omega
    rw [if_neg (by omega), hsub]
    obtain ⟨-, -, -, hplaces⟩ := (h.valid.focus h.level).node_inv
    have hplace := hplaces (place 32 x c.l)
    cases hs : c.p.ary (place 32 x c.l) with
    | null =>
      rcases getFromFreeList_cases h.free with hnone | ⟨new, rest, hget, hnew, hrest⟩
      · refine .inr ⟨some (.noLayer (plug c.p c.path), c.free), ?_, .noLayer h.valid h.same h.free⟩
        simp only [hnone]
      · have hfill := h.fill hl hs hbit hnew hrest
        have henter := hfill.enter (q := { new with layer := l }) hl (update_self ..) hbit
        exact .inl ⟨_, by simp only [hget], henter, hlower _ rfl⟩
    | node q => exact .inl ⟨_, rfl, h.enter hl hs hbit, hlower _ rfl⟩
    | item y =>
      rw [LayerOf.cells, hs, hl] at hplace
      exact absurd hplace not_valid_item

end Searching

theorem subAlloc_spec {free : List (Layer α)}
    (hv : Valid K L (b, .node top)) (h1 : 1 ≤ L) (hL : L ≤ 6) (hs : s < 32 ^ L)
    (hreach : InReach L s (cell L (b, .node top))) (hfree : ∀ p ∈ free, p.Clean)
    (hfuel : 2 ^ 33 ≤ fuel) : ∃ r, subAlloc fuel L (BitVec.ofNat 32 s) top free = some r ∧
      Searched K L s b (cell L (b, .node top)) (some r) := by
  have hstart : Searching K L s b (cell L (b, .node top))
      ⟨BitVec.ofNat 32 s, L - 1, top, [], free⟩ s :=
    ⟨rfl, by change 0 + (L - 1 + 1) = L; omega, trivial, hv, fun _ => rfl, Nat.le_refl s, hs,
      fun j hj hj' => absurd hj' (Nat.not_lt.mpr hj), hfree⟩
  have hrank : Cursor.rank L ⟨BitVec.ofNat 32 s, L - 1, top, [], free⟩ s < fuel := by
    have hpow : 32 ^ L ≤ 2 ^ 30 := Nat.pow_le_pow_right (n := 32) (by decide) hL
    have hmul : (32 ^ L - s) * (L + 1) ≤ 2 ^ 30 * 7 := Nat.mul_le_mul (by omega) (by omega)
    change (32 ^ L - s) * (L + 1) + (L - 1) < fuel
    omega
  have hstep : ∀ {k : Nat} {c : Cursor α},
      (∃ x, k = c.rank L x ∧ Searching K L s b (cell L (b, .node top)) c x) →
      (∃ k' c', subAllocTurn L c = .next c' ∧ k' < k ∧
        ∃ x, k' = c'.rank L x ∧ Searching K L s b (cell L (b, .node top)) c' x) ∨
      ∃ r, subAllocTurn L c = .stop r ∧ Searched K L s b (cell L (b, .node top)) r := by
    rintro k c ⟨x, rfl, h⟩
    have hx30 := h.lt hL
    have hplace : idPlace c.id c.l = place 32 x c.l := by rw [h.id, idPlace_ofNat (by omega)]
    rcases c.p.nextZero_cases (place 32 x c.l) with ⟨hnone, hbits⟩ | ⟨m, hsome, hm, hbit, hbits⟩
    · have hturn : subAllocTurn L c = subAllocUp L c := by
        simp only [subAllocTurn, hplace, hnone]
      rw [hturn]
      rcases h.up hL hreach hbits with ⟨c', y, he, h', hlt⟩ | hstop
      · exact .inl ⟨_, c', he, hlt, y, rfl, h'⟩
      · exact .inr hstop
    · obtain ⟨hle, -, hat, -⟩ := moved_spec hm
      have hmove := h.move hm hbits
      have hid : idAt c.id c.l (place 32 x c.l) m = BitVec.ofNat 32 (moved x c.l m) := by
        rw [h.id, idAt_ofNat (by omega)]
      have hturn : subAllocTurn L c = subAllocDown { c with id := BitVec.ofNat 32 (moved x c.l m) }
          (BitVec.ofNat 32 (moved x c.l m)) (place 32 (moved x c.l m) c.l) := by
        simp only [subAllocTurn, hplace, hsome, hid, hat]
        rfl
      have hranks : Cursor.rank L c (moved x c.l m) ≤ Cursor.rank L c x :=
        Nat.add_le_add_right (Nat.mul_le_mul_right _ (Nat.sub_le_sub_left hle _)) _
      rw [hturn]
      rcases hmove.down hL (by change c.p.bitmap _ = false; rw [hat]; exact hbit) with
        ⟨c', he, h', hlt⟩ | hstop
      · exact .inl ⟨_, c', he, Nat.lt_of_lt_of_le hlt hranks, _, rfl, h'⟩
      · exact .inr hstop
  obtain ⟨r, hrun, hr⟩ := runFor_stops_within
    (fun k c => ∃ x, k = c.rank L x ∧ Searching K L s b (cell L (b, .node top)) c x) hstep
    ⟨s, rfl, hstart⟩ hrank
  cases hr with
  | found h hx => exact ⟨_, by rw [subAlloc, hrun]; rfl, .found h hx⟩
  | needToGrow h₁ h₂ h₃ h₄ => exact ⟨_, by rw [subAlloc, hrun]; rfl, .needToGrow h₁ h₂ h₃ h₄⟩
  | noLayer h₁ h₂ h₃ => exact ⟨_, by rw [subAlloc, hrun]; rfl, .noLayer h₁ h₂ h₃⟩

end SpicaKernel.Ids
