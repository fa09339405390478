import Mathlib.Algebra.Group.Nat.Defs
import SpicaKernel.Runs

namespace SpicaKernel.YaffsEcc
open List Option
set_option autoImplicit true

abbrev Byte := BitVec 8

def columnParityTable : List Byte :=
  [0x00, 0x55, 0x59, 0x0c, 0x65, 0x30, 0x3c, 0x69, 0x69, 0x3c, 0x30, 0x65,
   0x0c, 0x59, 0x55, 0x00, 0x95, 0xc0, 0xcc, 0x99, 0xf0, 0xa5, 0xa9, 0xfc,
   0xfc, 0xa9, 0xa5, 0xf0, 0x99, 0xcc, 0xc0, 0x95, 0x99, 0xcc, 0xc0, 0x95,
   0xfc, 0xa9, 0xa5, 0xf0, 0xf0, 0xa5, 0xa9, 0xfc, 0x95, 0xc0, 0xcc, 0x99,
   0x0c, 0x59, 0x55, 0x00, 0x69, 0x3c, 0x30, 0x65, 0x65, 0x30, 0x3c, 0x69,
   0x00, 0x55, 0x59, 0x0c, 0xa5, 0xf0, 0xfc, 0xa9, 0xc0, 0x95, 0x99, 0xcc,
   0xcc, 0x99, 0x95, 0xc0, 0xa9, 0xfc, 0xf0, 0xa5, 0x30, 0x65, 0x69, 0x3c,
   0x55, 0x00, 0x0c, 0x59, 0x59, 0x0c, 0x00, 0x55, 0x3c, 0x69, 0x65, 0x30,
   0x3c, 0x69, 0x65, 0x30, 0x59, 0x0c, 0x00, 0x55, 0x55, 0x00, 0x0c, 0x59,
   0x30, 0x65, 0x69, 0x3c, 0xa9, 0xfc, 0xf0, 0xa5, 0xcc, 0x99, 0x95, 0xc0,
   0xc0, 0x95, 0x99, 0xcc, 0xa5, 0xf0, 0xfc, 0xa9, 0xa9, 0xfc, 0xf0, 0xa5,
   0xcc, 0x99, 0x95, 0xc0, 0xc0, 0x95, 0x99, 0xcc, 0xa5, 0xf0, 0xfc, 0xa9,
   0x3c, 0x69, 0x65, 0x30, 0x59, 0x0c, 0x00, 0x55, 0x55, 0x00, 0x0c, 0x59,
   0x30, 0x65, 0x69, 0x3c, 0x30, 0x65, 0x69, 0x3c, 0x55, 0x00, 0x0c, 0x59,
   0x59, 0x0c, 0x00, 0x55, 0x3c, 0x69, 0x65, 0x30, 0xa5, 0xf0, 0xfc, 0xa9,
   0xc0, 0x95, 0x99, 0xcc, 0xcc, 0x99, 0x95, 0xc0, 0xa9, 0xfc, 0xf0, 0xa5,
   0x0c, 0x59, 0x55, 0x00, 0x69, 0x3c, 0x30, 0x65, 0x65, 0x30, 0x3c, 0x69,
   0x00, 0x55, 0x59, 0x0c, 0x99, 0xcc, 0xc0, 0x95, 0xfc, 0xa9, 0xa5, 0xf0,
   0xf0, 0xa5, 0xa9, 0xfc, 0x95, 0xc0, 0xcc, 0x99, 0x95, 0xc0, 0xcc, 0x99,
   0xf0, 0xa5, 0xa9, 0xfc, 0xfc, 0xa9, 0xa5, 0xf0, 0x99, 0xcc, 0xc0, 0x95,
   0x00, 0x55, 0x59, 0x0c, 0x65, 0x30, 0x3c, 0x69, 0x69, 0x3c, 0x30, 0x65,
   0x0c, 0x59, 0x55, 0x00]

def columnParity (b : Byte) : Byte := columnParityTable.getD b.toNat 0

/-- What the loops of the two functions collect, which differ in the width of the line parities. -/
structure Parities (w : Nat) where
  col : Byte
  line : BitVec w
  linePrime : BitVec w

def parityStep (p : Parities w) (i : Nat) (b : Byte) : Parities w :=
  if columnParity b &&& 0x01#8 ≠ 0#8 then
    ⟨p.col ^^^ columnParity b, p.line ^^^ BitVec.ofNat w i, p.linePrime ^^^ ~~~ BitVec.ofNat w i⟩
  else ⟨p.col ^^^ columnParity b, p.line, p.linePrime⟩

def parityLoop : Nat → Parities w → List Byte → Parities w
  | _, p, [] => p
  | i, p, b :: data => parityLoop (i + 1) (parityStep p i b) data

def parities (w : Nat) (data : List Byte) : Parities w := parityLoop 0 ⟨0#8, 0#w, 0#w⟩ data

/-- `if (x & m) t |= b`. -/
def stuff (x m t b : Byte) : Byte := if x &&& m ≠ 0#8 then t ||| b else t

/-- Four bits of the line parity, each in front of its bit of the other line parity. -/
def interleave (m₃ m₂ m₁ m₀ line linePrime : Byte) : Byte :=
  let t := stuff line m₃ 0#8 0x80#8
  let t := stuff linePrime m₃ t 0x40#8
  let t := stuff line m₂ t 0x20#8
  let t := stuff linePrime m₂ t 0x10#8
  let t := stuff line m₁ t 0x08#8
  let t := stuff linePrime m₁ t 0x04#8
  let t := stuff line m₀ t 0x02#8
  stuff linePrime m₀ t 0x01#8

def interleaveHigh (line linePrime : Byte) : Byte :=
  interleave 0x80#8 0x40#8 0x20#8 0x10#8 line linePrime

def interleaveLow (line linePrime : Byte) : Byte :=
  interleave 0x08#8 0x04#8 0x02#8 0x01#8 line linePrime

structure Ecc where
  e0 : Byte
  e1 : Byte
  e2 : Byte
  deriving DecidableEq

/-- `CONFIG_YAFFS_ECC_WRONG_ORDER` swaps the first two bytes. -/
def order (wrongOrder : Bool) (e0 e1 : Byte) : Byte × Byte :=
  if wrongOrder then (e1, e0) else (e0, e1)

def yaffsECCCalculate (wrongOrder : Bool) (data : List Byte) : Ecc :=
  let p := parities 8 (data.take 256)
  let e2 := ~~~ p.col ||| 0x03#8
  let e1 := ~~~ interleaveHigh p.line p.linePrime
  let e0 := ~~~ interleaveLow p.line p.linePrime
  let e := order wrongOrder e0 e1
  ⟨e.1, e.2, e2⟩

def countTurn (s : BitVec w × Nat) : Turn (BitVec w × Nat) Nat :=
  if s.1 = 0#w then .stop s.2
  else .next (s.1 >>> 1, if s.1 &&& 1#w ≠ 0#w then s.2 + 1 else s.2)

/-- `yaffs_CountBits` and `yaffs_CountBits32`. -/
def yaffsCountBits (x : BitVec w) : Option Nat := runFor countTurn (w + 1) (x, 0)

/-- `data[byte] ^= (1 << bit)`. -/
def flipAt (data : List Byte) (byte bit : Nat) : Option (List Byte) :=
  if byte < data.length then some (data.modify byte fun b => b ^^^ (1#8 <<< bit)) else none

def Paired (d mask : Byte) : Prop := (d ^^^ (d >>> 1)) &&& mask = mask

instance : Decidable (Paired d mask) := inferInstanceAs (Decidable (_ = _))

def errorByte (d0 d1 : Byte) : Byte :=
  let byte := stuff d1 0x80#8 0#8 0x80#8
  let byte := stuff d1 0x20#8 byte 0x40#8
  let byte := stuff d1 0x08#8 byte 0x20#8
  let byte := stuff d1 0x02#8 byte 0x10#8
  let byte := stuff d0 0x80#8 byte 0x08#8
  let byte := stuff d0 0x20#8 byte 0x04#8
  let byte := stuff d0 0x08#8 byte 0x02#8
  stuff d0 0x02#8 byte 0x01#8

def errorBit (m₂ m₁ m₀ d : Byte) : Byte :=
  let bit := stuff d m₂ 0#8 0x04#8
  let bit := stuff d m₁ bit 0x02#8
  stuff d m₀ bit 0x01#8

/-- `yaffs_ECCCorrect`. Returns the return value, the data and the ECC that was read. -/
def yaffsECCCorrect (wrongOrder : Bool) (data : List Byte) (readEcc testEcc : Ecc) :
    Option (Int × List Byte × Ecc) :=
  let d0 := readEcc.e0 ^^^ testEcc.e0
  let d1 := readEcc.e1 ^^^ testEcc.e1
  let d2 := readEcc.e2 ^^^ testEcc.e2
  if d0 ||| d1 ||| d2 = 0#8 then some (0, data, readEcc)
  else if Paired d0 0x55#8 ∧ Paired d1 0x55#8 ∧ Paired d2 0x54#8 then do
    let d := order wrongOrder d0 d1
    let data ← flipAt data (errorByte d.1 d.2).toNat (errorBit 0x80#8 0x20#8 0x08#8 d2).toNat
    return (1, data, readEcc)
  else do
    let n0 ← yaffsCountBits d0
    let n1 ← yaffsCountBits d1
    let n2 ← yaffsCountBits d2
    return if n0 + n1 + n2 = 1 then (1, data, testEcc) else (-1, data, readEcc)

structure EccOther where
  colParity : Byte
  lineParity : BitVec 32
  lineParityPrime : BitVec 32
  deriving DecidableEq

def yaffsECCCalculateOther (data : List Byte) : EccOther :=
  let p := parities 32 data
  ⟨(p.col >>> 2) &&& 0x3f#8, p.line, p.linePrime⟩

def yaffsECCCorrectOther (data : List Byte) (readEcc testEcc : EccOther) :
    Option (Int × List Byte × EccOther) :=
  let cDelta := readEcc.colParity ^^^ testEcc.colParity
  let lDelta := readEcc.lineParity ^^^ testEcc.lineParity
  let lDeltaPrime := readEcc.lineParityPrime ^^^ testEcc.lineParityPrime
  if cDelta.setWidth 32 ||| lDelta ||| lDeltaPrime = 0#32 then some (0, data, readEcc)
  else if lDelta = ~~~ lDeltaPrime ∧ Paired cDelta 0x15#8 then
    if data.length ≤ lDelta.toNat then some (-1, data, readEcc)
    else do
      let data ← flipAt data lDelta.toNat (errorBit 0x20#8 0x08#8 0x02#8 cDelta).toNat
      return (1, data, readEcc)
  else do
    let n0 ← yaffsCountBits lDelta
    let n1 ← yaffsCountBits lDeltaPrime
    let n2 ← yaffsCountBits cDelta
    return if n0 + n1 + n2 = 1 then (1, data, testEcc) else (-1, data, readEcc)

/-- The data with a bit of a byte flipped. -/
def flip (i : Nat) (k : Fin 8) (data : List Byte) : List Byte :=
  data.modify i fun b => b ^^^ (1#8 <<< k.val)

/-- One wrong bit, of the data or of the ECC, is set right, and two of the data are found. -/
structure SecDed (calculate : List Byte → ε)
    (correct : List Byte → ε → ε → Option (Int × List Byte × ε)) (flipEcc : β → ε → ε)
    (data : List Byte) : Prop where
  dataBit : ∀ i < data.length, ∀ k, correct (flip i k data) (calculate data)
    (calculate (flip i k data)) = some (1, data, calculate data)
  eccBit : ∀ b, correct data (flipEcc b (calculate data)) (calculate data) =
    some (1, data, calculate data)
  twoBits : ∀ i < data.length, ∀ j < data.length, ∀ k l, (i, k) ≠ (j, l) →
    correct (flip i k (flip j l data)) (calculate data) (calculate (flip i k (flip j l data))) =
      some (-1, flip i k (flip j l data), calculate data)

/-- A bit of an ECC, and that of an ECC for other lengths. -/
inductive EccBit where
  | e0 (k : Fin 8)
  | e1 (k : Fin 8)
  | e2 (k : Fin 8)

inductive EccOtherBit where
  | col (k : Fin 8)
  | line (k : Fin 32)
  | linePrime (k : Fin 32)

def Ecc.flip (e : Ecc) : EccBit → Ecc
  | .e0 k => { e with e0 := e.e0 ^^^ (1#8 <<< k.val) }
  | .e1 k => { e with e1 := e.e1 ^^^ (1#8 <<< k.val) }
  | .e2 k => { e with e2 := e.e2 ^^^ (1#8 <<< k.val) }

def EccOther.flip (e : EccOther) : EccOtherBit → EccOther
  | .col k => { e with colParity := e.colParity ^^^ (1#8 <<< k.val) }
  | .line k => { e with lineParity := e.lineParity ^^^ (1#32 <<< k.val) }
  | .linePrime k => { e with lineParityPrime := e.lineParityPrime ^^^ (1#32 <<< k.val) }

theorem xor_cancel (x y : BitVec w) : x ^^^ (x ^^^ y) = y := by
  rw [← BitVec.xor_assoc, BitVec.xor_self, BitVec.zero_xor]

theorem columnParity_flip : ∀ (b : Byte) (k : Fin 8),
    columnParity (b ^^^ (1#8 <<< k.val)) = columnParity b ^^^ columnParity (1#8 <<< k.val) := by
  decide +kernel

theorem columnParity_bit_odd : ∀ k : Fin 8, (columnParity (1#8 <<< k.val)).getLsbD 0 = true := by
  decide

/-- What a flipped bit changes in the parities. -/
def Parities.single (w i : Nat) (k : Fin 8) : Parities w :=
  ⟨columnParity (1#8 <<< k.val), BitVec.ofNat w i, ~~~ BitVec.ofNat w i⟩

def Parities.xor (p q : Parities w) : Parities w :=
  ⟨p.col ^^^ q.col, p.line ^^^ q.line, p.linePrime ^^^ q.linePrime⟩

theorem and_twoPow_ne_zero (x : BitVec w) (hk : k < w) :
    x &&& BitVec.twoPow w k ≠ 0#w ↔ x.getLsbD k = true := by
  rw [BitVec.and_twoPow]
  by_cases h : x.getLsbD k = true
  · have hne : BitVec.twoPow w k ≠ 0#w := by
      intro hzero
      have hbit := congrArg (fun z : BitVec w => z.getLsbD k) hzero
      simp [hk] at hbit
    rw [if_pos h]
    exact ⟨fun _ => h, fun _ => hne⟩
  · rw [if_neg h]
    exact ⟨fun h' => absurd rfl h', fun h' => absurd h' h⟩

theorem parityStep_eq (p : Parities w) (i : Nat) (b : Byte) :
    parityStep p i b = ⟨p.col ^^^ columnParity b,
      p.line ^^^ (if (columnParity b).getLsbD 0 then BitVec.ofNat w i else 0#w),
      p.linePrime ^^^ (if (columnParity b).getLsbD 0 then ~~~ BitVec.ofNat w i else 0#w)⟩ := by
  rw [parityStep]
  have hodd : columnParity b &&& 0x01#8 ≠ 0#8 ↔ (columnParity b).getLsbD 0 = true :=
    and_twoPow_ne_zero (w := 8) (k := 0) _ (by decide)
  by_cases h : (columnParity b).getLsbD 0 = true
  · rw [if_pos (hodd.mpr h), if_pos h, if_pos h]
  · rw [if_neg fun h' => h (hodd.mp h'), if_neg h, if_neg h, BitVec.xor_zero, BitVec.xor_zero]

theorem parityStep_xor (p q : Parities w) (i : Nat) (b : Byte) :
    parityStep (p.xor q) i b = (parityStep p i b).xor q := by
  have hcomm (v : Nat) (x y z : BitVec v) : x ^^^ y ^^^ z = x ^^^ z ^^^ y := by
    rw [BitVec.xor_assoc, BitVec.xor_comm y, ← BitVec.xor_assoc]
  simp only [parityStep_eq, Parities.xor, Parities.mk.injEq]
  exact ⟨hcomm _ _ _ _, hcomm _ _ _ _, hcomm _ _ _ _⟩

theorem parityStep_flip (p : Parities w) (i : Nat) (b : Byte) (k : Fin 8) :
    parityStep p i (b ^^^ (1#8 <<< k.val)) = (parityStep p i b).xor (.single w i k) := by
  simp only [parityStep_eq, Parities.xor, Parities.single, Parities.mk.injEq, columnParity_flip,
    BitVec.getLsbD_xor, columnParity_bit_odd, Bool.xor_true, BitVec.xor_assoc]
  cases (columnParity b).getLsbD 0 <;> simp

theorem parityLoop_xor (p q : Parities w) (i : Nat) (data : List Byte) :
    parityLoop i (p.xor q) data = (parityLoop i p data).xor q := by
  induction data generalizing i p with
  | nil => rfl
  | cons b data ih =>
    rw [parityLoop, parityStep_xor, ih]
    rfl

theorem parityLoop_flip (p : Parities w) (n : Nat) (k : Fin 8) (hi : i < data.length) :
    parityLoop n p (flip i k data) = (parityLoop n p data).xor (.single w (n + i) k) := by
  induction data generalizing n p i with
  | nil => exact absurd hi (Nat.not_lt_zero _)
  | cons b data ih =>
    cases i with
    | zero =>
      show parityLoop (n + 1) (parityStep p n _) data = _
      rw [parityStep_flip, parityLoop_xor]
      rfl
    | succ i =>
      have hrest := ih (parityStep p n b) (n + 1) (Nat.lt_of_succ_lt_succ hi)
      rw [Nat.add_assoc, Nat.add_comm 1 i] at hrest
      exact hrest

theorem parities_flip (w : Nat) (k : Fin 8) (hi : i < data.length) :
    parities w (flip i k data) = (parities w data).xor (.single w i k) := by
  have hloop := parityLoop_flip (w := w) ⟨0#8, 0#w, 0#w⟩ 0 k hi
  rw [Nat.zero_add] at hloop
  exact hloop

theorem length_flip (i : Nat) (k : Fin 8) (data : List Byte) :
    (flip i k data).length = data.length := length_modify _ _ _

theorem parities_flip_flip (w : Nat) (k l : Fin 8) (hi : i < data.length)
    (hj : j < data.length) : parities w (flip i k (flip j l data)) =
      (parities w data).xor ((Parities.single w j l).xor (.single w i k)) := by
  rw [parities_flip w k (by rwa [length_flip]), parities_flip w l hj]
  simp only [Parities.xor, BitVec.xor_assoc]

theorem flip_flip (i : Nat) (k : Fin 8) (data : List Byte) : flip i k (flip i k data) = data := by
  rw [flip, flip, modify_modify_eq]
  have hid : ((fun b : Byte => b ^^^ (1#8 <<< k.val)) ∘ fun b => b ^^^ (1#8 <<< k.val)) = id := by
    funext b
    rw [Function.comp_apply, BitVec.xor_comm, BitVec.xor_comm b, xor_cancel]
    rfl
  rw [hid, modify_id]

theorem flipAt_flip (k : Fin 8) (hi : i < data.length) :
    flipAt (flip i k data) i k = some data := by
  rw [flipAt, if_pos (by rwa [length_flip])]
  exact congrArg some (flip_flip i k data)

def hasBit (x m : Byte) : Bool := decide (x &&& m ≠ 0#8)

theorem hasBit_xor (x y : Byte) (hk : k < 8) : hasBit (x ^^^ y) (BitVec.twoPow 8 k) =
    (hasBit x (BitVec.twoPow 8 k) ^^ hasBit y (BitVec.twoPow 8 k)) := by
  have hbit (z : Byte) : hasBit z (BitVec.twoPow 8 k) = z.getLsbD k := by
    rw [hasBit, Bool.eq_iff_iff, decide_eq_true_iff]
    exact and_twoPow_ne_zero z hk
  rw [hbit, hbit, hbit, BitVec.getLsbD_xor]

theorem getLsbD_stuff (x m t b : Byte) (j : Nat) :
    (stuff x m t b).getLsbD j = (t.getLsbD j || (hasBit x m && b.getLsbD j)) := by
  rw [stuff, hasBit]
  by_cases h : x &&& m ≠ 0#8
  · rw [if_pos h, decide_eq_true h, BitVec.getLsbD_or, Bool.true_and]
  · rw [if_neg h, decide_eq_false h, Bool.false_and, Bool.or_false]

theorem interleave_xor (h₃ : k₃ < 8) (h₂ : k₂ < 8) (h₁ : k₁ < 8) (h₀ : k₀ < 8)
    (line linePrime line' linePrime' : Byte) :
    interleave (.twoPow 8 k₃) (.twoPow 8 k₂) (.twoPow 8 k₁) (.twoPow 8 k₀) (line ^^^ line')
        (linePrime ^^^ linePrime') =
      interleave (.twoPow 8 k₃) (.twoPow 8 k₂) (.twoPow 8 k₁) (.twoPow 8 k₀) line linePrime ^^^
        interleave (.twoPow 8 k₃) (.twoPow 8 k₂) (.twoPow 8 k₁) (.twoPow 8 k₀) line'
          linePrime' := by
  apply BitVec.eq_of_getLsbD_eq
  intro j hj
  simp only [interleave, getLsbD_stuff, BitVec.getLsbD_xor, hasBit_xor _ _ h₃, hasBit_xor _ _ h₂,
    hasBit_xor _ _ h₁, hasBit_xor _ _ h₀]
  have hj' : j = 0 ∨ j = 1 ∨ j = 2 ∨ j = 3 ∨ j = 4 ∨ j = 5 ∨ j = 6 ∨ j = 7 := by omega
  rcases hj' with rfl | rfl | rfl | rfl | rfl | rfl | rfl | rfl <;> simp

/-- The bits that are set among the lowest ones. -/
def ones : Nat → BitVec w → Nat
  | 0, _ => 0
  | n + 1, x => (x.getLsbD 0).toNat + ones n (x >>> 1)

theorem ones_zero (n : Nat) : ones n (0#w) = 0 := by
  induction n with
  | zero => rfl
  | succ n ih =>
    rw [ones, BitVec.getLsbD_zero, BitVec.zero_ushiftRight, ih]
    rfl

theorem runFor_countTurn {x : BitVec w} (hx : x >>> n = 0#w) (r : Nat) :
    runFor countTurn (n + 1) (x, r) = some (r + ones n x) := by
  induction n generalizing x r with
  | zero =>
    rw [BitVec.ushiftRight_zero] at hx
    rw [runFor, countTurn, if_pos hx]
    rfl
  | succ n ih =>
    rw [runFor, countTurn]
    by_cases hzero : x = 0#w
    · rw [if_pos hzero, hzero, ones_zero]
      rfl
    · have hw : 0 < w := BitVec.length_pos_of_ne hzero
      have hodd : x &&& 1#w ≠ 0#w ↔ x.getLsbD 0 = true := by
        rw [← BitVec.twoPow_zero]
        exact and_twoPow_ne_zero x hw
      rw [Nat.add_comm, BitVec.shiftRight_add] at hx
      rw [if_neg hzero]
      show runFor countTurn (n + 1) (x >>> 1, _) = _
      rw [ih hx, ones]
      cases hbit : x.getLsbD 0 with
      | false =>
        rw [hbit] at hodd
        rw [if_neg fun h => Bool.noConfusion (hodd.mp h)]
        simp
      | true =>
        rw [if_pos (hodd.mpr hbit)]
        simp [Nat.add_assoc]

theorem yaffsCountBits_eq (x : BitVec w) : yaffsCountBits x = some (ones w x) := by
  rw [yaffsCountBits, runFor_countTurn (BitVec.ushiftRight_eq_zero (Nat.le_refl w)), Nat.zero_add]

theorem ones_pos {x : BitVec w} (hx : x >>> n = 0#w) (hne : x ≠ 0#w) : 0 < ones n x := by
  induction n generalizing x with
  | zero =>
    exact absurd hx hne
  | succ n ih =>
    rw [Nat.add_comm, BitVec.shiftRight_add] at hx
    rw [ones]
    cases hbit : x.getLsbD 0 with
    | true => exact Nat.add_pos_left Nat.one_pos _
    | false =>
      apply Nat.add_pos_right
      apply ih hx
      intro hshift
      apply hne
      apply BitVec.eq_of_getLsbD_eq
      intro j hj
      rw [BitVec.getLsbD_zero]
      cases j with
      | zero => exact hbit
      | succ j =>
        have hj' := congrArg (fun z : BitVec w => z.getLsbD j) hshift
        simpa [Nat.add_comm] using hj'

theorem ones_bit_eight : ∀ k : Fin 8, ones 8 (1#8 <<< k.val) = 1 := by decide +kernel

theorem ones_bit_thirtyTwo : ∀ k : Fin 32, ones 32 (1#32 <<< k.val) = 1 := by decide +kernel

theorem interleave_single : ∀ i : Byte,
    Paired (interleaveLow i (~~~ i)) 0x55#8 ∧ Paired (interleaveHigh i (~~~ i)) 0x55#8 ∧
      errorByte (interleaveLow i (~~~ i)) (interleaveHigh i (~~~ i)) = i := by
  decide +kernel

theorem interleave_double : ∀ x : Byte,
    ¬ Paired (interleaveLow x x) 0x55#8 ∧ ¬ Paired (interleaveHigh x x) 0x55#8 ∧
      (x ≠ 0#8 → 2 ≤ ones 8 (interleaveLow x x) + ones 8 (interleaveHigh x x)) := by
  decide +kernel

theorem col_single : ∀ k : Fin 8, Paired (columnParity (1#8 <<< k.val) &&& 0xfc#8) 0x54#8 ∧
      (errorBit 0x80#8 0x20#8 0x08#8 (columnParity (1#8 <<< k.val) &&& 0xfc#8)).toNat = k := by
  decide +kernel

theorem col_double : ∀ k l : Fin 8, k ≠ l →
    2 ≤ ones 8 ((columnParity (1#8 <<< l.val) ^^^ columnParity (1#8 <<< k.val)) &&& 0xfc#8) := by
  decide +kernel

def eccOf (wrongOrder : Bool) (p : Parities 8) : Ecc :=
  let e := order wrongOrder (~~~ interleaveLow p.line p.linePrime)
    (~~~ interleaveHigh p.line p.linePrime)
  ⟨e.1, e.2, ~~~ p.col ||| 0x03#8⟩

theorem yaffsECCCalculate_eq (wrongOrder : Bool) (hlen : data.length = 256) :
    yaffsECCCalculate wrongOrder data = eccOf wrongOrder (parities 8 data) := by
  rw [yaffsECCCalculate, take_of_length_le (by omega)]
  rfl

theorem interleave_delta (h₃ : k₃ < 8) (h₂ : k₂ < 8) (h₁ : k₁ < 8) (h₀ : k₀ < 8)
    (p q : Parities 8) :
    ~~~ interleave (.twoPow 8 k₃) (.twoPow 8 k₂) (.twoPow 8 k₁) (.twoPow 8 k₀) p.line
        p.linePrime ^^^
      ~~~ interleave (.twoPow 8 k₃) (.twoPow 8 k₂) (.twoPow 8 k₁) (.twoPow 8 k₀) (p.xor q).line
        (p.xor q).linePrime =
    interleave (.twoPow 8 k₃) (.twoPow 8 k₂) (.twoPow 8 k₁) (.twoPow 8 k₀) q.line q.linePrime := by
  rw [Parities.xor, interleave_xor h₃ h₂ h₁ h₀, BitVec.not_xor_left, xor_cancel]

theorem interleaveLow_delta (p q : Parities 8) : ~~~ interleaveLow p.line p.linePrime ^^^
      ~~~ interleaveLow (p.xor q).line (p.xor q).linePrime = interleaveLow q.line q.linePrime :=
  interleave_delta (show 3 < 8 by decide) (show 2 < 8 by decide) (show 1 < 8 by decide)
    (show 0 < 8 by decide) p q

theorem interleaveHigh_delta (p q : Parities 8) : ~~~ interleaveHigh p.line p.linePrime ^^^
      ~~~ interleaveHigh (p.xor q).line (p.xor q).linePrime = interleaveHigh q.line q.linePrime :=
  interleave_delta (show 7 < 8 by decide) (show 6 < 8 by decide) (show 5 < 8 by decide)
    (show 4 < 8 by decide) p q

theorem col_delta (x y : Byte) : (~~~ x ||| 0x03#8) ^^^ (~~~ (x ^^^ y) ||| 0x03#8) = y &&&
    0xfc#8 := by
  apply BitVec.eq_of_getLsbD_eq
  intro j hj
  simp only [BitVec.getLsbD_xor, BitVec.getLsbD_not, BitVec.getLsbD_or, BitVec.getLsbD_and, hj,
    decide_true, Bool.true_and]
  have hmask : ∀ j < 8, (0xfc#8).getLsbD j = !(0x03#8).getLsbD j := by decide
  rw [hmask j hj]
  cases x.getLsbD j <;> cases y.getLsbD j <;> cases (0x03#8).getLsbD j <;> rfl

theorem eccOf_delta (wrongOrder : Bool) (p q : Parities 8) :
    ((eccOf wrongOrder p).e0 ^^^ (eccOf wrongOrder (p.xor q)).e0,
      (eccOf wrongOrder p).e1 ^^^ (eccOf wrongOrder (p.xor q)).e1) =
        order wrongOrder (interleaveLow q.line q.linePrime) (interleaveHigh q.line q.linePrime) ∧
      (eccOf wrongOrder p).e2 ^^^ (eccOf wrongOrder (p.xor q)).e2 = q.col &&& 0xfc#8 := by
  rw [← interleaveLow_delta p q, ← interleaveHigh_delta p q, ← col_delta p.col]
  cases wrongOrder <;> exact ⟨rfl, rfl⟩

theorem yaffsECCCorrect_single (wrongOrder : Bool) (data : List Byte) (i : Byte) (k : Fin 8)
    (hline : (e.e0 ^^^ e'.e0, e.e1 ^^^ e'.e1) =
      order wrongOrder (interleaveLow i (~~~ i)) (interleaveHigh i (~~~ i)))
    (hcol : e.e2 ^^^ e'.e2 = columnParity (1#8 <<< k.val) &&& 0xfc#8) :
    yaffsECCCorrect wrongOrder data e e' =
      (flipAt data i.toNat k).bind fun data => some (1, data, e) := by
  obtain ⟨hlow, hhigh, hbyte⟩ := interleave_single i
  obtain ⟨hpaired, hbit⟩ := col_single k
  have hdelta : Paired (e.e0 ^^^ e'.e0) 0x55#8 ∧ Paired (e.e1 ^^^ e'.e1) 0x55#8 ∧
      order wrongOrder (e.e0 ^^^ e'.e0) (e.e1 ^^^ e'.e1) =
        (interleaveLow i (~~~ i), interleaveHigh i (~~~ i)) := by
    cases wrongOrder with
    | false =>
      obtain ⟨h₀, h₁⟩ := Prod.mk.inj hline
      rw [h₀, h₁]
      exact ⟨hlow, hhigh, rfl⟩
    | true =>
      obtain ⟨h₀, h₁⟩ := Prod.mk.inj hline
      rw [h₀, h₁]
      exact ⟨hhigh, hlow, rfl⟩
  have hne : ¬ (e.e0 ^^^ e'.e0 ||| (e.e1 ^^^ e'.e1) |||
      (columnParity (1#8 <<< k.val) &&& 0xfc#8) = 0#8) := by
    intro hzero
    have hcol0 := (BitVec.or_eq_zero_iff.mp hzero).2
    rw [hcol0] at hpaired
    exact absurd hpaired (by decide)
  simp only [yaffsECCCorrect, hcol, if_neg hne, hdelta, hpaired, hbyte, hbit, and_self, if_true]
  rfl

theorem yaffsECCCorrect_count (wrongOrder : Bool) (data : List Byte)
    (hnot : ¬ (Paired (e.e0 ^^^ e'.e0) 0x55#8 ∧ Paired (e.e1 ^^^ e'.e1) 0x55#8 ∧
      Paired (e.e2 ^^^ e'.e2) 0x54#8))
    (hcount : ones 8 (e.e0 ^^^ e'.e0) + ones 8 (e.e1 ^^^ e'.e1) + ones 8 (e.e2 ^^^ e'.e2) = n)
    (hpos : 0 < n) : yaffsECCCorrect wrongOrder data e e' =
      some (if n = 1 then (1, data, e') else (-1, data, e)) := by
  have hne : ¬ (e.e0 ^^^ e'.e0 ||| (e.e1 ^^^ e'.e1) ||| (e.e2 ^^^ e'.e2) = 0#8) := by
    intro hzero
    obtain ⟨hzero, h₂⟩ := BitVec.or_eq_zero_iff.mp hzero
    obtain ⟨h₀, h₁⟩ := BitVec.or_eq_zero_iff.mp hzero
    rw [h₀, h₁, h₂, ones_zero] at hcount
    omega
  simp only [yaffsECCCorrect, if_neg hne, if_neg hnot, yaffsCountBits_eq, hcount,
    bind_eq_bind, bind_some]
  rfl

theorem yaffsECCCorrect_eccBit (wrongOrder : Bool) (data : List Byte) (e : Ecc) (b : EccBit) :
    yaffsECCCorrect wrongOrder data (e.flip b) e = some (1, data, e) := by
  have hflip (x y : Byte) : x ^^^ y ^^^ x = y := by
    rw [BitVec.xor_comm, xor_cancel]
  have hcount : ones 8 ((e.flip b).e0 ^^^ e.e0) + ones 8 ((e.flip b).e1 ^^^ e.e1) +
      ones 8 ((e.flip b).e2 ^^^ e.e2) = 1 := by
    cases b <;> simp [Ecc.flip, hflip, ones_zero, ones_bit_eight]
  apply yaffsECCCorrect_count wrongOrder data _ hcount Nat.one_pos
  rintro ⟨h₀, h₁, -⟩
  have hunpaired : ¬ Paired (0#8) 0x55#8 := by decide
  -- One of the first two bytes has no difference at all.
  cases b with
  | e0 k =>
    rw [Ecc.flip, BitVec.xor_self] at h₁
    exact hunpaired h₁
  | e1 k =>
    rw [Ecc.flip, BitVec.xor_self] at h₀
    exact hunpaired h₀
  | e2 k =>
    rw [Ecc.flip, BitVec.xor_self] at h₀
    exact hunpaired h₀

theorem not_xor_not (x y : BitVec w) : ~~~ x ^^^ ~~~ y = x ^^^ y := by
  rw [← BitVec.not_xor_left, ← BitVec.not_xor_right, BitVec.not_not]

theorem ofNat_xor_ne_zero (hi : i < 2 ^ w) (hj : j < 2 ^ w) (hne : i ≠ j) :
    BitVec.ofNat w i ^^^ BitVec.ofNat w j ≠ 0#w := by
  intro hzero
  have heq := congrArg BitVec.toNat (BitVec.xor_eq_zero_iff.mp hzero)
  rw [BitVec.toNat_ofNat, BitVec.toNat_ofNat, Nat.mod_eq_of_lt hi, Nat.mod_eq_of_lt hj] at heq
  exact hne heq

theorem interleave_two {k l : Fin 8} (hi : i < 256) (hj : j < 256) (hne : (i, k) ≠ (j, l))
    (hx : BitVec.ofNat 8 j ^^^ BitVec.ofNat 8 i = x) :
    ¬ Paired (interleaveLow x x) 0x55#8 ∧ ¬ Paired (interleaveHigh x x) 0x55#8 ∧
      2 ≤ ones 8 (interleaveLow x x) + ones 8 (interleaveHigh x x) +
        ones 8 ((columnParity (1#8 <<< l.val) ^^^ columnParity (1#8 <<< k.val)) &&& 0xfc#8) := by
  obtain ⟨hlow, hhigh, hcount⟩ := interleave_double x
  refine ⟨hlow, hhigh, ?_⟩
  by_cases hij : i = j
  · have hkl : k ≠ l := fun h => hne (by rw [hij, h])
    exact Nat.le_add_left_of_le (col_double k l hkl)
  · exact Nat.le_add_right_of_le (hcount (hx ▸ ofNat_xor_ne_zero hj hi (Ne.symm hij)))

theorem secDed_block (wrongOrder : Bool) (hlen : data.length = 256) :
    SecDed (yaffsECCCalculate wrongOrder) (yaffsECCCorrect wrongOrder) (fun b e => e.flip b)
      data where
  dataBit i hi k := by
    have hdelta := eccOf_delta wrongOrder (parities 8 data) (.single 8 i k)
    rw [← parities_flip 8 k hi, ← yaffsECCCalculate_eq wrongOrder hlen,
      ← yaffsECCCalculate_eq wrongOrder (by rwa [length_flip])] at hdelta
    have hi8 : (BitVec.ofNat 8 i).toNat = i := by
      rw [BitVec.toNat_ofNat]
      omega
    rw [yaffsECCCorrect_single wrongOrder _ (.ofNat 8 i) k hdelta.1 hdelta.2, hi8, flipAt_flip k hi]
    rfl
  eccBit b := yaffsECCCorrect_eccBit wrongOrder data _ b
  twoBits i hi j hj k l hne := by
    have hdelta := eccOf_delta wrongOrder (parities 8 data)
      ((Parities.single 8 j l).xor (.single 8 i k))
    rw [← parities_flip_flip 8 k l hi hj, ← yaffsECCCalculate_eq wrongOrder hlen,
      ← yaffsECCCalculate_eq wrongOrder (by rwa [length_flip, length_flip])] at hdelta
    generalize hread : yaffsECCCalculate wrongOrder data = read at hdelta ⊢
    generalize htest : yaffsECCCalculate wrongOrder (flip i k (flip j l data)) = test at hdelta ⊢
    obtain ⟨hline, hcol⟩ := hdelta
    obtain ⟨hlow, hhigh, hcount⟩ := interleave_two (hlen ▸ hi) (hlen ▸ hj) hne rfl
    simp only [Parities.xor, Parities.single, not_xor_not] at hline hcol
    have hsum : ¬ Paired (read.e0 ^^^ test.e0) 0x55#8 ∧ 2 ≤ ones 8 (read.e0 ^^^ test.e0) +
        ones 8 (read.e1 ^^^ test.e1) + ones 8 (read.e2 ^^^ test.e2) := by
      rw [hcol]
      cases wrongOrder with
      | false =>
        obtain ⟨h₀, h₁⟩ := Prod.mk.inj hline
        rw [h₀, h₁]
        exact ⟨hlow, hcount⟩
      | true =>
        obtain ⟨h₀, h₁⟩ := Prod.mk.inj hline
        rw [h₀, h₁, Nat.add_comm (ones 8 (interleaveHigh _ _))]
        exact ⟨hhigh, hcount⟩
    rw [yaffsECCCorrect_count wrongOrder _ (fun h => hsum.1 h.1) rfl (by omega), if_neg (by omega)]

def eccOtherOf (p : Parities 32) : EccOther := ⟨(p.col >>> 2) &&& 0x3f#8, p.line, p.linePrime⟩

theorem eccOtherOf_delta (p q : Parities 32) :
    (eccOtherOf p).colParity ^^^ (eccOtherOf (p.xor q)).colParity = (q.col >>> 2) &&& 0x3f#8 ∧
      (eccOtherOf p).lineParity ^^^ (eccOtherOf (p.xor q)).lineParity = q.line ∧
      (eccOtherOf p).lineParityPrime ^^^ (eccOtherOf (p.xor q)).lineParityPrime = q.linePrime := by
  refine ⟨?_, xor_cancel _ _, xor_cancel _ _⟩
  show (p.col >>> 2) &&& 0x3f#8 ^^^ ((p.col ^^^ q.col) >>> 2) &&& 0x3f#8 = _
  rw [BitVec.ushiftRight_xor_distrib]
  apply BitVec.eq_of_getLsbD_eq
  intro j hj
  simp only [BitVec.getLsbD_xor, BitVec.getLsbD_and]
  cases (p.col >>> 2).getLsbD j <;> cases (q.col >>> 2).getLsbD j <;>
    cases (0x3f#8).getLsbD j <;> rfl

theorem colOther_single : ∀ k : Fin 8,
    Paired ((columnParity (1#8 <<< k.val) >>> 2) &&& 0x3f#8) 0x15#8 ∧ (errorBit 0x20#8 0x08#8 0x02#8
        ((columnParity (1#8 <<< k.val) >>> 2) &&& 0x3f#8)).toNat = k := by
  decide +kernel

theorem colOther_double : ∀ k l : Fin 8, k ≠ l → 2 ≤ ones 8
    (((columnParity (1#8 <<< l.val) ^^^ columnParity (1#8 <<< k.val)) >>> 2) &&& 0x3f#8) := by
  decide +kernel

theorem yaffsECCCorrectOther_single (data : List Byte) (k : Fin 8)
    (hi : i < data.length) (hmax : data.length < 2 ^ 32)
    (hcol : e.colParity ^^^ e'.colParity = (columnParity (1#8 <<< k.val) >>> 2) &&& 0x3f#8)
    (hline : e.lineParity ^^^ e'.lineParity = .ofNat 32 i)
    (hprime : e.lineParityPrime ^^^ e'.lineParityPrime = ~~~ .ofNat 32 i) :
    yaffsECCCorrectOther data e e' = (flipAt data i k).bind fun data => some (1, data, e) := by
  obtain ⟨hpaired, hbit⟩ := colOther_single k
  have hi32 : (BitVec.ofNat 32 i).toNat = i := by
    exact Nat.mod_eq_of_lt (by omega)
  have hne : ¬ ((((columnParity (1#8 <<< k.val) >>> 2) &&& 0x3f#8).setWidth 32 |||
      BitVec.ofNat 32 i ||| ~~~ BitVec.ofNat 32 i) = 0#32) := by
    intro hzero
    have hprime0 := (BitVec.or_eq_zero_iff.mp hzero).2
    have hline0 := (BitVec.or_eq_zero_iff.mp (BitVec.or_eq_zero_iff.mp hzero).1).2
    exact BitVec.ne_not_self (by decide) (hline0.trans hprime0.symm)
  have hinside : ¬ data.length ≤ i := by omega
  simp only [yaffsECCCorrectOther, hcol, hline, hprime, if_neg hne, BitVec.not_not, hpaired,
    and_self, if_true, hi32, if_neg hinside, hbit]
  rfl

theorem yaffsECCCorrectOther_count (data : List Byte)
    (hnot : ¬ (e.lineParity ^^^ e'.lineParity = ~~~ (e.lineParityPrime ^^^ e'.lineParityPrime)))
    (hcount : ones 32 (e.lineParity ^^^ e'.lineParity) +
      ones 32 (e.lineParityPrime ^^^ e'.lineParityPrime) +
        ones 8 (e.colParity ^^^ e'.colParity) = n)
    (hpos : 0 < n) : yaffsECCCorrectOther data e e' =
      some (if n = 1 then (1, data, e') else (-1, data, e)) := by
  have hne : ¬ ((e.colParity ^^^ e'.colParity).setWidth 32 ||| (e.lineParity ^^^ e'.lineParity) |||
      (e.lineParityPrime ^^^ e'.lineParityPrime) = 0#32) := by
    intro hzero
    obtain ⟨hzero, h₂⟩ := BitVec.or_eq_zero_iff.mp hzero
    obtain ⟨h₀, h₁⟩ := BitVec.or_eq_zero_iff.mp hzero
    have h₀' : e.colParity ^^^ e'.colParity = 0#8 := by
      have hback := congrArg (BitVec.setWidth 8) h₀
      rwa [BitVec.setWidth_setWidth_of_le _ (by decide), BitVec.setWidth_eq] at hback
    rw [h₀', h₁, h₂, ones_zero, ones_zero] at hcount
    omega
  simp only [yaffsECCCorrectOther, if_neg hne, hnot, false_and, if_false, yaffsCountBits_eq,
    hcount, bind_eq_bind, bind_some]
  rfl

theorem yaffsECCCorrectOther_eccBit (data : List Byte) (e : EccOther) (b : EccOtherBit) :
    yaffsECCCorrectOther data (e.flip b) e = some (1, data, e) := by
  have hflip {v : Nat} (x y : BitVec v) : x ^^^ y ^^^ x = y := by
    rw [BitVec.xor_comm, xor_cancel]
  have hcount : ones 32 ((e.flip b).lineParity ^^^ e.lineParity) +
      ones 32 ((e.flip b).lineParityPrime ^^^ e.lineParityPrime) +
        ones 8 ((e.flip b).colParity ^^^ e.colParity) = 1 := by
    cases b <;> simp only [EccOther.flip, hflip, BitVec.xor_self, ones_zero, ones_bit_eight,
        ones_bit_thirtyTwo]
  apply yaffsECCCorrectOther_count data _ hcount Nat.one_pos
  have hbit : ∀ k : Fin 32, ¬ (1#32 <<< k.val) = ~~~ 0#32 ∧ ¬ 0#32 = ~~~ (1#32 <<< k.val) := by
    decide +kernel
  cases b with
  | col k =>
    simp only [EccOther.flip, BitVec.xor_self]
    decide
  | line k =>
    simp only [EccOther.flip, hflip, BitVec.xor_self]
    exact (hbit k).1
  | linePrime k =>
    simp only [EccOther.flip, hflip, BitVec.xor_self]
    exact (hbit k).2

theorem secDed_other (hmax : data.length < 2 ^ 32) :
    SecDed yaffsECCCalculateOther yaffsECCCorrectOther (fun b e => e.flip b) data where
  dataBit i hi k := by
    obtain ⟨hcol, hline, hprime⟩ := eccOtherOf_delta (parities 32 data) (.single 32 i k)
    rw [← parities_flip 32 k hi] at hcol hline hprime
    have hcorrect := yaffsECCCorrectOther_single (flip i k data) k (by rwa [length_flip])
      (by rwa [length_flip]) hcol hline hprime
    rw [flipAt_flip k hi] at hcorrect
    exact hcorrect
  eccBit b := yaffsECCCorrectOther_eccBit data _ b
  twoBits i hi j hj k l hne := by
    obtain ⟨hcol, hline, hprime⟩ := eccOtherOf_delta (parities 32 data)
      ((Parities.single 32 j l).xor (.single 32 i k))
    rw [← parities_flip_flip 32 k l hi hj] at hcol hline hprime
    simp only [Parities.xor, Parities.single, not_xor_not] at hcol hline hprime
    show yaffsECCCorrectOther _ (eccOtherOf (parities 32 data))
      (eccOtherOf (parities 32 (flip i k (flip j l data)))) = _
    -- Both line parities have the same difference.
    have hnot : BitVec.ofNat 32 j ^^^ .ofNat 32 i ≠ _ := BitVec.ne_not_self (by decide)
    have hsum : 2 ≤ ones 32 (BitVec.ofNat 32 j ^^^ .ofNat 32 i) +
        ones 32 (BitVec.ofNat 32 j ^^^ .ofNat 32 i) + ones 8
          (((columnParity (1#8 <<< l.val) ^^^ columnParity (1#8 <<< k.val)) >>> 2) &&& 0x3f#8) := by
      by_cases hij : i = j
      · have hkl : k ≠ l := fun h => hne (by rw [hij, h])
        exact Nat.le_add_left_of_le (colOther_double k l hkl)
      · have hpos := ones_pos (BitVec.ushiftRight_eq_zero (Nat.le_refl 32))
          (ofNat_xor_ne_zero (w := 32) (by omega : j < _) (by omega : i < _) (Ne.symm hij))
        omega
    rw [← hcol, ← hline] at hsum
    rw [yaffsECCCorrectOther_count _ (by rwa [hline, hprime]) rfl (by rw [hprime, ← hline]; omega),
      if_neg (by rw [hprime, ← hline]; omega)]
    rfl

/-- One wrong bit is corrected and two wrong bits of the data are detected, in blocks of 256 bytes
and data of any length. -/
theorem ecc_corrects_and_detects : (∀ (wrongOrder : Bool) (data : List Byte), data.length = 256 →
      SecDed (yaffsECCCalculate wrongOrder) (yaffsECCCorrect wrongOrder) (fun b e => e.flip b)
        data) ∧
    ∀ data : List Byte, data.length ≤ 2 ^ 31 →
      SecDed yaffsECCCalculateOther yaffsECCCorrectOther (fun b e => e.flip b) data :=
  ⟨fun wrongOrder _ hlen => secDed_block wrongOrder hlen,
    fun _ hlen => secDed_other (Nat.lt_of_le_of_lt hlen (by decide))⟩

theorem ecc_corrects_and_detects_blank :
    SecDed (yaffsECCCalculate true) (yaffsECCCorrect true) (fun b e => e.flip b)
        (List.replicate 256 0xff#8) ∧
      SecDed yaffsECCCalculateOther yaffsECCCorrectOther (fun b e => e.flip b) [0x5a#8, 0x00#8] :=
  ⟨ecc_corrects_and_detects.1 true _ length_replicate, ecc_corrects_and_detects.2 _ (by decide)⟩

end SpicaKernel.YaffsEcc
