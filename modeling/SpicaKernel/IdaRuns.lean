import SpicaKernel.IdrRemove

namespace SpicaKernel.Ids
open Digits Tally Option BitVec Function
set_option autoImplicit true

def IdaBitmap.Counted (bm : IdaBitmap) : Prop := bm.nrBusy = tally (fun b => b) bm.bitmap

inductive IdaGood : Cell IdaBitmap → Prop where
  | null : IdaGood (false, .null)
  | item {bm : IdaBitmap} (h : bm.Counted) : IdaGood (decide (bm.nrBusy = 992), .item bm)

def idaKind : Kind IdaBitmap where
  Good := IdaGood
  counts c := !c.2.isNull
  good_empty := .null
  counts_empty := rfl
  empty_of_not := by
    intro c hgood hnot
    cases hgood with
    | null => rfl
    | item => cases hnot

/-- The bit of an id in the cell of its bitmap. -/
def bitOf (c : Cell IdaBitmap) (k : Offset) : Bool :=
  match c.2 with
  | .item bm => bm.bitmap k
  | _ => false

theorem bitOf_item (h : c.2 = .item bm) : bitOf c = bm.bitmap := by
  funext k
  rw [bitOf, h]

theorem bitOf_eq_true (h : bitOf c k = true) : ∃ bm, c.2 = .item bm ∧ bm.bitmap k = true := by
  obtain ⟨b, slot⟩ := c
  cases slot with
  | item bm => exact ⟨bm, rfl, h⟩
  | null => cases h
  | node p => cases h

namespace IdaBitmap

variable {bm : IdaBitmap} {k : Offset}

theorem Counted.full_iff (h : bm.Counted) : bm.nrBusy = 992 ↔ ∀ k, bm.bitmap k = true := by
  rw [h, ← tally_eq_card (p := fun b => b) (f := bm.bitmap), Fintype.card_fin]

theorem counted_zeroed : zeroed.Counted := (tally_eq_zero.mpr fun _ => rfl).symm

theorem Counted.setBit (h : bm.Counted) (hk : bm.bitmap k = false) : (bm.setBit k).Counted := by
  change bm.nrBusy + 1 = tally (fun b => b) (Function.update bm.bitmap k true)
  rw [tally_update_fill hk rfl, h]

theorem Counted.clearBit (h : bm.Counted) (hk : bm.bitmap k = true) :
    (bm.clearBit k).Counted ∧ (bm.clearBit k).nrBusy + 1 = bm.nrBusy := by
  have hclear : tally (fun b => b) (Function.update bm.bitmap k false) + 1 = bm.nrBusy := by
    rw [h]
    exact tally_update_clear hk rfl
  change bm.nrBusy - 1 = tally (fun b => b) (Function.update bm.bitmap k false) ∧
    bm.nrBusy - 1 + 1 = bm.nrBusy
  omega

theorem nextZero_cases (bm : IdaBitmap) : (bm.nextZero 0 = none ∧ ∀ m, bm.bitmap m = true) ∨
      ∃ m, bm.nextZero 0 = some m ∧ bm.bitmap m = false ∧ ∀ j, j < m → bm.bitmap j = true := by
  rcases Scan.find_from (fun m => !bm.bitmap m) 0 with ⟨hf, hall⟩ | ⟨m, hf, -, hm, hfirst⟩
  · exact .inl ⟨hf, fun m => by simpa using hall m (Nat.zero_le _)⟩
  · exact .inr ⟨m, hf, by simpa using hm, fun j hj => by simpa using hfirst j (Nat.zero_le _) hj⟩

end IdaBitmap

theorem IdaGood.bit_iff (h : IdaGood c) : c.1 = true ↔ ∀ k, bitOf c k = true := by
  cases h with
  | null => exact ⟨Bool.noConfusion, fun h => Bool.noConfusion (h 0)⟩
  | item h => exact decide_eq_true_iff.trans h.full_iff

theorem IdaGood.item_inv (h : IdaGood (b, .item m)) : m.Counted ∧ b = decide (m.nrBusy = 992) := by
  cases h with
  | item h => exact ⟨h, rfl⟩

theorem Valid.good (hv : Valid K h c) (i : Nat) : K.Good (cell h c i) := by
  induction hv with
  | leaf hgood => exact hgood
  | null => exact K.good_empty
  | node _ _ _ ih => exact ih _

theorem Idr.Valid.good {s : Idr α} (hs : s.Valid K) (i : Nat) : K.Good (s.cells i) := by
  cases hs with
  | empty =>
    rw [Idr.cells, treeCells_null]
    exact K.good_empty
  | @tree L p free h =>
    rw [Idr.cells, treeCells]
    split
    next =>
      rw [cell_top h.pos false p.full]
      exact h.valid.good i
    next => exact K.good_empty

theorem Spot.tree {free : List (Layer α)}
    (h : Spot K L x p path free) : TreeValid K L (plug p path) free := by
  have hlevel := h.level
  exact ⟨by omega, h.le, h.valid, h.free⟩

structure Ida.Holds (a : Ida) (M : Nat → Bool) : Prop where
  valid : a.idr.Valid idaKind
  book : ∀ i (k : Offset), M (i * 992 + k) = bitOf (a.idr.cells i) k
  bounded : ∀ j, M j = true → j < 2 ^ 31

namespace Ida.Holds

variable {a : Ida} {M : Nat → Bool}

theorem init : idaInit.Holds fun _ => false := by
  refine ⟨.empty fun _ hp => absurd hp List.not_mem_nil, fun i k => ?_,
    fun j h => Bool.noConfusion h⟩
  change false = bitOf (treeCells 0 .null i) k
  rw [treeCells_null]
  rfl

theorem taken_iff (h : a.Holds M) (i : Nat) :
    a.idr.taken i = true ↔ ∀ k : Offset, M (i * 992 + k) = true := by
  rw [Idr.taken, IdaGood.bit_iff (h.valid.good i)]
  exact forall_congr' fun k => by rw [h.book]

theorem last_free (h : a.Holds M) : a.idr.taken 2164802 = false := by
  cases ht : a.idr.taken 2164802 with
  | false => rfl
  | true =>
    have hM := (h.taken_iff 2164802).mp ht (Fin.last 991)
    exact absurd (h.bounded _ hM) (by decide)

theorem same {idr : Idr IdaBitmap} (h : a.Holds M)
    (hv : idr.Valid idaKind) (hbits : ∀ i k, bitOf (idr.cells i) k = bitOf (a.idr.cells i) k) :
    Ida.Holds ⟨idr, fb⟩ M := by
  refine ⟨hv, fun i k => ?_, h.bounded⟩
  rw [h.book]
  exact (hbits i k).symm

theorem update {idr : Idr IdaBitmap} (h : a.Holds M)
    (hv : idr.Valid idaKind) (hcells : idr.cells = Function.update a.idr.cells x c)
    (hbits : ∀ k, bitOf c k = Function.update (bitOf (a.idr.cells x)) k₀ b k)
    (hbound : b = true → x * 992 + k₀ < 2 ^ 31) :
    Ida.Holds ⟨idr, fb⟩ (Function.update M (x * 992 + k₀) b) := by
  refine ⟨hv, fun i k => ?_, fun j hj => ?_⟩
  · change _ = bitOf (idr.cells i) k
    rw [hcells]
    by_cases hi : i = x
    · subst hi
      rw [update_self, hbits]
      by_cases hkk : k = k₀
      · rw [hkk, update_self, update_self]
      · have hne : (k : Nat) ≠ k₀ := fun he => hkk (Fin.ext he)
        rw [update_of_ne hkk, update_of_ne (by omega), h.book]
    · rw [update_of_ne hi, update_of_ne (by omega), h.book]
  · by_cases hjx : j = x * 992 + k₀
    · rw [hjx, update_self] at hj
      rw [hjx]
      exact hbound hj
    · rw [update_of_ne hjx] at hj
      exact h.bounded j hj

theorem least (h : a.Holds M) (hfull : ∀ j, 0 ≤ j → j < x → (a.idr.cells j).1 = true)
    (hzero : bitOf (a.idr.cells x) k = false)
    (hfirst : ∀ j, j < k → bitOf (a.idr.cells x) j = true) : Least M 0 (x * 992 + k) := by
  refine ⟨Nat.zero_le _, by rw [h.book, hzero], fun j _ hj => ?_⟩
  have hmod : j % 992 < 992 := Nat.mod_lt _ (by decide)
  have hsplit : j = j / 992 * 992 + j % 992 := (Nat.div_add_mod' j 992).symm
  by_cases hlow : j / 992 < x
  · have htaken := (h.taken_iff (j / 992)).mp (hfull _ (Nat.zero_le _) hlow) ⟨j % 992, hmod⟩
    rwa [← hsplit] at htaken
  · have hx : j / 992 = x := by omega
    have hbit := hfirst ⟨j % 992, hmod⟩ (by change j % 992 < k; omega)
    rw [← h.book] at hbit
    rwa [← hx, ← hsplit] at hbit

end Ida.Holds

section Leaves

variable {p p' : Layer IdaBitmap} {n : Place}

section
variable (hcount : p.count = tally idaKind.counts p.cells)
include hcount

theorem leaf_setAry (hitem : (p.ary n).isNull = false) (bm : IdaBitmap) :
    (p.setAry n (.item bm)).cells = Function.update p.cells n (p.bitmap n, .item bm) ∧
      (p.setAry n (.item bm)).count = tally idaKind.counts (p.setAry n (.item bm)).cells := by
  have hcells := LayerOf.cells_setAry p n (.item bm)
  refine ⟨hcells, ?_⟩
  have hsame : idaKind.counts (p.bitmap n, .item bm) = idaKind.counts (p.cells n) := by
    change true = !(p.ary n).isNull
    rw [hitem]
    rfl
  rw [hcells, tally_update_same hsame]
  exact hcount

theorem leaf_setBit (b : Bool) :
    (p.setBit n b).cells = Function.update p.cells n (b, p.ary n) ∧
      (p.setBit n b).count = tally idaKind.counts (p.setBit n b).cells := by
  have hcells := LayerOf.cells_setBit p n b
  refine ⟨hcells, ?_⟩
  have hsame : idaKind.counts (b, p.ary n) = idaKind.counts (p.cells n) := rfl
  exact hcount

theorem bitmapAt_spec (hgood : IdaGood (p.cells n)) (hopen : p.bitmap n = false)
    (fb : Option IdaBitmap) :
    bitmapAt p n fb = some none ∨ ∃ bm p' fb', bitmapAt p n fb = some (some (bm, p', fb')) ∧
      p'.layer = p.layer ∧ p'.cells = Function.update p.cells n (false, .item bm) ∧
      p'.count = tally idaKind.counts p'.cells ∧ bm.Counted ∧ bm.nrBusy ≠ 992 ∧
      ∀ k, bm.bitmap k = bitOf (p.cells n) k := by
  generalize hc : p.cells n = c at hgood
  cases hgood with
  | null =>
    have hary : p.ary n = .null := congrArg Prod.snd hc
    cases fb with
    | none => exact .inl (by rw [bitmapAt, hary]; rfl)
    | some b =>
      have hcells : ({ p.setAry n (.item .zeroed) with count := p.count + 1 } :
          Layer IdaBitmap).cells = Function.update p.cells n (false, .item .zeroed) := by
        rw [← hopen]
        exact LayerOf.cells_setAry p n _
      have hnot : idaKind.counts (p.cells n) = false := by
        rw [hc]
        rfl
      refine .inr ⟨.zeroed, { p.setAry n (.item .zeroed) with count := p.count + 1 }, none,
        by rw [bitmapAt, hary]; rfl, rfl, hcells, ?_, IdaBitmap.counted_zeroed,
        Nat.noConfusion, fun k => rfl⟩
      rw [hcells, tally_update_fill hnot rfl]
      exact congrArg (· + 1) hcount
  | @item bm hcounted =>
    have hary : p.ary n = .item bm := congrArg Prod.snd hc
    have hbit : p.bitmap n = decide (bm.nrBusy = 992) := congrArg Prod.fst hc
    refine .inr ⟨bm, p, fb, by rw [bitmapAt, hary], rfl, ?_, hcount, hcounted,
      of_decide_eq_false (hbit.symm.trans hopen), fun k => rfl⟩
    rw [← hary, ← hopen]
    exact (update_eq_self n p.cells).symm

end

end Leaves

theorem ida_ofNat (x : Nat) (k : Offset) :
    BitVec.ofNat 32 x * IDA_BITMAP_BITS + BitVec.ofNat 32 k = BitVec.ofNat 32 (x * 992 + k) := by
  rw [IDA_BITMAP_BITS, ← ofNat_mul, ← ofNat_add]

theorem max_id_bit_le (hx : x < 2 ^ 32) : MAX_ID_BIT ≤ BitVec.ofNat 32 x ↔ 2 ^ 31 ≤ x := by
  rw [le_def, toNat_ofNat, Nat.mod_eq_of_lt hx]
  rfl

theorem leaf_busy {p : Layer IdaBitmap}
    (hcount : p.count = tally idaKind.counts p.cells) (hcell : p.cells n = (false, .item bm))
    (id : Id) (hid : idPlace id 0 = n) (path : Path IdaBitmap) (k : Offset) :
    ∃ p', (if (bm.setBit k).nrBusy = 992 then idrMarkFull id (p.setAry n (.item (bm.setBit k))) path
        else plug (p.setAry n (.item (bm.setBit k))) path) = markUp id p' path ∧
      p'.layer = p.layer ∧ p'.count = tally idaKind.counts p'.cells ∧
      p'.cells = Function.update p.cells n
        (decide ((bm.setBit k).nrBusy = 992), .item (bm.setBit k)) := by
  have hary : (p.ary n).isNull = false := by
    rw [show p.ary n = .item bm from congrArg Prod.snd hcell]
    rfl
  have hopen : p.bitmap n = false := congrArg Prod.fst hcell
  obtain ⟨hcells, hcount'⟩ := leaf_setAry hcount hary (bm.setBit k)
  by_cases hfull : (bm.setBit k).nrBusy = 992
  · obtain ⟨hcells₁, hcount₁⟩ := leaf_setBit (n := n) hcount' true
    refine ⟨(p.setAry n (.item (bm.setBit k))).setBit n true, ?_, rfl, hcount₁, ?_⟩
    · rw [if_pos hfull, idrMarkFull, hid]
    · have hnew : (p.setAry n (.item (bm.setBit k))).ary n = .item (bm.setBit k) :=
        update_self ..
      rw [hcells₁, hcells, update_idem, hnew, decide_eq_true hfull]
  · refine ⟨p.setAry n (.item (bm.setBit k)), ?_, rfl, hcount', ?_⟩
    · rw [if_neg hfull, markUp_of_not_full]
      apply full_eq_false (n := n)
      rw [hcells, update_self, hopen]
    · rw [hcells, hopen, decide_eq_false hfull]

theorem Ida.Holds.getNew (h : a.Holds M) (hfuel : 2 ^ 33 ≤ fuel) :
    (∃ x a', idaGetNew fuel a = some (0, BitVec.ofNat 32 x, a') ∧ x < 2 ^ 31 ∧ Least M 0 x ∧
        a'.Holds (Function.update M x true)) ∨
      ∃ err id a', idaGetNew fuel a = some (err, id, a') ∧ err ≠ 0 ∧ a'.Holds M := by
  obtain ⟨turns, hturns⟩ : ∃ k, fuel = k + 1 := ⟨fuel - 1, by omega⟩
  have hroom := room_zero (by decide) h.last_free a.idr.layers
  obtain ⟨r, hr, hslot⟩ := idrGetEmptySlot_spec h.valid hroom hfuel
  have hstart : idaGetNew fuel a = idaGetNewAt fuel (turns + 1) 0#32 0 a := by
    rw [← hturns]
    rfl
  rw [hstart, idaGetNewAt]
  simp only [hr, bind_eq_bind, bind_some]
  cases hslot with
  | @failed s hv hcells =>
    refine .inr ⟨-EAGAIN, 0#32, _, rfl, by decide, h.same hv fun i k => ?_⟩
    rw [hcells]
  | @found L x p path free hspot hsame _ hx hleast =>
    have hxle : x ≤ 2164802 := by
      by_contra hcon
      have hlast := hleast 2164802 (Nat.zero_le _) (Nat.not_le.mp hcon)
      exact absurd (hlast.symm.trans h.last_free) (by decide)
    have hcell : a.idr.cells x = p.cells (place 32 x 0) := by
      have hlevel := hspot.level
      rw [← hsame, treeCells_of_lt hspot.bound,
        cell_focus (l := 0) (d := false) hspot.along (by omega) rfl]
      rfl
    have hplace : idPlace (BitVec.ofNat 32 x) 0 = place 32 x 0 := idPlace_ofNat (by omega) 0
    have hsmall : ¬ MAX_ID_BIT ≤ BitVec.ofNat 32 x * IDA_BITMAP_BITS := by
      rw [IDA_BITMAP_BITS, ← ofNat_mul, max_id_bit_le (by omega)]
      omega
    have hoffset : (if BitVec.ofNat 32 x ≠ 0#32 then (0 : Offset) else 0) = 0 := ite_self _
    simp only [if_neg hsmall, hplace, hoffset]
    obtain ⟨-, -, hcount, hplaces⟩ :=
      (hspot.valid.focus (l := 0) (by have := hspot.level; omega)).node_inv
    have hgood : IdaGood (p.cells (place 32 x 0)) := (hplaces _).good 0
    have hopen : p.bitmap (place 32 x 0) = false := by
      rw [hcell] at hx
      exact hx
    rcases bitmapAt_spec hcount hgood hopen a.freeBitmap with
      hnone | ⟨bm, p', fb, hbm, hlayer, hcells, hcount', hcounted, hroomy, hbits⟩
    · simp only [hnone]
      refine .inr ⟨-EAGAIN, 0#32, _, rfl, by decide, h.same (.tree hspot.tree) fun i k => ?_⟩
      rw [show Idr.cells ⟨.node (plug p path), free, L⟩ = a.idr.cells from hsame]
    · simp only [hbm, bind_some]
      rw [← hcell] at hbits
      rcases bm.nextZero_cases with ⟨-, hfull⟩ | ⟨k, hk, hzero, hfirst⟩
      · exact absurd (hcounted.full_iff.mpr hfull) hroomy
      simp only [hk, ida_ofNat]
      by_cases hbig : MAX_ID_BIT ≤ BitVec.ofNat 32 (x * 992 + k)
      · rw [if_pos hbig]
        obtain ⟨top, htop, htree, hput⟩ := hspot.put hlayer hcells hcount' (by
            have hitem := IdaGood.item hcounted
            rw [decide_eq_false hroomy] at hitem
            exact hitem)
        have hplug : plug p' path = top := by
          rw [← htop, markUp_of_not_full]
          apply full_eq_false (n := place 32 x 0)
          rw [hcells, update_self]
        rw [hplug]
        refine .inr ⟨-ENOSPC, 0#32, _, rfl, by decide, h.same (.tree htree) fun i k => ?_⟩
        rw [show Idr.cells ⟨.node top, free, L⟩ = _ from hput, hsame]
        by_cases hi : i = x
        · rw [hi, update_self, ← hbits]
          rfl
        · rw [update_of_ne hi]
      · rw [if_neg hbig]
        rw [max_id_bit_le (by omega)] at hbig
        obtain ⟨p₁, hmark, hlayer₁, hcount₁, hcells₁⟩ := leaf_busy hcount'
          (by rw [hcells, update_self]) (BitVec.ofNat 32 x) hplace path k
        rw [hcells, update_idem] at hcells₁
        obtain ⟨top, htop, htree, hput⟩ := hspot.put (hlayer₁.trans hlayer) hcells₁ hcount₁
          (.item (hcounted.setBit hzero))
        rw [hmark, htop]
        rw [hsame] at hput
        have hvalid := (Idr.Valid.tree htree).with_free fun q hq =>
          htree.free q (List.mem_of_mem_tail hq)
        have hsetbit : ∀ k', bitOf (decide ((bm.setBit k).nrBusy = 992), .item (bm.setBit k)) k' =
            Function.update (bitOf (a.idr.cells x)) k true k' := by
          intro k'
          rw [show bitOf (a.idr.cells x) = bm.bitmap from (funext hbits).symm]
          rfl
        refine .inl ⟨x * 992 + k, _, rfl, Nat.not_le.mp hbig, h.least hleast ?_ fun j hj => ?_,
          h.update hvalid hput hsetbit fun _ => Nat.not_le.mp hbig⟩
        · rw [← hbits, hzero]
        · rw [← hbits, hfirst j hj]

section Clearing

variable {slot : Slot IdaBitmap} {bm : IdaBitmap} {k : Offset}

theorem IdaBitmap.Counted.good_clearBit (h : bm.Counted) (hk : bm.bitmap k = true) :
    IdaGood (false, .item (bm.clearBit k)) := by
  have hclear := (h.clearBit hk).1
  have hnot : (bm.clearBit k).nrBusy ≠ 992 := by
    intro hfull
    have hbit := hclear.full_iff.mp hfull k
    rw [show (bm.clearBit k).bitmap k = false from update_self ..] at hbit
    cases hbit
  have hitem := IdaGood.item hclear
  rwa [decide_eq_false hnot] at hitem

theorem clearAt_spec (hx : x < 2 ^ 31) (hv : Valid idaKind (h + 1) (b, slot))
    (hcell : (cell (h + 1) (b, slot) x).2 = .item bm) (hk : bm.bitmap k = true) :
    ((bm.clearBit k).nrBusy = 0 ∧ ∃ t, clearAt (BitVec.ofNat 32 x) k (h + 1) slot =
        some (t, .emptied (bm.clearBit k)) ∧ Faked x (h + 1) slot t) ∨
      ((bm.clearBit k).nrBusy ≠ 0 ∧ slot.isNull = false ∧
        ∃ p', clearAt (BitVec.ofNat 32 x) k (h + 1) slot = some (.node p', .busy) ∧
          Valid idaKind (h + 1) (false, .node p') ∧
          SetAt (32 ^ (h + 1)) x (false, .item (bm.clearBit k)) (cell (h + 1) (b, slot))
            (cell (h + 1) (false, .node p'))) := by
  induction h generalizing b slot with
  | zero =>
    cases slot with
    | null => cases hcell
    | item y => exact absurd hv not_valid_item
    | node p =>
      obtain ⟨-, -, hcount, hplaces⟩ := hv.node_inv
      have hary : p.ary (place 32 x 0) = .item bm := hcell
      have hgood : IdaGood (p.cells (place 32 x 0)) := (hplaces _).good 0
      have hcounted : bm.Counted := by
        rw [LayerOf.cells, hary] at hgood
        exact hgood.item_inv.1
      have hleaf : clearAt (BitVec.ofNat 32 x) k 1 (.node p) =
          some (if (bm.clearBit k).nrBusy = 0 then
            (.node (((p.setBit (place 32 x 0) false).setAry (place 32 x 0)
              (.item (bm.clearBit k))).setBit (place 32 x 0) true), .emptied (bm.clearBit k))
            else (.node ((p.setBit (place 32 x 0) false).setAry (place 32 x 0)
              (.item (bm.clearBit k))), .busy)) := by
        have hary' : (p.setBit (place 32 x 0) false).ary (place 32 x 0) = .item bm := hary
        rw [clearAt, idPlace_ofNat hx, clearLeaf]
        simp [hary', hk]
      rw [hleaf]
      generalize hn : place 32 x 0 = n at *
      have hcells := LayerOf.cells_setBit_setAry p n false (.item (bm.clearBit k))
      by_cases hzero : (bm.clearBit k).nrBusy = 0
      · refine .inl ⟨hzero, _, by rw [if_pos hzero], ?_⟩
        subst hn
        refine .leaf (y := .item (bm.clearBit k)) rfl rfl ?_
        rw [LayerOf.cells_setBit, hcells, update_idem]
        exact congrArg (fun t => Function.update p.cells (place 32 x 0) (true, t)) (update_self ..)
      · have hsame : idaKind.counts (false, .item (bm.clearBit k)) =
            idaKind.counts (p.cells n) := by
          change true = !(p.ary n).isNull
          rw [hary]
          rfl
        have hvalid := hv.replace (q := (p.setBit n false).setAry n (.item (bm.clearBit k))) rfl
          hcells (by
            rw [hcells]
            exact hcount.trans (tally_update_same hsame).symm)
          (.leaf (hcounted.good_clearBit hk))
        rw [full_eq_false (n := n) (by rw [hcells, update_self])] at hvalid
        refine .inr ⟨hzero, rfl, _, by rw [if_neg hzero], hvalid, ?_⟩
        subst hn
        refine cell_replace hcells fun j => ?_
        rw [if_pos (by rw [Nat.pow_zero, Nat.mod_one, Nat.mod_one])]
        rfl
  | succ h ih =>
    cases slot with
    | null => cases hcell
    | item y => exact absurd hv not_valid_item
    | node p =>
      obtain ⟨-, -, hcount, hplaces⟩ := hv.node_inv
      have hstep : ∀ {child r}, clearAt (BitVec.ofNat 32 x) k (h + 1)
          (p.ary (place 32 x (h + 1))) = some (child, r) →
          clearAt (BitVec.ofNat 32 x) k (h + 2) (.node p) =
            some (.node ((p.setBit (place 32 x (h + 1)) false).setAry (place 32 x (h + 1)) child),
              r) := by
        intro child r hchild
        rw [clearAt, idPlace_ofNat hx, hchild]
        rfl
      rcases ih (hplaces _) hcell with ⟨hzero, t, ht, hf⟩ | ⟨hzero, hnode, q, ht, hvq, hset⟩
      · exact .inl ⟨hzero, _, hstep ht, .node rfl rfl (LayerOf.cells_setBit_setAry p _ false t) hf⟩
      · have hcells := LayerOf.cells_setBit_setAry p (place 32 x (h + 1)) false (.node q)
        have hsame : idaKind.occupied (h + 1) (false, .node q) =
            idaKind.occupied (h + 1) (p.cells (place 32 x (h + 1))) := by
          change true = !(p.ary (place 32 x (h + 1))).isNull
          rw [hnode]
          rfl
        have hvalid := hv.replace
          (q := (p.setBit (place 32 x (h + 1)) false).setAry (place 32 x (h + 1)) (.node q)) rfl
          hcells (by
            rw [hcells]
            exact hcount.trans (tally_update_same hsame).symm) hvq
        rw [full_eq_false (n := place 32 x (h + 1)) (by rw [hcells, update_self])] at hvalid
        exact .inr ⟨hzero, rfl, _, hstep ht, hvalid, cell_replace hcells hset⟩

end Clearing

theorem Ida.Holds.remove {id : Id} (h : a.Holds M) (hid : M id.toNat = true) :
    ∃ a', idaRemove a id = some a' ∧ a'.Holds (Function.update M id.toNat false) := by
  obtain ⟨x, hx⟩ : ∃ x, x = id.toNat / 992 := ⟨_, rfl⟩
  obtain ⟨k, hk⟩ : ∃ k : Offset, k = Fin.ofNat 992 id.toNat := ⟨_, rfl⟩
  have hkval : (k : Nat) = id.toNat % 992 := by
    rw [hk]
    rfl
  have hsplit : id.toNat = x * 992 + k := by omega
  have hidr : id / IDA_BITMAP_BITS = BitVec.ofNat 32 x := by
    apply eq_of_toNat_eq
    rw [toNat_ofNat, Nat.mod_eq_of_lt (by omega), hx]
    rfl
  have hkey : key (BitVec.ofNat 32 x) = x := key_ofNat (by omega)
  rw [hsplit, h.book] at hid
  obtain ⟨bm, hbm, hbit⟩ := bitOf_eq_true hid
  obtain ⟨hcounted, -⟩ := IdaGood.item_inv (b := (a.idr.cells x).1) (m := bm) (by
    rw [← hbm]
    exact h.valid.good x)
  have hcleared : ∀ k', bitOf (false, .item (bm.clearBit k)) k' =
      Function.update (bitOf (a.idr.cells x)) k false k' := by
    intro k'
    rw [show bitOf (a.idr.cells x) = bm.bitmap from bitOf_item hbm]
    rfl
  obtain ⟨idr, fb⟩ := a
  have hv : idr.Valid idaKind := h.valid
  rw [idaRemove, hidr, ← hk, hsplit]
  cases hv with
  | empty =>
    rw [Idr.cells, treeCells_null] at hbm
    cases hbm
  | @tree L p free htree =>
    have hpos := htree.pos
    obtain ⟨l, rfl⟩ : ∃ l, L = l + 1 := ⟨L - 1, by omega⟩
    have hin : x < 32 ^ (l + 1) := by
      by_contra hout
      rw [Idr.cells, treeCells_of_ge (Nat.not_lt.mp hout)] at hbm
      cases hbm
    have hcell : (cell (l + 1) (p.full, .node p) x).2 = .item bm := by
      rw [Idr.cells, treeCells_of_lt hin] at hbm
      exact hbm
    rcases clearAt_spec (by omega) htree.valid hcell hbit with
      ⟨hzero, t, ht, hf⟩ | ⟨-, -, q, ht, hvq, hset⟩
    · have hcounts : idaKind.counts (treeCells (l + 1) (.node p) (key (BitVec.ofNat 32 x))) =
          true := by
        rw [hkey]
        change (!(Idr.cells ⟨.node p, free, l + 1⟩ x).2.isNull) = true
        rw [hbm]
        rfl
      obtain ⟨s', hs', hv', hcells⟩ := idrRemove_taken htree (by rwa [hkey]) hcounts (by rwa [hkey])
      rw [hkey] at hcells
      have hnone : ∀ k', bitOf (false, .null) k' =
          Function.update (bitOf (Idr.cells ⟨.node p, free, l + 1⟩ x)) k false k' := by
        intro k'
        rw [← hcleared]
        have hclear := (hcounted.clearBit hbit).1
        rw [IdaBitmap.Counted, hzero] at hclear
        exact (tally_eq_zero.mp hclear.symm k').symm
      refine ⟨Ids.freeBitmap ⟨s', fb⟩ (bm.clearBit k), ?_, ?_⟩
      · simp only [ht, hs', bind_eq_bind, bind_some]
        rfl
      · cases fb with
        | none => exact h.update hv' hcells hnone Bool.noConfusion
        | some b => exact h.update hv' hcells hnone Bool.noConfusion
    · obtain ⟨hfull, -⟩ := hvq.node_inv
      refine ⟨⟨⟨.node q, free, l + 1⟩, fb⟩, ?_, ?_⟩
      · simp only [ht]
        rfl
      · exact h.update (.tree ⟨hpos, htree.le, hfull ▸ hvq, htree.free⟩) (treeCells_set hin hset)
          hcleared fun h => Bool.noConfusion h

theorem Ida.Holds.preGet (h : a.Holds M) (grants : List Bool)
    (grant : Option IdaBitmap) : (idaPreGet a grants grant).2.Holds M := by
  have hidr : Ida.Holds { a with idr := { a.idr with idFree := (idrPreGet grants a.idr.idFree).2 } }
      M :=
    h.same (h.valid.with_free (idrPreGet_clean h.valid.free)) fun _ _ => rfl
  rw [idaPreGet]
  simp only
  split
  next => exact hidr
  next =>
    split
    next => exact hidr
    next => exact hidr
    next hnone =>
      rw [hnone]
      exact hidr.same hidr.valid fun _ _ => rfl

inductive IdaCall where
  | preGet (grants : List Bool) (grant : Option IdaBitmap)
  | getNew
  | remove (id : Id)

def Ida.step (fuel : Nat) (a : Ida) (M : Nat → Bool) : IdaCall → Option (Ida × (Nat → Bool))
  | .preGet grants grant => some ((idaPreGet a grants grant).2, M)
  | .getNew => do
    let (err, id, a') ← idaGetNew fuel a
    return (a', if err = 0 then Function.update M id.toNat true else M)
  | .remove id => do
    let a' ← idaRemove a id
    return (a', Function.update M id.toNat false)

def idaAllows (M : Nat → Bool) : IdaCall → Prop
  | .remove id => M id.toNat = true
  | _ => True

inductive IdaReachable (fuel : Nat) : Ida → (Nat → Bool) → Prop where
  | init : IdaReachable fuel idaInit fun _ => false
  | step : IdaReachable fuel a M → idaAllows M c → a.step fuel M c = some (a', M') →
      IdaReachable fuel a' M'

theorem Ida.Holds.step {a : Ida} (hfuel : 2 ^ 33 ≤ fuel) (h : a.Holds M)
    (hc : idaAllows M c) : ∃ a' M', a.step fuel M c = some (a', M') ∧ a'.Holds M' := by
  cases c with
  | preGet grants grant => exact ⟨_, _, rfl, h.preGet grants grant⟩
  | getNew =>
    rcases h.getNew hfuel with ⟨x, a', ha', hx, -, hholds⟩ | ⟨err, id, a', ha', herr, hholds⟩
    · have hnat : (BitVec.ofNat 32 x).toNat = x := by
        rw [toNat_ofNat, Nat.mod_eq_of_lt (by omega)]
      refine ⟨a', Function.update M x true, ?_, hholds⟩
      simp only [Ida.step, ha', bind_eq_bind, bind_some, hnat]
      rfl
    · refine ⟨a', M, ?_, hholds⟩
      simp only [Ida.step, ha', bind_eq_bind, bind_some, if_neg herr]
      rfl
  | remove id =>
    obtain ⟨a', ha', hholds⟩ := h.remove hc
    refine ⟨a', _, ?_, hholds⟩
    simp only [Ida.step, ha']
    rfl

theorem IdaReachable.holds (hfuel : 2 ^ 33 ≤ fuel) (h : IdaReachable fuel a M) : a.Holds M := by
  induction h with
  | init => exact .init
  | step _ hc hs ih =>
    obtain ⟨a', M', ha', hholds⟩ := ih.step hfuel hc
    obtain ⟨rfl, rfl⟩ := Prod.mk.inj (some.inj (ha'.symm.trans hs))
    exact hholds

/-- In every run the bitmaps hold the allocated ids, the layers know the full ones, and
`ida_get_new` returns the first id that is not allocated. -/
theorem ida_allocates_least {a : Ida} {M : Nat → Bool} (hfuel : 2 ^ 33 ≤ fuel)
    (h : IdaReachable fuel a M) :
    (∀ i bit bm, a.idr.cells i = (bit, .item bm) →
        bm.nrBusy = tally (fun b => b) bm.bitmap ∧ (bit = true ↔ ∀ k, bm.bitmap k = true)) ∧
      (∀ i (k : Offset), M (i * 992 + k) = bitOf (a.idr.cells i) k) ∧
      ∃ err id a', idaGetNew fuel a = some (err, id, a') ∧
        (err = 0 → M id.toNat = false ∧ Least M 0 id.toNat ∧ id.toNat < 2 ^ 31) := by
  have ha := h.holds hfuel
  refine ⟨fun i bit bm hcell => ?_, ha.book, ?_⟩
  · have hgood := ha.valid.good i
    rw [hcell] at hgood
    obtain ⟨hcounted, hbit⟩ := hgood.item_inv
    refine ⟨hcounted, ?_⟩
    rw [hbit, decide_eq_true_iff, hcounted.full_iff]
  · rcases ha.getNew hfuel with ⟨x, a', ha', hx, hleast, -⟩ | ⟨err, id, a', ha', herr, -⟩
    · refine ⟨0, BitVec.ofNat 32 x, a', ha', fun _ => ?_⟩
      rw [toNat_ofNat, Nat.mod_eq_of_lt (by omega)]
      exact ⟨hleast.free, hleast, hx⟩
    · exact ⟨err, id, a', ha', fun h0 => absurd h0 herr⟩

set_option maxRecDepth 8000

/-- Of the ids 0, 1 and 2 the second one is removed, and `ida_get_new` returns it again. -/
theorem ida_allocates_least_again :
    ∃ a M a', IdaReachable (2 ^ 33) a M ∧ M 0 = true ∧ M 1 = false ∧ M 2 = true ∧
      (∃ bm, a.idr.cells 0 = (false, .item bm) ∧ bm.nrBusy = 2 ∧
        bm.nrBusy = tally (fun b => b) bm.bitmap) ∧
      (∀ i (k : Offset), M (i * 992 + k) = bitOf (a.idr.cells i) k) ∧
      idaGetNew (2 ^ 33) a = some (0, 1#32, a') ∧ Least M 0 1 := by
  have h₀ : IdaReachable (2 ^ 33) idaInit _ := .init
  have h₁ := h₀.step (c := .preGet (List.replicate 14 true) (some .zeroed)) trivial rfl
  have h₂ := h₁.step (c := .getNew) trivial rfl
  have h₃ := h₂.step (c := .getNew) trivial rfl
  have h₄ := h₃.step (c := .getNew) trivial rfl
  have h₅ := h₄.step (c := .remove 1#32) rfl rfl
  obtain ⟨hcells, hbook, err, id, a', ha', hok⟩ := ida_allocates_least (Nat.le_refl _) h₅
  have hid : some (0, 1#32) = some (err, id) :=
    congrArg (Option.map fun r : Int × Id × Ida => (r.1, r.2.1)) ha'
  cases hid
  exact ⟨_, _, a', h₅, rfl, rfl, rfl, ⟨_, rfl, rfl, (hcells 0 _ _ rfl).1⟩, hbook, ha',
    (hok rfl).2.1⟩

end SpicaKernel.Ids
