import SpicaKernel.Memory
import SpicaKernel.Runs

namespace SpicaKernel.Rtime
open Function List Option BitVec
set_option autoImplicit true

abbrev Byte := BitVec 8

/-- The array `positions` of shorts. -/
abbrev Positions := Byte → BitVec 16

/-- The first tests of the inner loop of `jffs2_rtime_compress`; `none` is a read outside. -/
def agrees (data : List Byte) (sourcelen : BitVec 32) (backpos : Int) (pos : Nat) : Option Bool :=
  if backpos < pos ∧ BitVec.ofNat 32 pos < sourcelen then do
    let x ← data[pos]?
    let y ← Buffer.get data backpos
    return x == y
  else some false

/-- The inner loop, with `left` from 255 on down in the place of `runlen`. -/
def matchRun (data : List Byte) (sourcelen : BitVec 32) : Nat → Int → Nat → Option (Nat × Nat)
  | 0, backpos, pos => (agrees data sourcelen backpos pos).map fun _ => (0, pos)
  | left + 1, backpos, pos => do
    if ← agrees data sourcelen backpos pos then
      matchRun data sourcelen left (backpos + 1) (pos + 1)
    else return (left + 1, pos)

/-- The variables of a codec: where it is in what it reads and in what it writes. -/
structure Codec where
  pos : Nat
  outpos : Nat
  positions : Positions
  page : List Byte

def compressBody (data : List Byte) (sourcelen : BitVec 32) (c : Codec) : Option Codec := do
  let value ← data[c.pos]?
  let page ← Buffer.put c.page c.outpos value
  let pos := c.pos + 1
  let (left, pos') ← matchRun data sourcelen 255 (c.positions value).toInt pos
  let page ← Buffer.put page (c.outpos + 1) (BitVec.ofNat 8 (255 - left))
  return ⟨pos', c.outpos + 2, update c.positions value (BitVec.ofNat 16 pos), page⟩

def compressTurn (data : List Byte) (sourcelen dstlen : BitVec 32) (c : Codec) :
    Turn Codec (Option Codec) :=
  if BitVec.ofNat 32 c.pos < sourcelen ∧ BitVec.ofNat 32 c.outpos ≤ dstlen - 2#32 then
    match compressBody data sourcelen c with
    | none => .stop none
    | some c' => .next c'
  else .stop (some c)

/-- `jffs2_rtime_compress`. Returns -1, as `none`, or the two lengths, and the page. -/
def rtimeCompress (data page : List Byte) (sourcelen dstlen : BitVec 32) :
    Option (Option (Nat × Nat) × List Byte) := do
  let c ← (runFor (compressTurn data sourcelen dstlen) (sourcelen.toNat + 1)
    ⟨0, 0, fun _ => 0#16, page⟩).join
  return (if c.pos ≤ c.outpos then none else some (c.pos, c.outpos), c.page)

/-- The loop of `jffs2_rtime_decompress` that copies a run that may overlap itself. -/
def copyLoop : Nat → Int → Nat → List Byte → Option (List Byte)
  | 0, _, _, page => some page
  | n + 1, backoffs, outpos, page => do
    let x ← Buffer.get page backoffs
    let page ← Buffer.put page outpos x
    copyLoop n (backoffs + 1) (outpos + 1) page

/-- The run of a byte that is repeated, by the loop or by `memcpy`. -/
def copyRun (n : Nat) (backoffs : Int) (outpos : Nat) (page : List Byte) : Option (List Byte) :=
  if (outpos : Int) ≤ backoffs + n then copyLoop n backoffs outpos page
  else if 0 ≤ backoffs then Buffer.copy page outpos backoffs.toNat n
  else none

def decompressBody (data : List Byte) (c : Codec) : Option Codec := do
  let value ← data[c.pos]?
  let page ← Buffer.put c.page c.outpos value
  let count ← data[c.pos + 1]?
  let outpos := c.outpos + 1
  let positions := update c.positions value (BitVec.ofNat 16 outpos)
  if count = 0#8 then return ⟨c.pos + 2, outpos, positions, page⟩
  else do
    let page ← copyRun count.toNat (c.positions value).toInt outpos page
    return ⟨c.pos + 2, outpos + count.toNat, positions, page⟩

def decompressTurn (data : List Byte) (destlen : BitVec 32) (c : Codec) :
    Turn Codec (Option Codec) :=
  if BitVec.ofNat 32 c.outpos < destlen then
    match decompressBody data c with
    | none => .stop none
    | some c' => .next c'
  else .stop (some c)

/-- `jffs2_rtime_decompress`. Returns how many bytes are read and written, and the page. -/
def rtimeDecompress (data page : List Byte) (destlen : BitVec 32) :
    Option (Nat × Nat × List Byte) := do
  let c ← (runFor (decompressTurn data destlen) (destlen.toNat + 1)
    ⟨0, 0, fun _ => 0#16, page⟩).join
  return (c.pos, c.outpos, c.page)

/-- A byte and how often what followed it the last time follows again. -/
abbrev Token := Byte × Nat

def bytes (ts : List Token) : List Byte := ts.flatMap fun t => [t.1, BitVec.ofNat 8 t.2]

/-- The tokens that stand for the data from one position to another. -/
inductive Parse (data : List Byte) : Nat → Positions → List Token → Nat → Prop where
  | nil : Parse data pos ps [] pos
  | cons (hval : data[pos]? = some v) (hback : (ps v).toInt = ((b : Nat) : Int)) (hb : b ≤ pos)
      (hr : r ≤ 255) (hrun : ∀ k < r, ∃ x, data[pos + 1 + k]? = some x ∧ data[b + k]? = some x)
      (hrest : Parse data (pos + 1 + r) (update ps v (BitVec.ofNat 16 (pos + 1))) ts s) :
      Parse data pos ps ((v, r) :: ts) s

theorem Parse.le (h : Parse data pos ps ts s) : pos ≤ s := by
  induction h with
  | nil => exact Nat.le_refl _
  | cons _ _ _ _ _ _ ih => omega

theorem Parse.length_le (h : Parse data pos ps ts s) : pos + ts.length ≤ s := by
  induction h with
  | nil => exact Nat.le_refl _
  | cons _ _ _ _ _ _ ih =>
    rw [length_cons]
    omega

section Compress

variable {data : List Byte} {sourcelen dstlen : BitVec 32}

theorem lt_iff (hn : n < 2 ^ 32) : BitVec.ofNat 32 n < w ↔ n < w.toNat := by
  rw [lt_def, toNat_ofNat, Nat.mod_eq_of_lt hn]

theorem agrees_spec (hlen : data.length = sourcelen.toNat) (hb : b < pos) (hpos : pos < 2 ^ 32) :
    (agrees data sourcelen (b : Nat) pos = some true ∧
        ∃ x, data[pos]? = some x ∧ data[b]? = some x) ∨
      agrees data sourcelen (b : Nat) pos = some false := by
  rw [agrees]
  by_cases hin : pos < sourcelen.toNat
  · rw [if_pos ⟨Int.ofNat_lt.mpr hb, (lt_iff hpos).mpr hin⟩, Buffer.get_natCast,
      List.getElem?_eq_getElem (hlen ▸ hin), List.getElem?_eq_getElem (hlen ▸ Nat.lt_trans hb hin)]
    by_cases heq : data[pos] = data[b]
    · exact .inl ⟨by simp [heq], data[b], by simp [heq], rfl⟩
    · exact .inr (by simp [heq])
  · exact .inr (if_neg fun h => hin ((lt_iff hpos).mp h.2))

theorem matchRun_spec (hlen : data.length = sourcelen.toNat) (left : Nat) (hb : b < pos)
    (hpos : pos ≤ data.length) : ∃ r, r ≤ left ∧
      matchRun data sourcelen left (b : Nat) pos = some (left - r, pos + r) ∧
      pos + r ≤ data.length ∧ ∀ k < r, ∃ x, data[pos + k]? = some x ∧ data[b + k]? = some x := by
  have hlt : pos < 2 ^ 32 := by
    omega
  induction left generalizing b pos with
  | zero =>
    refine ⟨0, Nat.le_refl _, ?_, hpos, fun k hk => absurd hk (Nat.not_lt_zero _)⟩
    rcases agrees_spec hlen hb hlt with ⟨h, -⟩ | h
    · rw [matchRun, h]
      rfl
    · rw [matchRun, h]
      rfl
  | succ left ih =>
    rcases agrees_spec hlen hb hlt with ⟨h, x, hx, hy⟩ | h
    · have hin : pos < data.length := (List.getElem?_eq_some_iff.mp hx).1
      obtain ⟨r, hr, hmatch, hend, hrun⟩ :=
        ih (show b + 1 < pos + 1 by omega) (by omega) (by omega)
      refine ⟨r + 1, by omega, ?_, by omega, fun k hk => ?_⟩
      · rw [matchRun, h]
        change matchRun data sourcelen left (((b + 1 : Nat) : Int)) (pos + 1) = _
        rw [hmatch, Nat.add_sub_add_right]
        congr 2
        omega
      · cases k with
        | zero => exact ⟨x, hx, hy⟩
        | succ k =>
          have hk' := hrun k (by omega)
          rwa [Nat.add_right_comm pos, Nat.add_right_comm b] at hk'
    · refine ⟨0, Nat.zero_le _, ?_, hpos, fun k hk => absurd hk (Nat.not_lt_zero _)⟩
      rw [matchRun, h]
      rfl

def Behind (ps : Positions) (pos : Nat) : Prop :=
  ∀ v, ∃ b : Nat, (ps v).toInt = (b : Int) ∧ b ≤ pos

theorem Behind.update (h : Behind ps pos) (hle : pos + 1 ≤ pos') (hpos : pos + 1 ≤ 32767)
    (v : Byte) : Behind (update ps v (BitVec.ofNat 16 (pos + 1))) pos' := by
  intro w
  by_cases hw : w = v
  · refine ⟨pos + 1, ?_, hle⟩
    have hnat : (BitVec.ofNat 16 (pos + 1)).toNat = pos + 1 := by
      rw [toNat_ofNat, Nat.mod_eq_of_lt (by omega)]
    rw [hw, update_self, toInt_eq_toNat_of_lt (by omega), hnat]
  · obtain ⟨b, hb, hbpos⟩ := h w
    rw [update_of_ne hw]
    exact ⟨b, hb, by omega⟩

theorem compressBody_spec (w rest : List Byte) (x y : Byte)
    (hlen : data.length = sourcelen.toNat) (hshort : data.length ≤ 32767) (hps : Behind ps pos)
    (hpos : pos < data.length) :
    ∃ v r, compressBody data sourcelen ⟨pos, w.length, ps, w ++ x :: y :: rest⟩ =
        some ⟨pos + 1 + r, (w ++ bytes [(v, r)]).length,
          update ps v (BitVec.ofNat 16 (pos + 1)), w ++ bytes [(v, r)] ++ rest⟩ ∧
      pos + 1 + r ≤ data.length ∧
      Behind (update ps v (BitVec.ofNat 16 (pos + 1))) (pos + 1 + r) ∧
      ∀ ts s, Parse data (pos + 1 + r) (update ps v (BitVec.ofNat 16 (pos + 1))) ts s →
        Parse data pos ps ((v, r) :: ts) s := by
  obtain ⟨b, hback, hb⟩ := hps data[pos]
  obtain ⟨r, hr, hmatch, hend, hrun⟩ :=
    matchRun_spec hlen 255 (show b < pos + 1 by omega) (by omega)
  have hval : data[pos]? = some data[pos] := List.getElem?_eq_getElem hpos
  refine ⟨data[pos], r, ?_, hend, hps.update (by omega) (by omega) _,
    fun ts s h => .cons hval hback hb hr hrun h⟩
  have hput := Buffer.put_append (w ++ [data[pos]]) y (BitVec.ofNat 8 r) rest
  rw [length_append, length_singleton, List.append_assoc] at hput
  have hleft : 255 - (255 - r) = r := by omega
  simp only [compressBody, hval, hback, hmatch, hleft, Buffer.put_append, bind_eq_bind, bind_some]
  change (Buffer.put (w ++ ([data[pos]] ++ y :: rest)) (w.length + 1) _).bind _ = _
  rw [hput]
  simp [bytes]

theorem compress_loop (w rest : List Byte) (hlen : data.length = sourcelen.toNat)
    (hshort : data.length ≤ 32767) (hdst : 2 ≤ dstlen.toNat)
    (hpage : (w ++ rest).length = dstlen.toNat) (hout : w.length ≤ 2 * pos) (hps : Behind ps pos)
    (hpos : pos ≤ data.length) (hfuel : data.length - pos < fuel) :
    ∃ ts s ps' rest', runFor (compressTurn data sourcelen dstlen) fuel
        ⟨pos, w.length, ps, w ++ rest⟩ =
          some (some ⟨s, (w ++ bytes ts).length, ps', w ++ bytes ts ++ rest'⟩) ∧
      Parse data pos ps ts s ∧ s ≤ data.length ∧
      (w ++ bytes ts ++ rest').length = (w ++ rest).length := by
  induction fuel generalizing w rest pos ps with
  | zero => exact absurd hfuel (Nat.not_lt_zero _)
  | succ fuel ih =>
    rw [length_append] at hpage
    have hsub : (dstlen - 2#32).toNat = dstlen.toNat - 2 := by
      rw [toNat_sub_of_le (by rw [le_def]; exact hdst)]
      rfl
    have hroom : BitVec.ofNat 32 w.length ≤ dstlen - 2#32 ↔ w.length + 2 ≤ dstlen.toNat := by
      rw [le_def, toNat_ofNat]
      omega
    have hcond : (BitVec.ofNat 32 pos < sourcelen ∧ BitVec.ofNat 32 w.length ≤ dstlen - 2#32) ↔
        pos < sourcelen.toNat ∧ w.length + 2 ≤ dstlen.toNat :=
      and_congr (lt_iff (by omega)) hroom
    rw [runFor, compressTurn]
    by_cases hgo : pos < sourcelen.toNat ∧ w.length + 2 ≤ dstlen.toNat
    · obtain ⟨x, y, rest, rfl⟩ : ∃ x y rest', rest = x :: y :: rest' := by
        obtain ⟨x, rest, rfl⟩ := exists_cons_of_length_pos (l := rest) (by omega)
        rw [length_cons] at hpage
        obtain ⟨y, rest, rfl⟩ := exists_cons_of_length_pos (l := rest) (by omega)
        exact ⟨x, y, rest, rfl⟩
      rw [length_cons, length_cons] at hpage
      obtain ⟨v, r, hbody, hend, hps', hparse⟩ :=
        compressBody_spec w rest x y hlen hshort hps (by omega)
      have htwo : (bytes [(v, r)]).length = 2 := rfl
      obtain ⟨ts, s, ps', rest', hrun, hts, hs, hsame⟩ :=
        ih (w ++ bytes [(v, r)]) rest (by
          rw [length_append, length_append]
          omega) (by
          rw [length_append]
          omega) hps' hend (by omega)
      have happend : w ++ bytes ((v, r) :: ts) = w ++ bytes [(v, r)] ++ bytes ts :=
        (List.append_assoc w _ _).symm
      refine ⟨(v, r) :: ts, s, ps', rest', ?_, hparse ts s hts, hs, ?_⟩
      · rw [if_pos (hcond.mpr hgo), happend]
        simp only [hbody]
        exact hrun
      · rw [happend, hsame]
        simp only [length_append, length_cons]
        omega
    · refine ⟨[], pos, ps, rest, ?_, .nil, hpos, ?_⟩
      · rw [if_neg (mt hcond.mp hgo)]
        simp [bytes]
      · simp [bytes]

end Compress

section Decompress

variable {data : List Byte}

theorem take_succ (h : data[n]? = some x) : data.take (n + 1) = data.take n ++ [x] := by
  rw [take_add_one, h]
  rfl

theorem length_take_of_get (h : data[n]? = some x) : (data.take n).length = n := by
  have hlt := (List.getElem?_eq_some_iff.mp h).1
  rw [length_take, Nat.min_eq_left (by omega)]

theorem copyLoop_spec (hb : b < pos) (hpos : pos ≤ data.length)
    (hrun : ∀ k < r, ∃ x, data[pos + k]? = some x ∧ data[b + k]? = some x) (hroom : r ≤ rest.length)
      :
    copyLoop r (b : Nat) pos (data.take pos ++ rest) =
      some (data.take (pos + r) ++ rest.drop r) := by
  induction r generalizing b pos rest with
  | zero => rfl
  | succ r ih =>
    obtain ⟨x, hx, hy⟩ := hrun 0 (Nat.succ_pos r)
    have hin : pos < data.length := (List.getElem?_eq_some_iff.mp hx).1
    have hlen : (data.take pos).length = pos := length_take_of_get hx
    obtain ⟨z, rest, rfl⟩ := exists_cons_of_length_pos (l := rest) (by omega)
    have hread : (data.take pos ++ z :: rest)[b]? = some x := by
      rw [getElem?_append_left (by omega), getElem?_take_of_lt hb]
      exact hy
    have hwrite := Buffer.put_append (data.take pos) z x rest
    rw [hlen] at hwrite
    have hnext := ih (show b + 1 < pos + 1 by omega) (by omega) (fun k hk => by
        have hk' := hrun (k + 1) (by omega)
        rwa [← Nat.add_assoc, ← Nat.add_assoc, Nat.add_right_comm pos, Nat.add_right_comm b] at hk')
      (show r ≤ rest.length by rw [length_cons] at hroom; omega)
    rw [copyLoop, Buffer.get_natCast, hread]
    simp only [bind_eq_bind, bind_some, hwrite]
    rw [take_succ hx, List.append_assoc] at hnext
    rw [show pos + (r + 1) = pos + 1 + r by omega]
    exact hnext

theorem copyRun_spec (hb : b < pos) (hpos : pos ≤ data.length)
    (hrun : ∀ k < r, ∃ x, data[pos + k]? = some x ∧ data[b + k]? = some x) (hroom : r ≤ rest.length)
      :
    copyRun r (b : Nat) pos (data.take pos ++ rest) =
      some (data.take (pos + r) ++ rest.drop r) := by
  rw [copyRun]
  by_cases hover : (pos : Int) ≤ (b : Int) + r
  · rw [if_pos hover]
    exact copyLoop_spec hb hpos hrun hroom
  · have hlen : (data.take pos).length = pos := by
      rw [length_take, Nat.min_eq_left hpos]
    have hold : (rest.take r).length = r := by
      rw [length_take, Nat.min_eq_left hroom]
    have hcopy := Buffer.copy_append (data.take pos) (rest.take r) (rest.drop r)
      (show b + (rest.take r).length ≤ (data.take pos).length by omega)
    rw [take_append_drop, hlen, hold] at hcopy
    rw [if_neg hover, if_pos (Int.natCast_nonneg b), Int.toNat_natCast, hcopy]
    have hsame : ((data.take pos).drop b).take r = (data.drop pos).take r := by
      apply ext_getElem?
      intro k
      by_cases hk : k < r
      · obtain ⟨x, hx, hy⟩ := hrun k hk
        rw [getElem?_take_of_lt hk, getElem?_take_of_lt hk, getElem?_drop,
          getElem?_drop, getElem?_take_of_lt (by omega), hx, hy]
      · rw [getElem?_take_eq_none (by omega), getElem?_take_eq_none (by omega)]
    rw [hsame, ← List.append_assoc, take_add]

theorem decompressBody_spec (hval : data[pos]? = some v)
    (hback : (ps v).toInt = ((b : Nat) : Int)) (hb : b ≤ pos) (hr : r ≤ 255)
    (hrun : ∀ k < r, ∃ x, data[pos + 1 + k]? = some x ∧ data[b + k]? = some x)
    (hin : input[i]? = some v) (hin' : input[i + 1]? = some (BitVec.ofNat 8 r))
    (hroom : 1 + r ≤ rest.length) :
    decompressBody input ⟨i, pos, ps, data.take pos ++ rest⟩ =
      some ⟨i + 2, pos + 1 + r, update ps v (BitVec.ofNat 16 (pos + 1)),
        data.take (pos + 1 + r) ++ rest.drop (1 + r)⟩ := by
  have hlt : pos < data.length := (List.getElem?_eq_some_iff.mp hval).1
  have hlen : (data.take pos).length = pos := length_take_of_get hval
  obtain ⟨z, rest, rfl⟩ := exists_cons_of_length_pos (l := rest) (by omega)
  have hwrite := Buffer.put_append (data.take pos) z v rest
  rw [hlen, show data.take pos ++ v :: rest = data.take (pos + 1) ++ rest by
    rw [take_succ hval, List.append_assoc, singleton_append]] at hwrite
  have hcount : (BitVec.ofNat 8 r).toNat = r := by
    rw [toNat_ofNat, Nat.mod_eq_of_lt (by omega)]
  have hcopy := copyRun_spec (by omega) (by omega) hrun
    (show r ≤ rest.length by rw [length_cons] at hroom; omega)
  simp only [decompressBody, hin, hin', hwrite, hback, hcount, hcopy, bind_eq_bind, bind_some]
  rw [Nat.add_comm 1 r]
  split
  next hzero =>
    have hr0 : r = 0 := by
      rw [← hcount, hzero]
      rfl
    rw [hr0]
    rfl
  next => rfl

theorem decompress_loop (h : Parse data pos ps ts s) (pre rest : List Byte)
    (hs : s = destlen.toNat) (hroom : s - pos ≤ rest.length) (hfuel : ts.length < fuel) :
    ∃ ps', runFor (decompressTurn (pre ++ bytes ts) destlen) fuel
        ⟨pre.length, pos, ps, data.take pos ++ rest⟩ =
      some (some ⟨(pre ++ bytes ts).length, s, ps', data.take s ++ rest.drop (s - pos)⟩) := by
  induction h generalizing pre rest fuel with
  | @nil pos ps =>
    obtain ⟨n, rfl⟩ : ∃ n, fuel = n + 1 := ⟨fuel - 1, by omega⟩
    have hlt : pos < 2 ^ 32 := hs ▸ destlen.isLt
    have hstop : ¬ BitVec.ofNat 32 pos < destlen := by
      rw [lt_iff hlt, hs]
      exact Nat.lt_irrefl _
    rw [runFor, decompressTurn, if_neg hstop]
    simp [bytes]
  | @cons pos v ps b r ts s hval hback hb hr hrun hrest ih =>
    obtain ⟨n, rfl⟩ : ∃ n, fuel = n + 1 := ⟨fuel - 1, by omega⟩
    rw [length_cons] at hfuel
    have hle := hrest.le
    have hgo : BitVec.ofNat 32 pos < destlen := by
      rw [lt_iff (by omega)]
      omega
    have hfirst : (pre ++ bytes ((v, r) :: ts))[pre.length]? = some v := by
      rw [getElem?_append_right (Nat.le_refl _), Nat.sub_self]
      rfl
    have hsecond : (pre ++ bytes ((v, r) :: ts))[pre.length + 1]? = some (BitVec.ofNat 8 r) := by
      rw [getElem?_append_right (Nat.le_add_right _ 1), Nat.add_sub_cancel_left]
      rfl
    have hbody := decompressBody_spec hval hback hb hr hrun hfirst hsecond
      (show 1 + r ≤ rest.length by omega)
    obtain ⟨ps', hloop⟩ := ih (pre ++ bytes [(v, r)]) (rest.drop (1 + r)) hs
      (by rw [length_drop]; omega) (show ts.length < n by omega)
    have happend : pre ++ bytes [(v, r)] ++ bytes ts = pre ++ bytes ((v, r) :: ts) :=
      List.append_assoc pre _ _
    have htwo : (pre ++ bytes [(v, r)]).length = pre.length + 2 := length_append
    rw [happend, htwo, drop_drop] at hloop
    refine ⟨ps', ?_⟩
    rw [runFor, decompressTurn, if_pos hgo]
    simp only [hbody]
    rw [hloop, show 1 + r + (s - (pos + 1 + r)) = s - pos by omega]

end Decompress

theorem behind_start (pos : Nat) : Behind (fun _ => 0#16) pos :=
  fun _ => ⟨0, rfl, Nat.zero_le pos⟩

/-- What is compressed is shorter than what it is decompressed to, the first part of the data. -/
theorem rtime_lossless (data page : List Byte) (sourcelen dstlen : BitVec 32)
    (hpos : 1 ≤ sourcelen.toNat) (hshort : sourcelen.toNat ≤ 32767)
    (hdata : data.length = sourcelen.toNat) (hdst : 2 ≤ dstlen.toNat)
    (hpage : page.length = dstlen.toNat) :
    ∃ r page', rtimeCompress data page sourcelen dstlen = some (r, page') ∧
      page'.length = page.length ∧
      ∀ s d, r = some (s, d) → d < s ∧ s ≤ data.length ∧ d ≤ page.length ∧
        ∀ target : List Byte, s ≤ target.length →
          rtimeDecompress (page'.take d) target (BitVec.ofNat 32 s) =
            some (d, s, data.take s ++ target.drop s) := by
  obtain ⟨ts, s, ps, rest, hrun, hparse, hs, hsame⟩ := compress_loop [] page hdata
    (by omega) hdst hpage (Nat.le_refl _) (behind_start 0) (Nat.zero_le _)
    (show data.length - 0 < sourcelen.toNat + 1 by omega)
  rw [nil_append, nil_append] at hrun hsame
  rw [length_nil] at hrun
  refine ⟨if s ≤ (bytes ts).length then none else some (s, (bytes ts).length), bytes ts ++ rest,
    ?_, hsame, fun s' d hr => ?_⟩
  · simp only [rtimeCompress, hrun]
    rfl
  · have hcompressed : (bytes ts).length < s ∧ s' = s ∧ d = (bytes ts).length := by
      split at hr
      next => cases hr
      next hlt =>
        obtain ⟨rfl, rfl⟩ := Prod.mk.inj (some.inj hr)
        exact ⟨Nat.not_le.mp hlt, rfl, rfl⟩
    obtain ⟨hlt, rfl, rfl⟩ := hcompressed
    rw [length_append] at hsame
    refine ⟨hlt, hs, by omega, fun target htarget => ?_⟩
    have hdest : (BitVec.ofNat 32 s').toNat = s' := by
      rw [toNat_ofNat, Nat.mod_eq_of_lt (by omega)]
    have hcount := hparse.length_le
    obtain ⟨ps', hloop⟩ := decompress_loop hparse [] target hdest.symm htarget
      (show ts.length < s' + 1 by omega)
    rw [take_left, rtimeDecompress, hdest]
    rw [nil_append, length_nil, take_zero, nil_append] at hloop
    simp only [hloop]
    rfl

theorem rtime_lossless_run :
    ∃ r page', rtimeCompress [7#8, 7#8, 7#8, 7#8, 7#8, 9#8] (List.replicate 8 0#8) 6#32 8#32 =
        some (r, page') ∧ page'.length = 8 ∧
      ∀ s d, r = some (s, d) → d < s ∧ s ≤ 6 ∧ d ≤ 8 ∧ ∀ target : List Byte, s ≤ target.length →
          rtimeDecompress (page'.take d) target (BitVec.ofNat 32 s) =
            some (d, s, [7#8, 7#8, 7#8, 7#8, 7#8, 9#8].take s ++ target.drop s) :=
  rtime_lossless [7#8, 7#8, 7#8, 7#8, 7#8, 9#8] (List.replicate 8 0#8) 6#32 8#32 (by decide)
    (by decide) rfl (by decide) rfl

example : rtimeCompress [7#8, 7#8, 7#8, 7#8, 7#8, 9#8] (List.replicate 8 0#8) 6#32 8#32 =
    some (some (6, 4), [7#8, 4#8, 9#8, 0#8, 0#8, 0#8, 0#8, 0#8]) := rfl

end SpicaKernel.Rtime
