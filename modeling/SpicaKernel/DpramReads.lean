import SpicaKernel.Dpram

namespace SpicaKernel.Dpram
open List
set_option autoImplicit true

section

variable {m : Nat → UInt8} {r : Ring} {H data : List UInt8} {p : Nat} {s : State}
  {device : DpramDevice} {room : Nat → Nat}

/-- Data that `dpram_tty_insert_data` offers in clusters, whose results it does not look at. -/
def Clustered (device : DpramDevice) (n : Nat) : Prop :=
  clusterSegment < n ∧ device.ttyIndex = 1

structure Accepts (device : DpramDevice) (room : Nat → Nat) (n : Nat) : Prop where
  clusters : Clustered device n → ∀ k, min clusterSegment (n - clusterSegment * k) ≤ room k
  plain : ¬ Clustered device n → n ≤ room 0

theorem insertClusters_all (n : Nat) (h : ∀ k, min clusterSegment (n - clusterSegment * k) ≤ room k)
    (hk : data.length = n - clusterSegment * k) (hf : data.length ≤ fuel) :
    insertClusters room fuel k data = data := by
  induction fuel generalizing k data with
  | zero => exact (eq_nil_of_length_eq_zero (Nat.le_zero.mp hf)).symm
  | succ fuel ih =>
    rw [insertClusters]
    split
    next hnil => exact hnil.symm
    next hne =>
      have hpos : 0 < clusterSegment := by decide
      have htake : (data.take clusterSegment).length ≤ room k := by
        have := h k
        rw [length_take]
        omega
      have hdrop : (data.drop clusterSegment).length = n - clusterSegment * (k + 1) := by
        rw [length_drop, Nat.mul_succ]
        omega
      rw [take_of_length_le htake, ih hdrop (by rw [length_drop]; omega), take_append_drop]

theorem insertData_all (h : Accepts device room data.length) :
    dpramTtyInsertData device room data = (data, data.length) := by
  unfold dpramTtyInsertData
  split
  next hc => rw [insertClusters_all data.length (h.clusters hc) rfl (Nat.le_refl _)]
  next hc => rw [take_of_length_le (h.plain hc), Nat.min_eq_right (h.plain hc)]

theorem insertData_plain (h : ¬ Clustered device data.length) :
    dpramTtyInsertData device room data = (data.take (room 0), min (room 0) data.length) :=
  if_neg h

def Ring.first (r : Ring) (m : Nat → UInt8) : Nat :=
  if r.tail m < r.head m then r.head m - r.tail m else r.buffSize - r.tail m

def Ring.second (r : Ring) (m : Nat → UInt8) : Nat :=
  if r.tail m < r.head m then 0 else r.head m

theorem Ring.Queue.pieces (h : r.Queue m H p) (hne : r.head m ≠ r.tail m) :
    load m (r.buffAddr + r.tail m) (r.first m) ++ load m r.buffAddr (r.second m) = H.drop p := by
  have hhead := h.head_lt
  have hload : ∀ off n, load m (r.buffAddr + off) n = load (r.cells m) off n := by
    simp [load, Ring.cells, Nat.add_assoc]
  have hmin : min (r.used m) (r.buffSize - r.tail m) = r.first m := by
    unfold Ring.used occupied Ring.first
    split <;> split <;> omega
  have hrest : r.used m - r.first m = r.second m := by
    unfold Ring.used occupied Ring.first Ring.second
    split <;> split <;> omega
  rw [← h.contents, Ring.contents, loadRing, hmin, hrest, hload, ← hload 0, Nat.add_zero]

/-- The region is offered to the tty in one insert, or every insert accepts all it is offered. -/
def ReadsAll (s : State) (room : Nat → Nat → Nat) : Prop :=
  let r := s.device.inRing
  (r.second s.mem = 0 ∧ ¬ Clustered s.device (r.first s.mem)) ∨
  (Accepts s.device (room 0) (r.first s.mem) ∧
    (r.second s.mem ≠ 0 → Accepts s.device (room 1) (r.second s.mem)))

theorem insertRegion_eq (device : DpramDevice) (m : Nat → UInt8) (room : Nat → Nat → Nat) :
    insertRegion device m room = let r := device.inRing
      let a := dpramTtyInsertData device (room 0) (load m (r.buffAddr + r.tail m) (r.first m))
      let b := dpramTtyInsertData device (room 1) (load m r.buffAddr (r.second m))
      if r.second m = 0 then a else (a.1 ++ b.1, a.2 + r.second m) := by
  unfold insertRegion Ring.first Ring.second
  dsimp only
  split
  next => rfl
  next =>
    rw [Nat.add_sub_cancel_left]
    by_cases h0 : device.inRing.head m = 0
    · rw [if_neg (by omega), if_pos h0]
    · rw [if_pos (by omega), if_neg h0]

theorem insertRegion_spec {room : Nat → Nat → Nat} (h : s.device.inRing.Queue s.mem H p)
    (hne : s.device.inRing.head s.mem ≠ s.device.inRing.tail s.mem) (hg : ReadsAll s room) :
    ∃ q, p + q ≤ H.length ∧ insertRegion s.device s.mem room = ((H.drop p).take q, q) := by
  have hpieces := h.pieces hne
  have hle := h.holds.le
  have hlen := congrArg length hpieces
  rw [length_append, load_length, load_length, length_drop] at hlen
  rw [insertRegion_eq]
  dsimp only
  generalize hfirst : s.device.inRing.first s.mem = n at hg hpieces hlen ⊢
  generalize hsecond : s.device.inRing.second s.mem = n' at hg hpieces hlen ⊢
  simp only [ReadsAll, hfirst, hsecond] at hg
  rcases hg with ⟨rfl, hplain⟩ | ⟨hall, hmore⟩
  · -- the only insert tells how many bytes it has taken
    have hfull : load s.mem (s.device.inRing.buffAddr + s.device.inRing.tail s.mem) n =
        H.drop p := by
      rw [← hpieces]
      exact (append_nil _).symm
    have hn : (H.drop p).length = n := by
      rw [length_drop]
      omega
    refine ⟨min (room 0 0) n, by omega, ?_⟩
    rw [if_pos rfl, insertData_plain (by rwa [load_length]), hfull, take_eq_take_min, hn]
  · refine ⟨H.length - p, by omega, ?_⟩
    rw [take_of_length_le (by rw [length_drop]), ← hpieces,
      insertData_all (by rwa [load_length]), load_length]
    split
    next h0 =>
      subst h0
      rw [← hlen]
      exact congrArg (·, n) (append_nil _).symm
    next h0 => rw [insertData_all (by rw [load_length]; exact hmore h0), ← hlen]

/-- What happens to the ring from the phone: bytes placed in it, and reads. -/
inductive InOp where
  | place (bs : List UInt8)
  | read (onedramSem : Bool) (room : Nat → Nat → Nat)

/-- The device with the bytes that the phone has placed in the ring in all. -/
structure InTraffic where
  state : State
  placed : List UInt8

def State.place (s : State) (bs : List UInt8) : State :=
  let r := s.device.inRing
  let head := r.head s.mem
  let mem := store s.mem (r.buffAddr + head) (bs.take (r.buffSize - head))
  let mem := store mem r.buffAddr (bs.drop (r.buffSize - head))
  { s with mem := setWord mem r.headAddr (BitVec.ofNat 16 ((head + bs.length) % r.buffSize)) }

def InTraffic.step (t : InTraffic) : InOp → Option InTraffic
  | .place bs => some ⟨t.state.place bs, t.placed ++ bs⟩
  | .read onedramSem room => some ⟨(dpramRead t.state onedramSem room).1, t.placed⟩

def InTraffic.Fits (t : InTraffic) : InOp → Prop
  | .place bs => bs.length ≤ t.state.device.inRing.buffSize - 1 -
      t.state.device.inRing.used t.state.mem
  | .read _ _ => True

/-- Moreover each read that finds bytes meets the condition under which it keeps them all. -/
def InTraffic.Careful (t : InTraffic) (op : InOp) : Prop :=
  t.Fits op ∧ match op with
  | .place _ => True
  | .read onedramSem room => onedramSem = true →
      t.state.device.inRing.head t.state.mem ≠ t.state.device.inRing.tail t.state.mem →
      ReadsAll t.state room

structure InTraffic.Inv (r : Ring) (H₀ : List UInt8) (t : InTraffic) : Prop where
  ring : t.state.device.inRing = r
  queue : r.Queue t.state.mem (H₀ ++ t.placed) (H₀.length + t.state.tty.length)
  accepted : t.state.tty <+: t.placed

theorem Ring.Queue.place (h : s.device.inRing.Queue s.mem H p) (hA : s.device.inRing.Apart)
    (hsize : s.device.inRing.buffSize ≤ 65536)
    (hroom : H.length + data.length < p + s.device.inRing.buffSize) :
    s.device.inRing.Queue (s.place data).mem (H ++ data) p := by
  unfold State.place
  dsimp only
  generalize s.device.inRing = r at h hA hsize hroom ⊢
  have hlt := h.head_lt
  have hle := h.holds.le
  have hfirst : (data.take (r.buffSize - r.head s.mem)).length ≤ r.buffSize - r.head s.mem :=
    length_take_le _ _
  have hsecond : (data.drop (r.buffSize - r.head s.mem)).length ≤ r.buffSize := by
    rw [length_drop]
    omega
  have htail := hA.tail
  rw [h.head, Nat.mod_add_mod, ← h.head]
  apply h.extend hA hsize hroom
  · rw [storeRing, ← cells_store, ← cells_store, Nat.add_zero]
  · rw [word_store (by omega), word_store (by omega)]

theorem dpramRead_spec {room : Nat → Nat → Nat} (h : s.device.inRing.Queue s.mem H p)
    (hA : s.device.inRing.Apart) (hsize : s.device.inRing.buffSize ≤ 65536)
    (hg : s.device.inRing.head s.mem ≠ s.device.inRing.tail s.mem → ReadsAll s room) :
    ∃ q, p + q ≤ H.length ∧ (dpramRead s true room).1.device.inRing = s.device.inRing ∧
      s.device.inRing.Queue (dpramRead s true room).1.mem H (p + q) ∧
      (dpramRead s true room).1.tty = s.tty ++ (H.drop p).take q := by
  rw [dpramRead, if_neg (by simp)]
  dsimp only
  split
  next heq => exact ⟨0, h.holds.le, rfl, h, by simp⟩
  next hne =>
    obtain ⟨q, hq, hins⟩ := insertRegion_spec h hne (hg hne)
    have hlt := Nat.mod_lt (p + q) h.pos
    have hup : u16 ((s.device.inRing.tail s.mem + q) % s.device.inRing.buffSize : Nat) =
        (p + q) % s.device.inRing.buffSize := by
      rw [h.tail, Nat.mod_add_mod]
      exact u16_eq rfl (by omega)
    rw [hins]
    rw [hup, writeToDpramVerify_eq]
    exact ⟨q, hq, rfl, h.advance hA hsize hq, rfl⟩

theorem InTraffic.Inv.step {t t' : InTraffic} (hA : r.Apart)
    (hsize : r.buffSize ≤ 65536) (h : t.Inv r H₀) (hg : t.Careful op)
    (hs : t.step op = some t') : t'.Inv r H₀ := by
  obtain ⟨hr, hq, hacc⟩ := h
  subst hr
  cases op with
  | place bs =>
    obtain rfl := Option.some.inj hs
    have hq' := hq.place hA hsize (hq.fits_iff.mp hg.1)
    rw [List.append_assoc] at hq'
    exact ⟨rfl, hq', hacc.trans (prefix_append _ _)⟩
  | read onedramSem room =>
    obtain rfl := Option.some.inj hs
    cases onedramSem with
    | false => exact ⟨rfl, hq, hacc⟩
    | true =>
      obtain ⟨q, hle, hring, hq', htty⟩ := dpramRead_spec hq hA hsize (hg.2 rfl)
      obtain ⟨rest, hrest⟩ := hacc
      have hdrop : (H₀ ++ t.placed).drop (H₀.length + t.state.tty.length) = rest := by
        rw [← hrest, ← List.append_assoc, ← length_append, drop_left]
      rw [hdrop] at htty
      refine ⟨hring, ?_, ?_⟩
      · have hlen : (rest.take q).length = q := by
          rw [length_take, ← hdrop, length_drop]
          omega
        rw [htty, length_append, hlen, ← Nat.add_assoc]
        exact hq'
      · rw [htty, ← hrest, prefix_append_right_inj]
        exact take_prefix q rest

/-- The tty has had a first part of what the phone placed in the ring, which holds the rest. -/
theorem dpram_read_delivers_stream {s₀ : State} {ops : List InOp} {t : InTraffic}
    (hr : s₀.device.inRing = r) (hA : r.Apart) (hsize : r.buffSize ≤ 65536)
    (hempty : r.head s₀.mem = r.tail s₀.mem) (htail : r.tail s₀.mem < r.buffSize)
    (htty : s₀.tty = []) (h : Run InTraffic.Careful InTraffic.step ⟨s₀, []⟩ ops t) :
    t.state.tty <+: t.placed ∧ t.placed = t.state.tty ++ r.contents t.state.mem := by
  have hI : t.Inv r (List.replicate (r.tail s₀.mem) 0) := by
    apply h.invariant (fun hi hg hs => hi.step hA hsize hg hs)
    refine ⟨hr, ?_, htty ▸ nil_prefix⟩
    simpa [htty] using Ring.Queue.empty hempty htail
  refine ⟨hI.accepted, ?_⟩
  obtain ⟨rest, hrest⟩ := hI.accepted
  rw [hI.queue.contents, ← hrest, ← List.append_assoc, ← length_append, drop_left]

def smallState : State where
  mem := setWord (setWord (fun _ => 0) 0 6) 2 6
  device := ⟨⟨0, 2, 4, 8⟩, ⟨12, 14, 16, 8⟩, 0, 0, 0⟩
  tty := []

theorem smallState_apart : smallState.device.inRing.Apart := by
  constructor
  all_goals decide

theorem dpram_read_delivers_stream_sample :
    ∃ t, Run InTraffic.Careful InTraffic.step ⟨smallState, []⟩
        [.place [1, 2, 3, 4], .read true (fun _ _ => 8)] t ∧
      t.state.tty = [1, 2, 3, 4] ∧ t.state.tty <+: t.placed := by
  have hrun : Run InTraffic.Careful InTraffic.step ⟨smallState, []⟩
      [.place [1, 2, 3, 4], .read true (fun _ _ => 8)]
      ⟨(dpramRead (smallState.place [1, 2, 3, 4]) true (fun _ _ => 8)).1, [1, 2, 3, 4]⟩ := by
    refine .cons ⟨?_, trivial⟩ rfl (.cons ⟨trivial, fun _ _ => .inr ⟨?_, fun _ => ?_⟩⟩ rfl (.nil _))
    · show 4 ≤ smallState.device.inRing.buffSize - 1 - smallState.device.inRing.used smallState.mem
      decide +kernel
    · exact ⟨fun hc => absurd hc.1 (by decide +kernel), fun _ => by decide +kernel⟩
    · exact ⟨fun hc => absurd hc.1 (by decide +kernel), fun _ => by decide +kernel⟩
  refine ⟨_, hrun, by decide +kernel, ?_⟩
  exact (dpram_read_delivers_stream rfl smallState_apart (by decide) (by decide +kernel)
    (by decide +kernel) rfl hrun).1

/-- The region wraps and the first insert takes one of two bytes: the second byte is lost. -/
theorem dpram_read_loses_byte : ∃ t, Run InTraffic.Fits InTraffic.step ⟨smallState, []⟩
        [.place [1, 2, 3, 4], .read true (fun p _ => p + 1)] t ∧
      t.state.tty = [1, 3, 4] ∧ ¬ t.state.tty <+: t.placed := by
  refine ⟨_, .cons ?_ rfl (.cons trivial rfl (.nil _)), ?_, ?_⟩
  · show 4 ≤ smallState.device.inRing.buffSize - 1 - smallState.device.inRing.used smallState.mem
    decide +kernel
  · decide +kernel
  · decide +kernel

end

open Option

variable {m m' : Nat → UInt8} {r : Ring} {H : List UInt8} {p head tail : Nat} {s : State}
  {d : DpramDevice}

def Ring.Covers (r : Ring) (a : Nat) : Prop :=
  (r.headAddr ≤ a ∧ a < r.headAddr + 2) ∨ (r.tailAddr ≤ a ∧ a < r.tailAddr + 2) ∨
    (r.buffAddr ≤ a ∧ a < r.buffAddr + r.buffSize)

theorem Ring.Queue.covered (h : r.Queue m H p) (hm : ∀ a, r.Covers a → m' a = m a) :
    r.Queue m' H p := by
  apply h.frame
  · intro i hi
    exact hm _ (.inr (.inr ⟨by omega, by omega⟩))
  · exact word_congr (hm _ (.inl ⟨by omega, by omega⟩)) (hm _ (.inl ⟨by omega, by omega⟩))
  · exact word_congr (hm _ (.inr (.inl ⟨by omega, by omega⟩)))
      (hm _ (.inr (.inl ⟨by omega, by omega⟩)))

structure DpramDevice.Apart (d : DpramDevice) : Prop where
  out : d.outRing.Apart
  rings : ∀ a, d.outRing.Covers a → ¬ d.inRing.Covers a

/-- The calls on the device, and the phone, which takes from one ring and may change the other. -/
inductive RoomOp where
  | write (onedramSem : Bool) (k : Nat → UInt8) (buf len : Nat)
  | read (onedramSem : Bool) (room : Nat → Nat → Nat)
  | consume (n : Nat)
  | phone (mem : Nat → UInt8)

/-- The device, with the indices of the ring to the phone after the last `dpram_write`. -/
structure RoomTraffic where
  state : State
  seen : Option (Nat × Nat)

namespace RoomTraffic

def step (t : RoomTraffic) : RoomOp → Option RoomTraffic
  | .write onedramSem k buf len => (dpramWrite t.state onedramSem k buf len).map fun res =>
    ⟨res.1, if onedramSem then some (res.1.device.outRing.head res.1.mem,
      res.1.device.outRing.tail res.1.mem) else t.seen⟩
  | .read onedramSem room => some ⟨(dpramRead t.state onedramSem room).1, t.seen⟩
  | .consume n => some ⟨t.state.consume n, t.seen⟩
  | .phone mem => some ⟨{ t.state with mem := mem }, t.seen⟩

def Fits (t : RoomTraffic) : RoomOp → Prop
  | .write _ _ _ len => len ≤ t.state.device.outRing.buffSize - 1 -
      t.state.device.outRing.used t.state.mem
  | .read _ _ => True
  | .consume n => n ≤ t.state.device.outRing.used t.state.mem
  | .phone mem => ∀ a, ¬ t.state.device.inRing.Covers a → mem a = t.state.mem a

/-- A write takes the head round to below the tail, and a read finds the indices of its own ring in
that order and as far apart. -/
def Keeps (t : RoomTraffic) (op : RoomOp) : Prop :=
  t.Fits op ∧ match op with
  | .write onedramSem _ _ len => onedramSem = true →
      (t.state.device.outRing.head t.state.mem + len) % t.state.device.outRing.buffSize <
        t.state.device.outRing.tail t.state.mem
  | .read onedramSem _ => onedramSem = true → ∀ head tail, t.seen = some (head, tail) →
      t.state.device.inRing.head t.state.mem < t.state.device.inRing.tail t.state.mem ∧
        t.state.device.inRing.tail t.state.mem - t.state.device.inRing.head t.state.mem =
          tail - head
  | _ => True

structure Inv (d : DpramDevice) (t : RoomTraffic) : Prop where
  inRing : t.state.device.inRing = d.inRing
  outRing : t.state.device.outRing = d.outRing
  queue : ∃ H p, d.outRing.Queue t.state.mem H p
  saved : ∀ head tail, t.seen = some (head, tail) →
    t.state.device.outHeadSaved < t.state.device.outTailSaved ∧
      t.state.device.outTailSaved - t.state.device.outHeadSaved = tail - head ∧
      head < tail ∧ tail < d.outRing.buffSize

end RoomTraffic

theorem dpramRead_mem (s : State) (onedramSem : Bool) (room : Nat → Nat → Nat)
    (ha : ¬ s.device.inRing.Covers a) : (dpramRead s onedramSem room).1.mem a = s.mem a := by
  unfold dpramRead
  split
  · rfl
  · dsimp only
    split
    · rfl
    · rw [writeToDpramVerify_eq]
      apply setWord_outside
      by_contra hin
      exact ha (.inr (.inl ⟨by omega, by omega⟩))

theorem dpramRead_saved (s : State) (room : Nat → Nat → Nat) :
    (dpramRead s true room).1.device = { s.device with
      outHeadSaved := s.device.inRing.head s.mem
      outTailSaved := s.device.inRing.tail s.mem } := by
  rw [dpramRead, if_neg (by simp)]
  dsimp only
  split
  · rfl
  · rfl

theorem RoomTraffic.Inv.step {t t' : RoomTraffic} (hd : d.Apart)
    (hsize : d.outRing.buffSize ≤ 32768) (h : t.Inv d) (hg : t.Keeps op)
    (hs : t.step op = some t') : t'.Inv d := by
  obtain ⟨hin, hout, ⟨H, p, hq⟩, hsaved⟩ := h
  obtain ⟨hfit, hg⟩ := hg
  cases op with
  | write onedramSem k buf len =>
    cases onedramSem with
    | false =>
      obtain rfl := some.inj hs
      exact ⟨hin, hout, ⟨H, p, hq⟩, hsaved⟩
    | true =>
      rw [← hout] at hq hsize
      obtain ⟨mem, hw, hq'⟩ :=
        dpramWrite_spec hq (hout.symm ▸ hd.out) hsize (hq.fits_iff.mp hfit)
      rw [RoomTraffic.step, hw] at hs
      obtain rfl := some.inj hs
      have hhead := hq'.head
      rw [List.length_append, load_length] at hhead
      have htail := hq'.tail.trans hq.tail.symm
      refine ⟨hin, hout, ⟨_, p, hout ▸ hq'⟩, ?_⟩
      intro head tail hseen
      obtain ⟨rfl, rfl⟩ := Prod.mk.inj (some.inj hseen)
      have hlt := hg rfl
      rw [hq.head, Nat.mod_add_mod] at hlt
      refine ⟨hlt, by rw [hhead, htail], ?_, hout ▸ hq'.tail_lt⟩
      rw [hhead, htail]
      exact hlt
  | read onedramSem room =>
    obtain rfl := some.inj hs
    have hq' : d.outRing.Queue (dpramRead t.state onedramSem room).1.mem H p :=
      hq.covered fun a ha => dpramRead_mem t.state onedramSem room (hin ▸ hd.rings a ha)
    cases onedramSem with
    | false => exact ⟨hin, hout, ⟨H, p, hq⟩, hsaved⟩
    | true =>
      have hdev := dpramRead_saved t.state room
      refine ⟨by rw [hdev]; exact hin, by rw [hdev]; exact hout, ⟨H, p, hq'⟩, ?_⟩
      intro head tail hseen
      rw [hdev]
      obtain ⟨hlt, hgap⟩ := hg rfl head tail hseen
      exact ⟨hlt, hgap, (hsaved head tail hseen).2.2⟩
  | consume n =>
    obtain rfl := some.inj hs
    rw [← hout] at hq hsize
    have hq' := hq.consume (hout.symm ▸ hd.out) (by omega) hfit
    exact ⟨hin, hout, ⟨H, p + n, hout ▸ hq'⟩, hsaved⟩
  | phone mem =>
    obtain rfl := some.inj hs
    have hq' : d.outRing.Queue mem H p :=
      hq.covered fun a ha => hfit a (hin.symm ▸ hd.rings a ha)
    exact ⟨hin, hout, ⟨H, p, hq'⟩, hsaved⟩

/-- The two functions give the free and the occupied part, as `dpram_write` last saw the ring. -/
theorem dpram_room_and_chars {ops : List RoomOp} {t : RoomTraffic} (hd : s.device.Apart)
    (hsize : s.device.outRing.buffSize ≤ 32768)
    (hempty : s.device.outRing.head s.mem = s.device.outRing.tail s.mem)
    (htail : s.device.outRing.tail s.mem < s.device.outRing.buffSize)
    (h : Run RoomTraffic.Keeps RoomTraffic.step ⟨s, none⟩ ops t)
    (hseen : t.seen = some (head, tail)) :
    let n := s.device.outRing.buffSize
    dpramTtyWriteRoom t.state.device = n - 1 - occupied n head tail ∧
      dpramTtyCharsInBuffer t.state.device = occupied n head tail ∧
      dpramTtyWriteRoom t.state.device + dpramTtyCharsInBuffer t.state.device = n - 1 := by
  have hI : t.Inv s.device := by
    apply h.invariant (fun hi hg hs => hi.step hd hsize hg hs)
    exact ⟨rfl, rfl, ⟨_, _, Ring.Queue.empty hempty htail⟩, nofun⟩
  obtain ⟨hsaved, hgap, hlt, hn⟩ := hI.saved head tail hseen
  simp only [dpramTtyWriteRoom, dpramTtyCharsInBuffer, hI.outRing, occupied, hsaved,
    Nat.lt_asymm hsaved, Nat.not_le.mpr hlt, if_true, if_false]
  omega

def middleState : State where
  mem := setWord (setWord (fun _ => 0) 12 5) 14 5
  device := smallState.device
  tty := []

theorem middleState_apart : middleState.device.Apart := by
  refine ⟨?_, ?_⟩
  · constructor
    all_goals decide
  · intro a hout hin
    simp only [Ring.Covers, middleState, smallState] at hout hin
    omega

def RoomTraffic.answers (t : RoomTraffic) : Option (Nat × Nat) × Int × Int :=
  (t.seen, dpramTtyWriteRoom t.state.device, dpramTtyCharsInBuffer t.state.device)

theorem dpram_room_and_chars_sample :
    ∃ t, Run RoomTraffic.Keeps RoomTraffic.step ⟨middleState, none⟩
        [.write true (fun _ => 1) 0 6] t ∧ t.seen = some (3, 5) ∧
      dpramTtyWriteRoom t.state.device = 1 ∧ dpramTtyCharsInBuffer t.state.device = 6 := by
  have hstep : (RoomTraffic.step ⟨middleState, none⟩ (.write true (fun _ => 1) 0 6)).map
      RoomTraffic.seen = some (some (3, 5)) := by decide +kernel
  obtain ⟨t, ht, hseen⟩ := map_eq_some_iff.mp hstep
  have hkeeps : RoomTraffic.Keeps ⟨middleState, none⟩ (.write true (fun _ => 1) 0 6) := by
    refine ⟨?_, fun _ => by decide +kernel⟩
    show 6 ≤ middleState.device.outRing.buffSize - 1 -
      middleState.device.outRing.used middleState.mem
    decide +kernel
  have hrun : Run RoomTraffic.Keeps RoomTraffic.step ⟨middleState, none⟩
      [.write true (fun _ => 1) 0 6] t := .cons hkeeps ht (.nil t)
  obtain ⟨hroom, hchars, -⟩ := dpram_room_and_chars middleState_apart (by decide)
    (by decide +kernel) (by decide +kernel) hrun hseen
  exact ⟨t, hrun, hseen, hroom, hchars⟩

/-- Two bytes in the ring count as one. Six leave room for one, but after a read of the other ring,
which is empty, the room is 7 and the count of bytes 8. -/
theorem dpram_room_and_chars_diverge :
    (∃ t, Run RoomTraffic.Fits RoomTraffic.step ⟨middleState, none⟩
        [.write true (fun _ => 1) 0 2] t ∧ t.answers = (some (7, 5), 5, 1)) ∧
    ∃ t, Run RoomTraffic.Fits RoomTraffic.step ⟨middleState, none⟩
        [.write true (fun _ => 1) 0 6, .read true (fun _ _ => 0)] t ∧
      t.answers = (some (3, 5), 7, 8) := by
  have hfits : ∀ len ≤ 7,
      RoomTraffic.Fits ⟨middleState, none⟩ (.write true (fun _ => 1) 0 len) := by
    intro len hlen
    have hfree : middleState.device.outRing.buffSize - 1 -
        middleState.device.outRing.used middleState.mem = 7 := by decide +kernel
    exact hlen.trans hfree.ge
  constructor
  · have hstep : (RoomTraffic.step ⟨middleState, none⟩ (.write true (fun _ => 1) 0 2)).map
        RoomTraffic.answers = some (some (7, 5), 5, 1) := by decide +kernel
    obtain ⟨t, ht, hans⟩ := map_eq_some_iff.mp hstep
    exact ⟨t, .cons (hfits 2 (by decide)) ht (.nil t), hans⟩
  · have hstep : ((RoomTraffic.step ⟨middleState, none⟩ (.write true (fun _ => 1) 0 6)).bind
        fun t => t.step (.read true (fun _ _ => 0))).map RoomTraffic.answers =
        some (some (3, 5), 7, 8) := by decide +kernel
    obtain ⟨t, ht, hans⟩ := map_eq_some_iff.mp hstep
    obtain ⟨t₁, ht₁, ht⟩ := bind_eq_some_iff.mp ht
    exact ⟨t, .cons (hfits 6 (by decide)) ht₁ (.cons trivial ht (.nil t)), hans⟩

end SpicaKernel.Dpram
