import SpicaKernel.Memory
import SpicaKernel.Runs

namespace SpicaKernel.Multipdp
set_option autoImplicit true

def maxPdpDataLen : Nat := 1500

/-- The data, the header and the start and stop bytes. -/
def maxPdpPacketLen : Nat := maxPdpDataLen + 4 + 2

def bufferSizeForCal : Nat := 15000

/-- `DEV_TYPE_NET`, `DEV_TYPE_SERIAL` and the values of `type` that are neither. -/
inductive DevType where
  | net
  | serial
  | other
  deriving DecidableEq

/-- `struct pdp_info`; `running` is `netif_running`, and `tty` tells whether there is a tty. -/
structure PdpInfo where
  id : UInt8
  type : DevType
  txBuf : Nat → UInt8
  running : Bool
  tty : Bool

/-- Why a call does not return. -/
inductive Stop where
  | waits
  | overflow
  | oops
  | endless
  deriving DecidableEq

abbrev Result (α : Type) := Except Stop α

def eagain : Int := 11
def enodev : Int := 19
def enomem : Int := 12

/-- A copy into `tx_buf`, which has `MAX_PDP_PACKET_LEN` bytes. -/
def putTx (txBuf : Nat → UInt8) (off : Nat) (bs : List UInt8) : Result (Nat → UInt8) :=
  if off + bs.length ≤ maxPdpPacketLen then .ok (store txBuf off bs) else .error .overflow

/-- The bytes that `dpram_write` is given of `tx_buf`. -/
def getTx (txBuf : Nat → UInt8) (n : Nat) : Result (List UInt8) :=
  if n ≤ maxPdpPacketLen then .ok (load txBuf 0 n) else .error .overflow

def hdrLen (txBuf : Nat → UInt8) : Nat := leValue (load txBuf 1 2)

/-- One round of the loop of `pdp_mux`: the buffer with the frame for `data`, and the frame. -/
def muxFrame (txBuf : Nat → UInt8) (data : List UInt8) : Result ((Nat → UInt8) × List UInt8) := do
  let txBuf ← putTx txBuf 1 (leBytes 2 (data.length + 4))
  let txBuf ← putTx txBuf 0 [0x7f]
  let txBuf ← putTx txBuf 5 data
  let txBuf ← putTx txBuf (1 + hdrLen txBuf) [0x7e]
  let frame ← getTx txBuf (hdrLen txBuf + 2)
  return (txBuf, frame)

/-- What `pdp_mux` leaves in `tx_buf`, the frames it has passed to `dpram_write`, its result. -/
structure Muxed where
  txBuf : Nat → UInt8
  frames : List (List UInt8)
  ret : Int

/-- The loop of `pdp_mux`, with the results of `dpram_write`, which succeeds where `rets` ends. -/
def muxLoop : Nat → (Nat → UInt8) → List UInt8 → List Int → Result Muxed
  | _, txBuf, [], _ => .ok ⟨txBuf, [], 0⟩
  | 0, _, _ :: _, _ => .error .endless
  | fuel + 1, txBuf, b :: bs, rets => do
    let data := b :: bs
    let (txBuf, frame) ← muxFrame txBuf (data.take maxPdpDataLen)
    let ret := rets.headD 0
    if ret < 0 then return ⟨txBuf, [frame], ret⟩
    let rest ← muxLoop fuel txBuf (data.drop maxPdpDataLen) rets.tail
    return ⟨rest.txBuf, frame :: rest.frames, rest.ret⟩

def pdpMux (pdpTxFlag : Bool) (dev : PdpInfo) (data : List UInt8) (rets : List Int) :
    Result Muxed := do
  if pdpTxFlag = true ∧ dev.type = .net then return ⟨dev.txBuf, [], -eagain⟩
  let txBuf ← putTx dev.txBuf 3 [dev.id]
  let txBuf ← putTx txBuf 4 [0]
  muxLoop data.length txBuf data rets

/-- The bytes from the phone that are still to be read, and those each device has been given. -/
structure Rx where
  stream : List UInt8
  delivered : UInt8 → List UInt8

def Rx.give (rx : Rx) (id : UInt8) (bs : List UInt8) : Rx :=
  { rx with delivered := fun i => if i = id then rx.delivered i ++ bs else rx.delivered i }

/-- `dpram_read` goes on until it has all bytes. -/
def dpramRead (rx : Rx) (count : Nat) : Result (List UInt8 × Rx) :=
  if count ≤ rx.stream.length
  then .ok (rx.stream.take count, { rx with stream := rx.stream.drop count })
  else .error .waits

/-- What the rest of the kernel answers: whether `alloc_skb` and the `kmalloc` of `dpram_flush_rx`
succeed, and the room that each `tty_insert_flip_string` finds. -/
structure Env where
  allocSkb : Bool
  flushBuf : Bool
  room : Nat → Nat

def dpramFlushRx (env : Env) (rx : Rx) (count : Nat) : Result Rx := do
  if env.flushBuf = false then return rx
  let (_, rx) ← dpramRead rx count
  return rx

def vnetRecv (env : Env) (dev : PdpInfo) (rx : Rx) (len : Nat) : Result (Rx × Int) := do
  if dev.running = false then return (rx, -enodev)
  if env.allocSkb = false then return (rx, -enomem)
  let (data, rx) ← dpramRead rx len
  return (rx.give dev.id data, 0)

/-- The flags that `vs_open` sets and `vs_close` clears. The one of channel 6 is not looked at. -/
structure Opened where
  fpVsCSD : Bool
  fpVsGPS : Bool
  fpVsEFS : Bool
  fpVsSMD : Bool

def Opened.discards (fp : Opened) (id : UInt8) : Bool :=
  (id == 1 && !fp.fpVsCSD) || (id == 5 && !fp.fpVsGPS) || (id == 8 && !fp.fpVsEFS) ||
    (id == 25 && !fp.fpVsSMD)

/-- The loop of `vs_read` over long data, with the number of the next piece. -/
def insertPieces (env : Env) (tty : Bool) (id : UInt8) :
    Nat → Nat → Rx → List UInt8 → Result (Rx × Int)
  | _, _, rx, [] => .ok (rx, 0)
  | 0, _, _, _ :: _ => .error .endless
  | fuel + 1, k, rx, b :: bs =>
    let piece := (b :: bs).take maxPdpDataLen
    let insertSize := if tty then min (env.room k) piece.length else 0
    let rx := rx.give id (piece.take insertSize)
    if insertSize ≠ piece.length then .ok (rx, -1)
    else insertPieces env tty id fuel (k + 1) rx ((b :: bs).drop maxPdpDataLen)

def vsRead (fp : Opened) (env : Env) (dev : PdpInfo) (rx : Rx) (len : Nat) : Result (Rx × Int) := do
  if maxPdpDataLen < len then
    if bufferSizeForCal < len then throw .overflow
    let (data, rx) ← dpramRead rx len
    if fp.discards dev.id then return (rx, 0)
    insertPieces env dev.tty dev.id len 0 rx data
  else
    let (data, rx) ← dpramRead rx len
    if len = 0 ∨ fp.discards dev.id then return (rx, 0)
    if dev.tty = false then throw .oops
    let insertSize := min (env.room 0) len
    let rx := rx.give dev.id (data.take insertSize)
    if insertSize ≠ len then return (rx, -1)
    return (rx, 0)

/-- The ten slots of `pdp_table`. -/
abbrev Table := List (Option PdpInfo)

def pdpGetDev : Table → UInt8 → Option PdpInfo
  | [], _ => none
  | none :: slots, id => pdpGetDev slots id
  | some dev :: slots, id => if dev.id = id then some dev else pdpGetDev slots id

/-- `size_t` has 32 bits. -/
def sizeT (n : Nat) : Nat := n % 0x100000000

/-- The receive routine of the device, `-ENODEV` for a channel without one. -/
def receive (table : Table) (fp : Opened) (env : Env) (id : UInt8) (rx : Rx) (len : Nat) :
    Result (Rx × Int) :=
  match pdpGetDev table id with
  | none => .ok (rx, -enodev)
  | some dev =>
    match dev.type with
    | .net => vnetRecv env dev rx len
    | .serial => vsRead fp env dev rx len
    | .other => .ok (rx, -1)

def pdpDemux (table : Table) (fp : Opened) (env : Env) (rx : Rx) : Result (Rx × Int) := do
  let (hdr, rx) ← dpramRead rx 4
  let len := sizeT (leValue (hdr.take 2) + 0x100000000 - 4)
  let (rx, ret) ← receive table fp env (hdr.getD 2 0) rx len
  if ret < 0 then
    let rx ← dpramFlushRx env rx (sizeT (len + 1))
    return (rx, ret)
  else
    let (ch, rx) ← dpramRead rx 1
    return (rx, if ch ≠ [0x7e] then 1 else 0)

/-- The loop of `dpram_thread` while there are bytes; `env` answers the `n`th `pdp_demux`. -/
def dpramThread (table : Table) (fp : Opened) (env : Nat → Env) : Nat → Nat → Rx → Result Rx
  | 0, _, rx => if rx.stream = [] then .ok rx else .error .endless
  | fuel + 1, n, rx => do
    if rx.stream = [] then return rx
    let (ch, rx) ← dpramRead rx 1
    if ch = [0x7f] then
      let (rx, _) ← pdpDemux table fp (env n) rx
      dpramThread table fp env fuel (n + 1) rx
    else dpramThread table fp env fuel n rx

/-- What `dpram_read` is given to store the payload in. -/
inductive Destination where
  | skb
  | pdpRxBuf
  | prxBuf

def Destination.size (len : Nat) : Destination → Nat
  | .skb => len
  | .pdpRxBuf => maxPdpDataLen
  | .prxBuf => bufferSizeForCal

theorem Destination.size_skb (len : Nat) : Destination.skb.size len = len := rfl

/-- The choice of `vnet_recv` and `vs_read`. -/
def destination (env : Env) (dev : PdpInfo) (len : Nat) : Option Destination :=
  match dev.type with
  | .net => if dev.running && env.allocSkb then some .skb else none
  | .serial => if maxPdpDataLen < len then some .prxBuf else some .pdpRxBuf
  | .other => none

def payloadLen (hdr : List UInt8) : Nat := sizeT (leValue (hdr.take 2) + 0x100000000 - 4)

def Within (r : Result α) : Prop := r ≠ .error .overflow

theorem Within.ok (a : α) : Within (.ok a) := nofun

theorem Within.bind (h : Within r) (hf : ∀ a, r = .ok a → Within (f a)) : Within (r >>= f) := by
  cases r with
  | error e => exact fun he => h (congrArg _ (Except.error.inj he))
  | ok a => exact hf a rfl

theorem dpramRead_within (rx : Rx) (n : Nat) : Within (dpramRead rx n) := by
  rw [dpramRead]
  split <;> nofun

theorem insertPieces_within (env : Env) (tty : Bool) (id : UInt8) (fuel k : Nat) (rx : Rx)
    (bs : List UInt8) : Within (insertPieces env tty id fuel k rx bs) := by
  induction fuel generalizing k rx bs with
  | zero => cases bs <;> nofun
  | succ fuel ih =>
    cases bs with
    | nil => nofun
    | cons b bs =>
      rw [insertPieces]
      generalize (if tty then min (env.room k) _ else 0) = insertSize
      split
      · nofun
      · exact ih _ _ _

theorem vnetRecv_within (env : Env) (dev : PdpInfo) (rx : Rx) (len : Nat) :
    Within (vnetRecv env dev rx len) := by
  rw [vnetRecv]
  split
  · nofun
  · split
    · nofun
    · exact (dpramRead_within rx len).bind fun _ _ => .ok _

theorem vsRead_within (h : len ≤ bufferSizeForCal) (fp : Opened) (env : Env)
    (rx : Rx) : Within (vsRead fp env dev rx len) := by
  rw [vsRead]
  split
  · rw [if_neg (by omega)]
    refine (dpramRead_within rx len).bind fun r _ => ?_
    dsimp only
    split
    · nofun
    · exact insertPieces_within _ _ _ _ _ _ _
  · refine (dpramRead_within rx len).bind fun r _ => ?_
    dsimp only
    split
    · nofun
    · split
      · nofun
      · split <;> nofun

theorem receive_within {id : UInt8} (h : ∀ dev, pdpGetDev table id = some dev → dev.type = .serial →
      len ≤ bufferSizeForCal) (fp : Opened) (env : Env) (rx : Rx) :
    Within (receive table fp env id rx len) := by
  rw [receive]
  split
  · nofun
  next dev hdev =>
    split
    · exact vnetRecv_within _ _ _ _
    next hser => exact vsRead_within (h dev hdev hser) _ _ _
    · nofun

theorem payloadLen_add (hlen : 4 ≤ leValue (hdr.take 2)) :
    payloadLen hdr + 4 = leValue (hdr.take 2) := by
  have hlt := leValue_lt (hdr.take 2)
  have htake : (hdr.take 2).length ≤ 2 := List.length_take_le 2 hdr
  have hpow : 256 ^ (hdr.take 2).length ≤ 256 ^ 2 := Nat.pow_le_pow_right (by decide) htake
  rw [payloadLen, sizeT]
  omega

/-- Only the buffer for calibration data can be too small. -/
theorem destination_fits_iff (env : Env) (dev : PdpInfo) (len : Nat) :
    (∀ d ∈ destination env dev len, len ≤ d.size len) ↔
      (dev.type = .serial → len ≤ bufferSizeForCal) := by
  rw [destination]
  split
  next hnet =>
    simp only [hnet, reduceCtorEq, false_imp_iff, iff_true]
    split
    · rintro d ⟨⟩
      exact Nat.le_of_eq (Destination.size_skb _).symm
    · nofun
  next hser =>
    simp only [hser, true_imp_iff]
    split
    next hlong => simp [Destination.size]
    next hshort =>
      have hmax : maxPdpDataLen ≤ bufferSizeForCal := by decide
      simp only [Option.mem_def, Option.some.injEq, forall_eq', Destination.size]
      omega
  next hother =>
    simp only [hother, reduceCtorEq, false_imp_iff, iff_true]
    nofun

theorem pdp_demux_within (hread : dpramRead rx 4 = .ok (hdr, rx')) (fp : Opened) (env : Env) :
    (payloadLen hdr + 4 = leValue (hdr.take 2) ∧
      (∀ dev, pdpGetDev table (hdr.getD 2 0) = some dev →
        ∀ d ∈ destination env dev (payloadLen hdr), payloadLen hdr ≤ d.size (payloadLen hdr)) ∧
      pdpDemux table fp env rx ≠ .error .overflow) ↔
    4 ≤ leValue (hdr.take 2) ∧ (∀ dev, pdpGetDev table (hdr.getD 2 0) = some dev →
      dev.type = .serial → leValue (hdr.take 2) ≤ bufferSizeForCal + 4) := by
  simp only [destination_fits_iff]
  constructor
  · rintro ⟨hexact, hfits, -⟩
    refine ⟨by omega, fun dev hdev hser => ?_⟩
    have := hfits dev hdev hser
    omega
  · rintro ⟨hlen, hcal⟩
    have hexact := payloadLen_add hlen
    have hfits (dev : PdpInfo) (hdev : pdpGetDev table (hdr.getD 2 0) = some dev)
        (hser : dev.type = .serial) : payloadLen hdr ≤ bufferSizeForCal := by
      have := hcal dev hdev hser
      omega
    refine ⟨hexact, hfits, ?_⟩
    rw [pdpDemux, hread, ok_bind]
    dsimp only
    refine (receive_within hfits fp env rx').bind fun r _ => ?_
    split
    · refine Within.bind ?_ fun _ _ => .ok _
      rw [dpramFlushRx]
      split
      · nofun
      · exact (dpramRead_within _ _).bind fun _ _ => .ok _
    · exact (dpramRead_within _ _).bind fun _ _ => .ok _

def serialTable : Table := [some ⟨1, .serial, fun _ => 0, false, true⟩]

theorem pdp_demux_within_cal : payloadLen [0x9c, 0x3a, 1, 0] = 15000 ∧
      pdpDemux serialTable ⟨true, true, true, true⟩ ⟨true, true, fun _ => 0⟩
        ⟨[0x9c, 0x3a, 1, 0], fun _ => []⟩ ≠ .error .overflow := by
  have h := @pdp_demux_within ⟨[0x9c, 0x3a, 1, 0], fun _ => []⟩ _ _ serialTable rfl
    ⟨true, true, true, true⟩ ⟨true, true, fun _ => 0⟩
  exact ⟨by decide, (h.mpr ⟨by decide, fun _ _ _ => by decide⟩).2.2⟩

/-- One byte more than `prx_buf` has; and a header whose length leaves the header out. -/
theorem pdp_demux_overflows : pdpDemux serialTable ⟨true, true, true, true⟩ ⟨true, true, fun _ => 0⟩
        ⟨[0x9d, 0x3a, 1, 0], fun _ => []⟩ = .error .overflow ∧
      payloadLen [3, 0, 1, 0] = 0xffffffff := by
  exact ⟨rfl, by decide⟩

open List

section

variable {c : UInt8} {data rest : List UInt8} {table : Table} {fp : Opened}

/-- The header of a frame: length, channel and control byte. -/
def header (c : UInt8) (len : Nat) : List UInt8 := leBytes 2 (len + 4) ++ [c, 0]

/-- A frame as `pdp_demux` expects it. -/
def frame (c : UInt8) (data : List UInt8) : List UInt8 :=
  0x7f :: (header c data.length ++ (data ++ [0x7e]))

theorem frame_length (c : UInt8) (data : List UInt8) : (frame c data).length = data.length + 6 := by
  simp only [frame, header, length_cons, length_append, leBytes_length, length_nil]
  omega

def payload (frame : List UInt8) : List UInt8 := (frame.drop 5).dropLast

theorem payload_frame (c : UInt8) (data : List UInt8) : payload (frame c data) = data := by
  simp [payload, frame, header, leBytes]

structure Addressed (txBuf : Nat → UInt8) (c : UInt8) : Prop where
  id : load txBuf 3 1 = [c]
  control : load txBuf 4 1 = [0]

theorem putTx_ok (h : off + bs.length ≤ maxPdpPacketLen) :
    putTx txBuf off bs = .ok (store txBuf off bs) :=
  if_pos h

theorem Addressed.store (h : Addressed txBuf c) (ho : off + bs.length ≤ 3 ∨ 5 ≤ off) :
    Addressed (store txBuf off bs) c where
  id := by rw [load_store_apart (by omega), h.id]
  control := by rw [load_store_apart (by omega), h.control]

theorem muxFrame_spec (h : Addressed txBuf c) (hd : data.length ≤ maxPdpDataLen) :
    ∃ txBuf', muxFrame txBuf data = .ok (txBuf', frame c data) ∧ Addressed txBuf' c := by
  have hmax : data.length + 6 ≤ maxPdpPacketLen := Nat.add_le_add_right hd 6
  have hlt : data.length + 4 < 256 ^ 2 := by
    unfold maxPdpDataLen at hd
    omega
  -- the buffer after the copies of length, start byte and data, in which the length is read back
  let buf := store (store (store txBuf 1 (leBytes 2 (data.length + 4))) 0 [0x7f]) 5 data
  have hbytes : load buf 1 2 = leBytes 2 (data.length + 4) := by
    have hload : load (store txBuf 1 (leBytes 2 (data.length + 4))) 1
        (leBytes 2 (data.length + 4)).length = _ := load_store _
    rwa [leBytes_length] at hload
  have hlen : hdrLen buf = data.length + 4 := by rw [hdrLen, hbytes, leValue_leBytes hlt]
  have haddr : Addressed buf c :=
    ((h.store (by simp)).store (by simp)).store (by omega)
  let buf' := store buf (1 + hdrLen buf) [0x7e]
  have hbytes' : load buf' 1 2 = load buf 1 2 := load_store_apart (by omega)
  have hlen' : hdrLen buf' = data.length + 4 := by rw [hdrLen, hbytes', ← hdrLen, hlen]
  have haddr' : Addressed buf' c := haddr.store (by omega)
  have hframe : load buf' 0 (hdrLen buf' + 2) = frame c data := by
    have hsplit : hdrLen buf' + 2 = 1 + (2 + (1 + (1 + (data.length + 1)))) := by omega
    have h0 : load buf' 0 1 = [0x7f] := by
      rw [load_store_apart (by omega), load_store_apart (by omega)]
      exact load_store [0x7f]
    have hdata : load buf' 5 data.length = data := by
      rw [load_store_apart (by omega)]
      exact load_store data
    have hstop : load buf' (5 + data.length) 1 = [0x7e] := by
      have hoff : 5 + data.length = 1 + hdrLen buf := by omega
      rw [hoff]
      exact load_store [0x7e]
    rw [hsplit, load_append, load_append, load_append, load_append, load_append,
      h0, hbytes', hbytes, haddr'.id, haddr'.control, hdata, hstop]
    simp [frame, header]
  refine ⟨buf', ?_, haddr'⟩
  rw [muxFrame, putTx_ok (by rw [leBytes_length]; omega), ok_bind, putTx_ok (by decide), ok_bind,
    putTx_ok (by omega), ok_bind]
  have hget : getTx buf' (hdrLen buf' + 2) = .ok (frame c data) := by
    rw [getTx, if_pos (by omega), hframe]
  rw [putTx_ok (by rw [hlen, length_singleton]; omega), ok_bind, hget]
  rfl

inductive Carries (c : UInt8) : List (List UInt8) → List UInt8 → Prop where
  | nil : Carries c [] []
  | cons : d.length ≤ maxPdpDataLen → Carries c frames rest' →
      Carries c (frame c d :: frames) (d ++ rest')

theorem Carries.append (h : Carries c frames data) (h' : Carries c frames' data') :
    Carries c (frames ++ frames') (data ++ data') := by
  induction h with
  | nil => exact h'
  | cons hd _ ih =>
    rw [List.append_assoc]
    exact .cons hd ih

theorem Carries.flatMap_payload (h : Carries c frames data) : frames.flatMap payload = data := by
  induction h with
  | nil => rfl
  | cons hd _ ih => rw [flatMap_cons, payload_frame, ih]

theorem Carries.mem (h : Carries c frames data) (hf : f ∈ frames) :
    ∃ d, f = frame c d ∧ d.length ≤ maxPdpDataLen := by
  induction h with
  | nil => cases hf
  | cons hd _ ih =>
    rcases mem_cons.mp hf with rfl | hf
    · exact ⟨_, rfl, hd⟩
    · exact ih hf

theorem muxLoop_spec (h : Addressed txBuf c) (hf : data.length ≤ fuel) :
    ∃ r, muxLoop fuel txBuf data [] = .ok r ∧ Carries c r.frames data ∧ r.ret = 0 := by
  induction fuel generalizing txBuf data with
  | zero =>
    obtain rfl := eq_nil_of_length_eq_zero (Nat.le_zero.mp hf)
    exact ⟨_, rfl, .nil, rfl⟩
  | succ fuel ih =>
    cases data with
    | nil => exact ⟨_, rfl, .nil, rfl⟩
    | cons b bs =>
      have hd : ((b :: bs).take maxPdpDataLen).length ≤ maxPdpDataLen := length_take_le _ _
      obtain ⟨txBuf', hm, h'⟩ := muxFrame_spec h hd
      have hdrop : ((b :: bs).drop maxPdpDataLen).length ≤ fuel := by
        rw [length_drop]
        have : 0 < maxPdpDataLen := by decide
        omega
      obtain ⟨r, hr, hc, hret⟩ := ih h' hdrop
      refine ⟨⟨r.txBuf, frame c ((b :: bs).take maxPdpDataLen) :: r.frames, r.ret⟩, ?_, ?_, hret⟩
      · rw [muxLoop, hm, ok_bind]
        simp only [tail_nil]
        rw [hr]
        rfl
      · have hcons := Carries.cons hd hc
        rwa [take_append_drop] at hcons

theorem pdpMux_spec (hser : dev.type = .serial) (flag : Bool) (data : List UInt8) :
    ∃ r, pdpMux flag dev data [] = .ok r ∧ Carries dev.id r.frames data ∧ r.ret = 0 := by
  have haddr : Addressed (store (store dev.txBuf 3 [dev.id]) 4 [0]) dev.id := by
    constructor
    · rw [load_store_apart (by simp)]
      exact load_store [dev.id]
    · exact load_store [0]
  obtain ⟨r, hr, hspec⟩ := muxLoop_spec haddr (Nat.le_refl data.length)
  refine ⟨r, ?_, hspec⟩
  have hmax : 5 ≤ maxPdpPacketLen := by decide
  rw [pdpMux, if_neg (by simp [hser]), putTx_ok (by simp only [length_singleton]; omega),
    ok_bind, putTx_ok hmax]
  exact hr

/-- The frames of the writes to a channel one after the other, each by `vs_write`. -/
def muxWrites (pdpTxFlag : Bool) (dev : PdpInfo) : List (List UInt8) → Result (List (List UInt8))
  | [] => .ok []
  | data :: writes => do
    let m ← pdpMux pdpTxFlag dev data []
    let frames ← muxWrites pdpTxFlag { dev with txBuf := m.txBuf } writes
    return m.frames ++ frames

theorem muxWrites_spec (hser : dev.type = .serial) (flag : Bool) :
    ∃ frames, muxWrites flag dev writes = .ok frames ∧ Carries dev.id frames writes.flatten := by
  induction writes generalizing dev with
  | nil => exact ⟨[], rfl, .nil⟩
  | cons data writes ih =>
    obtain ⟨r, hr, hc, -⟩ := pdpMux_spec hser flag data
    have hser' : ({ dev with txBuf := r.txBuf } : PdpInfo).type = .serial := hser
    obtain ⟨frames, hr', hc'⟩ := ih hser'
    refine ⟨r.frames ++ frames, ?_, hc.append hc'⟩
    rw [muxWrites, hr, ok_bind, hr']
    rfl

structure Open (table : Table) (fp : Opened) (c : UInt8) (dev : PdpInfo) : Prop where
  found : pdpGetDev table c = some dev
  serial : dev.type = .serial
  tty : dev.tty = true
  opened : fp.discards c = false

theorem pdpGetDev_id (h : pdpGetDev table c = some dev) : dev.id = c := by
  induction table with
  | nil => cases h
  | cons slot slots ih =>
    cases slot with
    | none => exact ih h
    | some dev' =>
      rw [pdpGetDev] at h
      split at h
      next hid => exact Option.some.inj h ▸ hid
      next => exact ih h

theorem dpramRead_append (data rest : List UInt8) (del : UInt8 → List UInt8) :
    dpramRead ⟨data ++ rest, del⟩ data.length = .ok (data, ⟨rest, del⟩) := by
  rw [dpramRead]
  simp

theorem vsRead_spec (hd : data.length ≤ maxPdpDataLen) (hopen : fp.discards dev.id = false)
    (htty : dev.tty = true) (hroom : maxPdpDataLen ≤ env.room 0) :
    vsRead fp env dev ⟨data ++ rest, del⟩ data.length =
      .ok (Rx.give ⟨rest, del⟩ dev.id data, 0) := by
  have hmin : min (env.room 0) data.length = data.length := by omega
  rw [vsRead, if_neg (by omega), dpramRead_append, ok_bind]
  by_cases h0 : data.length = 0
  · obtain rfl := eq_nil_of_length_eq_zero h0
    simp [Rx.give]
    rfl
  · simp only [h0, hopen, htty, hmin]
    simp
    rfl

theorem pdpDemux_frame (ho : Open table fp c dev) (hd : data.length ≤ maxPdpDataLen)
    (hroom : maxPdpDataLen ≤ env.room 0) :
    pdpDemux table fp env ⟨header c data.length ++ (data ++ 0x7e :: rest), del⟩ =
      .ok (Rx.give ⟨rest, del⟩ c data, 0) := by
  have hlt : data.length + 4 < 256 ^ 2 := by
    unfold maxPdpDataLen at hd
    omega
  have hid := pdpGetDev_id ho.found
  have hhdr : (header c data.length).length = 4 := by simp [header]
  have htake : (header c data.length).take 2 = leBytes 2 (data.length + 4) := by
    simp [header]
  have hget : (header c data.length).getD 2 0 = c := by simp [header]
  have hlen : sizeT (leValue (leBytes 2 (data.length + 4)) + 0x100000000 - 4) = data.length := by
    rw [leValue_leBytes hlt, sizeT]
    omega
  have hread := dpramRead_append (header c data.length) (data ++ 0x7e :: rest) del
  rw [hhdr] at hread
  have hrecv : receive table fp env c ⟨data ++ 0x7e :: rest, del⟩ data.length =
      .ok (Rx.give ⟨0x7e :: rest, del⟩ c data, 0) := by
    rw [receive, ho.found]
    simp only [ho.serial]
    rw [vsRead_spec hd (hid.symm ▸ ho.opened) ho.tty hroom, hid]
  rw [pdpDemux, hread, ok_bind]
  simp only [htake, hget, hlen]
  rw [hrecv]
  rfl

/-- What was sent to the channel `c`. -/
def onChannel (c : UInt8) (l : List (UInt8 × List UInt8)) : List (List UInt8) :=
  (l.filter (fun w => w.1 = c)).map Prod.snd

theorem dpramThread_frames
    (hF : ∀ f ∈ F, ∃ d dev, f.2 = frame f.1 d ∧ d.length ≤ maxPdpDataLen ∧ Open table fp f.1 dev)
    (hroom : ∀ n, maxPdpDataLen ≤ (env n).room 0)
    (hfuel : (F.flatMap Prod.snd).length ≤ fuel) :
    dpramThread table fp env fuel n ⟨F.flatMap Prod.snd, del⟩ =
      .ok ⟨[], fun c => del c ++ (onChannel c F).flatMap payload⟩ := by
  induction F generalizing fuel n del with
  | nil =>
    cases fuel with
    | zero => simp [dpramThread, onChannel]
    | succ fuel =>
      simp [onChannel]
      rfl
  | cons f F ih =>
    obtain ⟨d, dev, hfd, hd, ho⟩ := hF f (by simp)
    rw [flatMap_cons, hfd] at hfuel ⊢
    rw [length_append, frame_length] at hfuel
    cases fuel with
    | zero => omega
    | succ fuel =>
      have hstream : frame f.1 d ++ F.flatMap Prod.snd =
          [0x7f] ++ (header f.1 d.length ++ (d ++ 0x7e :: F.flatMap Prod.snd)) := by
        simp [frame]
      have hread := dpramRead_append [0x7f]
      rw [length_singleton] at hread
      have hF' : ∀ g ∈ F, ∃ d dev, g.2 = frame g.1 d ∧ d.length ≤ maxPdpDataLen ∧
          Open table fp g.1 dev := fun g hg => hF g (by simp [hg])
      rw [hstream, dpramThread, hread, ok_bind]
      simp only [if_true]
      rw [pdpDemux_frame ho hd (hroom n)]
      refine (ih hF' (by omega)).trans ?_
      congr 2
      funext c
      by_cases hc : f.1 = c
      · subst hc
        simp [onChannel, hfd, payload_frame]
      · simp [onChannel, hc, Ne.symm hc]

/-- What `pdp_mux` made of the writes to open serial channels, in any order of the frames, is
delivered to each channel as it was written. -/
theorem pdp_demux_undoes_pdp_mux {writes : List (UInt8 × List UInt8)} {dev : UInt8 → PdpInfo}
    {env : Nat → Env} (flag : Bool) (hopen : ∀ w ∈ writes, Open table fp w.1 (dev w.1))
    (hroom : ∀ n k, maxPdpDataLen ≤ (env n).room k) :
    ∃ frames : UInt8 → List (List UInt8),
      (∀ c, muxWrites flag (dev c) (onChannel c writes) = .ok (frames c) ∧
        ∀ f ∈ frames c, f.length ≤ maxPdpPacketLen) ∧
      ∀ F : List (UInt8 × List UInt8), (∀ c, onChannel c F = frames c) →
        dpramThread table fp env (F.flatMap Prod.snd).length 0 ⟨F.flatMap Prod.snd, fun _ => []⟩ =
        .ok ⟨[], fun c => (onChannel c writes).flatten⟩ := by
  have hmux : ∀ c, ∃ frames, muxWrites flag (dev c) (onChannel c writes) = .ok frames ∧
      Carries c frames (onChannel c writes).flatten ∧
      (frames ≠ [] → Open table fp c (dev c)) := by
    intro c
    by_cases hw : onChannel c writes = []
    · rw [hw]
      exact ⟨[], rfl, .nil, fun h => absurd rfl h⟩
    · obtain ⟨bs, hbs⟩ := exists_mem_of_ne_nil _ hw
      simp only [onChannel, List.mem_map, mem_filter, decide_eq_true_eq] at hbs
      obtain ⟨w, ⟨hmem, rfl⟩, -⟩ := hbs
      have ho := hopen w hmem
      obtain ⟨frames, hr, hc⟩ := muxWrites_spec ho.serial flag
      rw [pdpGetDev_id ho.found] at hc
      exact ⟨frames, hr, hc, fun _ => ho⟩
  choose frames hr hc ho using hmux
  refine ⟨frames, fun c => ⟨hr c, ?_⟩, ?_⟩
  · intro f hf
    obtain ⟨d, rfl, hd⟩ := (hc c).mem hf
    rw [frame_length]
    exact Nat.add_le_add_right hd 6
  · intro F hF
    have hframes : ∀ f ∈ F, ∃ d dev, f.2 = frame f.1 d ∧ d.length ≤ maxPdpDataLen ∧
        Open table fp f.1 dev := by
      intro f hf
      have hmem : f.2 ∈ frames f.1 := by
        rw [← hF]
        simp only [onChannel, List.mem_map, mem_filter, decide_eq_true_eq]
        exact ⟨f, ⟨hf, rfl⟩, rfl⟩
      obtain ⟨d, hd⟩ := (hc f.1).mem hmem
      exact ⟨d, _, hd.1, hd.2, ho f.1 (ne_nil_of_mem hmem)⟩
    rw [dpramThread_frames hframes (fun n => hroom n 0) (Nat.le_refl _)]
    congr 2
    funext c
    rw [nil_append, hF, (hc c).flatMap_payload]

def sampleDev (c : UInt8) : PdpInfo := ⟨c, .serial, fun _ => 0, false, true⟩

def sampleTable : Table := [some (sampleDev 1), none, some (sampleDev 6)]

def sampleEnv : Env := ⟨true, true, fun _ => maxPdpDataLen⟩

def sampleWrites : List (UInt8 × List UInt8) := [(1, [0x7f, 0x7e]), (6, [0x7e]), (1, [0x41])]

theorem pdp_demux_undoes_pdp_mux_sample : ∃ frames : UInt8 → List (List UInt8),
      (∀ c, muxWrites false (sampleDev c) (onChannel c sampleWrites) = .ok (frames c) ∧
        ∀ f ∈ frames c, f.length ≤ maxPdpPacketLen) ∧
      ∀ F : List (UInt8 × List UInt8), (∀ c, onChannel c F = frames c) →
        dpramThread sampleTable ⟨true, false, false, false⟩ (fun _ => sampleEnv)
          (F.flatMap Prod.snd).length 0 ⟨F.flatMap Prod.snd, fun _ => []⟩ =
        .ok ⟨[], fun c => (onChannel c sampleWrites).flatten⟩ := by
  apply pdp_demux_undoes_pdp_mux false
  · intro w hw
    simp only [sampleWrites, mem_cons, not_mem_nil, or_false] at hw
    rcases hw with rfl | rfl | rfl
    all_goals exact ⟨rfl, rfl, rfl, rfl⟩
  · exact fun _ _ => Nat.le_refl _

end

variable {c : UInt8} {data rest : List UInt8} {table : Table} {fp : Opened} {env : Env}
  {rx : Rx} {len : Nat}

/-- The pieces from the `k`th on are all accepted. -/
def TakesFrom (env : Env) (len k : Nat) : Prop :=
  ∀ i, k ≤ i → min maxPdpDataLen (len - maxPdpDataLen * i) ≤ env.room i

theorem TakesFrom.step (h : min maxPdpDataLen (len - maxPdpDataLen * k) ≤ env.room k) :
    TakesFrom env len (k + 1) ↔ TakesFrom env len k := by
  refine ⟨fun hk i hi => ?_, fun hk i hi => hk i (by omega)⟩
  obtain rfl | hlt := Nat.eq_or_lt_of_le hi
  · exact h
  · exact hk i hlt

theorem takesFrom_end (h : len ≤ maxPdpDataLen * k) : TakesFrom env len k := by
  intro i hi
  have hmul : maxPdpDataLen * k ≤ maxPdpDataLen * i := Nat.mul_le_mul_left _ hi
  omega

theorem insertPieces_spec (rx : Rx) (hk : data.length = len - maxPdpDataLen * k)
    (hf : data.length ≤ fuel) :
    ∃ rx' ret, insertPieces env tty c fuel k rx data = .ok (rx', ret) ∧ rx'.stream = rx.stream ∧
      (ret = 0 ∧ (data ≠ [] → tty = true ∧ TakesFrom env len k) ∨
        ret < 0 ∧ data ≠ [] ∧ ¬ (tty = true ∧ TakesFrom env len k)) := by
  induction fuel generalizing k rx data with
  | zero =>
    obtain rfl := eq_nil_of_length_eq_zero (Nat.le_zero.mp hf)
    exact ⟨rx, 0, rfl, rfl, .inl ⟨rfl, fun h => absurd rfl h⟩⟩
  | succ fuel ih =>
    cases data with
    | nil => exact ⟨rx, 0, rfl, rfl, .inl ⟨rfl, fun h => absurd rfl h⟩⟩
    | cons b bs =>
      have hpos : 0 < maxPdpDataLen := by decide
      have hpiece : ((b :: bs).take maxPdpDataLen).length
          = min maxPdpDataLen (len - maxPdpDataLen * k) := by
        rw [length_take, hk]
      have hne : 0 < ((b :: bs).take maxPdpDataLen).length := by
        rw [length_take, length_cons]
        omega
      simp only [insertPieces]
      generalize hsize : (if tty = true then min (env.room k) _ else 0) = insertSize
      split
      next hshort =>
        refine ⟨_, -1, rfl, rfl, .inr ⟨by decide, by simp, ?_⟩⟩
        rintro ⟨rfl, htakes⟩
        have := htakes k (Nat.le_refl k)
        rw [if_pos rfl] at hsize
        omega
      next hall =>
        rw [not_not] at hall
        have htty : tty = true := by
          cases tty with
          | true => rfl
          | false =>
            rw [if_neg (by simp)] at hsize
            omega
        rw [htty, if_pos rfl] at hsize
        have hroom : min maxPdpDataLen (len - maxPdpDataLen * k) ≤ env.room k := by omega
        have hdrop : ((b :: bs).drop maxPdpDataLen).length = len - maxPdpDataLen * (k + 1) := by
          rw [length_drop, Nat.mul_succ]
          omega
        have hfuel : ((b :: bs).drop maxPdpDataLen).length ≤ fuel := by
          rw [length_drop]
          omega
        obtain ⟨rx', ret, hr, hs, hret⟩ := ih _ hdrop hfuel
        refine ⟨rx', ret, hr, hs, ?_⟩
        rw [TakesFrom.step hroom] at hret
        refine hret.imp (fun ⟨h0, h⟩ => ⟨h0, fun _ => ⟨htty, ?_⟩⟩) fun ⟨h0, _, h⟩ =>
          ⟨h0, by simp, h⟩
        by_cases hlast : (b :: bs).drop maxPdpDataLen = []
        · -- nothing is left to offer behind the last piece
          rw [hlast, length_nil] at hdrop
          exact (TakesFrom.step hroom).mp (takesFrom_end (by omega))
        · exact (h hlast).2

/-- The data fits the buffer for a serial channel, and an open tty takes every byte offered. -/
structure Accepts (fp : Opened) (env : Env) (dev : PdpInfo) (len : Nat) : Prop where
  fits : len ≤ bufferSizeForCal
  takes : fp.discards dev.id = false → len ≠ 0 →
    dev.tty = true ∧ ∀ k, min maxPdpDataLen (len - maxPdpDataLen * k) ≤ env.room k

theorem enodev_neg : -enodev < 0 := by decide

theorem enomem_neg : -enomem < 0 := by decide

theorem dpramRead_ok (h : len ≤ rx.stream.length) :
    dpramRead rx len = .ok (rx.stream.take len, { rx with stream := rx.stream.drop len }) :=
  if_pos h

/-- `vs_read` returns without an error just for accepted data, and reads other data all the same. -/
theorem vsRead_cases (fp : Opened) (env : Env) (dev : PdpInfo) (rx : Rx)
    (h : len ≤ rx.stream.length) :
    (Accepts fp env dev len ∧ ∃ rx' ret, vsRead fp env dev rx len = .ok (rx', ret) ∧ 0 ≤ ret ∧
      rx'.stream = rx.stream.drop len) ∨
    (¬ Accepts fp env dev len ∧ ∀ rx' ret, vsRead fp env dev rx len = .ok (rx', ret) →
      ret < 0 ∧ len ≠ 0 ∧ rx'.stream = rx.stream.drop len) := by
  unfold vsRead
  rw [dpramRead_ok h]
  split
  next hlong =>
    have hne : len ≠ 0 := by omega
    by_cases hfit : bufferSizeForCal < len
    · rw [if_pos hfit]
      exact .inr ⟨fun ha => absurd ha.fits (by omega), nofun⟩
    rw [if_neg hfit, ok_bind]
    dsimp only
    split
    next hopen => exact .inl ⟨⟨by omega, by simp [hopen]⟩, _, _, rfl, Int.le_refl 0, rfl⟩
    next hopen =>
      have hlen : (rx.stream.take len).length = len - maxPdpDataLen * 0 := by
        rw [length_take]
        omega
      have hdata : rx.stream.take len ≠ [] := by
        rw [ne_eq, ← length_eq_zero_iff, hlen]
        omega
      obtain ⟨rx', ret, hr, hs, ⟨rfl, ha⟩ | ⟨h0, -, ha⟩⟩ :=
        insertPieces_spec (c := dev.id) { rx with stream := rx.stream.drop len } hlen
          (length_take_le _ _)
      · obtain ⟨htty, htakes⟩ := ha hdata
        exact .inl ⟨⟨by omega, fun _ _ => ⟨htty, fun k => htakes k (Nat.zero_le k)⟩⟩, rx', 0, hr,
          Int.le_refl 0, hs⟩
      · refine .inr ⟨fun hacc => ha ?_, ?_⟩
        · obtain ⟨htty, htakes⟩ := hacc.takes (by simpa using hopen) hne
          exact ⟨htty, fun k _ => htakes k⟩
        · intro rx₁ ret₁ hr₁
          rw [hr] at hr₁
          cases hr₁
          exact ⟨h0, hne, hs⟩
  next hshort =>
    rw [ok_bind]
    dsimp only
    have hfits : len ≤ bufferSizeForCal := by
      have : maxPdpDataLen ≤ bufferSizeForCal := by decide
      omega
    split
    next hopen =>
      refine .inl ⟨⟨hfits, fun hd hne => ?_⟩, _, _, rfl, Int.le_refl 0, rfl⟩
      simp [hd, hne] at hopen
    next hopen =>
      rw [not_or, Bool.not_eq_true] at hopen
      obtain ⟨hne, hopen⟩ := hopen
      split
      next htty =>
        refine .inr ⟨fun ha => ?_, nofun⟩
        have := (ha.takes hopen hne).1
        simp [htty] at this
      next htty =>
        rw [Bool.not_eq_false] at htty
        split
        next hroom =>
          refine .inr ⟨fun ha => ?_, ?_⟩
          · have := (ha.takes hopen hne).2 0
            omega
          · rintro rx₁ ret₁ ⟨⟩
            exact ⟨by decide, hne, rfl⟩
        next hroom =>
          have htakes : TakesFrom env len 0 :=
            (TakesFrom.step (by omega)).mp (takesFrom_end (by omega))
          exact .inl ⟨⟨hfits, fun _ _ => ⟨htty, fun k => htakes k (Nat.zero_le k)⟩⟩, _, _, rfl,
            Int.le_refl 0, rfl⟩

/-- What a frame for the device needs to be read to its end and no further: memory to flush it,
where the device does not take it, and a tty that takes all of it. -/
def Consumes (fp : Opened) (env : Env) (len : Nat) : Option PdpInfo → Prop
  | none => env.flushBuf = true
  | some dev => match dev.type with
    | .net => (dev.running = true ∧ env.allocSkb = true) ∨ env.flushBuf = true
    | .serial => Accepts fp env dev len
    | .other => env.flushBuf = true

section

variable {hdr : List UInt8} {stop : UInt8} (hrx : rx.stream = hdr ++ (data ++ stop :: rest))
  (hhdr : hdr.length = 4) (hL : 4 ≤ leValue (hdr.take 2))
  (hdata : data.length = leValue (hdr.take 2) - 4)
include hrx hhdr hL hdata

theorem pdpDemux_eq : pdpDemux table fp env rx =
    receive table fp env (hdr.getD 2 0) ⟨data ++ stop :: rest, rx.delivered⟩ data.length >>=
      fun r => if r.2 < 0 then dpramFlushRx env r.1 (data.length + 1) >>= fun rx => .ok (rx, r.2)
        else dpramRead r.1 1 >>= fun x => .ok (x.2, if x.1 ≠ [0x7e] then 1 else 0) := by
  have hlt : leValue (hdr.take 2) < 256 ^ 2 := by
    have := leValue_lt (hdr.take 2)
    rwa [length_take, hhdr] at this
  have hlen : sizeT (leValue (hdr.take 2) + 0x100000000 - 4) = data.length := by
    rw [sizeT]
    omega
  have hsize : sizeT (data.length + 1) = data.length + 1 := Nat.mod_eq_of_lt (by omega)
  have hread : dpramRead rx 4 = .ok (hdr, ⟨data ++ stop :: rest, rx.delivered⟩) := by
    rw [← hhdr]
    have := dpramRead_append hdr (data ++ stop :: rest) rx.delivered
    rwa [← hrx] at this
  rw [pdpDemux, hread, ok_bind]
  simp only [hlen, hsize]
  rfl

theorem pdpDemux_read
    (hr : receive table fp env (hdr.getD 2 0) ⟨data ++ stop :: rest, rx.delivered⟩ data.length
      = .ok (rx₁, ret)) (h0 : 0 ≤ ret) (hs : rx₁.stream = stop :: rest) :
    ∃ rx' ret, pdpDemux table fp env rx = .ok (rx', ret) ∧ rx'.stream = rest := by
  rw [pdpDemux_eq hrx hhdr hL hdata, hr, ok_bind, if_neg (Int.not_lt.mpr h0),
    dpramRead_ok (by simp [hs]), ok_bind]
  exact ⟨_, _, rfl, by simp [hs]⟩

theorem pdpDemux_refused
    (hr : receive table fp env (hdr.getD 2 0) ⟨data ++ stop :: rest, rx.delivered⟩ data.length
      = .ok (⟨data ++ stop :: rest, rx.delivered⟩, ret)) (h0 : ret < 0) :
    (∃ rx' ret, pdpDemux table fp env rx = .ok (rx', ret) ∧ rx'.stream = rest) ↔
      env.flushBuf = true := by
  rw [pdpDemux_eq hrx hhdr hL hdata, hr, ok_bind, if_pos h0, dpramFlushRx]
  cases hflush : env.flushBuf with
  | false =>
    simp only [if_true, Bool.false_eq_true, iff_false]
    rintro ⟨rx', ret', ⟨⟩, hs⟩
    have := congrArg length hs
    simp only [length_append, length_cons] at this
    omega
  | true =>
    rw [if_neg (by simp), dpramRead_ok (by simp), ok_bind]
    exact ⟨fun _ => rfl, fun _ => ⟨_, _, rfl, by simp⟩⟩

/-- The flush behind an error takes the payload a second time. -/
theorem pdpDemux_spoiled (hr : ∀ rx₁ ret,
      receive table fp env (hdr.getD 2 0) ⟨data ++ stop :: rest, rx.delivered⟩ data.length
        = .ok (rx₁, ret) → ret < 0 ∧ data.length ≠ 0 ∧ rx₁.stream = stop :: rest) :
    ¬ ∃ rx' ret, pdpDemux table fp env rx = .ok (rx', ret) ∧ rx'.stream = rest := by
  rintro ⟨rx', ret', he, hs'⟩
  rw [pdpDemux_eq hrx hhdr hL hdata] at he
  obtain ⟨⟨rx₁, ret⟩, hrecv, he⟩ := bind_eq_ok.mp he
  obtain ⟨h0, hne, hs⟩ := hr rx₁ ret hrecv
  rw [if_pos h0] at he
  obtain ⟨rx₂, hflush, he⟩ := bind_eq_ok.mp he
  cases he
  rw [dpramFlushRx] at hflush
  split at hflush
  · cases hflush
    have := congrArg length (hs.symm.trans hs')
    simp at this
  · obtain ⟨⟨bs, rx₃⟩, hread, he⟩ := bind_eq_ok.mp hflush
    cases he
    rw [dpramRead] at hread
    split at hread
    next hle =>
      cases hread
      rw [hs] at hle hs'
      have := congrArg length hs'
      simp only [length_drop, length_cons] at this hle
      omega
    next => cases hread

end

/-- `pdp_demux` reads the frame to its end and no further exactly if there is memory to flush what a
device does not take, and a serial channel's tty takes what it is offered. -/
theorem pdp_demux_consumes_frame {hdr : List UInt8} {stop : UInt8}
    (hrx : rx.stream = hdr ++ (data ++ stop :: rest)) (hhdr : hdr.length = 4)
    (hL : 4 ≤ leValue (hdr.take 2)) (hdata : data.length = leValue (hdr.take 2) - 4) :
    (∃ rx' ret, pdpDemux table fp env rx = .ok (rx', ret) ∧ rx'.stream = rest) ↔
      Consumes fp env data.length (pdpGetDev table (hdr.getD 2 0)) := by
  have hlen : data.length ≤ (data ++ stop :: rest).length := by simp
  have hdrop : (data ++ stop :: rest).drop data.length = stop :: rest := by simp
  unfold Consumes
  split
  next hdev =>
    have hrecv : receive table fp env (hdr.getD 2 0) ⟨data ++ stop :: rest, rx.delivered⟩
        data.length = .ok (⟨data ++ stop :: rest, rx.delivered⟩, -enodev) := by
      rw [receive, hdev]
    exact pdpDemux_refused hrx hhdr hL hdata hrecv enodev_neg
  next dev hdev =>
    split
    next hnet =>
      have hrecv : receive table fp env (hdr.getD 2 0) ⟨data ++ stop :: rest, rx.delivered⟩
          data.length = vnetRecv env dev ⟨data ++ stop :: rest, rx.delivered⟩ data.length := by
        simp only [receive, hdev, hnet]
      unfold vnetRecv at hrecv
      split at hrecv
      next hdown =>
        rw [pdpDemux_refused hrx hhdr hL hdata hrecv enodev_neg]
        simp [hdown]
      next hup =>
        split at hrecv
        next hnone =>
          rw [pdpDemux_refused hrx hhdr hL hdata hrecv enomem_neg]
          simp [hnone]
        next halloc =>
          rw [dpramRead_ok hlen, ok_bind] at hrecv
          simp only [Bool.not_eq_false] at hup halloc
          refine iff_of_true ?_ (.inl ⟨hup, halloc⟩)
          exact pdpDemux_read hrx hhdr hL hdata hrecv (Int.le_refl 0) hdrop
    next hser =>
      have hrecv : receive table fp env (hdr.getD 2 0) ⟨data ++ stop :: rest, rx.delivered⟩
          data.length = vsRead fp env dev ⟨data ++ stop :: rest, rx.delivered⟩ data.length := by
        simp only [receive, hdev, hser]
      rcases vsRead_cases fp env dev ⟨data ++ stop :: rest, rx.delivered⟩ hlen with
        ⟨ha, rx₁, ret, hr, h0, hs⟩ | ⟨ha, hr⟩
      · refine iff_of_true ?_ ha
        exact pdpDemux_read hrx hhdr hL hdata (hrecv.trans hr) h0 (hs.trans hdrop)
      · refine iff_of_false ?_ ha
        refine pdpDemux_spoiled hrx hhdr hL hdata fun rx₁ ret hr₁ => ?_
        obtain ⟨h0, hne, hs⟩ := hr rx₁ ret (hrecv.symm.trans hr₁)
        exact ⟨h0, hne, hs.trans hdrop⟩
    next hother =>
      have hrecv : receive table fp env (hdr.getD 2 0) ⟨data ++ stop :: rest, rx.delivered⟩
          data.length = .ok (⟨data ++ stop :: rest, rx.delivered⟩, -1) := by
        simp only [receive, hdev, hother]
      exact pdpDemux_refused hrx hhdr hL hdata hrecv (by decide)

/-- A channel whose interface is down: the data is flushed. -/
theorem pdp_demux_consumes_frame_sample :
    ∃ rx' ret, pdpDemux [some ⟨10, .net, fun _ => 0, false, false⟩] ⟨false, false, false, false⟩
      sampleEnv ⟨[6, 0, 10, 0] ++ ([0x41, 0x42] ++ 0x7e :: [0x7f, 5]), fun _ => []⟩ =
        .ok (rx', ret) ∧ rx'.stream = [0x7f, 5] := by
  refine (pdp_demux_consumes_frame rfl rfl (by decide) rfl).mpr ?_
  exact .inr rfl

/-- The tty has no room for the byte of a frame: the start byte of the next one is flushed too. -/
theorem pdp_demux_loses_next_frame :
    ∃ rx', pdpDemux [some (sampleDev 1)] ⟨true, false, false, false⟩
      ⟨true, true, fun _ => 0⟩ ⟨[5, 0, 1, 0] ++ ([0x41] ++ 0x7e :: [0x7f, 5]), fun _ => []⟩ =
        .ok (rx', -1) ∧ rx'.stream = [5] := by
  simp [pdpDemux, dpramRead, ok_bind, leValue, sizeT, receive, pdpGetDev, sampleDev, vsRead,
    Opened.discards, dpramFlushRx, maxPdpDataLen, Rx.give]

end SpicaKernel.Multipdp
