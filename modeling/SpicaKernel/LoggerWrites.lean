import Mathlib.Data.List.Forall2
import SpicaKernel.Logger

namespace SpicaKernel.Logger
set_option autoImplicit true

structure Wrote (log log' : Log) (H bs : List UInt8) : Prop where
  size : log'.size = log.size
  head : log'.head = log.head
  readers : log'.readers = log.readers
  holds : ∀ p, H.length + bs.length ≤ p + log.size → Holds log.size log.buffer H p →
    Holds log.size log'.buffer (H ++ bs) p

theorem Wrote.refl (log : Log) (H : List UInt8) : Wrote log log H [] where
  size := rfl
  head := rfl
  readers := rfl
  holds := fun p _ h => by rw [List.append_nil]; exact h

theorem Wrote.trans (h : Wrote log log₁ H bs) (h' : Wrote log₁ log' (H ++ bs) bs') :
    Wrote log log' H (bs ++ bs') where
  size := h'.size.trans h.size
  head := h'.head.trans h.head
  readers := h'.readers.trans h.readers
  holds := by
    intro p hp hH
    have hfirst := h.holds p (by rw [List.length_append] at hp; omega) hH
    have hsecond := h'.holds p
    rw [h.size, List.append_assoc, List.length_append, Nat.add_assoc, ← List.length_append]
      at hsecond
    exact hsecond hp hfirst

theorem copyFromUser_spec (m : Nat → UInt8) (dest : Nat) [Decidable c]
    (h : skip + n ≤ iov.data.length) (hc : ¬ c → n = 0) :
    ∃ r, (if c then copyFromUser m dest iov skip n else (m, true)) = r ∧
      ∃ bs, bs.length = n ∧ r.1 = store m dest bs ∧
        (r.2 = true → bs = (iov.data.drop skip).take n) ∧
        (r.2 = true ↔ n = 0 ∨ skip + n ≤ iov.readable) := by
  split
  next =>
    refine ⟨_, rfl, _, ?_, rfl, ?_, ?_⟩
    · simp only [List.length_append, List.length_take, List.length_drop, List.length_replicate]
      omega
    · intro hall
      simp only [copyFromUser, decide_eq_true_eq] at hall
      rw [hall, Nat.sub_self, List.replicate_zero, List.append_nil]
    · simp only [copyFromUser, decide_eq_true_eq]
      omega
  next hnot =>
    rw [hc hnot]
    exact ⟨_, rfl, [], rfl, (store_nil m dest).symm, fun _ => (List.take_zero).symm, by simp⟩

/-- Of the segments, of which `room` bytes are copied, one cannot be read as far as it is copied. -/
def Unreadable : Nat → List Iovec → Prop
  | _, [] => False
  | room, iov :: iovs => iov.readable < min iov.data.length room ∨
      Unreadable (room - min iov.data.length room) iovs

theorem Unreadable.exists_mem (h : Unreadable room iovs) :
    ∃ iov ∈ iovs, iov.readable < iov.data.length := by
  induction iovs generalizing room with
  | nil => exact h.elim
  | cons iov iovs ih =>
    rcases h with h | h
    · exact ⟨iov, List.mem_cons_self, by omega⟩
    · obtain ⟨iov', hmem, hlt⟩ := ih h
      exact ⟨iov', List.mem_cons_of_mem iov hmem, hlt⟩

section
variable {log : Log} {H : List UInt8} (hn : RingSize log.size) (hw : log.wOff = H.length % log.size)
include hn hw

theorem wOff_lt : log.wOff < log.size := by
  rw [hw]
  exact Nat.mod_lt _ (by have := hn.bound; omega)

theorem wrote_parts (hsplit : a.length = min (a ++ b).length (log.size - log.wOff)) :
    Wrote log { log with buffer := store (store log.buffer log.wOff a) 0 b, wOff := w } H
      (a ++ b) where
  size := rfl
  head := rfl
  readers := rfl
  holds := by
    intro p hp h
    rw [← storeRing_append hsplit]
    have hlt := wOff_lt hn hw
    exact h.storeRing hp (by omega) (by rw [hw, Nat.mod_mod])

theorem loggerOffset_wOff (bs : List UInt8) :
    loggerOffset log (log.wOff + bs.length) = (H ++ bs).length % log.size := by
  rw [loggerOffset_eq hn, hw, Nat.mod_add_mod, List.length_append]

theorem doWriteLog_spec (buf : List UInt8) (hlen : buf.length < LOGGER_ENTRY_MAX_PAYLOAD) :
    Wrote log (doWriteLog log buf) H buf ∧
      (doWriteLog log buf).wOff = (H ++ buf).length % log.size := by
  unfold doWriteLog
  rw [if_neg (by omega)]
  refine ⟨?_, loggerOffset_wOff hn hw buf⟩
  have hparts := wrote_parts hn hw (w := loggerOffset log (log.wOff + buf.length))
    (b := buf.drop (min buf.length (log.size - log.wOff)))
    (by rw [List.take_append_drop, List.length_take]; omega)
  rw [List.take_append_drop] at hparts
  split
  next => exact hparts
  next heq =>
    have hdrop : buf.drop (min buf.length (log.size - log.wOff)) = [] :=
      List.drop_of_length_le (by omega)
    rw [hdrop] at hparts
    exact hparts

theorem doWriteLogFromUser_spec (hcount : count ≤ iov.data.length) :
    ∃ bs, bs.length ≤ count ∧ Wrote log (doWriteLogFromUser log iov count).1 H bs ∧
      (∀ nr, (doWriteLogFromUser log iov count).2 = .ok nr → nr = count ∧ bs = iov.data.take count ∧
        (doWriteLogFromUser log iov count).1.wOff = (H ++ bs).length % log.size) ∧
      ∀ e, (doWriteLogFromUser log iov count).2 = .error e →
        e = .EFAULT ∧ iov.readable < count := by
  unfold doWriteLogFromUser
  dsimp only
  generalize hlen : min count (log.size - log.wOff) = len
  obtain ⟨first, hfirst, a, ha, hbuf, hall, hpart⟩ := copyFromUser_spec (c := len ≠ 0) log.buffer
    log.wOff (show 0 + len ≤ iov.data.length by omega) (not_not.mp)
  obtain ⟨second, hsecond, b, hb, hbuf', hall', hpart'⟩ :=
    copyFromUser_spec (c := count ≠ len) first.1 0
      (show len + (count - len) ≤ iov.data.length by omega) (fun h => by omega)
  rw [hfirst, hsecond]
  have hparts : ∀ w, Wrote log { log with buffer := second.1, wOff := w } H (a ++ b) := by
    intro w
    rw [hbuf', hbuf]
    exact wrote_parts hn hw (by rw [List.length_append]; omega)
  have habs : (a ++ b).length = count := by rw [List.length_append]; omega
  have hfault : iov.readable < count → ∀ e,
      (Except.error Errno.EFAULT : Except Errno Nat) = .error e →
        e = .EFAULT ∧ iov.readable < count := by
    intro hlt e he
    cases he
    exact ⟨rfl, hlt⟩
  split
  next hno =>
    have hlt : iov.readable < count := by
      rw [← Bool.not_eq_true, hpart] at hno
      omega
    refine ⟨a, by omega, ?_, nofun, hfault hlt⟩
    have hone := wrote_parts hn hw (a := a) (b := []) (w := log.wOff)
      (by rw [List.append_nil]; omega)
    rw [List.append_nil, ← hbuf] at hone
    exact hone
  next hyes =>
    split
    next hno =>
      have hlt : iov.readable < count := by
        rw [← Bool.not_eq_true, hpart'] at hno
        omega
      exact ⟨a ++ b, by omega, hparts log.wOff, nofun, hfault hlt⟩
    next hyes' =>
      refine ⟨a ++ b, by omega, hparts _, ?_, nofun⟩
      intro nr hnr
      cases hnr
      have hdata : a ++ b = iov.data.take count := by
        rw [hall (by simpa using hyes), hall' (by simpa using hyes'), List.drop_zero,
          ← List.take_add]
        congr 1
        omega
      refine ⟨rfl, hdata, ?_⟩
      rw [← loggerOffset_wOff hn hw, habs]

theorem writeSegments_spec (headerLen : Nat) (iovs : List Iovec) (ret : Nat) :
    ∃ bs, bs.length ≤ headerLen - ret ∧ Wrote log (writeSegments headerLen log ret iovs).1 H bs ∧
      (∀ n, (writeSegments headerLen log ret iovs).2 = .ok n → n = ret + bs.length ∧
        bs = (iovs.flatMap (fun iov => iov.data)).take (headerLen - ret) ∧
        (writeSegments headerLen log ret iovs).1.wOff = (H ++ bs).length % log.size) ∧
      ∀ e, (writeSegments headerLen log ret iovs).2 = .error e →
        e = .EFAULT ∧ Unreadable (headerLen - ret) iovs := by
  induction iovs generalizing log H ret with
  | nil =>
    refine ⟨[], Nat.zero_le _, .refl log H, ?_, nofun⟩
    intro n hres
    cases hres
    refine ⟨rfl, by simp, ?_⟩
    rw [List.append_nil]
    exact hw
  | cons iov iovs ih =>
    obtain ⟨bs, hbs, hwrote, hok, hfault⟩ := doWriteLogFromUser_spec hn hw
      (show min iov.data.length (headerLen - ret) ≤ iov.data.length by omega)
    rw [writeSegments]
    generalize doWriteLogFromUser log iov (min iov.data.length (headerLen - ret)) = r
      at hwrote hok hfault ⊢
    obtain ⟨log₁, res⟩ := r
    cases res with
    | error e =>
      refine ⟨bs, by omega, hwrote, nofun, ?_⟩
      intro e' he
      cases he
      obtain ⟨rfl, hlt⟩ := hfault e rfl
      exact ⟨rfl, .inl hlt⟩
    | ok nr =>
      obtain ⟨rfl, hdata, hw₁⟩ := hok nr rfl
      rw [← hwrote.size] at hw₁
      obtain ⟨bs', hbs', hwrote', hok', hfault'⟩ := ih (hwrote.size ▸ hn) hw₁
        (ret + min iov.data.length (headerLen - ret))
      have hlen : bs.length = min iov.data.length (headerLen - ret) := by
        rw [hdata, List.length_take]
        omega
      refine ⟨bs ++ bs', by rw [List.length_append]; omega, hwrote.trans hwrote', ?_, ?_⟩
      swap
      · intro e he
        obtain ⟨rfl, hbad⟩ := hfault' e he
        rw [← Nat.sub_sub] at hbad
        exact ⟨rfl, .inr hbad⟩
      intro n hres
      obtain ⟨hret, hrest, hw'⟩ := hok' n hres
      refine ⟨by rw [List.length_append]; omega, ?_, ?_⟩
      · rw [hdata, hrest, List.flatMap_cons, List.take_append]
        congr 1
        · rw [List.take_eq_take_iff]
          omega
        · congr 1
          omega
      · rw [hw', hwrote.size, List.append_assoc]

end

/-- An access to `n` bytes of `log->buffer` from `off` on, which ends the run outside of it. -/
def touch (log : Log) (off n : Nat) : Option Unit := if off + n ≤ log.size then some () else none

/-- `do_write_log` with its accesses. -/
def doWriteLogTouching (log : Log) (buf : List UInt8) : Option Log := do
  let count := buf.length
  let len := min count (log.size - log.wOff)
  if count ≥ LOGGER_ENTRY_MAX_PAYLOAD then return log
  touch log log.wOff len
  touch log 0 (if count ≠ len then count - len else 0)
  return doWriteLog log buf

/-- The boot-time tap on a ring that has its segment; `strncmp` stops at the first difference. -/
def klogTap (log : Log) (klog : Nat → UInt8) (count : Nat) : Option (Nat → UInt8) := do
  let klog := store klog 0 (List.replicate 255 0)
  touch log log.wOff 1
  if log.buffer log.wOff ≠ 0x21 then return klog
  touch log (log.wOff + 1) 1
  if log.buffer (log.wOff + 1) ≠ 0x40 then return klog
  let n := if count < 255 then count else 255
  touch log log.wOff n
  return store (store klog 0 (load log.buffer log.wOff n)) 255 [0]

/-- `do_write_log_from_user` with its accesses and `klog_buf`. -/
def doWriteLogFromUserTouching (log : Log) (klog : Nat → UInt8) (iov : Iovec) (count : Nat) :
    Option ((Log × Except Errno Nat) × (Nat → UInt8)) := do
  let len := min count (log.size - log.wOff)
  touch log log.wOff len
  let first := if len ≠ 0 then copyFromUser log.buffer log.wOff iov 0 len else (log.buffer, true)
  if first.2 = false then return (({ log with buffer := first.1 }, .error .EFAULT), klog)
  touch log 0 (if count ≠ len then count - len else 0)
  let second := if count ≠ len then copyFromUser first.1 0 iov len (count - len)
    else (first.1, true)
  if second.2 = false then return (({ log with buffer := second.1 }, .error .EFAULT), klog)
  let klog ← klogTap { log with buffer := second.1 } klog count
  return (({ log with buffer := second.1, wOff := loggerOffset log (log.wOff + count) }, .ok count),
    klog)

theorem touch_inside (h : off + n ≤ log.size) : touch log off n = some () := if_pos h

def Marked (log : Log) (off : Nat) : Prop :=
  log.buffer off = 0x21 ∧ log.buffer (off + 1) = 0x40

/-- What the tap reads for these first two bytes lies before the end of the log. -/
def TapFits (log : Log) (count : Nat) (b₀ b₁ : UInt8) : Prop :=
  b₀ = 0x21 → log.wOff + 2 ≤ log.size ∧ (b₁ = 0x40 → log.wOff + min count 255 ≤ log.size)

/-- The second byte is not looked at if it is not inside. -/
theorem TapFits.congr (h : log.wOff + 2 ≤ log.size → b₁ = b₁') :
    TapFits log count b₀ b₁ ↔ TapFits log count b₀ b₁' := by
  refine forall_congr' fun _ => and_congr_right fun htwo => ?_
  rw [h htwo]

theorem klogTap_spec (hw : log.wOff < log.size) (klog : Nat → UInt8) :
    (TapFits log count (log.buffer log.wOff) (log.buffer (log.wOff + 1)) ∧
      ∃ klog', klogTap log klog count = some klog' ∧ (Marked log log.wOff →
        load klog' 0 (min count 255) = load log.buffer log.wOff (min count 255))) ∨
    (¬ TapFits log count (log.buffer log.wOff) (log.buffer (log.wOff + 1)) ∧
      klogTap log klog count = none) := by
  have hmin : (if count < 255 then count else 255) = min count 255 := by
    split <;> omega
  simp only [klogTap, hmin, touch_inside (show log.wOff + 1 ≤ log.size by omega)]
  generalize store klog 0 (List.replicate 255 0) = cleared
  by_cases hmark : log.buffer log.wOff = 0x21
  swap
  · exact .inl ⟨fun h => absurd h hmark, cleared, by simp [hmark], fun h => absurd h.1 hmark⟩
  by_cases htwo : log.wOff + 2 ≤ log.size
  swap
  · refine .inr ⟨fun h => htwo (h hmark).1, ?_⟩
    have hout : touch log (log.wOff + 1) 1 = none := if_neg htwo
    simp [hmark, hout]
  rw [touch_inside (show log.wOff + 1 + 1 ≤ log.size from htwo)]
  by_cases hat : log.buffer (log.wOff + 1) = 0x40
  swap
  · refine .inl ⟨fun _ => ⟨htwo, fun h => absurd h hat⟩, cleared, by simp [hat],
      fun h => absurd h.2 hat⟩
  by_cases hfit : log.wOff + min count 255 ≤ log.size
  · rw [touch_inside hfit]
    refine .inl ⟨fun _ => ⟨htwo, fun _ => hfit⟩,
      store (store cleared 0 (load log.buffer log.wOff (min count 255))) 255 [0],
      by simp [hmark, hat], fun _ => ?_⟩
    rw [load_store_apart (by omega)]
    simpa using @load_store _ cleared 0 (load log.buffer log.wOff (min count 255))
  · refine .inr ⟨fun h => hfit ((h hmark).2 hat), ?_⟩
    have hout : touch log log.wOff (min count 255) = none := if_neg hfit
    simp [hmark, hat, hout]

theorem load_store_take (h : k ≤ bs.length) : load (store m off bs) off k = bs.take k := by
  rw [← congrArg (List.take k) (@load_store _ m off bs)]
  simp [load, ← List.map_take, h]

theorem doWriteLogTouching_eq (hw : log.wOff < log.size) (hlen : buf.length ≤ log.size) :
    doWriteLogTouching log buf = some (doWriteLog log buf) := by
  rw [doWriteLogTouching, touch_inside (by omega), touch_inside (by split <;> omega)]
  by_cases hlong : buf.length ≥ LOGGER_ENTRY_MAX_PAYLOAD
  · simp [doWriteLog, hlong]
  · simp [hlong]

/-- The byte of the segment, or what the log holds in its place if the segment is shorter. -/
def segmentByte (log : Log) (iov : Iovec) (count i : Nat) : UInt8 :=
  (iov.data.take count)[i]?.getD (log.buffer (log.wOff + i))

theorem segmentByte_eq {log : Log} {iov : Iovec} (hcount : count ≤ iov.data.length)
    (hi : log.wOff + i < log.size) (hsize : count ≤ log.size)
    (hlen : min count (log.size - log.wOff) = len) (hb : b.length = count - len) :
    store (store log.buffer log.wOff (iov.data.take len)) 0 b (log.wOff + i)
      = segmentByte log iov count i := by
  rw [store_outside (by omega), segmentByte]
  by_cases hlt : i < len
  · have hin : some (store log.buffer log.wOff (iov.data.take len) (log.wOff + i))
        = (iov.data.take len)[i]? := store_inside (by rw [List.length_take]; omega)
    rw [List.getElem?_take_of_lt hlt] at hin
    rw [List.getElem?_take_of_lt (by omega), ← hin, Option.getD_some]
  · have hnone : (iov.data.take count)[i]? = none :=
      List.getElem?_eq_none (by rw [List.length_take]; omega)
    rw [store_outside (by rw [List.length_take]; omega), hnone, Option.getD_none]

/-- The accesses stay inside the log exactly if those of the tap do, for a segment that could be
read; and then the tap has the start of the segment. -/
theorem do_write_log_inside {log : Log} (hw : log.wOff < log.size) {iov : Iovec}
    (hcount : count ≤ iov.data.length) (hsize : count ≤ log.size) (klog : Nat → UInt8) :
    doWriteLogTouching log (iov.data.take count) = some (doWriteLog log (iov.data.take count)) ∧
      ((∃ klog', doWriteLogFromUserTouching log klog iov count =
          some (doWriteLogFromUser log iov count, klog') ∧
        ((doWriteLogFromUser log iov count).2 = .ok count →
          Marked (doWriteLogFromUser log iov count).1 log.wOff →
          load klog' 0 (min count 255) = iov.data.take (min count 255))) ↔
      (count ≤ iov.readable →
        TapFits log count (segmentByte log iov count 0) (segmentByte log iov count 1))) := by
  refine ⟨doWriteLogTouching_eq hw (by rw [List.length_take]; omega), ?_⟩
  rw [doWriteLogFromUser, doWriteLogFromUserTouching]
  simp only
  rw [touch_inside (by omega), touch_inside (by split <;> omega)]
  generalize hlen : min count (log.size - log.wOff) = len
  obtain ⟨first, hfirst, a, ha, hbuf, hall, hone⟩ := copyFromUser_spec (c := len ≠ 0) log.buffer
    log.wOff (show 0 + len ≤ iov.data.length by omega) (not_not.mp)
  obtain ⟨second, hsecond, b, hb, hbuf', -, htwo⟩ :=
    copyFromUser_spec (c := count ≠ len) first.1 0
      (show len + (count - len) ≤ iov.data.length by omega) (fun h => by omega)
  rw [hfirst, hsecond]
  cases hfst : first.2 with
  | false =>
    rw [hfst] at hone
    exact iff_of_true ⟨klog, by simp, by simp⟩
      fun hread => absurd (hone.mpr (.inr (by omega))) nofun
  | true =>
    cases hsnd : second.2 with
    | false =>
      rw [hsnd] at htwo
      exact iff_of_true ⟨klog, by simp, by simp⟩
        fun hread => absurd (htwo.mpr (.inr (by omega))) nofun
    | true =>
      have hread : count ≤ iov.readable := by
        rw [hfst] at hone
        rw [hsnd] at htwo
        have := hone.mp rfl
        have := htwo.mp rfl
        omega
      rw [hall hfst, List.drop_zero] at hbuf
      rw [hbuf] at hbuf'
      have hbyte (i : Nat) (hi : log.wOff + i < log.size) :
          second.1 (log.wOff + i) = segmentByte log iov count i := by
        rw [hbuf', segmentByte_eq hcount hi hsize hlen hb]
      have hfits : TapFits { log with buffer := second.1 } count (second.1 log.wOff)
          (second.1 (log.wOff + 1)) ↔
            TapFits log count (segmentByte log iov count 0) (segmentByte log iov count 1) := by
        rw [← hbyte 0 hw]
        exact TapFits.congr (hbyte 1)
      simp only [hread, true_imp_iff, ← hfits]
      rcases @klogTap_spec { log with buffer := second.1 } count hw klog with
        ⟨hfit, klog', htap, hcopy⟩ | ⟨hfit, htap⟩
      · refine iff_of_true ⟨klog', by simp [htap], fun _ hmark => ?_⟩ hfit
        have hroom : log.wOff + min count 255 ≤ log.size := (hfit hmark.1).2 hmark.2
        have hcells : load second.1 log.wOff (min count 255) = iov.data.take (min count 255) := by
          rw [hbuf', load_store_apart (by omega), load_store_take (by rw [List.length_take]; omega),
            List.take_take, Nat.min_eq_left (by omega)]
        exact (hcopy hmark).trans hcells
      · refine iff_of_false ?_ hfit
        rintro ⟨klog', he, -⟩
        simp [htap] at he

def tapped (off : Nat) (data : List UInt8) : Option ((Log × Except Errno Nat) × (Nat → UInt8)) :=
  doWriteLogFromUserTouching { Device.main.log with wOff := off } (fun _ => 0)
    ⟨data, data.length⟩ data.length

theorem do_write_log_inside_marked : ∃ r klog', tapped 8 [0x21, 0x40, 0x41] = some (r, klog') ∧
      load klog' 0 3 = [0x21, 0x40, 0x41] := by
  obtain ⟨klog', htap, hcopy⟩ := (@do_write_log_inside 3 { Device.main.log with wOff := 8 }
    (by decide) ⟨[0x21, 0x40, 0x41], 3⟩ (by decide) (by decide) (fun _ => 0)).2.mpr
    fun _ _ => ⟨by decide, fun _ => by decide⟩
  exact ⟨_, klog', htap, hcopy rfl ⟨rfl, rfl⟩⟩

/-- The last byte of a marked message is at the start of the ring: the tap reads behind the end. -/
theorem klog_tap_outside : (tapped (256 * 1024 - 2) [0x21, 0x40, 0x41]).isNone := by
  decide

theorem kiLeft_eq (iovs : List Iovec) :
    kiLeft iovs = (iovs.flatMap (fun iov => iov.data)).length := by
  rw [kiLeft, List.length_flatMap]

theorem LoggerEntry.bytes_length (e : LoggerEntry) : e.bytes.length = sizeofLoggerEntry := by
  simp [LoggerEntry.bytes, sizeofLoggerEntry]

section Entries

variable (info : LoggerEntry) (iovs : List Iovec)

theorem entryHeader_len_le : (entryHeader info iovs).len ≤ 4076 := Nat.min_le_right _ _

theorem payload_length :
    ((iovs.flatMap (fun iov => iov.data)).take (entryHeader info iovs).len).length =
      (entryHeader info iovs).len := by
  rw [List.length_take, ← kiLeft_eq]
  exact Nat.min_eq_left (Nat.min_le_left _ _)

theorem entryBytes_length :
    (entryBytes info iovs).length = sizeofLoggerEntry + (entryHeader info iovs).len := by
  rw [entryBytes, List.length_append, LoggerEntry.bytes_length, payload_length]

theorem wellFormed_entryBytes : WellFormed (entryBytes info iovs) where
  min := by
    rw [entryBytes_length]
    omega
  max := by
    rw [entryBytes_length]
    have := entryHeader_len_le info iovs
    unfold sizeofLoggerEntry LOGGER_ENTRY_MAX_LEN
    omega
  len := by
    have htake : (entryBytes info iovs).take 2 = leBytes 2 (entryHeader info iovs).len := by
      exact List.take_left' (leBytes_length 2 _)
    have := entryHeader_len_le info iovs
    rw [htake, leValue_leBytes (by omega), entryBytes_length]

end Entries

theorem loggerAioWrite_spec (hn : RingSize log.size)
    (hw : log.wOff = H.length % log.size) (hlen : (entryHeader info iovs).len ≠ 0) (orig : Nat) :
    ∃ bs, bs.length ≤ (entryBytes info iovs).length ∧
      Wrote (fixUpReaders log (entryBytes info iovs).length)
        (loggerAioWrite log orig info iovs).1 H bs ∧
      (∀ n, (loggerAioWrite log orig info iovs).2 = .ok n → n = (entryHeader info iovs).len ∧
        bs = entryBytes info iovs ∧
        (loggerAioWrite log orig info iovs).1.wOff = (H ++ bs).length % log.size) ∧
      ∀ e, (loggerAioWrite log orig info iovs).2 = .error e →
        (e = .EFAULT ∧ Unreadable (entryHeader info iovs).len iovs) ∧
        (loggerAioWrite log orig info iovs).1.wOff = orig := by
  have hbytes := (entryHeader info iovs).bytes_length
  rw [entryBytes_length]
  unfold loggerAioWrite
  dsimp only
  rw [if_neg hlen]
  generalize hlog₁ : fixUpReaders log (sizeofLoggerEntry + (entryHeader info iovs).len) = log₁
  have hn₁ : RingSize log₁.size := hlog₁ ▸ hn
  have hw₁ : log₁.wOff = H.length % log₁.size := hlog₁ ▸ hw
  have hsize₁ : log₁.size = log.size := hlog₁ ▸ rfl
  obtain ⟨hwrote, hw₂⟩ := doWriteLog_spec hn₁ hw₁ (entryHeader info iovs).bytes
    (by rw [hbytes]; decide)
  obtain ⟨bs, hbs, hwrote', hok, hfault⟩ := writeSegments_spec (hwrote.size ▸ hn₁) hw₂
    (entryHeader info iovs).len iovs 0
  generalize writeSegments (entryHeader info iovs).len
    (doWriteLog log₁ (entryHeader info iovs).bytes) 0 iovs = r at hwrote' hok hfault ⊢
  have hall := hwrote.trans hwrote'
  obtain ⟨log', res⟩ := r
  cases res with
  | error e =>
    refine ⟨(entryHeader info iovs).bytes ++ bs, by rw [List.length_append]; omega, ?_, nofun, ?_⟩
    · exact ⟨hall.size, hall.head, hall.readers, hall.holds⟩
    · intro e' he
      cases he
      exact ⟨hfault e rfl, rfl⟩
  | ok n =>
    refine ⟨(entryHeader info iovs).bytes ++ bs, by rw [List.length_append]; omega, hall, ?_, nofun⟩
    intro n' hn'
    cases hn'
    obtain ⟨hret, hdata, hw'⟩ := hok n rfl
    rw [Nat.sub_zero] at hdata
    rw [hdata, payload_length, Nat.zero_add] at hret
    refine ⟨hret, by rw [hdata, entryBytes], ?_⟩
    rw [hw', hwrote.size, hsize₁, List.append_assoc]

theorem Points.wrote (h : Points n m es bs.length off k)
    (hm : ∀ p, es.flatten.length + bs.length ≤ p + n → Holds n m es.flatten p →
      Holds n m' (es.flatten ++ bs) p) : Points n m' (es ++ [bs]) 0 off k := by
  have hflat : (es ++ [bs]).flatten = es.flatten ++ bs := by simp
  have hnear := h.near
  refine ⟨?_, ?_, ?_, ?_⟩
  · rw [List.length_append]
    exact Nat.le_add_right_of_le h.le
  · rw [pos_append h.le]
    exact h.cell
  · rw [hflat, pos_append h.le, List.length_append]
    omega
  · rw [hflat, pos_append h.le]
    exact hm _ (by omega) h.holds

theorem Points.faulted (h : Points n m es room off k)
    (hm : ∀ p, es.flatten.length + bs.length ≤ p + n → Holds n m es.flatten p →
      Holds n m' (es.flatten ++ bs) p) (hbs : bs.length ≤ room) : Points n m' es 0 off k := by
  have hnear := h.near
  exact ⟨h.le, h.cell, by omega, (hm _ (by omega) h.holds).of_append (pos_le es k)⟩

def Stands (log : Log) (es : List (List UInt8)) (room : Nat) (r : Reader) (c : Nat × Nat) : Prop :=
  r.id = c.1 ∧ Points log.size log.buffer es room r.rOff c.2

/-- The head and readers are at entries of a journal, out of the way of the next `room` bytes. -/
structure Rel (room : Nat) (log : Log) (J : Journal) : Prop where
  ring : RingSize log.size
  formed : ∀ e ∈ J.entries, WellFormed e
  wOff : log.wOff = J.entries.flatten.length % log.size
  head : Points log.size log.buffer J.entries room log.head J.head
  readers : List.Forall₂ (Stands log J.entries room) log.readers J.cursors

theorem forall₂_moved
    (h : List.Forall₂ R as bs) (hstep : ∀ a b, R a b → ∃ b', S b b' ∧ Q (f a) b') :
    ∃ bs', List.Forall₂ S bs bs' ∧ List.Forall₂ Q (as.map f) bs' := by
  induction h with
  | nil => exact ⟨[], .nil, .nil⟩
  | cons hab hrest ih =>
    obtain ⟨b', hs, hr⟩ := hstep _ _ hab
    obtain ⟨bs', hss, hrs⟩ := ih
    exact ⟨b' :: bs', .cons hs hss, .cons hr hrs⟩

theorem Rel.fixUp (h : Rel 0 log J) (hlen : 0 < len) (hmax : len ≤ LOGGER_ENTRY_MAX_LEN) :
    ∃ J', J.Moved (Advances log.size) len J' ∧ Rel len (fixUpReaders log len) J' := by
  obtain ⟨head, hhead, hmove⟩ := pulled_spec h.ring h.formed h.wOff hlen hmax h.head
  have hstep : ∀ r c, Stands log J.entries 0 r c →
      ∃ c', (c'.1 = c.1 ∧ Advances log.size J.entries len c.2 c'.2) ∧
        Stands (fixUpReaders log len) J.entries len { r with rOff := pulled log len r.rOff }
          c' := by
    rintro r c ⟨hid, hp⟩
    obtain ⟨k, hk, hadv⟩ := pulled_spec h.ring h.formed h.wOff hlen hmax hp
    exact ⟨(c.1, k), ⟨rfl, hadv⟩, hid, hk⟩
  obtain ⟨cursors, hcursors, hreaders⟩ := forall₂_moved h.readers hstep
  exact ⟨{ J with head := head, cursors := cursors }, ⟨rfl, rfl, hmove, hcursors⟩,
    ⟨h.ring, h.formed, h.wOff, hhead, hreaders⟩⟩

theorem Rel.wrote (h : Rel bs.length log J) (hw : Wrote log log' J.entries.flatten bs)
    (hbs : WellFormed bs) (hend : log'.wOff = (J.entries.flatten ++ bs).length % log.size) :
    Rel 0 log' { J with entries := J.entries ++ [bs] } where
  ring := hw.size ▸ h.ring
  formed := by
    intro e he
    rcases List.mem_append.mp he with hold | hnew
    · exact h.formed e hold
    · exact List.mem_singleton.mp hnew ▸ hbs
  wOff := by
    rw [hend, hw.size]
    simp
  head := by
    rw [hw.size, hw.head]
    exact h.head.wrote hw.holds
  readers := by
    rw [hw.readers]
    apply h.readers.imp
    rintro r c ⟨hid, hp⟩
    exact ⟨hid, hw.size ▸ hp.wrote hw.holds⟩

theorem Rel.faulted (h : Rel room log J) (hw : Wrote log log' J.entries.flatten bs)
    (hbs : bs.length ≤ room) (hend : log'.wOff = log.wOff) : Rel 0 log' J where
  ring := hw.size ▸ h.ring
  formed := h.formed
  wOff := by
    rw [hend, hw.size]
    exact h.wOff
  head := by
    rw [hw.size, hw.head]
    exact h.head.faulted hw.holds hbs
  readers := by
    rw [hw.readers]
    apply h.readers.imp
    rintro r c ⟨hid, hp⟩
    exact ⟨hid, hw.size ▸ hp.faulted hw.holds hbs⟩

theorem Rel.write (h : Rel 0 log J) (hlen : (entryHeader info iovs).len ≠ 0) (orig : Nat) :
    ∃ J', J.Moved (Advances log.size) (entryBytes info iovs).length J' ∧
      (∀ n, (loggerAioWrite log orig info iovs).2 = .ok n → n = (entryHeader info iovs).len ∧
        Rel 0 (loggerAioWrite log orig info iovs).1
          { J' with entries := J.entries ++ [entryBytes info iovs] }) ∧
      ∀ e, (loggerAioWrite log orig info iovs).2 = .error e →
        (e = .EFAULT ∧ Unreadable (entryHeader info iovs).len iovs) ∧
        (orig = log.wOff → Rel 0 (loggerAioWrite log orig info iovs).1 J') := by
  obtain ⟨bs, hbs, hwrote, hok, hfault⟩ := loggerAioWrite_spec h.ring h.wOff hlen orig
  have hformed := wellFormed_entryBytes info iovs
  obtain ⟨J', hmoved, hrel⟩ := h.fixUp (by rw [entryBytes_length]; omega) hformed.max
  rw [← hmoved.entries] at hwrote hok ⊢
  refine ⟨J', hmoved, ?_, ?_⟩
  · intro n hn
    obtain ⟨hret, rfl, hw⟩ := hok n hn
    exact ⟨hret, hrel.wrote hwrote hformed hw⟩
  · intro e he
    obtain ⟨hf, hw⟩ := hfault e he
    exact ⟨hf, fun horig => hrel.faulted hwrote hbs (hw.trans horig)⟩

theorem find?_forall₂ (h : List.Forall₂ R as bs) (hpq : ∀ a b, R a b → p a = q b) :
    (as.find? p = none ∧ bs.find? q = none) ∨
      ∃ a b, as.find? p = some a ∧ bs.find? q = some b ∧ R a b := by
  induction h with
  | nil => exact .inl ⟨rfl, rfl⟩
  | @cons a b as bs hab hrest ih =>
    rw [List.find?_cons, List.find?_cons, ← hpq a b hab]
    cases p a with
    | true => exact .inr ⟨a, b, rfl, rfl, hab⟩
    | false => exact ih

theorem loggerRead_eq (h : Rel 0 log J) (hp : Points log.size log.buffer J.entries 0 r.rOff k) :
    loggerRead log r count copied = match J.entries[k]? with
      | none => .error .EAGAIN
      | some e =>
        if count < e.length then .error .EINVAL
        else if copied = false then .error .EFAULT
        else .ok (e, { r with rOff := pos J.entries (k + 1) % log.size }) := by
  unfold loggerRead
  rw [h.wOff]
  cases he : J.entries[k]? with
  | none =>
    have hend : k = J.entries.length := by
      have := hp.le
      have := List.getElem?_eq_none_iff.mp he
      omega
    rw [if_pos ((hp.at_end h.formed).mpr hend)]
  | some e =>
    have hlt : k < J.entries.length := (List.getElem?_eq_some_iff.mp he).1
    have hformed := h.formed e (List.mem_of_getElem? he)
    have hmax : e.length ≤ 4096 := hformed.max
    have hbig := h.ring.bound
    have hsucc := pos_succ he
    have hend := pos_le J.entries (k + 1)
    have hoff := hp.lt h.ring
    rw [if_neg (fun hw => by have := (hp.at_end h.formed).mp hw; omega),
      getEntryLen_eq h.ring hp he hformed]
    dsimp only
    congr 1
    unfold doReadLogToUser
    dsimp only
    congr 1
    have hload : loadRing log.size log.buffer r.rOff e.length = e := by
      rw [hp.holds.loadRing (by omega) (by omega) (by omega) (by rw [hp.cell, Nat.mod_mod]),
        take_entry he (Nat.le_refl _), List.take_length]
    unfold loadRing at hload
    rw [loggerOffset_eq h.ring, hsucc, hp.cell, Nat.mod_add_mod, ← hp.cell]
    split
    next => rw [hload]
    next heq =>
      rw [show e.length - min e.length (log.size - r.rOff) = 0 by omega] at hload
      rw [show ([] : List UInt8) = load log.buffer 0 0 from rfl, hload]

theorem Points.next (h : Points n m es 0 off k) (hk : k < es.length) :
    Points n m es 0 (pos es (k + 1) % n) (k + 1) := by
  have hmono := pos_mono es (show k ≤ k + 1 by omega)
  have hnear := h.near
  exact ⟨hk, rfl, by omega, h.holds.mono hmono (pos_le es (k + 1))⟩

theorem Rel.read (h : Rel 0 log J) (id count : Nat) (copied : Bool) :
    (readBy log id count copied).2 = (J.read id count copied).2 ∧
      Rel 0 (readBy log id count copied).1 (J.read id count copied).1 := by
  unfold readBy Journal.read
  have hids : ∀ r c, Stands log J.entries 0 r c → decide (r.id = id) = decide (c.1 = id) := by
    rintro r c ⟨hid, -⟩
    rw [hid]
  rcases find?_forall₂ h.readers hids with ⟨hr, hc⟩ | ⟨r, c, hr, hc, hid, hp⟩
  · rw [hr, hc]
    exact ⟨rfl, h⟩
  rw [hr, hc]
  have hrid : r.id = id := by simpa using List.find?_some hr
  dsimp only
  rw [loggerRead_eq h hp]
  cases he : J.entries[c.2]? with
  | none => exact ⟨rfl, h⟩
  | some e =>
    by_cases hcount : count < e.length
    · simp only [if_pos hcount, true_and]
      exact h
    simp only [if_neg hcount]
    cases copied with
    | false => exact ⟨rfl, h⟩
    | true =>
      refine ⟨rfl, h.ring, h.formed, h.wOff, h.head, ?_⟩
      have hnext := hp.next (List.getElem?_eq_some_iff.mp he).1
      apply List.forall₂_map_left_iff.mpr
      apply List.forall₂_map_right_iff.mpr
      apply h.readers.imp
      rintro r' c' ⟨hid', hp'⟩
      rw [hid', hrid]
      by_cases hsame : c'.1 = id
      · rw [if_pos hsame, if_pos hsame]
        exact ⟨rfl, hnext⟩
      · rw [if_neg hsame, if_neg hsame]
        exact ⟨hid', hp'⟩

theorem Rel.at_end (h : Rel 0 log J) :
    Points log.size log.buffer J.entries 0 log.wOff J.entries.length := by
  have hle := pos_le J.entries J.head
  have hbig := h.ring.bound
  refine ⟨Nat.le_refl _, ?_, ?_, ?_⟩
  · rw [pos_length]
    exact h.wOff
  · rw [pos_length]
    omega
  · rw [pos_length]
    exact h.head.holds.mono hle (Nat.le_refl _)

theorem filter_forall₂ (h : List.Forall₂ R as bs) (hpq : ∀ a b, R a b → p a = q b) :
    List.Forall₂ R (as.filter p) (bs.filter q) := by
  induction h with
  | nil => exact .nil
  | @cons a b as bs hab hrest ih =>
    rw [List.filter_cons, List.filter_cons, ← hpq a b hab]
    split
    next => exact .cons hab ih
    next => exact ih

theorem readBy_size (log : Log) (id count : Nat) (copied : Bool) :
    (readBy log id count copied).1.size = log.size := by
  unfold readBy
  split
  next => rfl
  next => split <;> rfl

theorem Journal.read_nextReader (J : Journal) (id count : Nat) (copied : Bool) :
    (J.read id count copied).1.nextReader = J.nextReader := by
  unfold Journal.read
  split
  next => rfl
  next =>
    split
    next => rfl
    next => split <;> [rfl; (split <;> rfl)]

theorem loggerAioWrite_size (h : Rel 0 log J) (hlen : (entryHeader info iovs).len ≠ 0)
    (orig : Nat) : (loggerAioWrite log orig info iovs).1.size = log.size := by
  obtain ⟨bs, -, hwrote, -⟩ := loggerAioWrite_spec h.ring h.wOff hlen orig
  exact hwrote.size

theorem Rel.step (h : Rel 0 s.log J) (hnext : s.nextReader = J.nextReader) (op : Op) :
    ∃ J', J.Step (Advances s.log.size) op (step s op).2 J' ∧ Rel 0 (step s op).1.log J' ∧
      (step s op).1.nextReader = J'.nextReader ∧ (step s op).1.log.size = s.log.size := by
  cases op with
  | «open» =>
    refine ⟨_, .open J, ⟨h.ring, h.formed, h.wOff, h.head, ?_⟩, ?_, rfl⟩
    · exact List.rel_append h.readers (.cons ⟨hnext, h.head⟩ .nil)
    · exact congrArg (· + 1) hnext
  | release id =>
    refine ⟨_, .release J id, ⟨h.ring, h.formed, h.wOff, h.head, ?_⟩, hnext, rfl⟩
    apply filter_forall₂ h.readers
    rintro r c ⟨hid, -⟩
    rw [hid]
  | read id count copied =>
    obtain ⟨hout, hrel⟩ := h.read id count copied
    refine ⟨_, hout ▸ .read J id count copied, hrel, ?_, readBy_size s.log id count copied⟩
    exact hnext.trans (J.read_nextReader id count copied).symm
  | write info iovs =>
    by_cases hlen : (entryHeader info iovs).len = 0
    · have hnull : loggerAioWrite s.log s.log.wOff info iovs = (s.log, .ok 0) := if_pos hlen
      refine ⟨J, ?_, ?_, hnext, ?_⟩
      · simp only [Logger.step, hnull]
        exact .empty J hlen
      · simp only [Logger.step, hnull]
        exact h
      · simp only [Logger.step, hnull]
    · obtain ⟨J', hmoved, hok, hfault⟩ := h.write hlen s.log.wOff
      have hsize := loggerAioWrite_size h hlen s.log.wOff
      simp only [Logger.step]
      cases hres : (loggerAioWrite s.log s.log.wOff info iovs).2 with
      | ok n =>
        obtain ⟨rfl, hrel⟩ := hok n hres
        exact ⟨_, .write hlen hmoved, hrel, hnext.trans hmoved.nextReader.symm, hsize⟩
      | error e =>
        obtain ⟨⟨rfl, hbad⟩, hrel⟩ := hfault e hres
        exact ⟨J', .fault hlen hbad.exists_mem hmoved, hrel rfl,
          hnext.trans hmoved.nextReader.symm, hsize⟩
  | flush =>
    refine ⟨_, .flush J, ⟨h.ring, h.formed, h.wOff, h.at_end, ?_⟩, hnext, rfl⟩
    apply List.forall₂_map_left_iff.mpr
    apply List.forall₂_map_right_iff.mpr
    apply h.readers.imp
    rintro r c ⟨hid, -⟩
    exact ⟨hid, h.at_end⟩

end SpicaKernel.Logger
