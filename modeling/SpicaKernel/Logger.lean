import SpicaKernel.Memory

namespace SpicaKernel.Logger
set_option autoImplicit true

def LOGGER_ENTRY_MAX_LEN : Nat := 4 * 1024

/-- `struct logger_entry` without its payload; `pad` is what the stack held there. -/
structure LoggerEntry where
  len : Nat
  pad : Nat
  pid : Nat
  tid : Nat
  sec : Nat
  nsec : Nat

def LoggerEntry.bytes (e : LoggerEntry) : List UInt8 :=
  leBytes 2 e.len ++ leBytes 2 e.pad ++ leBytes 4 e.pid ++ leBytes 4 e.tid ++ leBytes 4 e.sec ++
    leBytes 4 e.nsec

def sizeofLoggerEntry : Nat := 20

def LOGGER_ENTRY_MAX_PAYLOAD : Nat := LOGGER_ENTRY_MAX_LEN - sizeofLoggerEntry

inductive Errno where
  | EAGAIN
  | EBADF
  | EFAULT
  | EINVAL
  deriving DecidableEq

/-- `struct logger_reader`; `id` stands for its address. -/
structure Reader where
  id : Nat
  rOff : Nat

structure Log where
  buffer : Nat → UInt8
  wOff : Nat
  head : Nat
  size : Nat
  readers : List Reader

def loggerOffset (log : Log) (n : Nat) : Nat := n &&& (log.size - 1)

def getEntryLen (log : Log) (off : Nat) : Nat :=
  let val := match log.size - off with
    | 1 => load log.buffer off 1 ++ load log.buffer 0 1
    | _ => load log.buffer off 2
  sizeofLoggerEntry + leValue val

/-- `copied` says whether the reader's memory takes all the bytes. -/
def doReadLogToUser (log : Log) (reader : Reader) (count : Nat) (copied : Bool) :
    Except Errno (List UInt8 × Reader) :=
  let len := min count (log.size - reader.rOff)
  let rest := if count ≠ len then load log.buffer 0 (count - len) else []
  if copied = false then .error .EFAULT
  else .ok (load log.buffer reader.rOff len ++ rest,
    { reader with rOff := loggerOffset log (reader.rOff + count) })

/-- `logger_read` under the mutex; with nothing to read it starts again, unless `O_NONBLOCK`. -/
def loggerRead (log : Log) (reader : Reader) (count : Nat) (copied : Bool) :
    Except Errno (List UInt8 × Reader) :=
  if log.wOff = reader.rOff then .error .EAGAIN
  else
    let ret := getEntryLen log reader.rOff
    if count < ret then .error .EINVAL else doReadLogToUser log reader ret copied

theorem getEntryLen_pos (log : Log) (off : Nat) : 0 < getEntryLen log off := by
  unfold getEntryLen sizeofLoggerEntry
  dsimp only
  omega

/-- The loop of `get_next_entry`. -/
def nextEntry (log : Log) (len off count : Nat) : Nat :=
  let nr := getEntryLen log off
  let next := loggerOffset log (off + nr)
  if _h : count + nr < len then nextEntry log len next (count + nr) else next
termination_by len - count
decreasing_by
  have := getEntryLen_pos log off
  omega

def getNextEntry (log : Log) (off len : Nat) : Nat := nextEntry log len off 0

def clockInterval (a b c : Nat) : Bool :=
  if b < a then decide (a < c ∨ b ≥ c) else decide (a < c ∧ b ≥ c)

/-- What `fix_up_readers` does to an offset, the head or that of a reader. -/
def pulled (log : Log) (len off : Nat) : Nat :=
  if clockInterval log.wOff (loggerOffset log (log.wOff + len)) off then getNextEntry log off len
  else off

def fixUpReaders (log : Log) (len : Nat) : Log :=
  { log with
    head := pulled log len log.head
    readers := log.readers.map fun r => { r with rOff := pulled log len r.rOff } }

/-- A copy that would be as long as the longest payload is refused with a message. -/
def doWriteLog (log : Log) (buf : List UInt8) : Log :=
  let count := buf.length
  let len := min count (log.size - log.wOff)
  if count ≥ LOGGER_ENTRY_MAX_PAYLOAD then log
  else
    let buffer := store log.buffer log.wOff (buf.take len)
    let buffer := if count ≠ len then store buffer 0 (buf.drop len) else buffer
    { log with buffer := buffer, wOff := loggerOffset log (log.wOff + count) }

/-- A segment of the writer's memory, of which only the first bytes can be read. -/
structure Iovec where
  data : List UInt8
  readable : Nat

/-- `copy_from_user` fills with zeros what it could not read. -/
def copyFromUser (m : Nat → UInt8) (dest : Nat) (iov : Iovec) (skip n : Nat) :
    (Nat → UInt8) × Bool :=
  let copied := min n (iov.readable - skip)
  (store m dest (((iov.data.drop skip).take copied) ++ List.replicate (n - copied) 0), copied = n)

def doWriteLogFromUser (log : Log) (iov : Iovec) (count : Nat) : Log × Except Errno Nat :=
  let len := min count (log.size - log.wOff)
  let first := if len ≠ 0 then copyFromUser log.buffer log.wOff iov 0 len else (log.buffer, true)
  if first.2 = false then ({ log with buffer := first.1 }, .error .EFAULT)
  else
    let second := if count ≠ len then copyFromUser first.1 0 iov len (count - len)
      else (first.1, true)
    if second.2 = false then ({ log with buffer := second.1 }, .error .EFAULT)
    else ({ log with buffer := second.1, wOff := loggerOffset log (log.wOff + count) }, .ok count)

/-- The loop of `logger_aio_write` over the segments. -/
def writeSegments (headerLen : Nat) : Log → Nat → List Iovec → Log × Except Errno Nat
  | log, ret, [] => (log, .ok ret)
  | log, ret, iov :: iovs =>
    let len := min iov.data.length (headerLen - ret)
    match doWriteLogFromUser log iov len with
    | (log, .error e) => (log, .error e)
    | (log, .ok nr) => writeSegments headerLen log (ret + nr) iovs

/-- The length that a writer asks for, `iocb->ki_left`. -/
def kiLeft (iovs : List Iovec) : Nat := (iovs.map (fun iov => iov.data.length)).sum

/-- The header of a writer's entry: `info` with the length filled in. -/
def entryHeader (info : LoggerEntry) (iovs : List Iovec) : LoggerEntry :=
  { info with len := min (kiLeft iovs) LOGGER_ENTRY_MAX_PAYLOAD }

/-- `logger_aio_write` from where it has the mutex, for a write head `orig` read before. -/
def loggerAioWrite (log : Log) (orig : Nat) (info : LoggerEntry) (iovs : List Iovec) :
    Log × Except Errno Nat :=
  let header := entryHeader info iovs
  if header.len = 0 then (log, .ok 0)
  else
    let log := fixUpReaders log (sizeofLoggerEntry + header.len)
    let log := doWriteLog log header.bytes
    match writeSegments header.len log 0 iovs with
    | (log, .error e) => ({ log with wOff := orig }, .error e)
    | (log, .ok ret) => (log, .ok ret)

def flushLog (log : Log) : Log :=
  { log with
    readers := log.readers.map fun r => { r with rOff := log.wOff }
    head := log.wOff }

def loggerOpen (log : Log) (id : Nat) : Log :=
  { log with readers := log.readers ++ [⟨id, log.head⟩] }

def loggerRelease (log : Log) (id : Nat) : Log :=
  { log with readers := log.readers.filter fun r => r.id ≠ id }

/-- The logs that `DEFINE_LOGGER_DEVICE` declares. -/
inductive Device where
  | main
  | events
  | radio
  | system

def Device.size : Device → Nat
  | .main => 256 * 1024
  | .events => 256 * 1024
  | .radio => 256 * 1024
  | .system => 64 * 1024

def Device.log (d : Device) : Log where
  buffer := fun _ => 0
  wOff := 0
  head := 0
  size := d.size
  readers := []

/-- Readers are named by the order in which they are opened. -/
structure State where
  log : Log
  nextReader : Nat

inductive Op where
  | open
  | release (id : Nat)
  | read (id count : Nat) (copied : Bool)
  | write (info : LoggerEntry) (iovs : List Iovec)
  | flush

/-- What a caller gets: a number, or an entry, or an error. -/
inductive Output where
  | ret (n : Nat)
  | entry (bytes : List UInt8)
  | error (e : Errno)

def Output.ofExcept : Except Errno Nat → Output
  | .ok n => .ret n
  | .error e => .error e

def setReader (log : Log) (reader : Reader) : Log :=
  { log with readers := log.readers.map fun r => if r.id = reader.id then reader else r }

def readBy (log : Log) (id count : Nat) (copied : Bool) : Log × Output :=
  match log.readers.find? (fun r => r.id = id) with
  | none => (log, .error .EBADF)
  | some reader =>
    match loggerRead log reader count copied with
    | .ok (bytes, reader) => (setReader log reader, .entry bytes)
    | .error e => (log, .error e)

def step (s : State) : Op → State × Output
  | .open => (⟨loggerOpen s.log s.nextReader, s.nextReader + 1⟩, .ret 0)
  | .release id => (⟨loggerRelease s.log id, s.nextReader⟩, .ret 0)
  | .read id count copied =>
    let r := readBy s.log id count copied
    (⟨r.1, s.nextReader⟩, r.2)
  | .write info iovs =>
    let r := loggerAioWrite s.log s.log.wOff info iovs
    (⟨r.1, s.nextReader⟩, .ofExcept r.2)
  | .flush => (⟨flushLog s.log, s.nextReader⟩, .ret 0)

def run (s : State) : List Op → State × List Output
  | [] => (s, [])
  | op :: ops =>
    let r := step s op
    let rs := run r.1 ops
    (rs.1, r.2 :: rs.2)

def pos (es : List (List UInt8)) (k : Nat) : Nat := (es.take k).flatten.length

theorem pos_length (es : List (List UInt8)) : pos es es.length = es.flatten.length := by
  simp [pos]

theorem pos_succ (h : es[k]? = some e) : pos es (k + 1) = pos es k + e.length := by
  simp [pos, List.take_add_one, h]

theorem pos_append (h : k ≤ es.length) : pos (es ++ es') k = pos es k := by
  rw [pos, List.take_append_of_le_length h, pos]

theorem pos_mono (es : List (List UInt8)) (h : i ≤ j) : pos es i ≤ pos es j := by
  obtain ⟨k, rfl⟩ := Nat.exists_eq_add_of_le h
  rw [pos, pos, List.take_add, List.flatten_append, List.length_append]
  omega

theorem pos_le (es : List (List UInt8)) (k : Nat) : pos es k ≤ es.flatten.length := by
  rcases Nat.le_total k es.length with h | h
  · rw [← pos_length]
    exact pos_mono es h
  · rw [pos, List.take_of_length_le h]

theorem drop_pos (es : List (List UInt8)) (k : Nat) :
    es.flatten.drop (pos es k) = (es.drop k).flatten := by
  have h : es.flatten = (es.take k).flatten ++ (es.drop k).flatten := by
    rw [← List.flatten_append, List.take_append_drop]
  rw [h]
  exact List.drop_left' rfl

theorem take_entry {es : List (List UInt8)} (h : es[k]? = some e) (hi : i ≤ e.length) :
    (es.flatten.drop (pos es k)).take i = e.take i := by
  obtain ⟨hk, rfl⟩ := List.getElem?_eq_some_iff.mp h
  rw [drop_pos, List.drop_eq_getElem_cons hk, List.flatten_cons, List.take_append_of_le_length hi]

structure WellFormed (e : List UInt8) : Prop where
  min : sizeofLoggerEntry ≤ e.length
  max : e.length ≤ LOGGER_ENTRY_MAX_LEN
  len : sizeofLoggerEntry + leValue (e.take 2) = e.length

/-- The sizes for which `logger_offset` is a remainder and no entry is a large part of a log. -/
structure RingSize (n : Nat) : Prop where
  pow : ∃ k, n = 2 ^ k
  big : 2 * LOGGER_ENTRY_MAX_LEN ≤ n

theorem Device.ringSize (d : Device) : RingSize d.size := by
  have hsmall : RingSize (64 * 1024) := ⟨⟨16, rfl⟩, by decide⟩
  have hlarge : RingSize (256 * 1024) := ⟨⟨18, rfl⟩, by decide⟩
  cases d with
  | main => exact hlarge
  | events => exact hlarge
  | radio => exact hlarge
  | system => exact hsmall

theorem RingSize.bound (h : RingSize n) : 8192 ≤ n := h.big

theorem loggerOffset_eq (hn : RingSize log.size) (x : Nat) : loggerOffset log x = x % log.size := by
  obtain ⟨k, hk⟩ := hn.pow
  rw [loggerOffset, hk, Nat.and_two_pow_sub_one_eq_mod]

/-- From `off` on the ring holds the entries from `k` on, and `room` more bytes do not reach it.-/
structure Points (n : Nat) (m : Nat → UInt8) (es : List (List UInt8)) (room off k : Nat) :
    Prop where
  le : k ≤ es.length
  cell : off = pos es k % n
  near : es.flatten.length + room < pos es k + n
  holds : Holds n m es.flatten (pos es k)

theorem Points.lt (h : Points n m es room off k) (hn : RingSize n) : off < n := by
  rw [h.cell]
  exact Nat.mod_lt _ (by have := hn.bound; omega)

theorem Points.at_end (h : Points n m es room off k) (hf : ∀ e ∈ es, WellFormed e) :
    es.flatten.length % n = off ↔ k = es.length := by
  constructor
  · intro he
    rw [h.cell] at he
    have hdvd := (Nat.modEq_iff_dvd' (pos_le es k)).mp he.symm
    have hpos : es.flatten.length - pos es k = 0 := by
      by_contra hne
      have := Nat.le_of_dvd (by omega) hdvd
      have := h.near
      omega
    by_contra hk
    have hlt : k < es.length := by have := h.le; omega
    have hsucc := pos_succ (List.getElem?_eq_getElem hlt)
    have hmin := (hf es[k] (List.getElem_mem hlt)).min
    have := pos_le es (k + 1)
    unfold sizeofLoggerEntry at hmin
    omega
  · rintro rfl
    rw [h.cell, pos_length]

theorem getEntryLen_eq (hn : RingSize log.size)
    (h : Points log.size log.buffer es room off k) (he : es[k]? = some e) (hf : WellFormed e) :
    getEntryLen log off = e.length := by
  have hmin : 20 ≤ e.length := hf.min
  have hlen : pos es k + e.length ≤ es.flatten.length := pos_succ he ▸ pos_le es (k + 1)
  have hoff := h.lt hn
  have hbig := hn.bound
  have hload : loadRing log.size log.buffer off 2 = e.take 2 := by
    rw [h.holds.loadRing (by omega) (by omega) (by omega) (by rw [h.cell, Nat.mod_mod]),
      take_entry he (by omega)]
  rw [← hf.len, ← hload]
  unfold getEntryLen loadRing
  split
  next h1 => simp [h1]
  next h1 =>
    have hne : log.size - off ≠ 1 := h1
    rw [Nat.min_eq_left (by omega)]
    simp [load]

theorem nextEntry_spec {log : Log} (hn : RingSize log.size) (hf : ∀ e ∈ es, WellFormed e)
    (h : Points log.size log.buffer es room off k) (hcount : count < len)
    (henough : pos es k + (len - count) ≤ es.flatten.length) :
    ∃ k', k < k' ∧ Points log.size log.buffer es room (nextEntry log len off count) k' ∧
      pos es k + (len - count) ≤ pos es k' ∧
      ∀ j, j < k' → pos es j < pos es k + (len - count) := by
  have hk : k < es.length := by
    by_contra hk
    have : k = es.length := by have := h.le; omega
    subst this
    rw [pos_length] at henough
    omega
  have he := List.getElem?_eq_getElem hk
  have hwf := hf es[k] (List.getElem_mem hk)
  have hmin : 20 ≤ es[k].length := hwf.min
  have hlen := getEntryLen_eq hn h he hwf
  have hsucc := pos_succ he
  have hnext : Points log.size log.buffer es room (loggerOffset log (off + es[k].length))
      (k + 1) := by
    have hmono : pos es k ≤ pos es (k + 1) := by omega
    refine ⟨hk, ?_, ?_, h.holds.mono hmono (pos_le es (k + 1))⟩
    · rw [loggerOffset_eq hn, h.cell, hsucc, Nat.mod_add_mod]
    · have := h.near
      omega
  rw [nextEntry, hlen]
  have hbefore : ∀ j, j < k + 1 → pos es j < pos es k + (len - count) := by
    intro j hj
    have := pos_mono es (show j ≤ k by omega)
    omega
  split
  next hlt =>
    obtain ⟨k', hkk', hp, hge, hall⟩ := nextEntry_spec hn hf hnext hlt (by omega)
    refine ⟨k', by omega, hp, by omega, ?_⟩
    intro j hj
    have := hall j hj
    omega
  next hge => exact ⟨k + 1, by omega, hnext, by omega, hbefore⟩
termination_by len - count

theorem clockInterval_iff (hn : 0 < n) (hlen : len < n) (hp : p ≤ w) (hnear : w < p + n) :
    clockInterval (w % n) ((w + len) % n) (p % n) = true ↔ p + n ≤ w + len := by
  obtain ⟨d, rfl⟩ := Nat.exists_eq_add_of_le hp
  have hw := Nat.mod_lt (p + d) hn
  have hc := Nat.mod_lt p hn
  have hnew := ring_index hw.le hlen
  have hold := ring_index hc.le (show d < n by omega)
  rw [Nat.mod_add_mod] at hnew hold
  unfold clockInterval
  split at hnew <;> split at hold <;> split <;> rw [decide_eq_true_iff] <;> omega

def Reuses (n : Nat) (es : List (List UInt8)) (len i : Nat) : Prop :=
  ∃ q, pos es i ≤ q ∧ q < pos es (i + 1) ∧ es.flatten.length ≤ q + n ∧
    q + n < es.flatten.length + len

def Needs (n : Nat) (es : List (List UInt8)) (len j : Nat) : Prop :=
  ∃ i, i ≤ j ∧ pos es j ≤ pos es (i + 1) + LOGGER_ENTRY_MAX_LEN ∧ Reuses n es len i

structure Skips (n : Nat) (es : List (List UInt8)) (len k k' : Nat) : Prop where
  le : k ≤ k'
  le_length : k' ≤ es.length
  needs : ∀ j, k ≤ j → j < k' → Needs n es len j

/-- The write that first ends with the buffer is in the way of no entry, but moves the readers still
at the start of it. -/
structure Advances (n : Nat) (es : List (List UInt8)) (len k k' : Nat) : Prop where
  le : k ≤ k'
  le_length : k' ≤ es.length
  needs : ∀ j, k ≤ j → j < k' → Needs n es len j ∨ es.flatten.length + len = n
  close : ∀ j, k ≤ j → j < k' → pos es j + n < es.flatten.length + 2 * len
  clear : es.flatten.length + len < pos es k' + n

theorem pulled_spec (hn : RingSize log.size) (hf : ∀ e ∈ es, WellFormed e)
    (hw : log.wOff = es.flatten.length % log.size) (hlen : 0 < len)
    (hmax : len ≤ LOGGER_ENTRY_MAX_LEN) (h : Points log.size log.buffer es 0 off k) :
    ∃ k', Points log.size log.buffer es len (pulled log len off) k' ∧
      Advances log.size es len k k' := by
  have hbig := hn.bound
  have hle := pos_le es k
  have hnear := h.near
  have hmax' : len ≤ 4096 := hmax
  have hclock := clockInterval_iff (by omega) (show len < log.size by omega) hle hnear
  rw [← h.cell, ← hw] at hclock
  unfold pulled
  rw [loggerOffset_eq hn, hw, Nat.mod_add_mod, ← hw]
  split
  next hc =>
    have hreach := hclock.mp hc
    obtain ⟨k', hkk', hp, hge, hall⟩ := nextEntry_spec hn hf h hlen (by omega)
    have hneeds : ∀ j, k ≤ j → j < k' →
        Needs log.size es len j ∨ es.flatten.length + len = log.size := by
      intro j hj hjk
      have hpj := hall j hjk
      rcases Nat.lt_or_eq_of_le hreach with hlt | heq
      · have hk : k < es.length := by have := hp.le; omega
        have hsucc := pos_succ (List.getElem?_eq_getElem hk)
        have hmin : 20 ≤ es[k].length := (hf es[k] (List.getElem_mem hk)).min
        refine .inl ⟨k, hj, ?_, pos es k, Nat.le_refl _, by omega, by omega, hlt⟩
        omega
      · -- the write ends where the reader is: the entry before was in the way, if there is one
        cases k with
        | zero =>
          have h0 : pos es 0 = 0 := rfl
          exact .inr (by omega)
        | succ i =>
          have hi : i < es.length := by have := h.le; omega
          have hsucc := pos_succ (List.getElem?_eq_getElem hi)
          have hmin : 20 ≤ es[i].length := (hf es[i] (List.getElem_mem hi)).min
          refine .inl ⟨i, by omega, ?_, pos es (i + 1) - 1, by omega, by omega, by omega, by omega⟩
          omega
    have hclose : ∀ j, k ≤ j → j < k' → pos es j + log.size < es.flatten.length + 2 * len := by
      intro j _ hjk
      have := hall j hjk
      omega
    exact ⟨k', ⟨hp.le, hp.cell, by omega, hp.holds⟩, ⟨by omega, hp.le, hneeds, hclose, by omega⟩⟩
  next hc =>
    have hroom : ¬ pos es k + log.size ≤ es.flatten.length + len := fun hle => hc (hclock.mpr hle)
    exact ⟨k, ⟨h.le, h.cell, by omega, h.holds⟩,
      ⟨Nat.le_refl k, h.le, by omega, by omega, by omega⟩⟩

def entryBytes (info : LoggerEntry) (iovs : List Iovec) : List UInt8 :=
  (entryHeader info iovs).bytes ++
    (iovs.flatMap (fun iov => iov.data)).take (entryHeader info iovs).len

/-- What a log is for: all the entries, and for each reader the number of the entry it is at. -/
structure Journal where
  entries : List (List UInt8)
  head : Nat
  cursors : List (Nat × Nat)
  nextReader : Nat

def Journal.init : Journal where
  entries := []
  head := 0
  cursors := []
  nextReader := 0

def Journal.read (J : Journal) (id count : Nat) (copied : Bool) : Journal × Output :=
  match J.cursors.find? (fun c => c.1 = id) with
  | none => (J, .error .EBADF)
  | some c =>
    match J.entries[c.2]? with
    | none => (J, .error .EAGAIN)
    | some e =>
      if count < e.length then (J, .error .EINVAL)
      else if copied = false then (J, .error .EFAULT)
      else ({ J with cursors := J.cursors.map fun c' => if c'.1 = id then (id, c.2 + 1) else c' },
        .entry e)

structure Journal.Moved (Move : List (List UInt8) → Nat → Nat → Nat → Prop) (len : Nat)
    (J J' : Journal) : Prop where
  entries : J'.entries = J.entries
  nextReader : J'.nextReader = J.nextReader
  head : Move J.entries len J.head J'.head
  cursors : List.Forall₂ (fun c c' => c'.1 = c.1 ∧ Move J.entries len c.2 c'.2) J.cursors J'.cursors

inductive Journal.Step (Move : List (List UInt8) → Nat → Nat → Nat → Prop) :
    Journal → Op → Output → Journal → Prop where
  | open (J : Journal) : Step Move J .open (.ret 0)
      { J with cursors := J.cursors ++ [(J.nextReader, J.head)], nextReader := J.nextReader + 1 }
  | release (J : Journal) (id : Nat) : Step Move J (.release id) (.ret 0)
      { J with cursors := J.cursors.filter fun c => c.1 ≠ id }
  | read (J : Journal) (id count : Nat) (copied : Bool) : Step Move J (.read id count copied)
      (J.read id count copied).2 (J.read id count copied).1
  | flush (J : Journal) : Step Move J .flush (.ret 0) { J with
        head := J.entries.length
        cursors := J.cursors.map fun c => (c.1, J.entries.length) }
  | empty (J : Journal) : (entryHeader info iovs).len = 0 →
      Step Move J (.write info iovs) (.ret 0) J
  | write : (entryHeader info iovs).len ≠ 0 → Moved Move (entryBytes info iovs).length J J' →
      Step Move J (.write info iovs) (.ret (entryHeader info iovs).len)
        { J' with entries := J.entries ++ [entryBytes info iovs] }
  | fault : (entryHeader info iovs).len ≠ 0 → (∃ iov ∈ iovs, iov.readable < iov.data.length) →
      Moved Move (entryBytes info iovs).length J J' →
      Step Move J (.write info iovs) (.error .EFAULT) J'

inductive Journal.Run (Move : List (List UInt8) → Nat → Nat → Nat → Prop) :
    Journal → List Op → List Output → Journal → Prop where
  | nil (J : Journal) : Run Move J [] [] J
  | cons : Step Move J op out J₁ → Run Move J₁ ops outs J' → Run Move J (op :: ops) (out :: outs) J'

def written : List Op → List Output → List (List UInt8)
  | .write info iovs :: ops, .ret n :: outs =>
    if n = 0 then written ops outs else entryBytes info iovs :: written ops outs
  | _ :: ops, _ :: outs => written ops outs
  | _, _ => []

def received (id : Nat) : List Op → List Output → List (List UInt8)
  | .read id' _ _ :: ops, .entry bytes :: outs =>
    if id' = id then bytes :: received id ops outs else received id ops outs
  | _ :: ops, _ :: outs => received id ops outs
  | _, _ => []

end SpicaKernel.Logger
