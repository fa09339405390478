import SpicaKernel.Memory
import SpicaKernel.Runs

namespace SpicaKernel.Dpram
set_option autoImplicit true

section

/-- A `u16` in memory, its low byte first. -/
def word (m : Nat → UInt8) (a : Nat) : BitVec 16 := (m (a + 1)).toBitVec ++ (m a).toBitVec

def wordBytes (w : BitVec 16) : List UInt8 := [⟨w.extractLsb' 0 8⟩, ⟨w.extractLsb' 8 8⟩]

def setWord (m : Nat → UInt8) (a : Nat) (w : BitVec 16) : Nat → UInt8 := store m a (wordBytes w)

/-- Copies one byte from `src` in the memory `k` to `dest` in the memory `m`, by `u16` accesses. -/
def byteAlign (m : Nat → UInt8) (dest : Nat) (k : Nat → UInt8) (src : Nat) : Nat → UInt8 :=
  if dest % 2 = 0 ∧ src % 2 = 0 then
    setWord m dest ((word m dest &&& 0xFF00#16) ||| (word k src &&& 0x00FF#16))
  else if dest % 2 = 1 ∧ src % 2 = 1 then
    setWord m (dest - 1) ((word m (dest - 1) &&& 0x00FF#16) ||| (word k (src - 1) &&& 0xFF00#16))
  else if dest % 2 = 0 then
    setWord m dest ((word m dest &&& 0xFF00#16) ||| ((word k (src - 1) >>> 8) &&& 0x00FF#16))
  else
    setWord m (dest - 1) ((word m (dest - 1) &&& 0x00FF#16) ||| ((word k src <<< 8) &&& 0xFF00#16))

/-- The loops of `_memcpy` over the words between its odd bytes. -/
def copyLoop (fetch : Nat → BitVec 16) : Nat → (Nat → UInt8) → Nat → Nat → Nat → UInt8
  | 0, m, _, _ => m
  | size + 1, m, dest, src =>
    copyLoop fetch size (setWord m dest (fetch src)) (dest + 2) (src + 2)

def bytePair (k : Nat → UInt8) (src : Nat) : BitVec 16 :=
  (k src).toBitVec.setWidth 16 ||| ((k (src + 1)).toBitVec.setWidth 16 <<< 8)

/-- The part of `_memcpy` from the address on that it has made even. -/
def memcpyEven (m : Nat → UInt8) (dest : Nat) (k : Nat → UInt8) (src size : Nat) : Nat → UInt8 :=
  let (m, size) := if size % 2 = 1
    then (byteAlign m (dest + size - 1) k (src + size - 1), size - 1) else (m, size)
  if src % 2 = 1 then copyLoop (bytePair k) (size / 2) m dest src
  else copyLoop (word k) (size / 2) m dest src

/-- `_memcpy` from the memory `k` to the memory `m`. -/
def memcpy (onedramSem : Bool) (m : Nat → UInt8) (dest : Nat) (k : Nat → UInt8) (src : Nat)
    (size : Int) : Nat → UInt8 :=
  if onedramSem = false ∨ size ≤ 0 then m
  else if dest % 2 = 1 then
    memcpyEven (byteAlign m dest k src) (dest + 1) k (src + 1) (size.toNat - 1)
  else memcpyEven m dest k src size.toNat

/-- `_memcmp`, which is 0 for equal words. -/
def memcmp (onedramSem : Bool) (m : Nat → UInt8) (dest : Nat) (k : Nat → UInt8) (src : Nat)
    (size : Nat) : Bool :=
  !onedramSem || (List.range (size / 2)).any fun i => word m (dest + 2 * i) ≠ word k (src + 2 * i)

/-- A local variable of type `u16`, as memory of its own. -/
def localWord (w : Nat) : Nat → UInt8 := setWord (fun _ => 0) 0 (BitVec.ofNat 16 w)

def verifyLoop (onedramSem : Bool) (dest : Nat) (k : Nat → UInt8) (src size : Nat) :
    Nat → (Nat → UInt8) → (Nat → UInt8) × Int
  | 0, m => (m, -1)
  | cnt + 1, m =>
    let m := memcpy onedramSem m dest k src size
    if memcmp onedramSem m dest k src size = false then (m, 0)
    else verifyLoop onedramSem dest k src size cnt m

def writeToDpramVerify (m : Nat → UInt8) (dest w : Nat) : Nat → UInt8 :=
  (verifyLoop true dest (localWord w) 0 2 3 m).1

def readFromDpramVerify (m : Nat → UInt8) (src : Nat) : Nat :=
  (word (verifyLoop true 0 m src 2 1 (localWord 0)).1 0).toNat

/-- The addresses of one direction of a `dpram_device`: `in_head_addr` and so on, or `out_`. -/
structure Ring where
  headAddr : Nat
  tailAddr : Nat
  buffAddr : Nat
  buffSize : Nat

structure DpramDevice where
  inRing : Ring
  outRing : Ring
  outHeadSaved : Nat
  outTailSaved : Nat
  ttyIndex : Nat

/-- The OneDRAM, a device on it, and the bytes that its tty has accepted. -/
structure State where
  mem : Nat → UInt8
  device : DpramDevice
  tty : List UInt8

def u16 (x : Int) : Nat := (x % 0x10000).toNat

namespace Ring

def head (r : Ring) (m : Nat → UInt8) : Nat := readFromDpramVerify m r.headAddr

def tail (r : Ring) (m : Nat → UInt8) : Nat := readFromDpramVerify m r.tailAddr

def freesize (r : Ring) (m : Nat → UInt8) : Nat :=
  if r.head m < r.tail m then u16 (r.tail m - r.head m - 1)
  else u16 (r.buffSize - r.head m + r.tail m - 1)

end Ring

/-- The copies that `dpram_write` makes of bytes that fit, with the new head and the result. -/
def writeParts (r : Ring) (mem : Nat → UInt8) (k : Nat → UInt8) (buf len : Nat) :
    (Nat → UInt8) × Nat × Int :=
  let head := r.head mem
  let nextHead := u16 (head + len)
  if nextHead < r.buffSize then (memcpy true mem (r.buffAddr + head) k buf len, nextHead, len)
  else
    let nextHead := u16 (nextHead - r.buffSize)
    let size : Int := r.buffSize - head
    let mem := memcpy true mem (r.buffAddr + head) k buf size
    let mem := memcpy true mem r.buffAddr k (buf + size).toNat nextHead
    (mem, nextHead, size + nextHead)

/-- `dpram_write` of the `len` bytes at `buf` in the memory `k`. Without the semaphore it fails;
where the bytes do not fit it goes round without end. -/
def dpramWrite (s : State) (onedramSem : Bool) (k : Nat → UInt8) (buf len : Nat) :
    Option (State × Int) :=
  if onedramSem = false then some (s, -1)
  else
    let r := s.device.outRing
    let tail := r.tail s.mem
    if len ≤ r.freesize s.mem then
      let (mem, head, retval) := writeParts r s.mem k buf len
      let mem := writeToDpramVerify mem r.headAddr head
      if len ≤ retval then
        let device := { s.device with outHeadSaved := head, outTailSaved := tail }
        some ({ s with mem, device }, retval)
      else none
    else none

def clusterSegment : Nat := 1500

/-- The loop of `dpram_tty_insert_data`: the bytes accepted; the `k`th insert finds `room k`. -/
def insertClusters (room : Nat → Nat) : Nat → Nat → List UInt8 → List UInt8
  | 0, _, _ => []
  | fuel + 1, k, data =>
    if data = [] then []
    else (data.take clusterSegment).take (room k) ++
      insertClusters room fuel (k + 1) (data.drop clusterSegment)

/-- The bytes accepted by the tty, and the result. -/
def dpramTtyInsertData (device : DpramDevice) (room : Nat → Nat) (data : List UInt8) :
    List UInt8 × Nat :=
  if clusterSegment < data.length ∧ device.ttyIndex = 1 then
    (insertClusters room data.length 0 data, data.length)
  else (data.take (room 0), min (room 0) data.length)

/-- The bytes of an occupied region that the tty accepts, and the sum by which `dpram_read` moves
the tail. The `k`th insert of the `p`th piece finds `room p k`. -/
def insertRegion (device : DpramDevice) (mem : Nat → UInt8) (room : Nat → Nat → Nat) :
    List UInt8 × Nat :=
  let r := device.inRing
  let head := r.head mem
  let tail := r.tail mem
  if tail < head then
    dpramTtyInsertData device (room 0) (load mem (r.buffAddr + tail) (head - tail))
  else
    let size := r.buffSize - tail + head
    let tmpSize := r.buffSize - tail
    let (accepted, retval) :=
      dpramTtyInsertData device (room 0) (load mem (r.buffAddr + tail) tmpSize)
    if tmpSize < size then
      let (more, _) := dpramTtyInsertData device (room 1) (load mem r.buffAddr (size - tmpSize))
      (accepted ++ more, retval + (size - tmpSize))
    else (accepted, retval)

def dpramRead (s : State) (onedramSem : Bool) (room : Nat → Nat → Nat) : State × Int :=
  if onedramSem = false then (s, -1)
  else
    let r := s.device.inRing
    let head := r.head s.mem
    let tail := r.tail s.mem
    let device := { s.device with outHeadSaved := head, outTailSaved := tail }
    if head = tail then ({ s with device }, 0)
    else
      let (accepted, retval) := insertRegion s.device s.mem room
      let upTail := u16 ((tail + retval) % r.buffSize : Nat)
      let mem := writeToDpramVerify s.mem r.tailAddr upTail
      (⟨mem, device, s.tty ++ accepted⟩, retval)

def dpramTtyWriteRoom (device : DpramDevice) : Int :=
  let head := device.outHeadSaved
  let tail := device.outTailSaved
  if head < tail then tail - head - 1 else device.outRing.buffSize + tail - head - 1

def dpramTtyCharsInBuffer (device : DpramDevice) : Int :=
  let head := device.outHeadSaved
  let tail := device.outTailSaved
  if tail < head then head - tail - 1 else device.outRing.buffSize - tail + head

open List BitVec

variable {m k : Nat → UInt8} {a dest src : Nat}

theorem wordBytes_low (a b : BitVec 16) : wordBytes ((a &&& 0xFF00#16) ||| (b &&& 0x00FF#16)) =
      [⟨b.extractLsb' 0 8⟩, ⟨a.extractLsb' 8 8⟩] := by
  have h0 : extractLsb' 0 8 0xFF00#16 = 0#8 := rfl
  have h1 : extractLsb' 8 8 0xFF00#16 = allOnes 8 := rfl
  have h2 : extractLsb' 0 8 0x00FF#16 = allOnes 8 := rfl
  have h3 : extractLsb' 8 8 0x00FF#16 = 0#8 := rfl
  rw [wordBytes, extractLsb'_or, extractLsb'_or]
  simp only [extractLsb'_and, h0, h1, h2, h3, and_allOnes, and_zero, zero_or, or_zero]

theorem wordBytes_high (a b : BitVec 16) : wordBytes ((a &&& 0x00FF#16) ||| (b &&& 0xFF00#16)) =
      [⟨a.extractLsb' 0 8⟩, ⟨b.extractLsb' 8 8⟩] := by
  rw [BitVec.or_comm, wordBytes_low]

theorem shiftRight_low (b : BitVec 16) : (b >>> 8).extractLsb' 0 8 = b.extractLsb' 8 8 := by
  ext i hi
  simp

theorem shiftLeft_high (b : BitVec 16) : (b <<< 8).extractLsb' 8 8 = b.extractLsb' 0 8 := by
  ext i hi
  simp
  omega

theorem word_low (m : Nat → UInt8) (a : Nat) : (word m a).extractLsb' 0 8 = (m a).toBitVec :=
  extractLsb'_append_eq_right

theorem word_high (m : Nat → UInt8) (a : Nat) : (word m a).extractLsb' 8 8 = (m (a + 1)).toBitVec :=
  extractLsb'_append_eq_left

theorem bytePair_eq (k : Nat → UInt8) : bytePair k = word k := by
  funext src
  rw [bytePair, word, BitVec.or_comm, append_def, shiftLeftZeroExtend_eq, setWidth'_eq]

theorem wordBytes_word (m : Nat → UInt8) (a : Nat) : wordBytes (word m a) = load m a 2 := by
  rw [wordBytes, word_low, word_high]
  rfl

theorem append_extract (w : BitVec 16) : w.extractLsb' 8 8 ++ w.extractLsb' 0 8 = w := by
  apply eq_of_getLsbD_eq
  intro i hi
  rw [getLsbD_append]
  split
  next h => simp [h]
  next h => simp [show i - 8 < 8 by omega, Nat.add_sub_cancel' (Nat.not_lt.mp h)]

theorem load_setWord (m : Nat → UInt8) (a : Nat) (w : BitVec 16) :
    load (setWord m a w) a 2 = wordBytes w :=
  load_store (wordBytes w)

theorem setWord_outside (h : b < a ∨ a + 2 ≤ b) : setWord m a w b = m b :=
  store_outside h

theorem word_setWord (m : Nat → UInt8) (a : Nat) (w : BitVec 16) : word (setWord m a w) a = w := by
  have h := load_setWord m a w
  rw [← wordBytes_word] at h
  simp only [wordBytes, cons.injEq, UInt8.ofBitVec.injEq, and_true] at h
  rw [← append_extract (word _ a), h.1, h.2, append_extract]

theorem store_keep_right (m : Nat → UInt8) (a : Nat) (x : UInt8) :
    store m a [x, m (a + 1)] = store m a [x] := by
  have hkept : store m a [x] (a + 1) = m (a + 1) := store_outside (.inr (Nat.le_refl _))
  have hself := store_load (store m a [x]) (a + 1) 1
  have hload : load (store m a [x]) (a + 1) 1 = [m (a + 1)] := by simp [load, hkept]
  rw [hload] at hself
  exact (store_append m a [x] [m (a + 1)]).trans hself

theorem store_keep_left (m : Nat → UInt8) (a : Nat) (x : UInt8) :
    store m a [m a, x] = store m (a + 1) [x] := by
  have hself : store m a [m a] = m := store_load m a 1
  have happ := store_append m a [m a] [x]
  rwa [hself] at happ

theorem byteAlign_eq (m : Nat → UInt8) (dest : Nat) (k : Nat → UInt8) (src : Nat) :
    byteAlign m dest k src = store m dest [k src] := by
  have hpred : ∀ {a : Nat}, a % 2 = 1 → a - 1 + 1 = a := fun {a} h => by omega
  unfold byteAlign setWord
  split
  next h =>
    rw [wordBytes_low, word_low, word_high]
    exact store_keep_right m dest (k src)
  next h =>
    split
    next h' =>
      rw [wordBytes_high, word_low, word_high, hpred h'.2]
      have hkeep := store_keep_left m (dest - 1) (k src)
      rwa [hpred h'.1] at hkeep
    next h' =>
      split
      next hd =>
        rw [wordBytes_low, shiftRight_low, word_high, word_high, hpred (by omega)]
        exact store_keep_right m dest (k src)
      next hd =>
        rw [wordBytes_high, shiftLeft_high, word_low, word_low]
        have hkeep := store_keep_left m (dest - 1) (k src)
        rwa [hpred (by omega)] at hkeep

theorem copyLoop_eq (n : Nat) (m : Nat → UInt8) (dest src : Nat) :
    copyLoop (word k) n m dest src = store m dest (load k src (2 * n)) := by
  induction n generalizing m dest src with
  | zero => simp [copyLoop, load]
  | succ n ih =>
    have hsplit : 2 * (n + 1) = 2 + 2 * n := by omega
    rw [copyLoop, ih, setWord, wordBytes_word, hsplit, load_append, store_append, load_length]

theorem memcpyEven_eq (m : Nat → UInt8) (dest : Nat) (k : Nat → UInt8) (src size : Nat) :
    memcpyEven m dest k src size = store m dest (load k src size) := by
  simp only [memcpyEven, bytePair_eq, ite_self, copyLoop_eq]
  split
  next h =>
    have hsize : size = 2 * ((size - 1) / 2) + 1 := by omega
    generalize (size - 1) / 2 = n at hsize ⊢
    subst hsize
    have hd : dest + (2 * n + 1) - 1 = dest + 2 * n := rfl
    have hs : src + (2 * n + 1) - 1 = src + 2 * n := rfl
    rw [byteAlign_eq, hd, load_append, store_append, load_length,
      store_comm (.inr (by rw [load_length]))]
    rfl
  next h =>
    have hsize : 2 * (size / 2) = size := by omega
    simp only [hsize]

theorem memcpy_eq (m : Nat → UInt8) (dest : Nat) (k : Nat → UInt8) (src : Nat) (size : Int) :
    memcpy true m dest k src size = store m dest (load k src size.toNat) := by
  unfold memcpy
  split
  next h =>
    have h0 : size.toNat = 0 := by
      simpa using h
    rw [h0]
    exact (store_nil m dest).symm
  next h =>
    obtain ⟨n, hn⟩ : ∃ n, size.toNat = 1 + n := by
      exact ⟨size.toNat - 1, by omega⟩
    rw [hn, memcpyEven_eq, memcpyEven_eq, byteAlign_eq, Nat.add_sub_cancel_left]
    split
    next => rw [load_append, store_append]; rfl
    next => rfl

theorem memcmp_eq (h : load m dest size = load k src size) :
    memcmp true m dest k src size = false := by
  have hcell : ∀ i, i < size → m (dest + i) = k (src + i) := by
    intro i hi
    have hget : (load m dest size)[i]? = some (m (dest + i)) := load_getElem? hi
    rw [h, load_getElem? hi] at hget
    exact (Option.some.inj hget).symm
  simp only [memcmp, Bool.not_true, Bool.false_or, List.any_eq_false, mem_range,
    decide_eq_true_eq, Decidable.not_not]
  intro i hi
  rw [word, word, hcell (2 * i) (by omega), Nat.add_assoc, hcell (2 * i + 1) (by omega),
    Nat.add_assoc]

theorem load_localWord (w : Nat) : load (localWord w) 0 2 = wordBytes (BitVec.ofNat 16 w) :=
  load_setWord _ _ _

theorem writeToDpramVerify_eq (m : Nat → UInt8) (dest w : Nat) :
    writeToDpramVerify m dest w = setWord m dest (BitVec.ofNat 16 w) := by
  have hcopy : memcpy true m dest (localWord w) 0 (2 : Nat) =
      setWord m dest (BitVec.ofNat 16 w) := by
    rw [memcpy_eq]
    exact congrArg (store m dest) (load_localWord w)
  have hcmp : memcmp true (setWord m dest (BitVec.ofNat 16 w)) dest (localWord w) 0 2 = false := by
    apply memcmp_eq
    rw [load_localWord, load_setWord]
  rw [writeToDpramVerify, verifyLoop]
  simp only [hcopy, hcmp, if_true]

theorem readFromDpramVerify_eq (m : Nat → UInt8) (src : Nat) :
    readFromDpramVerify m src = (word m src).toNat := by
  have hcopy : memcpy true (localWord 0) 0 m src (2 : Nat) =
      setWord (localWord 0) 0 (word m src) := by
    rw [memcpy_eq, setWord, wordBytes_word]
    rfl
  have hcmp : memcmp true (setWord (localWord 0) 0 (word m src)) 0 m src 2 = false := by
    apply memcmp_eq
    rw [← wordBytes_word m, load_setWord]
  rw [readFromDpramVerify, verifyLoop]
  simp only [hcopy, hcmp, if_true, word_setWord]

/-- The loops of `_memcpy` where both addresses are in one memory. -/
def copyLoopIn (fetch : (Nat → UInt8) → Nat → BitVec 16) : Nat → (Nat → UInt8) → Nat → Nat →
    Nat → UInt8
  | 0, m, _, _ => m
  | size + 1, m, dest, src =>
    copyLoopIn fetch size (setWord m dest (fetch m src)) (dest + 2) (src + 2)

def memcpyEvenIn (m : Nat → UInt8) (dest src size : Nat) : Nat → UInt8 :=
  let (m, size) := if size % 2 = 1
    then (byteAlign m (dest + size - 1) m (src + size - 1), size - 1) else (m, size)
  if src % 2 = 1 then copyLoopIn bytePair (size / 2) m dest src
  else copyLoopIn word (size / 2) m dest src

/-- `_memcpy` within the memory `m`. -/
def memcpyIn (onedramSem : Bool) (m : Nat → UInt8) (dest src : Nat) (size : Int) : Nat → UInt8 :=
  if onedramSem = false ∨ size ≤ 0 then m
  else if dest % 2 = 1 then
    memcpyEvenIn (byteAlign m dest m src) (dest + 1) (src + 1) (size.toNat - 1)
  else memcpyEvenIn m dest src size.toNat

theorem copyLoopIn_eq (m : Nat → UInt8) (h : dest + 2 * n ≤ src ∨ src + 2 * n ≤ dest) :
    copyLoopIn word n m dest src = store m dest (load m src (2 * n)) := by
  induction n generalizing m dest src with
  | zero => simp [copyLoopIn, load]
  | succ n ih =>
    have hsplit : 2 * (n + 1) = 2 + 2 * n := by omega
    have hkeep : load (store m dest (load m src 2)) (src + 2) (2 * n) = load m (src + 2) (2 * n) :=
      load_store_apart (by rw [load_length]; omega)
    rw [copyLoopIn, ih _ (by omega), setWord, wordBytes_word, hkeep, hsplit, load_append,
      store_append, load_length]

theorem memcpyEvenIn_eq (m : Nat → UInt8) (h : dest + size ≤ src ∨ src + size ≤ dest) :
    memcpyEvenIn m dest src size = memcpyEven m dest m src size := by
  have hpair : bytePair = word := funext bytePair_eq
  simp only [memcpyEvenIn, memcpyEven, hpair, ite_self, copyLoop_eq, byteAlign_eq]
  split
  next hodd =>
    dsimp only
    rw [copyLoopIn_eq _ (by omega), load_store_apart (by rw [length_singleton]; omega)]
  next heven => exact copyLoopIn_eq m (by omega)

theorem memcpyIn_eq (m : Nat → UInt8) (h : dest + size.toNat ≤ src ∨ src + size.toNat ≤ dest) :
    memcpyIn true m dest src size = memcpy true m dest m src size := by
  rw [memcpyIn, memcpy]
  split
  next hsize => rfl
  next hsize =>
    have hpos : 0 < size.toNat := by omega
    rw [memcpyEvenIn_eq _ (by omega), memcpyEvenIn_eq _ (by omega), byteAlign_eq]
    simp only [memcpyEven_eq]
    rw [load_store_apart (by rw [length_singleton]; omega)]

theorem memcpy_copies_region (m : Nat → UInt8) (size : Nat)
    (h : dest + size ≤ src ∨ src + size ≤ dest) :
    (∀ i, i < size → memcpyIn true m dest src size (dest + i) = m (src + i)) ∧
      (∀ a, a < dest ∨ dest + size ≤ a → memcpyIn true m dest src size a = m a) ∧
      memcpyIn false m dest src size = m := by
  rw [memcpyIn_eq m (by simpa using h), memcpy_eq]
  refine ⟨fun i hi => ?_, fun a ha => ?_, if_pos (.inl rfl)⟩
  · have hcell : some (store m dest (load m src size) (dest + i)) = (load m src size)[i]? :=
      store_inside (by rwa [load_length])
    rw [load_getElem? hi] at hcell
    exact Option.some.inj hcell
  · exact store_outside (by rwa [load_length])

/-- An odd edge whose other byte belongs to the source. -/
theorem memcpy_copies_region_touching : memcpyIn true UInt8.ofNat 5 2 (3 : Nat) 5 = 2 ∧
      memcpyIn true UInt8.ofNat 5 2 (3 : Nat) 4 = 4 := by
  have h := @memcpy_copies_region 5 2 UInt8.ofNat 3 (by decide)
  exact ⟨h.1 0 (by decide), h.2.1 4 (by decide)⟩

/-- Without the semaphore nothing is copied. -/
theorem memcpy_without_semaphore : memcpyIn false UInt8.ofNat 5 2 (3 : Nat) 5 ≠ UInt8.ofNat 2 := by
  decide

end

open List

section

variable {m m' k : Nat → UInt8} {r : Ring} {H : List UInt8} {p buf len : Nat} {s : State}

/-- The number of bytes from the tail of a ring of `n` cells to its head. -/
def occupied (n head tail : Nat) : Nat :=
  if tail ≤ head then head - tail else n - tail + head

namespace Ring

def cells (r : Ring) (m : Nat → UInt8) : Nat → UInt8 := fun i => m (r.buffAddr + i)

def used (r : Ring) (m : Nat → UInt8) : Nat := occupied r.buffSize (r.head m) (r.tail m)

def contents (r : Ring) (m : Nat → UInt8) : List UInt8 :=
  loadRing r.buffSize (r.cells m) (r.tail m) (r.used m)

structure Apart (r : Ring) : Prop where
  indices : r.headAddr + 2 ≤ r.tailAddr ∨ r.tailAddr + 2 ≤ r.headAddr
  head : r.headAddr + 2 ≤ r.buffAddr ∨ r.buffAddr + r.buffSize ≤ r.headAddr
  tail : r.tailAddr + 2 ≤ r.buffAddr ∨ r.buffAddr + r.buffSize ≤ r.tailAddr

/-- The ring holds what the stream `H` has had from its position `p` on, with one cell to spare. -/
structure Queue (r : Ring) (m : Nat → UInt8) (H : List UInt8) (p : Nat) : Prop where
  holds : Holds r.buffSize (r.cells m) H p
  room : H.length < p + r.buffSize
  head : r.head m = H.length % r.buffSize
  tail : r.tail m = p % r.buffSize

end Ring

theorem word_congr (h : m a = m' a) (h' : m (a + 1) = m' (a + 1)) : word m a = word m' a := by
  rw [word, word, h, h']

theorem word_store (h : a + 2 ≤ off ∨ off + bs.length ≤ a) : word (store m off bs) a = word m a :=
  word_congr (store_outside (by omega)) (store_outside (by omega))

theorem Ring.head_eq (r : Ring) (m : Nat → UInt8) : r.head m = (word m r.headAddr).toNat :=
  readFromDpramVerify_eq m r.headAddr

theorem Ring.tail_eq (r : Ring) (m : Nat → UInt8) : r.tail m = (word m r.tailAddr).toNat :=
  readFromDpramVerify_eq m r.tailAddr

theorem toNat_setWord (m : Nat → UInt8) (a : Nat) (h : w < 65536) :
    (word (setWord m a (BitVec.ofNat 16 w)) a).toNat = w := by
  rw [word_setWord]
  exact Nat.mod_eq_of_lt h

theorem cells_store (r : Ring) (m : Nat → UInt8) (off : Nat) (bs : List UInt8) :
    r.cells (store m (r.buffAddr + off) bs) = store (r.cells m) off bs := by
  funext i
  simp [Ring.cells, store, Nat.add_sub_add_left]

theorem cells_store_apart (h : a + bs.length ≤ r.buffAddr ∨ r.buffAddr + r.buffSize ≤ a)
    (hi : i < r.buffSize) : r.cells (store m a bs) i = r.cells m i :=
  store_outside (by omega)

namespace Ring.Queue

section Reading

variable (h : r.Queue m H p)
include h

theorem pos : 0 < r.buffSize := by
  have := h.room
  have := h.holds.le
  omega

theorem head_lt : r.head m < r.buffSize := h.head ▸ Nat.mod_lt _ h.pos

theorem tail_lt : r.tail m < r.buffSize := h.tail ▸ Nat.mod_lt _ h.pos

theorem used : r.used m = H.length - p := by
  rw [Ring.used, h.head, h.tail]
  exact ring_distance h.pos h.holds.le h.room

theorem fits_iff : n ≤ r.buffSize - 1 - r.used m ↔ H.length + n < p + r.buffSize := by
  have hroom := h.room
  have hle := h.holds.le
  rw [h.used]
  omega

theorem within_iff : n ≤ r.used m ↔ p + n ≤ H.length := by
  have hle := h.holds.le
  rw [h.used]
  omega

theorem contents : r.contents m = H.drop p := by
  have hroom := h.room
  have hle := h.holds.le
  have htail := h.tail_lt
  rw [Ring.contents, h.used, h.holds.loadRing (by omega) (by omega) (by omega)
    (by rw [h.tail, Nat.mod_mod])]
  exact take_of_length_le (by rw [length_drop])

theorem frame (hc : ∀ i, i < r.buffSize → r.cells m' i = r.cells m i)
    (hh : word m' r.headAddr = word m r.headAddr) (ht : word m' r.tailAddr = word m r.tailAddr) :
    r.Queue m' H p where
  holds := h.holds.of_cells hc
  room := h.room
  head := by rw [Ring.head_eq, hh, ← Ring.head_eq, h.head]
  tail := by rw [Ring.tail_eq, ht, ← Ring.tail_eq, h.tail]

end Reading

theorem empty (hempty : r.head m = r.tail m) (htail : r.tail m < r.buffSize) :
    r.Queue m (List.replicate (r.tail m) 0) (r.tail m) where
  holds := by
    refine ⟨by simp, by simp, ?_⟩
    intro q hle hlt
    rw [length_replicate] at hlt
    omega
  room := by rw [length_replicate]; omega
  head := by rw [length_replicate, hempty, Nat.mod_eq_of_lt htail]
  tail := (Nat.mod_eq_of_lt htail).symm

theorem advance (h : r.Queue m H p) (hA : r.Apart) (hsize : r.buffSize ≤ 65536)
    (hq : p + q ≤ H.length) :
    r.Queue (setWord m r.tailAddr (BitVec.ofNat 16 ((p + q) % r.buffSize))) H (p + q) where
  holds := by
    apply (h.holds.mono (Nat.le_add_right p q) hq).of_cells
    intro i hi
    exact cells_store_apart hA.tail hi
  room := by
    have := h.room
    omega
  head := by
    rw [Ring.head_eq, setWord, word_store hA.indices, ← Ring.head_eq, h.head]
  tail := by
    have hlt := Nat.mod_lt (p + q) h.pos
    rw [Ring.tail_eq, toNat_setWord m r.tailAddr (by omega)]

theorem extend (h : r.Queue m H p) (hA : r.Apart)
    (hsize : r.buffSize ≤ 65536) (hroom : H.length + data.length < p + r.buffSize)
    (hcells : r.cells m' = storeRing r.buffSize (r.cells m) (r.head m) data)
    (htail : word m' r.tailAddr = word m r.tailAddr) :
    r.Queue (setWord m' r.headAddr (BitVec.ofNat 16 ((H.length + data.length) % r.buffSize)))
      (H ++ data) p where
  holds := by
    have hhead := h.head_lt
    have hstored := h.holds.storeRing (Nat.le_of_lt hroom) (Nat.le_of_lt hhead)
      (by rw [h.head, Nat.mod_mod])
    rw [← hcells] at hstored
    apply hstored.of_cells
    intro i hi
    exact cells_store_apart hA.head hi
  room := by rwa [length_append]
  head := by
    have hlt := Nat.mod_lt (H.length + data.length) h.pos
    rw [Ring.head_eq, toNat_setWord m' r.headAddr (by omega), length_append]
  tail := by
    rw [Ring.tail_eq, setWord, word_store (hA.indices.symm), htail, ← Ring.tail_eq, h.tail]

end Ring.Queue

theorem u16_eq {x : Int} {n : Nat} (h : x = n) (hn : n < 65536) : u16 x = n := by
  rw [u16]
  omega

theorem Ring.Queue.freesize (h : r.Queue m H p) (hsize : r.buffSize ≤ 32768) :
    r.freesize m = r.buffSize - 1 - r.used m := by
  have hhead := h.head_lt
  have htail := h.tail_lt
  unfold Ring.freesize Ring.used occupied
  split
  next hlt =>
    rw [if_neg (Nat.not_le.mpr hlt)]
    exact u16_eq (by omega) (by omega)
  next hge =>
    rw [if_pos (Nat.not_lt.mp hge)]
    exact u16_eq (by omega) (by omega)

theorem writeParts_spec (h : r.Queue m H p) (hsize : r.buffSize ≤ 32768)
    (hroom : H.length + len < p + r.buffSize) :
    ∃ mem, writeParts r m k buf len = (mem, (H.length + len) % r.buffSize, (len : Int)) ∧
      r.cells mem = storeRing r.buffSize (r.cells m) (r.head m) (load k buf len) ∧
      ∀ a, a + 2 ≤ r.buffAddr ∨ r.buffAddr + r.buffSize ≤ a → word mem a = word m a := by
  have hle := h.holds.le
  have hlt := h.head_lt
  have hnext : u16 (r.head m + len) = r.head m + len := u16_eq (by omega) (by omega)
  have hmod : (H.length + len) % r.buffSize = (r.head m + len) % r.buffSize := by
    rw [h.head, Nat.mod_add_mod]
  simp only [writeParts, hnext, memcpy_eq]
  split
  next hfit =>
    refine ⟨store m (r.buffAddr + r.head m) (load k buf len), ?_, ?_, ?_⟩
    · rw [hmod, Nat.mod_eq_of_lt hfit, Int.toNat_natCast]
    · rw [cells_store, storeRing, take_of_length_le (by rw [load_length]; omega),
        drop_of_length_le (by rw [load_length]; omega), store_nil]
    · intro a ha
      exact word_store (by rw [load_length]; omega)
  next hwrap =>
    have hwrapped : u16 ((r.head m + len : Nat) - r.buffSize) = r.head m + len - r.buffSize :=
      u16_eq (by omega) (by omega)
    have hsub : ((r.buffSize : Int) - r.head m).toNat = r.buffSize - r.head m := by omega
    have hbuf : ((buf : Int) + (r.buffSize - r.head m)).toNat = buf + (r.buffSize - r.head m) := by
      omega
    have hdata : load k buf len = load k buf (r.buffSize - r.head m) ++
        load k (buf + (r.buffSize - r.head m)) (r.head m + len - r.buffSize) := by
      rw [← load_append]
      congr 1
      omega
    rw [hwrapped, hsub, hbuf]
    refine ⟨store (store m (r.buffAddr + r.head m) (load k buf (r.buffSize - r.head m))) r.buffAddr
      (load k (buf + (r.buffSize - r.head m)) (r.head m + len - r.buffSize)), ?_, ?_, ?_⟩
    · rw [hmod, Nat.mod_eq_sub_mod (Nat.not_lt.mp hwrap), Nat.mod_eq_of_lt (by omega)]
      congr 2
      omega
    · rw [hdata, storeRing_append (by rw [length_append, load_length]; omega),
        ← cells_store, ← cells_store, Nat.add_zero]
    · intro a ha
      rw [word_store (by rw [load_length]; omega), word_store (by rw [load_length]; omega)]

theorem dpramWrite_spec (h : s.device.outRing.Queue s.mem H p) (hA : s.device.outRing.Apart)
    (hsize : s.device.outRing.buffSize ≤ 32768)
    (hroom : H.length + len < p + s.device.outRing.buffSize) :
    ∃ mem, dpramWrite s true k buf len = some ({ s with
        mem := mem
        device := { s.device with
          outHeadSaved := (H.length + len) % s.device.outRing.buffSize
          outTailSaved := s.device.outRing.tail s.mem } }, (len : Int)) ∧
      s.device.outRing.Queue mem (H ++ load k buf len) p := by
  obtain ⟨mem, hparts, hcells, hword⟩ := writeParts_spec h hsize hroom
  have hfree : len ≤ s.device.outRing.freesize s.mem := by
    rw [h.freesize hsize]
    exact h.fits_iff.mpr hroom
  refine ⟨_, ?_, h.extend hA (by omega) (by rwa [load_length]) hcells (hword _ hA.tail)⟩
  rw [dpramWrite, if_neg (by simp)]
  simp [hfree, hparts, writeToDpramVerify_eq]

/-- What happens to the ring to the phone: writes, and steps of the phone past bytes it has read. -/
inductive OutOp where
  | write (onedramSem : Bool) (k : Nat → UInt8) (buf len : Nat)
  | consume (n : Nat)

/-- The device with the bytes that writes have had in all, and the number of those consumed. -/
structure OutTraffic where
  state : State
  written : List UInt8
  consumed : Nat

def State.consume (s : State) (n : Nat) : State :=
  let r := s.device.outRing
  { s with mem := setWord s.mem r.tailAddr (BitVec.ofNat 16 ((r.tail s.mem + n) % r.buffSize)) }

theorem Ring.Queue.consume (h : s.device.outRing.Queue s.mem H p) (hA : s.device.outRing.Apart)
    (hsize : s.device.outRing.buffSize ≤ 65536) (hn : n ≤ s.device.outRing.used s.mem) :
    s.device.outRing.Queue (s.consume n).mem H (p + n) := by
  have hq := h.advance hA hsize (h.within_iff.mp hn)
  rwa [← Nat.mod_add_mod, ← h.tail] at hq

def OutTraffic.step (t : OutTraffic) : OutOp → Option OutTraffic
  | .write onedramSem k buf len => (dpramWrite t.state onedramSem k buf len).map fun res =>
    ⟨res.1, if onedramSem then t.written ++ load k buf len else t.written, t.consumed⟩
  | .consume n => some ⟨t.state.consume n, t.written, t.consumed + n⟩

def OutTraffic.Fits (t : OutTraffic) : OutOp → Prop
  | .write _ _ _ len => len ≤ t.state.device.outRing.buffSize - 1 -
      t.state.device.outRing.used t.state.mem
  | .consume n => n ≤ t.state.device.outRing.used t.state.mem

structure OutTraffic.Inv (r : Ring) (H₀ : List UInt8) (t : OutTraffic) : Prop where
  ring : t.state.device.outRing = r
  queue : r.Queue t.state.mem (H₀ ++ t.written) (H₀.length + t.consumed)

theorem OutTraffic.Inv.step {t : OutTraffic} (hA : r.Apart)
    (hsize : r.buffSize ≤ 32768) (h : t.Inv r H₀) (hg : t.Fits op) :
    ∃ t', t.step op = some t' ∧ t'.Inv r H₀ := by
  obtain ⟨hr, hq⟩ := h
  subst hr
  cases op with
  | write onedramSem k buf len =>
    cases onedramSem with
    | false => exact ⟨_, rfl, rfl, hq⟩
    | true =>
      obtain ⟨mem, hw, hq'⟩ := dpramWrite_spec hq hA hsize (hq.fits_iff.mp hg)
      rw [OutTraffic.step, hw]
      exact ⟨_, rfl, rfl, by simpa [List.append_assoc] using hq'⟩
  | consume n =>
    have hq' := hq.consume hA (by omega) hg
    rw [Nat.add_assoc] at hq'
    exact ⟨_, rfl, rfl, hq'⟩

theorem OutTraffic.Inv.run (hA : r.Apart)
    (hsize : r.buffSize ≤ 32768) (h : Run OutTraffic.Fits OutTraffic.step t ops t')
    (ht : t.Inv r H₀) : t'.Inv r H₀ := by
  apply h.invariant ?_ ht
  intro t op t' hi hg hs
  obtain ⟨t'', hs', hi'⟩ := hi.step hA hsize hg
  rw [hs] at hs'
  exact Option.some.inj hs' ▸ hi'

/-- The ring to the phone is a FIFO queue of the bytes written, and a write that fits ends. -/
theorem dpram_out_ring_is_fifo {s₀ : State} {ops : List OutOp} {t : OutTraffic}
    (hr : s₀.device.outRing = r) (hA : r.Apart) (hsize : r.buffSize ≤ 32768)
    (hempty : r.head s₀.mem = r.tail s₀.mem) (htail : r.tail s₀.mem < r.buffSize)
    (h : Run OutTraffic.Fits OutTraffic.step ⟨s₀, [], 0⟩ ops t) :
    r.head t.state.mem < r.buffSize ∧ r.tail t.state.mem < r.buffSize ∧
      r.contents t.state.mem = t.written.drop t.consumed ∧
      (t.written.drop t.consumed).length ≤ r.buffSize - 1 ∧
      ∀ op, t.Fits op → ∃ t', t.step op = some t' := by
  have hI : t.Inv r (List.replicate (r.tail s₀.mem) 0) :=
    .run hA hsize h ⟨hr, by simpa using Ring.Queue.empty hempty htail⟩
  have hcontents := hI.queue.contents
  have hroom := hI.queue.room
  refine ⟨hI.queue.head_lt, hI.queue.tail_lt, ?_, ?_, ?_⟩
  · rw [hcontents, drop_append, drop_of_length_le (Nat.le_add_right _ _),
      Nat.add_sub_cancel_left, nil_append]
  · rw [length_append] at hroom
    rw [length_drop]
    omega
  · intro op hg
    obtain ⟨t', hs, -⟩ := hI.step hA hsize hg
    exact ⟨t', hs⟩

def formattedDevice : DpramDevice where
  inRing := ⟨16376, 16378, 16380, 1020⟩
  outRing := ⟨4, 6, 8, 1020⟩
  outHeadSaved := 0
  outTailSaved := 0
  ttyIndex := 0

def sampleState : State := ⟨fun _ => 0, formattedDevice, []⟩

theorem formattedDevice_apart : formattedDevice.outRing.Apart := by
  constructor
  all_goals decide

theorem dpram_out_ring_is_fifo_sample :
    ∃ t, Run OutTraffic.Fits OutTraffic.step ⟨sampleState, [], 0⟩
        [.write true (fun i => UInt8.ofNat i) 7 3] t ∧
      formattedDevice.outRing.contents t.state.mem = [7, 8, 9] := by
  have hstep : (OutTraffic.step ⟨sampleState, [], 0⟩
      (.write true (UInt8.ofNat) 7 3)).map (fun t => (t.written, t.consumed)) =
      some ([7, 8, 9], 0) := by decide +kernel
  obtain ⟨t, hs, ht⟩ := Option.map_eq_some_iff.mp hstep
  obtain ⟨hwritten, hconsumed⟩ := Prod.mk.inj ht
  have hfits : OutTraffic.Fits ⟨sampleState, [], 0⟩ (.write true (UInt8.ofNat) 7 3) := by
    show 3 ≤ formattedDevice.outRing.buffSize - 1 - formattedDevice.outRing.used sampleState.mem
    decide +kernel
  have hrun : Run OutTraffic.Fits OutTraffic.step ⟨sampleState, [], 0⟩
      [.write true (UInt8.ofNat) 7 3] t := .cons hfits hs (.nil t)
  obtain ⟨-, -, hcontents, -⟩ := dpram_out_ring_is_fifo rfl formattedDevice_apart (by decide)
    (by decide +kernel) (by decide +kernel) hrun
  refine ⟨t, hrun, hcontents.trans ?_⟩
  rw [hwritten, hconsumed, drop_zero]

end

/-- The OneDRAM, `*onedram_sem`, not set for the phone, `onedram_lock` and `requested_semaphore`.-/
structure Onedram where
  state : State
  onedramSem : Bool
  onedramLock : Int
  requestedSemaphore : Nat

namespace Onedram

def returnSemaphore (o : Onedram) : Onedram :=
  if o.onedramLock = 0 then { o with onedramSem := false }
  else { o with requestedSemaphore := o.requestedSemaphore + 1 }

def indices (o : Onedram) (a : Nat) : Prop :=
  (o.state.device.outRing.headAddr ≤ a ∧ a < o.state.device.outRing.headAddr + 2) ∨
    (o.state.device.outRing.tailAddr ≤ a ∧ a < o.state.device.outRing.tailAddr + 2)

instance (o : Onedram) (a : Nat) : Decidable (o.indices a) := by
  unfold indices
  infer_instance

/-- The phone leaves the memory `m`; without the semaphore it does not move its tail. -/
def phone (o : Onedram) (m : Nat → UInt8) : Onedram :=
  { o with state.mem := fun a => if o.onedramSem ∧ o.indices a then o.state.mem a else m a }

end Onedram

/-- While `dpram_write` goes round the phone writes, gives the semaphore away or asks for it. -/
inductive Meanwhile where
  | phone (m : Nat → UInt8)
  | gives
  | asks

def Onedram.meanwhile (o : Onedram) : Meanwhile → Onedram
  | .phone m => o.phone m
  | .gives => { o with onedramSem := true }
  | .asks => o.returnSemaphore

/-- While the lock is held the ring to the phone is `dpram_write`'s own. -/
structure Onedram.Owns (o : Onedram) (r : Ring) (hd tl : Nat) : Prop where
  sem : o.onedramSem = true
  lock : o.onedramLock ≠ 0
  ring : o.state.device.outRing = r
  head : r.head o.state.mem = hd
  tail : r.tail o.state.mem = tl

theorem Onedram.Owns.meanwhile (h : Owns o r hd tl) (op : Meanwhile) :
    (o.meanwhile op).Owns r hd tl := by
  obtain ⟨hsem, hlock, rfl, rfl, rfl⟩ := h
  cases op with
  | phone m =>
    refine ⟨hsem, hlock, rfl, ?_, ?_⟩
    · rw [Ring.head_eq, Ring.head_eq]
      congr 1
      apply word_congr <;> exact if_pos ⟨hsem, .inl (by omega)⟩
    · rw [Ring.tail_eq, Ring.tail_eq]
      congr 1
      apply word_congr <;> exact if_pos ⟨hsem, .inr (by omega)⟩
  | gives => exact ⟨rfl, hlock, rfl, rfl, rfl⟩
  | asks =>
    rw [Onedram.meanwhile, returnSemaphore, if_neg hlock]
    exact ⟨hsem, hlock, rfl, rfl, rfl⟩

theorem Onedram.Owns.foldl (h : Owns o r hd tl) (ops : List Meanwhile) :
    (ops.foldl Onedram.meanwhile o).Owns r hd tl := by
  induction ops generalizing o with
  | nil => exact h
  | cons op ops ih => exact ih (h.meanwhile op)

theorem Onedram.Owns.freesize (h : Owns o r hd tl) (h' : Owns o' r hd tl) :
    o.state.device.outRing.freesize o.state.mem =
      o'.state.device.outRing.freesize o'.state.mem := by
  rw [Ring.freesize, Ring.freesize, h.ring, h'.ring, h.head, h'.head, h.tail, h'.tail]

/-- The freesize that `dpram_write` computes from a head and a tail. -/
def Ring.freeFrom (r : Ring) (head tail : Nat) : Nat :=
  if head < tail then u16 (tail - head - 1) else u16 (r.buffSize - head + tail - 1)

theorem Ring.head_lt (r : Ring) (m : Nat → UInt8) : r.head m < 65536 := by
  rw [Ring.head_eq]
  exact (word m r.headAddr).isLt

/-- The indices of a ring lie before its buffer, as they do in both rings to the phone. -/
structure Ring.Ordered (r : Ring) : Prop where
  head : r.headAddr + 2 ≤ r.tailAddr
  tail : r.tailAddr + 2 ≤ r.buffAddr

/-- The bytes fit at each head that `dpram_write` comes to: from one to the next the sum of head and
length has wrapped around and is still behind the end. -/
def WriteEnds (r : Ring) (head tail len : Nat) : Prop :=
  ∀ j, j ≤ head / (65536 + r.buffSize - len) →
    len ≤ r.freeFrom (head - j * (65536 + r.buffSize - len)) tail

theorem WriteEnds.here (h : WriteEnds r hd tl len) : len ≤ r.freeFrom hd tl := by
  have hzero := h 0 (Nat.zero_le _)
  rwa [Nat.zero_mul, Nat.sub_zero] at hzero

theorem WriteEnds.below (hlen : len < 65536) (hle : 65536 + r.buffSize - len ≤ hd)
    (hfree : len ≤ r.freeFrom hd tl) :
    WriteEnds r (hd - (65536 + r.buffSize - len)) tl len ↔ WriteEnds r hd tl len := by
  have hpos : 0 < 65536 + r.buffSize - len := by omega
  have hdiv := Nat.div_eq_sub_div hpos hle
  have hhd (j : Nat) : hd - (65536 + r.buffSize - len) - j * (65536 + r.buffSize - len)
      = hd - (j + 1) * (65536 + r.buffSize - len) := by
    rw [Nat.succ_mul, Nat.sub_sub, Nat.add_comm]
  unfold WriteEnds
  simp only [hhd]
  constructor
  · intro h j hj
    cases j with
    | zero => rwa [Nat.zero_mul, Nat.sub_zero]
    | succ j => exact h j (by omega)
  · intro h j hj
    exact h (j + 1) (by omega)

end SpicaKernel.Dpram
