import SpicaKernel.Memory

namespace SpicaKernel.RamConsole
open List
set_option autoImplicit true

/-- The parity of a block, and the decoding of a block and its parity, with the number of errors. -/
structure Ecc where
  blockSize : Nat
  eccSize : Nat
  encodeRs8 : List UInt8 → List UInt8
  decodeRs8 : List UInt8 → List UInt8 → List UInt8 × Int
  pow : ∃ k, blockSize = 2 ^ k
  encode_length : ∀ block, (encodeRs8 block).length = eccSize

theorem Ecc.blockSize_pos (ecc : Ecc) : 0 < ecc.blockSize := by
  obtain ⟨k, hk⟩ := ecc.pow
  rw [hk]
  exact Nat.two_pow_pos k

/-- `ram_console_buffer_size`, and the error correction if it is configured. -/
structure Config where
  bufferSize : Nat
  ecc : Option Ecc

/-- `struct ram_console_buffer`; the memory from `data` on goes on into the parity buffer. -/
structure Buffer where
  sig : Nat
  start : Nat
  size : Nat
  data : Nat → UInt8

def Buffer.headerBytes (b : Buffer) : List UInt8 :=
  leBytes 4 b.sig ++ leBytes 4 b.start ++ leBytes 4 b.size

/-- The loop of `ram_console_update` over the blocks; `par` is the address of the parity. -/
def encodeBlocks (ecc : Ecc) (bufferEnd limit : Nat) (data : Nat → UInt8) (block par size : Nat) :
    Nat → UInt8 :=
  let size := if block + ecc.blockSize > bufferEnd then bufferEnd - block else size
  let data := store data par (ecc.encodeRs8 (load data block size))
  if block + ecc.blockSize < limit
  then encodeBlocks ecc bufferEnd limit data (block + ecc.blockSize) (par + ecc.eccSize) size
  else data
termination_by limit - block
decreasing_by
  have := ecc.blockSize_pos
  omega

/-- The address of the parity of block `i`. -/
def parity (cfg : Config) (ecc : Ecc) (i : Nat) : Nat := cfg.bufferSize + i * ecc.eccSize

def ramConsoleUpdate (cfg : Config) (b : Buffer) (s : List UInt8) : Buffer :=
  let data := store b.data b.start s
  match cfg.ecc with
  | none => { b with data := data }
  | some ecc =>
    let block := b.start - (b.start &&& (ecc.blockSize - 1))
    let par := parity cfg ecc (b.start / ecc.blockSize)
    let limit := b.start + s.length
    { b with data := encodeBlocks ecc cfg.bufferSize limit data block par ecc.blockSize }

/-- `DIV_ROUND_UP(ram_console_buffer_size, ECC_BLOCK_SIZE)`. -/
def blockCount (cfg : Config) (ecc : Ecc) : Nat :=
  (cfg.bufferSize + ecc.blockSize - 1) / ecc.blockSize

def ramConsoleUpdateHeader (cfg : Config) (b : Buffer) : Buffer :=
  match cfg.ecc with
  | none => b
  | some ecc =>
    let par := parity cfg ecc (blockCount cfg ecc)
    { b with data := store b.data par (ecc.encodeRs8 b.headerBytes) }

/-- The first part of a write that runs over the end, and the bytes that are left to write. -/
def fillToEnd (cfg : Config) (b : Buffer) (s : List UInt8) : Buffer × List UInt8 :=
  let rem := cfg.bufferSize - b.start
  if rem < s.length
  then ({ ramConsoleUpdate cfg b (s.take rem) with start := 0, size := cfg.bufferSize }, s.drop rem)
  else (b, s)

/-- The part of a write that stays within the end. -/
def writeRest (cfg : Config) (b : Buffer) (s : List UInt8) : Buffer :=
  let b := ramConsoleUpdate cfg b s
  let b := { b with start := b.start + s.length }
  let b := { b with size := if b.size < cfg.bufferSize then b.size + s.length else b.size }
  ramConsoleUpdateHeader cfg b

def ramConsoleWrite (cfg : Config) (b : Buffer) (s : List UInt8) : Buffer :=
  let s := if s.length > cfg.bufferSize then s.drop (s.length - cfg.bufferSize) else s
  let r := fillToEnd cfg b s
  writeRest cfg r.1 r.2

def textBytes (s : String) : List UInt8 := s.toList.map fun c => UInt8.ofNat c.toNat

/-- The counters `ram_console_corrected_bytes` and `ram_console_bad_blocks`. -/
structure Errors where
  corrected : Int
  bad : Int

/-- The loop of `ram_console_save_old` over the blocks, each repaired in place. -/
def decodeBlocks (ecc : Ecc) (bufferEnd limit : Nat) (data : Nat → UInt8) (errors : Errors)
    (block par : Nat) : (Nat → UInt8) × Errors :=
  if block < limit then
    let size := if block + ecc.blockSize > bufferEnd then bufferEnd - block else ecc.blockSize
    let r := ecc.decodeRs8 (load data block size) (load data par ecc.eccSize)
    let errors := if r.2 > 0 then { errors with corrected := errors.corrected + r.2 }
      else if r.2 < 0 then { errors with bad := errors.bad + 1 } else errors
    decodeBlocks ecc bufferEnd limit (store data block r.1) errors (block + ecc.blockSize)
      (par + ecc.eccSize)
  else (data, errors)
termination_by limit - block
decreasing_by
  have := ecc.blockSize_pos
  omega

def errorText (errors : Errors) : String :=
  if errors.corrected ≠ 0 ∨ errors.bad ≠ 0
  then "\n" ++ toString errors.corrected ++ " Corrected bytes, " ++ toString errors.bad ++
    " unrecoverable blocks\n"
  else "\nNo errors detected\n"

/-- The old log, if there is memory. With error correction the blocks are repaired first, and a line
about the errors found is added, of at most 79 bytes. -/
def ramConsoleSaveOld (cfg : Config) (errors : Errors) (b : Buffer) (allocated : Bool) :
    Option (List UInt8) :=
  let (data, text) := match cfg.ecc with
    | none => (b.data, [])
    | some ecc =>
      let r := decodeBlocks ecc cfg.bufferSize b.size b.data errors 0 (parity cfg ecc 0)
      (r.1, (textBytes (errorText r.2)).take 79)
  if allocated = false then none
  else some (load data b.start (b.size - b.start) ++ load data 0 b.start ++ text)

def Buffer.empty (data : Nat → UInt8) : Buffer where
  sig := 0x43474244
  start := 0
  size := 0
  data := data

def lastBytes (n : Nat) (l : List UInt8) : List UInt8 := l.drop (l.length - n)

theorem lastBytes_length (n : Nat) (l : List UInt8) : (lastBytes n l).length = min n l.length := by
  rw [lastBytes, length_drop]
  omega

theorem lastBytes_of_le (h : l.length ≤ n) : lastBytes n l = l := by
  rw [lastBytes, Nat.sub_eq_zero_of_le h, drop_zero]

theorem lastBytes_append_of_le (h : n ≤ b.length) : lastBytes n (a ++ b) = lastBytes n b := by
  rw [lastBytes, length_append, drop_append, drop_of_length_le (by omega), nil_append]
  congr 1
  omega

theorem lastBytes_append (n : Nat) (a b : List UInt8) :
    lastBytes n (a ++ b) = lastBytes n (lastBytes n a ++ b) := by
  rcases Nat.le_total n b.length with h | h
  · rw [lastBytes_append_of_le h, lastBytes_append_of_le h]
  · have hlen := lastBytes_length n a
    rw [lastBytes, lastBytes, length_append, length_append, drop_append, drop_append, hlen]
    congr 1
    · rw [lastBytes, drop_drop]
      congr 1
      omega
    · congr 1
      omega

theorem lastBytes_congr (h : lastBytes n a = lastBytes n a') :
    lastBytes n (a ++ b) = lastBytes n (a' ++ b) := by
  rw [lastBytes_append n a b, h, ← lastBytes_append]

/-- The header of a buffer in use: before its first round `start` and `size` are the same. -/
structure Valid (n : Nat) (b : Buffer) : Prop where
  start_le : b.start ≤ b.size
  size_le : b.size ≤ n
  first : b.size < n → b.start = b.size

theorem kept_eq (n : Nat) (s : List UInt8) :
    (if s.length > n then s.drop (s.length - n) else s) = lastBytes n s := by
  split
  next => rfl
  next h => exact (lastBytes_of_le (by omega)).symm

theorem encodeBlocks_data (ecc : Ecc) (hpar : bufferEnd ≤ par) (hj : j < bufferEnd) :
    encodeBlocks ecc bufferEnd limit data block par size j = data j := by
  rw [encodeBlocks]
  split
  next =>
    rw [encodeBlocks_data ecc (by omega) hj]
    exact store_outside (.inl (by omega))
  next => exact store_outside (.inl (by omega))
termination_by limit - block
decreasing_by
  have := ecc.blockSize_pos
  omega

section Header

variable (cfg : Config) (b : Buffer)

theorem ramConsoleUpdate_start (s : List UInt8) :
    (ramConsoleUpdate cfg b s).start = b.start ∧ (ramConsoleUpdate cfg b s).size = b.size := by
  unfold ramConsoleUpdate
  split <;> exact ⟨rfl, rfl⟩

theorem ramConsoleUpdate_data (s : List UInt8)
    (hj : j < cfg.bufferSize) : (ramConsoleUpdate cfg b s).data j = store b.data b.start s j := by
  unfold ramConsoleUpdate
  split
  next => rfl
  next ecc _ => exact encodeBlocks_data ecc (Nat.le_add_right _ _) hj

theorem ramConsoleUpdateHeader_frame :
    (ramConsoleUpdateHeader cfg b).start = b.start ∧ (ramConsoleUpdateHeader cfg b).size = b.size ∧
      ∀ j, j < cfg.bufferSize → (ramConsoleUpdateHeader cfg b).data j = b.data j := by
  unfold ramConsoleUpdateHeader
  split
  next => exact ⟨rfl, rfl, fun _ _ => rfl⟩
  next ecc _ =>
    refine ⟨rfl, rfl, fun j hj => store_outside (.inl ?_)⟩
    unfold parity
    omega

theorem writeRest_spec (s : List UInt8) : (writeRest cfg b s).start = b.start + s.length ∧
      (writeRest cfg b s).size = (if b.size < cfg.bufferSize then b.size + s.length else b.size) ∧
      ∀ j, j < cfg.bufferSize → (writeRest cfg b s).data j = store b.data b.start s j := by
  unfold writeRest
  obtain ⟨hstart, hsize⟩ := ramConsoleUpdate_start cfg b s
  dsimp only
  rw [hstart, hsize]
  obtain ⟨hstart', hsize', hdata⟩ := ramConsoleUpdateHeader_frame cfg
    { ramConsoleUpdate cfg b s with
      start := b.start + s.length
      size := if b.size < cfg.bufferSize then b.size + s.length else b.size }
  refine ⟨hstart', hsize', fun j hj => ?_⟩
  rw [hdata j hj]
  exact ramConsoleUpdate_data cfg b s hj

theorem ramConsoleWrite_data (s : List UInt8)
    (hj : j < cfg.bufferSize) : (ramConsoleWrite cfg b s).data j =
      storeRing cfg.bufferSize b.data b.start (lastBytes cfg.bufferSize s) j := by
  unfold ramConsoleWrite fillToEnd
  rw [kept_eq]
  dsimp only
  split
  next hwrap =>
    rw [(writeRest_spec cfg _ _).2.2 j hj]
    unfold storeRing store
    rw [ramConsoleUpdate_data cfg b _ hj]
    rfl
  next hfits =>
    rw [(writeRest_spec cfg _ _).2.2 j hj]
    unfold storeRing
    rw [take_of_length_le (by omega), drop_of_length_le (by omega), store_nil]

theorem ramConsoleWrite_header (s : List UInt8) :
    if cfg.bufferSize - b.start < (lastBytes cfg.bufferSize s).length
    then (ramConsoleWrite cfg b s).start =
        (lastBytes cfg.bufferSize s).length - (cfg.bufferSize - b.start) ∧
      (ramConsoleWrite cfg b s).size = cfg.bufferSize
    else (ramConsoleWrite cfg b s).start = b.start + (lastBytes cfg.bufferSize s).length ∧
      (ramConsoleWrite cfg b s).size = if b.size < cfg.bufferSize
        then b.size + (lastBytes cfg.bufferSize s).length else b.size := by
  unfold ramConsoleWrite fillToEnd
  rw [kept_eq]
  dsimp only
  generalize lastBytes cfg.bufferSize s = kept
  split
  next hwrap =>
    obtain ⟨hstart, hsize, -⟩ := writeRest_spec cfg
      { ramConsoleUpdate cfg b (kept.take (cfg.bufferSize - b.start)) with
        start := 0
        size := cfg.bufferSize } (kept.drop (cfg.bufferSize - b.start))
    rw [hstart, hsize, if_neg (Nat.lt_irrefl _), Nat.zero_add, length_drop]
    exact ⟨rfl, rfl⟩
  next hfits =>
    obtain ⟨hstart, hsize, -⟩ := writeRest_spec cfg b kept
    exact ⟨hstart, hsize⟩

end Header

theorem Valid.write (h : Valid cfg.bufferSize b) (s : List UInt8) :
    Valid cfg.bufferSize (ramConsoleWrite cfg b s) := by
  have hheader := ramConsoleWrite_header cfg b s
  have hlen := lastBytes_length cfg.bufferSize s
  have hstart := h.start_le
  have hsize := h.size_le
  have hfirst := h.first
  split at hheader
  next hwrap => exact ⟨by omega, by omega, by omega⟩
  next hfits =>
    obtain ⟨hstart', hsize'⟩ := hheader
    split at hsize' <;> exact ⟨by omega, by omega, by omega⟩

/-- The buffer holds the end of what was written; of long strings `G` has only the last bytes. -/
structure Keeps (n : Nat) (b : Buffer) (W G : List UInt8) : Prop where
  valid : Valid n b
  same : lastBytes n G = lastBytes n W
  holds : Holds n b.data G (G.length - n)
  start : b.start % n = G.length % n
  size : b.size = min n G.length

theorem Keeps.write (h : Keeps cfg.bufferSize b W G) (s : List UInt8) :
    Keeps cfg.bufferSize (ramConsoleWrite cfg b s) (W ++ s) (G ++ lastBytes cfg.bufferSize s) := by
  have hheader := ramConsoleWrite_header cfg b s
  have hlen := lastBytes_length cfg.bufferSize s
  have hsize := h.size
  have hle := Nat.le_trans h.valid.start_le h.valid.size_le
  have hfirst := h.valid.first
  refine ⟨h.valid.write s, ?_, ?_, ?_, ?_⟩
  · rw [lastBytes_congr h.same]
    rcases Nat.le_total s.length cfg.bufferSize with hs | hs
    · rw [lastBytes_of_le hs]
    · rw [lastBytes_append_of_le (by omega), lastBytes_append_of_le hs]
      exact lastBytes_of_le (by omega)
  · rw [length_append]
    apply Holds.of_cells _ fun j hj => ramConsoleWrite_data cfg b s hj
    exact (h.holds.mono (by omega) (by omega)).storeRing (by omega) hle h.start
  · rw [length_append]
    split at hheader
    next hwrap =>
      rw [← Nat.ModEq.add_right _ h.start,
        Nat.mod_eq_sub_mod (show cfg.bufferSize ≤ b.start + _ by omega)]
      congr 1
      omega
    next hfits =>
      rw [hheader.1]
      exact Nat.ModEq.add_right _ h.start
  · rw [length_append]
    split at hheader
    next hwrap => omega
    next hfits =>
      obtain ⟨-, hsize'⟩ := hheader
      split at hsize' <;> omega

theorem Keeps.writes (cfg : Config) (h : Keeps cfg.bufferSize b W G) (writes : List (List UInt8)) :
    ∃ G, Keeps cfg.bufferSize (writes.foldl (ramConsoleWrite cfg) b) (W ++ writes.flatten) G := by
  induction writes generalizing b W G with
  | nil => exact ⟨G, by rw [flatten_nil, append_nil]; exact h⟩
  | cons s writes ih =>
    rw [flatten_cons, ← List.append_assoc]
    exact ih (h.write s)

theorem Keeps.empty (n : Nat) (data : Nat → UInt8) : Keeps n (.empty data) [] [] where
  valid := ⟨Nat.le_refl 0, Nat.zero_le n, fun _ => rfl⟩
  same := rfl
  holds := ⟨Nat.sub_le _ _, Nat.zero_le _, nofun⟩
  start := rfl
  size := (Nat.min_zero n).symm

theorem Keeps.saveOld (h : Keeps n b W G) (errors : Errors) :
    ramConsoleSaveOld ⟨n, none⟩ errors b true = some (lastBytes n W) := by
  have hsize := h.size
  have hstart := h.valid.start_le
  unfold ramConsoleSaveOld
  dsimp only
  rw [if_neg Bool.true_eq_false_eq_False, append_nil, ← h.same, Option.some.injEq]
  rcases Nat.lt_or_ge G.length n with hlt | hge
  · have heq := h.valid.first (by omega)
    have hall := h.holds.loadRing (k := G.length) (by omega) (by omega) (Nat.zero_le n)
      (by rw [Nat.sub_eq_zero_of_le (Nat.le_of_lt hlt)])
    rw [Nat.sub_eq_zero_of_le (Nat.le_of_lt hlt), drop_zero, take_length, loadRing,
      Nat.sub_zero, Nat.min_eq_left (Nat.le_of_lt hlt), Nat.sub_self] at hall
    rw [heq, Nat.sub_self, hsize, Nat.min_eq_right (Nat.le_of_lt hlt),
      lastBytes_of_le (Nat.le_of_lt hlt)]
    exact (append_nil _).symm.trans hall
  · have hall := h.holds.loadRing (k := n) (by omega) (Nat.le_refl n)
      (show b.start ≤ n by omega) (by rw [h.start, Nat.mod_eq_sub_mod hge])
    rw [loadRing, Nat.min_eq_right (Nat.sub_le n b.start),
      take_of_length_le (by rw [length_drop]; omega)] at hall
    rw [hsize, Nat.min_eq_left hge, lastBytes, ← hall]
    congr 2
    omega

/-- Whatever is written, the header stays valid and the log saved is made of the last bytes. -/
theorem ram_console_keeps_last_bytes (n : Nat) (data : Nat → UInt8) (errors : Errors)
    (writes : List (List UInt8)) :
    (writes.foldl (ramConsoleWrite ⟨n, none⟩) (.empty data)).start ≤
        (writes.foldl (ramConsoleWrite ⟨n, none⟩) (.empty data)).size ∧
      (writes.foldl (ramConsoleWrite ⟨n, none⟩) (.empty data)).size ≤ n ∧
      ramConsoleSaveOld ⟨n, none⟩ errors (writes.foldl (ramConsoleWrite ⟨n, none⟩) (.empty data))
        true = some (lastBytes n writes.flatten) := by
  obtain ⟨G, h⟩ := Keeps.writes ⟨n, none⟩ (Keeps.empty n data) writes
  exact ⟨h.valid.start_le, h.valid.size_le, h.saveOld errors⟩

variable {cfg : Config} {ecc : Ecc} {b : Buffer}

def Covered (cfg : Config) (ecc : Ecc) (data : Nat → UInt8) (i : Nat) : Prop :=
  load data (parity cfg ecc i) ecc.eccSize = ecc.encodeRs8
    (load data (i * ecc.blockSize) (min ecc.blockSize (cfg.bufferSize - i * ecc.blockSize)))

theorem parity_apart (hne : i ≠ k) (hj : parity cfg ecc i ≤ j)
    (hj' : j < parity cfg ecc i + ecc.eccSize) :
    j < parity cfg ecc k ∨ parity cfg ecc k + ecc.eccSize ≤ j := by
  unfold parity at *
  rcases Nat.lt_or_gt_of_ne hne with hlt | hgt
  · have := Nat.mul_le_mul_right ecc.eccSize (show i + 1 ≤ k by omega)
    rw [Nat.succ_mul] at this
    omega
  · have := Nat.mul_le_mul_right ecc.eccSize (show k + 1 ≤ i by omega)
    rw [Nat.succ_mul] at this
    omega

theorem Covered.congr (h : Covered cfg ecc data i)
    (hpar : ∀ j, parity cfg ecc i ≤ j → j < parity cfg ecc i + ecc.eccSize → data' j = data j)
    (hdata : ∀ j, i * ecc.blockSize ≤ j → j < (i + 1) * ecc.blockSize → j < cfg.bufferSize →
      data' j = data j) : Covered cfg ecc data' i := by
  unfold Covered
  rw [Nat.succ_mul] at hdata
  rw [load_congr hpar, h]
  congr 1
  apply load_congr
  intro j hj hj'
  exact (hdata j hj (by omega) (by omega)).symm

theorem covered_store (cfg : Config) (ecc : Ecc) (data : Nat → UInt8)
    (hk : k * ecc.blockSize ≤ cfg.bufferSize) :
    Covered cfg ecc (store data (parity cfg ecc k) (ecc.encodeRs8 (load data (k * ecc.blockSize)
      (min ecc.blockSize (cfg.bufferSize - k * ecc.blockSize))))) k := by
  unfold Covered
  rw [← ecc.encode_length (load data (k * ecc.blockSize)
    (min ecc.blockSize (cfg.bufferSize - k * ecc.blockSize))), load_store]
  congr 1
  apply load_congr
  intro j hj hj'
  exact (store_outside (.inl (by unfold parity; omega))).symm

def Touched (ecc : Ecc) (limit k i : Nat) : Prop := k ≤ i ∧ (i = k ∨ i * ecc.blockSize < limit)

theorem touched_more (h : (k + 1) * ecc.blockSize < limit) :
    Touched ecc limit k i ↔ i = k ∨ Touched ecc limit (k + 1) i := by
  constructor
  · rintro ⟨hle, rfl | hlt⟩
    · exact .inl rfl
    · rcases Nat.eq_or_lt_of_le hle with rfl | hlt'
      · exact .inl rfl
      · exact .inr ⟨hlt', .inr hlt⟩
  · rintro (rfl | ⟨hle, rfl | hlt⟩)
    · exact ⟨Nat.le_refl i, .inl rfl⟩
    · exact ⟨Nat.le_succ k, .inr h⟩
    · exact ⟨Nat.le_of_succ_le hle, .inr hlt⟩

theorem touched_last (h : ¬ (k + 1) * ecc.blockSize < limit) : Touched ecc limit k i ↔ i = k := by
  constructor
  · rintro ⟨hle, rfl | hlt⟩
    · rfl
    · by_contra hne
      have := Nat.mul_le_mul_right ecc.blockSize (show k + 1 ≤ i by omega)
      omega
  · rintro rfl
    exact ⟨Nat.le_refl i, .inl rfl⟩

theorem encodeBlocks_spec (cfg : Config) (ecc : Ecc) (data : Nat → UInt8)
    (hlimit : limit ≤ cfg.bufferSize) (hk : k * ecc.blockSize ≤ cfg.bufferSize) :
    (∀ i, Touched ecc limit k i → Covered cfg ecc (encodeBlocks ecc cfg.bufferSize limit data
      (k * ecc.blockSize) (parity cfg ecc k) ecc.blockSize) i) ∧
    ∀ i j, ¬ Touched ecc limit k i → parity cfg ecc i ≤ j →
      j < parity cfg ecc i + ecc.eccSize → encodeBlocks ecc cfg.bufferSize limit data
        (k * ecc.blockSize) (parity cfg ecc k) ecc.blockSize j = data j := by
  have hsucc : (k + 1) * ecc.blockSize = k * ecc.blockSize + ecc.blockSize := Nat.succ_mul _ _
  have hnext : parity cfg ecc (k + 1) = parity cfg ecc k + ecc.eccSize := by
    unfold parity
    rw [Nat.succ_mul]
    omega
  have hsize : (if k * ecc.blockSize + ecc.blockSize > cfg.bufferSize
      then cfg.bufferSize - k * ecc.blockSize else ecc.blockSize) =
        min ecc.blockSize (cfg.bufferSize - k * ecc.blockSize) := by
    split <;> omega
  have hfirst := covered_store cfg ecc data hk
  rw [encodeBlocks, hsize]
  generalize hdata : store data (parity cfg ecc k) (ecc.encodeRs8 (load data (k * ecc.blockSize)
    (min ecc.blockSize (cfg.bufferSize - k * ecc.blockSize)))) = data₁ at hfirst ⊢
  have hother : ∀ i j, i ≠ k → parity cfg ecc i ≤ j → j < parity cfg ecc i + ecc.eccSize →
      data₁ j = data j := by
    intro i j hne hj hj'
    rw [← hdata]
    apply store_outside
    rw [ecc.encode_length]
    exact parity_apart hne hj hj'
  split
  next hmore =>
    rw [← hsucc] at hmore
    have hfull : min ecc.blockSize (cfg.bufferSize - k * ecc.blockSize) = ecc.blockSize := by omega
    rw [hfull, ← hsucc, ← hnext]
    obtain ⟨hcover, hkeep⟩ := encodeBlocks_spec cfg ecc data₁ hlimit
      (show (k + 1) * ecc.blockSize ≤ cfg.bufferSize by omega)
    simp only [touched_more hmore, not_or]
    refine ⟨?_, ?_⟩
    · rintro i (rfl | hi)
      · apply hfirst.congr
        · exact fun j => hkeep i j (fun ht => Nat.not_succ_le_self i ht.1)
        · intro j _ _ hj
          exact encodeBlocks_data ecc (by unfold parity; omega) hj
      · exact hcover i hi
    · rintro i j ⟨hne, hi⟩ hj hj'
      rw [hkeep i j hi hj hj', hother i j hne hj hj']
  next hlast =>
    rw [← hsucc] at hlast
    simp only [touched_last hlast]
    exact ⟨fun i hi => hi ▸ hfirst, hother⟩
termination_by limit - k * ecc.blockSize
decreasing_by
  have := ecc.blockSize_pos
  rw [Nat.succ_mul]
  omega

theorem block_start (ecc : Ecc) (start : Nat) :
    start - (start &&& (ecc.blockSize - 1)) = start / ecc.blockSize * ecc.blockSize := by
  obtain ⟨k, hk⟩ := ecc.pow
  rw [hk, Nat.and_two_pow_sub_one_eq_mod]
  have := Nat.div_add_mod' start (2 ^ k)
  omega

theorem ramConsoleUpdate_covered (hcfg : cfg.ecc = some ecc)
    (hlimit : b.start + s.length ≤ cfg.bufferSize)
    (hi : Covered cfg ecc b.data i ∨
      (b.start ≤ i * ecc.blockSize ∧ i * ecc.blockSize < b.start + s.length)) :
    Covered cfg ecc (ramConsoleUpdate cfg b s).data i := by
  have hblock := block_start ecc b.start
  have hdiv := Nat.div_mul_le_self b.start ecc.blockSize
  unfold ramConsoleUpdate
  rw [hcfg]
  dsimp only
  rw [hblock]
  obtain ⟨hcover, hkeep⟩ := encodeBlocks_spec cfg ecc (store b.data b.start s) hlimit
    (show b.start / ecc.blockSize * ecc.blockSize ≤ cfg.bufferSize by omega)
  by_cases ht : Touched ecc (b.start + s.length) (b.start / ecc.blockSize) i
  · exact hcover i ht
  rcases hi with hold | ⟨hge, hlt⟩
  · apply hold.congr
    · intro j hj hj'
      rw [hkeep i j ht hj hj']
      exact store_outside (.inr (by unfold parity at hj; omega))
    · intro j hj hj' hn
      rw [encodeBlocks_data ecc (by unfold parity; omega) hn]
      apply store_outside
      -- a block that is not touched ends before the string or starts behind it
      rcases Nat.lt_or_ge i (b.start / ecc.blockSize) with hbefore | hafter
      · have := Nat.mul_le_mul_right ecc.blockSize (show i + 1 ≤ b.start / ecc.blockSize by omega)
        omega
      · have : ¬ i * ecc.blockSize < b.start + s.length := fun hin => ht ⟨hafter, .inr hin⟩
        omega
  · refine absurd ⟨?_, .inr hlt⟩ ht
    exact Nat.le_of_mul_le_mul_right (Nat.le_trans hdiv hge) ecc.blockSize_pos

def Protected (cfg : Config) (ecc : Ecc) (b : Buffer) : Prop :=
  ∀ i, i * ecc.blockSize < b.size → Covered cfg ecc b.data i

theorem Protected.filled (h : Protected cfg ecc b) (hcfg : cfg.ecc = some ecc)
    (hv : Valid cfg.bufferSize b) (hs : s.length ≤ cfg.bufferSize) :
    Protected cfg ecc (fillToEnd cfg b s).1 ∧ Valid cfg.bufferSize (fillToEnd cfg b s).1 ∧
      (fillToEnd cfg b s).1.start + (fillToEnd cfg b s).2.length ≤ cfg.bufferSize := by
  have hstart := hv.start_le
  have hsize := hv.size_le
  unfold fillToEnd
  dsimp only
  split
  next hwrap =>
    refine ⟨?_, ⟨Nat.zero_le _, Nat.le_refl _, fun hlt => absurd hlt (Nat.lt_irrefl _)⟩, ?_⟩
    · intro i hi
      have htake : (s.take (cfg.bufferSize - b.start)).length = cfg.bufferSize - b.start := by
        rw [List.length_take]
        omega
      apply ramConsoleUpdate_covered hcfg (by omega)
      rcases Nat.lt_or_ge (i * ecc.blockSize) b.size with hlt | hge
      · exact .inl (h i hlt)
      · dsimp only at hi
        exact .inr ⟨by omega, by omega⟩
    · rw [List.length_drop]
      dsimp only
      omega
  next hfits => exact ⟨h, hv, by dsimp only; omega⟩

theorem lt_blockCount (h : i * ecc.blockSize < cfg.bufferSize) : i < blockCount cfg ecc := by
  by_contra hle
  have hmul := Nat.mul_le_mul_right ecc.blockSize (show blockCount cfg ecc ≤ i by omega)
  have hpos := ecc.blockSize_pos
  have hdiv := Nat.div_add_mod' (cfg.bufferSize + ecc.blockSize - 1) ecc.blockSize
  have hmod := Nat.mod_lt (cfg.bufferSize + ecc.blockSize - 1) hpos
  unfold blockCount at hmul
  omega

theorem Protected.updateHeader (h : Protected cfg ecc b) (hcfg : cfg.ecc = some ecc)
    (hsize : b.size ≤ cfg.bufferSize) :
    Protected cfg ecc (ramConsoleUpdateHeader cfg b) ∧
      load (ramConsoleUpdateHeader cfg b).data (parity cfg ecc (blockCount cfg ecc)) ecc.eccSize =
        ecc.encodeRs8 (ramConsoleUpdateHeader cfg b).headerBytes := by
  unfold ramConsoleUpdateHeader
  rw [hcfg]
  refine ⟨?_, ?_⟩
  · intro i hi
    dsimp only at hi
    apply (h i hi).congr
    · intro j hj hj'
      apply store_outside
      rw [ecc.encode_length]
      have hlt : i < blockCount cfg ecc := lt_blockCount (by omega)
      exact parity_apart (by omega) hj hj'
    · intro j _ _ hj
      exact store_outside (.inl (by unfold parity; omega))
  · rw [← ecc.encode_length b.headerBytes, load_store]
    rfl

theorem Protected.write (h : Protected cfg ecc b) (hcfg : cfg.ecc = some ecc)
    (hv : Valid cfg.bufferSize b) (s : List UInt8) :
    Protected cfg ecc (ramConsoleWrite cfg b s) ∧
      load (ramConsoleWrite cfg b s).data (parity cfg ecc (blockCount cfg ecc)) ecc.eccSize =
        ecc.encodeRs8 (ramConsoleWrite cfg b s).headerBytes := by
  unfold ramConsoleWrite
  rw [kept_eq]
  obtain ⟨hfill, hvalid, hroom⟩ := h.filled hcfg hv
    (show (lastBytes cfg.bufferSize s).length ≤ cfg.bufferSize by rw [lastBytes_length]; omega)
  dsimp only
  generalize fillToEnd cfg b (lastBytes cfg.bufferSize s) = r at hfill hvalid hroom ⊢
  obtain ⟨hstart, hsize⟩ := ramConsoleUpdate_start cfg r.1 r.2
  have hsize_le := hvalid.size_le
  have hfirst := hvalid.first
  unfold writeRest
  dsimp only
  apply Protected.updateHeader _ hcfg
  · dsimp only
    split <;> omega
  · intro i hi
    dsimp only at hi
    apply ramConsoleUpdate_covered hcfg hroom
    rcases Nat.lt_or_ge (i * ecc.blockSize) r.1.size with hlt | hge
    · exact .inl (hfill i hlt)
    · split at hi
      next hpart => exact .inr ⟨by omega, by omega⟩
      next => omega

theorem Protected.writes (hcfg : cfg.ecc = some ecc) (writes : List (List UInt8))
    (h : Protected cfg ecc b) (hv : Valid cfg.bufferSize b) :
    Protected cfg ecc (writes.foldl (ramConsoleWrite cfg) b) ∧
      Valid cfg.bufferSize (writes.foldl (ramConsoleWrite cfg) b) := by
  induction writes generalizing b with
  | nil => exact ⟨h, hv⟩
  | cons s writes ih => exact ih (h.write hcfg hv s).1 (hv.write s)

/-- After every write each block that holds data, and the header, has its parity. -/
theorem ram_console_parity_current (n : Nat) (ecc : Ecc) (data : Nat → UInt8)
    (writes : List (List UInt8)) (s : List UInt8) :
    Protected ⟨n, some ecc⟩ ecc (ramConsoleWrite ⟨n, some ecc⟩
        (writes.foldl (ramConsoleWrite ⟨n, some ecc⟩) (.empty data)) s) ∧
      load (ramConsoleWrite ⟨n, some ecc⟩
          (writes.foldl (ramConsoleWrite ⟨n, some ecc⟩) (.empty data)) s).data
        (parity ⟨n, some ecc⟩ ecc (blockCount ⟨n, some ecc⟩ ecc)) ecc.eccSize =
      ecc.encodeRs8 (ramConsoleWrite ⟨n, some ecc⟩
          (writes.foldl (ramConsoleWrite ⟨n, some ecc⟩) (.empty data)) s).headerBytes := by
  have hempty : Protected ⟨n, some ecc⟩ ecc (.empty data) :=
    fun i hi => absurd hi (Nat.not_lt_zero _)
  obtain ⟨h, hv⟩ := hempty.writes rfl writes (Keeps.empty n data).valid
  exact h.write rfl hv s

/-- A code with the sizes of the driver: each byte of the parity is that of a column of bytes. -/
def columnEcc : Ecc where
  blockSize := 128
  eccSize := 16
  encodeRs8 block := (range 16).map fun j =>
    (range 8).foldl (fun x i => x ^^^ block.getD (16 * i + j) 0) 0
  decodeRs8 block _ := (block, 0)
  pow := ⟨7, rfl⟩
  encode_length _ := by simp

/-- The second write runs over the end of the buffer. -/
def wrappedBuffer : Buffer :=
  ramConsoleWrite ⟨1000, some columnEcc⟩
    ([replicate 600 1].foldl (ramConsoleWrite ⟨1000, some columnEcc⟩) (.empty fun _ => 0))
    (replicate 600 2)

theorem ram_console_parity_current_wrapping :
    (wrappedBuffer.start = 200 ∧ wrappedBuffer.size = 1000) ∧
      Covered ⟨1000, some columnEcc⟩ columnEcc wrappedBuffer.data 7 ∧
      load wrappedBuffer.data (1000 + 8 * 16) 16 =
        columnEcc.encodeRs8 wrappedBuffer.headerBytes := by
  have hwrap : wrappedBuffer.start = 200 ∧ wrappedBuffer.size = 1000 := by
    simp [-reduceReplicate, wrappedBuffer, ramConsoleWrite, fillToEnd, writeRest, ramConsoleUpdate,
      ramConsoleUpdateHeader, Buffer.empty]
  obtain ⟨hblocks, hheader⟩ := ram_console_parity_current 1000 columnEcc (fun _ => 0)
    [replicate 600 1] (replicate 600 2)
  refine ⟨hwrap, hblocks 7 ?_, hheader⟩
  change 7 * 128 < wrappedBuffer.size
  omega

end SpicaKernel.RamConsole
