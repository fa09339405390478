import Mathlib.Algebra.BigOperators.Group.List.Basic
import Mathlib.Data.Nat.Bitwise
import Mathlib.Data.UInt
import SpicaKernel.Runs

namespace SpicaKernel.Ashmem
open Function
set_option autoImplicit true

section

abbrev AreaId := Nat

abbrev RangeId := Nat

/-- `ASHMEM_NOT_PURGED` is 0 and `ASHMEM_WAS_PURGED` is 1. -/
inductive Purged where
  | notPurged
  | wasPurged
deriving DecidableEq, Repr

/-- The `|` of the two purge values. -/
def Purged.or : Purged → Purged → Purged
  | .notPurged, p => p
  | .wasPurged, _ => .wasPurged

/-- `struct ashmem_range` without its two list links. -/
structure AshmemRange where
  asma : AreaId
  pgstart : UInt32
  pgend : UInt32
  purged : Purged
deriving DecidableEq, Repr

def rangeSize (r : AshmemRange) : UInt32 := r.pgend - r.pgstart + 1

abbrev rangeOnLru (r : AshmemRange) : Prop := r.purged = .notPurged

abbrev pageRangeSubsumesRange (r : AshmemRange) (start stop : UInt32) : Prop :=
  r.pgstart ≥ start ∧ r.pgend ≤ stop

abbrev pageRangeSubsumedByRange (r : AshmemRange) (start stop : UInt32) : Prop :=
  r.pgstart ≤ start ∧ r.pgend ≥ stop

abbrev pageInRange (r : AshmemRange) (page : UInt32) : Prop :=
  r.pgstart ≤ page ∧ r.pgend ≥ page

abbrev pageRangeInRange (r : AshmemRange) (start stop : UInt32) : Prop :=
  pageInRange r start ∨ pageInRange r stop ∨ pageRangeSubsumesRange r start stop

abbrev rangeBeforePage (r : AshmemRange) (page : UInt32) : Prop := r.pgend < page

/-- The objects of the range cache, the `unpinned_list` of each area and the global LRU list. -/
structure State where
  ranges : RangeId → AshmemRange
  nextRange : RangeId
  unpinnedList : AreaId → List RangeId
  lruList : List RangeId
  lruCount : UInt32

def State.init : State where
  ranges := fun _ => ⟨0, 0, 0, .notPurged⟩
  nextRange := 0
  unpinnedList := fun _ => []
  lruList := []
  lruCount := 0

def ENOMEM : Int := 12

def lruAdd (s : State) (range : RangeId) : State :=
  { s with
    lruList := s.lruList ++ [range]
    lruCount := s.lruCount + rangeSize (s.ranges range) }

def lruDel (s : State) (range : RangeId) : State :=
  { s with
    lruList := s.lruList.erase range
    lruCount := s.lruCount - rangeSize (s.ranges range) }

/-- `list_add_tail` in front of an entry, or at the end when the entry is the list head. -/
def listAddTail (new : RangeId) : Option RangeId → List RangeId → List RangeId
  | none, l => l ++ [new]
  | some _, [] => [new]
  | some entry, x :: l =>
    if x = entry then new :: x :: l else x :: listAddTail new (some entry) l

def rangeAlloc (s : State) (zalloc : Bool) (asma : AreaId) (prevRange : Option RangeId)
    (purged : Purged) (start stop : UInt32) : Int × State :=
  if zalloc then
    let range := s.nextRange
    let s' : State :=
      { s with
        ranges := update s.ranges range ⟨asma, start, stop, purged⟩
        nextRange := range + 1
        unpinnedList := update s.unpinnedList asma
          (listAddTail range prevRange (s.unpinnedList asma)) }
    (0, if rangeOnLru (s'.ranges range) then lruAdd s' range else s')
  else (-ENOMEM, s)

def rangeDel (s : State) (range : RangeId) : State :=
  let asma := (s.ranges range).asma
  let s' : State :=
    { s with
      unpinnedList := update s.unpinnedList asma ((s.unpinnedList asma).erase range) }
  if rangeOnLru (s'.ranges range) then lruDel s' range else s'

def rangeShrink (s : State) (range : RangeId) (start stop : UInt32) : State :=
  let pre := rangeSize (s.ranges range)
  let r : AshmemRange := { s.ranges range with pgstart := start, pgend := stop }
  let s' : State := { s with ranges := update s.ranges range r }
  if rangeOnLru r then { s' with lruCount := s'.lruCount - (pre - rangeSize r) } else s'

def ashmemRelease (s : State) (asma : AreaId) : State :=
  (s.unpinnedList asma).foldl rangeDel s

/-- The loop of `ashmem_pin` over the entries not yet visited. -/
def ashmemPinLoop (zalloc : Bool) (asma : AreaId) (pgstart pgend : UInt32) :
    List RangeId → Purged → State → Purged × State
  | [], ret, s => (ret, s)
  | range :: next, ret, s =>
    let r := s.ranges range
    if rangeBeforePage r pgstart then (ret, s)
    else if pageRangeInRange r pgstart pgend then
      if pageRangeSubsumesRange r pgstart pgend then
        ashmemPinLoop zalloc asma pgstart pgend next (ret.or r.purged) (rangeDel s range)
      else if r.pgstart ≥ pgstart then
        ashmemPinLoop zalloc asma pgstart pgend next (ret.or r.purged)
          (rangeShrink s range (pgend + 1) r.pgend)
      else if r.pgend ≤ pgend then
        ashmemPinLoop zalloc asma pgstart pgend next (ret.or r.purged)
          (rangeShrink s range r.pgstart (pgstart - 1))
      else
        let s' := (rangeAlloc s zalloc asma (some range) r.purged (pgend + 1) r.pgend).2
        (ret.or r.purged, rangeShrink s' range r.pgstart (pgstart - 1))
    else ashmemPinLoop zalloc asma pgstart pgend next ret s

def ashmemPin (s : State) (zalloc : Bool) (asma : AreaId) (pgstart pgend : UInt32) :
    Purged × State :=
  ashmemPinLoop zalloc asma pgstart pgend (s.unpinnedList asma) .notPurged s

def minT (x y : UInt32) : UInt32 := if x < y then x else y

def maxT (x y : UInt32) : UInt32 := if x > y then x else y

inductive UnpinScan where
  | insert (prevRange : Option RangeId)
  | subsumed
  | merge (range : RangeId)

def unpinScan (ranges : RangeId → AshmemRange) (pgstart pgend : UInt32) : List RangeId → UnpinScan
  | [] => .insert none
  | range :: next =>
    let r := ranges range
    if rangeBeforePage r pgstart then .insert (some range)
    else if pageRangeSubsumedByRange r pgstart pgend then .subsumed
    else if pageRangeInRange r pgstart pgend then .merge range
    else unpinScan ranges pgstart pgend next

/-- The scans between jumps to `restart`. The fuel bounds the jumps, which delete a range each. -/
def ashmemUnpinLoop (zalloc : Bool) (asma : AreaId) :
    Nat → UInt32 → UInt32 → Purged → State → Option (Int × State)
  | 0, _, _, _, _ => none
  | fuel + 1, pgstart, pgend, purged, s =>
    match unpinScan s.ranges pgstart pgend (s.unpinnedList asma) with
    | .insert prevRange => some (rangeAlloc s zalloc asma prevRange purged pgstart pgend)
    | .subsumed => some (0, s)
    | .merge range =>
      let r := s.ranges range
      ashmemUnpinLoop zalloc asma fuel (minT r.pgstart pgstart) (maxT r.pgend pgend)
        (purged.or r.purged) (rangeDel s range)

def ashmemUnpin (s : State) (zalloc : Bool) (asma : AreaId) (pgstart pgend : UInt32) :
    Option (Int × State) :=
  ashmemUnpinLoop zalloc asma ((s.unpinnedList asma).length + 1) pgstart pgend .notPurged s

inductive PinStatus where
  | isUnpinned
  | isPinned
deriving DecidableEq, Repr

def getPinStatusLoop (ranges : RangeId → AshmemRange) (pgstart pgend : UInt32) :
    List RangeId → PinStatus
  | [] => .isPinned
  | range :: next =>
    if rangeBeforePage (ranges range) pgstart then .isPinned
    else if pageRangeInRange (ranges range) pgstart pgend then .isUnpinned
    else getPinStatusLoop ranges pgstart pgend next

def ashmemGetPinStatus (s : State) (asma : AreaId) (pgstart pgend : UInt32) : PinStatus :=
  getPinStatusLoop s.ranges pgstart pgend (s.unpinnedList asma)

def PAGE_SIZE : UInt32 := 4096

/-- A call of `vmtruncate_range` on the backing file of an area, in bytes. -/
structure VmtruncateRange where
  asma : AreaId
  start : UInt32
  stop : UInt32
deriving DecidableEq, Repr

def setPurged (s : State) (range : RangeId) : State :=
  { s with
    ranges := update s.ranges range { s.ranges range with purged := .wasPurged } }

/-- The loop of `ashmem_shrink` over the entries not yet visited, with the truncations it makes. -/
def ashmemShrinkLoop : List RangeId → Int32 → State → List VmtruncateRange × State
  | [], _, s => ([], s)
  | range :: next, nrToScan, s =>
    let r := s.ranges range
    let call : VmtruncateRange :=
      ⟨r.asma, r.pgstart * PAGE_SIZE, (r.pgend + 1) * PAGE_SIZE - 1⟩
    let s' := lruDel (setPurged s range) range
    let nrToScan' := nrToScan - (rangeSize r).toInt32
    if nrToScan' ≤ 0 then ([call], s')
    else
      let rest := ashmemShrinkLoop next nrToScan' s'
      (call :: rest.1, rest.2)

/-- `gfpFs` is whether the mask has `__GFP_FS`. -/
def ashmemShrink (s : State) (nrToScan : Int32) (gfpFs : Bool) :
    Int32 × List VmtruncateRange × State :=
  if nrToScan ≠ 0 ∧ gfpFs = false then (-1, [], s)
  else if nrToScan = 0 then (s.lruCount.toInt32, [], s)
  else
    let r := ashmemShrinkLoop s.lruList nrToScan s
    (r.2.lruCount.toInt32, r.1, r.2)

/-- The entry points that take `ashmem_mutex`, with the outcome of the range allocation. -/
inductive AshmemOp where
  | pin (asma : AreaId) (pgstart pgend : UInt32) (zalloc : Bool)
  | unpin (asma : AreaId) (pgstart pgend : UInt32) (zalloc : Bool)
  | shrink (nrToScan : Int32) (gfpFs : Bool)
  | release (asma : AreaId)

def ashmemStep (s : State) : AshmemOp → Option State
  | .pin asma pgstart pgend zalloc => some (ashmemPin s zalloc asma pgstart pgend).2
  | .unpin asma pgstart pgend zalloc =>
    (ashmemUnpin s zalloc asma pgstart pgend).map Prod.snd
  | .shrink nrToScan gfpFs => some (ashmemShrink s nrToScan gfpFs).2.2
  | .release asma => some (ashmemRelease s asma)

namespace PinArgs

/-- `PAGE_ALIGN` of a 32-bit size. -/
def pageAlign (size : Nat) : Nat := (size + 4095) % 2 ^ 32 / 4096 * 4096

/-- `pin.len` behind its default. -/
def pinLen (size offset len : Nat) : Nat :=
  if len = 0 then (pageAlign size + 2 ^ 32 - offset) % 2 ^ 32 else len

/-- The pages that `ashmem_pin_unpin` passes on, if it gets past its checks. -/
def pinUnpin (size offset len : Nat) : Option (Nat × Nat) :=
  let len := pinLen size offset len
  if (offset ||| len) &&& 4095 ≠ 0 then none
  else if 2 ^ 32 - 1 - offset < len then none
  else if pageAlign size < (offset + len) % 2 ^ 32 then none
  else
    let pgstart := offset / 4096
    some (pgstart, (pgstart + len / 4096 + (2 ^ 32 - 1)) % 2 ^ 32)

theorem aligned_of_or_and (h : (a ||| b) &&& 4095 = 0) : a % 4096 = 0 ∧ b % 4096 = 0 := by
  have hmod : (a ||| b) % 2 ^ 12 = 0 := by rwa [← Nat.and_two_pow_sub_one_eq_mod]
  rw [Nat.or_mod_two_pow] at hmod
  exact Nat.or_eq_zero_iff.mp hmod

theorem pinUnpin_some (hoffset : offset < 2 ^ 32)
    (h : pinUnpin size offset len = some (pgstart, pgend)) :
    offset % 4096 = 0 ∧ pinLen size offset len % 4096 = 0 ∧
      offset + pinLen size offset len < 2 ^ 32 ∧
      (offset + pinLen size offset len) % 2 ^ 32 ≤ pageAlign size ∧ pgstart = offset / 4096 ∧
      pgend = (pgstart + pinLen size offset len / 4096 + (2 ^ 32 - 1)) % 2 ^ 32 := by
  rw [pinUnpin] at h
  split at h
  next => cases h
  next hbits =>
    obtain ⟨hoff, hl⟩ := aligned_of_or_and (not_not.mp hbits)
    split at h
    next => cases h
    next hsum =>
      split at h
      next => cases h
      next hend =>
        cases h
        exact ⟨hoff, hl, by omega, by omega, rfl, rfl⟩

theorem ashmem_pin_unpin_interval (hsize : size < 2 ^ 32) (hoffset : offset < 2 ^ 32)
    (hlen : len < 2 ^ 32) (h : pinUnpin size offset len = some (pgstart, pgend)) :
    (pgstart ≤ pgend ∧ (pgend + 1) * 4096 ≤ pageAlign size) ∧
      -- nothing has wrapped around
      pageAlign size = (size + 4095) / 4096 * 4096 ∧ (len = 0 → offset ≤ pageAlign size) ∧
      offset + pinLen size offset len < 2 ^ 32 ∧
      pgend + 1 = offset / 4096 + pinLen size offset len / 4096 ↔
    ¬ (len = 0 ∧ offset = pageAlign size) := by
  have hword : pageAlign size < 2 ^ 32 := by
    rw [pageAlign]
    omega
  obtain ⟨hoff, hl, hsum, hend, hstart, hpgend⟩ := pinUnpin_some hoffset h
  constructor
  · rintro ⟨⟨hle, hfit⟩, -, -, -, hexact⟩ ⟨rfl, hat⟩
    have hzero : pinLen size offset 0 = 0 := by
      rw [pinLen]
      omega
    omega
  · intro hne
    have hpos : 0 < pinLen size offset len := by
      rw [pinLen]
      split <;> omega
    have halign : pageAlign size = (size + 4095) / 4096 * 4096 := by
      rw [pageAlign] at hend ⊢
      omega
    refine ⟨⟨?_, ?_⟩, halign, fun hdefault => ?_, ?_, ?_⟩ <;> omega

theorem ashmem_pin_unpin_interval_rest :
    pinUnpin 8192 4096 0 = some (1, 1) ∧ 1 ≤ 1 ∧ (1 + 1) * 4096 ≤ pageAlign 8192 := by
  have h := ashmem_pin_unpin_interval (by decide : 8192 < 2 ^ 32) (by decide : 4096 < 2 ^ 32)
    (by decide : 0 < 2 ^ 32) (by decide : pinUnpin 8192 4096 0 = some (1, 1))
  exact ⟨by decide, (h.mpr (by decide)).1⟩

/-- The rest of an area from its end on is no page, and it gets past the checks. -/
theorem ashmem_pin_unpin_empty : pinUnpin 4096 4096 0 = some (1, 0) := by
  decide

end PinArgs

open List

/-- Each range hangs in the list of its own area, and the LRU list holds the unpurged ones. -/
structure Linked (s : State) : Prop where
  nodup : ∀ a, (s.unpinnedList a).Nodup
  owner : ∀ {a r}, r ∈ s.unpinnedList a → (s.ranges r).asma = a
  fresh : ∀ {a r}, r ∈ s.unpinnedList a → r < s.nextRange
  lru_nodup : s.lruList.Nodup
  lru_mem : ∀ r, r ∈ s.lruList ↔ (∃ a, r ∈ s.unpinnedList a) ∧ rangeOnLru (s.ranges r)
  lru_count : s.lruCount = (s.lruList.map fun r => rangeSize (s.ranges r)).sum

theorem Linked.init : Linked State.init where
  nodup _ := nodup_nil
  owner h := (not_mem_nil h).elim
  fresh h := (not_mem_nil h).elim
  lru_nodup := nodup_nil
  lru_mem r := by simp [State.init]
  lru_count := rfl

@[simp] theorem rangeDel_ranges (s : State) (r : RangeId) : (rangeDel s r).ranges = s.ranges := by
  simp only [rangeDel]
  split <;> rfl

@[simp] theorem rangeDel_nextRange (s : State) (r : RangeId) :
    (rangeDel s r).nextRange = s.nextRange := by
  simp only [rangeDel]
  split <;> rfl

theorem rangeDel_unpinnedList (s : State) (r : RangeId) :
    (rangeDel s r).unpinnedList = update s.unpinnedList (s.ranges r).asma
      ((s.unpinnedList (s.ranges r).asma).erase r) := by
  simp only [rangeDel]
  split <;> rfl

theorem rangeDel_self (h : (s.ranges r).asma = a) :
    (rangeDel s r).unpinnedList a = (s.unpinnedList a).erase r := by
  rw [rangeDel_unpinnedList, h, update_self]

theorem rangeDel_other (h : (s.ranges r).asma = a) (hb : b ≠ a) :
    (rangeDel s r).unpinnedList b = s.unpinnedList b := by
  rw [rangeDel_unpinnedList, h, update_of_ne hb]

theorem Linked.mem_rangeDel (h : Linked s) (hr : r ∈ s.unpinnedList a) (x : RangeId) (b : AreaId) :
    x ∈ (rangeDel s r).unpinnedList b ↔ x ≠ r ∧ x ∈ s.unpinnedList b := by
  have ho := h.owner hr
  by_cases hb : b = a
  · subst b
    rw [rangeDel_self ho, (h.nodup a).mem_erase_iff]
  · rw [rangeDel_other ho hb]
    refine ⟨fun hx => ⟨?_, hx⟩, And.right⟩
    intro he
    subst x
    exact hb ((h.owner hx).symm.trans ho)

theorem Linked.rangeDel (h : Linked s) (hr : r ∈ s.unpinnedList a) : Linked (rangeDel s r) where
  nodup b := by
    have ho := h.owner hr
    by_cases hb : b = a
    · subst b
      rw [rangeDel_self ho]
      exact (h.nodup _).erase _
    · rw [rangeDel_other ho hb]
      exact h.nodup b
  owner hx := by
    rw [rangeDel_ranges]
    exact h.owner ((h.mem_rangeDel hr _ _).1 hx).2
  fresh hx := by
    rw [rangeDel_nextRange]
    exact h.fresh ((h.mem_rangeDel hr _ _).1 hx).2
  lru_nodup := by
    simp only [Ashmem.rangeDel]
    split
    · exact h.lru_nodup.erase _
    · exact h.lru_nodup
  lru_mem x := by
    simp only [h.mem_rangeDel hr, rangeDel_ranges]
    have hl : x ∈ (Ashmem.rangeDel s r).lruList ↔ x ≠ r ∧ x ∈ s.lruList := by
      unfold Ashmem.rangeDel
      by_cases hp : rangeOnLru (s.ranges r)
      · rw [if_pos hp]
        exact h.lru_nodup.mem_erase_iff
      · rw [if_neg hp]
        refine ⟨fun hx => ⟨?_, hx⟩, And.right⟩
        intro he
        subst x
        exact hp ((h.lru_mem r).1 hx).2
    rw [hl, h.lru_mem]
    constructor
    · rintro ⟨hne, ⟨b, hb⟩, hp⟩
      exact ⟨⟨b, hne, hb⟩, hp⟩
    · rintro ⟨⟨b, hne, hb⟩, hp⟩
      exact ⟨hne, ⟨b, hb⟩, hp⟩
  lru_count := by
    unfold Ashmem.rangeDel
    by_cases hp : rangeOnLru (s.ranges r)
    · have hm : r ∈ s.lruList := (h.lru_mem r).2 ⟨⟨a, hr⟩, hp⟩
      have he := sum_map_erase (fun r => rangeSize (s.ranges r)) hm
      simp only [if_pos hp, lruDel, h.lru_count]
      grind
    · simp only [if_neg hp, h.lru_count]

theorem sum_map_update (f : RangeId → AshmemRange) (v : AshmemRange) {l : List RangeId}
    (hn : l.Nodup) (hm : r ∈ l) :
    (l.map fun x => rangeSize (update f r v x)).sum =
      (l.map fun x => rangeSize (f x)).sum - (rangeSize (f r) - rangeSize v) := by
  have hu := sum_map_erase (fun x => rangeSize (update f r v x)) hm
  have ho := sum_map_erase (fun x => rangeSize (f x)) hm
  have he : (l.erase r).map (fun x => rangeSize (update f r v x)) =
      (l.erase r).map (fun x => rangeSize (f x)) := by
    apply map_congr_left
    intro x hx
    rw [update_of_ne (hn.mem_erase_iff.1 hx).1]
  grind

theorem map_update_of_notMem (f : RangeId → AshmemRange) (v : AshmemRange) {l : List RangeId}
    (hm : r ∉ l) : l.map (update f r v) = l.map f := by
  apply map_congr_left
  intro x hx
  rw [update_of_ne]
  intro he
  exact hm (he ▸ hx)

section Shrink

variable (s : State) (r : RangeId) (start stop : UInt32)

@[simp] theorem rangeShrink_unpinnedList :
    (rangeShrink s r start stop).unpinnedList = s.unpinnedList := by
  simp only [rangeShrink]
  split <;> rfl

@[simp] theorem rangeShrink_lruList : (rangeShrink s r start stop).lruList = s.lruList := by
  simp only [rangeShrink]
  split <;> rfl

@[simp] theorem rangeShrink_nextRange : (rangeShrink s r start stop).nextRange = s.nextRange := by
  simp only [rangeShrink]
  split <;> rfl

theorem rangeShrink_ranges : (rangeShrink s r start stop).ranges = update s.ranges r
      { s.ranges r with pgstart := start, pgend := stop } := by
  simp only [rangeShrink]
  split <;> rfl

theorem rangeShrink_asma (x : RangeId) :
    ((rangeShrink s r start stop).ranges x).asma = (s.ranges x).asma := by
  rw [rangeShrink_ranges]
  by_cases hx : x = r
  · subst x
    rw [update_self]
  · rw [update_of_ne hx]

theorem rangeShrink_purged (x : RangeId) :
    ((rangeShrink s r start stop).ranges x).purged = (s.ranges x).purged := by
  rw [rangeShrink_ranges]
  by_cases hx : x = r
  · subst x
    rw [update_self]
  · rw [update_of_ne hx]

end Shrink

theorem Linked.rangeShrink (h : Linked s) (hr : r ∈ s.unpinnedList a) (start stop : UInt32) :
    Linked (rangeShrink s r start stop) where
  nodup b := by
    rw [rangeShrink_unpinnedList]
    exact h.nodup b
  owner hx := by
    rw [rangeShrink_unpinnedList] at hx
    rw [rangeShrink_asma]
    exact h.owner hx
  fresh hx := by
    rw [rangeShrink_unpinnedList] at hx
    rw [rangeShrink_nextRange]
    exact h.fresh hx
  lru_nodup := by
    rw [rangeShrink_lruList]
    exact h.lru_nodup
  lru_mem x := by
    simp only [rangeShrink_lruList, rangeShrink_unpinnedList, rangeOnLru, rangeShrink_purged]
    exact h.lru_mem x
  lru_count := by
    rw [rangeShrink_lruList, rangeShrink_ranges]
    by_cases hp : rangeOnLru (s.ranges r)
    · have hm : r ∈ s.lruList := (h.lru_mem r).2 ⟨⟨a, hr⟩, hp⟩
      rw [sum_map_update _ _ h.lru_nodup hm, ← h.lru_count]
      unfold Ashmem.rangeShrink
      simp only [if_pos hp]
    · have hm : r ∉ s.lruList := fun hm => hp ((h.lru_mem r).1 hm).2
      have he := map_update_of_notMem s.ranges
        { s.ranges r with pgstart := start, pgend := stop } hm
      have he' := congrArg (fun l => (l.map rangeSize).sum) he
      simp only [List.map_map] at he'
      unfold Ashmem.rangeShrink
      simp only [if_neg hp, h.lru_count]
      exact he'.symm

theorem listAddTail_perm (new : RangeId) (entry : Option RangeId) (l : List RangeId) :
    (listAddTail new entry l).Perm (new :: l) := by
  cases entry with
  | none =>
    rw [listAddTail]
    exact perm_append_singleton new l
  | some entry =>
    induction l with
    | nil => exact .refl _
    | cons x l ih =>
      simp only [listAddTail]
      split
      · exact .refl _
      · exact (ih.cons x).trans (.swap new x l)

theorem listAddTail_before (new entry : RangeId) (hn : entry ∉ pre) :
    listAddTail new (some entry) (pre ++ entry :: post) = pre ++ new :: entry :: post := by
  induction pre with
  | nil => simp [listAddTail]
  | cons x pre ih =>
    simp only [mem_cons, not_or] at hn
    simp [listAddTail, Ne.symm hn.1, ih hn.2]

section Alloc

variable (s : State) (asma : AreaId) (prev : Option RangeId) (purged : Purged) (start stop : UInt32)

theorem rangeAlloc_fail : rangeAlloc s false asma prev purged start stop = (-ENOMEM, s) := rfl

theorem rangeAlloc_ranges : (rangeAlloc s true asma prev purged start stop).2.ranges =
      update s.ranges s.nextRange ⟨asma, start, stop, purged⟩ := by
  simp only [rangeAlloc, if_true]
  split <;> rfl

theorem rangeAlloc_unpinnedList : (rangeAlloc s true asma prev purged start stop).2.unpinnedList =
      update s.unpinnedList asma (listAddTail s.nextRange prev (s.unpinnedList asma)) := by
  simp only [rangeAlloc, if_true]
  split <;> rfl

theorem rangeAlloc_nextRange :
    (rangeAlloc s true asma prev purged start stop).2.nextRange = s.nextRange + 1 := by
  simp only [rangeAlloc, if_true]
  split <;> rfl

theorem mem_rangeAlloc (x : RangeId) (b : AreaId) :
    x ∈ (rangeAlloc s true asma prev purged start stop).2.unpinnedList b ↔
      (x = s.nextRange ∧ b = asma) ∨ x ∈ s.unpinnedList b := by
  rw [rangeAlloc_unpinnedList]
  by_cases hb : b = asma
  · subst b
    rw [update_self, (listAddTail_perm _ _ _).mem_iff]
    simp
  · rw [update_of_ne hb]
    simp [hb]

end Alloc

theorem Linked.fresh_ne (h : Linked s) (hr : r ∈ s.unpinnedList a) : r ≠ s.nextRange :=
  Nat.ne_of_lt (h.fresh hr)

theorem Linked.lru_fresh (h : Linked s) : s.nextRange ∉ s.lruList := by
  intro hm
  obtain ⟨⟨a, ha⟩, _⟩ := (h.lru_mem _).1 hm
  exact h.fresh_ne ha rfl

theorem Linked.rangeAlloc (h : Linked s) (zalloc : Bool) (asma : AreaId) (prev : Option RangeId)
    (purged : Purged) (start stop : UInt32) :
    Linked (rangeAlloc s zalloc asma prev purged start stop).2 := by
  cases zalloc with
  | false => exact h
  | true =>
    constructor
    case nodup =>
      intro b
      rw [rangeAlloc_unpinnedList]
      by_cases hb : b = asma
      · subst b
        rw [update_self, (listAddTail_perm _ _ _).nodup_iff, nodup_cons]
        exact ⟨fun hm => h.fresh_ne hm rfl, h.nodup _⟩
      · rw [update_of_ne hb]
        exact h.nodup b
    case owner =>
      intro b x hx
      rw [rangeAlloc_ranges]
      rcases (mem_rangeAlloc ..).1 hx with ⟨hx, hb⟩ | hx
      · rw [hx, hb, update_self]
      · rw [update_of_ne (h.fresh_ne hx)]
        exact h.owner hx
    case fresh =>
      intro b x hx
      rw [rangeAlloc_nextRange]
      rcases (mem_rangeAlloc ..).1 hx with ⟨hx, _⟩ | hx
      · exact hx ▸ Nat.lt_succ_self _
      · exact Nat.lt_succ_of_lt (h.fresh hx)
    case lru_nodup =>
      simp only [Ashmem.rangeAlloc, if_true]
      split
      · rw [lruAdd, (perm_append_singleton _ _).nodup_iff, nodup_cons]
        exact ⟨h.lru_fresh, h.lru_nodup⟩
      · exact h.lru_nodup
    case lru_mem =>
      intro x
      simp only [mem_rangeAlloc, rangeAlloc_ranges]
      by_cases hx : x = s.nextRange
      · subst x
        simp only [update_self, Ashmem.rangeAlloc]
        by_cases hp : purged = .notPurged
        · simp [hp, lruAdd]
        · simp [hp, h.lru_fresh]
      · have hl : x ∈ (Ashmem.rangeAlloc s true asma prev purged start stop).2.lruList ↔
            x ∈ s.lruList := by
          simp only [Ashmem.rangeAlloc, if_true]
          split
          · simp [lruAdd, hx]
          · rfl
        rw [hl, h.lru_mem]
        simp [hx]
    case lru_count =>
      have he := map_update_of_notMem s.ranges ⟨asma, start, stop, purged⟩ h.lru_fresh
      have he' := congrArg (fun l => (l.map rangeSize).sum) he
      simp only [List.map_map, comp_def] at he'
      by_cases hp : purged = .notPurged
      · simp [Ashmem.rangeAlloc, hp, lruAdd, h.lru_count]
        rw [hp] at he'
        rw [he']
      · simp [Ashmem.rangeAlloc, hp, h.lru_count]
        exact he'.symm

theorem Linked.purge (h : Linked s) (hr : r ∈ s.lruList) : Linked (lruDel (setPurged s r) r) where
  nodup := h.nodup
  owner {a x} hx := by
    by_cases he : x = r
    · subst x
      simpa [lruDel, setPurged] using h.owner hx
    · simpa [lruDel, setPurged, update_of_ne he] using h.owner hx
  fresh := h.fresh
  lru_nodup := h.lru_nodup.erase _
  lru_mem x := by
    by_cases he : x = r
    · subst x
      simp [lruDel, setPurged, h.lru_nodup.mem_erase_iff]
    · simpa [lruDel, setPurged, he] using h.lru_mem x
  lru_count := by
    have he := sum_map_erase (fun x => rangeSize (s.ranges x)) hr
    have hm : r ∉ s.lruList.erase r := fun hm => (h.lru_nodup.mem_erase_iff.1 hm).1 rfl
    have hu := map_update_of_notMem s.ranges { s.ranges r with purged := .wasPurged } hm
    have hu' := congrArg (fun l => (l.map rangeSize).sum) hu
    simp only [List.map_map, comp_def] at hu'
    simp only [lruDel, setPurged, h.lru_count, ← he, hu', update_self]
    simp only [rangeSize]
    grind

/-- An interval of pages, or one without any where such are allowed. -/
abbrev Spans (empty : Prop) (p q : UInt32) : Prop := p ≤ q ∨ (empty ∧ p = q + 1)

structure Descending (empty : Prop) (l : List AshmemRange) : Prop where
  spans : ∀ r ∈ l, Spans empty r.pgstart r.pgend
  below : l.Pairwise fun r r' => r'.pgend < r.pgstart

theorem Descending.nil : Descending empty [] := ⟨by simp, .nil⟩

theorem Descending.nonempty (h : Descending False l) : ∀ r ∈ l, r.pgstart ≤ r.pgend :=
  fun r hr => (h.spans r hr).resolve_right fun he => he.1

theorem descending_cons : Descending empty (r :: l) ↔ Spans empty r.pgstart r.pgend ∧
    (∀ r' ∈ l, r'.pgend < r.pgstart) ∧ Descending empty l := by
  constructor
  · rintro ⟨hn, hb⟩
    rw [pairwise_cons] at hb
    exact ⟨hn r (by simp), hb.1, fun r' hr' => hn r' (by simp [hr']), hb.2⟩
  · rintro ⟨hr, hb, hl⟩
    refine ⟨?_, pairwise_cons.2 ⟨hb, hl.below⟩⟩
    intro r' hr'
    rcases mem_cons.1 hr' with he | hr'
    · exact he ▸ hr
    · exact hl.spans r' hr'

theorem descending_append : Descending empty (l ++ l') ↔ Descending empty l ∧
    Descending empty l' ∧ ∀ r ∈ l, ∀ r' ∈ l', r'.pgend < r.pgstart := by
  constructor
  · rintro ⟨hs, hb⟩
    rw [pairwise_append] at hb
    exact ⟨⟨fun r hr => hs r (mem_append_left _ hr), hb.1⟩,
      ⟨fun r hr => hs r (mem_append_right _ hr), hb.2.1⟩, hb.2.2⟩
  · rintro ⟨hl, hl', hb⟩
    refine ⟨fun r hr => ?_, pairwise_append.2 ⟨hl.below, hl'.below, hb⟩⟩
    exact (mem_append.1 hr).elim (hl.spans r) (hl'.spans r)

def Covers (P : Purged → Prop) (l : List AshmemRange) (page : UInt32) : Prop :=
  ∃ r ∈ l, P r.purged ∧ pageInRange r page

@[simp] theorem covers_nil : ¬ Covers P [] page := by simp [Covers]

@[simp] theorem covers_cons : Covers P (r :: l) page ↔
    (P r.purged ∧ pageInRange r page) ∨ Covers P l page := by
  simp [Covers]

@[simp] theorem covers_append :
    Covers P (l ++ l') page ↔ Covers P l page ∨ Covers P l' page := by
  simp [Covers, or_and_right, exists_or]

theorem Covers.bound (h : Covers P l page) (hl : ∀ r ∈ l, r.pgend < b) : page < b := by
  obtain ⟨r, hr, _, _, hp⟩ := h
  grind

/-- `ashmem_pin` on the ranges of one area. -/
def pinRanges (zalloc : Bool) (pgstart pgend : UInt32) : List AshmemRange → List AshmemRange
  | [] => []
  | r :: l =>
    if rangeBeforePage r pgstart then r :: l
    else if pageRangeInRange r pgstart pgend then
      if pageRangeSubsumesRange r pgstart pgend then pinRanges zalloc pgstart pgend l
      else if r.pgstart ≥ pgstart then
        { r with pgstart := pgend + 1 } :: pinRanges zalloc pgstart pgend l
      else if r.pgend ≤ pgend then
        { r with pgend := pgstart - 1 } :: pinRanges zalloc pgstart pgend l
      else if zalloc then
        { r with pgstart := pgend + 1 } :: { r with pgend := pgstart - 1 } :: l
      else { r with pgend := pgstart - 1 } :: l
    else r :: pinRanges zalloc pgstart pgend l

def pinPurged (pgstart pgend : UInt32) : List AshmemRange → Purged → Purged
  | [], ret => ret
  | r :: l, ret =>
    if rangeBeforePage r pgstart then ret
    else if pageRangeInRange r pgstart pgend then
      if r.pgstart ≥ pgstart ∨ r.pgend ≤ pgend then pinPurged pgstart pgend l (ret.or r.purged)
      else ret.or r.purged
    else pinPurged pgstart pgend l ret

theorem pinRanges_bound (zalloc : Bool) (h : Descending empty l) (hl : ∀ r ∈ l, r.pgend < b)
    (hpq : Spans empty p q) : ∀ r ∈ pinRanges zalloc p q l, r.pgend < b := by
  induction l with
  | nil => simp [pinRanges]
  | cons r l ih =>
    obtain ⟨hr, hb, hd⟩ := descending_cons.1 h
    have hlb : ∀ x ∈ l, x.pgend < b := fun x hx => hl x (by simp [hx])
    have ih := ih hd hlb
    intro x hx
    simp only [pinRanges] at hx
    split_ifs at hx
    · exact hl x hx
    · exact ih x hx
    all_goals
      grind

theorem pinRanges_start (zalloc : Bool) (hl : ∀ r ∈ l, r.pgstart < b ∧ r.pgend < b) :
    ∀ r ∈ pinRanges zalloc p q l, r.pgstart < b := by
  induction l with
  | nil => simp [pinRanges]
  | cons r l ih =>
    have ih := ih fun x hx => hl x (by simp [hx])
    intro x hx
    simp only [pinRanges] at hx
    split_ifs at hx
    · exact (hl x hx).1
    · exact ih x hx
    all_goals
      grind

theorem Descending.pinRanges (h : Descending empty l) (hpq : Spans empty p q) :
    Descending empty (pinRanges zalloc p q l) := by
  induction l with
  | nil => exact .nil
  | cons r l ih =>
    obtain ⟨hr, hb, hd⟩ := descending_cons.1 h
    have hlb := pinRanges_bound zalloc hd hb hpq
    have ih := ih hd
    simp only [Ashmem.pinRanges]
    split_ifs with h₁ h₂ h₃ h₄ h₅ h₆
    · exact h
    · exact ih
    · refine descending_cons.2 ⟨by grind, ?_, ih⟩
      intro x hx
      grind
    · exact descending_cons.2 ⟨by grind, hlb, ih⟩
    · refine descending_cons.2 ⟨by grind, ?_, descending_cons.2 ⟨by grind, hb, hd⟩⟩
      intro x hx
      rcases mem_cons.1 hx with he | hx
      · subst x
        grind
      · have := hb x hx
        grind
    · exact descending_cons.2 ⟨by grind, hb, hd⟩
    · exact descending_cons.2 ⟨hr, hlb, ih⟩

theorem covers_pinRanges (h : Descending empty l) (hpq : Spans empty p q)
    (hc : zalloc = true ∨ ∀ r ∈ l, P r.purged → ¬ (r.pgstart < p ∧ q < r.pgend)) (page : UInt32) :
    Covers P (pinRanges zalloc p q l) page ↔ Covers P l page ∧ ¬ (p ≤ page ∧ page ≤ q) := by
  induction l with
  | nil => simp [Ashmem.pinRanges]
  | cons r l ih =>
    obtain ⟨hr, hb, hd⟩ := descending_cons.1 h
    have hlo : Covers P l page → page < r.pgstart := fun hc => hc.bound hb
    simp only [Ashmem.pinRanges]
    split_ifs <;> simp only [covers_cons] at * <;> grind

theorem Purged.or_eq_wasPurged (p q : Purged) :
    p.or q = .wasPurged ↔ p = .wasPurged ∨ q = .wasPurged := by
  cases p <;> simp [Purged.or]

theorem pageRangeInRange_iff (hr : r.pgstart ≤ r.pgend) (hpq : p ≤ q) :
    pageRangeInRange r p q ↔ r.pgstart ≤ q ∧ p ≤ r.pgend := by
  grind

theorem Descending.not_meets (h : Descending False (r :: l)) (hpq : p ≤ q) (hp : r.pgstart ≤ p) :
    ∀ x ∈ l, ¬ pageRangeInRange x p q := by
  obtain ⟨hr, hb, hd⟩ := descending_cons.1 h
  intro x hx
  have hxn := hd.nonempty x hx
  grind

theorem pinPurged_iff (h : Descending False l) (hpq : p ≤ q) (ret : Purged) :
    pinPurged p q l ret = .wasPurged ↔
      ret = .wasPurged ∨ ∃ r ∈ l, pageRangeInRange r p q ∧ r.purged = .wasPurged := by
  induction l generalizing ret with
  | nil => simp [pinPurged]
  | cons r l ih =>
    obtain ⟨hr, hb, hd⟩ := descending_cons.1 h
    have hin : (∃ x ∈ r :: l, pageRangeInRange x p q ∧ x.purged = .wasPurged) ↔
        (pageRangeInRange r p q ∧ r.purged = .wasPurged) ∨
          ∃ x ∈ l, pageRangeInRange x p q ∧ x.purged = .wasPurged := by
      simp
    have hlow (hp : r.pgstart ≤ p) : ¬ ∃ x ∈ l, pageRangeInRange x p q ∧ x.purged = .wasPurged := by
      rintro ⟨x, hx, hm, _⟩
      exact h.not_meets hpq hp x hx hm
    simp only [pinPurged]
    split_ifs with h₁ h₂ h₃
    · have := hlow (by grind)
      grind
    · rw [ih hd, Purged.or_eq_wasPurged]
      grind
    · rw [Purged.or_eq_wasPurged]
      grind
    · rw [ih hd]
      grind

theorem pinPurged_covers (h : Descending empty l) (hp : p ≤ page) (hq : page ≤ q)
    (hc : ret = .wasPurged ∨ Covers (· = .wasPurged) l page) :
    pinPurged p q l ret = .wasPurged := by
  induction l generalizing ret with
  | nil => simpa [pinPurged] using hc
  | cons r l ih =>
    obtain ⟨hr, hb, hd⟩ := descending_cons.1 h
    have hlow : Covers (· = .wasPurged) l page → page < r.pgstart := fun hc => hc.bound hb
    rw [covers_cons] at hc
    simp only [pinPurged]
    split_ifs with h₁ h₂ h₃
    · grind
    · refine ih hd ?_
      rw [Purged.or_eq_wasPurged]
      tauto
    · rw [Purged.or_eq_wasPurged]
      grind
    · exact ih hd (hc.imp_right fun hc => hc.resolve_left (by grind))

theorem minT_le_iff (x y z : UInt32) : minT x y ≤ z ↔ x ≤ z ∨ y ≤ z := by
  grind [minT]

theorem le_maxT_iff (x y z : UInt32) : z ≤ maxT x y ↔ z ≤ x ∨ z ≤ y := by
  grind [maxT]

theorem maxT_lt (hx : x < b) (hy : y < b) : maxT x y < b := by
  grind [maxT]

theorem minT_le_maxT (h : p ≤ q) : minT x p ≤ maxT y q := by
  grind [minT, maxT]

theorem Spans.merge (h : Spans empty p q) (x y : UInt32) :
    Spans empty (minT x p) (maxT y q) := by
  by_cases hpq : p ≤ q
  · exact .inl (minT_le_maxT hpq)
  · obtain ⟨he, rfl⟩ := h.resolve_left hpq
    by_cases hx : minT x (q + 1) ≤ maxT y q
    · exact .inl hx
    · refine .inr ⟨he, ?_⟩
      unfold minT maxT at *
      split_ifs at * <;> grind

/-- A range that the scan of `ashmem_unpin` goes past. -/
abbrev Passed (p q : UInt32) (r : AshmemRange) : Prop :=
  ¬ rangeBeforePage r p ∧ ¬ pageRangeSubsumedByRange r p q ∧ ¬ pageRangeInRange r p q

/-- `ashmem_unpin` on the ranges of one area. -/
inductive Unpins (zalloc : Bool) (asma : AreaId) :
    UInt32 → UInt32 → Purged → List AshmemRange → List AshmemRange → Prop where
  | insert : (∀ r ∈ pre, Passed p q r) → (∀ r ∈ post.head?, rangeBeforePage r p) →
      Unpins zalloc asma p q purged (pre ++ post)
        (pre ++ ((if zalloc then [⟨asma, p, q, purged⟩] else []) ++ post))
  | subsumed : r ∈ l → pageRangeSubsumedByRange r p q → Unpins zalloc asma p q purged l l
  | merge : (∀ x ∈ pre, Passed p q x) → ¬ pageRangeSubsumedByRange r p q →
      pageRangeInRange r p q → Unpins zalloc asma (minT r.pgstart p) (maxT r.pgend q)
        (purged.or r.purged) (pre ++ post) l →
      Unpins zalloc asma p q purged (pre ++ r :: post) l

theorem mem_with {x r : AshmemRange} (hx : x ∈ pre ++ post) : x ∈ pre ++ r :: post :=
  ((sublist_cons_self r post).append_left pre).subset hx

theorem Covers.without (h : Covers P (pre ++ r :: post) page)
    (hr : ¬ (P r.purged ∧ pageInRange r page)) : Covers P (pre ++ post) page := by
  simp only [covers_append, covers_cons] at h ⊢
  exact h.imp_right fun h => h.resolve_left hr

theorem Descending.without (h : Descending empty (pre ++ r :: post)) :
    Descending empty (pre ++ post) ∧ Spans empty r.pgstart r.pgend ∧
      ∀ x ∈ pre ++ post, x.pgend < r.pgstart ∨ r.pgend < x.pgstart := by
  obtain ⟨hpre, hrest, hb⟩ := descending_append.1 h
  obtain ⟨hr, hlow, hpost⟩ := descending_cons.1 hrest
  refine ⟨descending_append.2 ⟨hpre, hpost, fun x hx y hy => hb x hx y (by simp [hy])⟩, hr, ?_⟩
  intro x hx
  rcases mem_append.1 hx with hx | hx
  · exact .inr (hb x hx r (by simp))
  · exact .inl (hlow x hx)

theorem Descending.below_page (h : Descending empty l) (hp : ∀ r ∈ l.head?, rangeBeforePage r p) :
    ∀ r ∈ l, r.pgend < p := by
  cases l with
  | nil => simp
  | cons r l =>
    obtain ⟨hr, hb, -⟩ := descending_cons.1 h
    have hrp := hp r (by simp)
    intro x hx
    rcases mem_cons.1 hx with rfl | hx
    · exact hrp
    · have := hb x hx
      grind

namespace Unpins

variable (h : Unpins zalloc asma p q purged l l')
include h

theorem bound (hl : ∀ r ∈ l, r.pgstart < b ∧ r.pgend < b) (hp : p < b) (hq : q < b) :
    ∀ r ∈ l', r.pgstart < b ∧ r.pgend < b := by
  induction h with
  | insert =>
    intro r hr
    cases zalloc with
    | false => exact hl r (by simpa using hr)
    | true =>
      simp only [if_true, mem_append, mem_singleton] at hr
      rcases hr with hr | rfl | hr
      · exact hl r (by simp [hr])
      · exact ⟨hp, hq⟩
      · exact hl r (by simp [hr])
  | subsumed => exact hl
  | @merge pre p q r post purged l hpre hsub hin h ih =>
    have hr := hl r (by simp)
    exact ih (fun x hx => hl x (mem_with hx)) (by grind [minT]) (maxT_lt hr.2 hq)

theorem descending (hd : Descending empty l) (hpq : Spans empty p q) : Descending empty l' := by
  induction h with
  | @insert pre p q post purged hpre hpost =>
    cases zalloc with
    | false => exact hd
    | true =>
      obtain ⟨hdpre, hdpost, hb⟩ := descending_append.1 hd
      have hlow := hdpost.below_page hpost
      refine descending_append.2 ⟨hdpre, descending_cons.2 ⟨hpq, hlow, hdpost⟩, ?_⟩
      intro x hx y hy
      rcases mem_cons.1 hy with rfl | hy
      · have := hdpre.spans x hx
        have := hpre x hx
        grind
      · exact hb x hx y hy
  | subsumed => exact hd
  | merge hpre hsub hin h ih =>
    obtain ⟨hd', hr, -⟩ := hd.without
    exact ih hd' (hpq.merge ..)

theorem covers (hz : zalloc = true) (hd : Descending empty l) (hpq : Spans empty p q)
    (page : UInt32) : Covers (fun _ => True) l' page ↔
      Covers (fun _ => True) l page ∨ (p ≤ page ∧ page ≤ q) := by
  induction h with
  | insert =>
    simp only [hz, if_true, covers_append, covers_cons, covers_nil, true_and]
    grind
  | subsumed hr hsub =>
    refine ⟨.inl, fun hc => hc.elim id fun hin => ⟨_, hr, trivial, ?_⟩⟩
    grind
  | merge hpre hsub hin h ih =>
    obtain ⟨hd', hr, -⟩ := hd.without
    rw [ih hd' (hpq.merge ..)]
    simp only [covers_append, covers_cons, true_and, minT_le_iff, le_maxT_iff]
    grind

/-- With memory for the new range no page of a purged range is forgotten. -/
theorem purged_kept (hz : zalloc = true) (hd : Descending empty l)
    (hc : (purged = .wasPurged ∧ (p ≤ page ∧ page ≤ q) ∧
      ∀ r ∈ l, ¬ pageRangeSubsumedByRange r p q) ∨ Covers (· = .wasPurged) l page) :
    Covers (· = .wasPurged) l' page := by
  induction h with
  | insert =>
    simp only [hz, if_true, covers_append, covers_cons] at hc ⊢
    tauto
  | subsumed hr hsub => exact hc.resolve_left fun hc => hc.2.2 _ hr hsub
  | @merge pre p q r post purged l hpre hsub hin h ih =>
    obtain ⟨hd', hr, hapart⟩ := hd.without
    simp only [covers_append, covers_cons] at hc ih
    rw [minT_le_iff, le_maxT_iff, Purged.or_eq_wasPurged] at ih
    refine ih hd' ?_
    rcases hc with ⟨hpu, hpage, hno⟩ | hc | ⟨hpu, hpage⟩ | hc
    · refine .inl ⟨.inl hpu, ⟨.inr hpage.1, .inr hpage.2⟩, fun x hx hsub' => ?_⟩
      refine hno x (mem_with hx) ?_
      grind [minT, maxT]
    · exact .inr (.inl hc)
    · refine .inl ⟨.inr hpu, ⟨.inl hpage.1, .inl hpage.2⟩, fun x hx hsub' => ?_⟩
      have := hapart x hx
      grind [minT, maxT]
    · exact .inr (.inr hc)

theorem purged_kept_fail (hz : zalloc = false) (hd : Descending empty l) (hpq : Spans empty p q)
    (hm : (∃ r ∈ l, pageRangeSubsumedByRange r p q) ∨
      ∀ r ∈ l, r.pgstart ≤ r.pgend → pageRangeInRange r p q → r.purged = .notPurged)
    (hc : Covers (· = .wasPurged) l page) : Covers (· = .wasPurged) l' page := by
  induction h with
  | insert => simpa [hz] using hc
  | subsumed hr hsub => exact hc
  | @merge pre p q r post purged l hpre hsub hin h ih =>
    obtain ⟨hd', hr, hapart⟩ := hd.without
    rcases hm with ⟨x, hx, hs⟩ | hm
    · have hx : x ∈ post := by
        simp only [mem_append, mem_cons] at hx
        rcases hx with hx | rfl | hx
        · exact ((hpre x hx).2.1 hs).elim
        · exact (hsub hs).elim
        · exact hx
      -- Only a range without pages is merged before one that has the interval in it.
      have hlow := hapart x (mem_append_right _ hx)
      have hspan := hd'.spans x (mem_append_right _ hx)
      refine ih hd' (hpq.merge ..) (.inl ⟨x, mem_append_right _ hx, ?_⟩)
        (hc.without fun hrp => ?_)
      · grind [minT, maxT]
      · grind
    · refine ih hd' (hpq.merge ..) (.inr fun x hx hn hin' => hm x (mem_with hx) hn ?_)
        (hc.without fun hrp => ?_)
      · have := hapart x hx
        grind [minT, maxT]
      · have hnot := hm r (by simp) (UInt32.le_trans hrp.2.1 hrp.2.2) hin
        rw [hrp.1] at hnot
        cases hnot

end Unpins

end

open BitVec

def PROT_READ : BitVec 32 := 0x1#32
def PROT_WRITE : BitVec 32 := 0x2#32
def PROT_EXEC : BitVec 32 := 0x4#32
def PROT_MASK : BitVec 32 := PROT_EXEC ||| PROT_READ ||| PROT_WRITE
def READ_IMPLIES_EXEC : BitVec 32 := 0x0400000#32
def VM_READ : BitVec 32 := 0x1#32
def VM_WRITE : BitVec 32 := 0x2#32
def VM_EXEC : BitVec 32 := 0x4#32
def VM_MAYREAD : BitVec 32 := 0x10#32
def VM_MAYWRITE : BitVec 32 := 0x20#32
def VM_MAYEXEC : BitVec 32 := 0x40#32
def VM_CAN_NONLINEAR : BitVec 32 := 0x08000000#32
def EINVAL : Int := 22
def EPERM : Int := 1

def calcVmTrans (x bit1 bit2 : BitVec 32) : BitVec 32 :=
  if bit1 ≤ bit2 then (x &&& bit1) * (bit2 / bit1) else (x &&& bit1) / (bit1 / bit2)

def calcVmProtBits (prot : BitVec 32) : BitVec 32 :=
  calcVmTrans prot PROT_READ VM_READ ||| calcVmTrans prot PROT_WRITE VM_WRITE |||
    calcVmTrans prot PROT_EXEC VM_EXEC

def calcVmMayFlags (prot : BitVec 32) : BitVec 32 :=
  calcVmTrans prot PROT_READ VM_MAYREAD ||| calcVmTrans prot PROT_WRITE VM_MAYWRITE |||
    calcVmTrans prot PROT_EXEC VM_MAYEXEC

/-- The fields of `struct ashmem_area` that mapping and protecting it use. -/
structure AshmemArea where
  file : Option Nat
  size : BitVec 32
  protMask : BitVec 32

def ashmemOpen : AshmemArea := ⟨none, 0#32, PROT_MASK⟩

def setSize (asma : AshmemArea) (size : BitVec 32) : Int × AshmemArea :=
  match asma.file with
  | none => (0, { asma with size := size })
  | some _ => (-EINVAL, asma)

def setProtMask (asma : AshmemArea) (personality prot : BitVec 32) : Int × AshmemArea :=
  if asma.protMask &&& prot ≠ prot then (-EINVAL, asma)
  else
    let prot := if prot &&& PROT_READ ≠ 0#32 ∧ personality &&& READ_IMPLIES_EXEC ≠ 0#32
      then prot ||| PROT_EXEC else prot
    (0, { asma with protMask := prot })

/-- `ashmem_mmap` with the outcome of `shmem_file_setup`; a success yields the final `vm_flags`. -/
def ashmemMmap (asma : AshmemArea) (vmFlags : BitVec 32) (shmemFileSetup : Except Int Nat) :
    Except Int (BitVec 32) × AshmemArea :=
  if asma.size = 0#32 then (.error (-EINVAL), asma)
  else if vmFlags &&& ~~~ calcVmProtBits asma.protMask &&& calcVmProtBits PROT_MASK ≠ 0#32 then
    (.error (-EPERM), asma)
  else
    let vmFlags := vmFlags &&& ~~~ calcVmMayFlags (~~~ asma.protMask)
    match asma.file, shmemFileSetup with
    | none, .error ret => (.error ret, asma)
    | none, .ok vmfile => (.ok (vmFlags ||| VM_CAN_NONLINEAR), { asma with file := some vmfile })
    | some _, _ => (.ok (vmFlags ||| VM_CAN_NONLINEAR), asma)

inductive ProtOp where
  | setSize (size : BitVec 32)
  | setProtMask (personality prot : BitVec 32)
  | mmap (vmFlags : BitVec 32) (shmemFileSetup : Except Int Nat)

def ProtOp.apply (asma : AshmemArea) : ProtOp → AshmemArea
  | .setSize size => (Ashmem.setSize asma size).2
  | .setProtMask personality prot => (Ashmem.setProtMask asma personality prot).2
  | .mmap vmFlags shmemFileSetup => (ashmemMmap asma vmFlags shmemFileSetup).2

/-- An area with its history: the bits ever missing from its mask, and whether the mask grew. -/
structure ProtHistory where
  asma : AshmemArea
  removed : BitVec 32
  grew : Bool

def ProtHistory.init : ProtHistory := ⟨ashmemOpen, 0#32, false⟩

def protStep (t : ProtHistory) (op : ProtOp) : Option ProtHistory :=
  let asma := op.apply t.asma
  some ⟨asma, t.removed ||| PROT_MASK &&& ~~~ asma.protMask,
    t.grew || decide (t.asma.protMask &&& asma.protMask ≠ asma.protMask)⟩

/-- Every mask was a subset of the one before, and no mapping gets a removed protection back. -/
def ProtHistory.OnlyShrinks (t : ProtHistory) : Prop :=
  t.grew = false ∧ ∀ vmFlags shmemFileSetup vmFlags',
    (ashmemMmap t.asma vmFlags shmemFileSetup).1 = .ok vmFlags' →
      vmFlags &&& calcVmProtBits t.removed = 0#32 ∧
      vmFlags' &&& calcVmProtBits t.removed = 0#32 ∧
      vmFlags' &&& calcVmMayFlags t.removed = 0#32

/-- No `READ_IMPLIES_EXEC` caller has a readable mask accepted once `PROT_EXEC` is gone. -/
def KeepsExecRemoved (t : ProtHistory) : ProtOp → Prop
  | .setProtMask personality prot => ¬ (t.asma.protMask &&& prot = prot ∧
      prot &&& PROT_READ ≠ 0#32 ∧ personality &&& READ_IMPLIES_EXEC ≠ 0#32 ∧
      t.asma.protMask &&& PROT_EXEC = 0#32)
  | .setSize _ => True
  | .mmap _ _ => True

theorem and_flag (x : BitVec 32) : x &&& 1#32 = (if x.getLsbD 0 then 1#32 else 0#32) ∧
    x &&& 2#32 = (if x.getLsbD 1 then 2#32 else 0#32) ∧
    x &&& 4#32 = (if x.getLsbD 2 then 4#32 else 0#32) :=
  ⟨and_twoPow x 0, and_twoPow x 1, and_twoPow x 2⟩

theorem and_seven (x : BitVec 32) :
    x &&& 7#32 = (x &&& 1#32) ||| (x &&& 2#32) ||| (x &&& 4#32) := by
  rw [← and_or_distrib_left, ← and_or_distrib_left]
  rfl

theorem calcVmProtBits_eq (prot : BitVec 32) : calcVmProtBits prot = prot &&& 7#32 := by
  obtain ⟨h₀, h₁, h₂⟩ := and_flag prot
  simp only [and_seven, calcVmProtBits, calcVmTrans, PROT_READ, PROT_WRITE, PROT_EXEC, h₀, h₁, h₂]
  cases prot.getLsbD 0 <;> cases prot.getLsbD 1 <;> cases prot.getLsbD 2 <;> rfl

theorem calcVmMayFlags_eq (prot : BitVec 32) : calcVmMayFlags prot = (prot &&& 7#32) <<< 4 := by
  obtain ⟨h₀, h₁, h₂⟩ := and_flag prot
  simp only [and_seven, calcVmMayFlags, calcVmTrans, PROT_READ, PROT_WRITE, PROT_EXEC, h₀, h₁, h₂]
  cases prot.getLsbD 0 <;> cases prot.getLsbD 1 <;> cases prot.getLsbD 2 <;> rfl

theorem ashmemMmap_ok (h : (ashmemMmap asma vmFlags shmemFileSetup).1 = .ok vmFlags') :
    vmFlags &&& ~~~ (asma.protMask &&& 7#32) &&& 7#32 = 0#32 ∧
      vmFlags' = vmFlags &&& ~~~ ((~~~ asma.protMask &&& 7#32) <<< 4) ||| VM_CAN_NONLINEAR := by
  unfold ashmemMmap at h
  simp only [calcVmProtBits_eq, calcVmMayFlags_eq] at h
  split at h
  · cases h
  split at h
  · cases h
  rename_i _ hperm
  refine ⟨not_not.mp hperm, ?_⟩
  split at h
  · cases h
  · exact (Except.ok.inj h).symm
  · exact (Except.ok.inj h).symm

theorem ashmemMmap_respects_mask (hremoved : removed &&& asma.protMask = 0#32)
    (h : (ashmemMmap asma vmFlags shmemFileSetup).1 = .ok vmFlags') :
    vmFlags &&& calcVmProtBits removed = 0#32 ∧ vmFlags' &&& calcVmProtBits removed = 0#32 ∧
      vmFlags' &&& calcVmMayFlags removed = 0#32 := by
  obtain ⟨hperm, rfl⟩ := ashmemMmap_ok h
  have hprot : VM_CAN_NONLINEAR &&& 7#32 = 0#32 := rfl
  have hmay : VM_CAN_NONLINEAR &&& 7#32 <<< 4 = 0#32 := rfl
  rw [calcVmProtBits_eq, calcVmMayFlags_eq]
  refine ⟨?_, ?_, ?_⟩ <;> ext i hi
  · have hp := congrArg (fun x => x.getLsbD i) hperm
    have hr := congrArg (fun x => x.getLsbD i) hremoved
    grind
  · have hp := congrArg (fun x => x.getLsbD i) hperm
    have hr := congrArg (fun x => x.getLsbD i) hremoved
    have hn := congrArg (fun x => x.getLsbD i) hprot
    grind
  · have hr := congrArg (fun x => x.getLsbD (i - 4)) hremoved
    have hn := congrArg (fun x => x.getLsbD i) hmay
    simp only [getLsbD_and, getLsbD_shiftLeft] at hn
    grind

theorem setProtMask_subset (h : KeepsExecRemoved t (.setProtMask personality prot)) :
    t.asma.protMask &&& (setProtMask t.asma personality prot).2.protMask =
      (setProtMask t.asma personality prot).2.protMask := by
  simp only [setProtMask]
  split
  · exact BitVec.and_self
  rename_i hsub
  have hsub : t.asma.protMask &&& prot = prot := not_not.mp hsub
  split
  · rename_i hexec
    have hmask : t.asma.protMask &&& PROT_EXEC = PROT_EXEC := by
      have hne : t.asma.protMask &&& PROT_EXEC ≠ 0#32 := fun h0 =>
        h ⟨hsub, hexec.1, hexec.2, h0⟩
      have hbit := (and_flag t.asma.protMask).2.2
      split at hbit
      · exact hbit
      · exact absurd hbit hne
    rw [and_or_distrib_left, hsub, hmask]
  · exact hsub

theorem setSize_protMask (asma : AshmemArea) (size : BitVec 32) :
    (setSize asma size).2.protMask = asma.protMask := by
  unfold setSize
  split <;> rfl

theorem ashmemMmap_protMask (asma : AshmemArea) (vmFlags : BitVec 32)
    (shmemFileSetup : Except Int Nat) :
    (ashmemMmap asma vmFlags shmemFileSetup).2.protMask = asma.protMask := by
  unfold ashmemMmap
  split
  · rfl
  split
  simp only
  split <;> rfl

theorem ProtOp.apply_subset (h : KeepsExecRemoved t op) :
    t.asma.protMask &&& (op.apply t.asma).protMask = (op.apply t.asma).protMask := by
  cases op with
  | setSize size => simp [ProtOp.apply, setSize_protMask]
  | setProtMask personality prot => exact setProtMask_subset h
  | mmap vmFlags shmemFileSetup => simp [ProtOp.apply, ashmemMmap_protMask]

structure ProtHistory.Exact (t : ProtHistory) : Prop where
  grew : t.grew = false
  removed : t.removed &&& t.asma.protMask = 0#32

theorem ProtHistory.Exact.step (ht : t.Exact)
    (hop : KeepsExecRemoved t op) (h : protStep t op = some t') : t'.Exact := by
  have hsub := ProtOp.apply_subset hop
  cases h
  constructor
  · simp [ht.grew, hsub]
  · ext i hi
    have hs := congrArg (fun x => x.getLsbD i) hsub
    have hr := congrArg (fun x => x.getLsbD i) ht.removed
    grind

theorem ashmem_protections_only_shrink (ops : List ProtOp) (t : ProtHistory)
    (hrun : Run KeepsExecRemoved protStep ProtHistory.init ops t) : t.OnlyShrinks := by
  have ht : t.Exact := hrun.invariant ProtHistory.Exact.step ⟨rfl, rfl⟩
  exact ⟨ht.grew, fun _ _ _ h => ashmemMmap_respects_mask ht.removed h⟩

theorem ashmem_protections_only_shrink_sample :
    ProtHistory.OnlyShrinks ⟨⟨some 7, 4096#32, PROT_READ⟩, PROT_WRITE ||| PROT_EXEC, false⟩ :=
  ashmem_protections_only_shrink
    [.setSize 4096#32, .setProtMask 0#32 PROT_READ, .mmap VM_READ (.ok 7),
      .setProtMask 0#32 PROT_READ] _
    (.cons trivial rfl (.cons (by unfold KeepsExecRemoved; decide) rfl
      (.cons trivial rfl (.cons (by unfold KeepsExecRemoved; decide) rfl (.nil _)))))

/-- A `READ_IMPLIES_EXEC` caller that repeats the mask regains `PROT_EXEC` and maps executably. -/
theorem ashmem_exec_regained : ∃ t, [ProtOp.setSize 4096#32, .setProtMask 0#32 PROT_READ,
      .setProtMask READ_IMPLIES_EXEC PROT_READ].foldlM protStep ProtHistory.init = some t ∧
    t.removed = PROT_WRITE ||| PROT_EXEC ∧ t.asma.protMask = PROT_READ ||| PROT_EXEC ∧
    (ashmemMmap t.asma (VM_READ ||| VM_EXEC) (.ok 7)).1 =
      .ok (VM_READ ||| VM_EXEC ||| VM_CAN_NONLINEAR) ∧ ¬ t.OnlyShrinks :=
  ⟨_, rfl, rfl, rfl, rfl, fun h => absurd h.1 (by decide)⟩

end SpicaKernel.Ashmem
