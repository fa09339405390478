import Mathlib.Data.List.Basic
import Mathlib.Data.Nat.Bitwise

namespace SpicaKernel.PageAllocator
open Function List
set_option autoImplicit true

inductive MigrateType where
  | unmovable
  | reclaimable
  | movable
  | reserve
  | isolate
  deriving DecidableEq

def MigrateType.all : List MigrateType := [.unmovable, .reclaimable, .movable, .reserve, .isolate]

/-- The table `fallbacks`. The column that is not initialised is the type with number zero. -/
def fallbacks : MigrateType → List MigrateType
  | .unmovable => [.reclaimable, .movable, .reserve, .unmovable]
  | .reclaimable => [.unmovable, .movable, .reserve, .unmovable]
  | .movable => [.reclaimable, .unmovable, .reserve, .unmovable]
  | .reserve => [.reserve, .reserve, .reserve, .unmovable]
  | .isolate => [.unmovable, .unmovable, .unmovable, .unmovable]

/-- `PG_buddy`, `private`, and of compound pages the flags, the first page and the order in `lru`.-/
structure Page where
  buddy : Bool
  priv : Nat
  head : Bool
  tail : Bool
  firstPage : Nat
  lruPrev : Nat

/-- The constants of a zone. -/
structure Layout where
  maxOrder : Nat
  pageblockOrder : Nat
  startPfn : Nat
  spannedPages : Nat
  mobilityDisabled : Bool

def Layout.InZone (L : Layout) (pfn : Nat) : Prop :=
  L.startPfn ≤ pfn ∧ pfn < L.startPfn + L.spannedPages

instance (L : Layout) (pfn : Nat) : Decidable (L.InZone pfn) :=
  inferInstanceAs (Decidable (_ ∧ _))

/-- Pages are named by their frame number, also those of other zones. -/
structure Zone where
  page : Nat → Page
  freeList : Nat → MigrateType → List Nat
  nrFree : Nat → Int
  pageblockType : Nat → MigrateType

def Zone.setPage (z : Zone) (p : Nat) (f : Page → Page) : Zone :=
  { z with page := update z.page p (f (z.page p)) }

def setPageOrder (z : Zone) (p order : Nat) : Zone :=
  z.setPage p fun page => { page with buddy := true, priv := order }

def rmvPageOrder (z : Zone) (p : Nat) : Zone :=
  z.setPage p fun page => { page with buddy := false, priv := 0 }

/-- A page's `lru` is on one list, so this takes it off that one. -/
def listDel (z : Zone) (p : Nat) : Zone :=
  { z with freeList := fun o t => (z.freeList o t).erase p }

def listAdd (z : Zone) (p order : Nat) (migratetype : MigrateType) : Zone :=
  { z with freeList := fun o t =>
      if o = order ∧ t = migratetype then p :: z.freeList o t else z.freeList o t }

def addNrFree (z : Zone) (order : Nat) (d : Int) : Zone :=
  { z with nrFree := update z.nrFree order (z.nrFree order + d) }

def pageFindBuddy (page pageIdx order : Nat) : Nat := page + (pageIdx ^^^ (1 <<< order)) - pageIdx

def findCombinedIndex (pageIdx order : Nat) : Nat := Nat.ldiff pageIdx (1 <<< order)

def pageIsBuddy (L : Layout) (z : Zone) (buddy order : Nat) : Bool :=
  L.InZone buddy && (z.page buddy).buddy && (z.page buddy).priv == order

/-- The loop of `__free_one_page`; the first argument counts the orders up to the largest. -/
def coalesce (L : Layout) : Nat → Zone → Nat → Nat → Nat → Zone × Nat × Nat
  | 0, z, page, _, order => (z, page, order)
  | n + 1, z, page, pageIdx, order =>
    let buddy := pageFindBuddy page pageIdx order
    if pageIsBuddy L z buddy order then
      let z := rmvPageOrder (addNrFree (listDel z buddy) order (-1)) buddy
      let combinedIdx := findCombinedIndex pageIdx order
      coalesce L n z (page + combinedIdx - pageIdx) combinedIdx (order + 1)
    else (z, page, order)

def compoundOrder (z : Zone) (page : Nat) : Nat :=
  if (z.page page).head then (z.page (page + 1)).lruPrev else 0

def pageCompound (z : Zone) (page : Nat) : Bool := (z.page page).head || (z.page page).tail

/-- `destroy_compound_page`: the zone without the flags, and whether something was wrong. -/
def destroyCompoundPage (z : Zone) (page order : Nat) : Zone × Bool :=
  let bad := compoundOrder z page != order || !(z.page page).head
  (range' 1 (2 ^ order - 1)).foldl (fun r i =>
      let p := page + i
      (r.1.setPage p fun q => { q with tail := false },
        r.2 || !(r.1.page p).tail || (r.1.page p).firstPage != page))
    (z.setPage page fun q => { q with head := false }, bad)

def prepCompoundPage (z : Zone) (page order : Nat) : Zone :=
  let z := z.setPage (page + 1) fun q => { q with lruPrev := order }
  let z := z.setPage page fun q => { q with head := true }
  (range' 1 (2 ^ order - 1)).foldl
    (fun z i => z.setPage (page + i) fun q => { q with tail := true, firstPage := page }) z

/-- `set_page_order`, `list_add` and the count at the end of `__free_one_page`. -/
def addFree (z : Zone) (page order : Nat) (migratetype : MigrateType) : Zone :=
  addNrFree (listAdd (setPageOrder z page order) page order migratetype) order 1

/-- `__free_one_page` behind the compound page test. -/
def mergeIn (L : Layout) (z : Zone) (page order : Nat) (migratetype : MigrateType) : Zone :=
  let r := coalesce L (L.maxOrder - 1 - order) z page (page % 2 ^ L.maxOrder) order
  addFree r.1 r.2.1 r.2.2 migratetype

/-- `__free_one_page`; a compound page in disorder is not freed. -/
def freeOnePage (L : Layout) (z : Zone) (page order : Nat) (migratetype : MigrateType) : Zone :=
  if pageCompound z page then
    let r := destroyCompoundPage z page order
    if r.2 then r.1 else mergeIn L r.1 page order migratetype
  else mergeIn L z page order migratetype

/-- Whether `__free_one_page` gives up. -/
def refuses (z : Zone) (page order : Nat) : Bool :=
  pageCompound z page && (destroyCompoundPage z page order).2

/-- The loop of `expand` from order `low + n` down. -/
def expand (page low : Nat) (migratetype : MigrateType) : Nat → Zone → Zone
  | 0, z => z
  | n + 1, z =>
    let high := low + n
    let half := page + 2 ^ high
    expand page low migratetype n
      (setPageOrder (addNrFree (listAdd z half high migratetype) high 1) half high)

/-- The first block of the smallest order with one, from an order up. -/
def smallestBlock (L : Layout) (z : Zone) (order : Nat) (migratetype : MigrateType) :
    Option (Nat × Nat) :=
  (range' order (L.maxOrder - order)).findSome? fun o =>
    (z.freeList o migratetype).head?.map fun page => (o, page)

def rmqueueSmallest (L : Layout) (z : Zone) (order : Nat) (migratetype : MigrateType) :
    Option Nat × Zone :=
  match smallestBlock L z order migratetype with
  | none => (none, z)
  | some (currentOrder, page) =>
    let z := addNrFree (rmvPageOrder (listDel z page) page) currentOrder (-1)
    (some page, expand page order migratetype (currentOrder - order) z)

/-- The loop of `move_freepages`, with the number of pages moved. -/
def moveFreepages (migratetype : MigrateType) (endPage : Nat) (z : Zone) (page : Nat) :
    Zone × Nat :=
  if page ≤ endPage then
    if (z.page page).buddy then
      let order := (z.page page).priv
      let r := moveFreepages migratetype endPage (listAdd (listDel z page) page order migratetype)
        (page + 2 ^ order)
      (r.1, 2 ^ order + r.2)
    else moveFreepages migratetype endPage z (page + 1)
  else (z, 0)
termination_by endPage + 1 - page
decreasing_by
  · have := Nat.two_pow_pos (z.page page).priv
    omega
  · omega

def moveFreepagesBlock (L : Layout) (z : Zone) (page : Nat) (migratetype : MigrateType) :
    Zone × Nat :=
  let startPfn := page - page % 2 ^ L.pageblockOrder
  let endPfn := startPfn + 2 ^ L.pageblockOrder - 1
  let startPage := if startPfn < L.startPfn then page else startPfn
  if L.startPfn + L.spannedPages ≤ endPfn then (z, 0)
  else moveFreepages migratetype endPfn z startPage

def setPageblockMigratetype (L : Layout) (z : Zone) (page : Nat) (migratetype : MigrateType) :
    Zone :=
  let migratetype := if L.mobilityDisabled then .unmovable else migratetype
  { z with
    pageblockType := update z.pageblockType (page / 2 ^ L.pageblockOrder) migratetype }

/-- `change_pageblock_range`, by the number of pageblocks. -/
def changePageblockRange (L : Layout) (migratetype : MigrateType) : Nat → Zone → Nat → Zone
  | 0, z, _ => z
  | n + 1, z, page =>
    changePageblockRange L migratetype n (setPageblockMigratetype L z page migratetype)
      (page + 2 ^ L.pageblockOrder)

/-- The lists that `__rmqueue_fallback` looks at, in its order. -/
def fallbackSlots (L : Layout) (order : Nat) (start : MigrateType) : List (Nat × MigrateType) :=
  (range' order (L.maxOrder - order)).reverse.flatMap fun o =>
    (fallbacks start).map fun t => (o, t)

def fallbackBlock (L : Layout) (z : Zone) (order : Nat) (start : MigrateType) :
    Option (Nat × MigrateType × Nat) :=
  (fallbackSlots L order start).findSome? fun slot =>
    if slot.2 = .reserve then none
    else (z.freeList slot.1 slot.2).head?.map fun page => (slot.1, slot.2, page)

/-- Move all free pages of the block's pageblock, and claim it if over half of it is free. -/
def claimPageblock (L : Layout) (z : Zone) (page : Nat) (start : MigrateType) : Zone :=
  let r := moveFreepagesBlock L z page start
  if 2 ^ (L.pageblockOrder - 1) ≤ r.2 ∨ L.mobilityDisabled then
    setPageblockMigratetype L r.1 page start
  else r.1

def rmqueueFallback (L : Layout) (z : Zone) (order : Nat) (start : MigrateType) :
    Option Nat × Zone :=
  match fallbackBlock L z order start with
  | none => (none, z)
  | some (currentOrder, migratetype, page) =>
    let z := addNrFree z currentOrder (-1)
    let claims : Bool :=
      L.pageblockOrder / 2 ≤ currentOrder || start = .reclaimable || L.mobilityDisabled
    let z := if claims then claimPageblock L z page start else z
    let migratetype := if claims then start else migratetype
    let z := rmvPageOrder (listDel z page) page
    let z :=
      if L.pageblockOrder ≤ currentOrder then
        changePageblockRange L start (2 ^ (currentOrder - L.pageblockOrder)) z page
      else z
    (some page, expand page order migratetype (currentOrder - order) z)

def rmqueue (L : Layout) (z : Zone) (order : Nat) (migratetype : MigrateType) : Option Nat × Zone :=
  match rmqueueSmallest L z order migratetype with
  | (some page, z) => (some page, z)
  | (none, z) =>
    if migratetype = .reserve then (none, z)
    else
      match rmqueueFallback L z order migratetype with
      | (some page, z) => (some page, z)
      | (none, z) => rmqueueSmallest L z order .reserve

def Zone.Free (z : Zone) (p o : Nat) : Prop := ∃ t, p ∈ z.freeList o t

def Zone.listed (z : Zone) (o : Nat) : Nat :=
  (MigrateType.all.map fun t => (z.freeList o t).length).sum

structure Listed (L : Layout) (z : Zone) : Prop where
  nodup : ∀ o t, (z.freeList o t).Nodup
  kind : ∀ {p o t t'}, p ∈ z.freeList o t → p ∈ z.freeList o t' → t = t'
  flagged : ∀ {p o t}, p ∈ z.freeList o t →
    L.InZone p ∧ (z.page p).buddy = true ∧ (z.page p).priv = o
  listed : ∀ {p}, L.InZone p → (z.page p).buddy = true → z.Free p (z.page p).priv
  counted : ∀ o, z.nrFree o = z.listed o

theorem Listed.free_iff (h : Listed L z) :
    z.Free p o ↔ L.InZone p ∧ (z.page p).buddy = true ∧ (z.page p).priv = o := by
  constructor
  · rintro ⟨t, hp⟩
    exact h.flagged hp
  · rintro ⟨hin, hb, rfl⟩
    exact h.listed hin hb

@[simp] theorem setPage_same (z : Zone) : (z.setPage p f).page p = f (z.page p) :=
  update_self ..

theorem length_erase {f : MigrateType → List Nat} (hp : p ∈ f t) (hne : ∀ t', t' ≠ t → p ∉ f t') :
    (MigrateType.all.map fun t => ((f t).erase p).length).sum + 1 =
      (MigrateType.all.map fun t => (f t).length).sum := by
  have hlen := length_erase_of_mem hp
  have hpos := length_pos_of_mem hp
  have hother : ∀ t', t' ≠ t → (f t').erase p = f t' := fun t' ht =>
    erase_of_not_mem (hne t' ht)
  cases t <;> simp [MigrateType.all, hother] <;> omega

theorem length_add (f : MigrateType → List Nat) (p : Nat) (t : MigrateType) :
    (MigrateType.all.map fun t' => (if t' = t then p :: f t' else f t').length).sum =
      (MigrateType.all.map fun t => (f t).length).sum + 1 := by
  cases t <;> simp [MigrateType.all] <;> omega

section Listed

variable (h : Listed L z)
include h

theorem Listed.not_mem_of_ne (hp : p ∈ z.freeList o t) (hne : ¬ (n = o ∧ t' = t)) :
    p ∉ z.freeList n t' := by
  intro hp'
  obtain rfl : o = n := (h.flagged hp).2.2.symm.trans (h.flagged hp').2.2
  exact hne ⟨rfl, h.kind hp' hp⟩

theorem Listed.mem_listDel : q ∈ (listDel z p).freeList n t ↔ q ≠ p ∧ q ∈ z.freeList n t :=
  (h.nodup n t).mem_erase_iff

theorem Listed.listed_listDel (hp : p ∈ z.freeList o t) (n : Nat) :
    ((listDel z p).listed n : Int) = z.listed n - if n = o then 1 else 0 := by
  unfold Zone.listed
  split
  · rename_i hn
    subst hn
    have hsum := length_erase hp fun t' ht => h.not_mem_of_ne hp (by simp [ht])
    simp only [listDel]
    omega
  · rename_i hn
    have hsame : ∀ t', (listDel z p).freeList n t' = z.freeList n t' := fun t' =>
      erase_of_not_mem (h.not_mem_of_ne hp (by simp [hn]))
    simp [hsame]

end Listed

theorem listed_listAdd (z : Zone) (p o : Nat) (t : MigrateType) (n : Nat) :
    ((listAdd z p o t).listed n : Int) = z.listed n + if n = o then 1 else 0 := by
  unfold Zone.listed
  split
  · rename_i hn
    subst hn
    have hsum := length_add (z.freeList n) p t
    simp only [listAdd, true_and]
    omega
  · rename_i hn
    simp [listAdd, hn]

theorem mem_listAdd (z : Zone) :
    q ∈ (listAdd z p o t).freeList n t' ↔ (q = p ∧ n = o ∧ t' = t) ∨ q ∈ z.freeList n t' := by
  simp only [listAdd]
  split
  · rename_i he
    simp [he]
  · rename_i he
    simp [he]

def removeFree (z : Zone) (p o : Nat) : Zone := rmvPageOrder (addNrFree (listDel z p) o (-1)) p

def relist (z : Zone) (p o : Nat) (t : MigrateType) : Zone := listAdd (listDel z p) p o t

theorem removeFree_page (z : Zone) (h : q ≠ p) : (removeFree z p o).page q = z.page q :=
  update_of_ne h ..

theorem addFree_page (z : Zone) (h : q ≠ p) : (addFree z p o t).page q = z.page q :=
  update_of_ne h ..

theorem Listed.remove (h : Listed L z) (hp : p ∈ z.freeList o t) : Listed L (removeFree z p o) where
  nodup n t := (h.nodup n t).erase p
  kind hq hq' := h.kind (h.mem_listDel.mp hq).2 (h.mem_listDel.mp hq').2
  flagged := by
    intro q n t' hq
    obtain ⟨hne, hq⟩ := h.mem_listDel.mp hq
    rw [removeFree_page z hne]
    exact h.flagged hq
  listed := by
    intro q hin hb
    have hne : q ≠ p := by
      rintro rfl
      simp [removeFree, rmvPageOrder] at hb
    rw [removeFree_page z hne] at hb ⊢
    obtain ⟨t', hq⟩ := h.listed hin hb
    exact ⟨t', h.mem_listDel.mpr ⟨hne, hq⟩⟩
  counted := by
    intro n
    have hlen : ((removeFree z p o).listed n : Int) = z.listed n - if n = o then 1 else 0 :=
      h.listed_listDel hp n
    have hcount := h.counted n
    rw [hlen]
    by_cases hn : n = o
    · subst hn
      simp [removeFree, rmvPageOrder, addNrFree, Zone.setPage, listDel]
      omega
    · simp [removeFree, rmvPageOrder, addNrFree, Zone.setPage, listDel, hn, hcount]

theorem Listed.free_removeFree (h : Listed L z) (hp : p ∈ z.freeList o t) :
    (removeFree z p o).Free q n ↔ z.Free q n ∧ ¬ (q = p ∧ n = o) := by
  constructor
  · rintro ⟨t', hq⟩
    obtain ⟨hne, hq⟩ := h.mem_listDel.mp hq
    exact ⟨⟨t', hq⟩, fun he => hne he.1⟩
  · rintro ⟨⟨t', hq⟩, hne⟩
    refine ⟨t', h.mem_listDel.mpr ⟨?_, hq⟩⟩
    rintro rfl
    exact hne ⟨rfl, (h.flagged hq).2.2.symm.trans (h.flagged hp).2.2⟩

theorem free_addFree (z : Zone) : (addFree z p o t).Free q n ↔ z.Free q n ∨ (q = p ∧ n = o) := by
  constructor
  · rintro ⟨t', hq⟩
    rcases (mem_listAdd _).mp hq with ⟨rfl, rfl, -⟩ | hq
    · exact .inr ⟨rfl, rfl⟩
    · exact .inl ⟨t', hq⟩
  · rintro (⟨t', hq⟩ | ⟨rfl, rfl⟩)
    · exact ⟨t', (mem_listAdd _).mpr (.inr hq)⟩
    · exact ⟨t, (mem_listAdd _).mpr (.inl ⟨rfl, rfl, rfl⟩)⟩

section NewBlock

variable {z : Zone} (hout : ∀ n t, p ∉ z.freeList n t)
include hout

theorem nodup_listAdd (h : ∀ n t, (z.freeList n t).Nodup) :
    ((listAdd z p o t).freeList n t').Nodup := by
  simp only [listAdd]
  split
  · exact nodup_cons.mpr ⟨hout n t', h n t'⟩
  · exact h n t'

theorem kind_listAdd (h : ∀ {q n t t'}, q ∈ z.freeList n t → q ∈ z.freeList n t' → t = t')
    (hq : q ∈ (listAdd z p o t).freeList n t₁) (hq' : q ∈ (listAdd z p o t).freeList n t₂) :
    t₁ = t₂ := by
  rcases (mem_listAdd _).mp hq with ⟨rfl, rfl, rfl⟩ | hm <;>
    rcases (mem_listAdd _).mp hq' with ⟨he, hn, ht⟩ | hm'
  · exact ht.symm
  · exact absurd hm' (hout _ _)
  · exact absurd (he ▸ hm) (hout _ _)
  · exact h hm hm'

end NewBlock

theorem Listed.add (h : Listed L z) (hin : L.InZone p) (hb : (z.page p).buddy = false) :
    Listed L (addFree z p o t) := by
  have hout : ∀ n t', p ∉ z.freeList n t' := by
    intro n t' hp
    have := (h.flagged hp).2.1
    simp [hb] at this
  refine ⟨?_, ?_, ?_, ?_, ?_⟩
  · exact fun n t' => nodup_listAdd (z := setPageOrder z p o) hout h.nodup
  · exact kind_listAdd (z := setPageOrder z p o) hout h.kind
  · intro q n t' hq
    rcases (mem_listAdd _).mp hq with ⟨rfl, rfl, rfl⟩ | hq
    · simpa [addFree, setPageOrder, addNrFree, listAdd] using hin
    · have hne : q ≠ p := by
        rintro rfl
        exact hout _ _ hq
      rw [addFree_page z hne]
      exact h.flagged hq
  · intro q hq hbq
    rw [free_addFree]
    by_cases hne : q = p
    · subst hne
      exact .inr ⟨rfl, by simp [addFree, setPageOrder, addNrFree, listAdd]⟩
    · rw [addFree_page z hne] at hbq ⊢
      exact .inl (h.listed hq hbq)
  · intro n
    have hlen : ((addFree z p o t).listed n : Int) = z.listed n + if n = o then 1 else 0 :=
      listed_listAdd (setPageOrder z p o) p o t n
    have hcount := h.counted n
    rw [hlen]
    by_cases hn : n = o
    · subst hn
      simp [addFree, addNrFree, listAdd, setPageOrder, Zone.setPage, hcount]
    · simp [addFree, addNrFree, listAdd, setPageOrder, Zone.setPage, hn, hcount]

theorem Listed.free_relist (h : Listed L z) (hp : p ∈ z.freeList o t) :
    (relist z p o t').Free q n ↔ z.Free q n := by
  constructor
  · rintro ⟨t₁, hq⟩
    rcases (mem_listAdd _).mp hq with ⟨rfl, rfl, -⟩ | hq
    · exact ⟨t, hp⟩
    · exact ⟨t₁, (h.mem_listDel.mp hq).2⟩
  · rintro ⟨t₁, hq⟩
    by_cases he : q = p
    · subst he
      have hn : n = o := (h.flagged hq).2.2.symm.trans (h.flagged hp).2.2
      exact ⟨t', (mem_listAdd _).mpr (.inl ⟨rfl, hn, rfl⟩)⟩
    · exact ⟨t₁, (mem_listAdd _).mpr (.inr (h.mem_listDel.mpr ⟨he, hq⟩))⟩

theorem Listed.move (h : Listed L z) (hp : p ∈ z.freeList o t) : Listed L (relist z p o t') := by
  have hout : ∀ n t', p ∉ (listDel z p).freeList n t' := fun n t' hp' =>
    (h.mem_listDel.mp hp').1 rfl
  refine ⟨?_, ?_, ?_, ?_, ?_⟩
  · exact fun n t₁ => nodup_listAdd hout fun n t => (h.nodup n t).erase p
  · refine kind_listAdd hout fun hq₁ hq₂ => ?_
    exact h.kind (h.mem_listDel.mp hq₁).2 (h.mem_listDel.mp hq₂).2
  · intro q n t₁ hq
    rcases (mem_listAdd _).mp hq with ⟨rfl, rfl, -⟩ | hq
    · exact h.flagged hp
    · exact h.flagged (h.mem_listDel.mp hq).2
  · intro q hq hbq
    exact (h.free_relist hp).mpr (h.listed hq hbq)
  · intro n
    have hlen : ((relist z p o t').listed n : Int) =
        (listDel z p).listed n + if n = o then 1 else 0 := listed_listAdd (listDel z p) p o t' n
    rw [hlen, h.listed_listDel hp]
    have hcount := h.counted n
    change z.nrFree n = _
    omega

end SpicaKernel.PageAllocator
