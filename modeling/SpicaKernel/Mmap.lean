import Mathlib.Algebra.Group.Nat.Defs
import SpicaKernel.RbTreeInsert
import SpicaKernel.Spans

namespace SpicaKernel.Mmap
open RedBlack RbTree
set_option autoImplicit true

def pageSize : Nat := 4096

def taskSize : Nat := 0xBF000000

def PAGE_ALIGN (n : Nat) : Nat := (n + (pageSize - 1)) % 2 ^ 32 / pageSize * pageSize

def VM_LOCKED : BitVec 32 := 0x00002000#32

def VM_CAN_NONLINEAR : BitVec 32 := 0x08000000#32

/-- `VM_IO | VM_DONTEXPAND | VM_RESERVED | VM_PFNMAP`. -/
def VM_SPECIAL : BitVec 32 := 0x000C4400#32

def EINVAL : Int := 22

def ENOMEM : Int := 12

/-- A `vm_area_struct` without links; files, anon_vmas and policies are numbers, 0 for NULL. -/
structure Area where
  start : Nat
  stop : Nat
  pgoff : BitVec 32
  flags : BitVec 32
  file : Nat
  anonVma : Nat
  closes : Bool
  policy : Nat
  deriving DecidableEq

/-- The number of pages between two addresses, as a page offset. -/
def pagesBetween (a b : Nat) : BitVec 32 := BitVec.ofNat 32 ((b - a) / pageSize)

structure Vma where
  area : Area
  next : Ptr

/-- A VMA and its `vm_rb` go by one address; the nodes are those of `rb`, with the root `mm_rb`. -/
structure Mm where
  vmas : Ptr → Option Vma
  rb : Rb
  mmap : Ptr
  mapCount : Nat
  mmapCache : Ptr
  lockedVm : BitVec 32

namespace Mm

def load (mm : Mm) (p : Ptr) : Option Vma := if p = 0#32 then none else mm.vmas p

def put (mm : Mm) (p : Ptr) (v : Vma) : Mm := { mm with vmas := Function.update mm.vmas p (some v) }

/-- A VMA written as a whole, its tree node with it. -/
def install (mm : Mm) (p : Ptr) (v : Vma) (node : RbNode) : Mm :=
  { mm.put p v with rb := mm.rb.put p node }

def free (mm : Mm) (p : Ptr) : Mm := { mm with vmas := Function.update mm.vmas p none }

def modifyArea (mm : Mm) (p : Ptr) (f : Area → Area) : Option Mm := do
  let v ← mm.load p
  return mm.put p { v with area := f v.area }

def setNext (mm : Mm) (p next : Ptr) : Option Mm := do
  let v ← mm.load p
  return mm.put p { v with next := next }

/-- The loop of `find_vma` over the tree. -/
def findVmaLoop (mm : Mm) (addr : Nat) : Nat → Ptr → Ptr → Option Ptr
  | 0, _, _ => none
  | fuel + 1, node, vma =>
    if node = 0#32 then some vma else do
      let tmp ← mm.load node
      let n ← mm.rb.load node
      if addr < tmp.area.stop then
        if tmp.area.start ≤ addr then return node
        else mm.findVmaLoop addr fuel n.left node
      else mm.findVmaLoop addr fuel n.right vma

def cacheHit (mm : Mm) (addr : Nat) : Option Bool :=
  if mm.mmapCache = 0#32 then some false else do
    let v ← mm.load mm.mmapCache
    return decide (addr < v.area.stop) && decide (v.area.start ≤ addr)

def findVma (fuel : Nat) (mm : Mm) (addr : Nat) : Option (Ptr × Mm) := do
  if ← mm.cacheHit addr then return (mm.mmapCache, mm)
  let vma ← mm.findVmaLoop addr fuel mm.rb.root 0#32
  if vma = 0#32 then return (vma, mm)
  return (vma, { mm with mmapCache := vma })

def findVmaPrevLoop (mm : Mm) (addr : Nat) : Nat → Ptr → Ptr → Option Ptr
  | 0, _, _ => none
  | fuel + 1, node, prev =>
    if node = 0#32 then some prev else do
      let tmp ← mm.load node
      let n ← mm.rb.load node
      if addr < tmp.area.stop then mm.findVmaPrevLoop addr fuel n.left prev
      else if tmp.next = 0#32 then return node
      else do
        let next ← mm.load tmp.next
        if addr < next.area.stop then return node
        else mm.findVmaPrevLoop addr fuel n.right node

/-- Returns the VMA found and the one before it. -/
def findVmaPrev (fuel : Nat) (mm : Mm) (addr : Nat) : Option (Ptr × Ptr) := do
  let prev ← mm.findVmaPrevLoop addr fuel mm.rb.root 0#32
  if prev = 0#32 then return (mm.mmap, prev)
  let p ← mm.load prev
  return (p.next, prev)

/-- The loop of `find_vma_prepare`. Returns the VMA, the one before, and the link for a new one. -/
def findVmaPrepareLoop (mm : Mm) (addr : Nat) :
    Nat → Rb.Link → Ptr → Ptr → Ptr → Ptr → Option (Ptr × Ptr × Rb.Link × Ptr)
  | 0, _, _, _, _, _ => none
  | fuel + 1, link, node, parent, vma, prev =>
    if node = 0#32 then some (vma, prev, link, parent) else do
      let tmp ← mm.load node
      let n ← mm.rb.load node
      if addr < tmp.area.stop then
        if tmp.area.start ≤ addr then return (node, prev, link, node)
        else mm.findVmaPrepareLoop addr fuel (.child .left node) n.left node node prev
      else mm.findVmaPrepareLoop addr fuel (.child .right node) n.right node vma node

def findVmaPrepare (fuel : Nat) (mm : Mm) (addr : Nat) : Option (Ptr × Ptr × Rb.Link × Ptr) :=
  mm.findVmaPrepareLoop addr fuel .root mm.rb.root 0#32 0#32 0#32

/-- `__vma_link_list`: without a predecessor the tree's parent is the successor. -/
def vmaLinkList (mm : Mm) (vma prev rbParent : Ptr) : Option Mm :=
  if prev ≠ 0#32 then do
    let p ← mm.load prev
    let mm ← mm.setNext vma p.next
    mm.setNext prev vma
  else do
    let mm := { mm with mmap := vma }
    mm.setNext vma rbParent

def vmaLinkRb (fuel : Nat) (mm : Mm) (vma : Ptr) (link : Rb.Link) (rbParent : Ptr) : Option Mm := do
  let rb ← mm.rb.rbLinkNode vma rbParent link
  let rb ← rb.rbInsertColor fuel vma
  return { mm with rb := rb }

/-- The condition `vma && vma->vm_start < addr`. -/
def startsBelow (mm : Mm) (vma : Ptr) (addr : Nat) : Option Bool :=
  if vma = 0#32 then some false else do
    let v ← mm.load vma
    return decide (v.area.start < addr)

/-- `__insert_vm_struct`; `none` is also its `BUG_ON`. -/
def insertVmStruct (fuel : Nat) (mm : Mm) (vma : Ptr) : Option Mm := do
  let v ← mm.load vma
  let (above, prev, link, rbParent) ← mm.findVmaPrepare fuel v.area.start
  if ← mm.startsBelow above v.area.stop then none
  else
    let mm ← mm.vmaLinkList vma prev rbParent
    let mm ← mm.vmaLinkRb fuel vma link rbParent
    return { mm with mapCount := mm.mapCount + 1 }

def vmaUnlink (fuel : Nat) (mm : Mm) (vma prev : Ptr) : Option Mm := do
  let v ← mm.load vma
  let mm ← mm.setNext prev v.next
  let rb ← mm.rb.rbErase fuel vma
  return { mm with rb := rb, mmapCache := if mm.mmapCache = vma then prev else mm.mmapCache }

/-- What `vma_adjust` decides: the new end, how many of the following VMAs go, by how many pages the
next one moves, and which VMA imports pages of which anon_vma. -/
structure Adjust where
  stop : Nat
  removeNext : Nat
  adjustNext : Int
  importer : Ptr
  anonVma : Nat

/-- The branch at the label `again`. -/
def adjustAgain (next : Area) (vma : Ptr) (stop : Nat) : Adjust :=
  ⟨next.stop, if next.stop < stop then 2 else 1, 0, vma, next.anonVma⟩

/-- The other branches, with a next VMA that reaches beyond `stop`. -/
def adjustPlan (area next : Area) (vma nextPtr : Ptr) (stop : Nat) : Adjust :=
  if next.start < stop then
    ⟨stop, 0, ((stop - next.start) / pageSize : Nat), vma, next.anonVma⟩
  else if stop < area.stop then
    ⟨stop, 0, - ((area.stop - stop) / pageSize : Nat), nextPtr, next.anonVma⟩
  else ⟨stop, 0, 0, 0#32, 0⟩

/-- The importer gets the anon_vma if it has none. -/
def importAnon (mm : Mm) (importer : Ptr) (anon : Nat) : Option Mm :=
  if anon ≠ 0 ∧ importer ≠ 0#32 then
    mm.modifyArea importer fun a => { a with anonVma := if a.anonVma = 0 then anon else a.anonVma }
  else some mm

def shiftStart (pages : Int) (a : Area) : Area :=
  { a with
    start := (a.start + pages * pageSize).toNat
    pgoff := a.pgoff + BitVec.ofInt 32 pages }

def shiftNext (mm : Mm) (next : Ptr) (pages : Int) : Option Mm :=
  if pages ≠ 0 then mm.modifyArea next (shiftStart pages) else some mm

/-- The body of `vma_adjust` from the comparison on, up to the test of `remove_next == 2`. -/
def adjustOnce (fuel : Nat) (mm : Mm) (vma : Ptr) (start : Nat) (pgoff : BitVec 32)
    (insert next : Ptr) (d : Adjust) : Option Mm := do
  let v ← mm.load vma
  let anon :=
    if v.area.anonVma ≠ 0 ∧ (insert ≠ 0#32 ∨ d.importer ≠ 0#32 ∨ start ≠ v.area.start) then
      v.area.anonVma
    else d.anonVma
  let mm ← mm.importAnon d.importer anon
  let mm ← mm.modifyArea vma fun a => { a with start := start, stop := d.stop, pgoff := pgoff }
  let mm ← mm.shiftNext next d.adjustNext
  if d.removeNext ≠ 0 then
    let v ← mm.load vma
    let n ← mm.load next
    let mm ← mm.vmaUnlink fuel next vma
    -- the `BUG_ON` of `__anon_vma_merge`
    if n.area.anonVma ≠ 0 ∧ v.area.anonVma ≠ n.area.anonVma then none
    else return { mm.free next with mapCount := mm.mapCount - 1 }
  else if insert ≠ 0#32 then mm.insertVmStruct fuel insert
  else return mm

/-- The removal of the next VMA, and with `remove_next == 2` of the one after it. -/
def adjustRemove (fuel : Nat) (vma : Ptr) (start : Nat) (pgoff : BitVec 32) :
    Nat → Mm → Nat → Option Mm
  | 0, _, _ => none
  | turns + 1, mm, stop => do
    let v ← mm.load vma
    let n ← mm.load v.next
    let d := adjustAgain n.area vma stop
    let mm ← mm.adjustOnce fuel vma start pgoff 0#32 v.next d
    if d.removeNext = 2 then adjustRemove fuel vma start pgoff turns mm d.stop else return mm

def vmaAdjust (fuel : Nat) (mm : Mm) (vma : Ptr) (start stop : Nat) (pgoff : BitVec 32)
    (insert : Ptr) : Option Mm := do
  let v ← mm.load vma
  if v.next ≠ 0#32 ∧ insert = 0#32 then
    let n ← mm.load v.next
    if n.area.stop ≤ stop then adjustRemove fuel vma start pgoff fuel mm stop
    else mm.adjustOnce fuel vma start pgoff insert v.next (adjustPlan v.area n.area vma v.next stop)
  else mm.adjustOnce fuel vma start pgoff insert v.next ⟨stop, 0, 0, 0#32, 0⟩

/-- What a split is answered: a huge page in the way, the limit on the number of VMAs, the new
structure if there is memory, an error of `mpol_dup`. -/
structure SplitEnv where
  hugeMisaligned : Bool
  maxMapCount : Nat
  alloc : Option Ptr
  mpolError : Option { e : Nat // 0 < e }

def splitArea (a : Area) (addr : Nat) (newBelow : Bool) : Area :=
  if newBelow then { a with stop := addr }
  else { a with start := addr, pgoff := a.pgoff + pagesBetween a.start addr }

def splitAdjust (fuel : Nat) (mm : Mm) (vma new : Ptr) (a : Area) (addr : Nat) (newBelow : Bool) :
    Option Mm :=
  if newBelow then
    mm.vmaAdjust fuel vma addr a.stop (a.pgoff + pagesBetween a.start addr) new
  else mm.vmaAdjust fuel vma a.start addr a.pgoff new

def splitVma (fuel : Nat) (env : SplitEnv) (mm : Mm) (vma : Ptr) (addr : Nat) (newBelow : Bool) :
    Option (Int × Mm) := do
  if env.hugeMisaligned then return (-EINVAL, mm)
  if env.maxMapCount ≤ mm.mapCount then return (-ENOMEM, mm)
  match env.alloc with
  | none => return (-ENOMEM, mm)
  | some new =>
    let v ← mm.load vma
    let node ← mm.rb.load vma
    match env.mpolError with
    | some e => return (-e.val, mm)
    | none =>
      let mm := mm.install new ⟨splitArea v.area addr newBelow, v.next⟩ node
      let mm ← mm.splitAdjust fuel vma new v.area addr newBelow
      return (0, mm)

/-- A VMA that is mlocked goes through `munlock_vma_pages_all`. -/
def munlockVma (mm : Mm) (vma : Ptr) (a : Area) : Option Mm :=
  if a.flags &&& VM_LOCKED ≠ 0#32 then
    { mm with lockedVm := mm.lockedVm - pagesBetween a.start a.stop }.modifyArea vma fun a =>
      { a with flags := a.flags &&& ~~~VM_LOCKED }
  else some mm

/-- The loop of `do_munmap` over the mlocked VMAs. -/
def munlockLoop (stop : Nat) : Nat → Mm → Ptr → Option Mm
  | 0, _, _ => none
  | fuel + 1, mm, tmp =>
    if tmp = 0#32 then some mm else do
      let v ← mm.load tmp
      if v.area.start < stop then
        let mm ← mm.munlockVma tmp v.area
        munlockLoop stop fuel mm v.next
      else return mm

/-- The loop of `detach_vmas_to_be_unmapped`. Returns the last VMA detached and the one after. -/
def detachLoop (fuel stop : Nat) : Nat → Mm → Ptr → Option (Ptr × Ptr × Mm)
  | 0, _, _ => none
  | turns + 1, mm, vma => do
    let rb ← mm.rb.rbErase fuel vma
    let mm := { mm with rb := rb, mapCount := mm.mapCount - 1 }
    let v ← mm.load vma
    if v.next = 0#32 then return (vma, v.next, mm)
    let n ← mm.load v.next
    if n.area.start < stop then detachLoop fuel stop turns mm v.next
    else return (vma, v.next, mm)

/-- The store through `insertion_point`. -/
def setFollower (mm : Mm) (prev vma : Ptr) : Option Mm :=
  if prev ≠ 0#32 then mm.setNext prev vma else some { mm with mmap := vma }

def detachVmasToBeUnmapped (fuel : Nat) (mm : Mm) (vma prev : Ptr) (stop : Nat) : Option Mm := do
  let (tail, vma, mm) ← detachLoop fuel stop fuel mm vma
  let mm ← mm.setFollower prev vma
  let mm ← mm.setNext tail 0#32
  return { mm with mmapCache := 0#32 }

/-- `remove_vma_list`, with the freeing of each VMA in `remove_vma`. -/
def removeVmaList : Nat → Mm → Ptr → Option Mm
  | 0, _, _ => none
  | fuel + 1, mm, vma => do
    let v ← mm.load vma
    let mm := mm.free vma
    if v.next = 0#32 then return mm else removeVmaList fuel mm v.next

/-- The first split of `do_munmap`. Returns the error, the VMA in front, and the `mm_struct`. -/
def splitFirst (fuel : Nat) (env : SplitEnv) (mm : Mm) (vma prev : Ptr) (start : Nat) :
    Option (Int × Ptr × Mm) := do
  let v ← mm.load vma
  if v.area.start < start then
    let (error, mm) ← mm.splitVma fuel env vma start false
    return (error, vma, mm)
  else return (0, prev, mm)

/-- The second split: does the range end inside a VMA? -/
def splitLast (fuel : Nat) (env : SplitEnv) (mm : Mm) (stop : Nat) : Option (Int × Mm) := do
  let (last, mm) ← mm.findVma fuel stop
  if ← mm.startsBelow last stop then mm.splitVma fuel env last stop true else return (0, mm)

def munlock (fuel : Nat) (mm : Mm) (vma : Ptr) (stop : Nat) : Option Mm :=
  if mm.lockedVm ≠ 0#32 then munlockLoop stop fuel mm vma else some mm

def follower (mm : Mm) (prev : Ptr) : Option Ptr :=
  if prev ≠ 0#32 then Vma.next <$> mm.load prev else some mm.mmap

/-- The rest of `do_munmap`, from where no VMA reaches across the bounds of the range. -/
def unmapWhole (fuel : Nat) (mm : Mm) (prev : Ptr) (stop : Nat) : Option Mm := do
  let vma ← mm.follower prev
  let mm ← mm.munlock fuel vma stop
  let mm ← mm.detachVmasToBeUnmapped fuel vma prev stop
  removeVmaList fuel mm vma

/-- `do_munmap` from the first split on, `vma` being the first VMA that overlaps the range. -/
def unmapRange (fuel : Nat) (env₁ env₂ : SplitEnv) (mm : Mm) (vma prev : Ptr) (start stop : Nat) :
    Option (Int × Mm) := do
  let (error, prev, mm) ← mm.splitFirst fuel env₁ vma prev start
  if error ≠ 0 then return (error, mm)
  let (error, mm) ← mm.splitLast fuel env₂ stop
  if error ≠ 0 then return (error, mm)
  let mm ← mm.unmapWhole fuel prev stop
  return (0, mm)

/-- The result and the new `mm_struct`; `none` is a fault, a `BUG_ON` or a loop without an end. -/
def doMunmap (fuel : Nat) (env₁ env₂ : SplitEnv) (mm : Mm) (start len : Nat) :
    Option (Int × Mm) := do
  if start % pageSize ≠ 0 ∨ taskSize < start ∨ taskSize - start < len then return (-EINVAL, mm)
  let len := PAGE_ALIGN len
  if len = 0 then return (-EINVAL, mm)
  let (vma, prev) ← mm.findVmaPrev fuel start
  if vma = 0#32 then return (0, mm)
  let stop := (start + len) % 2 ^ 32
  if !(← mm.startsBelow vma stop) then return (0, mm)
  mm.unmapRange fuel env₁ env₂ vma prev start stop

end Mm

def isMergeableVma (a : Area) (file : Nat) (flags : BitVec 32) : Bool :=
  if (a.flags ^^^ flags) &&& ~~~VM_CAN_NONLINEAR ≠ 0#32 then false
  else if a.file ≠ file then false
  else !a.closes

def isMergeableAnonVma (anon₁ anon₂ : Nat) : Bool := anon₁ = 0 || anon₂ = 0 || anon₁ = anon₂

def canVmaMergeBefore (a : Area) (flags : BitVec 32) (anon file : Nat) (pgoff : BitVec 32) : Bool :=
  isMergeableVma a file flags && isMergeableAnonVma anon a.anonVma && a.pgoff = pgoff

def canVmaMergeAfter (a : Area) (flags : BitVec 32) (anon file : Nat) (pgoff : BitVec 32) : Bool :=
  isMergeableVma a file flags && isMergeableAnonVma anon a.anonVma &&
    a.pgoff + pagesBetween a.start a.stop = pgoff

/-- The arguments of `vma_merge` after the first two: a range, and what is to be mapped there. -/
structure Request where
  addr : Nat
  stop : Nat
  flags : BitVec 32
  anonVma : Nat
  file : Nat
  pgoff : BitVec 32
  policy : Nat

/-- Nothing, move the end of the previous VMA up (cases 1, 2, 5, 6 and 7) or down to the range (case
4), or move the bounds of the one after it (cases 3 and 8). -/
inductive Merge where
  | none
  | grow (stop : Nat)
  | shrink
  | lower (stop : Nat) (pgoff : BitVec 32)

def Request.mergesAfter (r : Request) (prev : Area) : Bool :=
  decide (prev.stop = r.addr) && decide (prev.policy = r.policy) &&
    canVmaMergeAfter prev r.flags r.anonVma r.file r.pgoff

def Request.mergesBefore (r : Request) (next : Area) : Bool :=
  decide (r.stop = next.start) && decide (r.policy = next.policy) &&
    canVmaMergeBefore next r.flags r.anonVma r.file (r.pgoff + pagesBetween r.addr r.stop)

/-- The tests of `vma_merge`, on the previous and the next VMA if they exist. -/
def Request.mergePlan (r : Request) (prev next : Option Area) : Merge :=
  match prev.filter r.mergesAfter, next.filter r.mergesBefore with
  | some p, some n => .grow (if isMergeableAnonVma p.anonVma n.anonVma then n.stop else r.stop)
  | some _, .none => .grow r.stop
  | .none, some n =>
    if prev.any fun p => decide (r.addr < p.stop) then .shrink
    else .lower n.stop (n.pgoff - pagesBetween r.addr r.stop)
  | .none, .none => .none

namespace Mm

/-- A VMA that may be NULL, for the tests that start with `next &&` or `prev &&`. -/
def lookup (mm : Mm) (p : Ptr) : Option (Option Vma) :=
  if p = 0#32 then some none else some <$> mm.load p

/-- The VMA after `area` if that one ends with the range (cases 6, 7, 8), or else itself. -/
def mergeNext (mm : Mm) (area : Ptr) (stop : Nat) : Option Ptr := do
  let v ← mm.lookup area
  return match v with
    | some v => if v.area.stop = stop then v.next else area
    | none => area

/-- `vma_merge` once it has decided. Returns the merged VMA, or NULL. -/
def carryOut (fuel : Nat) (mm : Mm) (prev area : Ptr) (addr : Nat) : Merge → Option (Ptr × Mm)
  | .none => some (0#32, mm)
  | .grow stop => do
    let v ← mm.load prev
    let mm ← mm.vmaAdjust fuel prev v.area.start stop v.area.pgoff 0#32
    return (prev, mm)
  | .shrink => do
    let v ← mm.load prev
    let mm ← mm.vmaAdjust fuel prev v.area.start addr v.area.pgoff 0#32
    return (area, mm)
  | .lower stop pgoff => do
    let mm ← mm.vmaAdjust fuel area addr stop pgoff 0#32
    return (area, mm)

def vmaMerge (fuel : Nat) (mm : Mm) (prev : Ptr) (r : Request) : Option (Ptr × Mm) := do
  if r.flags &&& VM_SPECIAL ≠ 0#32 then return (0#32, mm)
  let area ← mm.follower prev
  let next ← mm.mergeNext area r.stop
  let p ← mm.lookup prev
  let n ← mm.lookup next
  mm.carryOut fuel prev area r.addr (r.mergePlan (p.map Vma.area) (n.map Vma.area))

end Mm

open Function IntervalMap List

def first (as : List (Ptr × Area)) (q : Ptr) : Ptr := (as.map Prod.fst).headD q

def last (as : List (Ptr × Area)) : Ptr := (as.map Prod.fst).getLastD 0#32

@[simp] theorem first_nil (q : Ptr) : first [] q = q := rfl

@[simp] theorem first_cons (x : Ptr × Area) (as : List (Ptr × Area)) (q : Ptr) :
    first (x :: as) q = x.1 := rfl

theorem first_append (as bs : List (Ptr × Area)) (q : Ptr) :
    first (as ++ bs) q = first as (first bs q) := by
  cases as <;> rfl

@[simp] theorem last_nil : last [] = 0#32 := rfl

@[simp] theorem last_concat (as : List (Ptr × Area)) (x : Ptr × Area) : last (as ++ [x]) = x.1 := by
  simp [last]

theorem first_mem (h : as ≠ []) : first as q ∈ as.map Prod.fst := by
  cases as with
  | nil => exact absurd rfl h
  | cons x as => simp

def Seg (vmas : Ptr → Option Vma) : List (Ptr × Area) → Ptr → Prop
  | [], _ => True
  | x :: as, q => vmas x.1 = some ⟨x.2, first as q⟩ ∧ Seg vmas as q

theorem seg_append : Seg vmas (as ++ bs) q ↔ Seg vmas as (first bs q) ∧ Seg vmas bs q := by
  induction as with
  | nil => simp [Seg]
  | cons x as ih =>
    rw [List.cons_append, Seg, Seg, first_append]
    tauto

theorem Seg.congr (h : Seg vmas as q) (he : ∀ p ∈ as.map Prod.fst, vmas' p = vmas p) :
    Seg vmas' as q := by
  induction as with
  | nil => trivial
  | cons x as ih =>
    simp only [map_cons, forall_mem_cons] at he
    exact ⟨he.1.trans h.1, ih h.2 he.2⟩

theorem Seg.update (h : Seg vmas as q) (hp : p ∉ as.map Prod.fst) (v : Option Vma) :
    Seg (update vmas p v) as q :=
  h.congr fun x hx => update_of_ne (fun he : x = p => hp (he ▸ hx)) _ _

def Mirrors (rb : Rb) (ps : List Ptr) : Prop := ∃ t, Represents rb t ∧ t.Valid ∧ t.toList = ps

theorem Mirrors.addresses (h : Mirrors rb ps) : Addresses ps := by
  obtain ⟨t, hrep, -, rfl⟩ := h
  exact hrep.addresses

theorem Mirrors.erase (h : Mirrors rb (ps ++ p :: qs)) :
    ∃ rb', (∀ fuel, 2 * (ps ++ p :: qs).length + 1 < fuel → rb.rbErase fuel p = some rb') ∧
      Mirrors rb' (ps ++ qs) := by
  have hp : p ∉ ps := (nodup_middle.mp h.addresses.nodup).notMem ∘ mem_append_left qs
  obtain ⟨t, hrep, hv, ht⟩ := h
  obtain ⟨fs, c, l, r, rfl⟩ := Tree.exists_fill (show p ∈ t.toList by simp [ht])
  obtain ⟨rb', t', hrun, hrep', hv', ht'⟩ := hrep.erase hv
  refine ⟨rb', by rwa [ht] at hrun, t', hrep', hv', ?_⟩
  rw [ht', ht, erase_append_right _ hp, erase_cons_head]

/-- The list, the tree, `map_count` and the cache agree on the VMAs of an address space. -/
structure Linked (mm : Mm) (as : List (Ptr × Area)) : Prop where
  head : mm.mmap = first as 0#32
  list : Seg mm.vmas as 0#32
  tree : Mirrors mm.rb (as.map Prod.fst)
  count : mm.mapCount = as.length
  cache : mm.mmapCache = 0#32 ∨ mm.mmapCache ∈ as.map Prod.fst

abbrev InOrder (as : List (Ptr × Area)) : Prop := Ordered (·.2.start) (·.2.stop) as

structure Good (mm : Mm) (as : List (Ptr × Area)) : Prop where
  linked : Linked mm as
  ordered : InOrder as

/-- What an address space says of a page. -/
structure Page where
  file : Nat
  pgoff : BitVec 32
  flags : BitVec 32
  deriving DecidableEq

def Area.page (a : Area) (addr : Nat) : Page := ⟨a.file, a.pgoff + pagesBetween a.start addr,
    a.flags⟩

def pageAt (as : List (Ptr × Area)) (addr : Nat) : Option Page :=
  valueAt (·.2.start) (·.2.stop) (·.2.page ·) as addr

namespace Mm

@[simp] theorem put_mmap (mm : Mm) (p : Ptr) (v : Vma) : (mm.put p v).mmap = mm.mmap := rfl

@[simp] theorem put_rb (mm : Mm) (p : Ptr) (v : Vma) : (mm.put p v).rb = mm.rb := rfl

@[simp] theorem put_mapCount (mm : Mm) (p : Ptr) (v : Vma) :
    (mm.put p v).mapCount = mm.mapCount := rfl

@[simp] theorem put_mmapCache (mm : Mm) (p : Ptr) (v : Vma) :
    (mm.put p v).mmapCache = mm.mmapCache := rfl

end Mm

namespace Linked

theorem nonnull (h : Linked mm as) (hp : p ∈ as.map Prod.fst) : p ≠ 0#32 :=
  h.tree.addresses.nonnull p hp

theorem apart (h : Linked mm (pre ++ (p, a) :: post)) :
    p ∉ pre.map Prod.fst ∧ p ∉ post.map Prod.fst := by
  have hnd := h.tree.addresses.nodup
  rw [map_append] at hnd
  simpa [not_or] using (nodup_middle.mp hnd).notMem

theorem load (h : Linked mm (pre ++ (p, a) :: post)) : mm.load p = some ⟨a, first post 0#32⟩ := by
  rw [Mm.load, if_neg (h.nonnull (by simp))]
  exact (seg_append.mp h.list).2.1

theorem exists_load (h : Linked mm as) (hp : as.map Prod.fst = ps ++ p :: qs) :
    ∃ pre a post, as = pre ++ (p, a) :: post ∧ pre.map Prod.fst = ps ∧ post.map Prod.fst = qs ∧
      mm.load p = some ⟨a, first post 0#32⟩ := by
  obtain ⟨pre, tail, rfl, hpre, htail⟩ := map_eq_append_iff.mp hp
  obtain ⟨⟨p', a⟩, post, rfl, rfl, hpost⟩ := map_eq_cons_iff.mp htail
  exact ⟨pre, a, post, rfl, hpre, hpost, h.load⟩

theorem modifyArea (h : Linked mm (pre ++ (p, a) :: post)) (f : Area → Area) :
    ∃ mm', mm.modifyArea p f = some mm' ∧ Linked mm' (pre ++ (p, f a) :: post) := by
  obtain ⟨hpre, hpost⟩ := h.apart
  obtain ⟨hlpre, -, hlpost⟩ := seg_append.mp h.list
  refine ⟨mm.put p ⟨f a, first post 0#32⟩, by simp [Mm.modifyArea, h.load], ⟨?_, ?_, ?_, ?_, ?_⟩⟩
  · rw [Mm.put_mmap, h.head, first_append, first_append]
    rfl
  · exact seg_append.mpr ⟨hlpre.update hpre _, by simp [Mm.put], hlpost.update hpost _⟩
  · simpa using h.tree
  · simpa using h.count
  · simpa using h.cache

end Linked

structure NewVma (mm : Mm) (as : List (Ptr × Area)) (p : Ptr) (a : Area) : Prop where
  vma : ∃ n, mm.vmas p = some ⟨a, n⟩
  node : mm.rb.nodes p ≠ none
  aligned : Aligned p
  nonnull : p ≠ 0#32
  apart : p ∉ as.map Prod.fst

theorem Linked.vmaLinkList (h : Linked mm (pre ++ post)) (hnew : NewVma mm (pre ++ post) p a)
    (hparent : pre = [] → parent = first post 0#32) :
    ∃ vmas head, mm.vmaLinkList p (last pre) parent = some { mm with vmas := vmas, mmap := head } ∧
      Seg vmas (pre ++ (p, a) :: post) 0#32 ∧ head = first (pre ++ (p, a) :: post) 0#32 := by
  obtain ⟨n, hn⟩ := hnew.vma
  have hload : mm.load p = some ⟨a, n⟩ := by rw [Mm.load, if_neg hnew.nonnull, hn]
  have hapart := hnew.apart
  rw [map_append, mem_append, not_or] at hapart
  obtain ⟨hpre, hpost⟩ := hapart
  obtain ⟨hlpre, hlpost⟩ := seg_append.mp h.list
  rcases eq_nil_or_concat' pre with rfl | ⟨pre, ⟨q, b⟩, rfl⟩
  · refine ⟨_, p, ?_, ⟨?_, hlpost.update hpost (some ⟨a, first post 0#32⟩)⟩, rfl⟩
    · rw [Mm.vmaLinkList, hparent rfl]
      simp only [Mm.setNext, show Mm.load { mm with mmap := p } p = _ from hload]
      rfl
    · simp
  · have hq : q ≠ 0#32 := h.nonnull (by simp)
    have hqp : q ≠ p := fun he => hpre (by simp [he])
    have hlinked : Linked mm (pre ++ (q, b) :: post) := by simpa using h
    have hlq := hlinked.load
    obtain ⟨hqpre, hqpost⟩ := hlinked.apart
    have hpre' : p ∉ pre.map Prod.fst := fun he => hpre (by simp [he])
    obtain ⟨hlpre, -⟩ := seg_append.mp hlpre
    refine ⟨update (update mm.vmas p (some ⟨a, first post 0#32⟩)) q
      (some ⟨b, p⟩), mm.mmap, ?_, ?_, ?_⟩
    · rw [Mm.vmaLinkList, last_concat, if_pos hq, hlq]
      simp only [Option.bind_eq_bind, Mm.setNext, hload]
      have hlq' : (mm.put p ⟨a, first post 0#32⟩).load q = some ⟨b, first post 0#32⟩ := by
        rw [Mm.load, if_neg hq] at hlq ⊢
        rw [← hlq]
        exact update_of_ne hqp _ _
      simp only [Option.pure_def, Option.bind_some, hlq']
      rfl
    · rw [List.append_assoc]
      refine seg_append.mpr ⟨?_, ?_, ?_, ?_⟩
      · exact (hlpre.update hpre' _).update hqpre _
      · simp
      · simp [update_of_ne hqp.symm]
      · exact (hlpost.update hpost _).update hqpost _
    · rw [h.head]
      simp [first_append]

end SpicaKernel.Mmap
