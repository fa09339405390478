import Mathlib.Algebra.Ring.Nat
import SpicaKernel.SearchTrees

namespace SpicaKernel.Binder
open Function
set_option autoImplicit true

section

open SearchTree (Rebalance)

def PAGE_SIZE : Nat := 4096
def SZ_4M : Nat := 0x400000
def EPERM : Int := 1
def ENOMEM : Int := 12
def FORBIDDEN_MMAP_FLAGS : BitVec 32 := 0x2#32

/-- The size of the header `struct binder_buffer` on the 32-bit target; the data follow it. -/
def SIZEOF_BUFFER : Nat := 40

/-- Arithmetic of a 32-bit `size_t`. -/
def sizeT (n : Nat) : Nat := n % 2 ^ 32

/-- The macro `ALIGN(x, sizeof(void *))`. -/
def align (x : Nat) : Nat := sizeT (x + 3) / 4 * 4

def pageMask (addr : Nat) : Nat := addr / PAGE_SIZE * PAGE_SIZE
def pageAlign (addr : Nat) : Nat := pageMask (addr + (PAGE_SIZE - 1))

/-- The header fields that the allocator reads; the callers own the others. -/
structure BinderBuffer where
  free : Bool
  asyncTransaction : Bool
  dataSize : UInt32
  offsetsSize : UInt32

/-- Buffers are named by their addresses, and `headers` is what the memory holds at each of them. -/
structure BinderProc where
  buffer : Nat
  bufferSize : Nat
  buffers : List Nat
  headers : Nat → BinderBuffer
  freeBuffers : SearchTree Nat
  allocatedBuffers : SearchTree Nat
  freeAsyncSpace : Nat
  pages : Nat → Bool
  vma : Bool

def listNext (x : Nat) : List Nat → Option Nat
  | [] => none
  | a :: l => if a = x then l.head? else listNext x l

def listPrev (x : Nat) : List Nat → Option Nat
  | [] => none
  | [_] => none
  | a :: b :: l => if b = x then some a else listPrev x (b :: l)

def listAdd (new x : Nat) : List Nat → List Nat
  | [] => []
  | a :: l => if a = x then a :: new :: l else a :: listAdd new x l

def bufferData (buffer : Nat) : Nat := buffer + SIZEOF_BUFFER

def binderBufferSize (proc : BinderProc) (buffer : Nat) : Nat :=
  (listNext buffer proc.buffers).getD (proc.buffer + proc.bufferSize) - bufferData buffer

def binderInsertFreeBuffer (balance : Rebalance Nat) (proc : BinderProc) (newBuffer : Nat) :
    Option BinderProc :=
  if (proc.headers newBuffer).free = false then none
  else
    let newBufferSize := binderBufferSize proc newBuffer
    let turn := fun buffer =>
      if (proc.headers buffer).free = false then none
      else some (decide (newBufferSize < binderBufferSize proc buffer))
    (proc.freeBuffers.insert turn newBuffer).map
      fun tree => { proc with freeBuffers := balance.apply tree }

def binderInsertAllocatedBuffer (balance : Rebalance Nat) (proc : BinderProc) (newBuffer : Nat) :
    Option BinderProc :=
  if (proc.headers newBuffer).free = true then none
  else
    let turn := fun buffer =>
      if (proc.headers buffer).free = true then none
      else if newBuffer < buffer then some true
      else if newBuffer > buffer then some false
      else none
    (proc.allocatedBuffers.insert turn newBuffer).map
      fun tree => { proc with allocatedBuffers := balance.apply tree }

def binderBufferLookup (proc : BinderProc) (kernPtr : Nat) : Option (Option Nat) :=
  proc.allocatedBuffers.lookup fun buffer =>
    if (proc.headers buffer).free = true then none else some (compare kernPtr buffer)

/-- What becomes of one page: `alloc_page`, `map_vm_area` or `vm_insert_page` may fail. -/
inductive PageOutcome where
  | ok
  | allocPageFailed
  | mapKernelFailed
  | vmInsertPageFailed
  deriving DecidableEq

structure PageEnv where
  taskMm : Bool
  outcome : Nat → PageOutcome

/-- The loop at `free_range`, from the last page down; `none` is a page freed twice. -/
def freePages (first : Nat) : Nat → (Nat → Bool) → Option (Nat → Bool)
  | 0, pages => some pages
  | n + 1, pages =>
    if pages (first + n) = false then none
    else freePages first n (update pages (first + n) false)

/-- The allocating loop; a failure jumps into the freeing loop, and `none` is `BUG_ON(*page)`. -/
def allocPages (outcome : Nat → PageOutcome) (first : Nat) :
    Nat → Nat → (Nat → Bool) → Option (Int × (Nat → Bool))
  | _, 0, pages => some (0, pages)
  | done, left + 1, pages =>
    let page := first + done
    if pages page = true then none
    else match outcome page with
      | .ok => allocPages outcome first (done + 1) left (update pages page true)
      | .allocPageFailed => (freePages first done pages).map fun pages => (-ENOMEM, pages)
      | .mapKernelFailed | .vmInsertPageFailed =>
        (freePages first (done + 1) (update pages page true)).map fun pages => (-ENOMEM, pages)

def binderUpdatePageRange (env : PageEnv) (proc : BinderProc) (allocate : Bool)
    (start end' : Nat) (vma : Bool) : Option (Int × BinderProc) :=
  if end' ≤ start then some (0, proc)
  else
    let vma := vma || (env.taskMm && proc.vma)
    let first := (start - proc.buffer) / PAGE_SIZE
    let count := (end' - start + (PAGE_SIZE - 1)) / PAGE_SIZE
    if allocate = false then
      (freePages first count proc.pages).map fun pages => (-ENOMEM, { proc with pages := pages })
    else if vma = false then some (-ENOMEM, proc)
    else
      (allocPages env.outcome first 0 count proc.pages).map
        fun (ret, pages) => (ret, { proc with pages := pages })

def alignedSize (dataSize offsetsSize : UInt32) : Nat :=
  sizeT (align dataSize.toNat + align offsetsSize.toNat)

/-- The end of `binder_alloc_buf`; with `bufferSize ≠ size` the rest becomes a free buffer. -/
def claimBuffer (balance : Rebalance Nat) (proc : BinderProc) (buffer size bufferSize : Nat)
    (dataSize offsetsSize : UInt32) (isAsync : Bool) : Option BinderProc := do
  let proc := { proc with
    freeBuffers := balance.apply (proc.freeBuffers.erase buffer)
    headers := update proc.headers buffer { proc.headers buffer with free := false } }
  let proc ← binderInsertAllocatedBuffer balance proc buffer
  let newBuffer := bufferData buffer + size
  let proc ← if bufferSize ≠ size then
      binderInsertFreeBuffer balance { proc with
        buffers := listAdd newBuffer buffer proc.buffers
        headers := update proc.headers newBuffer
          { proc.headers newBuffer with free := true } } newBuffer
    else some proc
  return { proc with
    headers := update proc.headers buffer { proc.headers buffer with
      dataSize := dataSize, offsetsSize := offsetsSize, asyncTransaction := isAsync }
    freeAsyncSpace := if isAsync then proc.freeAsyncSpace - (size + SIZEOF_BUFFER)
      else proc.freeAsyncSpace }

/-- The part of `binder_alloc_buf` behind the search: `bufferSize` bytes of `buffer` get pages. -/
def populateBuffer (env : PageEnv) (balance : Rebalance Nat) (proc : BinderProc)
    (buffer size bufferSize : Nat) (dataSize offsetsSize : UInt32) (isAsync : Bool) :
    Option (Option Nat × BinderProc) :=
  let hasPageAddr := pageMask (bufferData buffer + binderBufferSize proc buffer)
  let endPageAddr := min (pageAlign (bufferData buffer + bufferSize)) hasPageAddr
  match binderUpdatePageRange env proc true (pageAlign (bufferData buffer)) endPageAddr false with
  | none => none
  | some (ret, proc) =>
    if ret ≠ 0 then some (none, proc)
    else
      (claimBuffer balance proc buffer size bufferSize dataSize offsetsSize isAsync).map
        fun proc => (some buffer, proc)

def binderAllocBuf (env : PageEnv) (balance : Rebalance Nat) (proc : BinderProc)
    (dataSize offsetsSize : UInt32) (isAsync : Bool) : Option (Option Nat × BinderProc) :=
  if proc.vma = false then some (none, proc)
  else
    let size := alignedSize dataSize offsetsSize
    if size < dataSize.toNat ∨ size < offsetsSize.toNat then some (none, proc)
    else if isAsync = true ∧ proc.freeAsyncSpace < sizeT (size + SIZEOF_BUFFER) then
      some (none, proc)
    else
      let fit := fun buffer =>
        if (proc.headers buffer).free = false then none
        else some (compare size (binderBufferSize proc buffer))
      match proc.freeBuffers.bestFit fit none with
      | none => none
      | some (none, _) => some (none, proc)
      | some (some buffer, exactFit) =>
        let bufferSize :=
          if exactFit then binderBufferSize proc buffer
          else if size + SIZEOF_BUFFER + 4 ≥ binderBufferSize proc buffer then size
          else size + SIZEOF_BUFFER
        populateBuffer env balance proc buffer size bufferSize dataSize offsetsSize isAsync

def bufferStartPage (buffer : Nat) : Nat := pageMask buffer
def bufferEndPage (buffer : Nat) : Nat := pageMask (bufferData buffer - 1)

/-- `free_page_start` and `free_page_end` of `binder_delete_free_buffer`. -/
def freePageFlags (prev buffer : Nat) (next : Option Nat) : Bool × Bool :=
  let flags := if bufferEndPage prev = bufferStartPage buffer
    then (false, decide (bufferEndPage prev ≠ bufferEndPage buffer)) else (true, true)
  match next with
  | none => flags
  | some next => if bufferStartPage next = bufferEndPage buffer
    then (flags.1 && decide (bufferStartPage next ≠ bufferStartPage buffer), false) else flags

def binderDeleteFreeBuffer (env : PageEnv) (proc : BinderProc) (buffer : Nat) : Option BinderProc :=
  match listPrev buffer proc.buffers with
  | none => none
  | some prev =>
    if (proc.headers prev).free = false then none
    else
      let flags := freePageFlags prev buffer (listNext buffer proc.buffers)
      let proc := { proc with buffers := proc.buffers.erase buffer }
      if flags.1 || flags.2 then
        (binderUpdatePageRange env proc false
          (if flags.1 then bufferStartPage buffer else bufferEndPage buffer)
          ((if flags.2 then bufferEndPage buffer else bufferStartPage buffer) + PAGE_SIZE)
          false).map Prod.snd
      else some proc

/-- The beginning of `binder_free_buf`, up to `buffer->free = 1`. -/
def releaseBuffer (env : PageEnv) (balance : Rebalance Nat) (proc : BinderProc) (buffer : Nat) :
    Option BinderProc :=
  let bufferSize := binderBufferSize proc buffer
  let header := proc.headers buffer
  let size := alignedSize header.dataSize header.offsetsSize
  if header.free = true ∨ size > bufferSize ∨ buffer < proc.buffer ∨
      buffer > proc.buffer + proc.bufferSize then none
  else
    let space := if header.asyncTransaction then proc.freeAsyncSpace + (size + SIZEOF_BUFFER)
      else proc.freeAsyncSpace
    (binderUpdatePageRange env { proc with freeAsyncSpace := space } false
      (pageAlign (bufferData buffer)) (pageMask (bufferData buffer + bufferSize)) false).map
      fun (_, proc) => { proc with
        allocatedBuffers := balance.apply (proc.allocatedBuffers.erase buffer)
        headers := update proc.headers buffer { proc.headers buffer with free := true } }

/-- Merges a free successor of `buffer` into it. -/
def mergeNext (env : PageEnv) (balance : Rebalance Nat) (proc : BinderProc) (buffer : Nat) :
    Option BinderProc :=
  match listNext buffer proc.buffers with
  | none => some proc
  | some next =>
    if (proc.headers next).free = true then
      binderDeleteFreeBuffer env
        { proc with freeBuffers := balance.apply (proc.freeBuffers.erase next) } next
    else some proc

/-- Merges `buffer` into a free predecessor, and yields the buffer that remains. -/
def mergePrev (env : PageEnv) (balance : Rebalance Nat) (proc : BinderProc) (buffer : Nat) :
    Option (Nat × BinderProc) :=
  match listPrev buffer proc.buffers with
  | none => some (buffer, proc)
  | some prev =>
    if (proc.headers prev).free = true then
      (binderDeleteFreeBuffer env proc buffer).map fun proc =>
        (prev, { proc with freeBuffers := balance.apply (proc.freeBuffers.erase prev) })
    else some (buffer, proc)

def binderFreeBuf (env : PageEnv) (balance : Rebalance Nat) (proc : BinderProc) (buffer : Nat) :
    Option BinderProc := do
  let proc ← releaseBuffer env balance proc buffer
  let proc ← mergeNext env balance proc buffer
  let (buffer, proc) ← mergePrev env balance proc buffer
  binderInsertFreeBuffer balance proc buffer

/-- The user mapping that the memory manager passes to `binder_mmap`. -/
structure VmArea where
  vmFlags : BitVec 32
  vmStart : Nat
  vmEnd : Nat
  nonempty : vmStart < vmEnd
  start_aligned : vmStart % PAGE_SIZE = 0
  end_aligned : vmEnd % PAGE_SIZE = 0

def VmArea.truncatedEnd (vma : VmArea) : Nat :=
  if vma.vmEnd - vma.vmStart > SZ_4M then vma.vmStart + SZ_4M else vma.vmEnd

/-- The kernel area that `get_vm_area` reserves. -/
structure VmStruct where
  addr : Nat
  aligned : addr % PAGE_SIZE = 0

/-- `binder_mmap` of a process without a mapping, on a processor whose cache does not alias;
`memory` is what the area holds, `pageArray` whether `kzalloc` found room. -/
def binderMmap (env : PageEnv) (balance : Rebalance Nat) (memory : Nat → BinderBuffer)
    (vma : VmArea) (area : Option VmStruct) (pageArray : Bool) :
    Option (Except Int BinderProc) :=
  if vma.vmFlags &&& FORBIDDEN_MMAP_FLAGS ≠ 0#32 then some (.error (-EPERM))
  else match area with
    | none => some (.error (-ENOMEM))
    | some area =>
      if pageArray = false then some (.error (-ENOMEM))
      else
        let buffer := area.addr
        let proc : BinderProc := ⟨buffer, vma.truncatedEnd - vma.vmStart, [], memory, .leaf,
          .leaf, 0, fun _ => false, false⟩
        match binderUpdatePageRange env proc true buffer (buffer + PAGE_SIZE) true with
        | none => none
        | some (ret, proc) =>
          if ret ≠ 0 then some (.error (-ENOMEM))
          else
            (binderInsertFreeBuffer balance { proc with
              buffers := [buffer]
              headers := update proc.headers buffer
                { proc.headers buffer with free := true } } buffer).map fun proc =>
              .ok { proc with freeAsyncSpace := proc.bufferSize / 2, vma := true }

/-- The calls on the buffers of a process. `free` ignores what is no allocated buffer. -/
inductive BufferOp where
  | alloc (env : PageEnv) (balance : Rebalance Nat) (dataSize offsetsSize : UInt32) (isAsync : Bool)
  | free (env : PageEnv) (balance : Rebalance Nat) (kernPtr : Nat)
  | vmaClose

def bufferStep (proc : BinderProc) : BufferOp → Option BinderProc
  | .alloc env balance dataSize offsetsSize isAsync =>
    (binderAllocBuf env balance proc dataSize offsetsSize isAsync).map Prod.snd
  | .free env balance kernPtr =>
    match binderBufferLookup proc kernPtr with
    | none => none
    | some none => some proc
    | some (some buffer) => binderFreeBuf env balance proc buffer
  | .vmaClose => some { proc with vma := false }

end

open List

def nextStart (e : Nat) (l : List Nat) : Nat := l.head?.getD e

def Tiled (e : Nat) : List Nat → Prop
  | [] => True
  | a :: l => bufferData a ≤ nextStart e l ∧ Tiled e l

def sizeIn (e : Nat) (l : List Nat) (a : Nat) : Nat := (listNext a l).getD e - bufferData a

@[simp] theorem nextStart_nil (e : Nat) : nextStart e [] = e := rfl

@[simp] theorem nextStart_cons (e a : Nat) (l : List Nat) : nextStart e (a :: l) = a := rfl

theorem nextStart_append (e : Nat) (l l' : List Nat) :
    nextStart e (l ++ l') = nextStart (nextStart e l') l := by
  cases l with
  | nil => rfl
  | cons => rfl

theorem tiled_append : Tiled e (l ++ l') ↔ Tiled (nextStart e l') l ∧ Tiled e l' := by
  induction l with
  | nil => exact ⟨fun h => ⟨trivial, h⟩, fun h => h.2⟩
  | cons a l ih =>
    simp only [List.cons_append, Tiled, nextStart_append, ih]
    exact ⟨fun h => ⟨⟨h.1, h.2.1⟩, h.2.2⟩, fun h => ⟨h.1.1, h.1.2, h.2⟩⟩

theorem Tiled.nextStart_le (h : Tiled e l) : nextStart e l ≤ e := by
  induction l with
  | nil => exact Nat.le_refl e
  | cons a l ih =>
    obtain ⟨ha, hl⟩ := h
    have := ih hl
    simp only [nextStart_cons, bufferData] at ha ⊢
    omega

theorem Tiled.mem_bounds (h : Tiled e l) (ha : a ∈ l) : nextStart e l ≤ a ∧ bufferData a ≤ e := by
  induction l with
  | nil => cases ha
  | cons b l ih =>
    obtain ⟨hb, hl⟩ := h
    have hle := hl.nextStart_le
    rcases mem_cons.mp ha with rfl | ha
    · exact ⟨Nat.le_refl _, Nat.le_trans hb hle⟩
    · obtain ⟨h₁, h₂⟩ := ih hl ha
      refine ⟨?_, h₂⟩
      simp only [nextStart_cons, bufferData] at hb ⊢
      omega

theorem Tiled.sorted (h : Tiled e l) : l.Pairwise (· < ·) := by
  induction l with
  | nil => exact .nil
  | cons a l ih =>
    refine .cons (fun b hb => ?_) (ih h.2)
    have := (h.2.mem_bounds hb).1
    have ha := h.1
    simp only [bufferData, SIZEOF_BUFFER] at ha
    omega

theorem Tiled.nodup (h : Tiled e l) : l.Nodup :=
  h.sorted.imp (Nat.ne_of_lt)

@[simp] theorem listNext_self (a : Nat) (l : List Nat) : listNext a (a :: l) = l.head? := by
  simp [listNext]

theorem listNext_append_right (h : a ∉ l) : listNext a (l ++ l') = listNext a l' := by
  induction l with
  | nil => rfl
  | cons b l ih =>
    rw [mem_cons, not_or] at h
    rw [List.cons_append, listNext, if_neg (Ne.symm h.1), ih h.2]

theorem sizeIn_append_left (h : a ∈ l) : sizeIn e (l ++ l') a = sizeIn (nextStart e l') l a := by
  induction l with
  | nil => cases h
  | cons b l ih =>
    by_cases hb : b = a
    · subst hb
      simp only [sizeIn, List.cons_append, listNext_self]
      cases l with
      | nil => rfl
      | cons c l => rfl
    · have ha : a ∈ l := by
        rcases mem_cons.mp h with rfl | h
        · exact absurd rfl hb
        · exact h
      simpa only [sizeIn, List.cons_append, listNext, if_neg hb] using ih ha

theorem sizeIn_append_right (h : a ∉ l) : sizeIn e (l ++ l') a = sizeIn e l' a := by
  rw [sizeIn, listNext_append_right h, sizeIn]

theorem sizeIn_self (e a : Nat) (l : List Nat) :
    sizeIn e (a :: l) a = nextStart e l - bufferData a := by
  rw [sizeIn, listNext_self, nextStart]

theorem sizeIn_cons_ne (h : a ≠ b) : sizeIn e (a :: l) b = sizeIn e l b := by
  rw [sizeIn, listNext, if_neg h, sizeIn]

theorem sizeIn_splice (hb : b ∈ l ∨ b ∈ l') (hnodup : (l ++ a :: x :: l').Nodup) :
    sizeIn e (l ++ a :: x :: l') b = sizeIn e (l ++ a :: l') b := by
  by_cases hl : b ∈ l
  · rw [sizeIn_append_left hl, sizeIn_append_left hl, nextStart_cons, nextStart_cons]
  · have hl' : b ∈ l' := hb.resolve_left hl
    have hcons := (nodup_append.mp hnodup).2.1
    have ha : a ≠ b := by
      rintro rfl
      exact (nodup_cons.mp hcons).1 (mem_cons_of_mem _ hl')
    have hx : x ≠ b := by
      rintro rfl
      exact (nodup_cons.mp (nodup_cons.mp hcons).2).1 hl'
    rw [sizeIn_append_right hl, sizeIn_append_right hl, sizeIn_cons_ne ha, sizeIn_cons_ne ha,
      sizeIn_cons_ne hx]

theorem listAdd_append (h : a ∉ l) : listAdd x a (l ++ a :: l') = l ++ a :: x :: l' := by
  induction l with
  | nil => simp [listAdd]
  | cons b l ih =>
    rw [mem_cons, not_or] at h
    rw [List.cons_append, listAdd, if_neg (Ne.symm h.1), ih h.2, List.cons_append]

theorem listPrev_append (h : x ∉ l) (ha : a ≠ x) : listPrev x (l ++ a :: x :: l') = some a := by
  induction l with
  | nil => simp [listPrev]
  | cons b l ih =>
    rw [mem_cons, not_or] at h
    have ih := ih h.2
    cases l with
    | nil => simpa only [List.cons_append, nil_append, listPrev, if_neg ha] using ih
    | cons c l =>
      have hc : c ≠ x := fun hcx => h.2 (by simp [hcx])
      simpa only [List.cons_append, listPrev, if_neg hc] using ih

theorem listPrev_head (h : (a :: l).Nodup) : listPrev a (a :: l) = none := by
  have key : ∀ b l, a ∉ b :: l → listPrev a (b :: l) = none := by
    intro b l
    induction l generalizing b with
    | nil => exact fun _ => rfl
    | cons c l ih =>
      intro hb
      simp only [mem_cons, not_or] at hb
      rw [listPrev, if_neg (Ne.symm hb.2.1)]
      exact ih c (by simp only [mem_cons, not_or]; exact hb.2)
  cases l with
  | nil => rfl
  | cons b l =>
    have hb := (nodup_cons.mp h).1
    rw [listPrev, if_neg (fun hba => hb (by simp [hba]))]
    exact key b l hb

theorem erase_append_self {l l' : List Nat} (h : a ∉ l) : (l ++ a :: l').erase a = l ++ l' := by
  rw [erase_append_right _ h, erase_cons_head]

end SpicaKernel.Binder
