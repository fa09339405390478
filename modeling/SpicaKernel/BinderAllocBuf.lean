import SpicaKernel.BinderPages

namespace SpicaKernel.Binder
open Function List
set_option autoImplicit true

open SearchTree (Rebalance)

def BinderProc.taken (proc : BinderProc) (a : Nat) (header : BinderBuffer)
    (freeTree allocatedTree : SearchTree Nat) (space : Nat) : BinderProc :=
  { proc with
    freeBuffers := freeTree
    allocatedBuffers := allocatedTree
    headers := update proc.headers a header
    freeAsyncSpace := space }

/-- The beginning of `claimBuffer`: a free buffer changes trees. -/
def BinderProc.moved (balance : Rebalance Nat) (proc : BinderProc) (a : Nat)
    (allocatedTree : SearchTree Nat) : BinderProc :=
  { proc with
    freeBuffers := balance.apply (proc.freeBuffers.erase a)
    allocatedBuffers := allocatedTree
    headers := update proc.headers a { proc.headers a with free := false } }

theorem Indexed.moved (balance : Rebalance Nat)
    (hi : Indexed proc none) (ha : proc.isFree a = true) :
    ∃ t, binderInsertAllocatedBuffer balance
        (proc.moved balance a proc.allocatedBuffers) a = some (proc.moved balance a t) ∧
      t.toList.Perm (a :: proc.allocatedBuffers.toList) ∧ t.toList.Pairwise (· < ·) := by
  have hne : ∀ b ∈ proc.allocatedBuffers.toList, b ≠ a := by
    rintro b hb rfl
    have := ((hi.allocated_mem b).mp hb).2
    simp [ha] at this
  apply binderInsertAllocatedBuffer_spec balance (proc.moved balance a proc.allocatedBuffers) a
  · simp [BinderProc.isFree, BinderProc.moved]
  · intro b hb
    refine ⟨?_, hne b hb⟩
    simp only [BinderProc.isFree, BinderProc.moved, update_of_ne (hne b hb)]
    exact ((hi.allocated_mem b).mp hb).2
  · exact hi.allocated_sorted

theorem claimBuffer_whole (balance : Rebalance Nat) (size : Nat)
    (d o : UInt32) (isAsync : Bool) (hi : Indexed proc none) (ha : proc.isFree a = true) :
    ∃ t₁ t₂, claimBuffer balance proc a size size d o isAsync =
        some (proc.taken a ⟨false, isAsync, d, o⟩ t₁ t₂
          (if isAsync then proc.freeAsyncSpace - (size + SIZEOF_BUFFER)
            else proc.freeAsyncSpace)) ∧
      t₁.toList = proc.freeBuffers.toList.erase a ∧
      t₂.toList.Perm (a :: proc.allocatedBuffers.toList) ∧ t₂.toList.Pairwise (· < ·) := by
  obtain ⟨t₂, he, hperm, hsorted⟩ := hi.moved balance ha
  simp only [BinderProc.moved] at he
  refine ⟨balance.apply (proc.freeBuffers.erase a), t₂, ?_, ?_, hperm, hsorted⟩
  · simp only [claimBuffer, he, Option.bind_eq_bind, Option.bind_some, ne_eq, update_self,
      update_idem]
    rfl
  · rw [balance.toList_apply, SearchTree.toList_erase]

/-- A free buffer `x` in the rest of the free buffer `a`. -/
def BinderProc.splitAt (proc : BinderProc) (a x : Nat) : BinderProc :=
  { proc with
    buffers := listAdd x a proc.buffers
    headers := update proc.headers x { proc.headers x with free := true } }

theorem claimBuffer_split (balance : Rebalance Nat)
    (d o : UInt32) (isAsync : Bool) (hi : Indexed proc none) (ha : proc.isFree a = true)
    (hb : proc.buffers = pre ++ a :: post) (hx : x = bufferData a + size)
    (hnodup : (pre ++ a :: x :: post).Nodup) :
    ∃ t₁ t₂, claimBuffer balance proc a size (size + SIZEOF_BUFFER) d o isAsync =
        some ((proc.splitAt a x).taken a ⟨false, isAsync, d, o⟩ t₁ t₂
          (if isAsync then proc.freeAsyncSpace - (size + SIZEOF_BUFFER)
            else proc.freeAsyncSpace)) ∧
      t₁.toList.Perm (x :: proc.freeBuffers.toList.erase a) ∧
      t₁.toList.Pairwise (fun b c => sizeIn proc.endAddr (pre ++ a :: x :: post) b ≤
        sizeIn proc.endAddr (pre ++ a :: x :: post) c) ∧
      t₂.toList.Perm (a :: proc.allocatedBuffers.toList) ∧ t₂.toList.Pairwise (· < ·) := by
  obtain ⟨t₂, he₂, hperm₂, hsorted₂⟩ := hi.moved balance ha
  have hacons := nodup_cons.mp (nodup_append.mp hnodup).2.1
  have hax : a ≠ x := fun h => hacons.1 (by simp [h])
  have hapre : a ∉ pre := fun h => (nodup_append.mp hnodup).2.2 a h a (by simp) rfl
  have hadd : listAdd x a proc.buffers = pre ++ a :: x :: post := by rw [hb, listAdd_append hapre]
  -- Only `a` loses bytes to the new buffer, and `a` has left the tree.
  have hmem : ∀ b ∈ proc.freeBuffers.toList.erase a, proc.isFree b = true ∧ b ≠ a ∧
      sizeIn proc.endAddr (pre ++ a :: x :: post) b = sizeIn proc.endAddr proc.buffers b := by
    intro b hbt
    obtain ⟨hba, hbt⟩ := hi.free_nodup.mem_erase_iff.mp hbt
    obtain ⟨hbb, hbf, -⟩ := (hi.free_mem b).mp hbt
    rw [hb] at hbb ⊢
    refine ⟨hbf, hba, sizeIn_splice ?_ hnodup⟩
    simpa [hba] using hbb
  obtain ⟨t₁, he₁, hperm₁, hsorted₁⟩ := binderInsertFreeBuffer_spec balance
    ((proc.moved balance a t₂).splitAt a x) x
    (by simp [BinderProc.isFree, BinderProc.splitAt])
    (fun b hbt => by
      simp only [BinderProc.splitAt, BinderProc.moved, balance.toList_apply,
        SearchTree.toList_erase] at hbt
      obtain ⟨hbf, hba, -⟩ := hmem b hbt
      by_cases hbx : b = x
      · simp [BinderProc.isFree, BinderProc.splitAt, hbx]
      · simp only [BinderProc.isFree, BinderProc.splitAt, BinderProc.moved,
          update_of_ne hbx, update_of_ne hba]
        exact hbf)
    (by
      simp only [BinderProc.splitAt, BinderProc.moved, balance.toList_apply,
        SearchTree.toList_erase, binderBufferSize_eq, BinderProc.endAddr, hadd]
      refine (hi.free_sorted.sublist erase_sublist).imp_of_mem ?_
      intro b c hbt hct hbc
      have h₁ := (hmem b hbt).2.2
      have h₂ := (hmem c hct).2.2
      simp only [BinderProc.endAddr] at h₁ h₂
      rw [h₁, h₂]
      exact hbc)
  refine ⟨t₁, t₂, ?_, ?_, ?_, hperm₂, hsorted₂⟩
  · have hne : size + SIZEOF_BUFFER ≠ size := by simp [SIZEOF_BUFFER]
    simp only [BinderProc.moved, BinderProc.splitAt] at he₁ he₂
    simp only [claimBuffer, he₂, Option.bind_eq_bind, Option.bind_some, if_pos hne, ← hx, he₁]
    rw [update_comm hax]
    simp only [update_self, update_idem, update_of_ne hax.symm]
    rfl
  · simpa only [BinderProc.splitAt, BinderProc.moved, balance.toList_apply,
      SearchTree.toList_erase] using hperm₁
  · simpa only [BinderProc.splitAt, BinderProc.moved, binderBufferSize_eq, BinderProc.endAddr,
      hadd] using hsorted₁

/-- The free buffer `a` becomes an allocated one; `mid` are the free buffers made of its rest. -/
structure Claimed (proc proc' : BinderProc) (pre : List Nat) (a : Nat) (mid post : List Nat)
    (isAsync : Bool) (d o : UInt32) : Prop where
  before : proc.buffers = pre ++ a :: post
  after : proc'.buffers = pre ++ a :: (mid ++ post)
  nodup : (pre ++ a :: (mid ++ post)).Nodup
  free : proc.isFree a = true
  header : proc'.headers a = ⟨false, isAsync, d, o⟩
  headers : ∀ b, b ∈ pre ∨ b ∈ post → proc'.headers b = proc.headers b
  rest : ∀ b ∈ mid, proc'.isFree b = true

theorem ne_of_nodup_mid (hn : (pre ++ a :: post).Nodup) : ∀ b, b ∈ pre ∨ b ∈ post → b ≠ a := by
  simp only [nodup_append, nodup_cons, mem_cons] at hn
  rintro b (hbp | hbp) rfl
  · exact hn.2.2 b hbp b (.inl rfl) rfl
  · exact hn.2.1.1 hbp

namespace Claimed

variable {proc proc' : BinderProc} {pre mid post : List Nat} {a : Nat} {d o : UInt32}
  {isAsync : Bool} (h : Claimed proc proc' pre a mid post isAsync d o)
include h

theorem isFree_self : proc'.isFree a = false := by
  rw [BinderProc.isFree, h.header]

theorem isFree_other (b : Nat) (hb : b ∈ pre ∨ b ∈ post) : proc'.isFree b = proc.isFree b := by
  rw [BinderProc.isFree, h.headers b hb, BinderProc.isFree]

theorem mem_iff : b ∈ proc'.buffers ↔ b = a ∨ b ∈ mid ∨ b ∈ pre ∨ b ∈ post := by
  simp only [h.after, mem_append, mem_cons]
  tauto

theorem mem_before : b ∈ proc.buffers ↔ b = a ∨ b ∈ pre ∨ b ∈ post := by
  simp only [h.before, mem_append, mem_cons]
  tauto

theorem new (hb : b ∈ mid) : b ∉ proc.buffers := by
  have hn := h.nodup
  simp only [nodup_append, nodup_cons, mem_append, mem_cons, not_or] at hn
  obtain ⟨-, ⟨⟨ham, -⟩, -, -, hmp⟩, hpre⟩ := hn
  rw [h.mem_before]
  rintro (rfl | hbp | hbp)
  · exact ham hb
  · exact hpre b hbp b (.inr (.inl hb)) rfl
  · exact hmp b hb b hbp rfl

theorem ne (b : Nat) (hb : b ∈ pre ∨ b ∈ post) : b ≠ a := by
  refine ne_of_nodup_mid h.nodup b ?_
  rw [mem_append]
  tauto

section
variable {l : List Nat} (hi : Indexed proc none)
include hi

theorem free_nodup (hfree : l.Perm (mid ++ proc.freeBuffers.toList.erase a)) : l.Nodup := by
  have hmid : mid.Nodup := h.nodup.sublist (((sublist_append_left _ _).cons _).trans
    (sublist_append_right _ _))
  refine hfree.nodup_iff.mpr (nodup_append.mpr ⟨hmid, hi.free_nodup.erase a, ?_⟩)
  rintro b hbm c hc rfl
  exact h.new hbm ((hi.free_mem b).mp (mem_of_mem_erase hc)).1

theorem free_mem (hfree : l.Perm (mid ++ proc.freeBuffers.toList.erase a)) :
    b ∈ l ↔ b ∈ proc'.buffers ∧ proc'.isFree b = true ∧ none ≠ some b := by
  rw [hfree.mem_iff, mem_append, hi.free_nodup.mem_erase_iff, hi.free_mem, h.mem_iff, h.mem_before]
  constructor
  · rintro (hbm | ⟨hba, rfl | hbp, hbf, -⟩)
    · exact ⟨.inr (.inl hbm), h.rest b hbm, by simp⟩
    · exact absurd rfl hba
    · exact ⟨.inr (.inr hbp), (h.isFree_other b hbp).trans hbf, by simp⟩
  · rintro ⟨rfl | hbm | hbp, hbf, -⟩
    · rw [h.isFree_self] at hbf
      cases hbf
    · exact .inl hbm
    · exact .inr ⟨h.ne b hbp, .inr hbp, (h.isFree_other b hbp).symm.trans hbf, by simp⟩

theorem allocated_mem (halloc : l.Perm (a :: proc.allocatedBuffers.toList)) :
    b ∈ l ↔ b ∈ proc'.buffers ∧ proc'.isFree b = false := by
  rw [halloc.mem_iff, mem_cons, hi.allocated_mem, h.mem_iff, h.mem_before]
  constructor
  · rintro (rfl | ⟨rfl | hbp, hbf⟩)
    · exact ⟨.inl rfl, h.isFree_self⟩
    · exact ⟨.inl rfl, h.isFree_self⟩
    · exact ⟨.inr (.inr hbp), (h.isFree_other b hbp).trans hbf⟩
  · rintro ⟨rfl | hbm | hbp, hbf⟩
    · exact .inl rfl
    · rw [h.rest b hbm] at hbf
      cases hbf
    · exact .inr ⟨.inr hbp, (h.isFree_other b hbp).symm.trans hbf⟩

theorem fits
    (hsizes : ∀ b, b ∈ pre ∨ b ∈ post → binderBufferSize proc' b = binderBufferSize proc b)
    (hfit : roundUp d + roundUp o ≤ binderBufferSize proc' a) (hb : b ∈ proc'.buffers)
    (hbf : proc'.isFree b = false) : proc'.payload b ≤ binderBufferSize proc' b := by
  rcases h.mem_iff.mp hb with rfl | hbm | hbp
  · rw [BinderProc.payload, h.header]
    exact hfit
  · rw [h.rest b hbm] at hbf
    cases hbf
  · rw [hsizes b hbp, BinderProc.payload, h.headers b hbp]
    exact hi.fits b (h.mem_before.mpr (.inr hbp)) ((h.isFree_other b hbp).symm.trans hbf)

theorem async (hsize : proc'.bufferSize = proc.bufferSize)
    (hspace : proc'.freeAsyncSpace +
      (if isAsync then roundUp d + roundUp o + SIZEOF_BUFFER else 0) = proc.freeAsyncSpace) :
    proc'.freeAsyncSpace + (proc'.buffers.map proc'.asyncCharge).sum = proc'.bufferSize / 2 := by
  have hpre := sum_asyncCharge_congr (fun b hb => h.headers b (.inl hb))
  have hpost := sum_asyncCharge_congr (fun b hb => h.headers b (.inr hb))
  have hcharge : proc'.asyncCharge a =
      if isAsync then roundUp d + roundUp o + SIZEOF_BUFFER else 0 := by
    rw [BinderProc.asyncCharge, h.header]
    simp [BinderBuffer.asyncCharge, BinderBuffer.payload]
  have h₀ := hi.async
  simp only [h.before, map_append, map_cons, sum_append, sum_cons, asyncCharge_free h.free] at h₀
  simp only [h.after, map_append, map_cons, sum_append, sum_cons, sum_asyncCharge_free h.rest]
  omega

end

theorem mapped (hm : Mapped proc) (hbuffer : proc'.buffer = proc.buffer)
    (hsize : proc'.bufferSize = proc.bufferSize)
    (htiled : Tiled proc.endAddr (pre ++ a :: (mid ++ post)))
    (hrest : ∀ page, Meets page a (nextStart proc.endAddr (mid ++ post)) ∨
        Needed proc'.isFree proc.endAddr page (mid ++ post) ↔
      Meets page a hi ∨ Needed proc.isFree proc.endAddr page post)
    (hpages : proc'.pages = fun i => proc.pages i || inPageRange proc (pageAlign (bufferData a))
      (min (pageAlign (bufferData a + k)) (pageMask (nextStart proc.endAddr post))) i)
    (hhi : hi ≤ nextStart proc.endAddr post)
    (hk : hi = bufferData a + k ∨ (hi = nextStart proc.endAddr post ∧ bufferData a + k ≤ hi ∧
      hi ≤ bufferData a + k + (SIZEOF_BUFFER + 4))) : Mapped proc' := by
  have hend : proc'.endAddr = proc.endAddr := by rw [BinderProc.endAddr, hbuffer, hsize]; rfl
  constructor
  case base => exact hbuffer ▸ hm.base
  case size => exact hsize ▸ hm.size
  case limit => exact hsize ▸ hm.limit
  case first =>
    have hfirst := hm.first
    rw [h.before] at hfirst
    rw [h.after, hbuffer, ← hfirst]
    cases pre <;> rfl
  case tiled =>
    rw [hend, h.after]
    exact htiled
  case pages =>
    intro i
    have ht := hm.tiled
    rw [h.before] at ht
    have hp := hm.pages i
    rw [h.before, needed_mid_free h.free] at hp
    have hextend := (needed_extend proc.isFree hm.endAddr_mod (hm.page_mod i) ht hhi hk).1
    rw [hend, h.after, hbuffer, needed_mid_allocated h.isFree_self (tiled_append.mp htiled).2.1,
      needed_congr (fun b hb => h.isFree_other b (.inl hb)), hrest, hextend, hpages,
      Bool.or_eq_true, hp, inPageRange, decide_eq_true_eq]

theorem separated (hs : Separated proc.isFree (pre ++ a :: post))
    (hmid : mid.length ≤ 1) : Separated proc'.isFree proc'.buffers := by
  obtain ⟨hpre, hpost, -, hnext⟩ := separated_mid.mp hs
  have hpost' := hpost.congr (fun b hb => h.isFree_other b (.inr hb))
  have ha := h.isFree_self
  rw [h.after]
  refine separated_mid.mpr ⟨hpre.congr (fun b hb => h.isFree_other b (.inl hb)), ?_, ?_, ?_⟩
  · match mid, hmid with
    | [], _ => exact hpost'
    | [x], _ =>
      refine isChain_cons.mpr ⟨fun y hy hxy => hnext y hy ⟨h.free, ?_⟩, hpost'⟩
      rw [← h.isFree_other y (.inr (mem_of_mem_head? hy))]
      exact hxy.2
  · rintro x - ⟨-, hx⟩
    rw [ha] at hx
    cases hx
  · rintro y - ⟨hy, -⟩
    rw [ha] at hy
    cases hy

end Claimed

theorem Indexed.withPages (h : Indexed proc out) (pages : Nat → Bool) :
    Indexed { proc with pages := pages } out :=
  ⟨h.free_nodup, h.free_mem, h.free_sorted, h.allocated_mem, h.allocated_sorted, h.fits, h.async⟩

section Taken

variable {proc : BinderProc} {header : BinderBuffer}

theorem taken_headers_self : (proc.taken a header t₁ t₂ space).headers a = header := by
  simp [BinderProc.taken]

theorem taken_headers_other (h : b ≠ a) :
    (proc.taken a header t₁ t₂ space).headers b = proc.headers b := by
  simp only [BinderProc.taken, update_of_ne h]

theorem taken_isFree_other (h : b ≠ a) :
    (proc.taken a header t₁ t₂ space).isFree b = proc.isFree b := by
  rw [BinderProc.isFree, taken_headers_other h, BinderProc.isFree]

end Taken

theorem async_space (h : isAsync = true → n ≤ space) :
    (if isAsync then space - n else space) + (if isAsync then n else 0) = space := by
  cases isAsync with
  | false => rfl
  | true => exact Nat.sub_add_cancel (h rfl)

section Populate

variable {proc : BinderProc} {pre post : List Nat} {a size : Nat} {d o : UInt32} {isAsync : Bool}
  {pages : Nat → Bool}

section
variable (balance : Rebalance Nat) (h : Sound proc) (hb : proc.buffers = pre ++ a :: post)
    (ha : proc.isFree a = true) (hsize : size = roundUp d + roundUp o)
    (hspace : isAsync = true → size + SIZEOF_BUFFER ≤ proc.freeAsyncSpace)
include balance h hb ha hsize hspace

theorem Sound.claim_whole (hfit : size ≤ binderBufferSize proc a)
    (hslack : binderBufferSize proc a ≤ size + SIZEOF_BUFFER + 4)
    (hpages : pages = fun i => proc.pages i || inPageRange proc (pageAlign (bufferData a))
      (min (pageAlign (bufferData a + size)) (pageMask (nextStart proc.endAddr post))) i) :
    ∃ proc', claimBuffer balance { proc with pages := pages } a size size d o isAsync =
      some proc' ∧ Sound proc' := by
  obtain ⟨hm, hi, hs⟩ := h
  have hmid := hm.binderBufferSize_mid hb
  have ht := hm.tiled
  rw [hb] at ht hs
  have had := (tiled_append.mp ht).2.1
  have hother := ne_of_nodup_mid ht.nodup
  obtain ⟨t₁, t₂, he, ht₁, ht₂, ht₂'⟩ := claimBuffer_whole balance size d o isAsync
    (hi.withPages pages) ha
  have hspace' := async_space hspace
  have hc : Claimed proc (BinderProc.taken { proc with pages := pages } a ⟨false, isAsync, d, o⟩
      t₁ t₂ (if isAsync then proc.freeAsyncSpace - (size + SIZEOF_BUFFER)
        else proc.freeAsyncSpace)) pre a [] post isAsync d o :=
    ⟨hb, hb, ht.nodup, ha, taken_headers_self, fun b hb => taken_headers_other (hother b hb),
      by simp⟩
  refine ⟨_, he, ?_, ?_, hc.separated hs (by simp)⟩
  · refine hc.mapped hm rfl rfl ht (fun page => ?_) hpages (Nat.le_refl _) (.inr ⟨rfl, ?_, ?_⟩)
    · rw [nil_append, needed_congr (fun b hb => hc.isFree_other b (.inr hb))]
    · omega
    · omega
  · have hperm : t₁.toList.Perm ([] ++ proc.freeBuffers.toList.erase a) := ht₁ ▸ .refl _
    have hsorted : t₁.toList.Pairwise
        (fun b c => binderBufferSize proc b ≤ binderBufferSize proc c) :=
      ht₁ ▸ hi.free_sorted.sublist erase_sublist
    exact ⟨hc.free_nodup hi hperm, fun b => hc.free_mem hi hperm, hsorted,
      fun b => hc.allocated_mem hi ht₂, ht₂',
      fun b => hc.fits hi (fun _ _ => rfl) (hsize ▸ hfit), hc.async hi rfl (hsize ▸ hspace')⟩

theorem Sound.claim_split (hfit : size + SIZEOF_BUFFER ≤ binderBufferSize proc a)
    (hpages : pages = fun i => proc.pages i || inPageRange proc (pageAlign (bufferData a))
      (min (pageAlign (bufferData a + (size + SIZEOF_BUFFER)))
        (pageMask (nextStart proc.endAddr post))) i) :
    ∃ proc', claimBuffer balance { proc with pages := pages } a size (size + SIZEOF_BUFFER) d o
      isAsync = some proc' ∧ Sound proc' := by
  obtain ⟨hm, hi, hs⟩ := h
  have hmid := hm.binderBufferSize_mid hb
  have ht := hm.tiled
  rw [hb] at ht hs
  obtain ⟨x, hx⟩ : ∃ x, x = bufferData a + size := ⟨_, rfl⟩
  have hxd : bufferData x ≤ nextStart proc.endAddr post := by
    simp only [bufferData] at hx hmid ⊢
    omega
  have ht' : Tiled proc.endAddr (pre ++ a :: x :: post) := by
    refine tiled_append.mpr ⟨(tiled_append.mp ht).1, ?_, hxd, (tiled_append.mp ht).2.2⟩
    rw [hx]
    exact Nat.le_add_right _ _
  have hn := ht'.nodup
  have hother := ne_of_nodup_mid ht.nodup
  have hotherx : ∀ b, b ∈ pre ∨ b ∈ post → b ≠ x := by
    have hn' : ((pre ++ [a]) ++ x :: post).Nodup := by simpa using hn
    intro b hbp
    apply ne_of_nodup_mid hn' b
    simp only [mem_append]
    tauto
  have hxa : x ≠ a := ne_of_nodup_mid hn x (by simp)
  have hadd : listAdd x a proc.buffers = pre ++ a :: x :: post := by
    rw [hb, listAdd_append (fun h => hother a (.inl h) rfl)]
  obtain ⟨t₁, t₂, he, ht₁, ht₁', ht₂, ht₂'⟩ := claimBuffer_split balance d o isAsync
    (hi.withPages pages) ha hb hx hn
  have hspace' := async_space hspace
  refine ⟨_, he, ?_⟩
  generalize hp : BinderProc.taken _ a _ t₁ t₂ _ = proc'
  have hc : Claimed proc proc' pre a [x] post isAsync d o := by
    refine ⟨hb, by rw [← hp]; exact hadd, hn, ha, by rw [← hp, taken_headers_self], ?_, ?_⟩
    · intro b hb
      rw [← hp, taken_headers_other (hother b hb)]
      exact update_of_ne (hotherx b hb) _ _
    · intro b hb
      obtain rfl := mem_singleton.mp hb
      rw [← hp, taken_isFree_other hxa, BinderProc.isFree, BinderProc.splitAt]
      simp
  have hxfree : proc'.isFree x = true := hc.rest x (by simp)
  have hsizes : ∀ b, binderBufferSize proc' b = sizeIn proc.endAddr (pre ++ a :: x :: post) b := by
    intro b
    rw [← hadd, ← hp]
    rfl
  refine ⟨?_, ?_, hc.separated hs (by simp)⟩
  · refine hc.mapped hm (by rw [← hp]; rfl) (by rw [← hp]; rfl) ht' (fun page => ?_)
      (by rw [← hp]; exact hpages) ?_ (.inl rfl)
    · have hxend : bufferData x = bufferData a + (size + SIZEOF_BUFFER) := by
        rw [hx, bufferData, Nat.add_assoc]
      have hax : a ≤ x := hx ▸ Nat.le_trans (Nat.le_add_right _ _) (Nat.le_add_right _ _)
      have hjoin : (Meets page a x ∨ Meets page x (bufferData x)) ↔ Meets page a (bufferData x) :=
        meets_adjacent hax (Nat.le_add_right _ _)
      rw [singleton_append]
      simp only [Needed, hxfree, nextStart_cons, Bool.true_eq_false, false_and, false_or]
      rw [needed_congr (fun b hb => hc.isFree_other b (.inr hb)), ← hxend, ← hjoin, or_assoc]
    · omega
  · have hfree : proc'.freeBuffers.toList.Perm ([x] ++ proc.freeBuffers.toList.erase a) := by
      rw [← hp]
      exact ht₁
    refine ⟨hc.free_nodup hi hfree, fun b => hc.free_mem hi hfree, ?_,
      fun b => hc.allocated_mem hi (by rw [← hp]; exact ht₂), by rw [← hp]; exact ht₂',
      fun b => hc.fits hi ?_ ?_, hc.async hi (by rw [← hp]; rfl) ?_⟩
    · simp only [hsizes]
      rw [← hp]
      exact ht₁'
    · intro b hbp
      rw [hsizes, binderBufferSize_eq, hb, sizeIn_splice hbp hn]
    · rw [hsizes, sizeIn_append_right (fun h => hother a (.inl h) rfl), sizeIn_self, nextStart_cons]
      omega
    · rw [← hp]
      exact hsize ▸ hspace'

end

theorem Sound.populate (env : PageEnv) (balance : Rebalance Nat)
    (h : Sound proc) (ha : a ∈ proc.freeBuffers.toList) (hsize : size = roundUp d + roundUp o)
    (hspace : isAsync = true → size + SIZEOF_BUFFER ≤ proc.freeAsyncSpace)
    (hfit : (bufferSize = size ∧ size ≤ binderBufferSize proc a ∧
        binderBufferSize proc a ≤ size + SIZEOF_BUFFER + 4) ∨
      (bufferSize = size + SIZEOF_BUFFER ∧ size + SIZEOF_BUFFER ≤ binderBufferSize proc a)) :
    ∃ r proc', populateBuffer env balance proc a size bufferSize d o isAsync = some (r, proc') ∧
      Sound proc' := by
  obtain ⟨hab, haf, -⟩ := (h.indexed.free_mem a).mp ha
  obtain ⟨pre, post, hb⟩ := append_of_mem hab
  have hm := h.mapped
  have hmid := hm.binderBufferSize_mid hb
  have ht := hm.tiled
  rw [hb] at ht
  have hend : min (pageAlign (bufferData a + bufferSize))
      (pageMask (nextStart proc.endAddr post)) % PAGE_SIZE = 0 := by
    rcases Nat.le_total (pageAlign (bufferData a + bufferSize))
      (pageMask (nextStart proc.endAddr post)) with hle | hle
    · rw [Nat.min_eq_left hle, pageAlign_mod]
    · rw [Nat.min_eq_right hle, pageMask_mod]
  have hstart : proc.buffer ≤ pageAlign (bufferData a) :=
    Nat.le_trans (hm.buffer_le hab) (Nat.le_trans (Nat.le_add_right _ _) (le_pageAlign _))
  have hempty : ∀ i, inPageRange proc (pageAlign (bufferData a))
      (min (pageAlign (bufferData a + bufferSize)) (pageMask (nextStart proc.endAddr post))) i =
        true → proc.pages i = false := by
    intro i hi
    rw [inPageRange, decide_eq_true_eq] at hi
    have hle : bufferData a + bufferSize ≤ nextStart proc.endAddr post := by omega
    have hno := (needed_extend proc.isFree hm.endAddr_mod (hm.page_mod i) ht hle (.inl rfl)).2 hi
    rw [← needed_mid_free haf, ← hb, ← hm.pages i] at hno
    exact Bool.eq_false_iff.mpr hno
  simp only [populateBuffer]
  rw [hmid]
  obtain hu | hu := binderUpdatePageRange_allocate proc env false hm.base (pageAlign_mod _) hend
    hstart hempty
  · rw [hu]
    rcases hfit with ⟨rfl, hle, hslack⟩ | ⟨rfl, hle⟩
    · obtain ⟨proc', he, hs'⟩ := h.claim_whole balance hb haf hsize hspace hle hslack rfl
      exact ⟨some a, proc', by simp [he], hs'⟩
    · obtain ⟨proc', he, hs'⟩ := h.claim_split balance hb haf hsize hspace hle rfl
      exact ⟨some a, proc', by simp [he], hs'⟩
  · rw [hu]
    exact ⟨none, proc, rfl, h⟩

end Populate

theorem Sound.alloc (env : PageEnv) (balance : Rebalance Nat)
    (d o : UInt32) (isAsync : Bool) (h : Sound proc) :
    ∃ r proc', binderAllocBuf env balance proc d o isAsync = some (r, proc') ∧ Sound proc' := by
  have hrefused : ∃ r proc', some ((none : Option Nat), proc) = some (r, proc') ∧ Sound proc' :=
    ⟨none, proc, rfl, h⟩
  simp only [binderAllocBuf]
  split
  · exact hrefused
  split
  · exact hrefused
  rename_i haccepted
  split
  · exact hrefused
  rename_i hspace
  have hsize := alignedSize_of_accepted haccepted
  generalize alignedSize d o = size at *
  have hfree : ∀ b ∈ proc.freeBuffers.toList, (proc.headers b).free = true :=
    fun b hb => ((h.indexed.free_mem b).mp hb).2.1
  have hspace' : ∀ b ∈ proc.freeBuffers.toList, size ≤ binderBufferSize proc b →
      isAsync = true → size + SIZEOF_BUFFER ≤ proc.freeAsyncSpace := by
    intro b hb hle hasync
    have hlt := h.mapped.binderBufferSize_lt ((h.indexed.free_mem b).mp hb).1
    have hno : ¬ proc.freeAsyncSpace < sizeT (size + SIZEOF_BUFFER) :=
      fun hlt => hspace ⟨hasync, hlt⟩
    simp only [sizeT, SIZEOF_BUFFER, SZ_4M] at *
    omega
  obtain ⟨b, hb, hcmp, hf⟩ | ⟨b, hb, hcmp, hf⟩ | hf := SearchTree.bestFit_spec
    (fun b => if (proc.headers b).free = false then none
      else some (compare size (binderBufferSize proc b))) none
    (fun b hb => by simp [hfree b hb])
  · have hlt : size < binderBufferSize proc b := by
      simpa [hfree b hb, Nat.compare_eq_lt] using hcmp
    rw [hf]
    simp only [Bool.false_eq_true, if_false]
    refine h.populate env balance hb hsize (hspace' b hb (Nat.le_of_lt hlt)) ?_
    split
    · exact .inl ⟨rfl, by omega, by omega⟩
    · exact .inr ⟨rfl, by omega⟩
  · have heq : size = binderBufferSize proc b := by
      simpa [hfree b hb] using hcmp
    rw [hf]
    refine h.populate env balance hb hsize (hspace' b hb (Nat.le_of_eq heq)) ?_
    exact .inl ⟨heq.symm, by omega, by omega⟩
  · rw [hf]
    exact hrefused

end SpicaKernel.Binder
