import Mathlib.Data.List.Chain
import Mathlib.Data.List.Perm.Basic
import SpicaKernel.BinderBuffers
import SpicaKernel.Runs

namespace SpicaKernel.Binder
open Function List
set_option autoImplicit true

/-- The page at address `page` intersects the nonempty extent from `lo` to `hi`. -/
def Meets (page lo hi : Nat) : Prop := page < hi ∧ lo < page + PAGE_SIZE

theorem meets_adjacent (h : lo ≤ mid) (h' : mid ≤ hi) :
    (Meets page lo mid ∨ Meets page mid hi) ↔ Meets page lo hi := by
  simp only [Meets, PAGE_SIZE]
  omega

def Needed (free : Nat → Bool) (e page : Nat) : List Nat → Prop
  | [] => False
  | a :: l => Meets page a (bufferData a) ∨ (free a = false ∧ Meets page a (nextStart e l)) ∨
      Needed free e page l

theorem needed_append : Needed free e page (l ++ l') ↔
      Needed free (nextStart e l') page l ∨ Needed free e page l' := by
  induction l with
  | nil => simp [Needed]
  | cons a l ih => simp [Needed, nextStart_append, ih, or_assoc]

theorem needed_congr (h : ∀ a ∈ l, free a = free' a) :
    Needed free e page l ↔ Needed free' e page l := by
  induction l with
  | nil => exact Iff.rfl
  | cons a l ih =>
    have hl := ih (fun b hb => h b (mem_cons_of_mem _ hb))
    simp only [Needed, h a mem_cons_self, hl]

theorem Tiled.needed_bounds (h : Tiled e l) (hn : Needed free e page l) :
    page < e ∧ nextStart e l < page + PAGE_SIZE := by
  induction l with
  | nil => exact hn.elim
  | cons a l ih =>
    obtain ⟨ha, hl⟩ := h
    have hle := hl.nextStart_le
    rcases hn with hn | ⟨-, hn⟩ | hn
    · exact ⟨Nat.lt_of_lt_of_le hn.1 (Nat.le_trans ha hle), hn.2⟩
    · exact ⟨Nat.lt_of_lt_of_le hn.1 hle, hn.2⟩
    · obtain ⟨h₁, h₂⟩ := ih hl hn
      have : a < nextStart e l := Nat.lt_of_lt_of_le (Nat.lt_add_of_pos_right (by decide)) ha
      exact ⟨h₁, Nat.lt_trans this h₂⟩

theorem needed_of_nextStart (he : e % PAGE_SIZE = 0) (hp : page % PAGE_SIZE = 0)
    (h₁ : page < nextStart e l) (h₂ : nextStart e l < page + PAGE_SIZE) :
    Needed free e page l := by
  cases l with
  | nil =>
    simp only [nextStart_nil, PAGE_SIZE] at *
    omega
  | cons a l =>
    exact .inl ⟨Nat.lt_of_lt_of_le h₁ (Nat.le_add_right _ _), h₂⟩

theorem freePages_spec (h : ∀ i, first ≤ i → i < first + n → pages i = true) :
    freePages first n pages = some (fun i => pages i && !decide (first ≤ i ∧ i < first + n)) := by
  induction n generalizing pages with
  | zero =>
    rw [freePages]
    congr 1
    funext i
    have : ¬ (first ≤ i ∧ i < first + 0) := by omega
    simp only [this, decide_false, Bool.not_false, Bool.and_true]
  | succ n ih =>
    have hlast : pages (first + n) = true := h _ (by omega) (by omega)
    rw [freePages, hlast, if_neg (by decide), ih]
    · congr 1
      funext i
      by_cases hi : i = first + n
      · subst hi
        simp
      · have : (first ≤ i ∧ i < first + (n + 1)) ↔ (first ≤ i ∧ i < first + n) := by omega
        simp only [update_of_ne hi, this]
    · intro i h₁ h₂
      rw [update_of_ne (by omega)]
      exact h i h₁ (by omega)

theorem allocPages_spec (outcome : Nat → PageOutcome) (done left : Nat)
    (h : ∀ i, first ≤ i → i < first + (done + left) → pages i = false) :
    allocPages outcome first done left (fun i => pages i || decide (first ≤ i ∧ i < first + done)) =
      some (0, fun i => pages i || decide (first ≤ i ∧ i < first + (done + left))) ∨
    allocPages outcome first done left
        (fun i => pages i || decide (first ≤ i ∧ i < first + done)) = some (-ENOMEM, pages) := by
  induction left generalizing done with
  | zero => exact .inl rfl
  | succ left ih =>
    have hpage : pages (first + done) = false := h _ (by omega) (by omega)
    have hnext : update (fun i => pages i || decide (first ≤ i ∧ i < first + done))
        (first + done) true =
        fun i => pages i || decide (first ≤ i ∧ i < first + (done + 1)) := by
      funext i
      by_cases hi : i = first + done
      · subst hi
        simp
      · have : (first ≤ i ∧ i < first + (done + 1)) ↔ (first ≤ i ∧ i < first + done) := by omega
        simp only [update_of_ne hi, this]
    have hundo : ∀ n, n ≤ done + 1 →
        freePages first n (fun i => pages i || decide (first ≤ i ∧ i < first + n)) =
          some pages := by
      intro n hn
      rw [freePages_spec fun i h₁ h₂ => by
        simp [h₁, h₂]]
      congr 1
      funext i
      by_cases hi : first ≤ i ∧ i < first + n
      · simp only [hi, and_self, decide_true, Bool.not_true, Bool.and_false]
        exact (h i hi.1 (by omega)).symm
      · simp [hi]
    simp only [allocPages]
    rw [if_neg (by simp [hpage])]
    cases outcome (first + done) with
    | ok =>
      simp only [hnext]
      have harith : done + 1 + left = done + (left + 1) := by omega
      rw [← harith] at h ⊢
      exact ih (done + 1) h
    | allocPageFailed =>
      right
      rw [hundo done (by omega), Option.map_some]
    | mapKernelFailed =>
      right
      simp only [hnext]
      rw [hundo (done + 1) (Nat.le_refl _), Option.map_some]
    | vmInsertPageFailed =>
      right
      simp only [hnext]
      rw [hundo (done + 1) (Nat.le_refl _), Option.map_some]

def inPageRange (proc : BinderProc) (start end' i : Nat) : Bool :=
  decide (start ≤ proc.buffer + i * PAGE_SIZE ∧ proc.buffer + i * PAGE_SIZE < end')

theorem page_range_iff (hb : base % PAGE_SIZE = 0)
    (hs : start % PAGE_SIZE = 0) (he : end' % PAGE_SIZE = 0) (hle : base ≤ start)
    (hlt : start < end') :
    ((start - base) / PAGE_SIZE ≤ i ∧
      i < (start - base) / PAGE_SIZE + (end' - start + (PAGE_SIZE - 1)) / PAGE_SIZE) ↔
    (start ≤ base + i * PAGE_SIZE ∧ base + i * PAGE_SIZE < end') := by
  simp only [PAGE_SIZE] at *
  omega

section
variable (proc : BinderProc) (env : PageEnv) (vma : Bool) (hb : proc.buffer % PAGE_SIZE = 0)
    (hs : start % PAGE_SIZE = 0) (he : end' % PAGE_SIZE = 0) (hle : proc.buffer ≤ start)
include proc env vma hb hs he hle

theorem binderUpdatePageRange_free (hpages : ∀ i,
  inPageRange proc start end' i = true → proc.pages i = true) :
    ∃ ret, binderUpdatePageRange env proc false start end' vma = some (ret,
      { proc with pages := fun i => proc.pages i && !inPageRange proc start end' i }) := by
  by_cases hlt : end' ≤ start
  · refine ⟨0, ?_⟩
    have hempty : ∀ i, inPageRange proc start end' i = false := by
      intro i
      rw [inPageRange, decide_eq_false_iff_not]
      omega
    simp [binderUpdatePageRange, if_pos hlt, hempty]
  · refine ⟨-ENOMEM, ?_⟩
    have hiff := fun i => page_range_iff (i := i) hb hs he hle (by omega)
    simp only [inPageRange, decide_eq_true_eq] at hpages ⊢
    simp only [binderUpdatePageRange, if_neg hlt, if_true]
    rw [freePages_spec (fun i h₁ h₂ => hpages i ((hiff i).mp ⟨h₁, h₂⟩)), Option.map_some]
    simp only [hiff]

theorem binderUpdatePageRange_allocate (hpages : ∀ i,
  inPageRange proc start end' i = true → proc.pages i = false) :
    binderUpdatePageRange env proc true start end' vma = some (0,
      { proc with pages := fun i => proc.pages i || inPageRange proc start end' i }) ∨
    binderUpdatePageRange env proc true start end' vma = some (-ENOMEM, proc) := by
  by_cases hlt : end' ≤ start
  · left
    have hempty : ∀ i, inPageRange proc start end' i = false := by
      intro i
      rw [inPageRange, decide_eq_false_iff_not]
      omega
    simp [binderUpdatePageRange, if_pos hlt, hempty]
  · have hiff := fun i => page_range_iff (i := i) hb hs he hle (by omega)
    simp only [inPageRange, decide_eq_true_eq] at hpages ⊢
    simp only [binderUpdatePageRange, if_neg hlt, Bool.true_eq_false, if_false]
    split
    · exact .inr rfl
    · have h := allocPages_spec env.outcome 0 ((end' - start + (PAGE_SIZE - 1)) / PAGE_SIZE)
        (fun i h₁ h₂ => hpages i ((hiff i).mp ⟨h₁, by omega⟩))
      have hzero : ∀ i, ¬ ((start - proc.buffer) / PAGE_SIZE ≤ i ∧
          i < (start - proc.buffer) / PAGE_SIZE + 0) := by omega
      simp only [hzero, decide_false, Bool.or_false, Nat.zero_add, hiff] at h
      rcases h with h | h
      · left
        rw [h, Option.map_some]
      · right
        rw [h, Option.map_some]

end

theorem pageMask_mod (addr : Nat) : pageMask addr % PAGE_SIZE = 0 := Nat.mul_mod_left _ _

theorem pageAlign_mod (addr : Nat) : pageAlign addr % PAGE_SIZE = 0 := pageMask_mod _

theorem le_pageAlign (addr : Nat) : addr ≤ pageAlign addr := by
  simp only [pageAlign, pageMask, PAGE_SIZE]
  omega

theorem lt_pageMask_iff (hp : page % PAGE_SIZE = 0) :
    page < pageMask addr ↔ page + PAGE_SIZE ≤ addr := by
  simp only [pageMask, PAGE_SIZE] at *
  omega

theorem pageAlign_le_iff (hp : page % PAGE_SIZE = 0) : pageAlign addr ≤ page ↔ addr ≤ page := by
  simp only [pageAlign, pageMask, PAGE_SIZE] at *
  omega

theorem lt_pageAlign_iff (hp : page % PAGE_SIZE = 0) : page < pageAlign addr ↔ page < addr := by
  simp only [pageAlign, pageMask, PAGE_SIZE] at *
  omega

theorem needed_extend (free : Nat → Bool)
    (he : e % PAGE_SIZE = 0) (hp : page % PAGE_SIZE = 0) (htiled : Tiled e (pre ++ a :: post))
    (hhi : hi ≤ nextStart e post)
    (hk : hi = bufferData a + k ∨ (hi = nextStart e post ∧ bufferData a + k ≤ hi ∧
      hi ≤ bufferData a + k + (SIZEOF_BUFFER + 4))) :
    ((Needed free a page pre ∨ Meets page a hi ∨ Needed free e page post) ↔
      ((Needed free a page pre ∨ Meets page a (bufferData a) ∨ Needed free e page post) ∨
        (pageAlign (bufferData a) ≤ page ∧
          page < min (pageAlign (bufferData a + k)) (pageMask (nextStart e post))))) ∧
    ((pageAlign (bufferData a) ≤ page ∧
        page < min (pageAlign (bufferData a + k)) (pageMask (nextStart e post))) →
      ¬ (Needed free a page pre ∨ Meets page a (bufferData a) ∨ Needed free e page post)) := by
  obtain ⟨hpre, -, hpost⟩ := tiled_append.mp htiled
  have hnext : page < nextStart e post → nextStart e post < page + PAGE_SIZE →
      Needed free e page post := needed_of_nextStart he hp
  have hbefore : Needed free a page pre → page < a := fun h => (hpre.needed_bounds h).1
  have hafter : Needed free e page post → nextStart e post < page + PAGE_SIZE :=
    fun h => (hpost.needed_bounds h).2
  rw [Nat.lt_min, pageAlign_le_iff hp, lt_pageAlign_iff hp, lt_pageMask_iff hp]
  simp only [Meets, bufferData, SIZEOF_BUFFER, PAGE_SIZE] at *
  constructor
  · constructor
    · rintro (h | ⟨h₁, h₂⟩ | h)
      · exact .inl (.inl h)
      · by_cases hd : page < a + 40
        · exact .inl (.inr (.inl ⟨hd, h₂⟩))
        by_cases hn : nextStart e post < page + 4096
        · exact .inl (.inr (.inr (hnext (by omega) hn)))
        exact .inr (by omega)
      · exact .inl (.inr (.inr h))
    · rintro ((h | ⟨h₁, h₂⟩ | h) | ⟨h₁, h₂, h₃⟩)
      · exact .inl h
      · exact .inr (.inl (by omega))
      · exact .inr (.inr h)
      · exact .inr (.inl (by omega))
  · rintro ⟨h₁, h₂, h₃⟩ (h | ⟨h₄, h₅⟩ | h)
    · have := hbefore h
      omega
    · omega
    · have := hafter h
      omega

theorem freePageFlags_iff (he : e % PAGE_SIZE = 0) (hx : bufferData x ≤ nextStart e post) :
    ((freePageFlags q x post.head?).1 = true ↔ bufferEndPage q ≠ bufferStartPage x ∧
      ¬ (bufferStartPage (nextStart e post) = bufferEndPage x ∧
        bufferStartPage x = bufferEndPage x)) ∧
    ((freePageFlags q x post.head?).2 = true ↔
      bufferStartPage (nextStart e post) ≠ bufferEndPage x ∧
      ¬ (bufferEndPage q = bufferStartPage x ∧ bufferStartPage x = bufferEndPage x)) := by
  cases post with
  | nil =>
    have hlast : bufferStartPage e ≠ bufferEndPage x := by
      simp only [nextStart_nil, bufferEndPage, bufferStartPage, bufferData, SIZEOF_BUFFER, pageMask,
        PAGE_SIZE] at *
      omega
    simp only [head?_nil, freePageFlags]
    split <;> simp_all
  | cons y post =>
    simp only [head?_cons, freePageFlags, nextStart_cons]
    generalize bufferEndPage q = endQ, bufferEndPage x = endX, bufferStartPage x = startX,
      bufferStartPage y = startY
    by_cases hq : endQ = startX <;> by_cases hy : startY = endX
    · subst hq hy
      simp
    · subst hq
      simp [hy]
    · subst hy
      simp [hq]
      omega
    · simp [hq, hy]

theorem needed_shrink (free : Nat → Bool)
    (he : e % PAGE_SIZE = 0) (hp : page % PAGE_SIZE = 0) (htiled : Tiled e (pre ++ a :: post)) :
    ((Needed free a page pre ∨ Meets page a (bufferData a) ∨ Needed free e page post) ↔
      (Needed free a page pre ∨ Meets page a (nextStart e post) ∨ Needed free e page post) ∧
        ¬ (pageAlign (bufferData a) ≤ page ∧ page < pageMask (nextStart e post))) ∧
    ((pageAlign (bufferData a) ≤ page ∧ page < pageMask (nextStart e post)) →
      Meets page a (nextStart e post)) := by
  have had := (tiled_append.mp htiled).2.1
  obtain ⟨k, hk⟩ := Nat.exists_eq_add_of_le had
  obtain ⟨h₁, h₂⟩ := needed_extend free he hp htiled (Nat.le_refl _) (.inl hk)
  have hmin : min (pageAlign (nextStart e post)) (pageMask (nextStart e post)) =
      pageMask (nextStart e post) := by
    simp only [pageAlign, pageMask, PAGE_SIZE]
    omega
  rw [← hk, hmin] at h₁ h₂
  refine ⟨⟨fun h => ⟨h₁.mpr (.inl h), fun hr => h₂ hr h⟩, ?_⟩, ?_⟩
  · rintro ⟨h, hr⟩
    exact (h₁.mp h).resolve_right hr
  · rintro ⟨hlo, hhi⟩
    rw [pageAlign_le_iff hp] at hlo
    rw [lt_pageMask_iff hp] at hhi
    simp only [Meets, bufferData, PAGE_SIZE] at *
    omega

theorem flagged_pages_iff (hp : page % PAGE_SIZE = 0)
    (hstartX : startX % PAGE_SIZE = 0) (hX : endX = startX ∨ endX = startX + PAGE_SIZE)
    (hQ : endQ ≤ startX) (hN : endX ≤ startN)
    (hfirst : first = true ↔ endQ ≠ startX ∧ ¬ (startN = endX ∧ startX = endX))
    (hlast : last = true ↔ startN ≠ endX ∧ ¬ (endQ = startX ∧ startX = endX))
    (hstart : start = if first then startX else endX)
    (hend : end' = (if last then endX else startX) + PAGE_SIZE) :
    ((first || last) = true ∧ start ≤ page ∧ page < end') ↔
      (page = startX ∧ endQ ≠ page ∧ ¬ (startN = page ∧ page = endX)) ∨
      (page = endX ∧ startN ≠ page ∧ ¬ (endQ = page ∧ startX = page)) := by
  simp only [PAGE_SIZE] at *
  have hpage : page = startX ∨ page + 4096 ≤ startX ∨ page = startX + 4096 ∨
      startX + 8192 ≤ page := by omega
  subst hstart hend
  simp only [Bool.or_eq_true, hfirst, hlast]
  rcases hX with rfl | rfl <;> rcases hpage with rfl | hpage | rfl | hpage <;> split_ifs <;> omega

theorem needed_delete (free : Nat → Bool) (he : e % PAGE_SIZE = 0)
    (hp : page % PAGE_SIZE = 0) (htiled : Tiled e (pre ++ q :: x :: post))
    (hflags : freePageFlags q x post.head? = flags)
    (hstart : start = if flags.1 then bufferStartPage x else bufferEndPage x)
    (hend : end' = (if flags.2 then bufferEndPage x else bufferStartPage x) + PAGE_SIZE) :
    ((flags.1 || flags.2) = true ∧ start ≤ page ∧ page < end' →
      Meets page x (bufferData x) ∧ ¬ (Needed free q page pre ∨ Meets page q (bufferData q) ∨
        Needed free e page post)) ∧
    (Meets page x (bufferData x) → ¬ ((flags.1 || flags.2) = true ∧ start ≤ page ∧ page < end') →
      Needed free q page pre ∨ Meets page q (bufferData q) ∨ Needed free e page post) := by
  obtain ⟨hpre, hq, hx, hpost⟩ := tiled_append.mp htiled
  have hnext : page < nextStart e post → nextStart e post < page + PAGE_SIZE →
      Needed free e page post := needed_of_nextStart he hp
  have hbefore : Needed free q page pre → page < q := fun h => (hpre.needed_bounds h).1
  have hafter : Needed free e page post → nextStart e post < page + PAGE_SIZE :=
    fun h => (hpost.needed_bounds h).2
  obtain ⟨h₁, h₂⟩ := freePageFlags_iff (q := q) he hx
  rw [hflags] at h₁ h₂
  generalize nextStart e post = n at *
  rw [nextStart_cons] at hq
  obtain ⟨first, last⟩ := flags
  have hrange : ((first || last) = true ∧ start ≤ page ∧ page < end') ↔
      (page = bufferStartPage x ∧ bufferEndPage q ≠ page ∧
        ¬ (bufferStartPage n = page ∧ page = bufferEndPage x)) ∨
      (page = bufferEndPage x ∧ bufferStartPage n ≠ page ∧
        ¬ (bufferEndPage q = page ∧ bufferStartPage x = page)) := by
    refine flagged_pages_iff hp (pageMask_mod x) ?_ ?_ ?_ h₁ h₂ hstart hend <;>
      simp only [bufferEndPage, bufferStartPage, bufferData, SIZEOF_BUFFER, pageMask,
        PAGE_SIZE] at * <;> omega
  rw [hrange]
  simp only [Meets, bufferData, SIZEOF_BUFFER, PAGE_SIZE, bufferEndPage, bufferStartPage,
    pageMask] at *
  constructor
  · intro h
    refine ⟨by omega, ?_⟩
    rintro (h' | h' | h')
    · have := hbefore h'
      omega
    · omega
    · have := hafter h'
      omega
  · intro hmeets hnot
    by_cases hqp : page < q + 40
    · exact .inr (.inl (by omega))
    by_cases hn : n < page + 4096
    · exact .inr (.inr (hnext (by omega) hn))
    omega

open SearchTree (Rebalance)
open List

def BinderProc.isFree (proc : BinderProc) (a : Nat) : Bool := (proc.headers a).free

def BinderProc.endAddr (proc : BinderProc) : Nat := proc.buffer + proc.bufferSize

/-- What rounding up to pointers gives where nothing wraps. -/
def roundUp (x : UInt32) : Nat := (x.toNat + 3) / 4 * 4

def BinderBuffer.payload (header : BinderBuffer) : Nat :=
  roundUp header.dataSize + roundUp header.offsetsSize

/-- The part of the asynchronous space that a buffer takes up. -/
def BinderBuffer.asyncCharge (header : BinderBuffer) : Nat :=
  if header.free = false ∧ header.asyncTransaction = true
  then header.payload + SIZEOF_BUFFER else 0

def BinderProc.payload (proc : BinderProc) (a : Nat) : Nat := (proc.headers a).payload

def BinderProc.asyncCharge (proc : BinderProc) (a : Nat) : Nat := (proc.headers a).asyncCharge

structure Mapped (proc : BinderProc) : Prop where
  base : proc.buffer % PAGE_SIZE = 0
  size : proc.bufferSize % PAGE_SIZE = 0
  limit : proc.bufferSize ≤ SZ_4M
  first : proc.buffers.head? = some proc.buffer
  tiled : Tiled proc.endAddr proc.buffers
  pages : ∀ i, proc.pages i = true ↔
    Needed proc.isFree proc.endAddr (proc.buffer + i * PAGE_SIZE) proc.buffers

/-- The trees index the buffers, except for a free buffer `out` that is in neither tree. -/
structure Indexed (proc : BinderProc) (out : Option Nat) : Prop where
  free_nodup : proc.freeBuffers.toList.Nodup
  free_mem : ∀ b, b ∈ proc.freeBuffers.toList ↔
    b ∈ proc.buffers ∧ proc.isFree b = true ∧ out ≠ some b
  free_sorted : proc.freeBuffers.toList.Pairwise
    (fun b c => binderBufferSize proc b ≤ binderBufferSize proc c)
  allocated_mem : ∀ b, b ∈ proc.allocatedBuffers.toList ↔ b ∈ proc.buffers ∧ proc.isFree b = false
  allocated_sorted : proc.allocatedBuffers.toList.Pairwise (· < ·)
  fits : ∀ b ∈ proc.buffers, proc.isFree b = false → proc.payload b ≤ binderBufferSize proc b
  async : proc.freeAsyncSpace + (proc.buffers.map proc.asyncCharge).sum = proc.bufferSize / 2

def Separated (free : Nat → Bool) (l : List Nat) : Prop :=
  l.IsChain (fun b c => ¬ (free b = true ∧ free c = true))

structure Sound (proc : BinderProc) : Prop where
  mapped : Mapped proc
  indexed : Indexed proc none
  separated : Separated proc.isFree proc.buffers

theorem separated_mid :
    Separated free (pre ++ a :: post) ↔ Separated free pre ∧ Separated free post ∧
      (∀ x ∈ pre.getLast?, ¬ (free x = true ∧ free a = true)) ∧
      ∀ y ∈ post.head?, ¬ (free a = true ∧ free y = true) := by
  simp only [Separated, isChain_append, isChain_cons, head?_cons, Option.mem_some_iff, forall_eq']
  tauto

theorem Separated.congr (h : Separated free l)
    (hfree : ∀ b ∈ l, free' b = free b) : Separated free' l := by
  refine IsChain.imp_of_mem_imp ?_ h
  intro b c hb hc hbc
  rwa [hfree b hb, hfree c hc]

theorem Mapped.endAddr_mod (h : Mapped proc) : proc.endAddr % PAGE_SIZE = 0 := by
  have h₁ := h.base
  have h₂ := h.size
  simp only [BinderProc.endAddr, PAGE_SIZE] at *
  omega

theorem Mapped.page_mod (h : Mapped proc) (i : Nat) :
    (proc.buffer + i * PAGE_SIZE) % PAGE_SIZE = 0 := by
  have h₁ := h.base
  simp only [PAGE_SIZE] at *
  omega

theorem Mapped.buffer_le (h : Mapped proc) (ha : a ∈ proc.buffers) : proc.buffer ≤ a := by
  have hb := (h.tiled.mem_bounds ha).1
  rwa [nextStart, h.first] at hb

theorem binderBufferSize_eq (proc : BinderProc) (a : Nat) :
    binderBufferSize proc a = sizeIn proc.endAddr proc.buffers a := rfl

theorem Mapped.binderBufferSize_mid (h : Mapped proc) (hb : proc.buffers = pre ++ a :: post) :
    bufferData a + binderBufferSize proc a = nextStart proc.endAddr post := by
  have ht := h.tiled
  have hn := ht.nodup
  rw [hb] at ht hn
  have ha : a ∉ pre := fun ha => (nodup_append.mp hn).2.2 a ha a (by simp) rfl
  have hle := (tiled_append.mp ht).2.1
  rw [binderBufferSize_eq, hb, sizeIn_append_right ha, sizeIn_self]
  omega

theorem Mapped.binderBufferSize_lt (h : Mapped proc) (ha : a ∈ proc.buffers) :
    binderBufferSize proc a < SZ_4M := by
  obtain ⟨pre, post, hb⟩ := append_of_mem ha
  have hsize := h.binderBufferSize_mid hb
  have ht := h.tiled
  rw [hb] at ht
  have hend := (tiled_append.mp ht).2.2.nextStart_le
  have hbase := h.buffer_le ha
  have hlimit := h.limit
  simp only [BinderProc.endAddr, bufferData, SIZEOF_BUFFER] at *
  omega

theorem alignedSize_of_accepted (h : ¬ (alignedSize d o < d.toNat ∨ alignedSize d o < o.toNat)) :
    alignedSize d o = roundUp d + roundUp o := by
  simp only [alignedSize, align, sizeT, roundUp] at *
  omega

theorem alignedSize_of_small (h : roundUp d + roundUp o < SZ_4M) :
    alignedSize d o = roundUp d + roundUp o := by
  simp only [alignedSize, align, sizeT, roundUp, SZ_4M] at *
  omega

theorem binderInsertFreeBuffer_spec (balance : Rebalance Nat) (proc : BinderProc) (x : Nat)
    (hx : proc.isFree x = true)
    (hfree : ∀ b ∈ proc.freeBuffers.toList, proc.isFree b = true)
    (hsorted : proc.freeBuffers.toList.Pairwise
      (fun b c => binderBufferSize proc b ≤ binderBufferSize proc c)) :
    ∃ t, binderInsertFreeBuffer balance proc x = some { proc with freeBuffers := t } ∧
      t.toList.Perm (x :: proc.freeBuffers.toList) ∧ t.toList.Pairwise
        (fun b c => binderBufferSize proc b ≤ binderBufferSize proc c) := by
  obtain ⟨t, before, after, he, hs, hs', hb, ha⟩ := SearchTree.toList_insert
    (fun b => if (proc.headers b).free = false then none
      else some (decide (binderBufferSize proc x < binderBufferSize proc b)))
    (fun b => binderBufferSize proc x < binderBufferSize proc b) x
    (fun b hb => by
      rw [show (proc.headers b).free = true from hfree b hb]
      by_cases h : binderBufferSize proc x < binderBufferSize proc b <;> simp [h])
    (hsorted.imp (fun hbc h => Nat.lt_of_lt_of_le h hbc))
  refine ⟨balance.apply t, ?_, ?_, ?_⟩
  · rw [binderInsertFreeBuffer, if_neg (by rw [show (proc.headers x).free = true from hx]; decide)]
    simp [he]
  · rw [balance.toList_apply, hs', hs]
    exact perm_middle
  · rw [hs, pairwise_append] at hsorted
    obtain ⟨h₁, h₂, h₁₂⟩ := hsorted
    rw [balance.toList_apply, hs', pairwise_append, pairwise_cons]
    refine ⟨h₁, ⟨fun c hc => Nat.le_of_lt (ha c hc), h₂⟩, ?_⟩
    intro b hb' c hc
    rcases mem_cons.mp hc with rfl | hc
    · exact Nat.not_lt.mp (hb b hb')
    · exact h₁₂ b hb' c hc

theorem binderInsertAllocatedBuffer_spec (balance : Rebalance Nat) (proc : BinderProc) (x : Nat)
    (hx : proc.isFree x = false)
    (hfree : ∀ b ∈ proc.allocatedBuffers.toList, proc.isFree b = false ∧ b ≠ x)
    (hsorted : proc.allocatedBuffers.toList.Pairwise (· < ·)) :
    ∃ t, binderInsertAllocatedBuffer balance proc x = some { proc with allocatedBuffers := t } ∧
      t.toList.Perm (x :: proc.allocatedBuffers.toList) ∧ t.toList.Pairwise (· < ·) := by
  obtain ⟨t, before, after, he, hs, hs', hb, ha⟩ := SearchTree.toList_insert
    (fun b => if (proc.headers b).free = true then none
      else if x < b then some true else if x > b then some false else none)
    (fun b => x < b) x
    (fun b hb => by
      obtain ⟨hb, hne⟩ := hfree b hb
      rw [show (proc.headers b).free = false from hb]
      by_cases h : x < b
      · simp [h]
      · have : x > b := by omega
        simp [h, this])
    (hsorted.imp (fun hbc h => Nat.lt_trans h hbc))
  refine ⟨balance.apply t, ?_, ?_, ?_⟩
  · rw [binderInsertAllocatedBuffer,
      if_neg (by rw [show (proc.headers x).free = false from hx]; decide)]
    simp [he]
  · rw [balance.toList_apply, hs', hs]
    exact perm_middle
  · have hne : ∀ b ∈ before, b ≠ x := fun b hb => (hfree b (by simp [hs, hb])).2
    rw [hs, pairwise_append] at hsorted
    obtain ⟨h₁, h₂, h₁₂⟩ := hsorted
    rw [balance.toList_apply, hs', pairwise_append, pairwise_cons]
    refine ⟨h₁, ⟨ha, h₂⟩, ?_⟩
    intro b hb' c hc
    rcases mem_cons.mp hc with rfl | hc
    · have := hb b hb'
      have := hne b hb'
      omega
    · exact h₁₂ b hb' c hc

theorem needed_mid_free (ha : free a = true) : Needed free e page (pre ++ a :: post) ↔
      Needed free a page pre ∨ Meets page a (bufferData a) ∨ Needed free e page post := by
  simp [needed_append, Needed, ha]

theorem needed_mid_allocated (ha : free a = false) (hle : bufferData a ≤ nextStart e post) :
    Needed free e page (pre ++ a :: post) ↔ Needed free a page pre ∨
      Meets page a (nextStart e post) ∨ Needed free e page post := by
  simp only [needed_append, Needed]
  have : Meets page a (bufferData a) → Meets page a (nextStart e post) :=
    fun h => ⟨Nat.lt_of_lt_of_le h.1 hle, h.2⟩
  tauto

theorem sum_asyncCharge_congr {proc proc' : BinderProc} {l : List Nat}
    (h : ∀ b ∈ l, proc'.headers b = proc.headers b) :
    (l.map proc'.asyncCharge).sum = (l.map proc.asyncCharge).sum := by
  congr 1
  apply map_congr_left
  intro b hb
  rw [BinderProc.asyncCharge, h b hb, BinderProc.asyncCharge]

theorem asyncCharge_free {proc : BinderProc} (h : proc.isFree a = true) :
    proc.asyncCharge a = 0 := by
  rw [BinderProc.asyncCharge, BinderBuffer.asyncCharge, if_neg]
  rintro ⟨hf, -⟩
  rw [BinderProc.isFree, hf] at h
  cases h

theorem sum_asyncCharge_free {proc : BinderProc} {l : List Nat}
    (h : ∀ b ∈ l, proc.isFree b = true) : (l.map proc.asyncCharge).sum = 0 := by
  induction l with
  | nil => rfl
  | cons a l ih =>
    rw [map_cons, sum_cons, asyncCharge_free (h a mem_cons_self),
      ih (fun b hb => h b (mem_cons_of_mem _ hb))]

end SpicaKernel.Binder
