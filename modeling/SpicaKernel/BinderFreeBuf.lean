import SpicaKernel.BinderAllocBuf

namespace SpicaKernel.Binder
open Function List
set_option autoImplicit true

section

open SearchTree (Rebalance)

section Delete

variable {proc : BinderProc} {pre post : List Nat} {q x : Nat}
  (hm : Mapped proc) (hb : proc.buffers = pre ++ q :: x :: post) (hq : proc.isFree q = true)
  (hx : proc.isFree x = true)
include hm hb hq hx

theorem Mapped.pages_pair (i : Nat) : proc.pages i = true ↔
      (Needed proc.isFree q (proc.buffer + i * PAGE_SIZE) pre ∨
        Meets (proc.buffer + i * PAGE_SIZE) q (bufferData q) ∨
        Needed proc.isFree proc.endAddr (proc.buffer + i * PAGE_SIZE) post) ∨
      Meets (proc.buffer + i * PAGE_SIZE) x (bufferData x) := by
  rw [hm.pages i, hb, needed_mid_free hq]
  simp only [Needed, hx, Bool.true_eq_false, false_and, false_or, or_assoc]
  rw [or_comm (b := Meets _ x _)]

theorem Mapped.dropped {pages : Nat → Bool} (hflags : freePageFlags q x post.head? = flags)
    (hstart : start = if flags.1 then bufferStartPage x else bufferEndPage x)
    (hend : end' = (if flags.2 then bufferEndPage x else bufferStartPage x) + PAGE_SIZE)
    (hpages : ∀ i, pages i = true ↔ proc.pages i = true ∧
      ¬ ((flags.1 || flags.2) = true ∧ start ≤ proc.buffer + i * PAGE_SIZE ∧
        proc.buffer + i * PAGE_SIZE < end')) :
    Mapped { proc with buffers := pre ++ q :: post, pages := pages } := by
  have ht := hm.tiled
  rw [hb] at ht
  constructor
  case base => exact hm.base
  case size => exact hm.size
  case limit => exact hm.limit
  case first =>
    rw [← hm.first, hb]
    cases pre <;> rfl
  case tiled =>
    obtain ⟨h₁, h₂, h₃, h₄⟩ := tiled_append.mp ht
    refine tiled_append.mpr ⟨h₁, ?_, h₄⟩
    exact Nat.le_trans h₂ (Nat.le_trans (Nat.le_add_right _ _) h₃)
  case pages =>
    intro i
    change pages i = true ↔ Needed proc.isFree proc.endAddr (proc.buffer + i * PAGE_SIZE) _
    obtain ⟨h₁, h₂⟩ :=
      needed_delete proc.isFree hm.endAddr_mod (hm.page_mod i) ht hflags hstart hend
    rw [needed_mid_free hq, hpages, hm.pages_pair hb hq hx]
    constructor
    · rintro ⟨h | h, hkept⟩
      · exact h
      · exact h₂ h hkept
    · exact fun h => ⟨.inl h, fun hfreed => (h₁ hfreed).2 h⟩

theorem Mapped.delete (env : PageEnv) : ∃ pages, binderDeleteFreeBuffer env proc x =
        some { proc with buffers := pre ++ q :: post, pages := pages } ∧
      Mapped { proc with buffers := pre ++ q :: post, pages := pages } := by
  have ht := hm.tiled
  rw [hb] at ht
  have hn := ht.nodup
  have hn' : ((pre ++ [q]) ++ x :: post).Nodup := by simpa using hn
  have hxpre : x ∉ pre ++ [q] := fun h => ne_of_nodup_mid hn' x (.inl h) rfl
  have hqx : q ≠ x := fun h => hxpre (by simp [h])
  have hprev : listPrev x proc.buffers = some q := by
    rw [hb, listPrev_append (fun h => hxpre (by simp [h])) hqx]
  have hnext : listNext x proc.buffers = post.head? := by
    rw [hb, ← singleton_append, ← List.append_assoc, listNext_append_right hxpre, listNext_self]
  have herase : proc.buffers.erase x = pre ++ q :: post := by
    rw [hb, ← singleton_append, ← List.append_assoc, erase_append_self hxpre,
      List.append_assoc, singleton_append]
  obtain ⟨flags, hflags⟩ : ∃ flags, freePageFlags q x post.head? = flags := ⟨_, rfl⟩
  obtain ⟨start, hstart⟩ : ∃ start, start =
    if flags.1 then bufferStartPage x else bufferEndPage x := ⟨_, rfl⟩
  obtain ⟨end', hend⟩ : ∃ end', end' =
    (if flags.2 then bufferEndPage x else bufferStartPage x) + PAGE_SIZE := ⟨_, rfl⟩
  have hneeded := fun i =>
    needed_delete proc.isFree hm.endAddr_mod (hm.page_mod i) ht hflags hstart hend
  simp only [binderDeleteFreeBuffer, hprev, hnext, hflags, herase, ← hstart, ← hend]
  rw [if_neg (by rw [show (proc.headers q).free = true from hq]; decide)]
  split
  · rename_i hany
    have hxb : proc.buffer ≤ bufferStartPage x ∧ bufferStartPage x ≤ bufferEndPage x := by
      have h₁ := hm.base
      have h₂ := hm.buffer_le (a := x) (by rw [hb]; simp)
      simp only [bufferStartPage, bufferEndPage, bufferData, SIZEOF_BUFFER, pageMask,
        PAGE_SIZE] at *
      omega
    have hstart_mod : start % PAGE_SIZE = 0 := by
      rw [hstart]
      split <;> exact pageMask_mod _
    have hend_mod : end' % PAGE_SIZE = 0 := by
      rw [hend, Nat.add_mod_right]
      split <;> exact pageMask_mod _
    have hbase : proc.buffer ≤ start := by
      rw [hstart]
      split
      · exact hxb.1
      · exact Nat.le_trans hxb.1 hxb.2
    obtain ⟨ret, hu⟩ := binderUpdatePageRange_free { proc with buffers := pre ++ q :: post } env
      false hm.base hstart_mod hend_mod hbase
      (fun i hi => by
        rw [inPageRange, decide_eq_true_eq] at hi
        exact (hm.pages_pair hb hq hx i).mpr (.inr ((hneeded i).1 ⟨hany, hi⟩).1))
    rw [hu]
    refine ⟨_, rfl, hm.dropped hb hq hx hflags hstart hend ?_⟩
    intro i
    simp only [inPageRange, Bool.and_eq_true, Bool.not_eq_true', decide_eq_false_iff_not, hany,
      true_and]
  · rename_i hnone
    refine ⟨proc.pages, rfl, hm.dropped hb hq hx hflags hstart hend ?_⟩
    intro i
    exact ⟨fun h => ⟨h, fun h' => hnone h'.1⟩, fun h => h.1⟩

omit hm in
theorem Indexed.merge (hi : Indexed proc (some out)) (hn : proc.buffers.Nodup)
    (hw : (w = x ∧ out = q) ∨ (w = q ∧ out = x))
    (ht : t.toList = proc.freeBuffers.toList.erase w) :
    Indexed { proc with buffers := pre ++ q :: post, freeBuffers := t, pages := pages }
      (some q) := by
  rw [hb] at hn
  have hn' : ((pre ++ [q]) ++ x :: post).Nodup := by simpa using hn
  have hxo : ∀ b, b ∈ pre ++ q :: post → b ≠ x := by
    intro b hb
    refine ne_of_nodup_mid hn' b ?_
    simpa [or_assoc] using hb
  have hqo : ∀ b, b ∈ pre ∨ b ∈ post → b ≠ q :=
    ne_of_nodup_mid (hn.sublist (by simp))
  have hsub : ∀ b, b ∈ proc.buffers ↔ b = x ∨ b ∈ pre ++ q :: post := by
    intro b
    simp only [hb, mem_append, mem_cons]
    tauto
  have hsize : ∀ b, b ∈ pre ++ q :: post → b ≠ q →
      sizeIn proc.endAddr (pre ++ q :: post) b = binderBufferSize proc b := by
    intro b hbb hbq
    rw [binderBufferSize_eq, hb]
    refine (sizeIn_splice ?_ hn).symm
    simpa [hbq] using hbb
  have htree : ∀ b, b ∈ t.toList ↔ b ∈ proc.freeBuffers.toList ∧ b ≠ q ∧ b ≠ x := by
    intro b
    rw [ht, hi.free_nodup.mem_erase_iff, hi.free_mem]
    rcases hw with ⟨rfl, rfl⟩ | ⟨rfl, rfl⟩ <;> simp only [ne_eq, Option.some.injEq, eq_comm] <;>
      tauto
  constructor
  case free_nodup => exact ht ▸ hi.free_nodup.erase w
  case free_mem =>
    intro b
    change b ∈ t.toList ↔ b ∈ pre ++ q :: post ∧ proc.isFree b = true ∧ some q ≠ some b
    rw [htree, hi.free_mem, hsub]
    constructor
    · rintro ⟨⟨rfl | hbb, hbf, -⟩, hbq, hbx⟩
      · exact absurd rfl hbx
      · exact ⟨hbb, hbf, fun h => hbq (Option.some.inj h).symm⟩
    · rintro ⟨hbb, hbf, hbq⟩
      have hbx := hxo b hbb
      have hbq : b ≠ q := fun h => hbq (congrArg some h.symm)
      refine ⟨⟨.inr hbb, hbf, ?_⟩, hbq, hbx⟩
      rcases hw with ⟨-, rfl⟩ | ⟨-, rfl⟩
      · exact fun h => hbq (Option.some.inj h).symm
      · exact fun h => hbx (Option.some.inj h).symm
  case free_sorted =>
    have hsorted : t.toList.Pairwise
        (fun b c => binderBufferSize proc b ≤ binderBufferSize proc c) :=
      ht ▸ hi.free_sorted.sublist erase_sublist
    refine hsorted.imp_of_mem ?_
    intro b c hbt hct hbc
    have hmem : ∀ b ∈ t.toList, sizeIn proc.endAddr (pre ++ q :: post) b =
        binderBufferSize proc b := by
      intro b hbt
      obtain ⟨hbf, hbq, hbx⟩ := (htree b).mp hbt
      have hbb := ((hi.free_mem b).mp hbf).1
      exact hsize b (((hsub b).mp hbb).resolve_left hbx) hbq
    change sizeIn proc.endAddr (pre ++ q :: post) b ≤ sizeIn proc.endAddr (pre ++ q :: post) c
    rw [hmem b hbt, hmem c hct]
    exact hbc
  case allocated_mem =>
    intro b
    change b ∈ proc.allocatedBuffers.toList ↔ b ∈ pre ++ q :: post ∧ proc.isFree b = false
    rw [hi.allocated_mem, hsub]
    constructor
    · rintro ⟨rfl | hbb, hbf⟩
      · rw [hx] at hbf
        cases hbf
      · exact ⟨hbb, hbf⟩
    · exact fun ⟨hbb, hbf⟩ => ⟨.inr hbb, hbf⟩
  case allocated_sorted => exact hi.allocated_sorted
  case fits =>
    intro b hbb hbf
    have hbq : b ≠ q := by
      rintro rfl
      rw [show proc.isFree b = false from hbf] at hq
      cases hq
    change proc.payload b ≤ sizeIn proc.endAddr (pre ++ q :: post) b
    rw [hsize b hbb hbq]
    exact hi.fits b ((hsub b).mpr (.inr hbb)) hbf
  case async =>
    have h := hi.async
    simp only [hb, map_append, map_cons, sum_append, sum_cons,
      asyncCharge_free hx, Nat.zero_add] at h
    change proc.freeAsyncSpace + ((pre ++ q :: post).map proc.asyncCharge).sum = _
    rw [map_append, map_cons, sum_append, sum_cons]
    exact h

end Delete

def BinderProc.released (proc : BinderProc) (a space : Nat) (allocatedTree : SearchTree Nat)
    (pages : Nat → Bool) : BinderProc :=
  { proc with
    freeAsyncSpace := space
    pages := pages
    allocatedBuffers := allocatedTree
    headers := update proc.headers a { proc.headers a with free := true } }

section Release

variable {proc : BinderProc} {pre post : List Nat} {a space : Nat} {t : SearchTree Nat}
  {pages : Nat → Bool}

theorem released_headers_other (h : b ≠ a) :
    (proc.released a space t pages).headers b = proc.headers b := by
  simp only [BinderProc.released, update_of_ne h]

theorem released_isFree_other (h : b ≠ a) :
    (proc.released a space t pages).isFree b = proc.isFree b := by
  rw [BinderProc.isFree, released_headers_other h, BinderProc.isFree]

theorem released_isFree_self : (proc.released a space t pages).isFree a = true := by
  simp [BinderProc.isFree, BinderProc.released]

theorem Mapped.release (hm : Mapped proc) (hb : proc.buffers = pre ++ a :: post)
    (ha : proc.isFree a = false) (hpages : pages = fun i => proc.pages i &&
      !inPageRange proc (pageAlign (bufferData a)) (pageMask (nextStart proc.endAddr post)) i) :
    Mapped (proc.released a space t pages) := by
  have ht := hm.tiled
  rw [hb] at ht
  have hother := ne_of_nodup_mid ht.nodup
  have had := (tiled_append.mp ht).2.1
  refine ⟨hm.base, hm.size, hm.limit, hm.first, hm.tiled, ?_⟩
  intro i
  change pages i = true ↔ Needed _ proc.endAddr (proc.buffer + i * PAGE_SIZE) proc.buffers
  rw [hb, needed_mid_free released_isFree_self,
    needed_congr (fun b hb => released_isFree_other (hother b (.inl hb))),
    needed_congr (fun b hb => released_isFree_other (hother b (.inr hb))),
    (needed_shrink proc.isFree hm.endAddr_mod (hm.page_mod i) ht).1,
    ← needed_mid_allocated ha had, ← hb, ← hm.pages i, hpages]
  simp only [inPageRange, Bool.and_eq_true, Bool.not_eq_true', decide_eq_false_iff_not]

theorem Indexed.release (hi : Indexed proc none) (hb : proc.buffers = pre ++ a :: post)
    (hn : proc.buffers.Nodup) (ha : proc.isFree a = false)
    (hspace : space = proc.freeAsyncSpace + proc.asyncCharge a)
    (ht : t.toList = proc.allocatedBuffers.toList.erase a) :
    Indexed (proc.released a space t pages) (some a) := by
  have hnodup : proc.allocatedBuffers.toList.Nodup :=
    hi.allocated_sorted.imp (Nat.ne_of_lt)
  have hne : ∀ b, proc.isFree b = true → b ≠ a := by
    rintro b hbf rfl
    rw [ha] at hbf
    cases hbf
  constructor
  case free_nodup => exact hi.free_nodup
  case free_mem =>
    intro b
    change b ∈ proc.freeBuffers.toList ↔ b ∈ proc.buffers ∧ _ ∧ _
    rw [hi.free_mem]
    constructor
    · rintro ⟨hbb, hbf, -⟩
      refine ⟨hbb, (released_isFree_other (hne b hbf)).trans hbf, ?_⟩
      exact fun h => hne b hbf (Option.some.inj h).symm
    · rintro ⟨hbb, hbf, hba⟩
      have hba : b ≠ a := fun h => hba (congrArg some h.symm)
      exact ⟨hbb, (released_isFree_other hba).symm.trans hbf, by simp⟩
  case free_sorted => exact hi.free_sorted
  case allocated_mem =>
    intro b
    change b ∈ t.toList ↔ b ∈ proc.buffers ∧ _
    rw [ht, hnodup.mem_erase_iff, hi.allocated_mem]
    constructor
    · rintro ⟨hba, hbb, hbf⟩
      exact ⟨hbb, (released_isFree_other hba).trans hbf⟩
    · rintro ⟨hbb, hbf⟩
      have hba : b ≠ a := by
        rintro rfl
        rw [released_isFree_self] at hbf
        cases hbf
      exact ⟨hba, hbb, (released_isFree_other hba).symm.trans hbf⟩
  case allocated_sorted =>
    exact ht ▸ hi.allocated_sorted.sublist erase_sublist
  case fits =>
    intro b hbb hbf
    have hba : b ≠ a := by
      rintro rfl
      rw [released_isFree_self] at hbf
      cases hbf
    rw [BinderProc.payload, released_headers_other hba]
    exact hi.fits b hbb ((released_isFree_other hba).symm.trans hbf)
  case async =>
    have hother := ne_of_nodup_mid (hb ▸ hn)
    have h := hi.async
    change space + (proc.buffers.map _).sum = proc.bufferSize / 2
    simp only [hb, map_append, map_cons, sum_append, sum_cons] at h ⊢
    rw [sum_asyncCharge_congr (fun b hb => released_headers_other (hother b (.inl hb))),
      sum_asyncCharge_congr (fun b hb => released_headers_other (hother b (.inr hb))),
      asyncCharge_free released_isFree_self]
    omega

end Release

section Merge

variable {proc : BinderProc} {pre post : List Nat} {a : Nat}

theorem Mapped.withTree (h : Mapped proc) (t : SearchTree Nat) :
    Mapped { proc with freeBuffers := t } :=
  ⟨h.base, h.size, h.limit, h.first, h.tiled, h.pages⟩

section
variable (env : PageEnv) (balance : Rebalance Nat) (hm : Mapped proc) (hi : Indexed proc (some a))
    (hb : proc.buffers = pre ++ a :: post) (ha : proc.isFree a = true)
include env balance hm hi hb ha

theorem mergeNext_spec (hs : Separated proc.isFree post) :
    ∃ proc' post', mergeNext env balance proc a = some proc' ∧ Mapped proc' ∧
      Indexed proc' (some a) ∧ proc'.headers = proc.headers ∧
      proc'.buffers = pre ++ a :: post' ∧ Separated proc.isFree post' ∧
      ∀ y ∈ post'.head?, proc.isFree y = false := by
  have hn := hm.tiled.nodup
  have hapre : a ∉ pre := fun h => ne_of_nodup_mid (hb ▸ hn) a (.inl h) rfl
  have hnext : listNext a proc.buffers = post.head? := by
    rw [hb, listNext_append_right hapre, listNext_self]
  simp only [mergeNext, hnext]
  cases post with
  | nil => exact ⟨proc, [], rfl, hm, hi, rfl, hb, hs, by simp⟩
  | cons x post =>
    simp only [head?_cons]
    split
    · rename_i hx
      obtain ⟨pages, he, hm'⟩ := (hm.withTree (balance.apply (proc.freeBuffers.erase x))).delete
        hb ha hx env
      obtain ⟨hxy, hs'⟩ := isChain_cons.mp hs
      refine ⟨_, post, he, hm', ?_, rfl, rfl, hs', ?_⟩
      · exact hi.merge hb ha hx hn (.inl ⟨rfl, rfl⟩)
          (by rw [balance.toList_apply, SearchTree.toList_erase])
      · exact fun y hy => Bool.eq_false_iff.mpr (fun h => hxy y hy ⟨hx, h⟩)
    · rename_i hx
      refine ⟨proc, x :: post, rfl, hm, hi, rfl, hb, hs, ?_⟩
      intro y hy
      cases Option.some.inj hy
      exact Bool.eq_false_iff.mpr hx

theorem mergePrev_spec (hpre : Separated proc.isFree pre)
    (hpost : Separated proc.isFree post) (hnext : ∀ y ∈ post.head?, proc.isFree y = false) :
    ∃ a' proc', mergePrev env balance proc a = some (a', proc') ∧ Mapped proc' ∧
      Indexed proc' (some a') ∧ proc'.isFree a' = true ∧ a' ∈ proc'.buffers ∧
      Separated proc'.isFree proc'.buffers := by
  have hn := hm.tiled.nodup
  have hlast : ∀ q, ∀ y ∈ post.head?, ¬ (proc.isFree q = true ∧ proc.isFree y = true) := by
    rintro q y hy ⟨-, h⟩
    rw [hnext y hy] at h
    cases h
  have hmem : a ∈ proc.buffers := by simp [hb]
  rcases eq_nil_or_concat pre with rfl | ⟨pre, q, rfl⟩
  · have hprev : listPrev a proc.buffers = none := by
      rw [hb] at hn ⊢
      exact listPrev_head hn
    simp only [mergePrev, hprev]
    refine ⟨a, proc, rfl, hm, hi, ha, hmem, ?_⟩
    rw [hb]
    exact separated_mid.mpr ⟨hpre, hpost, by simp, hlast a⟩
  · have hb' : proc.buffers = pre ++ q :: a :: post := by simpa using hb
    have hn' : ((pre ++ [q]) ++ a :: post).Nodup := by
      rw [← concat_eq_append, ← hb]
      exact hn
    have hapre : ∀ b ∈ pre ++ [q], b ≠ a := fun b h => ne_of_nodup_mid hn' b (.inl h)
    have hprev : listPrev a proc.buffers = some q := by
      rw [hb']
      exact listPrev_append (fun h => hapre a (by simp [h]) rfl) (hapre q (by simp))
    simp only [mergePrev, hprev]
    split
    · rename_i hq
      obtain ⟨pages, he, hm'⟩ := hm.delete hb' hq ha env
      refine ⟨q, _, by rw [he]; rfl, hm'.withTree _, ?_, hq, by simp, ?_⟩
      · exact hi.merge hb' hq ha hn (.inr ⟨rfl, rfl⟩)
          (by rw [balance.toList_apply, SearchTree.toList_erase])
      · obtain ⟨h₁, -, h₂, -⟩ := separated_mid.mp (by simpa using hpre)
        exact separated_mid.mpr ⟨h₁, hpost, h₂, hlast q⟩
    · rename_i hq
      refine ⟨a, proc, rfl, hm, hi, ha, hmem, ?_⟩
      rw [hb]
      refine separated_mid.mpr ⟨hpre, hpost, ?_, hlast a⟩
      rintro x hx ⟨h, -⟩
      simp at hx
      exact hq (hx ▸ h)

end

end Merge

theorem Indexed.insert (balance : Rebalance Nat) (hi : Indexed proc (some a))
    (ha : proc.isFree a = true) (hmem : a ∈ proc.buffers) :
    ∃ t, binderInsertFreeBuffer balance proc a = some { proc with freeBuffers := t } ∧
      Indexed { proc with freeBuffers := t } none := by
  obtain ⟨t, he, hperm, hsorted⟩ := binderInsertFreeBuffer_spec balance proc a ha
    (fun b hb => ((hi.free_mem b).mp hb).2.1) hi.free_sorted
  have hout : a ∉ proc.freeBuffers.toList := fun h => ((hi.free_mem a).mp h).2.2 rfl
  refine ⟨t, he, ?_, ?_, hsorted, hi.allocated_mem, hi.allocated_sorted, hi.fits, hi.async⟩
  · exact hperm.nodup_iff.mpr (nodup_cons.mpr ⟨hout, hi.free_nodup⟩)
  · intro b
    change b ∈ t.toList ↔ b ∈ proc.buffers ∧ proc.isFree b = true ∧ _
    rw [hperm.mem_iff, mem_cons, hi.free_mem]
    constructor
    · rintro (rfl | ⟨hbb, hbf, -⟩)
      · exact ⟨hmem, ha, by simp⟩
      · exact ⟨hbb, hbf, by simp⟩
    · rintro ⟨hbb, hbf, -⟩
      by_cases hba : b = a
      · exact .inl hba
      · exact .inr ⟨hbb, hbf, fun h => hba (Option.some.inj h).symm⟩

theorem Sound.release (env : PageEnv) (balance : Rebalance Nat)
    (h : Sound proc) (hb : proc.buffers = pre ++ a :: post) (ha : proc.isFree a = false) :
    ∃ space t pages, releaseBuffer env balance proc a = some (proc.released a space t pages) ∧
      Mapped (proc.released a space t pages) ∧
      Indexed (proc.released a space t pages) (some a) := by
  obtain ⟨hm, hi, -⟩ := h
  have hmem : a ∈ proc.buffers := by simp [hb]
  have ht := hm.tiled
  rw [hb] at ht
  have hfit := hi.fits a hmem ha
  have hbase := hm.buffer_le hmem
  have hsize : alignedSize (proc.headers a).dataSize (proc.headers a).offsetsSize =
      proc.payload a :=
    alignedSize_of_small (Nat.lt_of_le_of_lt hfit (hm.binderBufferSize_lt hmem))
  have hbound : a ≤ proc.buffer + proc.bufferSize :=
    Nat.le_trans (Nat.le_add_right _ _) (hm.tiled.mem_bounds hmem).2
  have hspace : (if (proc.headers a).asyncTransaction = true
      then proc.freeAsyncSpace + (proc.payload a + SIZEOF_BUFFER) else proc.freeAsyncSpace) =
      proc.freeAsyncSpace + proc.asyncCharge a := by
    simp only [BinderProc.asyncCharge, BinderBuffer.asyncCharge,
      show (proc.headers a).free = false from ha, true_and]
    split <;> rfl
  obtain ⟨ret, hu⟩ := binderUpdatePageRange_free
    { proc with freeAsyncSpace := proc.freeAsyncSpace + proc.asyncCharge a } env false hm.base
    (pageAlign_mod (bufferData a)) (pageMask_mod (nextStart proc.endAddr post))
    (Nat.le_trans hbase (Nat.le_trans (Nat.le_add_right _ _) (le_pageAlign _)))
    (fun i hin => by
      rw [inPageRange, decide_eq_true_eq] at hin
      refine (hm.pages i).mpr ?_
      rw [hb, needed_mid_allocated ha (tiled_append.mp ht).2.1]
      exact .inr (.inl ((needed_shrink proc.isFree hm.endAddr_mod (hm.page_mod i) ht).2 hin)))
  refine ⟨_, balance.apply (proc.allocatedBuffers.erase a), _, ?_, hm.release hb ha rfl,
    hi.release hb hm.tiled.nodup ha rfl ?_⟩
  · simp only [releaseBuffer, hsize, hspace, hm.binderBufferSize_mid hb, hu]
    rw [if_neg]
    · rfl
    · rintro (h | h | h | h)
      · rw [show (proc.headers a).free = false from ha] at h
        cases h
      · omega
      · omega
      · omega
  · rw [balance.toList_apply, SearchTree.toList_erase]

theorem Sound.free (env : PageEnv) (balance : Rebalance Nat) (h : Sound proc)
    (ha : a ∈ proc.allocatedBuffers.toList) :
    ∃ proc', binderFreeBuf env balance proc a = some proc' ∧ Sound proc' := by
  obtain ⟨hmem, haf⟩ := (h.indexed.allocated_mem a).mp ha
  obtain ⟨pre, post, hb⟩ := append_of_mem hmem
  obtain ⟨space, t, pages, he₁, hm₁, hi₁⟩ := h.release env balance hb haf
  have hother := ne_of_nodup_mid (hb ▸ h.mapped.tiled.nodup)
  obtain ⟨hpre, hpost, -, -⟩ := separated_mid.mp (hb ▸ h.separated)
  have hpre : Separated (proc.released a space t pages).isFree pre :=
    hpre.congr (fun b hb => released_isFree_other (hother b (.inl hb)))
  have hpost : Separated (proc.released a space t pages).isFree post :=
    hpost.congr (fun b hb => released_isFree_other (hother b (.inr hb)))
  obtain ⟨proc₂, post₂, he₂, hm₂, hi₂, hheaders, hb₂, hpost₂, hnext⟩ :=
    mergeNext_spec env balance hm₁ hi₁ hb released_isFree_self hpost
  have hfree : proc₂.isFree = (proc.released a space t pages).isFree := by
    funext b
    rw [BinderProc.isFree, hheaders, BinderProc.isFree]
  rw [← hfree] at hpre hpost₂ hnext
  obtain ⟨a', proc₃, he₃, hm₃, hi₃, ha', hmem', hs⟩ := mergePrev_spec env balance hm₂ hi₂ hb₂
    (hfree ▸ released_isFree_self) hpre hpost₂ hnext
  obtain ⟨t', he₄, hi₄⟩ := hi₃.insert balance ha' hmem'
  refine ⟨_, ?_, hm₃.withTree t', hi₄, hs⟩
  simp [binderFreeBuf, he₁, he₂, he₃, he₄]

end

open SearchTree (Rebalance)
open List Option

def Tiles (s e : Nat) : List (Nat × Nat) → Prop
  | [] => s = e
  | (a, n) :: l => a = s ∧ Tiles (a + n) e l

theorem Tiled.tiles (h : Tiled e l) :
    Tiles (nextStart e l) e (l.map fun a => (a, SIZEOF_BUFFER + sizeIn e l a)) := by
  induction l with
  | nil => exact rfl
  | cons a l ih =>
    have hne : ∀ b ∈ l, a ≠ b := fun b hb hab => (nodup_cons.mp h.nodup).1 (hab ▸ hb)
    have hend : a + (SIZEOF_BUFFER + sizeIn e (a :: l) a) = nextStart e l := by
      have := h.1
      rw [sizeIn_self]
      simp only [bufferData] at this ⊢
      omega
    have hsizes : l.map (fun b => (b, SIZEOF_BUFFER + sizeIn e (a :: l) b)) =
        l.map (fun b => (b, SIZEOF_BUFFER + sizeIn e l b)) := by
      apply map_congr_left
      intro b hb
      rw [sizeIn_cons_ne (hne b hb)]
    refine ⟨rfl, ?_⟩
    rw [hend, hsizes]
    exact ih h.2

theorem Tiled.needed_iff (h : Tiled e l) : Needed free e page l ↔
    ∃ a ∈ l, Meets page a (bufferData a) ∨
      (free a = false ∧ Meets page a (bufferData a + sizeIn e l a)) := by
  induction l with
  | nil => simp [Needed]
  | cons a l ih =>
    have hne : ∀ b ∈ l, a ≠ b := fun b hb hab => (nodup_cons.mp h.nodup).1 (hab ▸ hb)
    have hsize : bufferData a + sizeIn e (a :: l) a = nextStart e l := by
      rw [sizeIn_self, Nat.add_sub_cancel' h.1]
    rw [Needed, ih h.2]
    constructor
    · rintro (hm | hm | ⟨b, hb, hm⟩)
      · exact ⟨a, mem_cons_self, .inl hm⟩
      · exact ⟨a, mem_cons_self, .inr (hsize.symm ▸ hm)⟩
      · refine ⟨b, mem_cons_of_mem _ hb, ?_⟩
        rwa [sizeIn_cons_ne (hne b hb)]
    · rintro ⟨b, hb, hm⟩
      rcases mem_cons.mp hb with rfl | hb
      · rcases hm with hm | hm
        · exact .inl hm
        · exact .inr (.inl (hsize ▸ hm))
      · refine .inr (.inr ⟨b, hb, ?_⟩)
        rwa [sizeIn_cons_ne (hne b hb)] at hm

theorem Sound.init (he : binderInsertFreeBuffer balance proc proc.buffer = some proc')
    (hbase : proc.buffer % PAGE_SIZE = 0) (hsize : proc.bufferSize % PAGE_SIZE = 0)
    (hpos : 0 < proc.bufferSize) (hlimit : proc.bufferSize ≤ SZ_4M)
    (hbuffers : proc.buffers = [proc.buffer]) (hfree : proc.isFree proc.buffer = true)
    (hleaf : proc.freeBuffers = .leaf) (hleaf' : proc.allocatedBuffers = .leaf)
    (hspace : proc.freeAsyncSpace = proc.bufferSize / 2)
    (hpages : proc.pages = inPageRange proc proc.buffer (proc.buffer + PAGE_SIZE)) :
    Sound proc' ∧ proc'.bufferSize = proc.bufferSize := by
  have hi : Indexed proc (some proc.buffer) := by
    constructor
    case free_nodup => simp [hleaf, SearchTree.toList]
    case free_mem =>
      intro b
      simp only [hleaf, SearchTree.toList, not_mem_nil, hbuffers, mem_singleton, false_iff]
      rintro ⟨rfl, -, h⟩
      exact h rfl
    case free_sorted => simp [hleaf, SearchTree.toList]
    case allocated_mem =>
      intro b
      simp only [hleaf', SearchTree.toList, not_mem_nil, hbuffers, mem_singleton, false_iff]
      rintro ⟨rfl, h⟩
      rw [hfree] at h
      cases h
    case allocated_sorted => simp [hleaf', SearchTree.toList]
    case fits =>
      intro b hb h
      rw [hbuffers, mem_singleton] at hb
      rw [hb, hfree] at h
      cases h
    case async =>
      rw [hbuffers, map_singleton, sum_singleton, asyncCharge_free hfree, hspace, Nat.add_zero]
  have hm : Mapped proc := by
    refine ⟨hbase, hsize, hlimit, by rw [hbuffers]; rfl, ?_, ?_⟩
    · rw [hbuffers]
      refine ⟨?_, trivial⟩
      simp only [nextStart_nil, bufferData, SIZEOF_BUFFER, BinderProc.endAddr, PAGE_SIZE] at *
      omega
    · intro i
      rw [hpages, hbuffers, inPageRange, decide_eq_true_eq]
      simp only [Needed, hfree, Bool.true_eq_false, false_and, or_false, Meets, bufferData,
        SIZEOF_BUFFER, PAGE_SIZE]
      omega
  obtain ⟨t, he', hi'⟩ := hi.insert balance hfree (by rw [hbuffers]; simp)
  obtain rfl := some.inj (he.symm.trans he')
  refine ⟨⟨hm.withTree t, hi', ?_⟩, rfl⟩
  rw [hbuffers]
  exact isChain_singleton _

theorem binderInsertFreeBuffer_frame (space : Nat) (vma : Bool)
    (h : binderInsertFreeBuffer balance proc x = some proc₁) :
    binderInsertFreeBuffer balance { proc with freeAsyncSpace := space, vma := vma } x =
      some { proc₁ with freeAsyncSpace := space, vma := vma } := by
  simp only [binderInsertFreeBuffer] at h ⊢
  split at h
  · cases h
  · rename_i hfree
    obtain ⟨t, he, rfl⟩ := map_eq_some_iff.mp h
    rw [if_neg hfree]
    exact congrArg (Option.map fun tree => { proc with
      freeBuffers := balance.apply tree, freeAsyncSpace := space, vma := vma }) he

theorem VmArea.truncatedEnd_spec (vma : VmArea) :
    (vma.truncatedEnd - vma.vmStart) % PAGE_SIZE = 0 ∧ 0 < vma.truncatedEnd - vma.vmStart ∧
      vma.truncatedEnd - vma.vmStart ≤ SZ_4M := by
  have h₁ := vma.nonempty
  have h₂ := vma.start_aligned
  have h₃ := vma.end_aligned
  unfold truncatedEnd
  split <;> simp only [PAGE_SIZE, SZ_4M] at * <;> omega

theorem Sound.mmap
    (h : binderMmap env balance memory vma area pageArray = some (.ok proc)) : Sound proc := by
  obtain ⟨hmod, hpos, hlimit⟩ := vma.truncatedEnd_spec
  simp only [binderMmap] at h
  generalize vma.truncatedEnd - vma.vmStart = size at *
  split at h
  · cases h
  split at h
  · cases h
  split at h
  · cases h
  rename_i area _
  obtain hu | hu := binderUpdatePageRange_allocate
    ⟨area.addr, size, [], memory, .leaf, .leaf, 0, fun _ => false, false⟩ env true area.aligned
    area.aligned (by rw [Nat.add_mod_right]; exact area.aligned) (Nat.le_refl _) (fun _ _ => rfl)
  · rw [hu] at h
    obtain ⟨proc₁, he, hok⟩ := map_eq_some_iff.mp h
    obtain ⟨hsound, hsize⟩ := Sound.init (binderInsertFreeBuffer_frame (size / 2) true he)
      area.aligned hmod hpos hlimit rfl (by simp [BinderProc.isFree]) rfl rfl rfl
      (by funext i; exact Bool.false_or _)
    have hsize : proc₁.bufferSize = size := hsize
    rw [← Except.ok.inj hok]
    rwa [← hsize] at hsound
  · rw [hu] at h
    cases h

theorem Sound.lookup (h : Sound proc) (kernPtr : Nat) :
    binderBufferLookup proc kernPtr = some none ∨
      ∃ a ∈ proc.allocatedBuffers.toList, binderBufferLookup proc kernPtr = some (some a) := by
  have hfree : ∀ b ∈ proc.allocatedBuffers.toList, (proc.headers b).free = false :=
    fun b hb => ((h.indexed.allocated_mem b).mp hb).2
  rcases SearchTree.lookup_spec (fun b => if (proc.headers b).free = true then none
      else some (compare kernPtr b)) (fun b hb => by simp [hfree b hb]) with hl | ⟨a, ha, -, hl⟩
  · exact .inl hl
  · exact .inr ⟨a, ha, hl⟩

theorem Sound.step (h : Sound proc) (op : BufferOp) :
    ∃ proc', bufferStep proc op = some proc' ∧ Sound proc' := by
  cases op with
  | alloc env balance d o isAsync =>
    obtain ⟨r, proc', he, h'⟩ := h.alloc env balance d o isAsync
    exact ⟨proc', by rw [bufferStep, he]; rfl, h'⟩
  | free env balance kernPtr =>
    rw [bufferStep]
    rcases h.lookup kernPtr with hl | ⟨a, ha, hl⟩
    · exact ⟨proc, by rw [hl], h⟩
    · obtain ⟨proc', he, h'⟩ := h.free env balance ha
      exact ⟨proc', by rw [hl]; exact he, h'⟩
  | vmaClose =>
    refine ⟨_, rfl, ?_, ?_, h.separated⟩
    · exact ⟨h.mapped.base, h.mapped.size, h.mapped.limit, h.mapped.first, h.mapped.tiled,
        h.mapped.pages⟩
    · exact ⟨h.indexed.free_nodup, h.indexed.free_mem, h.indexed.free_sorted,
        h.indexed.allocated_mem, h.indexed.allocated_sorted, h.indexed.fits, h.indexed.async⟩

theorem Sound.run (h : Sound proc) (ops : List BufferOp) :
    ∃ proc', ops.foldlM bufferStep proc = some proc' ∧ Sound proc' :=
  foldlM_invariant (P := fun _ => True) (fun hs _ => Sound.step hs _) h (fun _ _ => trivial)

structure BuffersOrdered (proc : BinderProc) : Prop where
  tiles : Tiles proc.buffer (proc.buffer + proc.bufferSize)
    (proc.buffers.map fun a => (a, SIZEOF_BUFFER + binderBufferSize proc a))
  free_exact : proc.freeBuffers.toList.Nodup ∧
    ∀ a, a ∈ proc.freeBuffers.toList ↔ a ∈ proc.buffers ∧ (proc.headers a).free = true
  free_sorted : proc.freeBuffers.toList.Pairwise
    (fun a b => binderBufferSize proc a ≤ binderBufferSize proc b)
  allocated_exact : ∀ a, a ∈ proc.allocatedBuffers.toList ↔
    a ∈ proc.buffers ∧ (proc.headers a).free = false
  allocated_sorted : proc.allocatedBuffers.toList.Pairwise (· < ·)
  separated : proc.buffers.IsChain
    (fun a b => ¬ ((proc.headers a).free = true ∧ (proc.headers b).free = true))
  fits : ∀ a ∈ proc.allocatedBuffers.toList, proc.payload a ≤ binderBufferSize proc a
  async_space : proc.freeAsyncSpace + (proc.buffers.map proc.asyncCharge).sum = proc.bufferSize / 2

theorem Sound.ordered (h : Sound proc) : BuffersOrdered proc := by
  obtain ⟨hm, hi, hs⟩ := h
  constructor
  case tiles =>
    have h := hm.tiled.tiles
    rwa [nextStart, hm.first] at h
  case free_exact =>
    refine ⟨hi.free_nodup, fun a => ?_⟩
    rw [hi.free_mem]
    exact ⟨fun h => ⟨h.1, h.2.1⟩, fun h => ⟨h.1, h.2, by simp⟩⟩
  case free_sorted => exact hi.free_sorted
  case allocated_exact => exact hi.allocated_mem
  case allocated_sorted => exact hi.allocated_sorted
  case separated => exact hs
  case fits =>
    intro a ha
    obtain ⟨hmem, hfree⟩ := (hi.allocated_mem a).mp ha
    exact hi.fits a hmem hfree
  case async_space => exact hi.async

theorem binder_buffers_stay_ordered (env : PageEnv) (balance : Rebalance Nat)
    (memory : Nat → BinderBuffer) (vma : VmArea) (area : Option VmStruct) (pageArray : Bool)
    (proc₀ : BinderProc)
    (hmmap : binderMmap env balance memory vma area pageArray = some (.ok proc₀))
    (ops : List BufferOp) :
    ∃ proc, ops.foldlM bufferStep proc₀ = some proc ∧ BuffersOrdered proc := by
  obtain ⟨proc, hrun, hsound⟩ := (Sound.mmap hmmap).run ops
  exact ⟨proc, hrun, hsound.ordered⟩

def noFailures : PageEnv := ⟨true, fun _ => .ok⟩

def keepShape : Rebalance Nat := ⟨id, fun _ => rfl⟩

theorem binder_buffers_stay_ordered_sample : ∃ proc₀,
    binderMmap noFailures keepShape (fun _ => ⟨false, false, 0, 0⟩)
      ⟨0#32, 0, 8192, by decide, by decide, by decide⟩ (some ⟨4096, by decide⟩) true =
        some (.ok proc₀) ∧
    ∃ proc, [BufferOp.alloc noFailures keepShape 100 8 true,
        .alloc noFailures keepShape 20 0 false, .free noFailures keepShape 4096].foldlM
          bufferStep proc₀ = some proc ∧ BuffersOrdered proc :=
  ⟨_, rfl, binder_buffers_stay_ordered noFailures keepShape (fun _ => ⟨false, false, 0, 0⟩)
    ⟨0#32, 0, 8192, by decide, by decide, by decide⟩ (some ⟨4096, by decide⟩) true _ rfl _⟩

/-- No run meets `BUG_ON(*page)` or frees an absent page, and the page array matches the buffers. -/
theorem binder_pages_match_buffers (env : PageEnv) (balance : Rebalance Nat)
    (memory : Nat → BinderBuffer) (vma : VmArea) (area : Option VmStruct) (pageArray : Bool)
    (proc₀ : BinderProc)
    (hmmap : binderMmap env balance memory vma area pageArray = some (.ok proc₀))
    (ops : List BufferOp) :
    ∃ proc, ops.foldlM bufferStep proc₀ = some proc ∧ ∀ i, proc.pages i = true ↔
      ∃ a ∈ proc.buffers, Meets (proc.buffer + i * PAGE_SIZE) a (bufferData a) ∨
        ((proc.headers a).free = false ∧ Meets (proc.buffer + i * PAGE_SIZE) a
          (bufferData a + binderBufferSize proc a)) := by
  obtain ⟨proc, hrun, hsound⟩ := (Sound.mmap hmmap).run ops
  refine ⟨proc, hrun, fun i => ?_⟩
  rw [hsound.mapped.pages i]
  exact hsound.mapped.tiled.needed_iff

theorem binder_pages_match_buffers_sample : ∃ proc₀,
    binderMmap noFailures keepShape (fun _ => ⟨false, false, 0, 0⟩)
      ⟨0#32, 0, 8192, by decide, by decide, by decide⟩ (some ⟨4096, by decide⟩) true =
        some (.ok proc₀) ∧
    ∃ proc, [BufferOp.alloc noFailures keepShape 5000 0 false,
        .free noFailures keepShape 4096].foldlM bufferStep proc₀ = some proc ∧
      ∀ i, proc.pages i = true ↔ ∃ a ∈ proc.buffers,
        Meets (proc.buffer + i * PAGE_SIZE) a (bufferData a) ∨
        ((proc.headers a).free = false ∧ Meets (proc.buffer + i * PAGE_SIZE) a
          (bufferData a + binderBufferSize proc a)) :=
  ⟨_, rfl, binder_pages_match_buffers noFailures keepShape (fun _ => ⟨false, false, 0, 0⟩)
    ⟨0#32, 0, 8192, by decide, by decide, by decide⟩ (some ⟨4096, by decide⟩) true _ rfl _⟩

end SpicaKernel.Binder
