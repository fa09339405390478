import SpicaKernel.BuddyTilings
import SpicaKernel.PageAllocator
import SpicaKernel.Runs

namespace SpicaKernel.PageAllocator
open List Option
set_option autoImplicit true

structure Sound (L : Layout) (z : Zone) (Held : Nat → Prop) : Prop where
  listed : Listed L z
  tiling : Tiling L.maxOrder L.InZone z.Free Held

section
variable (h : Sound L z Held)
include h

theorem Sound.congr (hh : ∀ x, Held' x ↔ Held x) : Sound L z Held' :=
  ⟨h.listed, h.tiling.congr (fun _ _ => Iff.rfl) hh⟩

theorem Sound.take (hp : z.Free p o) :
    Sound L (removeFree z p o) (fun x => Held x ∨ InBlock p o x) := by
  obtain ⟨t, hmem⟩ := hp
  exact ⟨h.listed.remove hmem, (h.tiling.take ⟨t, hmem⟩).congr
    (fun _ _ => h.listed.free_removeFree hmem) (fun _ => Iff.rfl)⟩

theorem Sound.held_not_buddy (hp : Held p) : (z.page p).buddy = false := by
  by_contra hb
  have hin : L.InZone p := h.tiling.space.mpr (.inl hp)
  have hfree := h.listed.listed hin (by simpa using hb)
  exact h.tiling.apart hp hfree (inBlock_self _ _)

theorem Sound.put (ho : o < L.maxOrder) (ha : 2 ^ o ∣ p)
    (hheld : ∀ x, InBlock p o x → Held x) (hb : o + 1 < L.maxOrder → ¬ z.Free (buddyOf p o) o) :
    Sound L (addFree z p o t) (fun x => Held x ∧ ¬ InBlock p o x) := by
  have hp : Held p := hheld p (inBlock_self p o)
  refine ⟨h.listed.add (h.tiling.space.mpr (.inl hp)) (h.held_not_buddy hp), ?_⟩
  exact (h.tiling.put ho ha hheld hb).congr (fun _ _ => free_addFree z) (fun _ => Iff.rfl)

theorem Sound.move (hp : z.Free p o) : Sound L (relist z p o t) Held := by
  obtain ⟨t', hmem⟩ := hp
  exact ⟨h.listed.move hmem, h.tiling.congr (fun _ _ => h.listed.free_relist hmem)
    (fun _ => Iff.rfl)⟩

theorem Sound.frame (hlist : z'.freeList = z.freeList)
    (hnr : z'.nrFree = z.nrFree)
    (hpage : ∀ p, (z'.page p).buddy = (z.page p).buddy ∧
      ((z.page p).buddy = true → (z'.page p).priv = (z.page p).priv)) : Sound L z' Held := by
  have hfree : ∀ p o, z'.Free p o ↔ z.Free p o := by
    intro p o
    unfold Zone.Free
    rw [hlist]
  refine ⟨⟨?_, ?_, ?_, ?_, ?_⟩, h.tiling.congr hfree (fun _ => Iff.rfl)⟩
  · rw [hlist]
    exact h.listed.nodup
  · rw [hlist]
    exact h.listed.kind
  · intro p o t hp
    rw [hlist] at hp
    obtain ⟨hin, hb, ho⟩ := h.listed.flagged hp
    exact ⟨hin, (hpage p).1.trans hb, ((hpage p).2 hb).trans ho⟩
  · intro p hin hb
    have hb' := (hpage p).1.symm.trans hb
    rw [(hpage p).2 hb', hfree]
    exact h.listed.listed hin hb'
  · intro o
    unfold Zone.listed
    rw [hnr, hlist]
    exact h.listed.counted o

end

theorem index_parity (ho : o < m) : p % 2 ^ m / 2 ^ o % 2 = p / 2 ^ o % 2 := by
  have hbit : (p % 2 ^ m).testBit o = p.testBit o := by simp [ho]
  rw [Nat.testBit_eq_decide_div_mod_eq, Nat.testBit_eq_decide_div_mod_eq, decide_eq_decide] at hbit
  omega

theorem index_le_of_odd (h : p / 2 ^ o % 2 = 1) : 2 ^ o ≤ p := by
  by_contra hlt
  rw [Nat.div_eq_of_lt (by omega)] at h
  cases h

theorem index_aligned (h : 2 ^ o ∣ p) (ho : o < m) : 2 ^ o ∣ p % 2 ^ m :=
  (Nat.dvd_mod_iff (Nat.pow_dvd_pow 2 (Nat.le_of_lt ho))).mpr h

theorem pageFindBuddy_eq (h : 2 ^ o ∣ p) (ho : o < m) :
    pageFindBuddy p (p % 2 ^ m) o = buddyOf p o := by
  have hpar := index_parity (p := p) ho
  rw [pageFindBuddy, xor_two_pow (index_aligned h ho), buddyOf, buddyOf, hpar]
  split
  · omega
  · have hodd := index_le_of_odd (p := p % 2 ^ m) (o := o) (by omega)
    omega

theorem combined_eq (h : 2 ^ o ∣ p) (ho : o < m) :
    p + findCombinedIndex (p % 2 ^ m) o - p % 2 ^ m = parentOf p o ∧
      findCombinedIndex (p % 2 ^ m) o = parentOf p o % 2 ^ m := by
  have hpar := index_parity (p := p) ho
  rw [findCombinedIndex, ldiff_two_pow (index_aligned h ho), parentOf, parentOf, hpar]
  split
  · exact ⟨by omega, rfl⟩
  · have hodd := index_le_of_odd (p := p % 2 ^ m) (o := o) (by omega)
    refine ⟨by omega, ?_⟩
    have hsplit : p - 2 ^ o = p % 2 ^ m - 2 ^ o + 2 ^ m * (p / 2 ^ m) := by
      have := Nat.mod_add_div p (2 ^ m)
      omega
    rw [hsplit, Nat.add_mul_mod_self_left]
    exact (Nat.mod_eq_of_lt (by omega)).symm

theorem Sound.isBuddy_iff (h : Sound L z Held) : pageIsBuddy L z b o = true ↔ z.Free b o := by
  rw [h.listed.free_iff]
  simp [pageIsBuddy, and_assoc]

theorem Sound.coalesce (h : Sound L z Held) (hn : o + n + 1 = L.maxOrder) (ha : 2 ^ o ∣ p)
    (hheld : ∀ x, InBlock p o x → Held x) :
    Sound L (addFree (coalesce L n z p (p % 2 ^ L.maxOrder) o).1
      (coalesce L n z p (p % 2 ^ L.maxOrder) o).2.1
      (coalesce L n z p (p % 2 ^ L.maxOrder) o).2.2 t) (fun x => Held x ∧ ¬ InBlock p o x) := by
  induction n generalizing z Held p o with
  | zero =>
    have hput := h.put (o := o) (t := t) (by omega) ha hheld (by omega)
    exact hput
  | succ n ih =>
    have hb := pageFindBuddy_eq ha (show o < L.maxOrder by omega)
    obtain ⟨hpage, hidx⟩ := combined_eq ha (show o < L.maxOrder by omega)
    simp only [PageAllocator.coalesce, hb]
    split
    · rename_i hbuddy
      have hfree := h.isBuddy_iff.mp hbuddy
      rw [hpage, hidx]
      have hnext := ih (h.take hfree) (p := parentOf p o) (o := o + 1) (by omega)
        (parentOf_aligned ha) ?_
      · refine hnext.congr fun x => ?_
        rw [inBlock_parentOf ha]
        have hx := fun hx hin => h.tiling.apart (x := x) hx hfree hin
        tauto
      · intro x hx
        rcases (inBlock_parentOf ha).mp hx with hx | hx
        · exact .inl (hheld x hx)
        · exact .inr hx
    · rename_i hbuddy
      have hput := h.put (o := o) (t := t) (by omega) ha hheld fun _ hfree =>
        hbuddy (h.isBuddy_iff.mpr hfree)
      exact hput

theorem Sound.mergeIn (h : Sound L z Held) (ho : o < L.maxOrder) (ha : 2 ^ o ∣ p)
    (hheld : ∀ x, InBlock p o x → Held x) :
    Sound L (mergeIn L z p o t) (fun x => Held x ∧ ¬ InBlock p o x) :=
  h.coalesce (by omega) ha hheld

structure Unmoved (z z' : Zone) : Prop where
  lists : z'.freeList = z.freeList
  counts : z'.nrFree = z.nrFree
  flags : ∀ p, (z'.page p).buddy = (z.page p).buddy
  orders : ∀ p, (z'.page p).priv = (z.page p).priv

theorem Unmoved.refl (z : Zone) : Unmoved z z := ⟨rfl, rfl, fun _ => rfl, fun _ => rfl⟩

theorem Unmoved.trans (h : Unmoved z z') (h' : Unmoved z' z'') : Unmoved z z'' :=
  ⟨h'.lists.trans h.lists, h'.counts.trans h.counts, fun p => (h'.flags p).trans (h.flags p),
    fun p => (h'.orders p).trans (h.orders p)⟩

theorem Sound.unmoved (h : Sound L z Held) (hz : Unmoved z z') : Sound L z' Held :=
  h.frame hz.lists hz.counts fun p => ⟨hz.flags p, fun _ => hz.orders p⟩

theorem Unmoved.setPage (z : Zone) (p : Nat) (f : Page → Page)
    (hb : ∀ q, (f q).buddy = q.buddy) (ho : ∀ q, (f q).priv = q.priv) :
    Unmoved z (z.setPage p f) := by
  refine ⟨rfl, rfl, fun q => ?_, fun q => ?_⟩
  · by_cases hq : q = p
    · subst hq
      simp [hb]
    · simp [Zone.setPage, hq]
  · by_cases hq : q = p
    · subst hq
      simp [ho]
    · simp [Zone.setPage, hq]

theorem Unmoved.foldl (zone : β → Zone) (l : List α)
    (hstep : ∀ b a, Unmoved (zone b) (zone (step b a))) (b : β) :
    Unmoved (zone b) (zone (l.foldl step b)) := by
  induction l generalizing b with
  | nil => exact .refl _
  | cons a l ih => exact (hstep b a).trans (ih _)

theorem destroyCompoundPage_unmoved (z : Zone) (page order : Nat) :
    Unmoved z (destroyCompoundPage z page order).1 := by
  refine Unmoved.trans ?_ (Unmoved.foldl Prod.fst _ (fun r i => ?_) _)
  · exact .setPage z page (fun q => { q with head := false }) (fun _ => rfl) (fun _ => rfl)
  · exact .setPage r.1 _ (fun q => { q with tail := false }) (fun _ => rfl) (fun _ => rfl)

theorem prepCompoundPage_unmoved (z : Zone) (page order : Nat) :
    Unmoved z (prepCompoundPage z page order) := by
  refine Unmoved.trans ?_ (Unmoved.foldl id _ (fun z i => ?_) _)
  · refine (Unmoved.setPage z (page + 1) (fun q => { q with lruPrev := order }) ?_ ?_).trans
      (Unmoved.setPage _ page (fun q => { q with head := true }) ?_ ?_)
    all_goals exact fun _ => rfl
  · exact .setPage z _ (fun q => { q with tail := true, firstPage := page }) (fun _ => rfl)
      (fun _ => rfl)

theorem setPageblockMigratetype_unmoved (L : Layout) (z : Zone) (page : Nat) (t : MigrateType) :
    Unmoved z (setPageblockMigratetype L z page t) := ⟨rfl, rfl, fun _ => rfl, fun _ => rfl⟩

theorem changePageblockRange_unmoved (L : Layout) (t : MigrateType) (n : Nat) (z : Zone)
    (page : Nat) : Unmoved z (changePageblockRange L t n z page) := by
  induction n generalizing z page with
  | zero => exact .refl z
  | succ n ih => exact (setPageblockMigratetype_unmoved L z page t).trans (ih _ _)

theorem Sound.freeOnePage (h : Sound L z Held) (ho : o < L.maxOrder) (ha : 2 ^ o ∣ p)
    (hheld : ∀ x, InBlock p o x → Held x) :
    Sound L (freeOnePage L z p o t)
      (fun x => Held x ∧ (refuses z p o = false → ¬ InBlock p o x)) := by
  have hdestroy := h.unmoved (destroyCompoundPage_unmoved z p o)
  unfold PageAllocator.freeOnePage refuses
  by_cases hc : pageCompound z p
  · by_cases hbad : (destroyCompoundPage z p o).2
    · simp only [hc, hbad]
      exact hdestroy.congr fun x => by simp
    · simp only [hc, hbad]
      exact (hdestroy.mergeIn ho ha hheld).congr fun x => by simp
  · simp only [hc]
    exact (h.mergeIn ho ha hheld).congr fun x => by simp

theorem Sound.expand (h : Sound L z Held) (hn : low + n < L.maxOrder) (ha : 2 ^ (low + n) ∣ p)
    (hheld : ∀ x, InBlock p (low + n) x → Held x) :
    Sound L (expand p low t n z) (fun x => Held x ∧ (InBlock p (low + n) x → InBlock p low x)) := by
  induction n generalizing z Held with
  | zero => exact h.congr fun x => by simp
  | succ n ih =>
    have hhalves : ∀ x, InBlock p (low + n + 1) x ↔
        InBlock p (low + n) x ∨ InBlock (p + 2 ^ (low + n)) (low + n) x := fun x => inBlock_halves
    have hhalf : 2 ^ (low + n) ∣ p := Nat.dvd_trans (Nat.pow_dvd_pow 2 (by omega)) ha
    -- the lower half is held, so the upper half has no free buddy
    have hput := h.put (p := p + 2 ^ (low + n)) (o := low + n) (t := t) (by omega)
      (Nat.dvd_add hhalf (Nat.dvd_refl _)) (fun x hx => hheld x ((hhalves x).mpr (.inr hx)))
      (fun _ hfree => by
        have hbuddy : buddyOf (p + 2 ^ (low + n)) (low + n) = p := buddyOf_upper ha
        rw [hbuddy] at hfree
        exact h.tiling.apart (hheld p (inBlock_self _ _)) hfree (inBlock_self _ _))
    have hnext := ih hput (by omega) hhalf ?_
    · refine hnext.congr fun x => ?_
      have hx := hhalves x
      have hdis : InBlock p (low + n) x → ¬ InBlock (p + 2 ^ (low + n)) (low + n) x := by
        unfold InBlock
        omega
      have hlow : InBlock p low x → InBlock p (low + n) x := by
        have : 2 ^ low ≤ 2 ^ (low + n) := Nat.pow_le_pow_right (by decide) (by omega)
        unfold InBlock
        omega
      tauto
    · intro x hx
      refine ⟨hheld x ((hhalves x).mpr (.inl hx)), ?_⟩
      unfold InBlock at *
      omega

theorem Sound.split (h : Sound L z Held) (hp : z.Free p o) (hlow : low ≤ o)
    (h' : Sound L z' (fun x => Held x ∨ InBlock p o x)) :
    Sound L (PageAllocator.expand p low t (o - low) z') (fun x => Held x ∨ InBlock p low x) := by
  have hlt := h.tiling.order_lt hp
  have heq : low + (o - low) = o := by omega
  have halign : 2 ^ (low + (o - low)) ∣ p := by rw [heq]; exact h.tiling.aligned hp
  have hexp := h'.expand (t := t) (by omega) halign (fun x hx => .inr (by rwa [heq] at hx))
  refine hexp.congr fun x => ?_
  rw [heq]
  have hsub : InBlock p low x → InBlock p o x := by
    have : 2 ^ low ≤ 2 ^ o := Nat.pow_le_pow_right (by decide) hlow
    unfold InBlock
    omega
  have hap := fun hx => h.tiling.apart (x := x) hx hp
  tauto

theorem smallestBlock_some (h : smallestBlock L z order t = some (o, p)) :
    order ≤ o ∧ p ∈ z.freeList o t := by
  obtain ⟨o', ho', hhead⟩ := exists_of_findSome?_eq_some h
  obtain ⟨p', hp', he⟩ := map_eq_some_iff.mp hhead
  obtain ⟨rfl, rfl⟩ := Prod.mk.inj he
  exact ⟨(mem_range'_1.mp ho').1, mem_of_head? hp'⟩

theorem smallestBlock_none (h : smallestBlock L z order t = none) (ho : order ≤ o)
    (hlt : o < L.maxOrder) : z.freeList o t = [] := by
  have hnone := findSome?_eq_none_iff.mp h o (mem_range'_1.mpr ⟨ho, by omega⟩)
  simpa using hnone

theorem Sound.rmqueueSmallest (h : Sound L z Held)
    (he : rmqueueSmallest L z order t = (some p, z')) :
    Sound L z' (fun x => Held x ∨ InBlock p order x) := by
  unfold PageAllocator.rmqueueSmallest at he
  split at he
  · cases he
  · rename_i o p' hb
    obtain ⟨hle, hmem⟩ := smallestBlock_some hb
    obtain ⟨rfl, rfl⟩ := he
    exact h.split ⟨t, hmem⟩ hle (h.take ⟨t, hmem⟩)

theorem Sound.moveFreepages (h : Sound L z Held) (hstart : L.startPfn ≤ page)
    (hend : endPage < L.startPfn + L.spannedPages) :
    Sound L (moveFreepages t endPage z page).1 Held ∧
      ∀ q n, (moveFreepages t endPage z page).1.Free q n ↔ z.Free q n := by
  fun_induction PageAllocator.moveFreepages t endPage z page with
  | case1 z page hle hb order r ih =>
    have hfree : z.Free page order := h.listed.listed ⟨hstart, by omega⟩ hb
    obtain ⟨t', hmem⟩ := hfree
    have hnext := ih (h.move ⟨t', hmem⟩) (Nat.le_add_right_of_le hstart)
    exact ⟨hnext.1, fun q n => (hnext.2 q n).trans (h.listed.free_relist hmem)⟩
  | case2 z page hle hb ih => exact ih h (by omega)
  | case3 => exact ⟨h, fun _ _ => Iff.rfl⟩

theorem moveFreepages_addNrFree (t : MigrateType) (endPage : Nat) (z : Zone) (page o : Nat)
    (d : Int) : moveFreepages t endPage (addNrFree z o d) page =
      (addNrFree (moveFreepages t endPage z page).1 o d, (moveFreepages t endPage z page).2) := by
  fun_induction PageAllocator.moveFreepages t endPage z page with
  | case1 z page hle hb order r ih =>
    have hb' : ((addNrFree z o d).page page).buddy = true := hb
    rw [moveFreepages, if_pos hle, if_pos hb']
    have hr : moveFreepages t endPage
        (listAdd (listDel (addNrFree z o d) page) page order t) (page + 2 ^ order) =
        (addNrFree r.1 o d, r.2) := ih
    exact congrArg (fun r => (r.1, 2 ^ order + r.2)) hr
  | case2 z page hle hb ih =>
    have hb' : ¬ ((addNrFree z o d).page page).buddy = true := hb
    rw [moveFreepages, if_pos hle, if_neg hb']
    exact ih
  | case3 z page hle => rw [moveFreepages, if_neg hle]

theorem Sound.moveFreepagesBlock (h : Sound L z Held) (hp : L.InZone page) :
    Sound L (moveFreepagesBlock L z page t).1 Held ∧
      ∀ q n, (moveFreepagesBlock L z page t).1.Free q n ↔ z.Free q n := by
  simp only [PageAllocator.moveFreepagesBlock]
  split
  · exact ⟨h, fun _ _ => Iff.rfl⟩
  · refine h.moveFreepages ?_ (by omega)
    split
    · exact hp.1
    · omega

theorem Sound.claimPageblock (h : Sound L z Held) (hp : L.InZone page) :
    Sound L (claimPageblock L z page t) Held ∧
      ∀ q n, (claimPageblock L z page t).Free q n ↔ z.Free q n := by
  have hmove := h.moveFreepagesBlock (t := t) hp
  simp only [PageAllocator.claimPageblock]
  split
  · exact ⟨hmove.1.unmoved (setPageblockMigratetype_unmoved _ _ _ _), hmove.2⟩
  · exact hmove

theorem claimPageblock_addNrFree (L : Layout) (z : Zone) (page : Nat) (t : MigrateType) (o : Nat)
    (d : Int) : claimPageblock L (addNrFree z o d) page t =
      addNrFree (claimPageblock L z page t) o d := by
  have hmove : moveFreepagesBlock L (addNrFree z o d) page t =
      (addNrFree (moveFreepagesBlock L z page t).1 o d, (moveFreepagesBlock L z page t).2) := by
    simp only [moveFreepagesBlock]
    split
    · rfl
    · exact moveFreepages_addNrFree ..
  simp only [claimPageblock, hmove]
  split <;> rfl

theorem fallbackBlock_some (h : fallbackBlock L z order start = some (o, t, p)) :
    order ≤ o ∧ p ∈ z.freeList o t := by
  obtain ⟨slot, hslot, he⟩ := exists_of_findSome?_eq_some h
  split at he
  · cases he
  · obtain ⟨p', hp', he⟩ := map_eq_some_iff.mp he
    obtain ⟨rfl, rfl, rfl⟩ := he
    simp only [fallbackSlots, mem_flatMap, mem_reverse, List.mem_map] at hslot
    obtain ⟨o', ho', t', -, rfl⟩ := hslot
    exact ⟨(mem_range'_1.mp ho').1, mem_of_head? hp'⟩

theorem fallbackBlock_none (h : fallbackBlock L z order start = none) (ho : order ≤ o)
    (hlt : o < L.maxOrder) (ht : t ∈ fallbacks start) (hr : t ≠ .reserve) :
    z.freeList o t = [] := by
  have hslot : (o, t) ∈ fallbackSlots L order start := by
    simp only [fallbackSlots, mem_flatMap, mem_reverse, List.mem_map]
    exact ⟨o, mem_range'_1.mpr ⟨ho, by omega⟩, t, ht, rfl⟩
  have hnone := findSome?_eq_none_iff.mp h (o, t) hslot
  simpa [hr] using hnone

theorem Sound.rmqueueFallback (h : Sound L z Held)
    (he : rmqueueFallback L z order start = (some p, z')) :
    Sound L z' (fun x => Held x ∨ InBlock p order x) := by
  unfold PageAllocator.rmqueueFallback at he
  split at he
  · cases he
  · rename_i o t p' hb
    obtain ⟨hle, hmem⟩ := fallbackBlock_some hb
    simp only [Prod.mk.injEq, some.injEq] at he
    obtain ⟨rfl, rfl⟩ := he
    refine h.split ⟨t, hmem⟩ hle ?_
    -- the zone in which the block is taken from its list
    have htake : Sound L (rmvPageOrder (listDel
          (if (decide (L.pageblockOrder / 2 ≤ o) || decide (start = .reclaimable) ||
            L.mobilityDisabled) = true then
              PageAllocator.claimPageblock L (addNrFree z o (-1)) p' start
          else addNrFree z o (-1)) p') p') (fun x => Held x ∨ InBlock p' o x) := by
      split
      · have hclaim := h.claimPageblock (t := start) (h.listed.flagged hmem).1
        rw [claimPageblock_addNrFree]
        exact hclaim.1.take ((hclaim.2 _ _).mpr ⟨t, hmem⟩)
      · exact h.take ⟨t, hmem⟩
    split
    · exact htake.unmoved (changePageblockRange_unmoved ..)
    · exact htake

theorem rmqueueSmallest_none (h : rmqueueSmallest L z order t = (none, z')) :
    z' = z ∧ smallestBlock L z order t = none := by
  unfold rmqueueSmallest at h
  split at h
  · rename_i hb
    exact ⟨(Prod.mk.inj h).2.symm, hb⟩
  · cases (Prod.mk.inj h).1

theorem rmqueueFallback_none (h : rmqueueFallback L z order start = (none, z')) :
    z' = z ∧ fallbackBlock L z order start = none := by
  unfold rmqueueFallback at h
  split at h
  · rename_i hb
    exact ⟨(Prod.mk.inj h).2.symm, hb⟩
  · cases (Prod.mk.inj h).1

theorem Sound.rmqueue (h : Sound L z Held) (he : rmqueue L z order t = (some p, z')) :
    Sound L z' (fun x => Held x ∨ InBlock p order x) := by
  unfold PageAllocator.rmqueue at he
  split at he
  · rename_i hs
    rw [he] at hs
    exact h.rmqueueSmallest hs
  · rename_i z₁ hs
    obtain ⟨rfl, -⟩ := rmqueueSmallest_none hs
    split at he
    · cases (Prod.mk.inj he).1
    split at he
    · rename_i hf
      rw [he] at hf
      exact h.rmqueueFallback hf
    · rename_i z₂ hf
      obtain ⟨rfl, -⟩ := rmqueueFallback_none hf
      exact h.rmqueueSmallest he

theorem rmqueue_none (h : rmqueue L z order t = (none, z')) (hr : t ≠ .reserve) :
    z' = z ∧ ∀ o t', order ≤ o → o < L.maxOrder →
      (t' = t ∨ t' ∈ fallbacks t ∨ t' = .reserve) → z.freeList o t' = [] := by
  unfold rmqueue at h
  split at h
  · cases (Prod.mk.inj h).1
  · rename_i z₁ hs
    obtain ⟨rfl, hown⟩ := rmqueueSmallest_none hs
    rw [if_neg hr] at h
    split at h
    · cases (Prod.mk.inj h).1
    · rename_i z₂ hf
      obtain ⟨rfl, hfall⟩ := rmqueueFallback_none hf
      obtain ⟨rfl, hreserve⟩ := rmqueueSmallest_none h
      refine ⟨rfl, fun o t' ho hlt ht => ?_⟩
      by_cases hres : t' = .reserve
      · subst hres
        exact smallestBlock_none hreserve ho hlt
      · rcases ht with rfl | ht | ht
        · exact smallestBlock_none hown ho hlt
        · exact fallbackBlock_none hfall ho hlt ht hres
        · exact absurd ht hres

/-- What is done to a zone: the two functions, and what the owner of pages may do with them. -/
inductive ZoneOp where
  | rmqueue (order : Nat) (migratetype : MigrateType)
  | freeOnePage (page order : Nat) (migratetype : MigrateType)
  | setPrivate (page value : Nat)
  | prepCompoundPage (page order : Nat)

structure Pool where
  zone : Zone
  Held : Nat → Prop

def Pool.step (L : Layout) (s : Pool) : ZoneOp → Option Pool
  | .rmqueue order t =>
    match PageAllocator.rmqueue L s.zone order t with
    | (some p, z) => some ⟨z, fun x => s.Held x ∨ InBlock p order x⟩
    | (none, z) => some ⟨z, s.Held⟩
  | .freeOnePage page order t =>
    some ⟨PageAllocator.freeOnePage L s.zone page order t,
      fun x => s.Held x ∧ (refuses s.zone page order = false → ¬ InBlock page order x)⟩
  | .setPrivate page value =>
    some ⟨s.zone.setPage page fun q => { q with priv := value }, s.Held⟩
  | .prepCompoundPage page order =>
    some ⟨PageAllocator.prepCompoundPage s.zone page order, s.Held⟩

/-- Requests are not for the reserve, and only allocated memory is freed or used. -/
def Allowed (L : Layout) (s : Pool) : ZoneOp → Prop
  | .rmqueue _ t => t ≠ .reserve
  | .freeOnePage page order _ =>
    order < L.maxOrder ∧ 2 ^ order ∣ page ∧ ∀ x, InBlock page order x → s.Held x
  | .setPrivate page _ => s.Held page
  | .prepCompoundPage page order => ∀ x, InBlock page order x → s.Held x

theorem Sound.setPrivate (h : Sound L z Held) (hp : Held p) :
    Sound L (z.setPage p fun q => { q with priv := v }) Held := by
  have hb := h.held_not_buddy hp
  refine h.frame rfl rfl fun q => ?_
  by_cases hq : q = p
  · subst hq
    simp [hb]
  · simp [Zone.setPage, hq]

theorem Sound.step (h : Sound L s.zone s.Held) (ha : Allowed L s op)
    (he : Pool.step L s op = some s') : Sound L s'.zone s'.Held := by
  cases op with
  | rmqueue order t =>
    simp only [Pool.step] at he
    split at he <;> rename_i hr <;> obtain rfl := some.inj he
    · exact h.rmqueue hr
    · obtain ⟨rfl, -⟩ := rmqueue_none hr ha
      exact h
  | freeOnePage page order t =>
    obtain rfl := some.inj he
    exact h.freeOnePage ha.1 ha.2.1 ha.2.2
  | setPrivate page value =>
    obtain rfl := some.inj he
    exact h.setPrivate ha
  | prepCompoundPage page order =>
    obtain rfl := some.inj he
    exact h.unmoved (prepCompoundPage_unmoved ..)

/-- A zone before its memory is handed to the allocator: all of it counts as allocated. -/
structure Booted (L : Layout) (z : Zone) : Prop where
  lists : ∀ o t, z.freeList o t = []
  counts : ∀ o, z.nrFree o = 0
  flags : ∀ p, L.InZone p → (z.page p).buddy = false

theorem Booted.sound (h : Booted L z) : Sound L z L.InZone := by
  have hnone : ∀ p o, ¬ z.Free p o := by
    rintro p o ⟨t, hp⟩
    simp [h.lists] at hp
  refine ⟨⟨fun o t => ?_, fun hp => ?_, fun hp => ?_, fun hin hb => ?_, fun o => ?_⟩,
    ⟨fun hp => ?_, fun hp => ?_, fun hp => ?_, fun hp => ?_, ?_, fun _ hp => ?_⟩⟩
  · simp [h.lists]
  · exact absurd ⟨_, hp⟩ (hnone _ _)
  · exact absurd ⟨_, hp⟩ (hnone _ _)
  · simp [h.flags _ hin] at hb
  · simp [h.counts, Zone.listed, h.lists]
  · exact absurd hp (hnone _ _)
  · exact absurd hp (hnone _ _)
  · exact absurd hp (hnone _ _)
  · exact absurd hp (hnone _ _)
  · simp [hnone]
  · exact absurd hp (hnone _ _)

/-- Free blocks are aligned and disjoint, flags and stored orders mark exactly their heads, counts
are right, no two buddies are both free, and allocated and free pages partition the zone. -/
structure BuddySystem (L : Layout) (s : Pool) : Prop where
  aligned : ∀ p o t, p ∈ s.zone.freeList o t → 2 ^ o ∣ p
  once : ∀ o t, (s.zone.freeList o t).Nodup
  disjoint : ∀ p o t q n t', p ∈ s.zone.freeList o t → q ∈ s.zone.freeList n t' →
    (p, o, t) ≠ (q, n, t') → ∀ x, InBlock p o x → ¬ InBlock q n x
  marked : ∀ p o, L.InZone p →
    ((s.zone.page p).buddy = true ∧ (s.zone.page p).priv = o ↔ ∃ t, p ∈ s.zone.freeList o t)
  counted : ∀ o, s.zone.nrFree o =
    ((MigrateType.all.map fun t => (s.zone.freeList o t).length).sum : Nat)
  unpaired : ∀ p o t t', o < L.maxOrder - 1 → p ∈ s.zone.freeList o t →
    p ^^^ 1 <<< o ∉ s.zone.freeList o t'
  covered : ∀ x, L.InZone x ↔ s.Held x ∨ ∃ p o t, p ∈ s.zone.freeList o t ∧ InBlock p o x
  apart : ∀ x p o t, s.Held x → p ∈ s.zone.freeList o t → ¬ InBlock p o x

theorem Sound.buddySystem (h : Sound L s.zone s.Held) : BuddySystem L s where
  aligned _ _ t hp := h.tiling.aligned ⟨t, hp⟩
  once := h.listed.nodup
  disjoint p o t q n t' hp hq hne x hxp hxq := by
    obtain ⟨rfl, rfl⟩ := h.tiling.disjoint ⟨t, hp⟩ ⟨t', hq⟩ hxp hxq
    exact hne (by rw [h.listed.kind hp hq])
  marked p o hin := by
    have hfree := h.listed.free_iff (p := p) (o := o)
    simp only [hin, true_and] at hfree
    exact hfree.symm
  counted := h.listed.counted
  unpaired p o t t' ho hp hb := by
    rw [xor_two_pow (h.tiling.aligned ⟨t, hp⟩)] at hb
    exact h.tiling.unpaired ⟨t, hp⟩ (by omega) ⟨t', hb⟩
  covered x := by
    rw [h.tiling.space]
    simp [Zone.Free]
  apart _ _ _ t hx hp := h.tiling.apart hx ⟨t, hp⟩

theorem Sound.fails (h : Sound L z Held) (hr : t ≠ .reserve)
    (hn : (PageAllocator.rmqueue L z order t).1 = none) (ho : order ≤ o)
    (ht : t' = t ∨ t' ∈ fallbacks t ∨ t' = .reserve) : z.freeList o t' = [] := by
  have he : PageAllocator.rmqueue L z order t = (none, (PageAllocator.rmqueue L z order t).2) :=
    Prod.ext hn rfl
  by_cases hlt : o < L.maxOrder
  · exact (rmqueue_none he hr).2 o t' ho hlt ht
  · refine eq_nil_iff_forall_not_mem.mpr fun p hp => hlt ?_
    exact h.tiling.order_lt ⟨t', hp⟩

/-- In every run the buddy system is in order, and a request for one of the three mobility types
fails only if nothing sufficient is on any list but the isolated ones. -/
theorem buddy_system_run (L : Layout) (z : Zone) (hz : Booted L z) (ops : List ZoneOp) (s : Pool)
    (hrun : Run (Allowed L) (Pool.step L) ⟨z, L.InZone⟩ ops s) :
    BuddySystem L s ∧
    (∀ order t, t = .unmovable ∨ t = .reclaimable ∨ t = .movable →
      (rmqueue L s.zone order t).1 = none →
      ∀ o t', order ≤ o → t' ≠ .isolate → s.zone.freeList o t' = []) ∧
    (∀ order, (rmqueue L s.zone order .isolate).1 = none →
      ∀ o t', order ≤ o → t' = .isolate ∨ t' = .unmovable ∨ t' = .reserve →
        s.zone.freeList o t' = []) := by
  have hs := hrun.invariant (fun {s _ _} (h : Sound L s.zone s.Held) ha he => h.step ha he) hz.sound
  refine ⟨hs.buddySystem, fun order t ht hn o t' ho hiso => ?_, fun order hn o t' ho ht => ?_⟩
  · refine hs.fails ?_ hn ho ?_
    · rcases ht with rfl | rfl | rfl <;> decide
    · rcases ht with rfl | rfl | rfl <;> cases t' <;> simp_all [fallbacks]
  · refine hs.fails (by decide) hn ho ?_
    rcases ht with rfl | rfl | rfl <;> simp [fallbacks]

theorem rmqueue_free (h : (rmqueue L z order t).1 = some p) : ∃ o, order ≤ o ∧ z.Free p o := by
  have hsmall {o t} (hb : smallestBlock L z order t = some (o, p)) : ∃ o, order ≤ o ∧ z.Free p o :=
    ⟨o, (smallestBlock_some hb).imp_right (⟨t, ·⟩)⟩
  unfold rmqueue rmqueueSmallest rmqueueFallback at h
  cases hs : smallestBlock L z order t with
  | some b =>
    obtain rfl : b.2 = p := by simpa [hs] using h
    exact hsmall hs
  | none =>
    have hr : t ≠ .reserve := by
      rintro rfl
      simp [hs] at h
    cases hf : fallbackBlock L z order t with
    | some b =>
      obtain rfl : b.2.2 = p := by simpa [hs, hf, hr] using h
      exact ⟨b.1, (fallbackBlock_some hf).imp_right (⟨b.2.1, ·⟩)⟩
    | none =>
      cases hl : smallestBlock L z order .reserve with
      | none => simp [hs, hf, hr, hl] at h
      | some b =>
        obtain rfl : b.2 = p := by simpa [hs, hf, hr, hl] using h
        exact hsmall hl

/-- An aligned block of pages of the zone that nobody has. -/
def Pool.Unused (L : Layout) (s : Pool) (p order : Nat) : Prop :=
  2 ^ order ∣ p ∧ ∀ x, InBlock p order x → L.InZone x ∧ ¬ s.Held x

/-- A request gets an unused block, if there is one outside of the isolated ones. -/
theorem rmqueue_exact {s : Pool} (hz : Booted L z)
    (hrun : Run (Allowed L) (Pool.step L) ⟨z, L.InZone⟩ ops s) (order : Nat) (t : MigrateType) :
    (∀ p, (rmqueue L s.zone order t).1 = some p → s.Unused L p order) ∧
    (t = .unmovable ∨ t = .reclaimable ∨ t = .movable → order < L.maxOrder →
      (∃ p, s.Unused L p order ∧ ∀ q n, q ∈ s.zone.freeList n .isolate → ¬ InBlock q n p) →
      (rmqueue L s.zone order t).1 ≠ none) := by
  have hs := hrun.invariant (fun {s _ _} (h : Sound L s.zone s.Held) ha he => h.step ha he) hz.sound
  constructor
  · intro p hp
    obtain ⟨o, hle, hfree⟩ := rmqueue_free hp
    have hpow : 2 ^ order ≤ 2 ^ o := Nat.pow_le_pow_right Nat.two_pos hle
    refine ⟨Nat.dvd_trans (Nat.pow_dvd_pow 2 hle) (hs.tiling.aligned hfree), fun x hx => ?_⟩
    have hin : InBlock p o x := ⟨hx.1, Nat.lt_of_lt_of_le hx.2 (Nat.add_le_add_left hpow p)⟩
    exact ⟨hs.tiling.space.mpr (.inr ⟨p, o, hfree, hin⟩), fun hh => hs.tiling.apart hh hfree hin⟩
  · rintro ht ho ⟨p, ⟨hp, hin⟩, hiso⟩ hn
    obtain ⟨q, n, ⟨t', hq⟩, hle, hx⟩ := hs.tiling.contained ho hp hin
    have hnil : s.zone.freeList n t' = [] := by
      refine hs.fails ?_ hn hle ?_
      · rcases ht with rfl | rfl | rfl <;> decide
      · rcases ht with rfl | rfl | rfl <;> cases t' <;> simp_all [fallbacks]
    simp [hnil] at hq

def sampleLayout : Layout := ⟨11, 10, 0, 1024, false⟩

def bootZone : Zone :=
  ⟨fun _ => ⟨false, 0, false, false, 0, 0⟩, fun _ _ => [], fun _ => 0, fun _ => .movable⟩

theorem bootZone_booted (L : Layout) : Booted L bootZone :=
  ⟨fun _ _ => rfl, fun _ => rfl, fun _ _ => rfl⟩

def onePageFree : Pool :=
  ⟨freeOnePage sampleLayout bootZone 0 0 .movable,
    fun x => sampleLayout.InZone x ∧ (refuses bootZone 0 0 = false → ¬ InBlock 0 0 x)⟩

theorem onePageFree_run :
    Run (Allowed sampleLayout) (Pool.step sampleLayout) ⟨bootZone, sampleLayout.InZone⟩
      [.freeOnePage 0 0 .movable] onePageFree := by
  refine .cons ⟨by decide, by decide, fun x hx => ?_⟩ rfl (.nil _)
  have hlt : x < 0 + 2 ^ 0 := hx.2
  exact ⟨Nat.zero_le x, Nat.lt_of_lt_of_le hlt (by decide)⟩

/-- Four pages are freed, one is taken of them and one is stolen, and the first is freed again. -/
def sampleOps : List ZoneOp :=
  [.freeOnePage 0 2 .movable, .rmqueue 0 .movable, .rmqueue 0 .unmovable, .freeOnePage 0 0 .movable]

def samplePool : Option Pool :=
  sampleOps.foldlM (Pool.step sampleLayout) ⟨bootZone, sampleLayout.InZone⟩

theorem samplePool_run : ∃ s, samplePool = some s ∧
    Run (Allowed sampleLayout) (Pool.step sampleLayout) ⟨bootZone, sampleLayout.InZone⟩
      sampleOps s := by
  refine ⟨_, rfl, .cons ⟨by decide, by decide, fun x hx => ?_⟩ rfl (.cons MigrateType.noConfusion
    rfl (.cons MigrateType.noConfusion rfl
      (.cons ⟨by decide, by decide, fun x hx => ?_⟩ rfl (.nil _))))⟩
  · have hlt : x < 0 + 2 ^ 2 := hx.2
    exact ⟨Nat.zero_le x, Nat.lt_of_lt_of_le hlt (by decide)⟩
  · exact .inl (.inr hx)

theorem samplePool_lists (hs : samplePool = some s) :
    s.zone.freeList 0 .movable = [3] ∧ s.zone.freeList 1 .movable = [0] := by
  have hlists : samplePool.map (fun s => (s.zone.freeList 0 .movable, s.zone.freeList 1 .movable)) =
    some ([3], [0]) := by decide +kernel
  rw [hs] at hlists
  exact Prod.mk.inj (some.inj hlists)

/-- The first page has been merged with its buddy. -/
theorem buddy_system_run_merged : ∃ s, samplePool = some s ∧ BuddySystem sampleLayout s ∧
    s.zone.freeList 0 .movable = [3] ∧ s.zone.freeList 1 .movable = [0] := by
  obtain ⟨s, hs, hrun⟩ := samplePool_run
  exact ⟨s, hs, (buddy_system_run sampleLayout bootZone (bootZone_booted _) _ _ hrun).1,
    samplePool_lists hs⟩

theorem rmqueue_exact_merged : ∃ s, samplePool = some s ∧ s.Unused sampleLayout 0 1 ∧
    (rmqueue sampleLayout s.zone 1 .unmovable).1 ≠ none := by
  obtain ⟨s, hs, hrun⟩ := samplePool_run
  have hget : samplePool.map (fun s => (rmqueue sampleLayout s.zone 1 .reclaimable).1) =
    some (some 0) := by decide +kernel
  rw [hs] at hget
  have hunused := (rmqueue_exact (bootZone_booted _) hrun 1 .reclaimable).1 0 (some.inj hget)
  refine ⟨s, hs, hunused, (rmqueue_exact (bootZone_booted _) hrun 1 .unmovable).2 (.inl rfl)
    (by decide) ⟨0, hunused, fun q n hq hin => ?_⟩⟩
  have hsound := hrun.invariant (fun {s _ _} (h : Sound sampleLayout s.zone s.Held) ha he =>
    h.step ha he) (bootZone_booted _).sound
  exact hsound.buddySystem.disjoint 0 1 .movable q n .isolate (by simp [samplePool_lists hs]) hq
    (by simp) 0 ⟨Nat.le_refl 0, by decide⟩ hin

/-- A request for the isolated type fails although a movable page is free. -/
theorem rmqueue_isolate_fails :
    Run (Allowed sampleLayout) (Pool.step sampleLayout) ⟨bootZone, sampleLayout.InZone⟩
      [.freeOnePage 0 0 .movable] onePageFree ∧
    MigrateType.isolate ≠ .reserve ∧
    (rmqueue sampleLayout onePageFree.zone 0 .isolate).1 = none ∧
    onePageFree.zone.freeList 0 .movable = [0] :=
  ⟨onePageFree_run, by decide, by decide +kernel, by decide +kernel⟩

end SpicaKernel.PageAllocator
