import SpicaKernel.AshmemRanges

namespace SpicaKernel.Ashmem
open Function List
set_option autoImplicit true

def State.area (s : State) (a : AreaId) : List AshmemRange := (s.unpinnedList a).map s.ranges

theorem notMem_of_nodup_append (h : (pre ++ r :: post : List RangeId).Nodup) :
    r ∉ pre ∧ r ∉ post := by
  rw [nodup_append, nodup_cons] at h
  exact ⟨fun hm => h.2.2 r hm r (by simp) rfl, h.2.1.1⟩

theorem Linked.notMem_other (h : Linked s) (hr : r ∈ s.unpinnedList a) (hb : b ≠ a) :
    r ∉ s.unpinnedList b := by
  intro hm
  exact hb ((h.owner hm).symm.trans (h.owner hr))

theorem Linked.rangeDel_split (h : Linked s) (hl : s.unpinnedList a = pre ++ r :: post) :
    (Ashmem.rangeDel s r).unpinnedList a = pre ++ post := by
  have hm : r ∈ s.unpinnedList a := by simp [hl]
  have hn := h.nodup a
  rw [hl] at hn
  rw [rangeDel_self (h.owner hm), hl, erase_append_right _ (notMem_of_nodup_append hn).1,
    erase_cons_head]

theorem Linked.rangeDel_area (h : Linked s) (hr : r ∈ s.unpinnedList a) (hb : b ≠ a) :
    (Ashmem.rangeDel s r).area b = s.area b := by
  rw [State.area, State.area, rangeDel_ranges, rangeDel_other (h.owner hr) hb]

theorem Linked.rangeShrink_area (h : Linked s) (hr : r ∈ s.unpinnedList a) (hb : b ≠ a)
    (start stop : UInt32) : (Ashmem.rangeShrink s r start stop).area b = s.area b := by
  rw [State.area, State.area, rangeShrink_unpinnedList, rangeShrink_ranges,
    map_update_of_notMem _ _ (h.notMem_other hr hb)]

theorem Linked.rangeAlloc_area {prev : Option RangeId} (h : Linked s) (hb : b ≠ a) :
    (Ashmem.rangeAlloc s zalloc a prev purged start stop).2.area b = s.area b := by
  cases zalloc with
  | false => rfl
  | true =>
    rw [State.area, State.area, rangeAlloc_unpinnedList, rangeAlloc_ranges,
      update_of_ne hb, map_update_of_notMem]
    intro hm
    exact h.fresh_ne hm rfl

theorem Linked.rangeShrink_map (h : Linked s) (hl : s.unpinnedList a = pre ++ r :: post)
    (start stop : UInt32) :
    (pre ++ [r]).map (Ashmem.rangeShrink s r start stop).ranges =
        pre.map s.ranges ++ [{ s.ranges r with pgstart := start, pgend := stop }] ∧
      post.map (Ashmem.rangeShrink s r start stop).ranges = post.map s.ranges := by
  have hn := h.nodup a
  rw [hl] at hn
  obtain ⟨hpre, hpost⟩ := notMem_of_nodup_append hn
  rw [rangeShrink_ranges, map_append, map_update_of_notMem _ _ hpre, map_update_of_notMem _ _ hpost]
  simp

theorem Linked.punch (h : Linked s) (hl : s.unpinnedList a = pre ++ r :: post) (p q : UInt32) :
    (Ashmem.rangeShrink (Ashmem.rangeAlloc s zalloc a (some r) (s.ranges r).purged (q + 1)
        (s.ranges r).pgend).2 r (s.ranges r).pgstart (p - 1)).area a =
      pre.map s.ranges ++ (if zalloc then [{ s.ranges r with pgstart := q + 1 }] else []) ++
        { s.ranges r with pgend := p - 1 } :: post.map s.ranges := by
  have hm : r ∈ s.unpinnedList a := by simp [hl]
  have ho := h.owner hm
  cases zalloc with
  | false =>
    obtain ⟨hpre, hpost⟩ := h.rangeShrink_map hl (s.ranges r).pgstart (p - 1)
    rw [rangeAlloc_fail, State.area, rangeShrink_unpinnedList, hl, append_cons,
      map_append, hpre, hpost]
    simp
  | true =>
    have h' := h.rangeAlloc true a (some r) (s.ranges r).purged (q + 1) (s.ranges r).pgend
    have hn := h.nodup a
    rw [hl] at hn
    have hl' : (Ashmem.rangeAlloc s true a (some r) (s.ranges r).purged (q + 1)
        (s.ranges r).pgend).2.unpinnedList a = (pre ++ [s.nextRange]) ++ r :: post := by
      rw [rangeAlloc_unpinnedList, hl, listAddTail_before _ _ (notMem_of_nodup_append hn).1]
      simp
    obtain ⟨hpre, hpost⟩ := h'.rangeShrink_map hl' (s.ranges r).pgstart (p - 1)
    have hf : s.nextRange ∉ pre ++ r :: post := by
      rw [← hl]
      exact fun hm => h.fresh_ne hm rfl
    simp only [mem_append, mem_cons, not_or] at hf
    rw [State.area, rangeShrink_unpinnedList, hl', append_cons, map_append, hpre, hpost,
      rangeAlloc_ranges, update_of_ne (Ne.symm hf.2.1), map_append,
      map_update_of_notMem _ _ hf.1, map_update_of_notMem _ _ hf.2.2]
    simp [← ho]

theorem Linked.pinLoop (h : Linked s) (hl : s.unpinnedList a = pre ++ rest) (ret : Purged) :
    Linked (ashmemPinLoop zalloc a p q rest ret s).2 ∧
    (ashmemPinLoop zalloc a p q rest ret s).2.area a =
      pre.map s.ranges ++ pinRanges zalloc p q (rest.map s.ranges) ∧
    (ashmemPinLoop zalloc a p q rest ret s).1 = pinPurged p q (rest.map s.ranges) ret ∧
    ∀ b, b ≠ a → (ashmemPinLoop zalloc a p q rest ret s).2.area b = s.area b := by
  induction rest generalizing s pre ret with
  | nil =>
    refine ⟨h, ?_, rfl, fun _ _ => rfl⟩
    simp [ashmemPinLoop, pinRanges, State.area, hl]
  | cons r rest ih =>
    have hm : r ∈ s.unpinnedList a := by simp [hl]
    have hl₁ : s.unpinnedList a = (pre ++ [r]) ++ rest := by simp [hl]
    simp only [ashmemPinLoop, map_cons, pinRanges, pinPurged]
    by_cases h₁ : rangeBeforePage (s.ranges r) p
    · simp only [if_pos h₁]
      refine ⟨h, ?_, trivial, fun _ _ => trivial⟩
      simp [State.area, hl]
    by_cases h₂ : pageRangeInRange (s.ranges r) p q
    swap
    · simp only [if_neg h₁, if_neg h₂]
      simpa using ih h hl₁ ret
    by_cases h₃ : pageRangeSubsumesRange (s.ranges r) p q
    · have h₄ : (s.ranges r).pgstart ≥ p ∨ (s.ranges r).pgend ≤ q := .inl h₃.1
      simp only [if_neg h₁, if_pos h₂, if_pos h₃, if_pos h₄]
      have hi := ih (h.rangeDel hm) (h.rangeDel_split hl) (ret.or (s.ranges r).purged)
      rw [rangeDel_ranges] at hi
      exact ⟨hi.1, hi.2.1, hi.2.2.1, fun b hb => (hi.2.2.2 b hb).trans (h.rangeDel_area hm hb)⟩
    have hshrink (start stop : UInt32) : (Ashmem.rangeShrink s r start stop).unpinnedList a =
        (pre ++ [r]) ++ rest := (rangeShrink_unpinnedList ..).symm ▸ hl₁
    by_cases h₅ : (s.ranges r).pgstart ≥ p
    · have h₄ : (s.ranges r).pgstart ≥ p ∨ (s.ranges r).pgend ≤ q := .inl h₅
      simp only [if_neg h₁, if_pos h₂, if_neg h₃, if_pos h₅, if_pos h₄]
      have hi := ih (h.rangeShrink hm (q + 1) (s.ranges r).pgend) (hshrink _ _)
        (ret.or (s.ranges r).purged)
      obtain ⟨hpre, hpost⟩ := h.rangeShrink_map hl (q + 1) (s.ranges r).pgend
      rw [hpre, hpost] at hi
      refine ⟨hi.1, ?_, hi.2.2.1, fun b hb => (hi.2.2.2 b hb).trans (h.rangeShrink_area hm hb _ _)⟩
      rw [hi.2.1]
      simp
    by_cases h₆ : (s.ranges r).pgend ≤ q
    · have h₄ : (s.ranges r).pgstart ≥ p ∨ (s.ranges r).pgend ≤ q := .inr h₆
      simp only [if_neg h₁, if_pos h₂, if_neg h₃, if_neg h₅, if_pos h₆, if_pos h₄]
      have hi := ih (h.rangeShrink hm (s.ranges r).pgstart (p - 1)) (hshrink _ _)
        (ret.or (s.ranges r).purged)
      obtain ⟨hpre, hpost⟩ := h.rangeShrink_map hl (s.ranges r).pgstart (p - 1)
      rw [hpre, hpost] at hi
      refine ⟨hi.1, ?_, hi.2.2.1, fun b hb => (hi.2.2.2 b hb).trans (h.rangeShrink_area hm hb _ _)⟩
      rw [hi.2.1]
      simp
    have h₄ : ¬ ((s.ranges r).pgstart ≥ p ∨ (s.ranges r).pgend ≤ q) := not_or.2 ⟨h₅, h₆⟩
    have ha := h.rangeAlloc zalloc a (some r) (s.ranges r).purged (q + 1) (s.ranges r).pgend
    have hm' : r ∈ (Ashmem.rangeAlloc s zalloc a (some r) (s.ranges r).purged (q + 1)
        (s.ranges r).pgend).2.unpinnedList a := by
      cases zalloc with
      | false => exact hm
      | true => exact (mem_rangeAlloc ..).2 (.inr hm)
    simp only [if_neg h₁, if_pos h₂, if_neg h₃, if_neg h₅, if_neg h₆, if_neg h₄]
    refine ⟨ha.rangeShrink hm' _ _, ?_, trivial, ?_⟩
    · rw [h.punch hl]
      cases zalloc <;> simp
    · intro b hb
      exact (ha.rangeShrink_area hm' hb _ _).trans (h.rangeAlloc_area hb)

/-- The scan goes past some ranges to the one that decides. -/
theorem unpinScan_spec (f : RangeId → AshmemRange) (p q : UInt32) (l : List RangeId) :
    ∃ pre post, l = pre ++ post ∧ (∀ r ∈ pre.map f, Passed p q r) ∧
      ((unpinScan f p q l = .insert post.head? ∧
          ∀ r ∈ (post.map f).head?, rangeBeforePage r p) ∨
        ∃ r post', post = r :: post' ∧ ((unpinScan f p q l = .subsumed ∧
            pageRangeSubsumedByRange (f r) p q) ∨
          (unpinScan f p q l = .merge r ∧ ¬ pageRangeSubsumedByRange (f r) p q ∧
            pageRangeInRange (f r) p q))) := by
  induction l with
  | nil => exact ⟨[], [], rfl, by simp, .inl ⟨rfl, by simp⟩⟩
  | cons r l ih =>
    simp only [unpinScan]
    split_ifs with h₁ h₂ h₃
    · exact ⟨[], r :: l, rfl, by simp, .inl ⟨rfl, by simpa using h₁⟩⟩
    · exact ⟨[], r :: l, rfl, by simp, .inr ⟨r, l, rfl, .inl ⟨rfl, h₂⟩⟩⟩
    · exact ⟨[], r :: l, rfl, by simp, .inr ⟨r, l, rfl, .inr ⟨rfl, h₂, h₃⟩⟩⟩
    · obtain ⟨pre, post, rfl, hpre, hstop⟩ := ih
      refine ⟨r :: pre, post, rfl, ?_, hstop⟩
      rw [map_cons, forall_mem_cons]
      exact ⟨⟨h₁, h₂, h₃⟩, hpre⟩

theorem Linked.rangeAlloc_split (h : Linked s) (hl : s.unpinnedList a = pre ++ post) :
    (Ashmem.rangeAlloc s zalloc a post.head? purged p q).2.area a =
      pre.map s.ranges ++
        ((if zalloc then [⟨a, p, q, purged⟩] else []) ++ post.map s.ranges) := by
  cases zalloc with
  | false => simp [rangeAlloc_fail, State.area, hl]
  | true =>
    have hf : s.nextRange ∉ pre ++ post := by
      rw [← hl]
      exact fun hm => h.fresh_ne hm rfl
    simp only [mem_append, not_or] at hf
    have hadd : listAddTail s.nextRange post.head? (pre ++ post) = pre ++ s.nextRange :: post := by
      cases post with
      | nil => simp [listAddTail]
      | cons r post =>
        have hn := h.nodup a
        rw [hl] at hn
        exact listAddTail_before _ _ (notMem_of_nodup_append hn).1
    rw [State.area, rangeAlloc_unpinnedList, update_self, hl, hadd, rangeAlloc_ranges,
      map_append, map_cons, map_update_of_notMem _ _ hf.1,
      map_update_of_notMem _ _ hf.2]
    simp

theorem Linked.unpinLoop (h : Linked s) (hf : (s.unpinnedList a).length < fuel)
    (purged : Purged) :
    ∃ res, ashmemUnpinLoop zalloc a fuel p q purged s = some res ∧ Linked res.2 ∧
      Unpins zalloc a p q purged (s.area a) (res.2.area a) ∧
      ∀ b, b ≠ a → res.2.area b = s.area b := by
  induction fuel generalizing s p q purged with
  | zero => omega
  | succ fuel ih =>
    obtain ⟨pre, post, hl, hpre, hstop⟩ := unpinScan_spec s.ranges p q (s.unpinnedList a)
    have harea : s.area a = pre.map s.ranges ++ post.map s.ranges := by
      rw [State.area, hl, map_append]
    rw [ashmemUnpinLoop, harea]
    rcases hstop with ⟨he, hpost⟩ | ⟨r, post, rfl, ⟨he, hsub⟩ | ⟨he, hsub, hin⟩⟩
    · rw [he]
      refine ⟨_, rfl, h.rangeAlloc _ _ _ _ _ _, ?_, fun b hb => h.rangeAlloc_area hb⟩
      rw [h.rangeAlloc_split hl]
      exact .insert hpre hpost
    · rw [he]
      refine ⟨_, rfl, h, ?_, fun b hb => rfl⟩
      rw [harea]
      exact .subsumed (by simp) hsub
    · rw [he]
      have hm : r ∈ s.unpinnedList a := by simp [hl]
      have hl' := h.rangeDel_split hl
      have hf' : ((Ashmem.rangeDel s r).unpinnedList a).length < fuel := by
        rw [hl] at hf
        rw [hl']
        simp only [length_append, length_cons] at hf ⊢
        omega
      obtain ⟨res, hres, hlk, hun, hot⟩ := ih (p := minT (s.ranges r).pgstart p)
        (q := maxT (s.ranges r).pgend q) (h.rangeDel hm) hf' (purged.or (s.ranges r).purged)
      refine ⟨res, hres, hlk, ?_, fun b hb => (hot b hb).trans (h.rangeDel_area hm hb)⟩
      rw [State.area, rangeDel_ranges, hl', map_append] at hun
      exact .merge hpre hsub hin hun

structure SameIntervals (s s' : State) : Prop where
  unpinnedList : s'.unpinnedList = s.unpinnedList
  asma : ∀ r, (s'.ranges r).asma = (s.ranges r).asma
  pgstart : ∀ r, (s'.ranges r).pgstart = (s.ranges r).pgstart
  pgend : ∀ r, (s'.ranges r).pgend = (s.ranges r).pgend
  purged : ∀ r, (s.ranges r).purged = .wasPurged → (s'.ranges r).purged = .wasPurged

theorem SameIntervals.refl (s : State) : SameIntervals s s :=
  ⟨rfl, fun _ => rfl, fun _ => rfl, fun _ => rfl, fun _ h => h⟩

theorem SameIntervals.trans (h : SameIntervals s s') (h' : SameIntervals s' s'') :
    SameIntervals s s'' where
  unpinnedList := h'.unpinnedList.trans h.unpinnedList
  asma r := (h'.asma r).trans (h.asma r)
  pgstart r := (h'.pgstart r).trans (h.pgstart r)
  pgend r := (h'.pgend r).trans (h.pgend r)
  purged r hr := h'.purged r (h.purged r hr)

theorem sameIntervals_purge (s : State) (r : RangeId) :
    SameIntervals s (lruDel (setPurged s r) r) := by
  refine ⟨rfl, fun x => ?_, fun x => ?_, fun x => ?_, fun x hx => ?_⟩ <;>
    by_cases he : x = r <;> simp_all [lruDel, setPurged]

theorem SameIntervals.descending (h : SameIntervals s s') (hd : Descending empty (s.area a)) :
    Descending empty (s'.area a) := by
  constructor
  · intro r hr
    obtain ⟨x, hx, he⟩ := List.mem_map.1 hr
    subst r
    rw [h.unpinnedList] at hx
    rw [h.pgstart, h.pgend]
    exact hd.spans _ (List.mem_map_of_mem hx)
  · have hb := hd.below
    rw [State.area, pairwise_map] at hb ⊢
    simpa only [h.unpinnedList, h.pgstart, h.pgend] using hb

theorem Linked.shrinkLoop (h : Linked s) (hl : s.lruList = rest) (nr : Int32) :
    Linked (ashmemShrinkLoop rest nr s).2 ∧ SameIntervals s (ashmemShrinkLoop rest nr s).2 := by
  induction rest generalizing s nr with
  | nil => exact ⟨h, .refl s⟩
  | cons r rest ih =>
    have hp := h.purge (r := r) (by simp [hl])
    have hs := sameIntervals_purge s r
    simp only [ashmemShrinkLoop]
    split_ifs
    · exact ⟨hp, hs⟩
    · have hl' : (lruDel (setPurged s r) r).lruList = rest := by
        simp [lruDel, setPurged, hl]
      obtain ⟨hk, hi⟩ := ih hp hl' (nr - (rangeSize (s.ranges r)).toInt32)
      exact ⟨hk, hs.trans hi⟩

theorem Linked.shrink (h : Linked s) (nr : Int32) (gfpFs : Bool) :
    Linked (ashmemShrink s nr gfpFs).2.2 ∧ SameIntervals s (ashmemShrink s nr gfpFs).2.2 := by
  simp only [ashmemShrink]
  split_ifs
  · exact ⟨h, .refl s⟩
  · exact ⟨h, .refl s⟩
  · exact h.shrinkLoop rfl nr

theorem Linked.releaseLoop (h : Linked s) (hl : s.unpinnedList a = rest) :
    Linked (rest.foldl Ashmem.rangeDel s) ∧
    (rest.foldl Ashmem.rangeDel s).unpinnedList a = [] ∧
    ∀ b, b ≠ a → (rest.foldl Ashmem.rangeDel s).area b = s.area b := by
  induction rest generalizing s with
  | nil => exact ⟨h, hl, fun _ _ => rfl⟩
  | cons r rest ih =>
    have hm : r ∈ s.unpinnedList a := by simp [hl]
    obtain ⟨hk, hn, ho⟩ := ih (h.rangeDel hm) (h.rangeDel_split (hl.trans (nil_append _).symm))
    exact ⟨hk, hn, fun b hb => (ho b hb).trans (h.rangeDel_area hm hb)⟩

structure WellFormed (empty : Prop) (s : State) : Prop where
  linked : Linked s
  descending : ∀ a, Descending empty (s.area a)

theorem WellFormed.init : WellFormed empty State.init := ⟨.init, fun _ => .nil⟩

theorem WellFormed.of_area (hl : Linked s') (h : WellFormed empty s)
    (ha : Descending empty (s'.area a)) (ho : ∀ b, b ≠ a → s'.area b = s.area b) :
    WellFormed empty s' := by
  refine ⟨hl, fun b => ?_⟩
  by_cases hb : b = a
  · exact hb ▸ ha
  · rw [ho b hb]
    exact h.descending b

theorem Linked.pin (h : Linked s) (zalloc : Bool) (a : AreaId) (p q : UInt32) :
    Linked (ashmemPin s zalloc a p q).2 ∧
    (ashmemPin s zalloc a p q).2.area a = pinRanges zalloc p q (s.area a) ∧
    (ashmemPin s zalloc a p q).1 = pinPurged p q (s.area a) .notPurged ∧
    ∀ b, b ≠ a → (ashmemPin s zalloc a p q).2.area b = s.area b :=
  h.pinLoop (nil_append _).symm .notPurged

theorem WellFormed.pin (h : WellFormed empty s) (hpq : Spans empty p q) :
    WellFormed empty (ashmemPin s zalloc a p q).2 := by
  obtain ⟨hl, ha, _, ho⟩ := h.linked.pin zalloc a p q
  refine .of_area hl h ?_ ho
  rw [ha]
  exact (h.descending a).pinRanges hpq

theorem WellFormed.unpin (h : WellFormed empty s) (zalloc : Bool) (a : AreaId)
    (hpq : Spans empty p q) :
    ∃ res, ashmemUnpin s zalloc a p q = some res ∧ WellFormed empty res.2 ∧
      Unpins zalloc a p q .notPurged (s.area a) (res.2.area a) ∧
      ∀ b, b ≠ a → res.2.area b = s.area b := by
  obtain ⟨res, hres, hl, ha, ho⟩ := h.linked.unpinLoop (Nat.lt_succ_self _) .notPurged
  exact ⟨res, hres, .of_area hl h (ha.descending (h.descending a) hpq) ho, ha, ho⟩

theorem WellFormed.shrink (h : WellFormed empty s) (nr : Int32) (gfpFs : Bool) :
    WellFormed empty (ashmemShrink s nr gfpFs).2.2 := by
  obtain ⟨hl, hs⟩ := h.linked.shrink nr gfpFs
  exact ⟨hl, fun a => hs.descending (h.descending a)⟩

theorem WellFormed.release (h : WellFormed empty s) (a : AreaId) :
    WellFormed empty (ashmemRelease s a) := by
  obtain ⟨hl, hn, ho⟩ := h.linked.releaseLoop (a := a) rfl
  refine .of_area hl h ?_ ho
  rw [State.area, ashmemRelease, hn]
  exact .nil

def AshmemOp.Ordered : AshmemOp → Prop
  | .pin _ pgstart pgend _ => pgstart ≤ pgend
  | .unpin _ pgstart pgend _ => pgstart ≤ pgend
  | .shrink _ _ => True
  | .release _ => True

instance : DecidablePred AshmemOp.Ordered
  | .pin _ pgstart pgend _ => inferInstanceAs (Decidable (pgstart ≤ pgend))
  | .unpin _ pgstart pgend _ => inferInstanceAs (Decidable (pgstart ≤ pgend))
  | .shrink _ _ => inferInstanceAs (Decidable True)
  | .release _ => inferInstanceAs (Decidable True)

theorem WellFormed.step (h : WellFormed False s) (ho : op.Ordered) :
    ∃ s', ashmemStep s op = some s' ∧ WellFormed False s' := by
  cases op with
  | pin a p q zalloc => exact ⟨_, rfl, h.pin (.inl ho)⟩
  | unpin a p q zalloc =>
    obtain ⟨res, hres, hw, _⟩ := h.unpin zalloc a (.inl ho)
    exact ⟨res.2, by simp [ashmemStep, hres], hw⟩
  | shrink nr gfpFs => exact ⟨_, rfl, h.shrink nr gfpFs⟩
  | release a => exact ⟨_, rfl, h.release a⟩

def AshmemRange.pages (r : AshmemRange) : Nat := r.pgend.toNat - r.pgstart.toNat + 1

theorem rangeSize_toNat (h : r.pgstart ≤ r.pgend) : (rangeSize r).toNat = r.pages % 2 ^ 32 := by
  rw [rangeSize, UInt32.toNat_add, UInt32.toNat_sub_of_le _ _ h]
  rfl

theorem sum_rangeSize_toNat {l : List AshmemRange} (h : ∀ r ∈ l, r.pgstart ≤ r.pgend) :
    (l.map rangeSize).sum.toNat = (l.map AshmemRange.pages).sum % 2 ^ 32 := by
  induction l with
  | nil => rfl
  | cons r l ih =>
    have ih := ih (fun x hx => h x (by simp [hx]))
    rw [map_cons, sum_cons, map_cons, sum_cons, UInt32.toNat_add, ih,
      rangeSize_toNat (h r (by simp)), ← Nat.add_mod]

theorem WellFormed.lruCount (h : WellFormed False s) :
    s.lruCount.toNat = (s.lruList.map fun r => (s.ranges r).pages).sum % 2 ^ 32 := by
  have hn : ∀ r ∈ s.lruList.map s.ranges, r.pgstart ≤ r.pgend := by
    intro r hr
    obtain ⟨x, hx, he⟩ := List.mem_map.1 hr
    subst r
    obtain ⟨⟨a, ha⟩, _⟩ := (h.linked.lru_mem x).1 hx
    exact (h.descending a).nonempty _ (List.mem_map_of_mem ha)
  have hsum := sum_rangeSize_toNat hn
  rw [List.map_map, List.map_map] at hsum
  rw [h.linked.lru_count]
  exact hsum

theorem wellFormed_of_run {ops : List AshmemOp} (ho : ∀ op ∈ ops, op.Ordered)
    (hs : ops.foldlM ashmemStep State.init = some s) : WellFormed False s := by
  obtain ⟨s', hs', hw⟩ := foldlM_invariant WellFormed.step .init ho
  rw [hs] at hs'
  cases hs'
  exact hw

/-- Every run keeps the lists of the areas descending and the LRU list and its count exact. -/
theorem ashmem_runs_keep_lists (ops : List AshmemOp) (ho : ∀ op ∈ ops, op.Ordered) :
    ∃ s, ops.foldlM ashmemStep State.init = some s ∧ (∀ a, (∀ r ∈ s.area a, r.pgstart ≤ r.pgend) ∧
        (s.area a).Pairwise fun r r' => r'.pgend < r.pgstart) ∧
      s.lruList.Nodup ∧
      (∀ r, r ∈ s.lruList ↔ (∃ a, r ∈ s.unpinnedList a) ∧ (s.ranges r).purged = .notPurged) ∧
      (∀ a, (s.unpinnedList a).Nodup) ∧
      s.lruCount = (s.lruList.map fun r => rangeSize (s.ranges r)).sum ∧
      s.lruCount.toNat = (s.lruList.map fun r => (s.ranges r).pages).sum % 2 ^ 32 := by
  obtain ⟨s, hs, hw⟩ := foldlM_invariant WellFormed.step .init ho
  refine ⟨s, hs, ?_, hw.linked.lru_nodup, hw.linked.lru_mem, hw.linked.nodup,
    hw.linked.lru_count, hw.lruCount⟩
  intro a
  exact ⟨(hw.descending a).nonempty, (hw.descending a).below⟩

theorem ashmem_runs_keep_lists_sample :
    ∃ s, [AshmemOp.unpin 0 2 9 true, .unpin 1 0 3 false, .pin 0 4 5 true, .shrink 1 true,
        .release 1].foldlM ashmemStep State.init = some s ∧
      (∀ a, (∀ r ∈ s.area a, r.pgstart ≤ r.pgend) ∧
        (s.area a).Pairwise fun r r' => r'.pgend < r.pgstart) ∧
      s.lruList.Nodup ∧
      (∀ r, r ∈ s.lruList ↔ (∃ a, r ∈ s.unpinnedList a) ∧ (s.ranges r).purged = .notPurged) ∧
      (∀ a, (s.unpinnedList a).Nodup) ∧
      s.lruCount = (s.lruList.map fun r => rangeSize (s.ranges r)).sum ∧
      s.lruCount.toNat = (s.lruList.map fun r => (s.ranges r).pages).sum % 2 ^ 32 := by
  apply ashmem_runs_keep_lists
  decide

def pageInterval (pgstart pgend : UInt32) : Set UInt32 := {page | pgstart ≤ page ∧ page ≤ pgend}

/-- The abstract state of an area: which of its pages may be reclaimed. -/
def State.unpinnedPages (s : State) (a : AreaId) : Set UInt32 :=
  {page | ∃ r ∈ s.area a, pageInRange r page}

theorem mem_unpinnedPages (s : State) (a : AreaId) (page : UInt32) :
    page ∈ s.unpinnedPages a ↔ Covers (fun _ => True) (s.area a) page := by
  simp [State.unpinnedPages, Covers]

theorem pageRangeInRange_iff_meets (hr : r.pgstart ≤ r.pgend) (hpq : p ≤ q) :
    pageRangeInRange r p q ↔ ∃ page ∈ pageInterval p q, pageInRange r page := by
  constructor
  · rintro (h | h | h)
    · exact ⟨p, ⟨UInt32.le_refl p, hpq⟩, h⟩
    · exact ⟨q, ⟨hpq, UInt32.le_refl q⟩, h⟩
    · exact ⟨r.pgstart, ⟨h.1, UInt32.le_trans hr h.2⟩, UInt32.le_refl _, hr⟩
  · rintro ⟨page, ⟨h₁, h₂⟩, h₃, h₄⟩
    rw [pageRangeInRange_iff hr hpq]
    exact ⟨UInt32.le_trans h₃ h₂, UInt32.le_trans h₁ h₄⟩

theorem getPinStatusLoop_iff (h : Descending False (l.map f)) (hpq : p ≤ q) :
    getPinStatusLoop f p q l = .isUnpinned ↔ ∃ r ∈ l.map f, pageRangeInRange r p q := by
  induction l with
  | nil => simp [getPinStatusLoop]
  | cons r l ih =>
    obtain ⟨hr, hb, hd⟩ := descending_cons.1 h
    have ih := ih hd
    simp only [getPinStatusLoop, List.map_cons, List.mem_cons, exists_eq_or_imp]
    split_ifs with h₁ h₂
    · have hlow := h.not_meets hpq (by grind)
      have hno : ¬ pageRangeInRange (f r) p q := by
        grind
      refine ⟨fun he => (by cases he), ?_⟩
      rintro (hm | ⟨x, hx, hm⟩)
      · exact (hno hm).elim
      · exact (hlow x hx hm).elim
    · exact ⟨fun _ => .inl h₂, fun _ => rfl⟩
    · rw [ih]
      exact ⟨.inr, fun h => h.resolve_left h₂⟩

theorem WellFormed.getPinStatus (h : WellFormed False s) (hpq : p ≤ q) :
    ashmemGetPinStatus s a p q = .isUnpinned ↔ (s.unpinnedPages a ∩ pageInterval p q).Nonempty := by
  rw [ashmemGetPinStatus, getPinStatusLoop_iff (h.descending a) hpq]
  constructor
  · rintro ⟨r, hr, hm⟩
    rw [pageRangeInRange_iff_meets ((h.descending a).nonempty r hr) hpq] at hm
    obtain ⟨page, hp, hin⟩ := hm
    exact ⟨page, ⟨r, hr, hin⟩, hp⟩
  · rintro ⟨page, ⟨r, hr, hin⟩, hp⟩
    refine ⟨r, hr, ?_⟩
    rw [pageRangeInRange_iff_meets ((h.descending a).nonempty r hr) hpq]
    exact ⟨page, hp, hin⟩

theorem WellFormed.pin_unpinnedPages (h : WellFormed False s) (hpq : p ≤ q) :
    (ashmemPin s true a p q).2.unpinnedPages a = s.unpinnedPages a \ pageInterval p q := by
  ext page
  rw [mem_unpinnedPages, (h.linked.pin true a p q).2.1,
    covers_pinRanges (h.descending a) (.inl hpq) (.inl rfl), Set.mem_sdiff, mem_unpinnedPages]
  rfl

theorem WellFormed.unpin_unpinnedPages (h : WellFormed False s) (hpq : p ≤ q) :
    ∃ res, ashmemUnpin s true a p q = some res ∧
      res.2.unpinnedPages a = s.unpinnedPages a ∪ pageInterval p q ∧
      ∀ b, b ≠ a → res.2.unpinnedPages b = s.unpinnedPages b := by
  obtain ⟨res, hres, _, ha, ho⟩ := h.unpin true a (.inl hpq)
  refine ⟨res, hres, ?_, ?_⟩
  · ext page
    rw [mem_unpinnedPages, ha.covers rfl (h.descending a) (.inl hpq), Set.mem_union,
      mem_unpinnedPages]
    rfl
  · intro b hb
    rw [State.unpinnedPages, ho b hb]
    rfl

/-- Unpinning unites, pinning subtracts, the status is intersection, and a pin reports a purge
exactly when a purged range meets its interval. -/
theorem ashmem_refines_page_sets (ops : List AshmemOp) (s : State) (a : AreaId) (p q : UInt32)
    (ho : ∀ op ∈ ops, op.Ordered) (hs : ops.foldlM ashmemStep State.init = some s)
    (hpq : p ≤ q) :
    (∃ res, ashmemUnpin s true a p q = some res ∧
      res.2.unpinnedPages a = s.unpinnedPages a ∪ pageInterval p q ∧
      ∀ b, b ≠ a → res.2.unpinnedPages b = s.unpinnedPages b) ∧
    (ashmemPin s true a p q).2.unpinnedPages a = s.unpinnedPages a \ pageInterval p q ∧
    (∀ b, b ≠ a → (ashmemPin s true a p q).2.unpinnedPages b = s.unpinnedPages b) ∧
    (ashmemGetPinStatus s a p q = .isUnpinned ↔ (s.unpinnedPages a ∩ pageInterval p q).Nonempty) ∧
    ((ashmemPin s true a p q).1 = .wasPurged ↔
      ∃ r ∈ s.area a, (∃ page ∈ pageInterval p q, pageInRange r page) ∧ r.purged = .wasPurged) := by
  have h := wellFormed_of_run ho hs
  refine ⟨h.unpin_unpinnedPages hpq, h.pin_unpinnedPages hpq, ?_, h.getPinStatus hpq, ?_⟩
  · intro b hb
    rw [State.unpinnedPages, (h.linked.pin true a p q).2.2.2 b hb]
    rfl
  · rw [(h.linked.pin true a p q).2.2.1, pinPurged_iff (h.descending a) hpq]
    simp only [reduceCtorEq, false_or]
    constructor
    · rintro ⟨r, hr, hm, hp⟩
      exact ⟨r, hr, (pageRangeInRange_iff_meets ((h.descending a).nonempty r hr) hpq).1 hm, hp⟩
    · rintro ⟨r, hr, hm, hp⟩
      exact ⟨r, hr, (pageRangeInRange_iff_meets ((h.descending a).nonempty r hr) hpq).2 hm, hp⟩

theorem ashmem_refines_page_sets_sample :
    ∃ s, [AshmemOp.unpin 0 2 9 true, .shrink 3 true, .pin 0 4 5 true].foldlM ashmemStep
        State.init = some s ∧
      (ashmemPin s true 0 6 7).2.unpinnedPages 0 = s.unpinnedPages 0 \ pageInterval 6 7 :=
  ⟨_, rfl, (ashmem_refines_page_sets [.unpin 0 2 9 true, .shrink 3 true, .pin 0 4 5 true] _ 0 6 7
    (by decide) rfl (by decide)).2.1⟩

def VmtruncateRange.Truncates (c : VmtruncateRange) (a : AreaId) (page : UInt32) : Prop :=
  c.asma = a ∧ c.start.toNat ≤ page.toNat * 4096 ∧ page.toNat * 4096 + 4095 ≤ c.stop.toNat

/-- The driver with the pages of each area truncated since a pin last covered them. -/
structure PurgeState where
  state : State
  truncated : AreaId → UInt32 → Prop

def PurgeState.init : PurgeState := ⟨State.init, fun _ _ => False⟩

def purgeStep (t : PurgeState) (op : AshmemOp) : Option PurgeState :=
  (ashmemStep t.state op).map fun s =>
    match op with
    | .pin asma pgstart pgend _ =>
      ⟨s, fun a page => t.truncated a page ∧ ¬ (a = asma ∧ pgstart ≤ page ∧ page ≤ pgend)⟩
    | .unpin _ _ _ _ => ⟨s, t.truncated⟩
    | .shrink nrToScan gfpFs =>
      ⟨s, fun a page => t.truncated a page ∨
        ∃ c ∈ (ashmemShrink t.state nrToScan gfpFs).2.1, c.Truncates a page⟩
    | .release asma => ⟨s, fun a page => t.truncated a page ∧ a ≠ asma⟩

/-- The next pin over a truncated page reports the purge. -/
def PurgeState.Remembers (t : PurgeState) : Prop :=
  ∀ a page pgstart pgend zalloc, t.truncated a page → pgstart ≤ page → page ≤ pgend →
    (ashmemPin t.state zalloc a pgstart pgend).1 = .wasPurged

/-- An interval of pages of the 32-bit address space, or the empty one at the end of an area. -/
abbrev InAddressSpace (pgstart pgend : UInt32) : Prop :=
  Spans True pgstart pgend ∧ pgstart < 1048576 ∧ pgend < 1048576

def AshmemOp.InAddressSpace : AshmemOp → Prop
  | .pin _ pgstart pgend _ => Ashmem.InAddressSpace pgstart pgend
  | .unpin _ pgstart pgend _ => Ashmem.InAddressSpace pgstart pgend
  | .shrink _ _ => True
  | .release _ => True

instance : DecidablePred AshmemOp.InAddressSpace
  | .pin _ pgstart pgend _ => inferInstanceAs (Decidable (Ashmem.InAddressSpace pgstart pgend))
  | .unpin _ pgstart pgend _ => inferInstanceAs (Decidable (Ashmem.InAddressSpace pgstart pgend))
  | .shrink _ _ => inferInstanceAs (Decidable True)
  | .release _ => inferInstanceAs (Decidable True)

/-- No allocation fails while a merge absorbs a purged range or a hole is punched into one. -/
def KeepsPurges (t : PurgeState) : AshmemOp → Prop
  | .pin asma pgstart pgend zalloc => zalloc = true ∨
      ∀ r ∈ t.state.area asma, r.pgstart < pgstart → pgend < r.pgend → r.purged = .notPurged
  | .unpin asma pgstart pgend zalloc => zalloc = true ∨
      (∃ r ∈ t.state.area asma, pageRangeSubsumedByRange r pgstart pgend) ∨
      ∀ r ∈ t.state.area asma, pageRangeInRange r pgstart pgend → r.purged = .notPurged
  | .shrink _ _ => True
  | .release _ => True

structure PurgesKept (t : PurgeState) : Prop where
  wellFormed : WellFormed True t.state
  bound : ∀ a, ∀ r ∈ t.state.area a, r.pgstart < 1048576 ∧ r.pgend < 1048576
  kept : ∀ a page, t.truncated a page → Covers (· = .wasPurged) (t.state.area a) page

theorem PurgesKept.init : PurgesKept PurgeState.init :=
  ⟨.init, fun _ _ hr => (not_mem_nil hr).elim, fun _ _ h => h.elim⟩

theorem PurgesKept.remembers (h : PurgesKept t) : t.Remembers := by
  intro a page p q zalloc ht hp hq
  rw [(h.wellFormed.linked.pin zalloc a p q).2.2.1]
  exact pinPurged_covers (h.wellFormed.descending a) hp hq (.inr (h.kept a page ht))

theorem truncates_range (hb : r.pgstart < 1048576 ∧ r.pgend < 1048576)
    (h : VmtruncateRange.Truncates
      ⟨r.asma, r.pgstart * PAGE_SIZE, (r.pgend + 1) * PAGE_SIZE - 1⟩ a page) :
    r.asma = a ∧ pageInRange r page := by
  obtain ⟨ha, hlo, hhi⟩ := h
  have hstart : r.pgstart.toNat < 1048576 := hb.1
  have hend : r.pgend.toNat < 1048576 := hb.2
  have hone : (1 : UInt32).toNat = 1 := rfl
  have hsize : PAGE_SIZE.toNat = 4096 := rfl
  simp only [UInt32.toNat_mul, UInt32.toNat_sub, UInt32.toNat_add, hsize] at hlo hhi
  refine ⟨ha, ?_, ?_⟩
  · change r.pgstart.toNat ≤ page.toNat
    omega
  · change page.toNat ≤ r.pgend.toNat
    omega

theorem Linked.shrinkLoop_calls (h : Linked s) (hl : s.lruList = rest) (nr : Int32) :
    ∀ c ∈ (ashmemShrinkLoop rest nr s).1, ∃ r ∈ rest,
      c = ⟨(s.ranges r).asma, (s.ranges r).pgstart * PAGE_SIZE,
        ((s.ranges r).pgend + 1) * PAGE_SIZE - 1⟩ ∧
      ((ashmemShrinkLoop rest nr s).2.ranges r).purged = .wasPurged := by
  induction rest generalizing s nr with
  | nil =>
    intro c hc
    exact (not_mem_nil hc).elim
  | cons r rest ih =>
    have hp := h.purge (r := r) (by simp [hl])
    have hl' : (lruDel (setPurged s r) r).lruList = rest := by
      simp [lruDel, setPurged, hl]
    have hs := sameIntervals_purge s r
    have hw : ((lruDel (setPurged s r) r).ranges r).purged = .wasPurged := by
      simp [lruDel, setPurged]
    simp only [ashmemShrinkLoop]
    split_ifs
    · intro c hc
      rw [mem_singleton] at hc
      exact ⟨r, by simp, hc, hw⟩
    · intro c hc
      obtain ⟨_, hi⟩ := hp.shrinkLoop hl' (nr - (rangeSize (s.ranges r)).toInt32)
      rcases mem_cons.1 hc with hc | hc
      · exact ⟨r, by simp, hc, hi.purged r hw⟩
      · obtain ⟨x, hx, he, hxp⟩ := ih hp hl' (nr - (rangeSize (s.ranges r)).toInt32) c hc
        refine ⟨x, by simp [hx], ?_, hxp⟩
        rw [he, hs.asma, hs.pgstart, hs.pgend]

theorem PurgesKept.pin (h : PurgesKept t) (ho : (AshmemOp.pin a p q zalloc).InAddressSpace)
    (hk : KeepsPurges t (.pin a p q zalloc)) (he : purgeStep t (.pin a p q zalloc) = some t') :
    PurgesKept t' := by
  cases he
  have hd := h.wellFormed.descending a
  obtain ⟨_, ha, _, hother⟩ := h.wellFormed.linked.pin zalloc a p q
  refine ⟨h.wellFormed.pin ho.1, ?_, ?_⟩
  · intro b r hr
    by_cases hb : b = a
    · subst b
      rw [ha] at hr
      exact ⟨pinRanges_start zalloc (h.bound a) r hr,
        pinRanges_bound zalloc hd (fun x hx => (h.bound a x hx).2) ho.1 r hr⟩
    · rw [hother b hb] at hr
      exact h.bound b r hr
  · rintro b page ⟨ht, hn⟩
    have hc := h.kept b page ht
    by_cases hb : b = a
    · subst b
      rw [ha]
      have hout : ¬ (p ≤ page ∧ page ≤ q) := fun hin => hn ⟨rfl, hin⟩
      cases zalloc with
      | true => exact (covers_pinRanges hd ho.1 (.inl rfl) page).2 ⟨hc, hout⟩
      | false =>
        refine (covers_pinRanges hd ho.1 (.inr ?_) page).2 ⟨hc, hout⟩
        intro r hr hp hin
        have hnp := hk.resolve_left (by simp) r hr hin.1 hin.2
        rw [hp] at hnp
        cases hnp
    · rw [hother b hb]
      exact hc

theorem PurgesKept.unpin (h : PurgesKept t) (ho : (AshmemOp.unpin a p q zalloc).InAddressSpace)
    (hk : KeepsPurges t (.unpin a p q zalloc))
    (he : purgeStep t (.unpin a p q zalloc) = some t') : PurgesKept t' := by
  obtain ⟨res, hres, hw, ha, hother⟩ := h.wellFormed.unpin zalloc a ho.1
  simp only [purgeStep, ashmemStep, hres, Option.map_some, Option.some.injEq] at he
  subst t'
  have hd := h.wellFormed.descending a
  refine ⟨hw, ?_, ?_⟩
  · intro b r hr
    by_cases hb : b = a
    · subst b
      exact ha.bound (h.bound a) ho.2.1 ho.2.2 r hr
    · rw [hother b hb] at hr
      exact h.bound b r hr
  · intro b page ht
    have hc := h.kept b page ht
    by_cases hb : b = a
    · subst b
      cases zalloc with
      | true => exact ha.purged_kept rfl hd (.inr hc)
      | false =>
        refine ha.purged_kept_fail rfl hd ho.1 ?_ hc
        exact (hk.resolve_left (by simp)).imp_right fun hm r hr _ hin => hm r hr hin
    · rw [hother b hb]
      exact hc

theorem PurgesKept.shrink (h : PurgesKept t) (he : purgeStep t (.shrink nr gfpFs) = some t') :
    PurgesKept t' := by
  cases he
  have hl := h.wellFormed.linked
  obtain ⟨hlk, hs⟩ := hl.shrink nr gfpFs
  refine ⟨h.wellFormed.shrink nr gfpFs, ?_, ?_⟩
  · intro a r hr
    obtain ⟨x, hx, he⟩ := List.mem_map.1 hr
    subst r
    rw [hs.unpinnedList] at hx
    rw [hs.pgstart, hs.pgend]
    exact h.bound a _ (List.mem_map_of_mem hx)
  · rintro a page (ht | ⟨c, hc, ht⟩)
    · obtain ⟨r, hr, hp, hin⟩ := h.kept a page ht
      obtain ⟨x, hx, he⟩ := List.mem_map.1 hr
      subst r
      refine ⟨_, List.mem_map_of_mem (hs.unpinnedList.symm ▸ hx), hs.purged x hp, ?_⟩
      rw [pageInRange, hs.pgstart, hs.pgend]
      exact hin
    · simp only [ashmemShrink] at hc hs ⊢
      split_ifs at hc hs ⊢ with h₁ h₂
      · exact (not_mem_nil hc).elim
      · exact (not_mem_nil hc).elim
      · obtain ⟨x, hx, hce, hp⟩ := hl.shrinkLoop_calls rfl nr c hc
        subst c
        obtain ⟨⟨b, hb⟩, _⟩ := (hl.lru_mem x).1 hx
        have hmem : t.state.ranges x ∈ t.state.area b := List.mem_map_of_mem hb
        obtain ⟨hab, hin⟩ := truncates_range (h.bound b _ hmem) ht
        have : b = a := (hl.owner hb).symm.trans hab
        subst b
        refine ⟨_, List.mem_map_of_mem (hs.unpinnedList.symm ▸ hb), hp, ?_⟩
        rw [pageInRange, hs.pgstart, hs.pgend]
        exact hin

theorem PurgesKept.release (h : PurgesKept t) (he : purgeStep t (.release a) = some t') :
    PurgesKept t' := by
  cases he
  obtain ⟨_, hn, hother⟩ := h.wellFormed.linked.releaseLoop (a := a) rfl
  refine ⟨h.wellFormed.release a, ?_, ?_⟩
  · intro b r hr
    by_cases hb : b = a
    · subst b
      rw [State.area, ashmemRelease, hn] at hr
      exact (not_mem_nil hr).elim
    · exact h.bound b r (hother b hb ▸ hr)
  · rintro b page ⟨ht, hb⟩
    exact (hother b hb).symm ▸ h.kept b page ht

theorem PurgesKept.step (h : PurgesKept t) (ho : op.InAddressSpace ∧ KeepsPurges t op)
    (he : purgeStep t op = some t') : PurgesKept t' := by
  cases op with
  | pin a p q zalloc => exact h.pin ho.1 ho.2 he
  | unpin a p q zalloc => exact h.unpin ho.1 ho.2 he
  | shrink nr gfpFs => exact h.shrink he
  | release a => exact h.release he

/-- No purge is forgotten in a run whose failing allocations involve no purged range. -/
theorem ashmem_remembers_purges (ops : List AshmemOp) (t : PurgeState)
    (h : Run (fun t op => op.InAddressSpace ∧ KeepsPurges t op) purgeStep PurgeState.init ops t) :
    t.Remembers :=
  (h.invariant PurgesKept.step .init).remembers

theorem ashmem_remembers_purges_sample :
    ∃ t, Run (fun t op => op.InAddressSpace ∧ KeepsPurges t op) purgeStep PurgeState.init
        [.unpin 0 0 3 true, .unpin 0 4 3 true, .shrink 1 true] t ∧ t.truncated 0 2 ∧
      t.Remembers := by
  have hrun : Run (fun t op => op.InAddressSpace ∧ KeepsPurges t op) purgeStep PurgeState.init
      [.unpin 0 0 3 true, .unpin 0 4 3 true, .shrink 1 true] _ :=
    .cons ⟨by decide, .inl rfl⟩ rfl (.cons ⟨by decide, .inl rfl⟩ rfl
      (.cons ⟨by decide, trivial⟩ rfl (.nil _)))
  refine ⟨_, hrun, .inr ⟨⟨0, 0, 16383⟩, ?_, rfl, ?_, ?_⟩, ashmem_remembers_purges _ _ hrun⟩ <;>
    decide

/-- A purged range is absorbed by an unpin whose allocation fails, and the purge is gone. -/
theorem ashmem_forgets_purge : ¬ ∀ (ops : List AshmemOp) (t : PurgeState),
    (∀ op ∈ ops, op.InAddressSpace) → ops.foldlM purgeStep PurgeState.init = some t →
      t.Remembers := by
  intro h
  have hpin := h [.unpin 0 0 0 true, .shrink 1 true, .unpin 0 0 1 false] _ (by decide) rfl
    0 0 0 0 true (.inr ⟨⟨0, 0, 4095⟩, by decide, rfl, by decide, by decide⟩) (by decide) (by decide)
  revert hpin
  decide

end SpicaKernel.Ashmem
