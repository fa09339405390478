import SpicaKernel.MmapSplit

namespace SpicaKernel.Mmap
open RedBlack RbTree IntervalMap Option
set_option autoImplicit true

def Page.plain (p : Page) : Page := { p with flags := p.flags &&& ~~~VM_CAN_NONLINEAR }

structure Request.Like (r : Request) (a : Area) : Prop where
  file : a.file = r.file
  flags : a.flags &&& ~~~VM_CAN_NONLINEAR = r.flags &&& ~~~VM_CAN_NONLINEAR

theorem isMergeableVma_like (h : isMergeableVma a r.file r.flags) : Request.Like r a := by
  unfold isMergeableVma at h
  split at h
  · cases h
  next hflags =>
    split at h
    · cases h
    next hfile =>
      refine ⟨not_not.mp hfile, ?_⟩
      rw [not_not] at hflags
      rw [← BitVec.xor_eq_zero_iff, ← hflags]
      ext i hi
      simp [Bool.and_xor_distrib_right]

theorem Request.mergesAfter_spec {r : Request} (h : r.mergesAfter a) :
    r.Like a ∧ a.stop = r.addr ∧ r.pgoff = a.pgoff + pagesBetween a.start r.addr := by
  simp only [mergesAfter, canVmaMergeAfter, Bool.and_eq_true, decide_eq_true_eq] at h
  obtain ⟨⟨hstop, -⟩, ⟨hlike, -⟩, hpgoff⟩ := h
  exact ⟨isMergeableVma_like hlike, hstop, by rw [← hpgoff, hstop]⟩

theorem Request.mergesBefore_spec {r : Request} (h : r.mergesBefore a) :
    r.Like a ∧ a.start = r.stop ∧ a.pgoff = r.pgoff + pagesBetween r.addr r.stop := by
  simp only [mergesBefore, canVmaMergeBefore, Bool.and_eq_true, decide_eq_true_eq] at h
  obtain ⟨⟨hstart, -⟩, ⟨hlike, -⟩, hpgoff⟩ := h
  exact ⟨isMergeableVma_like hlike, hstart.symm, hpgoff⟩

theorem isMergeableAnonVma_iff :
    isMergeableAnonVma x y = true ↔ x = 0 ∨ y = 0 ∨ x = y := by
  simp only [isMergeableAnonVma, Bool.or_eq_true, decide_eq_true_eq]
  omega

theorem Request.mergesAfter_anon {r : Request} (h : r.mergesAfter a) :
    r.anonVma = 0 ∨ a.anonVma = 0 ∨ r.anonVma = a.anonVma := by
  simp only [mergesAfter, canVmaMergeAfter, Bool.and_eq_true] at h
  exact isMergeableAnonVma_iff.mp h.2.1.2

theorem Request.mergesBefore_anon {r : Request} (h : r.mergesBefore a) :
    r.anonVma = 0 ∨ a.anonVma = 0 ∨ r.anonVma = a.anonVma := by
  simp only [mergesBefore, canVmaMergeBefore, Bool.and_eq_true] at h
  exact isMergeableAnonVma_iff.mp h.2.1.2

inductive Request.Plan (r : Request) (prev next : Option Area) : Merge → Prop where
  | none : Plan r prev next .none
  | grow : prev = some p → r.mergesAfter p →
      s = r.stop ∨ (∃ n, next = some n ∧ r.mergesBefore n ∧ p.Shares n ∧ s = n.stop) →
      Plan r prev next (.grow s)
  | shrink : prev = some p → next = some n → r.addr < p.stop → r.mergesBefore n →
      Plan r prev next .shrink
  | lower : next = some n → r.mergesBefore n → (∀ p, prev = some p → p.stop ≤ r.addr) →
      Plan r prev next (.lower n.stop (n.pgoff - pagesBetween r.addr r.stop))

theorem Request.mergePlan_spec (r : Request) (prev next : Option Area) :
    r.Plan prev next (r.mergePlan prev next) := by
  unfold mergePlan
  cases hp : prev.filter r.mergesAfter with
  | some p =>
    obtain ⟨rfl, hafter⟩ := filter_eq_some_iff.mp hp
    cases hn : next.filter r.mergesBefore with
    | some n =>
      obtain ⟨rfl, hbefore⟩ := filter_eq_some_iff.mp hn
      refine .grow rfl hafter ?_
      split
      next hanon => exact .inr ⟨_, rfl, hbefore, isMergeableAnonVma_iff.mp hanon, rfl⟩
      · exact .inl rfl
    | none => exact .grow rfl hafter (.inl rfl)
  | none =>
    cases hn : next.filter r.mergesBefore with
    | some n =>
      obtain ⟨rfl, hbefore⟩ := filter_eq_some_iff.mp hn
      change Plan r prev _ (if _ then _ else _)
      split
      next hany =>
        cases prev with
        | none => cases hany
        | some p => exact .shrink rfl rfl (by simpa using hany) hbefore
      next hany =>
        refine .lower rfl hbefore fun p hp => ?_
        subst hp
        simpa using hany
    | none => exact .none

def Request.settle (r : Request) (a : Area) : Area := { a with flags := r.flags }

@[simp] theorem Request.settle_start (r : Request) (a : Area) : (r.settle a).start = a.start := rfl

@[simp] theorem Request.settle_stop (r : Request) (a : Area) : (r.settle a).stop = a.stop := rfl

def Request.page (r : Request) (x : Nat) : Page :=
  ⟨r.file, r.pgoff + pagesBetween r.addr x, r.flags⟩

structure Request.Paged (r : Request) : Prop where
  addr : pageSize ∣ r.addr
  stop : pageSize ∣ r.stop
  lt : r.addr < r.stop

structure Request.Merged (r : Request) (old new : List (Ptr × Area)) : Prop where
  inside : ∀ x, pageSize ∣ x → r.addr ≤ x → x < r.stop → pageAt new x = some (r.page x)
  outside : ∀ x, pageSize ∣ x → ¬ (r.addr ≤ x ∧ x < r.stop) →
    (pageAt new x).map Page.plain = (pageAt old x).map Page.plain

namespace Request

variable {r : Request}

theorem Merged.splice (h : r.Merged old new) (hpre : ∀ y ∈ pre, y.2.stop ≤ r.addr)
    (post : List (Ptr × Area)) : r.Merged (pre ++ (old ++ post)) (pre ++ (new ++ post)) := by
  constructor
  · intro x hx hlo hhi
    have hnone : pageAt pre x = none :=
      pageAt_eq_none (fun y hy => .inl (hpre y hy)) hlo hhi
    rw [pageAt_append, pageAt_append, hnone, none_or, h.inside x hx hlo hhi, some_or]
  · intro x hx hout
    have hmap : ∀ o o' : Option Page, (o.or o').map Page.plain =
        (o.map Page.plain).or (o'.map Page.plain) := by
      intro o o'
      cases o <;> rfl
    rw [pageAt_append, pageAt_append, pageAt_append, pageAt_append, hmap, hmap, hmap, hmap,
      h.outside x hx hout]

theorem Merged.of_same (h : r.Merged old new) (hsame : SamePages old' old) : r.Merged old' new :=
  ⟨h.inside, fun x hx hout => by rw [h.outside x hx hout, hsame x hx]⟩

structure Extends (r : Request) (a : Area) : Prop where
  start : a.start = r.addr
  file : a.file = r.file
  pgoff : a.pgoff = r.pgoff
  flags : a.flags = r.flags

theorem Extends.page (h : r.Extends a) (x : Nat) : a.page x = r.page x := by
  simp only [Area.page, Request.page, h.start, h.file, h.pgoff, h.flags]

theorem mergesAfter_offset (hr : r.Paged) (h : r.mergesAfter b) (hb : b.start < b.stop)
    (hx : pageSize ∣ x) (hlo : r.addr ≤ x) :
    b.pgoff + pagesBetween b.start x = r.pgoff + pagesBetween r.addr x := by
  obtain ⟨-, hstop, hoff⟩ := mergesAfter_spec h
  rw [pagesBetween_add (by omega : b.start ≤ r.addr) hlo hr.addr hx, hoff, BitVec.add_assoc]

theorem mergesBefore_page (hr : r.Paged) (h : r.mergesBefore n) (hx : pageSize ∣ x)
    (hlo : r.stop ≤ x) : (n.page x).plain = (r.page x).plain := by
  obtain ⟨hlike, hstart, hoff⟩ := mergesBefore_spec h
  simp only [Area.page, Request.page, Page.plain, hlike.file, hlike.flags, hstart, hoff]
  rw [pagesBetween_add (Nat.le_of_lt hr.lt) hlo hr.stop hx, BitVec.add_assoc]

theorem mergesBefore_pgoff (h : r.mergesBefore n) :
    n.pgoff - pagesBetween r.addr r.stop = r.pgoff := by
  rw [(mergesBefore_spec h).2.2, BitVec.add_sub_cancel]

theorem mergesBefore_range (hr : r.Paged) (h : r.mergesBefore n) (p : Ptr) (hx : pageSize ∣ x)
    (hlo : r.stop ≤ x) : (pageAt [(p, n)] x).map Page.plain =
      if x < n.stop then some (r.page x).plain else none := by
  obtain ⟨-, hstart, -⟩ := mergesBefore_spec h
  rw [pageAt_cons]
  by_cases hin : x < n.stop
  · rw [if_pos ⟨by omega, hin⟩, if_pos hin, map_some, mergesBefore_page hr h hx hlo]
  · rw [if_neg (fun hcover => hin hcover.2), if_neg hin]
    rfl

theorem merged_grow (hr : r.Paged) (h : r.mergesAfter b) (hb : b.start < b.stop) (hs : r.stop ≤ s)
    (hrange : ∀ x, pageSize ∣ x → r.stop ≤ x → (pageAt old x).map Page.plain =
      if x < s then some (r.page x).plain else (pageAt new x).map Page.plain)
    (hbelow : ∀ x, x < r.addr → pageAt old x = none ∧ pageAt new x = none) (q : Ptr) (anon : Nat) :
    r.Merged ((q, b) :: old) ((q, r.settle (b.reshape b.start s b.pgoff anon)) :: new) := by
  obtain ⟨hlike, hstop, -⟩ := mergesAfter_spec h
  have hlt := hr.lt
  have hpage : ∀ x, (r.settle (b.reshape b.start s b.pgoff anon)).page x =
      ⟨r.file, b.pgoff + pagesBetween b.start x, r.flags⟩ := by
    intro x
    rw [← hlike.file]
    rfl
  constructor
  · intro x hx hlo hhi
    rw [pageAt_cons, settle_start, settle_stop, Area.reshape_start, Area.reshape_stop,
      if_pos (by omega), hpage, mergesAfter_offset hr h hb hx hlo]
    rfl
  · intro x hx hout
    rw [pageAt_cons, pageAt_cons, settle_start, settle_stop, Area.reshape_start, Area.reshape_stop]
    by_cases hx' : x < r.addr
    · obtain ⟨hold, hnew⟩ := hbelow x hx'
      by_cases hin : b.start ≤ x
      · rw [if_pos (by omega), if_pos (by omega), hpage]
        simp [Page.plain, Area.page, hlike.file, hlike.flags]
      · rw [if_neg (by omega), if_neg (by omega), hold, hnew]
    · rw [if_neg (by omega : ¬ (b.start ≤ x ∧ x < b.stop)), hrange x hx (by omega)]
      by_cases hin : x < s
      · rw [if_pos (by omega), if_pos hin, hpage, mergesAfter_offset hr h hb hx (by omega)]
        rfl
      · rw [if_neg (by omega), if_neg hin]

theorem merged_extends (hr : r.Paged) (h : r.Extends a) (hs : a.stop = s) (hle : r.stop ≤ s)
    (hrange : ∀ x, pageSize ∣ x → r.stop ≤ x → (pageAt old x).map Page.plain =
      if x < s then some (r.page x).plain else none)
    (hbelow : ∀ x, x < r.addr → pageAt old x = none) (p : Ptr) : r.Merged old [(p, a)] := by
  have hlt := hr.lt
  constructor
  · intro x hx hlo hhi
    rw [pageAt_cons, h.start, if_pos (by omega), h.page]
  · intro x hx hout
    rw [pageAt_cons, h.start]
    by_cases hx' : x < r.addr
    · rw [if_neg (by omega), hbelow x hx']
      rfl
    · rw [hrange x hx (by omega)]
      by_cases hin : x < s
      · rw [if_pos (by omega), if_pos hin, h.page]
        rfl
      · rw [if_neg (by omega), if_neg hin]
        rfl

end Request

open List BitVec

theorem inOrder_one (hpre : InOrder pre) (hpost : InOrder post) (ha : a.start < a.stop)
    (hbelow : ∀ y ∈ pre, y.2.stop ≤ a.start) (habove : ∀ y ∈ post, a.stop ≤ y.2.start) (p : Ptr) :
    InOrder (pre ++ (p, a) :: post) := by
  refine ordered_append.mpr ⟨hpre, ordered_cons.mpr ⟨ha, hpost, habove⟩, fun y hy z hz => ?_⟩
  rcases mem_cons.mp hz with rfl | hz
  · exact hbelow y hy
  · exact Nat.le_trans (hbelow y hy) (Nat.le_trans (Nat.le_of_lt ha) (habove z hz))

theorem inOrder_two (hpre : InOrder pre) (hpost : InOrder post) (ha : a.start < a.stop)
    (hab : a.stop ≤ b.start) (hb : b.start < b.stop) (hbelow : ∀ y ∈ pre, y.2.stop ≤ a.start)
    (habove : ∀ y ∈ post, b.stop ≤ y.2.start) (p q : Ptr) :
    InOrder (pre ++ (p, a) :: (q, b) :: post) := by
  refine inOrder_one hpre (inOrder_one ⟨.nil, by simp⟩ hpost hb (by simp) habove q) ha hbelow ?_ p
  intro y hy
  rcases mem_cons.mp hy with rfl | hy
  · exact hab
  · exact Nat.le_trans hab (Nat.le_trans (Nat.le_of_lt hb) (habove y hy))

structure Between (a : Area) (pre post : List (Ptr × Area)) : Prop where
  filled : a.start < a.stop
  below : ∀ y ∈ pre, y.2.stop ≤ a.start
  above : ∀ y ∈ post, a.stop ≤ y.2.start
  pre : InOrder pre
  post : InOrder post

theorem InOrder.between (h : InOrder (pre ++ (p, a) :: post)) : Between a pre post := by
  obtain ⟨hpre, hrest, hbelow⟩ := ordered_append.mp h
  obtain ⟨ha, hpost, hnext⟩ := ordered_cons.mp hrest
  exact ⟨ha, fun y hy => hbelow y hy (p, a) (by simp), hnext, hpre, hpost⟩

def Request.Done (r : Request) (as : List (Ptr × Area)) (p : Ptr) (mm : Mm) : Prop :=
  ∃ mm' as', mm.modifyArea p r.settle = some mm' ∧ Good mm' as' ∧ r.Merged as as'

theorem Linked.done {r : Request} (h : Linked mm (pre ++ (p, a) :: post))
    (hord : InOrder (pre ++ (p, r.settle a) :: post))
    (hmerged : r.Merged as (pre ++ (p, r.settle a) :: post)) : r.Done as p mm := by
  obtain ⟨mm', hm, h'⟩ := h.modifyArea r.settle
  exact ⟨mm', _, hm, ⟨h', hord⟩, hmerged⟩

theorem pageAt_below (h : ∀ y ∈ as, s ≤ y.2.start) (hx : x < s) : pageAt as x = none :=
  valueAt_eq_none _ _ _ fun y hy => .inl (Nat.lt_of_lt_of_le hx (h y hy))

theorem pageAt_single (p : Ptr) (a : Area) (x : Nat) :
    pageAt [(p, a)] x = if a.start ≤ x ∧ x < a.stop then some (a.page x) else none :=
  pageAt_cons p a [] x

section

variable {r : Request}

theorem Linked.grown (h : Linked mm' (pre ++ (q, b.reshape b.start s b.pgoff anon) :: post))
    (old : List (Ptr × Area)) (hbetween : Between b pre (old ++ post)) (hr : r.Paged)
    (hafter : r.mergesAfter b) (hs : r.stop ≤ s) (habove : ∀ y ∈ post, s ≤ y.2.start)
    (hrange : ∀ x, pageSize ∣ x → r.stop ≤ x → (pageAt old x).map Page.plain =
      if x < s then some (r.page x).plain else none) :
    r.Done (pre ++ (q, b) :: (old ++ post)) q mm' := by
  have hb := hbetween.filled
  have hlt := hr.lt
  obtain ⟨-, hstop, -⟩ := Request.mergesAfter_spec hafter
  obtain ⟨-, hpost, -⟩ := ordered_append.mp hbetween.post
  have hbelow : ∀ x, x < r.addr → pageAt old x = none ∧ pageAt [] x = none := by
    intro x hx
    refine ⟨pageAt_below (fun y hy => ?_) (hstop ▸ hx), rfl⟩
    exact hbetween.above y (mem_append_left _ hy)
  have hmerged := Request.merged_grow hr hafter hb hs hrange hbelow q anon
  refine h.done ?_ (hmerged.splice (fun y hy => ?_) post)
  · apply inOrder_one hbetween.pre hpost
    · change b.start < s
      omega
    · exact hbetween.below
    · exact habove
  · have := hbetween.below y hy
    omega

theorem Good.grow_hole (h : Good mm (pre ++ (q, b) :: post)) (hr : r.Paged)
    (hafter : r.mergesAfter b)
    (hpost : ∀ y ∈ post, r.stop ≤ y.2.start) :
    ∃ mm', (∀ fuel, mm.vmaAdjust fuel q b.start r.stop b.pgoff 0#32 = some mm') ∧
      r.Done (pre ++ (q, b) :: post) q mm' := by
  have hbetween := h.ordered.between
  have hlt := hr.lt
  obtain ⟨-, hstop, -⟩ := Request.mergesAfter_spec hafter
  obtain ⟨mm', hm, h'⟩ := h.linked.vmaAdjust_apart hbetween.post hpost (by omega) b.start b.pgoff
  refine ⟨mm', hm, h'.grown [] hbetween hr hafter (Nat.le_refl _) hpost ?_⟩
  intro x _ hx
  rw [if_neg (Nat.not_lt.mpr hx)]
  rfl

theorem Good.grow_next (h : Good mm (pre ++ (q, b) :: (p, c) :: post)) (hr : r.Paged)
    (hafter : r.mergesAfter b) (hanon : b.Shares c) (hc : c.stop = r.stop ∨ r.mergesBefore c) :
    ∃ mm', (∀ fuel, 2 * (pre ++ (q, b) :: (p, c) :: post).length + 1 < fuel →
        mm.vmaAdjust fuel q b.start c.stop b.pgoff 0#32 = some mm') ∧
      r.Done (pre ++ (q, b) :: (p, c) :: post) q mm' := by
  have hbetween := h.ordered.between
  obtain ⟨hfilled, -, hpost⟩ := ordered_cons.mp hbetween.post
  have hcs : c.start < c.stop := hfilled
  obtain ⟨mm', anon, hm, h'⟩ := h.linked.vmaAdjust_remove hanon b.start b.pgoff
  have hs : r.stop ≤ c.stop := by
    rcases hc with hc | hc
    · omega
    · have := (Request.mergesBefore_spec hc).2.1
      omega
  refine ⟨mm', hm, h'.grown [(p, c)] hbetween hr hafter hs hpost ?_⟩
  intro x hx hlo
  rcases hc with hc | hc
  · rw [pageAt_single, if_neg (by omega), if_neg (by omega)]
    rfl
  · exact Request.mergesBefore_range hr hc p hx hlo

theorem Good.grow_two (h : Good mm (pre ++ (q, b) :: (p, c) :: (t, n) :: post)) (hr : r.Paged)
    (hafter : r.mergesAfter b) (hc : c.stop = r.stop) (hbefore : r.mergesBefore n)
    (hbc : b.Shares c) (hbn : b.Shares n) (hcn : c.Shares n) :
    ∃ mm', (∀ fuel, 2 * (pre ++ (q, b) :: (p, c) :: (t, n) :: post).length + 1 < fuel →
        mm.vmaAdjust fuel q b.start n.stop b.pgoff 0#32 = some mm') ∧
      r.Done (pre ++ (q, b) :: (p, c) :: (t, n) :: post) q mm' := by
  have hbetween := h.ordered.between
  obtain ⟨-, hrest, -⟩ := ordered_cons.mp hbetween.post
  obtain ⟨hn, -, hpost⟩ := ordered_cons.mp hrest
  obtain ⟨-, hstart, -⟩ := Request.mergesBefore_spec hbefore
  have hlt : c.stop < n.stop := by
    simp only at hn
    omega
  obtain ⟨mm', anon, hm, h'⟩ := h.linked.vmaAdjust_remove_two hlt hbc hbn hcn b.start b.pgoff
  refine ⟨mm', hm, h'.grown [(p, c), (t, n)] hbetween hr hafter (by omega) hpost ?_⟩
  intro x hx hlo
  rw [pageAt_cons, if_neg (by omega), Request.mergesBefore_range hr hbefore t hx hlo]

theorem shiftStart_up (c : Area) (hle : c.start ≤ s) (hc : pageSize ∣ c.start) (hs : pageSize ∣ s) :
    Mm.shiftStart ((s - c.start) / pageSize : Nat) c = c.upper s := by
  have hmul : (s - c.start) / pageSize * pageSize = s - c.start :=
    Nat.div_mul_cancel (Nat.dvd_sub hs hc)
  have hstart : ((c.start : Int) + ((s - c.start) / pageSize : Nat) * pageSize).toNat = s := by
    omega
  simp only [Mm.shiftStart, Area.upper, hstart, ofInt_natCast, pagesBetween]

theorem shiftStart_down (c : Area) (hle : s ≤ c.start) (hc : pageSize ∣ c.start)
    (hs : pageSize ∣ s) :
    Mm.shiftStart (-((c.start - s) / pageSize : Nat)) c =
      { c with start := s, pgoff := c.pgoff - pagesBetween s c.start } := by
  have hmul : (c.start - s) / pageSize * pageSize = c.start - s :=
    Nat.div_mul_cancel (Nat.dvd_sub hc hs)
  have hstart : ((c.start : Int) + -((c.start - s) / pageSize : Nat) * pageSize).toNat = s := by
    rw [Int.neg_mul, ← Int.natCast_mul]
    omega
  simp only [Mm.shiftStart, hstart, ofInt_neg, ofInt_natCast, pagesBetween, BitVec.sub_eq_add_neg]

theorem Good.grow_shift (h : Good mm (pre ++ (q, b) :: (p, c) :: post)) (hr : r.Paged)
    (hafter : r.mergesAfter b) (hc : c.start = r.addr) (hlt : r.stop < c.stop) :
    ∃ mm', (∀ fuel, mm.vmaAdjust fuel q b.start r.stop b.pgoff 0#32 = some mm') ∧
      r.Done (pre ++ (q, b) :: (p, c) :: post) q mm' := by
  have hbetween := h.ordered.between
  obtain ⟨-, hpost, habove⟩ := ordered_cons.mp hbetween.post
  obtain ⟨-, hstop, -⟩ := Request.mergesAfter_spec hafter
  have hb := hbetween.filled
  have hrlt := hr.lt
  obtain ⟨mm', x, y, hm, h'⟩ := h.linked.vmaAdjust_shift hlt b.start b.pgoff
  have hplan : (Mm.adjustPlan b c q p r.stop).adjustNext =
      ((r.stop - c.start) / pageSize : Nat) := by
    rw [Mm.adjustPlan, if_pos (by omega)]
  have hshift : Mm.shiftStart ((r.stop - c.start) / pageSize : Nat) { c with anonVma := y } =
      Area.upper { c with anonVma := y } r.stop :=
    shiftStart_up { c with anonVma := y } (show c.start ≤ r.stop by omega) (hc ▸ hr.addr) hr.stop
  rw [hplan, hshift] at h'
  have hnew : ∀ z, pageAt [(p, Area.upper { c with anonVma := y } r.stop)] z =
      if r.stop ≤ z ∧ z < c.stop then some (Area.page (Area.upper c r.stop) z) else none :=
    fun z => pageAt_single p _ z
  have hrange : ∀ z, pageSize ∣ z → r.stop ≤ z → (pageAt [(p, c)] z).map Page.plain =
      if z < r.stop then some (r.page z).plain
      else (pageAt [(p, Area.upper { c with anonVma := y } r.stop)] z).map Page.plain := by
    intro z hz hlo
    rw [if_neg (Nat.not_lt.mpr hlo), hnew, pageAt_single]
    by_cases hin : z < c.stop
    · rw [if_pos ⟨by omega, hin⟩, if_pos ⟨hlo, hin⟩]
      simp only [Area.page, Area.upper]
      rw [pagesBetween_add (by omega : c.start ≤ r.stop) hlo hr.stop hz, BitVec.add_assoc]
    · rw [if_neg (fun hcover => hin hcover.2), if_neg (fun hcover => hin hcover.2)]
  have hbelow : ∀ z, z < r.addr → pageAt [(p, c)] z = none ∧
      pageAt [(p, Area.upper { c with anonVma := y } r.stop)] z = none := by
    intro z hz
    rw [hnew, pageAt_single, if_neg (by omega), if_neg (by omega)]
    exact ⟨rfl, rfl⟩
  have hmerged := Request.merged_grow hr hafter hb (Nat.le_refl r.stop) hrange hbelow q x
  refine ⟨mm', hm, h'.done ?_ (hmerged.splice (fun z hz => ?_) post)⟩
  · apply inOrder_two hbetween.pre hpost
    · change b.start < r.stop
      omega
    · exact Nat.le_refl r.stop
    · exact hlt
    · exact hbetween.below
    · exact habove
  · have := hbetween.below z hz
    omega

theorem Good.shrink (h : Good mm (pre ++ (q, b) :: (p, n) :: post)) (hr : r.Paged)
    (hbefore : r.mergesBefore n) (hb : b.start < r.addr) (hstop : b.stop = r.stop) :
    ∃ mm', (∀ fuel, mm.vmaAdjust fuel q b.start r.addr b.pgoff 0#32 = some mm') ∧
      r.Done (pre ++ (q, b) :: (p, n) :: post) p mm' := by
  have hbetween := h.ordered.between
  obtain ⟨hn, hpost, habove⟩ := ordered_cons.mp hbetween.post
  obtain ⟨hlike, hstart, hoff⟩ := Request.mergesBefore_spec hbefore
  have hnlt : n.start < n.stop := hn
  have hlt := hr.lt
  obtain ⟨mm', x, y, hm, h'⟩ := h.linked.vmaAdjust_shift (by omega : r.addr < n.stop) b.start
    b.pgoff
  have hplan : (Mm.adjustPlan b n q p r.addr).adjustNext =
      -((n.start - r.addr) / pageSize : Nat) := by
    rw [Mm.adjustPlan, if_neg (by omega), if_pos (by omega), hstop, hstart]
  have hshift : Mm.shiftStart (-((n.start - r.addr) / pageSize : Nat)) { n with anonVma := y } =
      { n with anonVma := y, start := r.addr, pgoff := n.pgoff - pagesBetween r.addr n.start } :=
    shiftStart_down { n with anonVma := y } (show r.addr ≤ n.start by omega) (hstart ▸ hr.stop)
      hr.addr
  rw [hplan, hshift, hstart] at h'
  have hsplit : pre ++ (q, b.reshape b.start r.addr b.pgoff x) :: (p, { n with
      anonVma := y, start := r.addr, pgoff := n.pgoff - pagesBetween r.addr r.stop }) :: post =
      (pre ++ [(q, b.reshape b.start r.addr b.pgoff x)]) ++ (p, { n with
      anonVma := y, start := r.addr, pgoff := n.pgoff - pagesBetween r.addr r.stop }) :: post := by
    simp
  have hextends : r.Extends (r.settle { n with
      anonVma := y, start := r.addr, pgoff := n.pgoff - pagesBetween r.addr r.stop }) :=
    ⟨rfl, hlike.file, Request.mergesBefore_pgoff hbefore, rfl⟩
  -- The part of the previous VMA in the range is seen as a VMA of its own.
  have hrange : ∀ z, pageSize ∣ z → r.stop ≤ z →
      (pageAt [(q, b.upper r.addr), (p, n)] z).map Page.plain =
        if z < n.stop then some (r.page z).plain else none := by
    intro z hz hlo
    rw [pageAt_cons, if_neg (by simp only [Area.upper]; omega),
      Request.mergesBefore_range hr hbefore p hz hlo]
  have hbelow : ∀ z, z < r.addr → pageAt [(q, b.upper r.addr), (p, n)] z = none := by
    intro z hz
    rw [pageAt_cons, if_neg (by simp only [Area.upper]; omega), pageAt_single, if_neg (by omega)]
  have hmerged := Request.merged_extends hr hextends rfl (show r.stop ≤ n.stop by omega) hrange
    hbelow p
  have hsame : SamePages (pre ++ (q, b) :: (p, n) :: post)
      ((pre ++ [(q, b.reshape b.start r.addr b.pgoff x)]) ++
        ([(q, b.upper r.addr), (p, n)] ++ post)) := by
    intro z hz
    rw [pageAt_split hb (by omega) hr.addr pre _ q q q z hz, List.append_assoc, pageAt_append,
      pageAt_append, singleton_append, pageAt_cons q (b.lower r.addr),
      pageAt_cons q (b.reshape b.start r.addr b.pgoff x)]
    rfl
  rw [hsplit] at h'
  refine ⟨mm', hm, h'.done ?_ ((hmerged.splice (fun z hz => ?_) post).of_same hsame)⟩
  · rw [List.append_assoc]
    apply inOrder_two hbetween.pre hpost
    · exact hb
    · exact Nat.le_refl r.addr
    · change r.addr < n.stop
      omega
    · exact hbetween.below
    · exact habove
  · rcases mem_append.mp hz with hz | hz
    · have := hbetween.below z hz
      omega
    · rw [mem_singleton.mp hz]
      exact Nat.le_refl r.addr

theorem Good.lower_hole (h : Good mm (pre ++ (p, n) :: post)) (hr : r.Paged)
    (hbefore : r.mergesBefore n) (hpre : ∀ y ∈ pre, y.2.stop ≤ r.addr) :
    ∃ mm', (∀ fuel, mm.vmaAdjust fuel p r.addr n.stop (n.pgoff - pagesBetween r.addr r.stop) 0#32 =
        some mm') ∧
      r.Done (pre ++ (p, n) :: post) p mm' := by
  have hbetween := h.ordered.between
  obtain ⟨hlike, hstart, hoff⟩ := Request.mergesBefore_spec hbefore
  have hn := hbetween.filled
  have hlt := hr.lt
  obtain ⟨mm', hm, h'⟩ := h.linked.vmaAdjust_apart hbetween.post hbetween.above (Nat.le_refl _)
    r.addr
    (n.pgoff - pagesBetween r.addr r.stop)
  have hextends : r.Extends (r.settle (n.reshape r.addr n.stop
      (n.pgoff - pagesBetween r.addr r.stop) n.anonVma)) :=
    ⟨rfl, hlike.file, Request.mergesBefore_pgoff hbefore, rfl⟩
  have hbelow : ∀ x, x < r.addr → pageAt [(p, n)] x = none := by
    intro x hx
    rw [pageAt_single, if_neg (by omega)]
  have hmerged := Request.merged_extends hr hextends rfl (by simp; omega)
    (fun x => Request.mergesBefore_range hr hbefore p) hbelow p
  refine ⟨mm', hm, h'.done ?_ (hmerged.splice hpre post)⟩
  apply inOrder_one hbetween.pre hbetween.post
  · change r.addr < n.stop
    omega
  · exact hpre
  · exact hbetween.above

theorem Good.lower_next (h : Good mm (pre ++ (p, c) :: (t, n) :: post)) (hr : r.Paged)
    (hbefore : r.mergesBefore n) (hc : c.start = r.addr) (hcstop : c.stop = r.stop)
    (hfile : c.file = r.file) (hanon : c.Shares n) :
    ∃ mm', (∀ fuel, 2 * (pre ++ (p, c) :: (t, n) :: post).length + 1 < fuel →
        mm.vmaAdjust fuel p r.addr n.stop (n.pgoff - pagesBetween r.addr r.stop) 0#32 = some mm') ∧
      r.Done (pre ++ (p, c) :: (t, n) :: post) p mm' := by
  have hbetween := h.ordered.between
  obtain ⟨hn, hpost, habove⟩ := ordered_cons.mp hbetween.post
  obtain ⟨-, hstart, hoff⟩ := Request.mergesBefore_spec hbefore
  have hlt := hr.lt
  have hnlt : n.start < n.stop := hn
  obtain ⟨mm', anon, hm, h'⟩ := h.linked.vmaAdjust_remove hanon r.addr
    (n.pgoff - pagesBetween r.addr r.stop)
  have hextends : r.Extends (r.settle (c.reshape r.addr n.stop
      (n.pgoff - pagesBetween r.addr r.stop) anon)) :=
    ⟨rfl, hfile, Request.mergesBefore_pgoff hbefore, rfl⟩
  have hrange : ∀ x, pageSize ∣ x → r.stop ≤ x → (pageAt [(p, c), (t, n)] x).map Page.plain =
      if x < n.stop then some (r.page x).plain else none := by
    intro x hx hlo
    rw [pageAt_cons, if_neg (by omega), Request.mergesBefore_range hr hbefore t hx hlo]
  have hbelow : ∀ x, x < r.addr → pageAt [(p, c), (t, n)] x = none := by
    intro x hx
    rw [pageAt_cons, if_neg (by omega), pageAt_single, if_neg (by omega)]
  have hmerged := Request.merged_extends hr hextends rfl (by simp; omega) hrange hbelow p
  refine ⟨mm', hm, h'.done ?_ (hmerged.splice (fun y hy => hc ▸ hbetween.below y hy) post)⟩
  apply inOrder_one hbetween.pre hpost
  · change r.addr < n.stop
    omega
  · exact fun y hy => hc ▸ hbetween.below y hy
  · exact habove

end

def mergeRest (post : List (Ptr × Area)) (stop : Nat) : List (Ptr × Area) :=
  match post with
  | [] => []
  | y :: post' => if y.2.stop = stop then post' else y :: post'

section
variable (h : Linked mm (pre ++ post))
include h

theorem Linked.lookup_first :
    ∃ o, mm.lookup (first post 0#32) = some o ∧ o.map Vma.area = post.head?.map Prod.snd := by
  cases post with
  | nil => exact ⟨none, rfl, rfl⟩
  | cons y post =>
    have hy : Linked mm (pre ++ (y.1, y.2) :: post) := h
    refine ⟨some ⟨y.2, first post 0#32⟩, ?_, rfl⟩
    rw [Mm.lookup, first_cons, if_neg (h.nonnull (by simp)), hy.load]
    rfl

theorem Linked.lookup_last :
    ∃ o, mm.lookup (last pre) = some o ∧ o.map Vma.area = pre.getLast?.map Prod.snd := by
  rcases eq_nil_or_concat' pre with rfl | ⟨pre, ⟨q, b⟩, rfl⟩
  · exact ⟨none, rfl, rfl⟩
  · have hq : Linked mm (pre ++ (q, b) :: post) := by simpa using h
    refine ⟨some ⟨b, first post 0#32⟩, ?_, by simp⟩
    rw [Mm.lookup, last_concat, if_neg (hq.nonnull (by simp)), hq.load]
    rfl

theorem Linked.mergeNext (stop : Nat) :
    mm.mergeNext (first post 0#32) stop = some (first (mergeRest post stop) 0#32) := by
  cases post with
  | nil => rfl
  | cons y post =>
    have hy : Linked mm (pre ++ (y.1, y.2) :: post) := h
    rw [Mm.mergeNext, Mm.lookup, first_cons, if_neg (h.nonnull (by simp)), hy.load, mergeRest]
    by_cases hstop : y.2.stop = stop
    · simp [hstop]
    · simp [hstop]

theorem Linked.vmaMerge_eq (r : Request)
    (hspecial : r.flags &&& VM_SPECIAL = 0#32) (fuel : Nat) :
    mm.vmaMerge fuel (last pre) r = mm.carryOut fuel (last pre) (first post 0#32) r.addr
      (r.mergePlan (pre.getLast?.map Prod.snd) ((mergeRest post r.stop).head?.map Prod.snd)) := by
  obtain ⟨o, hlast, ho⟩ := h.lookup_last
  obtain ⟨front, hfront⟩ : ∃ front, pre ++ post = front ++ mergeRest post r.stop := by
    cases post with
    | nil => exact ⟨pre, rfl⟩
    | cons y post =>
      by_cases hstop : y.2.stop = r.stop
      · exact ⟨pre ++ [y], by simp [mergeRest, hstop]⟩
      · exact ⟨pre, by simp [mergeRest, hstop]⟩
  obtain ⟨o', hnext, ho'⟩ := (hfront ▸ h : Linked mm (front ++ mergeRest post r.stop)).lookup_first
  simp [Mm.vmaMerge, hspecial, h.follower, h.mergeNext, hlast, hnext, ho, ho']

end

/-- The range is a hole right after `prev`, or a part of one VMA that maps the file at the offset,
and whose anon_vma is given if the range starts with it. -/
inductive MergeCall (as : List (Ptr × Area)) (prev : Ptr) (r : Request) : Prop where
  | hole : as = pre ++ post → prev = last pre → (∀ y ∈ pre, y.2.stop ≤ r.addr) →
      (∀ y ∈ post, r.stop ≤ y.2.start) → MergeCall as prev r
  | within : as = pre ++ (prev, a) :: post → a.start < r.addr → r.stop ≤ a.stop → a.file = r.file →
      a.pgoff + pagesBetween a.start r.addr = r.pgoff → MergeCall as prev r
  | start : as = pre ++ (p, a) :: post → prev = last pre → a.start = r.addr → r.stop ≤ a.stop →
      a.file = r.file → a.pgoff = r.pgoff → a.anonVma = r.anonVma → MergeCall as prev r

def Request.Returns (r : Request) (mm : Mm) (as : List (Ptr × Area))
    (run : Nat → Option (Ptr × Mm)) : Prop :=
  ∃ ret mm', (∀ fuel, 2 * as.length + 1 < fuel → run fuel = some (ret, mm')) ∧
    (ret = 0#32 → mm' = mm) ∧ (ret ≠ 0#32 → r.Done as ret mm')

section

variable {r : Request}

theorem Request.Returns.nothing (h : ∀ fuel, run fuel = some (0#32, mm)) : r.Returns mm as run :=
  ⟨0#32, mm, fun fuel _ => h fuel, fun _ => rfl, fun hne => absurd rfl hne⟩

theorem Request.Returns.merged (hp : p ≠ 0#32)
    (h : ∃ mm', (∀ fuel, 2 * as.length + 1 < fuel → run fuel = some (p, mm')) ∧ r.Done as p mm') :
    r.Returns mm as run := by
  obtain ⟨mm', hrun, hdone⟩ := h
  exact ⟨p, mm', hrun, fun h0 => absurd h0 hp, fun _ => hdone⟩

theorem Linked.carryOut_grow (h : Linked mm (pre ++ (q, b) :: post))
    (hm : mm.vmaAdjust fuel q b.start s b.pgoff 0#32 = some mm') (area : Ptr) :
    mm.carryOut fuel q area addr (.grow s) = some (q, mm') := by
  simp only [Mm.carryOut, h.load, bind_eq_bind, bind_some, hm]
  rfl

theorem exists_last (h : pre.getLast?.map Prod.snd = some b) :
    ∃ pre₀ q, pre = pre₀ ++ [(q, b)] := by
  obtain ⟨x, hx, rfl⟩ := map_eq_some_iff.mp h
  obtain ⟨pre₀, rfl⟩ := getLast?_eq_some_iff.mp hx
  exact ⟨pre₀, x.1, rfl⟩

theorem exists_first (h : post.head?.map Prod.snd = some n) :
    ∃ p post', post = (p, n) :: post' := by
  obtain ⟨x, hx, rfl⟩ := map_eq_some_iff.mp h
  obtain ⟨post', rfl⟩ := head?_eq_some_iff.mp hx
  exact ⟨x.1, post', rfl⟩

theorem Good.merge_hole (h : Good mm (pre ++ post)) (hr : r.Paged)
    (hpre : ∀ y ∈ pre, y.2.stop ≤ r.addr) (hpost : ∀ y ∈ post, r.stop ≤ y.2.start) :
    r.Returns mm (pre ++ post) fun fuel => mm.carryOut fuel (last pre) (first post 0#32) r.addr
      (r.mergePlan (pre.getLast?.map Prod.snd) ((mergeRest post r.stop).head?.map Prod.snd)) := by
  have hrest : mergeRest post r.stop = post := by
    cases post with
    | nil => rfl
    | cons y post =>
      have hy : r.stop ≤ y.2.start := hpost y (by simp)
      have hfilled : y.2.start < y.2.stop := h.ordered.filled y (by simp)
      rw [mergeRest, if_neg (by omega)]
  rw [hrest]
  have hplan := r.mergePlan_spec (pre.getLast?.map Prod.snd) (post.head?.map Prod.snd)
  generalize r.mergePlan (pre.getLast?.map Prod.snd) (post.head?.map Prod.snd) = plan at hplan
  cases hplan with
  | none => exact .nothing fun _ => rfl
  | grow hprev hafter hs =>
    obtain ⟨pre, q, rfl⟩ := exists_last hprev
    rw [List.append_assoc] at h ⊢
    have hq : q ≠ 0#32 := h.linked.nonnull (by simp)
    rw [last_concat]
    refine .merged hq ?_
    rcases hs with rfl | ⟨n, hnext, hbefore, hanon, rfl⟩
    · obtain ⟨mm', hm, hdone⟩ := h.grow_hole hr hafter hpost
      exact ⟨mm', fun fuel _ => h.linked.carryOut_grow (hm fuel) _, hdone⟩
    · obtain ⟨p, post, rfl⟩ := exists_first hnext
      obtain ⟨mm', hm, hdone⟩ := h.grow_next hr hafter hanon (.inr hbefore)
      exact ⟨mm', fun fuel hfuel => h.linked.carryOut_grow (hm fuel hfuel) _, hdone⟩
  | @shrink b _ hprev _ hlt _ =>
    obtain ⟨pre, q, rfl⟩ := exists_last hprev
    exact absurd (hpre (q, b) (by simp)) (Nat.not_le.mpr hlt)
  | lower hnext hbefore hbelow =>
    obtain ⟨p, post, rfl⟩ := exists_first hnext
    have hp : p ≠ 0#32 := h.linked.nonnull (by simp)
    refine .merged hp ?_
    obtain ⟨mm', hm, hdone⟩ := h.lower_hole hr hbefore hpre
    refine ⟨mm', fun fuel _ => ?_, hdone⟩
    simp only [Mm.carryOut, first_cons, hm fuel]
    rfl

theorem Good.merge_within (h : Good mm (pre ++ (q, b) :: post)) (hr : r.Paged)
    (hb : b.start < r.addr) (hstop : r.stop ≤ b.stop) :
    r.Returns mm (pre ++ (q, b) :: post) fun fuel => mm.carryOut fuel q (first post 0#32) r.addr
      (r.mergePlan (some b) ((mergeRest post r.stop).head?.map Prod.snd)) := by
  have hbetween := h.ordered.between
  have hlt := hr.lt
  have hrest : mergeRest post r.stop = post := by
    cases post with
    | nil => rfl
    | cons y post =>
      have hy : b.stop ≤ y.2.start := hbetween.above y (by simp)
      have hfilled : y.2.start < y.2.stop := hbetween.post.filled y (by simp)
      rw [mergeRest, if_neg (by omega)]
  rw [hrest]
  have hplan := r.mergePlan_spec (some b) (post.head?.map Prod.snd)
  generalize r.mergePlan (some b) (post.head?.map Prod.snd) = plan at hplan
  cases hplan with
  | none => exact .nothing fun _ => rfl
  | grow hprev hafter hs =>
    obtain rfl := some.inj hprev
    have := (Request.mergesAfter_spec hafter).2.1
    omega
  | @shrink _ n hprev hnext hlt hbefore =>
    obtain ⟨p, post, rfl⟩ := exists_first hnext
    have hn : b.stop ≤ n.start := hbetween.above (p, n) (by simp)
    have hstart := (Request.mergesBefore_spec hbefore).2.1
    have hp : p ≠ 0#32 := h.linked.nonnull (by simp)
    refine .merged hp ?_
    obtain ⟨mm', hm, hdone⟩ := h.shrink hr hbefore hb (by omega)
    refine ⟨mm', fun fuel _ => ?_, hdone⟩
    simp only [Mm.carryOut, h.linked.load, hm fuel, bind_eq_bind, bind_some]
    rfl
  | lower hnext hbefore hbelow =>
    have := hbelow b rfl
    omega

theorem Good.merge_start (h : Good mm (pre ++ (p, c) :: post)) (hr : r.Paged)
    (hc : c.start = r.addr) (hstop : r.stop ≤ c.stop) (hfile : c.file = r.file)
    (hanon : c.anonVma = r.anonVma) :
    r.Returns mm (pre ++ (p, c) :: post) fun fuel => mm.carryOut fuel (last pre) p r.addr
      (r.mergePlan (pre.getLast?.map Prod.snd)
        ((mergeRest ((p, c) :: post) r.stop).head?.map Prod.snd)) := by
  have hbetween := h.ordered.between
  have hlt := hr.lt
  have hplan := r.mergePlan_spec (pre.getLast?.map Prod.snd)
    ((mergeRest ((p, c) :: post) r.stop).head?.map Prod.snd)
  generalize r.mergePlan (pre.getLast?.map Prod.snd)
    ((mergeRest ((p, c) :: post) r.stop).head?.map Prod.snd) = plan at hplan
  -- A VMA merged after the range is not the one of the range, so that one ends with it.
  have hnext : ∀ n, (mergeRest ((p, c) :: post) r.stop).head?.map Prod.snd = some n →
      r.mergesBefore n → c.stop = r.stop ∧ ∃ t post', post = (t, n) :: post' := by
    intro n hn hbefore
    by_cases hcs : c.stop = r.stop
    · rw [mergeRest, if_pos hcs] at hn
      exact ⟨hcs, exists_first hn⟩
    · rw [mergeRest, if_neg hcs] at hn
      obtain rfl : c = n := some.inj hn
      have := (Request.mergesBefore_spec hbefore).2.1
      omega
  cases hplan with
  | none => exact .nothing fun _ => rfl
  | grow hprev hafter hs =>
    obtain ⟨pre, q, rfl⟩ := exists_last hprev
    rw [List.append_assoc] at h ⊢
    have hq : q ≠ 0#32 := h.linked.nonnull (by simp)
    rw [last_concat]
    refine .merged hq ?_
    have hbc := Request.mergesAfter_anon hafter
    rw [← hanon] at hbc
    rcases hs with rfl | ⟨n, hn, hbefore, hbn, rfl⟩
    · by_cases hcs : c.stop = r.stop
      · obtain ⟨mm', hm, hdone⟩ := h.grow_next hr hafter (by unfold Area.Shares; omega) (.inl hcs)
        rw [hcs] at hm
        exact ⟨mm', fun fuel hfuel => h.linked.carryOut_grow (hm fuel hfuel) _, hdone⟩
      · obtain ⟨mm', hm, hdone⟩ := h.grow_shift hr hafter hc (by omega)
        exact ⟨mm', fun fuel _ => h.linked.carryOut_grow (hm fuel) _, hdone⟩
    · obtain ⟨hcs, t, post, rfl⟩ := hnext n hn hbefore
      have hcn := Request.mergesBefore_anon hbefore
      rw [← hanon] at hcn
      obtain ⟨mm', hm, hdone⟩ := h.grow_two hr hafter hcs hbefore (by unfold Area.Shares; omega)
        hbn hcn
      exact ⟨mm', fun fuel hfuel => h.linked.carryOut_grow (hm fuel hfuel) _, hdone⟩
  | @shrink b _ hprev _ hlt' _ =>
    obtain ⟨pre, q, rfl⟩ := exists_last hprev
    have : b.stop ≤ c.start := hbetween.below (q, b) (by simp)
    omega
  | lower hn hbefore hbelow =>
    obtain ⟨hcs, t, post, rfl⟩ := hnext _ hn hbefore
    have hp : p ≠ 0#32 := h.linked.nonnull (by simp)
    refine .merged hp ?_
    have hcn := Request.mergesBefore_anon hbefore
    rw [← hanon] at hcn
    obtain ⟨mm', hm, hdone⟩ := h.lower_next hr hbefore hc hcs hfile hcn
    refine ⟨mm', fun fuel hfuel => ?_, hdone⟩
    simp only [Mm.carryOut, hm fuel hfuel]
    rfl

end

theorem vma_merge_transparent {mm : Mm} {as : List (Ptr × Area)} {prev : Ptr} {r : Request}
    (h : Good mm as) (hr : r.Paged) (hcall : MergeCall as prev r) :
    ∃ ret mm', (∀ fuel, 2 * as.length + 1 < fuel → mm.vmaMerge fuel prev r = some (ret, mm')) ∧
      (ret = 0#32 → mm' = mm) ∧
      (ret ≠ 0#32 → ∃ mm'' as', mm'.modifyArea ret (fun a => { a with flags := r.flags }) =
        some mm'' ∧
        Good mm'' as' ∧
        (∀ x, pageSize ∣ x → r.addr ≤ x → x < r.stop →
          pageAt as' x = some ⟨r.file, r.pgoff + pagesBetween r.addr x, r.flags⟩) ∧
        ∀ x, pageSize ∣ x → ¬ (r.addr ≤ x ∧ x < r.stop) →
          (pageAt as' x).map Page.plain = (pageAt as x).map Page.plain) := by
  have hreturns : r.Returns mm as fun fuel => mm.vmaMerge fuel prev r := by
    by_cases hspecial : r.flags &&& VM_SPECIAL = 0#32
    swap
    · exact .nothing fun fuel => by rw [Mm.vmaMerge, if_pos hspecial]; rfl
    cases hcall with
    | hole hlist hprev hpre hpost =>
      subst hlist hprev
      simpa only [h.linked.vmaMerge_eq r hspecial] using h.merge_hole hr hpre hpost
    | @within pre a post hlist hstart hstop hfile hoff =>
      subst hlist
      have hlist : pre ++ (prev, a) :: post = (pre ++ [(prev, a)]) ++ post := by simp
      have heq := Linked.vmaMerge_eq (hlist ▸ h.linked) r hspecial
      simp only [last_concat, getLast?_append, getLast?_singleton, some_or, map_some] at heq
      simpa only [heq] using h.merge_within hr hstart hstop
    | start hlist hprev hstart hstop hfile hoff hanon =>
      subst hlist hprev
      simpa only [h.linked.vmaMerge_eq r hspecial, first_cons] using
        h.merge_start hr hstart hstop hfile hanon
  obtain ⟨ret, mm', hrun, hnull, hdone⟩ := hreturns
  refine ⟨ret, mm', hrun, hnull, fun hne => ?_⟩
  obtain ⟨mm'', as', hset, hgood, hmerged⟩ := hdone hne
  exact ⟨mm'', as', hset, hgood, hmerged.inside, hmerged.outside⟩

def fourthPage : Request := ⟨0x4000, 0x5000, 0x73#32, 0, 1, 3#32, 0⟩

/-- The VMA grows over the page behind it. -/
theorem vma_merge_transparent_after :
    ∃ mm', (∀ fuel, 3 < fuel → oneArea.vmaMerge fuel 4#32 fourthPage = some (4#32, mm')) ∧
      ∃ mm'' as', mm'.modifyArea 4#32 (fun a => { a with flags := 0x73#32 }) = some mm'' ∧
        Good mm'' as' ∧
        (∀ x, pageSize ∣ x → 0x4000 ≤ x → x < 0x5000 →
          pageAt as' x = some ⟨1, 3#32 + pagesBetween 0x4000 x, 0x73#32⟩) ∧
        ∀ x, pageSize ∣ x → ¬ (0x4000 ≤ x ∧ x < 0x5000) →
          (pageAt as' x).map Page.plain = (pageAt [(4#32, threePages)] x).map Page.plain := by
  obtain ⟨ret, mm', hrun, -, hmerged⟩ :=
    vma_merge_transparent oneArea_good (r := fourthPage) ⟨by decide, by decide, by decide⟩
      (.hole (append_nil _).symm rfl (by simp [threePages, fourthPage]) (by simp))
  have hret : some 4#32 = some ret := congrArg (Option.map Prod.fst) (hrun 4 (by decide))
  obtain rfl := some.inj hret
  exact ⟨mm', hrun, hmerged (by decide)⟩

end SpicaKernel.Mmap
