import SpicaKernel.MmapSearch

namespace SpicaKernel.Mmap
open RedBlack RbTree IntervalMap Option Function
set_option autoImplicit true

theorem pagesBetween_add (hab : a ≤ b) (hbc : b ≤ c) (hb : pageSize ∣ b) (hc : pageSize ∣ c) :
    pagesBetween a c = pagesBetween a b + pagesBetween b c := by
  unfold pagesBetween pageSize at *
  rw [← BitVec.ofNat_add]
  congr 1
  omega

def SamePages (as bs : List (Ptr × Area)) : Prop := ∀ x, pageSize ∣ x → pageAt as x = pageAt bs x

theorem SamePages.trans (h : SamePages as bs) (h' : SamePages bs cs) : SamePages as cs :=
  fun x hx => (h x hx).trans (h' x hx)

theorem pageAt_append (as bs : List (Ptr × Area)) (x : Nat) :
    pageAt (as ++ bs) x = (pageAt as x).or (pageAt bs x) :=
  valueAt_append _ _ _ as bs x

theorem pageAt_cons (p : Ptr) (a : Area) (as : List (Ptr × Area)) (x : Nat) :
    pageAt ((p, a) :: as) x = if a.start ≤ x ∧ x < a.stop then some (a.page x) else pageAt as x :=
  valueAt_cons _ _ _ (p, a) as x

def Area.lower (a : Area) (addr : Nat) : Area := { a with stop := addr }

def Area.upper (a : Area) (addr : Nat) : Area :=
  { a with start := addr, pgoff := a.pgoff + pagesBetween a.start addr }

theorem pageAt_split (hlo : a.start < addr) (hhi : addr < a.stop) (haddr : pageSize ∣ addr)
    (pre post : List (Ptr × Area)) (p q r : Ptr) :
    SamePages (pre ++ (p, a) :: post) (pre ++ (q, a.lower addr) :: (r, a.upper addr) :: post) := by
  intro x hx
  rw [pageAt_append, pageAt_append, pageAt_cons, pageAt_cons, pageAt_cons]
  by_cases hbelow : x < addr
  · by_cases hin : a.start ≤ x
    · rw [if_pos ⟨hin, by omega⟩, if_pos ⟨hin, hbelow⟩]
      rfl
    · rw [if_neg (by omega), if_neg (by simp only [Area.lower]; omega),
        if_neg (by simp only [Area.upper]; omega)]
  · rw [if_neg (show ¬ ((a.lower addr).start ≤ x ∧ x < (a.lower addr).stop) by
      simp only [Area.lower]; omega)]
    by_cases hin : x < a.stop
    · rw [if_pos ⟨by omega, hin⟩, if_pos ⟨by simp only [Area.upper]; omega, hin⟩]
      simp only [Area.page, Area.upper]
      rw [pagesBetween_add (Nat.le_of_lt hlo) (by omega : addr ≤ x) haddr hx, BitVec.add_assoc]
    · rw [if_neg (by omega), if_neg (by simp only [Area.upper]; omega)]

theorem InOrder.split (h : InOrder (pre ++ (p, a) :: post)) (hlo : a.start < addr)
    (hhi : addr < a.stop) (q r : Ptr) :
    InOrder (pre ++ (q, a.lower addr) :: (r, a.upper addr) :: post) := by
  obtain ⟨hpre, hrest, hbelow⟩ := ordered_append.mp h
  obtain ⟨-, hpost, habove⟩ := ordered_cons.mp hrest
  have hmid : InOrder [(q, a.lower addr), (r, a.upper addr)] := by
    refine ordered_cons.mpr ⟨hlo, ordered_cons.mpr ⟨hhi, ⟨.nil, by simp⟩, by simp⟩, ?_⟩
    simp [Area.lower, Area.upper]
  have hwithin : ∀ x ∈ [(q, a.lower addr), (r, a.upper addr)],
      a.start ≤ x.2.start ∧ x.2.stop ≤ a.stop := by
    simp only [List.mem_cons, List.not_mem_nil, or_false, forall_eq_or_imp, forall_eq, Area.lower,
      Area.upper]
    omega
  have := ordered_splice hpre hmid hpost (fun x hx => hbelow x hx (p, a) (by simp)) hwithin habove
    (show a.start ≤ a.stop by omega)
  simpa using this

theorem Linked.install (h : Linked mm as) (hp : p ∉ as.map Prod.fst) (v : Vma) (n : RbNode) :
    Linked (mm.install p v n) as := by
  obtain ⟨t, hrep, hv, ht⟩ := h.tree
  refine ⟨h.head, h.list.update hp _, ⟨t, ⟨hrep.root, hrep.links.congr ?_, hrep.addresses⟩, hv, ht⟩,
    h.count, h.cache⟩
  intro q hq
  refine Rb.put_nodes_of_ne _ _ fun he => hp ?_
  rw [← he, ← ht]
  exact hq

def SplitEnv.Fresh (env : Mm.SplitEnv) (as : List (Ptr × Area)) : Prop :=
  ∀ p, env.alloc = some p → Aligned p ∧ p ≠ 0#32 ∧ p ∉ as.map Prod.fst

/-- The two VMAs a split leaves: the old structure keeps the part that is not new. -/
def splitPair (p new : Ptr) (a : Area) (addr : Nat) (newBelow : Bool) : List (Ptr × Area) :=
  if newBelow then [(new, a.lower addr), (p, a.upper addr)]
  else [(p, a.lower addr), (new, a.upper addr)]

theorem Mm.modifyArea_eq_put (h : Mm.modifyArea mm p f = some mm') : ∃ v, mm' = mm.put p v := by
  unfold Mm.modifyArea at h
  cases hload : mm.load p with
  | none =>
    rw [hload] at h
    cases h
  | some v =>
    rw [hload] at h
    exact ⟨_, (some.inj h).symm⟩

theorem Linked.vmaAdjust_insert (h : Linked mm (pre ++ (p, a) :: post))
    (hnew : NewVma mm (pre ++ (p, a) :: post) new b)
    (hlists : pre ++ (p, a.reshape start stop pgoff a.anonVma) :: post = front ++ back)
    (hord : InOrder (front ++ (new, b) :: back)) :
    ∃ mm', (∀ fuel, (front ++ back).length < fuel →
        mm.vmaAdjust fuel p start stop pgoff new = some mm') ∧
      Linked mm' (front ++ (new, b) :: back) := by
  obtain ⟨mm₁, hm₁, hput, h₁⟩ := h.adjustOnce_plain (first post 0#32)
  obtain ⟨v, rfl⟩ := Mm.modifyArea_eq_put hput
  have hne : new ≠ p := fun he => hnew.apart (by simp [he])
  have hptrs : (front ++ back).map Prod.fst = (pre ++ (p, a) :: post).map Prod.fst := by
    rw [← hlists]
    simp
  obtain ⟨n, hn⟩ := hnew.vma
  have hnew₁ : NewVma (mm.put p v) (front ++ back) new b :=
    ⟨⟨n, by rw [← hn]; exact update_of_ne hne _ _⟩, hnew.node, hnew.aligned, hnew.nonnull,
      hptrs ▸ hnew.apart⟩
  rw [hlists] at h₁
  obtain ⟨mm₂, hm₂, h₂⟩ := h₁.insertVmStruct hnew₁ hord
  refine ⟨mm₂, fun fuel hfuel => ?_, h₂⟩
  have hcond : ¬ (first post 0#32 ≠ 0#32 ∧ new = 0#32) := fun hc => hnew.nonnull hc.2
  simp only [Mm.vmaAdjust, h.load, bind_eq_bind, bind_some]
  rw [if_neg hcond, hm₁, if_pos hnew.nonnull, hm₂ fuel hfuel]

theorem Linked.splitAdjust (h : Linked mm (pre ++ (p, a) :: post))
    (hord : InOrder (pre ++ (p, a) :: post))
    (hlo : a.start < addr) (hhi : addr < a.stop) (newBelow : Bool)
    (hnew : NewVma mm (pre ++ (p, a) :: post) new (Mm.splitArea a addr newBelow)) :
    ∃ mm', (∀ fuel, (pre ++ (p, a) :: post).length < fuel →
        mm.splitAdjust fuel p new a addr newBelow = some mm') ∧
      Good mm' (pre ++ splitPair p new a addr newBelow ++ post) := by
  cases newBelow with
  | true =>
    have hord' := hord.split hlo hhi new p
    have hlists : pre ++ (p, a.reshape addr a.stop (a.pgoff + pagesBetween a.start addr)
        a.anonVma) :: post = pre ++ (p, a.upper addr) :: post := rfl
    obtain ⟨mm', hm, h'⟩ := h.vmaAdjust_insert hnew hlists hord'
    refine ⟨mm', fun fuel hfuel => hm fuel (by simpa using hfuel), ?_⟩
    rw [show Mm.splitArea a addr true = a.lower addr from rfl] at h'
    simpa [splitPair] using Good.mk h' hord'
  | false =>
    have hord' := hord.split hlo hhi p new
    have hlists : pre ++ (p, a.reshape a.start addr a.pgoff a.anonVma) :: post =
        (pre ++ [(p, a.lower addr)]) ++ post := by
      rw [List.append_assoc]
      rfl
    have hlist : (pre ++ [(p, a.lower addr)]) ++ (new, a.upper addr) :: post =
        pre ++ (p, a.lower addr) :: (new, a.upper addr) :: post := by simp
    obtain ⟨mm', hm, h'⟩ := h.vmaAdjust_insert hnew hlists (hlist ▸ hord')
    refine ⟨mm', fun fuel hfuel => hm fuel (by simpa using hfuel), ?_⟩
    simpa [splitPair] using Good.mk (hlist ▸ h') hord'

theorem Good.splitVma (h : Good mm (pre ++ (p, a) :: post)) (hlo : a.start < addr)
    (hhi : addr < a.stop) (henv : SplitEnv.Fresh env (pre ++ (p, a) :: post)) (newBelow : Bool) :
    ∃ e mm', (∀ fuel, (pre ++ (p, a) :: post).length < fuel →
        mm.splitVma fuel env p addr newBelow = some (e, mm')) ∧
      (e ≠ 0 ∧ mm' = mm ∨ e = 0 ∧ ∃ new, env.alloc = some new ∧
          Good mm' (pre ++ splitPair p new a addr newBelow ++ post)) := by
  obtain ⟨t, hrep, -, ht⟩ := h.linked.tree
  obtain ⟨node, hnode⟩ : ∃ node, mm.rb.load p = some node := by
    obtain ⟨fs, c, l, r, rfl⟩ := Tree.exists_fill (show p ∈ t.toList by simp [ht])
    obtain ⟨-, n, hn, -⟩ := node_children hrep
    exact ⟨n, hn⟩
  by_cases hhuge : env.hugeMisaligned
  · exact ⟨-EINVAL, mm, fun fuel _ => by simp [Mm.splitVma, hhuge], .inl ⟨by decide, rfl⟩⟩
  by_cases hcount : env.maxMapCount ≤ mm.mapCount
  · exact ⟨-ENOMEM, mm, fun fuel _ => by simp [Mm.splitVma, hhuge, hcount], .inl ⟨by decide, rfl⟩⟩
  cases halloc : env.alloc with
  | none =>
    exact ⟨-ENOMEM, mm, fun fuel _ => by simp [Mm.splitVma, hhuge, halloc], .inl ⟨by decide, rfl⟩⟩
  | some new =>
    obtain ⟨haligned, hnonnull, hfresh⟩ := henv new halloc
    cases hpol : env.mpolError with
    | some e =>
      refine ⟨-e.val, mm, fun fuel _ => ?_, .inl ⟨by have := e.2; omega, rfl⟩⟩
      simp [Mm.splitVma, hhuge, hcount, halloc, hpol, h.linked.load, hnode]
    | none =>
      have hnew : NewVma (mm.install new ⟨Mm.splitArea a addr newBelow, first post 0#32⟩ node)
          (pre ++ (p, a) :: post) new (Mm.splitArea a addr newBelow) :=
        ⟨⟨first post 0#32, update_self new _ mm.vmas⟩, by simp [Mm.install],
          haligned, hnonnull, hfresh⟩
      obtain ⟨mm', hm, h'⟩ := (h.linked.install hfresh _ node).splitAdjust h.ordered hlo hhi
        newBelow hnew
      refine ⟨0, mm', fun fuel hfuel => ?_, .inr ⟨rfl, new, rfl, h'⟩⟩
      simp [Mm.splitVma, hhuge, hcount, halloc, hpol, h.linked.load, hnode, hm fuel hfuel]

open List

structure SplitTo (env : Mm.SplitEnv) (as bs : List (Ptr × Area)) : Prop where
  pages : SamePages as bs
  size : bs.length ≤ as.length + 1
  addresses : ∀ q ∈ bs.map Prod.fst, q ∈ as.map Prod.fst ∨ env.alloc = some q

theorem SplitTo.refl (env : Mm.SplitEnv) (as : List (Ptr × Area)) : SplitTo env as as :=
  ⟨fun _ _ => rfl, by omega, fun _ h => .inl h⟩

theorem SplitTo.pair (halloc : env.alloc = some new) (hlo : a.start < addr) (hhi : addr < a.stop)
    (haddr : pageSize ∣ addr) (pre post : List (Ptr × Area)) (p : Ptr) (newBelow : Bool) :
    SplitTo env (pre ++ (p, a) :: post) (pre ++ splitPair p new a addr newBelow ++ post) := by
  cases newBelow with
  | true =>
    refine ⟨?_, by simp [splitPair]; omega, ?_⟩
    · simpa [splitPair] using pageAt_split hlo hhi haddr pre post p new p
    · simp only [splitPair, halloc, map_append, map_cons, mem_append, mem_cons, if_true]
      tauto
  | false =>
    refine ⟨?_, by simp [splitPair]; omega, ?_⟩
    · simpa [splitPair] using pageAt_split hlo hhi haddr pre post p p new
    · simp only [splitPair, halloc, map_append, map_cons, mem_append,
        mem_cons, Bool.false_eq_true, if_false]
      tauto

theorem Good.splitFirst (h : Good mm (pre ++ (p, a) :: post))
    (hcut : Cut start pre ((p, a) :: post))
    (hstart : pageSize ∣ start) (henv : SplitEnv.Fresh env (pre ++ (p, a) :: post))
    (hbelow : a.start < stop) (hlt : start < stop) :
    ∃ e prev mm', (∀ fuel, (pre ++ (p, a) :: post).length < fuel →
        mm.splitFirst fuel env p (last pre) start = some (e, prev, mm')) ∧
      (e ≠ 0 ∧ mm' = mm ∨ e = 0 ∧ ∃ pre' x post', prev = last pre' ∧ Good mm' (pre' ++ x :: post') ∧
          SplitTo env (pre ++ (p, a) :: post) (pre' ++ x :: post') ∧
          (∀ y ∈ pre', y.2.stop ≤ start) ∧ start ≤ x.2.start ∧ x.2.start < stop) := by
  by_cases hsplit : a.start < start
  · have hhi : start < a.stop := hcut.above (p, a) (by simp)
    obtain ⟨e, mm', hm, hres⟩ := h.splitVma hsplit hhi henv false
    refine ⟨e, p, mm', fun fuel hfuel => ?_, ?_⟩
    · simp [Mm.splitFirst, h.linked.load, hsplit, hm fuel hfuel]
    · rcases hres with herr | ⟨he, new, halloc, h'⟩
      · exact .inl herr
      · have hlist : pre ++ splitPair p new a start false ++ post =
            (pre ++ [(p, a.lower start)]) ++ (new, a.upper start) :: post := by simp [splitPair]
        refine .inr ⟨he, pre ++ [(p, a.lower start)], (new, a.upper start), post, by simp,
          hlist ▸ h', hlist ▸ SplitTo.pair halloc hsplit hhi hstart pre post p false, ?_,
          Nat.le_refl start, hlt⟩
        intro y hy
        rcases mem_append.mp hy with hy | hy
        · exact hcut.below y hy
        · rw [mem_singleton.mp hy]
          exact Nat.le_refl start
  · refine ⟨0, last pre, mm, fun fuel _ => ?_, .inr ⟨rfl, pre, (p, a), post, rfl, h, .refl _ _,
      hcut.below, Nat.not_lt.mp hsplit, hbelow⟩⟩
    simp [Mm.splitFirst, h.linked.load, hsplit]

theorem Good.setCache (h : Good mm as) (hc : c = 0#32 ∨ c ∈ as.map Prod.fst) :
    Good { mm with mmapCache := c } as :=
  ⟨⟨h.linked.head, h.linked.list, h.linked.tree, h.linked.count, hc⟩, h.ordered⟩

theorem Linked.startsBelow (h : Linked mm (pre ++ (p, a) :: post)) (addr : Nat) :
    mm.startsBelow p addr = some (decide (a.start < addr)) := by
  rw [Mm.startsBelow, if_neg (h.nonnull (by simp)), h.load]
  rfl

theorem Good.splitLast (h : Good mm (pre ++ x :: post)) (hpre : ∀ y ∈ pre, y.2.stop ≤ start)
    (hlt : start < stop) (hx : x.2.start < stop) (hstop : pageSize ∣ stop)
    (henv : SplitEnv.Fresh env (pre ++ x :: post)) :
    ∃ e mm', (∀ fuel, (pre ++ x :: post).length < fuel →
        mm.splitLast fuel env stop = some (e, mm')) ∧
      (e ≠ 0 ∧ Good mm' (pre ++ x :: post) ∨
        e = 0 ∧ ∃ mid post', mid ≠ [] ∧ Good mm' (pre ++ mid ++ post') ∧
          SplitTo env (pre ++ x :: post) (pre ++ mid ++ post') ∧
          (∀ y ∈ mid, x.2.start ≤ y.2.start ∧ y.2.stop ≤ stop ∧ y.2.start < stop) ∧
          ∀ y ∈ post', stop ≤ y.2.start) := by
  obtain ⟨-, hrest, -⟩ := ordered_append.mp h.ordered
  obtain ⟨mid, post₂, hmp, hmid, hpost₂⟩ := hrest.split stop
  have hfirst : ∀ y ∈ mid ++ post₂, x.2.start ≤ y.2.start := by
    rw [← hmp]
    obtain ⟨hxx, -, hxy⟩ := ordered_cons.mp hrest
    intro y hy
    rcases mem_cons.mp hy with rfl | hy
    · exact Nat.le_refl _
    · exact Nat.le_trans (Nat.le_of_lt hxx) (hxy y hy)
  have hfilled : ∀ y ∈ mid ++ post₂, y.2.start < y.2.stop := by
    rw [← hmp]
    exact hrest.filled
  have hmid' : ∀ y ∈ mid, x.2.start ≤ y.2.start ∧ y.2.stop ≤ stop ∧ y.2.start < stop := by
    intro y hy
    have hys : y.2.stop ≤ stop := hmid y hy
    have hyf := hfilled y (mem_append_left _ hy)
    exact ⟨hfirst y (mem_append_left _ hy), hys, by omega⟩
  have hlist : pre ++ x :: post = (pre ++ mid) ++ post₂ := by rw [hmp, List.append_assoc]
  have hcut : Cut stop (pre ++ mid) post₂ := by
    refine ⟨fun y hy => ?_, hpost₂⟩
    rcases mem_append.mp hy with hy | hy
    · have := hpre y hy
      omega
    · exact hmid y hy
  rw [hlist] at h henv ⊢
  obtain ⟨cache, hfind, hcache⟩ := h.findVma hcut
  have h₁ := h.setCache hcache
  cases post₂ with
  | nil =>
    refine ⟨0, { mm with mmapCache := cache }, fun fuel hfuel => ?_, .inr ⟨rfl, mid, [], ?_, h₁,
      .refl _ _, hmid', by simp⟩⟩
    · simp [Mm.splitLast, hfind fuel hfuel, Mm.startsBelow]
    · rintro rfl
      simp at hmp
  | cons y post₃ =>
    obtain ⟨q, b⟩ := y
    have hstarts := h₁.linked.startsBelow stop
    have hpost₃ : ∀ y ∈ post₃, stop ≤ y.2.start := by
      intro y hy
      obtain ⟨-, hord, -⟩ := ordered_append.mp h.ordered
      exact Nat.le_trans (Nat.le_of_lt (hpost₂ (q, b) (by simp))) ((ordered_cons.mp hord).2.2 y hy)
    by_cases hb : b.start < stop
    · obtain ⟨e, mm', hm, hres⟩ := h₁.splitVma hb (hpost₂ (q, b) (by simp)) henv true
      refine ⟨e, mm', fun fuel hfuel => ?_, ?_⟩
      · simp [Mm.splitLast, hfind fuel hfuel, hstarts, hb, hm fuel hfuel]
      · rcases hres with ⟨he, rfl⟩ | ⟨he, new, halloc, h'⟩
        · exact .inl ⟨he, h₁⟩
        · have hlist' : pre ++ mid ++ splitPair q new b stop true ++ post₃ =
              pre ++ (mid ++ [(new, b.lower stop)]) ++ (q, b.upper stop) :: post₃ := by
            simp [splitPair]
          refine .inr ⟨he, mid ++ [(new, b.lower stop)], (q, b.upper stop) :: post₃, by simp,
            hlist' ▸ h', hlist' ▸ SplitTo.pair halloc hb (hpost₂ (q, b) (by simp)) hstop
              (pre ++ mid)
              post₃ q true, ?_, ?_⟩
          · intro y hy
            rcases mem_append.mp hy with hy | hy
            · exact hmid' y hy
            · rw [mem_singleton.mp hy]
              exact ⟨hfirst (q, b) (by simp), Nat.le_refl stop, hb⟩
          · exact forall_mem_cons.mpr ⟨Nat.le_refl stop, hpost₃⟩
    · refine ⟨0, { mm with mmapCache := cache }, fun fuel hfuel => ?_, .inr ⟨rfl, mid,
        (q, b) :: post₃, ?_, h₁, .refl _ _, hmid', ?_⟩⟩
      · simp [Mm.splitLast, hfind fuel hfuel, hstarts, hb]
      · rintro rfl
        obtain ⟨rfl, -⟩ := cons.inj hmp
        exact hb hx
      · exact forall_mem_cons.mpr ⟨Nat.not_lt.mp hb, hpost₃⟩

/-- What `munlock_vma_pages_all` leaves of an area, if it is called. -/
def Area.munlocked (a : Area) : Area :=
  if a.flags &&& VM_LOCKED ≠ 0#32 then { a with flags := a.flags &&& ~~~VM_LOCKED } else a

theorem Area.munlocked_start (a : Area) : a.munlocked.start = a.start := by
  unfold Area.munlocked
  split <;> rfl

theorem Linked.munlockVma (h : Linked mm (pre ++ (p, a) :: post)) :
    ∃ mm', mm.munlockVma p a = some mm' ∧ Linked mm' (pre ++ (p, a.munlocked) :: post) := by
  by_cases hlocked : a.flags &&& VM_LOCKED ≠ 0#32
  · have h₁ : Linked { mm with lockedVm := mm.lockedVm - pagesBetween a.start a.stop }
        (pre ++ (p, a) :: post) := ⟨h.head, h.list, h.tree, h.count, h.cache⟩
    obtain ⟨mm', hm, h'⟩ := h₁.modifyArea fun a => { a with flags := a.flags &&& ~~~VM_LOCKED }
    refine ⟨mm', (if_pos hlocked).trans hm, ?_⟩
    rwa [Area.munlocked, if_pos hlocked]
  · refine ⟨mm, if_neg hlocked, ?_⟩
    rwa [Area.munlocked, if_neg hlocked]

theorem Linked.munlockLoop (h : Linked mm (pre ++ mid ++ post)) (hmid : ∀ x ∈ mid, x.2.start < stop)
    (hpost : ∀ x ∈ post, stop ≤ x.2.start) :
    ∃ mm', (∀ fuel, mid.length < fuel →
        Mm.munlockLoop stop fuel mm (first (mid ++ post) 0#32) = some mm') ∧
      Linked mm' (pre ++ mid.map (Prod.map id Area.munlocked) ++ post) := by
  induction mid generalizing mm pre with
  | nil =>
    refine ⟨mm, fun fuel hfuel => ?_, by simpa using h⟩
    obtain ⟨fuel, rfl⟩ := Nat.exists_eq_add_of_lt hfuel
    cases post with
    | nil => simp [Mm.munlockLoop]
    | cons x post =>
      have hx : Linked mm (pre ++ (x.1, x.2) :: post) := by simpa using h
      have hstart := Nat.not_lt.mpr (hpost x (by simp))
      simp [Mm.munlockLoop, hx.load, hstart]
  | cons x mid ih =>
    have hx : Linked mm (pre ++ (x.1, x.2) :: (mid ++ post)) := by simpa using h
    obtain ⟨mm₁, hm₁, h₁⟩ := hx.munlockVma
    have h₁' : Linked mm₁ ((pre ++ [(x.1, x.2.munlocked)]) ++ mid ++ post) := by simpa using h₁
    obtain ⟨mm', hm', h'⟩ := ih h₁' fun y hy => hmid y (by simp [hy])
    refine ⟨mm', fun fuel hfuel => ?_, by simpa [Prod.map] using h'⟩
    obtain ⟨fuel, rfl⟩ : ∃ k, fuel = k + 1 := ⟨fuel - 1, by omega⟩
    have hxn : x.1 ≠ 0#32 := h.nonnull (by simp)
    rw [Mm.munlockLoop, List.cons_append, first_cons, if_neg hxn, hx.load]
    simp only [bind_eq_bind, bind_some, hmid x (by simp), hm₁]
    exact hm' fuel (by simpa using hfuel)

theorem Seg.load {mm : Mm} (h : Seg mm.vmas (x :: as) q) (hx : x.1 ≠ 0#32) :
    mm.load x.1 = some ⟨x.2, first as q⟩ := by
  rw [Mm.load, if_neg hx]
  exact h.1

theorem detachLoop_spec (hseg : Seg mm.vmas (x :: (mid ++ post)) 0#32)
    (htree : Mirrors mm.rb (ps ++ x.1 :: (mid ++ post).map Prod.fst))
    (hmid : ∀ y ∈ mid, y.2.start < stop) (hpost : ∀ y ∈ post, stop ≤ y.2.start) :
    ∃ rb, (∀ fuel turns, 2 * (ps ++ x.1 :: (mid ++ post).map Prod.fst).length + 1 < fuel →
        mid.length < turns → Mm.detachLoop fuel stop turns mm x.1 =
          some (last (x :: mid), first post 0#32,
            { mm with rb := rb, mapCount := mm.mapCount - (mid.length + 1) })) ∧
      Mirrors rb (ps ++ post.map Prod.fst) := by
  induction mid generalizing mm x with
  | nil =>
    have hnonnull := htree.addresses.nonnull
    obtain ⟨rb₁, herase, htree₁⟩ := htree.erase
    have hload : Mm.load { mm with rb := rb₁, mapCount := mm.mapCount - 1 } x.1 =
        some ⟨x.2, first post 0#32⟩ := hseg.load (hnonnull _ (by simp))
    refine ⟨rb₁, fun fuel turns hfuel hturns => ?_, htree₁⟩
    obtain ⟨turns, rfl⟩ : ∃ k, turns = k + 1 := ⟨turns - 1, by omega⟩
    rw [Mm.detachLoop, herase fuel hfuel]
    simp only [bind_eq_bind, bind_some, hload]
    cases post with
    | nil => rfl
    | cons z post =>
      have hz : z.1 ≠ 0#32 := hnonnull _ (by simp)
      have hloadz : Mm.load { mm with rb := rb₁, mapCount := mm.mapCount - 1 } z.1 =
          some ⟨z.2, first post 0#32⟩ := hseg.2.load hz
      have hstart := Nat.not_lt.mpr (hpost z (by simp))
      simp only [first_cons, hz, hloadz, bind_some, hstart]
      rfl
  | cons y mid ih =>
    have hnonnull := htree.addresses.nonnull
    obtain ⟨rb₁, herase, htree₁⟩ := htree.erase
    have hload : Mm.load { mm with rb := rb₁, mapCount := mm.mapCount - 1 } x.1 =
        some ⟨x.2, y.1⟩ := hseg.load (hnonnull _ (by simp))
    have hy : y.1 ≠ 0#32 := hnonnull _ (by simp)
    have hloady : Mm.load { mm with rb := rb₁, mapCount := mm.mapCount - 1 } y.1 =
        some ⟨y.2, first (mid ++ post) 0#32⟩ := hseg.2.load hy
    obtain ⟨rb, hrun, hmirrors⟩ := @ih y { mm with rb := rb₁, mapCount := mm.mapCount - 1 } hseg.2
      htree₁ fun z hz => hmid z (by simp [hz])
    refine ⟨rb, fun fuel turns hfuel hturns => ?_, hmirrors⟩
    obtain ⟨turns, rfl⟩ : ∃ k, turns = k + 1 := ⟨turns - 1, by omega⟩
    have hfuel' : 2 * (ps ++ y.1 :: (mid ++ post).map Prod.fst).length + 1 < fuel := by
      simp only [length_append, length_cons, length_map] at hfuel ⊢
      omega
    rw [Mm.detachLoop, herase fuel hfuel]
    simp only [bind_eq_bind, bind_some, hload, hy, hloady, hmid y (by simp)]
    rw [hrun fuel turns hfuel' (by simpa using hturns)]
    simp [last, Nat.sub_sub, Nat.add_comm]

theorem Seg.setNext_last (mm : Mm) (hseg : Seg mm.vmas (as ++ [(p, a)]) q)
    (had : Addresses ((as ++ [(p, a)]).map Prod.fst)) (r : Ptr) :
    ∃ vmas, mm.setNext p r = some { mm with vmas := vmas } ∧ Seg vmas (as ++ [(p, a)]) r ∧
      ∀ x, x ∉ (as ++ [(p, a)]).map Prod.fst → vmas x = mm.vmas x := by
  have hp : p ≠ 0#32 := had.nonnull p (by simp)
  have has : p ∉ as.map Prod.fst := by
    have hnodup := had.nodup
    rw [map_append, nodup_append] at hnodup
    exact fun hmem => hnodup.2.2 p hmem p (by simp) rfl
  obtain ⟨hlas, hlp⟩ := seg_append.mp hseg
  refine ⟨Function.update mm.vmas p (some ⟨a, r⟩), ?_, seg_append.mpr ⟨hlas.update has _, ?_⟩,
    fun x hx => update_of_ne (fun he => hx (by simp [he])) _ _⟩
  · rw [Mm.setNext, hlp.load hp]
    rfl
  · exact ⟨by simp, trivial⟩

theorem Seg.setFollower (mm : Mm) (hseg : Seg mm.vmas pre q) (had : Addresses (pre.map Prod.fst))
    (hhead : mm.mmap = first pre q) (r : Ptr) :
    ∃ vmas, mm.setFollower (last pre) r = some { mm with vmas := vmas, mmap := first pre r } ∧
      Seg vmas pre r ∧ ∀ p, p ∉ pre.map Prod.fst → vmas p = mm.vmas p := by
  rcases eq_nil_or_concat' pre with rfl | ⟨pre, ⟨p, a⟩, rfl⟩
  · exact ⟨mm.vmas, rfl, trivial, fun _ _ => rfl⟩
  · obtain ⟨vmas, hset, hseg', hframe⟩ := hseg.setNext_last mm had r
    have hhead' : first (pre ++ [(p, a)]) r = mm.mmap := by
      rw [hhead, first_append, first_append]
      rfl
    refine ⟨vmas, ?_, hseg', hframe⟩
    rw [Mm.setFollower, last_concat, if_pos (had.nonnull p (by simp)), hset, hhead']

theorem Linked.follower (h : Linked mm (pre ++ post)) :
    mm.follower (last pre) = some (first post 0#32) := by
  rcases eq_nil_or_concat' pre with rfl | ⟨pre, ⟨p, a⟩, rfl⟩
  · rw [Mm.follower, h.head]
    rfl
  · have hp : Linked mm (pre ++ (p, a) :: post) := by simpa using h
    rw [Mm.follower, last_concat, if_pos (hp.nonnull (by simp)), hp.load]
    rfl

theorem removeVmaList_spec (hseg : Seg mm.vmas (x :: mid) 0#32)
    (had : Addresses ((x :: mid).map Prod.fst)) :
    ∃ vmas, (∀ fuel, mid.length < fuel →
        Mm.removeVmaList fuel mm x.1 = some { mm with vmas := vmas }) ∧
      ∀ p, p ∉ (x :: mid).map Prod.fst → vmas p = mm.vmas p := by
  have hload := hseg.load (had.nonnull x.1 (by simp))
  induction mid generalizing mm x with
  | nil =>
    refine ⟨(mm.free x.1).vmas, fun fuel hfuel => ?_, fun p hp => ?_⟩
    · obtain ⟨fuel, rfl⟩ := Nat.exists_eq_add_of_lt hfuel
      rw [Mm.removeVmaList, hload]
      rfl
    · exact update_of_ne (fun he => hp (by simp [he])) _ _
  | cons y mid ih =>
    have hx : x.1 ∉ (y :: mid).map Prod.fst := (nodup_cons.mp had.nodup).1
    have hseg' : Seg (mm.free x.1).vmas (y :: mid) 0#32 := hseg.2.update hx none
    have had' : Addresses ((y :: mid).map Prod.fst) := had.sublist (sublist_cons_self _ _)
    have hy : y.1 ≠ 0#32 := had'.nonnull y.1 (by simp)
    obtain ⟨vmas, hrun, hframe⟩ := ih hseg' had' (hseg'.load hy)
    refine ⟨vmas, fun fuel hfuel => ?_, fun p hp => ?_⟩
    · obtain ⟨fuel, rfl⟩ : ∃ k, fuel = k + 1 := ⟨fuel - 1, by omega⟩
      rw [Mm.removeVmaList, hload]
      simp only [bind_eq_bind, bind_some, first_cons, hy]
      exact hrun fuel (by simpa using hfuel)
    · rw [map_cons, mem_cons, not_or] at hp
      rw [hframe p hp.2]
      exact update_of_ne hp.1 _ _

theorem Linked.munlock (h : Linked mm (pre ++ mid ++ post)) (hmid : ∀ x ∈ mid, x.2.start < stop)
    (hpost : ∀ x ∈ post, stop ≤ x.2.start) :
    ∃ mm' mid', (∀ fuel, mid.length < fuel →
        mm.munlock fuel (first (mid ++ post) 0#32) stop = some mm') ∧
      Linked mm' (pre ++ mid' ++ post) ∧ mid'.map Prod.fst = mid.map Prod.fst ∧
      ∀ x ∈ mid', x.2.start < stop := by
  by_cases hlocked : mm.lockedVm ≠ 0#32
  · obtain ⟨mm', hm, h'⟩ := h.munlockLoop hmid hpost
    refine ⟨mm', _, fun fuel hfuel => (if_pos hlocked).trans (hm fuel hfuel), h', by simp, ?_⟩
    intro x hx
    obtain ⟨y, hy, rfl⟩ := List.mem_map.mp hx
    simpa [Area.munlocked_start] using hmid y hy
  · exact ⟨mm, mid, fun fuel _ => if_neg hlocked, h, rfl, hmid⟩

theorem Linked.detachVmasToBeUnmapped (h : Linked mm (pre ++ (x :: mid) ++ post))
    (hmid : ∀ y ∈ mid, y.2.start < stop) (hpost : ∀ y ∈ post, stop ≤ y.2.start) :
    ∃ mm', (∀ fuel, 2 * (pre ++ (x :: mid) ++ post).length + 1 < fuel →
        mm.detachVmasToBeUnmapped fuel x.1 (last pre) stop = some mm') ∧
      Linked mm' (pre ++ post) ∧ Seg mm'.vmas (x :: mid) 0#32 := by
  have had := h.tree.addresses
  have hadpre : Addresses (pre.map Prod.fst) := had.sublist (by simp)
  have hadmid : Addresses ((x :: mid).map Prod.fst) := had.sublist (by simp)
  have hlist : pre ++ (x :: mid) ++ post = pre ++ (x :: (mid ++ post)) := by simp
  rw [hlist] at h ⊢
  obtain ⟨hlpre, hlrest⟩ := seg_append.mp h.list
  have htree : Mirrors mm.rb (pre.map Prod.fst ++ x.1 :: (mid ++ post).map Prod.fst) := by
    simpa using h.tree
  obtain ⟨rb, hloop, htree'⟩ := detachLoop_spec hlrest htree hmid hpost
  obtain ⟨hlmid, hlpost⟩ := seg_append.mp (show Seg mm.vmas ((x :: mid) ++ post) 0#32 from hlrest)
  -- The three parts of the list have no address in common, so each store leaves the others alone.
  have hnodup := had.nodup
  rw [map_append, map_append] at hnodup
  have hmp := disjoint_of_nodup_append hnodup
  have hpm := disjoint_of_nodup_append hnodup.of_append_left
  obtain ⟨vmas₁, hset₁, hlpre₁, hframe₁⟩ := Seg.setFollower
    { mm with rb := rb, mapCount := mm.mapCount - (mid.length + 1) } hlpre hadpre
    (h.head.trans (first_append _ _ _)) (first post 0#32)
  have hlmid₁ : Seg vmas₁ (x :: mid) (first post 0#32) :=
    hlmid.congr fun p hp => hframe₁ p fun hq => hpm hq hp
  obtain ⟨as, ⟨p, a⟩, hxm⟩ : ∃ as y, x :: mid = as ++ [y] :=
    (eq_nil_or_concat' (x :: mid)).resolve_left (by simp)
  rw [hxm] at hlmid₁ hadmid hmp hpm ⊢
  obtain ⟨vmas₂, hset₂, hlmid₂, hframe₂⟩ := Seg.setNext_last { mm with
      vmas := vmas₁, mmap := first pre (first post 0#32), rb := rb,
      mapCount := mm.mapCount - (mid.length + 1) } hlmid₁ hadmid 0#32
  refine ⟨{ mm with
      vmas := vmas₂, mmap := first pre (first post 0#32), rb := rb,
      mapCount := mm.mapCount - (mid.length + 1), mmapCache := 0#32 }, fun fuel hfuel => ?_,
    ⟨(first_append _ _ _).symm, seg_append.mpr ⟨?_, ?_⟩, by simpa using htree', ?_, .inl rfl⟩,
      hlmid₂⟩
  · have hsize : 2 * (pre.map Prod.fst ++ x.1 :: (mid ++ post).map Prod.fst).length + 1 < fuel := by
      simpa using hfuel
    have hturns : mid.length < fuel := by
      simp only [length_append, length_cons] at hfuel
      omega
    simp only [Mm.detachVmasToBeUnmapped, hloop fuel fuel hsize hturns, bind_eq_bind,
      bind_some, hset₁, hxm, last_concat, hset₂]
    rfl
  · exact hlpre₁.congr fun q hq => hframe₂ q fun hq' => hpm hq hq'
  · refine hlpost.congr fun q hq => (hframe₂ q fun hq' => hmp ?_ hq).trans
      (hframe₁ q fun hq' => hmp ?_ hq)
    · exact mem_append_right _ hq'
    · exact mem_append_left _ hq'
  · rw [show mm.mapCount = _ from h.count]
    simp only [length_append, length_cons]
    omega

theorem Linked.unmapWhole (h : Linked mm (pre ++ mid ++ post)) (hne : mid ≠ [])
    (hmid : ∀ x ∈ mid, x.2.start < stop) (hpost : ∀ x ∈ post, stop ≤ x.2.start) :
    ∃ mm', (∀ fuel, 2 * (pre ++ mid ++ post).length + 1 < fuel →
        mm.unmapWhole fuel (last pre) stop = some mm') ∧ Linked mm' (pre ++ post) := by
  have hfollower : mm.follower (last pre) = some (first (mid ++ post) 0#32) := by
    rw [List.append_assoc] at h
    exact h.follower
  obtain ⟨mm₁, mid₁, hm₁, h₁, hptrs, hmid₁⟩ := h.munlock hmid hpost
  obtain ⟨x, tail, rfl⟩ : ∃ x tail, mid₁ = x :: tail := by
    refine exists_cons_of_ne_nil fun he => hne ?_
    rw [he] at hptrs
    exact map_eq_nil_iff.mp hptrs.symm
  have hfirst : first (mid ++ post) 0#32 = x.1 := by
    rw [first_append]
    unfold first
    rw [← hptrs]
    rfl
  have hlen : mid.length = tail.length + 1 := by simpa using (congrArg length hptrs).symm
  obtain ⟨mm₂, hm₂, h₂, hseg₂⟩ := h₁.detachVmasToBeUnmapped (fun y hy => hmid₁ y (by simp [hy]))
    hpost
  have had : Addresses ((x :: tail).map Prod.fst) := h₁.tree.addresses.sublist (by simp)
  obtain ⟨vmas, hm₃, hframe⟩ := removeVmaList_spec hseg₂ had
  refine ⟨{ mm₂ with vmas := vmas }, fun fuel hfuel => ?_,
    ⟨h₂.head, h₂.list.congr fun p hp => hframe p fun hp' => ?_, h₂.tree, h₂.count, h₂.cache⟩⟩
  · simp only [length_append] at hfuel
    have hrun₁ := hm₁ fuel (by omega)
    rw [hfirst] at hrun₁
    simp only [Mm.unmapWhole, hfollower, hfirst, bind_eq_bind, bind_some, hrun₁]
    rw [hm₂ fuel (by simp only [length_append, length_cons]; omega), bind_some, hm₃ fuel (by omega)]
  · have hnodup := h₁.tree.addresses.nodup
    rw [map_append, map_append] at hnodup
    rw [map_append] at hp
    rcases mem_append.mp hp with hp | hp
    · exact disjoint_of_nodup_append hnodup.of_append_left hp hp'
    · exact disjoint_of_nodup_append hnodup (mem_append_right _ hp') hp

theorem pageAt_eq_none (h : ∀ y ∈ as, y.2.stop ≤ start ∨ stop ≤ y.2.start) (hx : start ≤ x)
    (hlt : x < stop) : pageAt as x = none := by
  refine valueAt_eq_none _ _ _ fun y hy => ?_
  rcases h y hy with hbelow | habove
  · exact .inr (Nat.le_trans hbelow hx)
  · exact .inl (Nat.lt_of_lt_of_le hlt habove)

theorem pageAt_clear (h : ∀ y ∈ as, y.2.stop ≤ start ∨ stop ≤ y.2.start) (x : Nat) :
    pageAt as x = if start ≤ x ∧ x < stop then none else pageAt as x := by
  split
  next hin => exact pageAt_eq_none h hin.1 hin.2
  next => rfl

theorem pageAt_removed (hpre : ∀ y ∈ pre, y.2.stop ≤ start)
    (hmid : ∀ y ∈ mid, start ≤ y.2.start ∧ y.2.stop ≤ stop) (hpost : ∀ y ∈ post, stop ≤ y.2.start)
    (x : Nat) :
    pageAt (pre ++ post) x =
      if start ≤ x ∧ x < stop then none else pageAt (pre ++ mid ++ post) x := by
  have hclear : ∀ y ∈ pre ++ post, y.2.stop ≤ start ∨ stop ≤ y.2.start := by
    intro y hy
    rcases mem_append.mp hy with hy | hy
    · exact .inl (hpre y hy)
    · exact .inr (hpost y hy)
  rw [pageAt_clear hclear]
  split
  next => rfl
  next hout =>
    have hnone : pageAt mid x = none := by
      refine valueAt_eq_none _ _ _ fun y hy => ?_
      have := hmid y hy
      omega
    rw [pageAt_append, pageAt_append, pageAt_append, hnone, or_none]

theorem Good.unmapRange (h : Good mm (pre ++ (p, a) :: post))
    (hcut : Cut start pre ((p, a) :: post))
    (hstart : pageSize ∣ start) (hstop : pageSize ∣ stop) (hlt : start < stop)
    (hbelow : a.start < stop) (henv₁ : SplitEnv.Fresh env₁ (pre ++ (p, a) :: post))
    (henv₂ : SplitEnv.Fresh env₂ (pre ++ (p, a) :: post))
    (hne : ∀ q, env₁.alloc = some q → env₂.alloc ≠ some q) :
    ∃ e mm' as', (∀ fuel, 2 * (pre ++ (p, a) :: post).length + 5 < fuel →
        mm.unmapRange fuel env₁ env₂ p (last pre) start stop = some (e, mm')) ∧ Good mm' as' ∧
      (e = 0 → ∀ x, pageSize ∣ x → pageAt as' x =
        if start ≤ x ∧ x < stop then none else pageAt (pre ++ (p, a) :: post) x) ∧
      (e ≠ 0 → SamePages as' (pre ++ (p, a) :: post)) := by
  obtain ⟨e₁, prev, mm₁, hm₁, hres₁⟩ := h.splitFirst hcut hstart henv₁ hbelow hlt
  have hrun₁ := fun fuel (hfuel : 2 * (pre ++ (p, a) :: post).length + 5 < fuel) =>
    hm₁ fuel (by omega)
  rcases hres₁ with ⟨he₁, rfl⟩ | ⟨rfl, pre₁, x, post₁, rfl, h₁, hto₁, hpre₁, hx, hxstop⟩
  · refine ⟨e₁, mm₁, _, fun fuel hfuel => ?_, h, fun he => absurd he he₁, fun _ _ _ => rfl⟩
    simp [Mm.unmapRange, hrun₁ fuel hfuel, he₁]
  · have hfresh : SplitEnv.Fresh env₂ (pre₁ ++ x :: post₁) := by
      intro q hq
      obtain ⟨haligned, hnonnull, hout⟩ := henv₂ q hq
      refine ⟨haligned, hnonnull, fun hmem => ?_⟩
      rcases hto₁.addresses q hmem with hmem | halloc
      · exact hout hmem
      · exact hne q halloc hq
    have hsize₁ := hto₁.size
    obtain ⟨e₂, mm₂, hm₂, hres₂⟩ := h₁.splitLast hpre₁ hlt hxstop hstop hfresh
    have hrun₂ := fun fuel (hfuel : 2 * (pre ++ (p, a) :: post).length + 5 < fuel) =>
      hm₂ fuel (by omega)
    rcases hres₂ with ⟨he₂, h₂⟩ | ⟨rfl, mid, post₂, hmidne, h₂, hto₂, hmid, hpost₂⟩
    · refine ⟨e₂, mm₂, _, fun fuel hfuel => ?_, h₂, fun he => absurd he he₂,
        fun _ y hy => (hto₁.pages y hy).symm⟩
      simp [Mm.unmapRange, hrun₁ fuel hfuel, hrun₂ fuel hfuel, he₂]
    · have hsize₂ := hto₂.size
      obtain ⟨mm₃, hm₃, h₃⟩ := h₂.linked.unmapWhole hmidne (fun y hy => (hmid y hy).2.2) hpost₂
      obtain ⟨hord, hordpost, hpost⟩ := ordered_append.mp h₂.ordered
      obtain ⟨hordpre, -, -⟩ := ordered_append.mp hord
      refine ⟨0, mm₃, pre₁ ++ post₂, fun fuel hfuel => ?_, ⟨h₃, ordered_append.mpr
        ⟨hordpre, hordpost,
        fun y hy z hz => hpost y (mem_append_left _ hy) z hz⟩⟩, fun _ y hy => ?_,
        fun he => absurd rfl he⟩
      · simp [Mm.unmapRange, hrun₁ fuel hfuel, hrun₂ fuel hfuel, hm₃ fuel (by omega)]
      · rw [(hto₁.pages.trans hto₂.pages) y hy]
        refine pageAt_removed hpre₁ (fun z hz => ?_) hpost₂ y
        exact ⟨Nat.le_trans hx (hmid z hz).1, (hmid z hz).2.1⟩

theorem range_of_accepted
    (hok : ¬ (start % pageSize ≠ 0 ∨ taskSize < start ∨ taskSize - start < len))
    (hlen : PAGE_ALIGN len ≠ 0) :
    pageSize ∣ start ∧ (start + PAGE_ALIGN len) % 2 ^ 32 = start + PAGE_ALIGN len ∧
      pageSize ∣ start + PAGE_ALIGN len ∧ start < start + PAGE_ALIGN len := by
  unfold PAGE_ALIGN pageSize taskSize at *
  omega

theorem do_munmap_unmaps_pages {mm : Mm} {as : List (Ptr × Area)} {env₁ env₂ : Mm.SplitEnv}
    (h : Good mm as) (henv₁ : SplitEnv.Fresh env₁ as) (henv₂ : SplitEnv.Fresh env₂ as)
    (hne : ∀ p, env₁.alloc = some p → env₂.alloc ≠ some p) (start len : Nat) :
    ∃ e mm' as', (∀ fuel, 2 * as.length + 5 < fuel →
        mm.doMunmap fuel env₁ env₂ start len = some (e, mm')) ∧ Good mm' as' ∧
      (e = 0 → ∀ x, pageSize ∣ x → pageAt as' x =
        if start ≤ x ∧ x < start + PAGE_ALIGN len then none else pageAt as x) ∧
      (e ≠ 0 → SamePages as' as) := by
  by_cases hbad : start % pageSize ≠ 0 ∨ taskSize < start ∨ taskSize - start < len
  · exact ⟨-EINVAL, mm, as, fun fuel _ => by rw [Mm.doMunmap, if_pos hbad]; rfl, h,
      fun he => absurd he (by decide), fun _ _ _ => rfl⟩
  by_cases hlen : PAGE_ALIGN len = 0
  · exact ⟨-EINVAL, mm, as, fun fuel _ => by rw [Mm.doMunmap, if_neg hbad, if_pos hlen]; rfl, h,
      fun he => absurd he (by decide), fun _ _ _ => rfl⟩
  obtain ⟨hstart, hmod, hstop, hlt⟩ := range_of_accepted hbad hlen
  generalize hstopdef : start + PAGE_ALIGN len = stop at hmod hstop hlt ⊢
  obtain ⟨pre, post, rfl, hpre, hpost⟩ := Ordered.split h.ordered start
  have hcut : Cut start pre post := ⟨hpre, hpost⟩
  have hfind : ∀ fuel, 2 * (pre ++ post).length + 5 < fuel →
      mm.findVmaPrev fuel start = some (first post 0#32, last pre) :=
    fun fuel hfuel => h.linked.findVmaPrev hcut (by omega)
  cases post with
  | nil =>
    refine ⟨0, mm, pre ++ [], fun fuel hfuel => ?_, h, fun _ x _ => pageAt_clear ?_ x,
      fun _ _ _ => rfl⟩
    · simp [Mm.doMunmap, hbad, hlen, hfind fuel hfuel]
    · exact fun y hy => .inl (hpre y (by simpa using hy))
  | cons y post =>
    obtain ⟨p, a⟩ := y
    have hp : p ≠ 0#32 := h.linked.nonnull (by simp)
    have hstarts := h.linked.startsBelow stop
    by_cases hbelow : a.start < stop
    swap
    · refine ⟨0, mm, _, fun fuel hfuel => ?_, h, fun _ x _ => pageAt_clear ?_ x, fun _ _ _ => rfl⟩
      · simp [-Nat.reducePow, Mm.doMunmap, hbad, hlen, hfind fuel hfuel, hstopdef, hmod, hstarts,
          hbelow]
      · intro y hy
        rcases mem_append.mp hy with hy | hy
        · exact .inl (hpre y hy)
        · obtain ⟨-, hrest, -⟩ := ordered_append.mp h.ordered
          obtain ⟨ha, -, hnext⟩ := ordered_cons.mp hrest
          rcases mem_cons.mp hy with rfl | hy
          · exact .inr (Nat.not_lt.mp hbelow)
          · exact .inr (Nat.le_trans (Nat.not_lt.mp hbelow)
              (Nat.le_trans (Nat.le_of_lt ha) (hnext y hy)))
    · obtain ⟨e, mm', as', hm, hrest⟩ := h.unmapRange hcut hstart hstop hlt hbelow henv₁ henv₂ hne
      refine ⟨e, mm', as', fun fuel hfuel => ?_, hrest⟩
      simp [-Nat.reducePow, Mm.doMunmap, hbad, hlen, hfind fuel hfuel, hp, hstopdef, hmod, hstarts,
        hbelow,
        hm fuel hfuel]

def threePages : Area := ⟨0x1000, 0x4000, 0#32, 0x73#32, 1, 0, false, 0⟩

def oneNode : Rb where
  nodes p := if p = 4#32 then some ⟨1#32, 0#32, 0#32⟩ else none
  root := 4#32

theorem oneNode_represents : Represents oneNode (.node .black .leaf 4#32 .leaf) where
  root := rfl
  links := ⟨⟨⟨1#32, 0#32, 0#32⟩, rfl, rfl, rfl, rfl, rfl⟩, trivial, trivial⟩
  addresses := ⟨by simp [Tree.toList], by simp [Tree.toList, Aligned], by simp [Tree.toList]⟩

def oneArea : Mm where
  vmas p := if p = 4#32 then some ⟨threePages, 0#32⟩ else none
  rb := oneNode
  mmap := 4#32
  mapCount := 1
  mmapCache := 0#32
  lockedVm := 0#32

theorem oneArea_good : Good oneArea [(4#32, threePages)] where
  linked := {
    head := rfl
    list := ⟨rfl, trivial⟩
    tree := ⟨_, oneNode_represents, ⟨1, .black .leaf .leaf⟩, rfl⟩
    count := rfl
    cache := .inl rfl }
  ordered := ⟨by simp, by simp [threePages]⟩

theorem do_munmap_unmaps_pages_middle :
    ∃ e mm' as', (∀ fuel, 7 < fuel → oneArea.doMunmap fuel ⟨false, 65530, some 8#32, none⟩
        ⟨false, 65530, some 12#32, none⟩ 0x2000 0x1000 = some (e, mm')) ∧ Good mm' as' ∧
      (e = 0 → ∀ x, pageSize ∣ x → pageAt as' x = if 0x2000 ≤ x ∧ x < 0x2000 + PAGE_ALIGN 0x1000
        then none else pageAt [(4#32, threePages)] x) ∧
      (e ≠ 0 → SamePages as' [(4#32, threePages)]) :=
  do_munmap_unmaps_pages oneArea_good
    (by intro p hp; obtain rfl := some.inj hp; exact ⟨rfl, by decide, by simp⟩)
    (by intro p hp; obtain rfl := some.inj hp; exact ⟨rfl, by decide, by simp⟩)
    (by intro p hp; obtain rfl := some.inj hp; decide) 0x2000 0x1000

end SpicaKernel.Mmap
