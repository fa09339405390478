import SpicaKernel.Mmap

namespace SpicaKernel.Mmap
open RedBlack RbTree IntervalMap Option
set_option autoImplicit true

def Mm.endsBy (mm : Mm) (addr : Nat) (p : Ptr) : Bool :=
  (mm.load p).any fun v => decide (v.area.stop ≤ addr)

theorem Linked.endsBy (h : Linked mm as) (hx : x ∈ as) (addr : Nat) :
    mm.endsBy addr x.1 = decide (x.2.stop ≤ addr) := by
  obtain ⟨pre, post, rfl⟩ := List.append_of_mem hx
  rw [Mm.endsBy, h.load]
  rfl

structure Cut (addr : Nat) (pre post : List (Ptr × Area)) : Prop where
  below : ∀ x ∈ pre, x.2.stop ≤ addr
  above : ∀ x ∈ post, addr < x.2.stop

theorem Linked.endsBy_border (h : Linked mm (pre ++ post)) (hcut : Cut addr pre post) :
    ((pre ++ post).map Prod.fst).Pairwise (fun p q => mm.endsBy addr q → mm.endsBy addr p) ∧
      ((pre ++ post).map Prod.fst).filter (mm.endsBy addr) = pre.map Prod.fst ∧
      ((pre ++ post).map Prod.fst).filter (!mm.endsBy addr ·) = post.map Prod.fst := by
  have hpre : ∀ p ∈ pre.map Prod.fst, mm.endsBy addr p = true := by
    intro p hp
    obtain ⟨x, hx, rfl⟩ := List.mem_map.mp hp
    simpa [h.endsBy (List.mem_append_left post hx)] using hcut.below x hx
  have hpost : ∀ p ∈ post.map Prod.fst, mm.endsBy addr p = false := by
    intro p hp
    obtain ⟨x, hx, rfl⟩ := List.mem_map.mp hp
    simpa [h.endsBy (List.mem_append_right pre hx)] using hcut.above x hx
  rw [List.map_append]
  refine ⟨List.pairwise_append.mpr ⟨?_, ?_, ?_⟩, ?_, ?_⟩
  · exact List.pairwise_of_forall_mem_list fun p hp q _ _ => hpre p hp
  · exact List.pairwise_of_forall_mem_list fun p _ q hq he => by simp [hpost q hq] at he
  · exact fun p hp q _ _ => hpre p hp
  · rw [List.filter_append, List.filter_eq_self.mpr hpre, List.filter_eq_nil_iff.mpr,
      List.append_nil]
    simpa using hpost
  · rw [List.filter_append, List.filter_eq_nil_iff.mpr, List.nil_append]
    · simpa using hpost
    · simpa using hpre

theorem node_children (h : Represents s (fill fs (.node c l a r))) :
    a ≠ 0#32 ∧ ∃ n, s.load a = some n ∧ n.left = top l ∧ n.right = top r := by
  have h' : Represents s (fill fs (.build .left c l a r)) := h
  obtain ⟨n, hn, -, -, hl, hr⟩ := h'.load
  exact ⟨h.addresses.nonnull a (mem_toList_fill.mpr (.inr (by simp [Tree.toList]))), n, hn, hl, hr⟩

theorem fuel_node (hfuel : (RedBlack.Tree.node c l a r).toList.length < fuel) :
    ∃ k, fuel = k + 1 ∧ l.toList.length + r.toList.length < k := by
  simp only [Tree.toList, List.length_append, List.length_cons] at hfuel
  exact ⟨fuel - 1, by omega, by omega⟩

/-- What `find_vma_prepare` returns: the VMAs after and before, and the link for a new one. -/
def placeOf (fs : List (Frame Ptr)) : Ptr × Ptr × Rb.Link × Ptr :=
  ((after fs).headD 0#32, (before fs).getLastD 0#32, linkOf fs, RbTree.parentOf fs)

theorem findVmaPrepareLoop_spec {mm : Mm} (hrep : Represents mm.rb (fill fs t))
    (hload : ∀ p ∈ t.toList, ∃ v, mm.load p = some v ∧ (addr < v.area.stop → addr < v.area.start))
    (hfuel : t.toList.length < fuel) :
    mm.findVmaPrepareLoop addr fuel (linkOf fs) (top t) (RbTree.parentOf fs) ((after fs).headD 0#32)
        ((before fs).getLastD 0#32) = some (placeOf (t.descend (mm.endsBy addr) fs)) := by
  induction t generalizing fs fuel with
  | leaf =>
    obtain ⟨fuel, rfl⟩ := Nat.exists_eq_add_of_lt hfuel
    rfl
  | node c l a r ihl ihr =>
    obtain ⟨fuel, rfl, hlen⟩ := fuel_node hfuel
    obtain ⟨ha, n, hn, hleft, hright⟩ := node_children hrep
    obtain ⟨v, hv, hcover⟩ := hload a (by simp [Tree.toList])
    rw [Tree.descend, Mm.findVmaPrepareLoop, top, if_neg ha, hn]
    simp only [bind_eq_bind, bind_some, Mm.endsBy, hv]
    by_cases hstop : addr < v.area.stop
    · rw [if_pos hstop, if_neg (Nat.not_le.mpr (hcover hstop)), if_neg (by simpa using hstop),
        hleft]
      have hrepl : Represents mm.rb (fill (⟨.left, c, a, r⟩ :: fs) l) := hrep
      have hnext := ihl hrepl (fun p hp => hload p (by simp [Tree.toList, hp]))
        (show l.toList.length < fuel by omega)
      simpa [linkOf, RbTree.parentOf, parentFrom, after, before, Frame.after, Frame.before] using
        hnext
    · rw [if_neg hstop, if_pos (by simpa using hstop), hright]
      have hrepr : Represents mm.rb (fill (⟨.right, c, a, l⟩ :: fs) r) := hrep
      have hnext := ihr hrepr (fun p hp => hload p (by simp [Tree.toList, hp]))
        (show r.toList.length < fuel by omega)
      simpa [linkOf, RbTree.parentOf, parentFrom, after, before, Frame.after, Frame.before] using
        hnext

theorem parentOf_of_before_nil (h : before fs = []) : RbTree.parentOf fs = (after fs).headD
    0#32 := by
  cases fs with
  | nil => rfl
  | cons f fs =>
    obtain ⟨side, c, a, u⟩ := f
    cases side with
    | left => rfl
    | right => simp [before, Frame.before] at h

theorem Linked.exists_load_of_mem (h : Linked mm as) (hp : p ∈ as.map Prod.fst) :
    ∃ a next, (p, a) ∈ as ∧ mm.load p = some ⟨a, next⟩ := by
  obtain ⟨x, hx, rfl⟩ := List.mem_map.mp hp
  obtain ⟨pre, post, rfl⟩ := List.append_of_mem hx
  exact ⟨x.2, _, hx, h.load⟩

theorem Linked.findVmaPrepare (h : Linked mm (pre ++ post)) (hcut : Cut addr pre post)
    (hpost : ∀ x ∈ post, addr < x.2.start) :
    ∃ fs, (∀ fuel, (pre ++ post).length < fuel → mm.findVmaPrepare fuel addr =
        some (first post 0#32, last pre, linkOf fs, RbTree.parentOf fs)) ∧
      Represents mm.rb (fill fs .leaf) ∧ (fill fs (.leaf : RedBlack.Tree Ptr)).Valid ∧
      before fs = pre.map Prod.fst ∧ after fs = post.map Prod.fst := by
  obtain ⟨t, hrep, hv, ht⟩ := h.tree
  obtain ⟨hmono, hbelow, habove⟩ := h.endsBy_border hcut
  rw [← ht] at hmono hbelow habove
  obtain ⟨hb, ha⟩ := before_after_descend hmono []
  rw [hbelow] at hb
  rw [habove] at ha
  have hfill := fill_descend (mm.endsBy addr) t []
  have hload : ∀ p ∈ t.toList, ∃ v, mm.load p = some v ∧
      (addr < v.area.stop → addr < v.area.start) := by
    intro p hp
    obtain ⟨a, next, hx, hload⟩ := h.exists_load_of_mem (ht ▸ hp)
    refine ⟨_, hload, fun hlt => ?_⟩
    rcases List.mem_append.mp hx with hx | hx
    · exact absurd (hcut.below _ hx) (Nat.not_le.mpr hlt)
    · exact hpost _ hx
  refine ⟨t.descend (mm.endsBy addr) [], fun fuel hfuel => ?_, by rwa [hfill], by rwa [hfill],
    by simpa [before] using hb, by simpa [after] using ha⟩
  have hlen : t.toList.length < fuel := by simpa [ht] using hfuel
  have hrun := findVmaPrepareLoop_spec (show Represents mm.rb (fill [] t) from hrep) hload hlen
  rw [Mm.findVmaPrepare, hrep.root]
  refine hrun.trans ?_
  rw [placeOf, hb, ha]
  simp [before, after, first, last]

def Mm.startsBy (mm : Mm) (addr : Nat) (p : Ptr) : Bool :=
  (mm.load p).any fun v => decide (v.area.start ≤ addr)

theorem findVmaLoop_spec {mm : Mm} (hrep : Represents mm.rb (fill fs t))
    (hload : ∀ p ∈ t.toList, ∃ v, mm.load p = some v)
    (hmono : t.toList.Pairwise fun p q => mm.endsBy addr q → mm.endsBy addr p)
    (hstart : t.toList.Pairwise fun p q => mm.startsBy addr q → mm.endsBy addr p)
    (hfuel : t.toList.length < fuel) :
    mm.findVmaLoop addr fuel (top t) ((after fs).headD 0#32) =
      some ((t.toList.filter (!mm.endsBy addr ·) ++ after fs).headD 0#32) := by
  induction t generalizing fs fuel with
  | leaf =>
    obtain ⟨fuel, rfl⟩ := Nat.exists_eq_add_of_lt hfuel
    rfl
  | node c l a r ihl ihr =>
    obtain ⟨fuel, rfl, hlen⟩ := fuel_node hfuel
    obtain ⟨ha, n, hn, hleft, hright⟩ := node_children hrep
    obtain ⟨v, hv⟩ := hload a (by simp [Tree.toList])
    obtain ⟨hpos, hneg⟩ := filter_border hmono
    obtain ⟨hmonol, hmonor, -⟩ := List.pairwise_append.mp hmono
    obtain ⟨hstartl, hstartr, hbefore⟩ := List.pairwise_append.mp hstart
    have hends : mm.endsBy addr a = decide (v.area.stop ≤ addr) := by simp [Mm.endsBy, hv]
    rw [Mm.findVmaLoop, top, if_neg ha, hv, hn]
    simp only [bind_eq_bind, bind_some]
    by_cases hstop : addr < v.area.stop
    · rw [if_pos hstop, Tree.toList, (hneg (by simpa [hends] using hstop)).2]
      by_cases hcover : v.area.start ≤ addr
      · have hall : ∀ p ∈ l.toList, mm.endsBy addr p :=
          fun p hp => hbefore p hp a (by simp) (by simpa [Mm.startsBy, hv] using hcover)
        rw [if_pos hcover, List.filter_eq_nil_iff.mpr (by simpa using hall)]
        rfl
      · rw [if_neg hcover, hleft]
        have hrepl : Represents mm.rb (fill (⟨.left, c, a, r⟩ :: fs) l) := hrep
        have hnext := ihl hrepl (fun p hp => hload p (by simp [Tree.toList, hp])) hmonol hstartl
          (show l.toList.length < fuel by omega)
        simpa [after, Frame.after] using hnext
    · rw [if_neg hstop, hright, Tree.toList, (hpos (by simpa [hends] using hstop)).2]
      have hrepr : Represents mm.rb (fill (⟨.right, c, a, l⟩ :: fs) r) := hrep
      have hnext := ihr hrepr (fun p hp => hload p (by simp [Tree.toList, hp])) hmonor.of_cons
        hstartr.of_cons (show r.toList.length < fuel by omega)
      simpa [after, Frame.after] using hnext

theorem findVmaPrevLoop_spec (h : Linked mm as) (hrep : Represents mm.rb (fill fs t))
    (hall : (fill fs t).toList = as.map Prod.fst)
    (hmono : t.toList.Pairwise fun p q => mm.endsBy addr q → mm.endsBy addr p)
    (hfuel : t.toList.length < fuel) :
    mm.findVmaPrevLoop addr fuel (top t) ((before fs).getLastD 0#32) =
      some ((before fs ++ t.toList.filter (mm.endsBy addr)).getLastD 0#32) := by
  induction t generalizing fs fuel with
  | leaf =>
    obtain ⟨fuel, rfl⟩ := Nat.exists_eq_add_of_lt hfuel
    simp [Mm.findVmaPrevLoop, top, Tree.toList]
  | node c l a r ihl ihr =>
    obtain ⟨fuel, rfl, hlen⟩ := fuel_node hfuel
    obtain ⟨ha, n, hn, hleft, hright⟩ := node_children hrep
    have hsplit : as.map Prod.fst = (before fs ++ l.toList) ++ a :: (r.toList ++ after fs) := by
      rw [← hall, toList_fill, Tree.toList]
      simp
    obtain ⟨pre, area, post, has, -, hpost, hload⟩ := h.exists_load hsplit
    obtain ⟨hpos, hneg⟩ := filter_border hmono
    obtain ⟨hmonol, hmonor, -⟩ := List.pairwise_append.mp hmono
    have hends : mm.endsBy addr a = decide (area.stop ≤ addr) := by simp [Mm.endsBy, hload]
    rw [Mm.findVmaPrevLoop, top, if_neg ha, hload, hn]
    simp only [bind_eq_bind, bind_some]
    by_cases hstop : addr < area.stop
    · rw [if_pos hstop, hleft, Tree.toList, (hneg (by simpa [hends] using hstop)).1]
      have hrepl : Represents mm.rb (fill (⟨.left, c, a, r⟩ :: fs) l) := hrep
      have hnext := ihl hrepl hall hmonol (show l.toList.length < fuel by omega)
      simpa [before, Frame.before] using hnext
    · rw [if_neg hstop, hright, Tree.toList, (hpos (by simpa [hends] using hstop)).1]
      -- The walk ends here when nothing below to the right ends by the address.
      have hdone : r.toList.filter (mm.endsBy addr) = [] →
          a = (before fs ++ (l.toList ++ a :: r.toList.filter (mm.endsBy addr))).getLastD 0#32 := by
        intro he
        simp [he]
      cases post with
      | nil =>
        have hr : r.toList = [] := (List.append_eq_nil_iff.mp hpost.symm).1
        exact congrArg some (hdone (by rw [hr]; rfl))
      | cons x post =>
        have hx : mm.load x.1 = some ⟨x.2, first post 0#32⟩ := by
          have h' : Linked mm ((pre ++ [(a, area)]) ++ (x.1, x.2) :: post) := by
            rw [has] at h
            simpa using h
          exact h'.load
        have hxn : x.1 ≠ 0#32 := h.nonnull (by simp [has])
        rw [first_cons, if_neg hxn, hx]
        simp only [bind_some]
        by_cases hnext : addr < x.2.stop
        · rw [if_pos hnext]
          refine congrArg some (hdone ?_)
          have hxends : ¬ mm.endsBy addr x.1 := by simpa [Mm.endsBy, hx] using hnext
          cases hr : r.toList with
          | nil => rfl
          | cons q qs =>
            rw [hr] at hpost hmonor
            obtain rfl : x.1 = q := by simpa using (List.cons.inj hpost).1
            refine List.filter_eq_nil_iff.mpr fun p hp hpe => hxends ?_
            rcases List.mem_cons.mp hp with rfl | hp
            · exact hpe
            · exact List.rel_of_pairwise_cons hmonor.of_cons hp hpe
        · rw [if_neg hnext]
          have hrepr : Represents mm.rb (fill (⟨.right, c, a, l⟩ :: fs) r) := hrep
          have hnext := ihr hrepr hall hmonor.of_cons (show r.toList.length < fuel by omega)
          simpa [before, Frame.before] using hnext

theorem Linked.findVmaPrev (h : Linked mm (pre ++ post)) (hcut : Cut addr pre post)
    (hfuel : (pre ++ post).length < fuel) :
    mm.findVmaPrev fuel addr = some (first post 0#32, last pre) := by
  obtain ⟨t, hrep, -, ht⟩ := h.tree
  obtain ⟨hmono, hbelow, -⟩ := h.endsBy_border hcut
  rw [← ht] at hmono hbelow
  have hrun := findVmaPrevLoop_spec h (show Represents mm.rb (fill [] t) from hrep) ht hmono
    (by simpa [ht] using hfuel)
  rw [hbelow, ← hrep.root] at hrun
  have hloop : mm.findVmaPrevLoop addr fuel mm.rb.root 0#32 = some (last pre) := hrun
  rw [Mm.findVmaPrev, hloop]
  simp only [bind_eq_bind, bind_some]
  rcases List.eq_nil_or_concat' pre with rfl | ⟨pre, ⟨q, b⟩, rfl⟩
  · rw [last_nil, h.head]
    rfl
  · have h' : Linked mm (pre ++ (q, b) :: post) := by simpa using h
    rw [last_concat, if_neg (h'.nonnull (by simp)), h'.load]
    rfl

theorem Good.startsBy_border (h : Good mm as) (addr : Nat) :
    (as.map Prod.fst).Pairwise fun p q => mm.startsBy addr q → mm.endsBy addr p := by
  refine List.pairwise_map.mpr (h.ordered.order.imp_of_mem fun {x y} hx hy hxy hstart => ?_)
  obtain ⟨pre, post, rfl⟩ := List.append_of_mem hy
  rw [h.linked.endsBy hx]
  simp only [Mm.startsBy, h.linked.load, any_some, decide_eq_true_eq] at hstart ⊢
  omega

theorem Good.eq_first (h : Good mm (pre ++ post)) (hcut : Cut addr pre post)
    (hx : (p, a) ∈ pre ++ post) (hstart : a.start ≤ addr) (hstop : addr < a.stop) :
    p = first post 0#32 := by
  have hpost : (p, a) ∈ post := by
    rcases List.mem_append.mp hx with hx | hx
    · exact absurd (hcut.below _ hx) (Nat.not_le.mpr hstop)
    · exact hx
  cases post with
  | nil => cases hpost
  | cons y post =>
    obtain ⟨-, hord, -⟩ := ordered_append.mp h.ordered
    rcases List.mem_cons.mp hpost with rfl | hmem
    · rfl
    · have := (ordered_cons.mp hord).2.2 _ hmem
      have := hcut.above y (by simp)
      simp only at *
      omega

theorem Linked.cacheHit (h : Linked mm as) (addr : Nat) :
    (mm.cacheHit addr = some true ∧ ∃ a, (mm.mmapCache, a) ∈ as ∧ a.start ≤ addr ∧ addr < a.stop) ∨
      mm.cacheHit addr = some false := by
  rcases h.cache with h0 | hmem
  · right
    rw [Mm.cacheHit, if_pos h0]
  · obtain ⟨a, next, ha, hload⟩ := h.exists_load_of_mem hmem
    rw [Mm.cacheHit, if_neg (h.nonnull hmem), hload]
    by_cases hcover : addr < a.stop ∧ a.start ≤ addr
    · left
      exact ⟨by simp [hcover], a, ha, hcover.2, hcover.1⟩
    · right
      simpa [← Bool.decide_and] using hcover

theorem Good.findVma (h : Good mm (pre ++ post)) (hcut : Cut addr pre post) :
    ∃ cache, (∀ fuel, (pre ++ post).length < fuel →
        mm.findVma fuel addr = some (first post 0#32, { mm with mmapCache := cache })) ∧
      (cache = 0#32 ∨ cache ∈ (pre ++ post).map Prod.fst) := by
  obtain ⟨t, hrep, -, ht⟩ := h.linked.tree
  obtain ⟨hmono, -, habove⟩ := h.linked.endsBy_border hcut
  have hstart := h.startsBy_border addr
  rw [← ht] at hmono habove hstart
  have hloop : ∀ fuel, (pre ++ post).length < fuel →
      mm.findVmaLoop addr fuel mm.rb.root 0#32 = some (first post 0#32) := by
    intro fuel hfuel
    have hload : ∀ p ∈ t.toList, ∃ v, mm.load p = some v := by
      intro p hp
      obtain ⟨a, next, -, hload⟩ := h.linked.exists_load_of_mem (ht ▸ hp)
      exact ⟨_, hload⟩
    have hrun := findVmaLoop_spec (show Represents mm.rb (fill [] t) from hrep) hload hmono hstart
      (by simpa [ht] using hfuel)
    rw [habove] at hrun
    rw [hrep.root]
    simpa [after, first] using hrun
  rcases h.linked.cacheHit addr with ⟨hhit, a, hmem, hlo, hhi⟩ | hmiss
  · refine ⟨mm.mmapCache, fun fuel _ => ?_, .inr (List.mem_map_of_mem hmem)⟩
    rw [Mm.findVma, hhit, ← h.eq_first hcut hmem hlo hhi]
    rfl
  · by_cases hnil : post = []
    · refine ⟨mm.mmapCache, fun fuel hfuel => ?_, h.linked.cache⟩
      rw [Mm.findVma, hmiss]
      simp [hloop fuel hfuel, hnil]
    · have hfirst : first post 0#32 ∈ (pre ++ post).map Prod.fst := by
        rw [List.map_append]
        exact List.mem_append_right _ (first_mem hnil)
      refine ⟨first post 0#32, fun fuel hfuel => ?_, .inr hfirst⟩
      rw [Mm.findVma, hmiss]
      simp [hloop fuel hfuel, h.linked.nonnull hfirst]

open List

theorem InOrder.cut (h : InOrder (pre ++ (p, a) :: post)) :
    Cut a.start pre post ∧ ∀ x ∈ post, a.start < x.2.start ∧ a.stop ≤ x.2.start := by
  obtain ⟨-, hrest, hpre⟩ := ordered_append.mp h
  obtain ⟨ha, hpost, hlt⟩ := ordered_cons.mp hrest
  have hbeyond : ∀ x ∈ post, a.start < x.2.start ∧ a.stop ≤ x.2.start := by
    intro x hx
    have := hlt x hx
    simp only at this ha
    omega
  refine ⟨⟨fun x hx => hpre x hx (p, a) (by simp), fun x hx => ?_⟩, hbeyond⟩
  exact Nat.lt_trans (hbeyond x hx).1 (hpost.filled x hx)

theorem Linked.insertVmStruct (h : Linked mm (pre ++ post)) (hnew : NewVma mm (pre ++ post) p a)
    (hord : InOrder (pre ++ (p, a) :: post)) :
    ∃ mm', (∀ fuel, (pre ++ post).length < fuel → mm.insertVmStruct fuel p = some mm') ∧
      Linked mm' (pre ++ (p, a) :: post) := by
  obtain ⟨hcut, hbeyond⟩ := InOrder.cut hord
  obtain ⟨fs, hfind, hrep, hv, hb, ha⟩ := h.findVmaPrepare hcut fun x hx => (hbeyond x hx).1
  obtain ⟨n, hn⟩ := hnew.vma
  have hload : mm.load p = some ⟨a, n⟩ := by rw [Mm.load, if_neg hnew.nonnull, hn]
  have hparent : pre = [] → RbTree.parentOf fs = first post 0#32 := by
    rintro rfl
    rw [parentOf_of_before_nil hb, ha]
    rfl
  obtain ⟨vmas, head, hlist, hseg, hhead⟩ := h.vmaLinkList hnew hparent
  have htoList : (fill fs (.leaf : RedBlack.Tree Ptr)).toList = (pre ++ post).map Prod.fst := by
    simp [toList_fill, hb, ha, Tree.toList]
  have hfresh : Fresh mm.rb (fill fs .leaf) p :=
    ⟨hnew.node, hnew.aligned, hnew.nonnull, htoList ▸ hnew.apart⟩
  obtain ⟨rb₁, hlink, hrep₁⟩ := hrep.link hfresh
  obtain ⟨rb₂, t, hcolor, hrep₂, hv₂, ht⟩ := hrep₁.insertColor hv
  have hbug : mm.startsBelow (first post 0#32) a.stop = some false := by
    cases post with
    | nil => rfl
    | cons x post =>
      have hx : mm.load x.1 = some ⟨x.2, first post 0#32⟩ :=
        Linked.load h
      have hbelow := Nat.not_lt.mpr (hbeyond x (by simp)).2
      rw [Mm.startsBelow, first_cons, hx]
      simp [hbelow]
  refine ⟨{ mm with vmas := vmas, mmap := head, rb := rb₂, mapCount := mm.mapCount + 1 }, ?_,
    hhead, hseg, ⟨t, hrep₂, hv₂, ?_⟩, ?_, ?_⟩
  · intro fuel hfuel
    have hdepth : fs.length < fuel := by
      have := length_le_toList_fill fs (.leaf : RedBlack.Tree Ptr)
      rw [htoList, length_map] at this
      omega
    have hlink' : Rb.rbLinkNode { mm with vmas := vmas, mmap := head }.rb p (RbTree.parentOf fs)
        (linkOf fs) = some rb₁ := hlink
    simp only [Mm.insertVmStruct, hload, hfind fuel hfuel, hbug, hlist, Mm.vmaLinkRb, hlink',
      hcolor fuel hdepth, bind_eq_bind, bind_some]
    rfl
  · rw [ht, toList_fill, hb, ha]
    simp [Tree.toList]
  · simp only [h.count, length_append, length_cons]
    omega
  · rcases h.cache with h0 | hmem
    · exact .inl h0
    · refine .inr ?_
      simp only [map_append, mem_append] at hmem ⊢
      tauto

theorem Linked.vmaUnlink (h : Linked mm (pre ++ (p, a) :: (q, b) :: post)) :
    ∃ mm', (∀ fuel, 2 * (pre ++ (p, a) :: (q, b) :: post).length + 1 < fuel →
        mm.vmaUnlink fuel q p = some mm') ∧
      Linked { mm'.free q with mapCount := mm'.mapCount - 1 } (pre ++ (p, a) :: post) := by
  have hq : Linked mm ((pre ++ [(p, a)]) ++ (q, b) :: post) := by simpa using h
  obtain ⟨hqpre, hqpost⟩ := hq.apart
  obtain ⟨hppre, hppost⟩ := h.apart
  have hqp : p ≠ q := fun he => hqpre (by simp [he])
  obtain ⟨hlpre, -, -, hlpost⟩ := seg_append.mp h.list
  have htree : Mirrors mm.rb ((pre ++ [(p, a)]).map Prod.fst ++ q :: post.map Prod.fst) := by
    simpa using h.tree
  obtain ⟨rb, herase, htree'⟩ := htree.erase
  refine ⟨{ mm.put p ⟨a, first post 0#32⟩ with
    rb := rb, mmapCache := if mm.mmapCache = q then p else mm.mmapCache }, ?_, ?_, ?_, ?_, ?_, ?_⟩
  · intro fuel hfuel
    have hsize : 2 * ((pre ++ [(p, a)]).map Prod.fst ++ q :: post.map Prod.fst).length + 1 <
        fuel := by
      simpa using hfuel
    simp only [Mm.vmaUnlink, Mm.setNext, hq.load, h.load, bind_eq_bind, bind_some,
      Option.pure_def, Mm.put_rb, herase fuel hsize]
    rfl
  · exact h.head.trans (by rw [first_append, first_append]; rfl)
  · refine seg_append.mpr ⟨?_, ?_, ?_⟩
    · exact (hlpre.update hppre _).update (fun he => hqpre (by simp [he])) _
    · simp [Mm.free, Mm.put, Function.update_of_ne hqp]
    · exact (hlpost.update (fun he => hppost (by simp [he])) _).update hqpost _
  · simpa [Mm.free] using htree'
  · change mm.mapCount - 1 = _
    rw [h.count]
    simp
  · change (if mm.mmapCache = q then p else mm.mmapCache) = 0#32 ∨
      (if mm.mmapCache = q then p else mm.mmapCache) ∈ _
    have hcache := h.cache
    simp only [map_append, map_cons, mem_append, mem_cons] at hcache ⊢
    by_cases hc : mm.mmapCache = q
    · rw [if_pos hc]
      exact .inr (.inr (.inl rfl))
    · rw [if_neg hc]
      tauto

def Area.reshape (a : Area) (start stop : Nat) (pgoff : BitVec 32) (anon : Nat) : Area :=
  { a with start := start, stop := stop, pgoff := pgoff, anonVma := anon }

@[simp] theorem Area.reshape_start (a : Area) (start stop : Nat) (pgoff : BitVec 32) (anon : Nat) :
    (a.reshape start stop pgoff anon).start = start := rfl

@[simp] theorem Area.reshape_stop (a : Area) (start stop : Nat) (pgoff : BitVec 32) (anon : Nat) :
    (a.reshape start stop pgoff anon).stop = stop := rfl

/-- At most one of the VMAs has an anon_vma, or both have the same. -/
def Area.Shares (a b : Area) : Prop :=
  a.anonVma = 0 ∨ b.anonVma = 0 ∨ a.anonVma = b.anonVma

theorem Linked.importAnon (h : Linked mm (pre ++ (p, a) :: post)) (anon : Nat) :
    ∃ mm', mm.importAnon p anon = some mm' ∧ Linked mm' (pre ++
      (p, { a with anonVma := if a.anonVma = 0 then anon else a.anonVma }) :: post) := by
  by_cases hanon : anon = 0
  · refine ⟨mm, by simp [Mm.importAnon, hanon], ?_⟩
    have hsame : (if a.anonVma = 0 then anon else a.anonVma) = a.anonVma := by split <;> omega
    rwa [hsame]
  · obtain ⟨mm', hm, h'⟩ :=
      h.modifyArea fun a => { a with anonVma := if a.anonVma = 0 then anon else a.anonVma }
    exact ⟨mm', by rw [Mm.importAnon, if_pos ⟨hanon, h.nonnull (by simp)⟩, hm], h'⟩

theorem Linked.importAnon_either (h : Linked mm (pre ++ (p, a) :: (q, b) :: post)) (anon : Nat)
    (himporter : importer = 0#32 ∨ importer = p ∨ importer = q) :
    ∃ mm' x y, mm.importAnon importer anon = some mm' ∧
      Linked mm' (pre ++ (p, { a with anonVma := x }) :: (q, { b with anonVma := y }) :: post) := by
  rcases himporter with rfl | rfl | rfl
  · exact ⟨mm, a.anonVma, b.anonVma, by simp [Mm.importAnon], h⟩
  · obtain ⟨mm', hm, h'⟩ := h.importAnon anon
    exact ⟨mm', _, b.anonVma, hm, h'⟩
  · have hnext : Linked mm ((pre ++ [(p, a)]) ++ (importer, b) :: post) := by simpa using h
    obtain ⟨mm', hm, h'⟩ := hnext.importAnon anon
    exact ⟨mm', a.anonVma, _, hm, by simpa using h'⟩

theorem Linked.shiftNext (h : Linked mm (pre ++ (p, a) :: post)) (k : Int) :
    ∃ mm', mm.shiftNext p k = some mm' ∧ Linked mm' (pre ++ (p, Mm.shiftStart k a) :: post) := by
  by_cases hk : k = 0
  · refine ⟨mm, by simp [Mm.shiftNext, hk], ?_⟩
    simpa [Mm.shiftStart, hk] using h
  · obtain ⟨mm', hm, h'⟩ := h.modifyArea (Mm.shiftStart k)
    exact ⟨mm', by rw [Mm.shiftNext, if_pos hk, hm], h'⟩

theorem Linked.adjustOnce_plain (h : Linked mm (pre ++ (p, a) :: post)) (next : Ptr) :
    ∃ mm', (∀ fuel insert, mm.adjustOnce fuel p start pgoff insert next ⟨stop, 0, 0, 0#32, 0⟩ =
        if insert ≠ 0#32 then mm'.insertVmStruct fuel insert else some mm') ∧
      mm.modifyArea p (fun a => { a with start := start, stop := stop, pgoff := pgoff }) =
        some mm' ∧
      Linked mm' (pre ++ (p, a.reshape start stop pgoff a.anonVma) :: post) := by
  obtain ⟨mm', hm, h'⟩ :=
    h.modifyArea fun a => { a with start := start, stop := stop, pgoff := pgoff }
  refine ⟨mm', fun fuel insert => ?_, hm, h'⟩
  simp only [Mm.adjustOnce, h.load, Mm.importAnon, bind_eq_bind,
    bind_some, ne_eq, not_true_eq_false, and_false, if_false, hm]
  rfl

section
variable (h : Linked mm (pre ++ (p, a) :: (q, b) :: post))
include h

theorem Linked.adjustOnce_shift (himporter : importer = 0#32 ∨ importer = p ∨ importer = q) :
    ∃ mm' x y, (∀ fuel, mm.adjustOnce fuel p start pgoff 0#32 q ⟨stop, 0, k, importer, anon⟩ =
        some mm') ∧
      Linked mm' (pre ++ (p, a.reshape start stop pgoff x) ::
        (q, Mm.shiftStart k { b with anonVma := y }) :: post) := by
  obtain ⟨mm₁, x, y, hm₁, h₁⟩ := h.importAnon_either (if a.anonVma ≠ 0 ∧
    (0#32 ≠ 0#32 ∨ importer ≠ 0#32 ∨ start ≠ a.start) then a.anonVma else anon) himporter
  obtain ⟨mm₂, hm₂, h₂⟩ :=
    h₁.modifyArea fun a => { a with start := start, stop := stop, pgoff := pgoff }
  have hq : Linked mm₂ ((pre ++ [(p, a.reshape start stop pgoff x)]) ++
      (q, { b with anonVma := y }) :: post) := by simpa [Area.reshape] using h₂
  obtain ⟨mm₃, hm₃, h₃⟩ := hq.shiftNext k
  refine ⟨mm₃, x, y, fun fuel => ?_, by simpa using h₃⟩
  simp only [Mm.adjustOnce, h.load, bind_eq_bind, bind_some, hm₁, hm₂, hm₃]
  rfl

theorem Linked.adjustOnce_remove (hanon : Area.Shares a b) (hr : r ≠ 0) :
    ∃ mm', (∀ fuel, 2 * (pre ++ (p, a) :: (q, b) :: post).length + 1 < fuel →
        mm.adjustOnce fuel p start pgoff 0#32 q ⟨stop, r, 0, p, b.anonVma⟩ = some mm') ∧
      Linked mm' (pre ++ (p, a.reshape start stop pgoff
        (if a.anonVma = 0 then b.anonVma else a.anonVma)) :: post) := by
  have hpn : p ≠ 0#32 := h.nonnull (by simp)
  obtain ⟨mm₁, hm₁, h₁⟩ := h.importAnon (if a.anonVma = 0 then b.anonVma else a.anonVma)
  have hjoin : (if a.anonVma = 0 then if a.anonVma = 0 then b.anonVma else a.anonVma
      else a.anonVma) = if a.anonVma = 0 then b.anonVma else a.anonVma := by split <;> rfl
  rw [hjoin] at h₁
  obtain ⟨mm₂, hm₂, h₂⟩ :=
    h₁.modifyArea fun a => { a with start := start, stop := stop, pgoff := pgoff }
  obtain ⟨mm₃, hm₃, h₃⟩ := h₂.vmaUnlink
  refine ⟨_, fun fuel hfuel => ?_, h₃⟩
  have hq : Linked mm₂ ((pre ++ [(p, a.reshape start stop pgoff
      (if a.anonVma = 0 then b.anonVma else a.anonVma))]) ++ (q, b) :: post) := by
    simpa [Area.reshape] using h₂
  have hunlink := hm₃ fuel (by simpa using hfuel)
  have hshift : mm₂.shiftNext q 0 = some mm₂ := rfl
  have hsame : ¬ (b.anonVma ≠ 0 ∧
      (if a.anonVma = 0 then b.anonVma else a.anonVma) ≠ b.anonVma) := by
    unfold Area.Shares at hanon
    split <;> omega
  simp only [Mm.adjustOnce, h.load, hpn, bind_eq_bind, bind_some, ne_eq, not_true_eq_false,
    not_false_eq_true, true_or, or_true, and_true, ite_not, hm₁, hm₂, hshift, if_pos hr, h₂.load,
    hq.load, hunlink]
  rw [if_neg hsame]
  rfl

theorem Linked.vmaAdjust_shift (hstop : stop < b.stop) (start : Nat) (pgoff : BitVec 32) :
    ∃ mm' x y, (∀ fuel, mm.vmaAdjust fuel p start stop pgoff 0#32 = some mm') ∧
      Linked mm' (pre ++ (p, a.reshape start stop pgoff x) ::
        (q, Mm.shiftStart (Mm.adjustPlan a b p q stop).adjustNext { b with anonVma := y }) ::
        post) := by
  have hq : Linked mm ((pre ++ [(p, a)]) ++ (q, b) :: post) := by simpa using h
  obtain ⟨k, importer, anon, hplan, himporter⟩ : ∃ k importer anon,
      Mm.adjustPlan a b p q stop = ⟨stop, 0, k, importer, anon⟩ ∧
        (importer = 0#32 ∨ importer = p ∨ importer = q) := by
    unfold Mm.adjustPlan
    split
    · exact ⟨_, _, _, rfl, .inr (.inl rfl)⟩
    · split
      · exact ⟨_, _, _, rfl, .inr (.inr rfl)⟩
      · exact ⟨_, _, _, rfl, .inl rfl⟩
  obtain ⟨mm', x, y, hm, h'⟩ := h.adjustOnce_shift himporter
  refine ⟨mm', x, y, fun fuel => ?_, by rwa [hplan]⟩
  have hqn : q ≠ 0#32 := h.nonnull (by simp)
  simp only [Mm.vmaAdjust, h.load, hq.load, first_cons, hqn, ne_eq, bind_eq_bind,
    bind_some, if_neg (Nat.not_le.mpr hstop), hplan]
  exact hm fuel

end

theorem Linked.vmaAdjust_apart (h : Linked mm (pre ++ (p, a) :: post)) (hord : InOrder post)
    (hpost : ∀ y ∈ post, stop ≤ y.2.start) (hstop : a.stop ≤ stop) (start : Nat)
    (pgoff : BitVec 32) :
    ∃ mm', (∀ fuel, mm.vmaAdjust fuel p start stop pgoff 0#32 = some mm') ∧
      Linked mm' (pre ++ (p, a.reshape start stop pgoff a.anonVma) :: post) := by
  obtain ⟨mm', hm, -, h'⟩ := h.adjustOnce_plain (first post 0#32)
  refine ⟨mm', fun fuel => ?_, h'⟩
  cases post with
  | nil =>
    simp only [Mm.vmaAdjust, h.load]
    exact hm fuel 0#32
  | cons y post =>
    have hy : stop ≤ y.2.start := hpost y (by simp)
    have hys : y.2.start < y.2.stop := hord.filled y (by simp)
    have hnext : Linked mm ((pre ++ [(p, a)]) ++ (y.1, y.2) :: post) := by simpa using h
    have hyn : y.1 ≠ 0#32 := h.nonnull (by simp)
    simp only [Mm.vmaAdjust, h.load, hnext.load, first_cons, hyn, ne_eq, not_false_eq_true,
      and_self,
      if_true, bind_eq_bind, bind_some]
    rw [if_neg (by omega), Mm.adjustPlan, if_neg (by omega), if_neg (by omega)]
    exact hm fuel 0#32

theorem Linked.vmaAdjust_remove (h : Linked mm (pre ++ (p, a) :: (q, b) :: post))
    (hanon : a.Shares b) (start : Nat) (pgoff : BitVec 32) :
    ∃ mm' x, (∀ fuel, 2 * (pre ++ (p, a) :: (q, b) :: post).length + 1 < fuel →
        mm.vmaAdjust fuel p start b.stop pgoff 0#32 = some mm') ∧
      Linked mm' (pre ++ (p, a.reshape start b.stop pgoff x) :: post) := by
  have hq : Linked mm ((pre ++ [(p, a)]) ++ (q, b) :: post) := by simpa using h
  obtain ⟨mm', hm, h'⟩ := h.adjustOnce_remove hanon Nat.one_ne_zero
  refine ⟨mm', _, fun fuel hfuel => ?_, h'⟩
  obtain ⟨turns, rfl⟩ : ∃ k, fuel = k + 1 := ⟨fuel - 1, by omega⟩
  have hqn : q ≠ 0#32 := h.nonnull (by simp)
  simp only [Mm.vmaAdjust, Mm.adjustRemove, Mm.adjustAgain, h.load, hq.load, first_cons, hqn,
    ne_eq, bind_eq_bind, bind_some, Nat.le_refl, Nat.lt_irrefl, if_false, hm _ hfuel]
  rfl

theorem Linked.vmaAdjust_remove_two
    (h : Linked mm (pre ++ (p, a) :: (q, b) :: (r, c) :: post)) (hlt : b.stop < c.stop)
    (hab : a.Shares b) (hac : a.Shares c) (hbc : b.Shares c) (start : Nat) (pgoff : BitVec 32) :
    ∃ mm' x, (∀ fuel, 2 * (pre ++ (p, a) :: (q, b) :: (r, c) :: post).length + 1 < fuel →
        mm.vmaAdjust fuel p start c.stop pgoff 0#32 = some mm') ∧
      Linked mm' (pre ++ (p, a.reshape start c.stop pgoff x) :: post) := by
  have hq : Linked mm ((pre ++ [(p, a)]) ++ (q, b) :: (r, c) :: post) := by simpa using h
  obtain ⟨mm₁, hm₁, h₁⟩ := h.adjustOnce_remove hab (show 2 ≠ 0 by omega)
  generalize hx : (if a.anonVma = 0 then b.anonVma else a.anonVma) = x at h₁
  have hr : Linked mm₁ ((pre ++ [(p, a.reshape start b.stop pgoff x)]) ++ (r, c) :: post) := by
    simpa using h₁
  have hxc : (a.reshape start b.stop pgoff x).Shares c := by
    change x = 0 ∨ c.anonVma = 0 ∨ x = c.anonVma
    unfold Area.Shares at hac hbc
    split at hx <;> omega
  obtain ⟨mm₂, hm₂, h₂⟩ := h₁.adjustOnce_remove hxc Nat.one_ne_zero
  refine ⟨mm₂, _, fun fuel hfuel => ?_, h₂⟩
  obtain ⟨turns, rfl⟩ : ∃ k, fuel = k + 2 := ⟨fuel - 2, by omega⟩
  have hqn : q ≠ 0#32 := h.nonnull (by simp)
  have hle := Nat.le_of_lt hlt
  have hfuel₂ : 2 * (pre ++ (p, a.reshape start b.stop pgoff x) :: (r, c) :: post).length + 1 <
      turns + 2 := by
    simp only [length_append, length_cons] at hfuel ⊢
    omega
  simp only [Mm.vmaAdjust, Mm.adjustRemove, Mm.adjustAgain, h.load, hq.load, first_cons, hqn,
    ne_eq, if_true, bind_eq_bind, bind_some, hlt, hle,
    hm₁ _ hfuel, h₁.load, hr.load, Nat.not_lt.mpr hle, if_false, hm₂ _ hfuel₂]
  rfl

end SpicaKernel.Mmap
