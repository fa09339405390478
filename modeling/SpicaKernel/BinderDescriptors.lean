import Mathlib.Algebra.Group.Nat.Defs
import SpicaKernel.BinderReferences
import SpicaKernel.SearchTrees

namespace SpicaKernel.Binder.Descriptors
open List
set_option autoImplicit true

/-- What `binder_get_ref_for_node` sets of a `struct binder_ref`. -/
structure Ref where
  debugId : Nat
  node : Nat
  desc : Nat
  deriving DecidableEq

structure Trees where
  refsByDesc : SearchTree Ref
  refsByNode : SearchTree Ref

/-- The loop from `rb_first` on, with a `desc` of 32 bits. -/
def scan (desc : Nat) : List Ref → Nat
  | [] => desc
  | ref :: refs => if ref.desc > desc then desc else scan ((ref.desc + 1) % 2 ^ 32) refs

def first (contextMgr node : Nat) : Nat := if node = contextMgr then 0 else 1

/-- A step of the walk that links the reference by its descriptor; there is none at the `BUG()`. -/
def turn (desc : Nat) (ref : Ref) : Option Bool :=
  if desc < ref.desc then some true else if desc > ref.desc then some false else none

/-- `binder_get_ref_for_node`; there is no result at the `BUG()`. -/
def getRefForNode (rb : SearchTree.Rebalance Ref) (trees : Trees) (contextMgr node debugId : Nat)
    (kzalloc : Bool) : Option (Option Ref × Trees) := do
  match ← trees.refsByNode.lookup fun ref => some (compare node ref.node) with
  | some ref => return (some ref, trees)
  | none =>
    if kzalloc = false then return (none, trees)
    let ref := ⟨debugId, node, scan (first contextMgr node) trees.refsByDesc.toList⟩
    let byNode ← trees.refsByNode.insert (fun v => some (decide (node < v.node))) ref
    let byDesc ← trees.refsByDesc.insert (turn ref.desc) ref
    return (some ref, ⟨rb.apply byDesc, rb.apply byNode⟩)

structure Ordered (trees : Trees) : Prop where
  desc : trees.refsByDesc.toList.Pairwise fun a b => a.desc < b.desc
  node : trees.refsByNode.toList.Pairwise fun a b => a.node < b.node

def inUse (trees : Trees) (d : Nat) : Prop := ∃ ref ∈ trees.refsByDesc.toList, ref.desc = d

theorem find_eq_none {xs : List α} {key : α → Nat} (h : ∀ v ∈ xs, key v ≠ k) :
    xs.find? (fun v => key v = k) = none :=
  find?_eq_none.mpr fun v hv heq => h v hv (of_decide_eq_true heq)

theorem lookup_eq_find {t : SearchTree α} {key : α → Nat}
    (h : t.toList.Pairwise fun a b => key a < key b) (k : Nat) :
    t.lookup (fun v => some (compare k (key v))) = some (t.toList.find? fun v => key v = k) := by
  induction t with
  | leaf => rfl
  | node l v r ihl ihr =>
    obtain ⟨hl, hvr, hlv⟩ := pairwise_append.mp h
    obtain ⟨hv, hr⟩ := pairwise_cons.mp hvr
    have hbelow (w : α) (hw : w ∈ l.toList) : key w < key v := hlv w hw v mem_cons_self
    rw [SearchTree.lookup, SearchTree.toList, find?_append]
    rcases Nat.lt_trichotomy k (key v) with hlt | rfl | hgt
    · have hnone := find_eq_none fun w hw => Nat.ne_of_gt (Nat.lt_trans hlt (hv w hw))
      simp [Nat.compare_eq_lt.mpr hlt, ihl hl, hnone, Nat.ne_of_gt hlt]
    · have hnone := find_eq_none fun w hw => Nat.ne_of_lt (hbelow w hw)
      simp [hnone]
    · have hnone := find_eq_none fun w hw => Nat.ne_of_lt (Nat.lt_trans (hbelow w hw) hgt)
      simp [Nat.compare_eq_gt.mpr hgt, ihr hr, hnone, Nat.ne_of_lt hgt]

theorem scan_spec (hsorted : refs.Pairwise fun a b : Ref => a.desc < b.desc)
    (hstart : ∀ ref ∈ refs, desc ≤ ref.desc + 1) (hd : desc ≤ d) (hlt : d < 2 ^ 32)
    (hfree : ∀ ref ∈ refs, ref.desc ≠ d) :
    desc ≤ scan desc refs ∧ scan desc refs ≤ d ∧ (∀ ref ∈ refs, ref.desc ≠ scan desc refs) ∧
      ∀ e, desc ≤ e → e < scan desc refs → ∃ ref ∈ refs, ref.desc = e := by
  induction refs generalizing desc with
  | nil => exact ⟨Nat.le_refl _, hd, nofun, fun e he hlt => absurd hlt (Nat.not_lt.mpr he)⟩
  | cons ref refs ih =>
    obtain ⟨hmin, hsorted⟩ := pairwise_cons.mp hsorted
    have hself := hstart ref mem_cons_self
    have hne := hfree ref mem_cons_self
    rw [scan]
    split
    next hgt =>
      refine ⟨Nat.le_refl _, hd, fun r hr => ?_, fun e he hlt => absurd hlt (Nat.not_lt.mpr he)⟩
      rcases mem_cons.mp hr with rfl | hr
      · exact Nat.ne_of_gt hgt
      · exact Nat.ne_of_gt (Nat.lt_trans hgt (hmin r hr))
    next hle =>
      rw [Nat.mod_eq_of_lt (by omega)]
      obtain ⟨hge, hled, hnot, hbelow⟩ := ih hsorted
        (fun r hr => (by have := hmin r hr; omega : ref.desc + 1 ≤ r.desc + 1)) (by omega)
        fun r hr => hfree r (mem_cons_of_mem _ hr)
      refine ⟨by omega, hled, fun r hr => ?_, fun e he hlt => ?_⟩
      · rcases mem_cons.mp hr with rfl | hr
        · omega
        · exact hnot r hr
      · by_cases heq : e = ref.desc
        · exact ⟨ref, mem_cons_self, heq.symm⟩
        · obtain ⟨r, hr, hre⟩ := hbelow e (by omega) hlt
          exact ⟨r, mem_cons_of_mem _ hr, hre⟩

theorem insert_ordered {t : SearchTree α} (key : α → Nat) (x : α) {turn : α → Option Bool}
    (h : t.toList.Pairwise fun a b => key a < key b) (hnew : ∀ v ∈ t.toList, key v ≠ key x)
    (hturn : ∀ v ∈ t.toList, turn v = some (decide (key x < key v))) :
    ∃ t', t.insert turn x = some t' ∧ t'.toList.Pairwise (fun a b => key a < key b) ∧
      t'.toList.Perm (x :: t.toList) := by
  obtain ⟨t', before, after, ht', hsplit, hlist, hbefore, hafter⟩ :=
    SearchTree.toList_insert turn (fun v => key x < key v) x (fun v hv => by
        rw [hturn v hv]
        by_cases hlt : key x < key v
        · exact .inl ⟨congrArg some (decide_eq_true hlt), hlt⟩
        · exact .inr ⟨congrArg some (decide_eq_false hlt), hlt⟩)
      (h.imp fun hab hxa => Nat.lt_trans hxa hab)
  refine ⟨t', ht', ?_, hlist ▸ hsplit ▸ perm_middle⟩
  rw [hsplit] at h hnew
  rw [hlist]
  obtain ⟨hb, ha, hba⟩ := pairwise_append.mp h
  refine pairwise_append.mpr ⟨hb, pairwise_cons.mpr ⟨hafter, ha⟩, fun v hv w hw => ?_⟩
  rcases mem_cons.mp hw with rfl | hw
  · have := hbefore v hv
    have := hnew v (mem_append_left _ hv)
    omega
  · exact hba v hv w hw

section

variable {contextMgr node debugId : Nat} {kzalloc : Bool} (rb : SearchTree.Rebalance Ref)
  (h : Ordered trees)
include h

theorem getRefForNode_known (href : ref ∈ trees.refsByNode.toList) (hnode : ref.node = node) :
    getRefForNode rb trees contextMgr node debugId kzalloc = some (some ref, trees) := by
  have hfind : trees.refsByNode.toList.find? (fun v => v.node = node) = some ref := by
    have hnodup : (trees.refsByNode.toList.map Ref.node).Nodup :=
      pairwise_map.mpr (h.node.imp Nat.ne_of_lt)
    have hsome : (trees.refsByNode.toList.find? fun v => v.node = node).isSome :=
      find?_isSome.mpr ⟨ref, href, decide_eq_true hnode⟩
    obtain ⟨r, hr⟩ := Option.isSome_iff_exists.mp hsome
    have hrnode : r.node = node := by simpa using find?_some hr
    rw [hr, inj_on_of_nodup_map hnodup (mem_of_find?_eq_some hr) href (hrnode.trans hnode.symm)]
  rw [getRefForNode, lookup_eq_find h.node node, hfind]
  rfl

theorem getRefForNode_failed (hnone : ∀ ref ∈ trees.refsByNode.toList, ref.node ≠ node) :
    getRefForNode rb trees contextMgr node debugId false = some (none, trees) := by
  rw [getRefForNode, lookup_eq_find h.node node, find_eq_none hnone]
  rfl

theorem getRefForNode_new (hnone : ∀ ref ∈ trees.refsByNode.toList, ref.node ≠ node)
    (hdesc : scan (first contextMgr node) trees.refsByDesc.toList = desc)
    (hunused : ∀ ref ∈ trees.refsByDesc.toList, ref.desc ≠ desc) :
    ∃ trees', getRefForNode rb trees contextMgr node debugId true =
        some (some ⟨debugId, node, desc⟩, trees') ∧ Ordered trees' ∧
      trees'.refsByDesc.toList.Perm (⟨debugId, node, desc⟩ :: trees.refsByDesc.toList) ∧
      trees'.refsByNode.toList.Perm (⟨debugId, node, desc⟩ :: trees.refsByNode.toList) := by
  obtain ⟨byNode, hbyNode, hordNode, hpermNode⟩ :=
    insert_ordered Ref.node ⟨debugId, node, desc⟩ h.node hnone fun v _ => rfl
  have hturn (v : Ref) (hv : v ∈ trees.refsByDesc.toList) :
      turn desc v = some (decide (desc < v.desc)) := by
    grind [turn]
  obtain ⟨byDesc, hbyDesc, hordDesc, hpermDesc⟩ :=
    insert_ordered Ref.desc ⟨debugId, node, desc⟩ h.desc hunused hturn
  refine ⟨⟨rb.apply byDesc, rb.apply byNode⟩, ?_, ⟨?_, ?_⟩, ?_, ?_⟩
  · rw [getRefForNode, lookup_eq_find h.node node, find_eq_none hnone, hdesc]
    simp [hbyNode, hbyDesc]
  · rwa [rb.toList_apply]
  · rwa [rb.toList_apply]
  · rwa [rb.toList_apply]
  · rwa [rb.toList_apply]

end

theorem first_le (contextMgr node : Nat) : first contextMgr node ≤ 1 := by
  rw [first]
  split <;> decide

theorem binder_get_ref_for_node_least (rb : SearchTree.Rebalance Ref) (h : Ordered trees)
    (contextMgr node debugId : Nat) (kzalloc : Bool) :
    (∀ ref ∈ trees.refsByNode.toList, ref.node = node →
      getRefForNode rb trees contextMgr node debugId kzalloc = some (some ref, trees)) ∧
    ((∀ ref ∈ trees.refsByNode.toList, ref.node ≠ node) →
      getRefForNode rb trees contextMgr node debugId false = some (none, trees) ∧
      ((∃ d, first contextMgr node ≤ d ∧ d < 2 ^ 32 ∧ ¬ inUse trees d) →
        ∃ desc trees', getRefForNode rb trees contextMgr node debugId true =
            some (some ⟨debugId, node, desc⟩, trees') ∧
          first contextMgr node ≤ desc ∧ desc < 2 ^ 32 ∧ ¬ inUse trees desc ∧
          (∀ d, first contextMgr node ≤ d → d < desc → inUse trees d) ∧ Ordered trees' ∧
          trees'.refsByDesc.toList.Perm (⟨debugId, node, desc⟩ :: trees.refsByDesc.toList) ∧
          trees'.refsByNode.toList.Perm (⟨debugId, node, desc⟩ :: trees.refsByNode.toList))) := by
  refine ⟨fun ref href hnode => getRefForNode_known rb h href hnode, fun hnone =>
    ⟨getRefForNode_failed rb h hnone, ?_⟩⟩
  rintro ⟨d, hd, hlt, hnot⟩
  obtain ⟨hge, hled, hunused, hbelow⟩ := scan_spec h.desc
    (fun ref _ => Nat.le_trans (first_le contextMgr node) (Nat.le_add_left 1 _)) hd hlt
    fun ref href heq => hnot ⟨ref, href, heq⟩
  obtain ⟨trees', hget, hord, hperms⟩ := getRefForNode_new rb h hnone rfl hunused
  exact ⟨_, trees', hget, hge, Nat.lt_of_le_of_lt hled hlt,
    fun ⟨ref, href, heq⟩ => hunused ref href heq, hbelow, hord, hperms⟩

def threeRefs : Trees where
  refsByDesc := .node (.node .leaf ⟨1, 30, 0⟩ .leaf) ⟨2, 10, 1⟩ (.node .leaf ⟨3, 20, 3⟩ .leaf)
  refsByNode := .node (.node .leaf ⟨2, 10, 1⟩ .leaf) ⟨3, 20, 3⟩ (.node .leaf ⟨1, 30, 0⟩ .leaf)

theorem binder_get_ref_for_node_least_gap : ∃ desc trees',
    getRefForNode ⟨id, fun _ => rfl⟩ threeRefs 30 40 4 true = some (some ⟨4, 40, desc⟩, trees') ∧
      ¬ inUse threeRefs desc ∧ (∀ d, 1 ≤ d → d < desc → inUse threeRefs d) ∧ Ordered trees' := by
  have hordered : Ordered threeRefs := ⟨by decide, by decide⟩
  have hfree : ¬ inUse threeRefs 2 := by simp [inUse, threeRefs, SearchTree.toList]
  obtain ⟨desc, trees', hget, -, -, hnot, hbelow, hord, -⟩ :=
    ((binder_get_ref_for_node_least ⟨id, fun _ => rfl⟩ hordered 30 40 4 true).2 (by decide)).2
      ⟨2, by decide, by decide, hfree⟩
  exact ⟨desc, trees', hget, hnot, hbelow, hord⟩

section Driver

open References

/-- A reference of the driver as the trees of its process hold it. -/
def view (s : Driver) (r : Nat) : Ref :=
  ⟨r, ((s.refs r).map BinderRef.node).getD 0, refDesc s r⟩

/-- The trees hold the references that the process `p` has in the driver. -/
structure Shows (s : Driver) (p : Nat) (trees : Trees) : Prop where
  ordered : Ordered trees
  byDesc : trees.refsByDesc.toList = (s.refsByDesc p).map (view s)
  byNode : trees.refsByNode.toList.Perm ((s.refsByNode p).map (view s))

/-- As long as a descriptor is free, the scan with 32 bits finds the one that the driver's does. -/
theorem scan_eq_freeDesc (hsorted : refs.Pairwise fun a b : Ref => a.desc < b.desc)
    (hstart : ∀ ref ∈ refs, desc ≤ ref.desc + 1) (hd : desc ≤ d) (hlt : d < 2 ^ 32)
    (hfree : ∀ ref ∈ refs, ref.desc ≠ d) : scan desc refs = freeDesc desc (refs.map Ref.desc) := by
  induction refs generalizing desc with
  | nil => rfl
  | cons ref refs ih =>
    obtain ⟨hmin, hsorted⟩ := pairwise_cons.mp hsorted
    have hself := hstart ref mem_cons_self
    have hne := hfree ref mem_cons_self
    rw [scan, map_cons, freeDesc]
    split
    · rfl
    · rw [Nat.mod_eq_of_lt (by omega)]
      refine ih hsorted (fun r hr => ?_) (by omega) fun r hr => hfree r (mem_cons_of_mem _ hr)
      have := hmin r hr
      omega

theorem find_ref {s : Driver} (hfind : (s.refsByNode p).find?
    (fun r => (s.refs r).any fun ref => ref.node = n) = some r) :
    r ∈ s.refsByNode p ∧ (view s r).node = n := by
  refine ⟨mem_of_find?_eq_some hfind, ?_⟩
  have hany := find?_some hfind
  cases hr : s.refs r with
  | none => simp [hr] at hany
  | some ref => simpa [view, hr] using hany

theorem find_no_ref {s : Driver} (ha : Accounts room s) (hs : Shows s p trees)
    (hfind : (s.refsByNode p).find? (fun r => (s.refs r).any fun ref => ref.node = n) = none) :
    ∀ ref ∈ trees.refsByNode.toList, ref.node ≠ n := by
  intro ref href hnode
  obtain ⟨r, hr, rfl⟩ := mem_map.mp (hs.byNode.mem_iff.mp href)
  obtain ⟨e, he, -⟩ := (ha.balanced.byNode.mem p r).mp hr
  obtain ⟨ref, href, -⟩ := Option.map_eq_some_iff.mp he
  have hno := find?_eq_none.mp hfind r hr
  simp only [view, href, Option.map_some, Option.getD_some] at hnode
  simp [href, hnode] at hno

theorem view_insertRef (hr : r ≠ s.nextId) : view (insertRef s p n desc node) r = view s r := by
  simp [view, refDesc, insertRef, Driver.setRef, Driver.setNode, Function.update_of_ne hr]

theorem view_insertRef_new :
    view (insertRef s p n desc node) s.nextId = ⟨s.nextId, n, desc⟩ := by
  simp [view, refDesc, insertRef, Driver.setRef, Driver.setNode]

/-- The views of the references that a process has already are not changed by a new one. -/
theorem map_view_insertRef {index : Nat → List Nat} (ha : Accounts room s)
    (hindex : s.book.Indexed index) :
    (index p).map (view (insertRef s p n desc node)) = (index p).map (view s) := by
  refine map_congr_left fun r hr => view_insertRef ?_
  rintro rfl
  obtain ⟨e, he, -⟩ := (hindex.mem p _).mp hr
  simp [Driver.book, ha.freshRef] at he

theorem Shows.insertRef {s : Driver} (hs : Shows s p trees) (ha : Accounts room s)
    (hn : s.nodes n = some node) (hdesc : desc ∉ (s.refsByDesc p).map (refDesc s))
    (hord : Ordered trees')
    (hpermDesc : trees'.refsByDesc.toList.Perm (⟨s.nextId, n, desc⟩ :: trees.refsByDesc.toList))
    (hpermNode : trees'.refsByNode.toList.Perm (⟨s.nextId, n, desc⟩ :: trees.refsByNode.toList)) :
    Shows (insertRef s p n desc node) p trees' := by
  have hnew := ha.insertRef hn hdesc
  have hnodes : (Binder.insertRef s p n desc node).refsByNode p = s.nextId :: s.refsByNode p :=
    Function.update_self ..
  have hdescs : ((Binder.insertRef s p n desc node).refsByDesc p).Perm
      (s.nextId :: s.refsByDesc p) := by
    dsimp only [Binder.insertRef]
    rw [Function.update_self]
    exact perm_orderedInsert _ _ _
  refine ⟨hord, ?_, ?_⟩
  · have hsorted := hnew.balanced.sorted p
    rw [book_key] at hsorted
    refine Perm.eq_of_pairwise ?_ hord.desc (pairwise_map.mpr hsorted) ?_
    · exact fun a b _ _ hab hba => absurd hab (Nat.lt_asymm hba)
    · refine hpermDesc.trans (Perm.trans ?_ (hdescs.map _).symm)
      rw [map_cons, view_insertRef_new, hs.byDesc]
      exact Perm.of_eq (congrArg _ (map_view_insertRef ha ha.balanced.byKey).symm)
  · rw [hnodes, map_cons, view_insertRef_new]
    refine hpermNode.trans (Perm.trans (hs.byNode.cons _) (Perm.of_eq (congrArg _ ?_)))
    exact (map_view_insertRef ha ha.balanced.byNode).symm

/-- The function on the trees refines that of the driver: it finds or makes the same reference, and
the trees then hold the references of the process in the new state. -/
theorem getRefForNode_refines (rb : SearchTree.Rebalance Ref) {s : Driver} (ha : Accounts room s)
    (hs : Shows s p trees) (hn : s.nodes n = some node)
    (hmgr : s.contextMgrNode = some n ↔ n = contextMgr)
    (hfree : ∃ d, first contextMgr n ≤ d ∧ d < 2 ^ 32 ∧ ¬ inUse trees d) :
    ∃ r s' trees', binderGetRefForNode s p n kzalloc = .ok (r, s') ∧
      getRefForNode rb trees contextMgr n s.nextId kzalloc = some (r.map (view s'), trees') ∧
      Shows s' p trees' := by
  unfold binderGetRefForNode
  cases hfind : (s.refsByNode p).find? (fun r => (s.refs r).any fun ref => ref.node = n) with
  | some r =>
    obtain ⟨hmem, hnode⟩ := find_ref hfind
    refine ⟨some r, s, trees, rfl, getRefForNode_known rb hs.ordered ?_ hnode, hs⟩
    exact hs.byNode.mem_iff.mpr (mem_map_of_mem hmem)
  | none =>
    have hnone := find_no_ref ha hs hfind
    cases kzalloc with
    | false => exact ⟨none, s, trees, rfl, getRefForNode_failed rb hs.ordered hnone, hs⟩
    | true =>
      obtain ⟨d, hd, hlt, hnot⟩ := hfree
      have hstart (ref : Ref) (_ : ref ∈ trees.refsByDesc.toList) :
          first contextMgr n ≤ ref.desc + 1 :=
        Nat.le_trans (first_le contextMgr n) (Nat.le_add_left 1 _)
      have hunfree (ref : Ref) (href : ref ∈ trees.refsByDesc.toList) : ref.desc ≠ d :=
        fun heq => hnot ⟨ref, href, heq⟩
      have hdescs : (s.refsByDesc p).map (refDesc s) = trees.refsByDesc.toList.map Ref.desc := by
        rw [hs.byDesc, map_map]
        rfl
      have hscan : scan (first contextMgr n) trees.refsByDesc.toList = newDesc s p n := by
        rw [newDesc, hdescs, scan_eq_freeDesc hs.ordered.desc hstart hd hlt hunfree, first]
        simp only [hmgr]
      obtain ⟨-, -, hunused, -⟩ := scan_spec hs.ordered.desc hstart hd hlt hunfree
      rw [hscan] at hunused
      have hfresh : newDesc s p n ∉ (s.refsByDesc p).map (refDesc s) := by
        rw [hdescs]
        intro hmem
        obtain ⟨ref, href, heq⟩ := mem_map.mp hmem
        exact hunused ref href heq
      obtain ⟨trees', hget, hord, hpermDesc, hpermNode⟩ :=
        getRefForNode_new rb hs.ordered hnone hscan hunused
      refine ⟨some s.nextId, insertRef s p n (newDesc s p n) node, trees', ?_, ?_,
        hs.insertRef ha hn hfresh hord hpermDesc hpermNode⟩
      · rw [node_eq_ok.mpr hn]
        exact if_neg hfresh
      · rw [Option.map_some, view_insertRef_new]
        exact hget

end Driver

end SpicaKernel.Binder.Descriptors
