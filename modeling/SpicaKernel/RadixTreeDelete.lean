import SpicaKernel.RadixTreeInsert

namespace SpicaKernel.RadixTree
open Function Digits Tally List Option
set_option autoImplicit true

structure NodeOf.Dying (n : Node) : Prop where
  slots : ∀ o, o ≠ 0 → n.slots o = .null
  tags : ∀ t o, o ≠ 0 → n.tags t o = false

theorem NodeOf.Dying.rcuFree {n : Node} (hn : n.Dying) : n.rcuFree.Clean := by
  refine ⟨fun o => ?_, fun t o => ?_, rfl⟩
  · change update n.slots 0 .null o = .null
    by_cases ho : o = 0
    · rw [ho, update_self]
    · rw [update_of_ne ho, hn.slots o ho]
  · change ((n.setTag 0 0 false).setTag 1 0 false).flags o t = false
    by_cases ho : o = 0
    · rw [ho]
      match t with
      | 0 => rfl
      | 1 => rfl
    · rw [NodeOf.flags_setTag_of_ne _ _ _ _ ho, NodeOf.flags_setTag_of_ne _ _ _ _ ho]
      exact hn.tags t o ho

theorem leafTag_eq (index : Index) (t : Tag) (hv : Slot.Valid (h + 1) s tags)
    (he : s.entry (h + 1) tags index.toNat = some (x, b)) :
    leafTag index t (h + 1) s = some (b t) := by
  induction h generalizing s tags with
  | zero =>
    cases hv with
    | null => simp at he
    | @node _ _ n hheight hcount htags hslots =>
      rw [Slot.entry_node] at he
      rw [leafTag, offset_eq]
      cases hs : n.slots (place 64 index.toNat 0) with
      | item y =>
        rw [hs] at he
        obtain ⟨-, rfl⟩ := Prod.mk.inj (some.inj he)
        rfl
      | null =>
        rw [hs] at he
        cases he
      | node m =>
        rw [hs] at he
        cases he
  | succ h ih =>
    cases hv with
    | null => simp at he
    | @node _ _ n hheight hcount htags hslots =>
      rw [leafTag, offset_eq]
      exact ih (hslots _) he

theorem clearTags_eq (ts : List Tag) (hr : r.Valid) (hh : r.height = h + 1)
    (hi : ¬ maxindex r.height < index) (he : r.entries index.toNat = some (x, b)) :
    ∃ r', clearTags index ts r = some r' ∧ r'.Valid ∧ r'.height = r.height ∧
      r'.entries = update r.entries index.toNat
        (some (x, ts.foldl (fun b t => update b t false) b)) := by
  induction ts generalizing r b with
  | nil =>
    refine ⟨r, rfl, hr, rfl, ?_⟩
    rw [foldl_nil, ← he, update_eq_self]
  | cons t ts ih =>
    have hslot := hr.slot
    have hat := he
    rw [Root.entries_of_le hr.height hi, hh] at hat
    rw [hh] at hslot
    have hleaf := leafTag_eq index t hslot hat
    rw [← hh] at hleaf
    cases hb : b t with
    | true =>
      obtain ⟨r₁, hclear, hr₁, hh₁, he₁⟩ := radixTreeTagClear_eq index t hr
      have hat₁ : r₁.entries index.toNat = some (x, update b t false) := by
        rw [he₁, update_self, he]
        rfl
      obtain ⟨r', hrun, hr', hh', he'⟩ := ih hr₁ (hh₁.trans hh) (hh₁ ▸ hi) hat₁
      refine ⟨r', ?_, hr', hh'.trans hh₁, ?_⟩
      · simp [clearTags, hleaf, hb, hclear, hrun]
      · rw [he', he₁, update_idem, foldl_cons]
    | false =>
      obtain ⟨r', hrun, hr', hh', he'⟩ := ih hr hh hi he
      refine ⟨r', ?_, hr', hh', ?_⟩
      · simp [clearTags, hleaf, hb, hrun]
      · rw [he', foldl_cons, ← hb, update_eq_self]

structure Unlinking (i : Nat) (h : Nat) (tags : Flags) (s : Slot) (s' : Slot) (a : Ascent)
    (freed : List Node) : Prop where
  valid : s'.Valid h tags
  empty : a = .empty → s' = .null
  filled : a ≠ .empty → s'.filled
  entries : SetAt (64 ^ h) i none (s.entry h tags) (s'.entry h tags)
  dying : ∀ n ∈ freed, n.Dying

theorem Slot.Valid.vacant (hv : Slot.Valid (h + 1) (.node n) tags) (h0 : n.count = 0) :
    (∀ o, n.slots o = .null) ∧ (∀ o, n.flags o = noTags) ∧ tags = noTags := by
  cases hv with
  | node hheight hcount htags hslots =>
    have hnull : ∀ o, (n.slots o).isNull = true := fun o => by
      simpa [Slot.filled] using tally_eq_zero.mp (hcount.symm.trans h0) o
    have hflags : ∀ o, n.flags o = noTags := fun o => (hslots o).tags_of_null (hnull o)
    refine ⟨fun o => Slot.isNull_iff.mp (hnull o), hflags, ?_⟩
    rw [htags, Root.anyTagSet_level fun o _ => hflags o, hflags]

section Unlink

variable {n m : Node}

theorem Unlinking.replace (hv : Slot.Valid (h + 1) (.node n) tags)
    (hu : Unlinking i h (n.flags (place 64 i h)) (n.slots (place 64 i h)) child a freed)
    (hheight : m.height = n.height) (htags : m.tags = n.tags)
    (hslots : m.slots = update n.slots (place 64 i h) child)
    (hcount : m.count = tally Slot.filled m.slots) :
    Slot.Valid (h + 1) (.node m) tags ∧ SetAt (64 ^ (h + 1)) i none
      (Slot.entry (h + 1) (.node n) tags) (Slot.entry (h + 1) (.node m) tags) := by
  have hself : m.slots (place 64 i h) = child := by rw [hslots, update_self]
  have hflags : m.flags = n.flags := by
    funext o t
    exact congrFun (congrFun htags t) o
  have hoff : ∀ p, p ≠ place 64 i h → m.slots p = n.slots p ∧ m.flags p = n.flags p := by
    intro p hne
    rw [hslots, update_of_ne hne, hflags]
    exact ⟨rfl, rfl⟩
  constructor
  · have hany : tags = m.anyTagSet := by
      cases hv with
      | node _ _ hany =>
        rw [hany]
        funext t
        rw [NodeOf.anyTagSet, NodeOf.anyTagSet, htags]
    rw [hany]
    refine hv.replace hheight hcount hoff ?_
    rw [hself, hflags]
    exact hu.valid
  · refine Slot.entry_replace hoff ?_
    rw [hself, hflags]
    exact hu.entries

theorem Unlinking.step (hv : Slot.Valid (h + 1) (.node n) tags)
    (hfull : (n.slots (place 64 i h)).filled)
    (hu : Unlinking i h (n.flags (place 64 i h)) (n.slots (place 64 i h)) child a freed) :
    ∃ s' a' freed', n.unlink (place 64 i h) (child, a, freed) = (s', a', freed') ∧
      Unlinking i (h + 1) tags (.node n) s' a' freed' := by
  have hcount : n.count = tally Slot.filled n.slots := by
    cases hv with
    | node _ hcount => exact hcount
  have hlive (ha : a ≠ .empty) : Unlinking i (h + 1) tags (.node n)
      (.node (n.setSlot (place 64 i h) child)) .below freed := by
    have hsame := tally_update_same (f := n.slots) ((hu.filled ha).trans hfull.symm)
    obtain ⟨hvalid, hset⟩ := hu.replace (m := n.setSlot (place 64 i h) child) hv rfl rfl rfl
      (hcount.trans hsame.symm)
    exact ⟨hvalid, nofun, fun _ => rfl, hset, hu.dying⟩
  cases a with
  | empty =>
    have hnull := hu.empty rfl
    have hless := tally_update_clear (v := child) hfull (by rw [hnull]; rfl)
    obtain ⟨hvalid, hset⟩ := hu.replace (m := { n.setSlot (place 64 i h) .null with
        count := n.count - 1 }) hv rfl rfl (by rw [hnull]; rfl) (by
      change n.count - 1 = tally Slot.filled (update n.slots (place 64 i h) .null)
      rw [← hnull]
      omega)
    by_cases h0 : n.count - 1 = 0
    · obtain ⟨hslots, hflags, htags⟩ := hvalid.vacant h0
      refine ⟨.null, .empty, _, if_pos h0, .null htags, fun _ => rfl, fun hne => absurd rfl hne,
        ?_, ?_⟩
      · have hempty : Slot.entry (h + 1) .null tags = Slot.entry (h + 1)
            (.node { n.setSlot (place 64 i h) .null with count := n.count - 1 }) tags := by
          funext j
          rw [Slot.entry_null, Slot.entry_node, hslots, Slot.entry_null]
        rw [hempty]
        exact hset
      · intro m hm
        rcases mem_append.mp hm with hm | hm
        · exact hu.dying m hm
        · rw [mem_singleton.mp hm]
          exact ⟨fun o _ => hslots o, fun t o _ => congrFun (hflags o) t⟩
    · exact ⟨_, .here, freed, if_neg h0, hvalid, nofun, fun _ => rfl, hset, hu.dying⟩
  | here => exact ⟨_, .below, freed, rfl, hlive nofun⟩
  | below => exact ⟨_, .below, freed, rfl, hlive nofun⟩

end Unlink

theorem deleteAt_eq (index : Index) (hv : Slot.Valid h s tags)
    (he : s.entry h tags index.toNat = some (x, noTags)) :
    ∃ s' a freed, deleteAt index h s = some (s', a, freed) ∧
      Unlinking index.toNat h tags s s' a freed := by
  induction hv with
  | null => simp at he
  | item =>
    obtain ⟨-, rfl⟩ := Prod.mk.inj (some.inj he)
    refine ⟨.null, .empty, [], rfl, .null rfl, fun _ => rfl, fun hne => absurd rfl hne, ?_, nofun⟩
    intro j
    simp [Nat.mod_one]
  | @node tags h n hheight hcount htags hslots ih =>
    rw [Slot.entry_node] at he
    obtain ⟨child, a, freed, hrun, hu⟩ := ih _ he
    have hfull : (n.slots (place 64 index.toNat h)).filled = true := by
      cases hs : n.slots (place 64 index.toNat h) with
      | null => simp [hs] at he
      | _ => rfl
    obtain ⟨s', a', freed', hstep, hu'⟩ := hu.step (.node hheight hcount htags hslots) hfull
    refine ⟨s', a', freed', ?_, hu'⟩
    rw [deleteAt, offset_eq, hrun, map_some, hstep]

theorem radixTreeShrink_eq (hv : Slot.Valid h s tags) (hf : s.filled) :
    ∃ h' s' freed, radixTreeShrink h s = some (h', s', freed) ∧ h' ≤ h ∧ s'.Valid h' tags ∧
      (∀ n ∈ freed, n.Dying) ∧ Root.entries ⟨h', tags, s'⟩ = Root.entries ⟨h, tags, s⟩ := by
  induction hv with
  | null => cases hf
  | item => exact ⟨0, _, [], rfl, Nat.le_refl 0, .item, nofun, rfl⟩
  | @node tags h n hheight hcount htags hslots ih =>
    by_cases hc : n.count = 1 ∧ (n.slots 0).filled
    · have hoff : ∀ o, o ≠ 0 → n.slots o = .null := by
        intro o ho
        cases hs : n.slots o with
        | null => rfl
        | _ => exact absurd (eq_of_tally_eq_one (hcount.symm.trans hc.1) (by rw [hs]; rfl) hc.2) ho
      have hflags : ∀ o, o ≠ 0 → n.flags o = noTags :=
        fun o ho => (hslots o).tags_of_null (by rw [hoff o ho]; rfl)
      have htags' : tags = n.flags 0 := htags.trans (Root.anyTagSet_level hflags)
      obtain ⟨h', s', freed, hrun, hle, hvalid, hdying, hentries⟩ := ih 0 hc.2
      refine ⟨h', s', n :: freed, ?_, Nat.le_succ_of_le hle, htags' ▸ hvalid, ?_, ?_⟩
      · have hnull : (n.slots 0).isNull = false := by simpa [Slot.filled] using hc.2
        simp only [radixTreeShrink, hc.1, hnull, hrun]
        rfl
      · intro m hm
        rcases mem_cons.mp hm with rfl | hm
        · exact ⟨hoff, fun t o ho => congrFun (hflags o ho) t⟩
        · exact hdying m hm
      · rw [Root.entries_level h tags hoff, ← hentries, htags']
    · refine ⟨h + 1, .node n, [], ?_, Nat.le_refl _, .node hheight hcount htags hslots, nofun, rfl⟩
      rw [radixTreeShrink, if_neg]
      simpa [Slot.filled] using hc

theorem unlinkRoot_eq (hr : r.Valid) (hi : ¬ maxindex r.height < index)
    (hu : Unlinking index.toNat r.height r.tags r.rnode s a freed) :
    ∃ r' freed', unlinkRoot r (s, a, freed) = some (r', freed') ∧ r'.Valid ∧
      (∀ n ∈ freed', n.Dying) ∧ r'.entries = update r.entries index.toNat none := by
  have hentries : Root.entries { r with rnode := s } = update r.entries index.toNat none :=
    Root.entries_update rfl hr.height hi hu.entries
  cases a with
  | empty =>
    refine ⟨⟨0, fun _ => false, .null⟩, freed, rfl, ⟨by decide, .null rfl⟩, hu.dying, ?_⟩
    rw [← hentries, hu.empty rfl]
    funext j
    simp [Root.entries]
  | here =>
    obtain ⟨h', s', more, hrun, hle, hvalid, hdying, hsame⟩ :=
      radixTreeShrink_eq hu.valid (hu.filled Ascent.noConfusion)
    refine ⟨{ r with height := h', rnode := s' }, freed ++ more, ?_,
      ⟨Nat.le_trans hle hr.height, hvalid⟩, ?_, hsame.trans hentries⟩
    · simp only [unlinkRoot, hrun]
      rfl
    · intro n hn
      exact (mem_append.mp hn).elim (hu.dying n) (hdying n)
  | below => exact ⟨_, freed, rfl, ⟨hr.height, hu.valid⟩, hu.dying, hentries⟩

theorem deleteRoot_eq (hr : r.Valid) (hh : r.height = h + 1)
    (hi : ¬ maxindex r.height < index) (he : r.entries index.toNat = some (x, b)) :
    ∃ r' freed, deleteRoot r index = some (r', freed) ∧ r'.Valid ∧ (∀ n ∈ freed, n.Dying) ∧
      r'.entries = update r.entries index.toNat none := by
  obtain ⟨r₁, hclear, hr₁, hh₁, he₁⟩ := clearTags_eq [0, 1] hr hh hi he
  have hi₁ : ¬ maxindex r₁.height < index := hh₁ ▸ hi
  have hnone : [0, 1].foldl (fun b t => update b t false) b = noTags := by
    funext t
    match t with
    | 0 => rfl
    | 1 => rfl
  have hat : r₁.rnode.entry r₁.height r₁.tags index.toNat = some (x, noTags) := by
    rw [← Root.entries_of_le hr₁.height hi₁, he₁, update_self, hnone]
  obtain ⟨s, a, freed, hrun, hu⟩ := deleteAt_eq index hr₁.slot hat
  obtain ⟨r', freed', hend, hr', hdying, he'⟩ := unlinkRoot_eq hr₁ hi₁ hu
  refine ⟨r', freed', ?_, hr', hdying, ?_⟩
  · simp [deleteRoot, hclear, hrun, hend]
  · rw [he', he₁, update_idem]

theorem radixTreeDelete_eq (index : Index) (hr : r.Valid) : ∃ r' freed, radixTreeDelete r index =
        some ((r.entries index.toNat).map Prod.fst, r', freed) ∧ r'.Valid ∧
      (∀ n ∈ freed, n.Dying) ∧ r'.entries = update r.entries index.toNat none := by
  by_cases hi : maxindex r.height < index
  · have hnone := Root.entries_of_gt hr.height hi
    refine ⟨r, [], ?_, hr, nofun, ?_⟩
    · rw [radixTreeDelete, if_pos hi, hnone]
      rfl
    · rw [← hnone, update_eq_self]
  · have hlook := lookupAt_eq index hr.slot
    rw [← Root.entries_of_le hr.height hi] at hlook
    by_cases h0 : r.height = 0
    · refine ⟨⟨0, fun _ => false, .null⟩, [], ?_, ⟨by decide, .null rfl⟩, nofun, ?_⟩
      · simp [radixTreeDelete, if_neg hi, hlook, if_pos h0]
      · have hlt : index.toNat < 64 ^ r.height :=
          Nat.not_le.mp (mt (maxindex_lt_iff hr.height index).mpr hi)
        have hzero : index.toNat = 0 := by
          rw [h0] at hlt
          exact Nat.lt_one_iff.mp hlt
        funext j
        by_cases hj : j = 0
        · simp [hj, hzero, Root.entries]
        · have hout : ¬ j < 64 ^ r.height := by
            rw [h0]
            exact fun hj' => hj (Nat.lt_one_iff.mp hj')
          rw [update_of_ne (hzero ▸ hj), Root.entries, Root.entries, if_neg hout]
          simp
    · cases he : r.entries index.toNat with
      | none =>
        rw [he] at hlook
        refine ⟨r, [], ?_, hr, nofun, ?_⟩
        · simp only [radixTreeDelete, if_neg hi, hlook, if_neg h0]
          rfl
        · rw [← he, update_eq_self]
      | some e =>
        obtain ⟨h, hh⟩ := Nat.exists_eq_succ_of_ne_zero h0
        obtain ⟨r', freed, hrun, hrest⟩ := deleteRoot_eq hr hh hi he
        rw [he] at hlook
        refine ⟨r', freed, ?_, hrest⟩
        simp only [radixTreeDelete, if_neg hi, hlook, if_neg h0, hrun]
        rfl

open BitVec

/-- A tree with its former nodes: those that wait for the readers, and those back in the slab. -/
structure Tree where
  root : Root
  free : List Node
  dying : List Node

def Tree.empty : Tree := ⟨⟨0, noTags, .null⟩, [], []⟩

/-- The calls on a tree; `reclaim` is the callback of `call_rcu` for one of the nodes. -/
inductive Call where
  | insert (index : Index) (x : Item) (grants : List Grant)
  | delete (index : Index)
  | lookup (index : Index)
  | tagSet (index : Index) (t : Tag)
  | tagClear (index : Index) (t : Tag)
  | tagGet (index : Index) (t : Tag)
  | tagged (t : Tag)
  | reclaim (k : Nat)

inductive Answer where
  | code (e : Int)
  | item (x : Option Item)
  | bit (b : Bool)
  | done

def Tree.reclaim (s : Tree) (k : Nat) : Tree :=
  match s.dying[k]? with
  | none => s
  | some n => { s with free := n.rcuFree :: s.free, dying := s.dying.eraseIdx k }

def Tree.step (s : Tree) : Call → Option (Answer × Tree)
  | .insert index x grants => do
    let (e, r, m) ← radixTreeInsert s.root index x ⟨s.free, grants⟩
    return (.code e, ⟨r, m.free, s.dying⟩)
  | .delete index => do
    let (x, r, freed) ← radixTreeDelete s.root index
    return (.item x, ⟨r, s.free, s.dying ++ freed⟩)
  | .lookup index => do
    let x ← radixTreeLookup s.root index
    return (.item x, s)
  | .tagSet index t => do
    let (x, r) ← radixTreeTagSet s.root index t
    return (.item x, { s with root := r })
  | .tagClear index t => do
    let (x, r) ← radixTreeTagClear s.root index t
    return (.item x, { s with root := r })
  | .tagGet index t => do
    let b ← radixTreeTagGet s.root index t
    return (.bit b, s)
  | .tagged t => some (.bit (radixTreeTagged s.root t), s)
  | .reclaim k => some (.done, s.reclaim k)

/-- What a tree is for: a partial map from indices to items, each with a set of tags. -/
abbrev Book := Index → Option Entry

namespace Book

/-- Setting a tag on an index that is not present is a bug of the caller. -/
def Allows (M : Book) : Call → Prop
  | .tagSet index _ => (M index).isSome
  | _ => True

def next (M : Book) : Call → Answer → Book
  | .insert index x _, .code e =>
    if e = 0 then Function.update M index (some (x, noTags)) else M
  | .delete index, _ => Function.update M index none
  | .tagSet index t, _ =>
    Function.update M index ((M index).map fun e => (e.1, Function.update e.2 t true))
  | .tagClear index t, _ =>
    Function.update M index ((M index).map fun e => (e.1, Function.update e.2 t false))
  | _, _ => M

end Book

inductive Reachable : Tree → Book → Prop where
  | empty : Reachable .empty fun _ => none
  | step : Reachable s M → M.Allows c → s.step c = some (a, s') → Reachable s' (M.next c a)

structure Tree.Holds (s : Tree) (M : Book) : Prop where
  root : s.root.Valid
  bounded : ∀ i, 2 ^ 32 ≤ i → s.root.entries i = none
  free : ∀ n ∈ s.free, n.Clean
  dying : ∀ n ∈ s.dying, n.Dying
  book : ∀ i : Index, M i = s.root.entries i.toNat

theorem Tree.holds_empty : Tree.empty.Holds fun _ => none := by
  refine ⟨⟨by decide, .null rfl⟩, fun i _ => ?_, nofun, nofun, fun i => ?_⟩
  · simp [Root.entries, Tree.empty]
  · simp [Root.entries, Tree.empty]

namespace Tree.Holds

variable {s : Tree} {M : Book}

section
variable (h : s.Holds M)
include h

theorem update (hr : r.Valid)
    (hslab : ∀ n ∈ slab, n.Clean) (hwaiting : ∀ n ∈ waiting, n.Dying)
    (hent : r.entries = Function.update s.root.entries index.toNat v) :
    Tree.Holds ⟨r, slab, waiting⟩ (Function.update M index v) := by
  refine ⟨hr, fun i hi => ?_, hslab, hwaiting, fun i => ?_⟩
  · have hne : i ≠ index.toNat := by
      omega
    rw [hent, update_of_ne hne, h.bounded i hi]
  · change _ = r.entries i.toNat
    rw [hent, update_apply, update_apply, h.book i]
    simp only [toNat_inj]

theorem insert (index : Index) (x : Item) (grants : List Grant) :
    ∃ e s', s.step (.insert index x grants) = some (.code e, s') ∧ Accepted (M index) e ∧
      s'.Holds (M.next (.insert index x grants) (.code e)) := by
  obtain ⟨e, r, m, hrun, hm, hr, hacc, hent⟩ :=
    radixTreeInsert_eq (m := ⟨s.free, grants⟩) index x h.root h.free
  have hholds := h.update hr hm h.dying hent
  rw [← h.book index] at hacc hholds
  refine ⟨e, ⟨r, m.free, s.dying⟩, ?_, hacc, ?_⟩
  · simp only [Tree.step, hrun]
    rfl
  · rw [inserted] at hholds
    rw [Book.next]
    split at hholds
    next he => rwa [if_pos he]
    next he => rwa [if_neg he, ← update_eq_self index M]

theorem delete (index : Index) :
    ∃ s', s.step (.delete index) = some (.item ((M index).map Prod.fst), s') ∧
      s'.Holds (Function.update M index none) := by
  obtain ⟨r, freed, hrun, hr, hdying, hent⟩ := radixTreeDelete_eq index h.root
  refine ⟨⟨r, s.free, s.dying ++ freed⟩, ?_, h.update hr h.free ?_ hent⟩
  · simp only [Tree.step, hrun, h.book index]
    rfl
  · intro n hn
    exact (mem_append.mp hn).elim (h.dying n) (hdying n)

theorem lookup (index : Index) :
    s.step (.lookup index) = some (.item ((M index).map Prod.fst), s) := by
  simp only [Tree.step, radixTreeLookup_eq index h.root, h.book index]
  rfl

theorem tagSet (t : Tag) (hx : M index = some e) :
    ∃ s', s.step (.tagSet index t) = some (.item (some e.1), s') ∧
      s'.Holds (Function.update M index (some (e.1, Function.update e.2 t true))) := by
  have he := hx
  rw [h.book index] at he
  obtain ⟨r, hrun, hr, hent⟩ := radixTreeTagSet_eq t h.root he
  refine ⟨{ s with root := r }, ?_, h.update hr h.free h.dying hent⟩
  simp only [Tree.step, hrun]
  rfl

theorem tagClear (index : Index) (t : Tag) :
    ∃ s', s.step (.tagClear index t) = some (.item ((M index).map Prod.fst), s') ∧
      s'.Holds (Function.update M index (untagged (M index) t)) := by
  obtain ⟨r, hrun, hr, -, hent⟩ := radixTreeTagClear_eq index t h.root
  rw [h.book index]
  refine ⟨{ s with root := r }, ?_, h.update hr h.free h.dying hent⟩
  simp only [Tree.step, hrun]
  rfl

theorem tagGet (index : Index) (t : Tag) :
    s.step (.tagGet index t) = some (.bit (carries (M index) t), s) := by
  simp only [Tree.step, radixTreeTagGet_eq index t h.root, h.book index]
  rfl

theorem root_tag_iff (t : Tag) :
    s.root.tags t = true ↔ ∃ i, carries (M i) t = true := by
  rw [h.root.tag_iff t]
  constructor
  · rintro ⟨i, hi⟩
    have hlt : i < 2 ^ 32 := by
      by_contra hge
      rw [h.bounded i (Nat.not_lt.mp hge)] at hi
      cases hi
    refine ⟨BitVec.ofNat 32 i, ?_⟩
    rw [h.book, toNat_ofNat, Nat.mod_eq_of_lt hlt]
    exact hi
  · rintro ⟨i, hi⟩
    exact ⟨i.toNat, h.book i ▸ hi⟩

theorem reclaim (k : Nat) : (s.reclaim k).Holds M := by
  rw [Tree.reclaim]
  split
  · exact h
  · rename_i n hn
    refine ⟨h.root, h.bounded, ?_, fun m hm => h.dying m (mem_of_mem_eraseIdx hm), h.book⟩
    intro m hm
    rcases mem_cons.mp hm with rfl | hm
    · exact (h.dying n (mem_of_getElem? hn)).rcuFree
    · exact h.free m hm

theorem step (hc : M.Allows c) (hs : s.step c = some (a, s')) :
    s'.Holds (M.next c a) := by
  cases c with
  | insert index x grants =>
    obtain ⟨e, s₁, hrun, -, hholds⟩ := h.insert index x grants
    obtain ⟨rfl, rfl⟩ := Prod.mk.inj (some.inj (hrun.symm.trans hs))
    exact hholds
  | delete index =>
    obtain ⟨s₁, hrun, hholds⟩ := h.delete index
    obtain ⟨rfl, rfl⟩ := Prod.mk.inj (some.inj (hrun.symm.trans hs))
    exact hholds
  | lookup index =>
    obtain ⟨rfl, rfl⟩ := Prod.mk.inj (some.inj ((h.lookup index).symm.trans hs))
    exact h
  | tagSet index t =>
    obtain ⟨e, he⟩ := isSome_iff_exists.mp hc
    obtain ⟨s₁, hrun, hholds⟩ := h.tagSet t he
    obtain ⟨rfl, rfl⟩ := Prod.mk.inj (some.inj (hrun.symm.trans hs))
    rw [Book.next, he]
    exact hholds
  | tagClear index t =>
    obtain ⟨s₁, hrun, hholds⟩ := h.tagClear index t
    obtain ⟨rfl, rfl⟩ := Prod.mk.inj (some.inj (hrun.symm.trans hs))
    exact hholds
  | tagGet index t =>
    obtain ⟨rfl, rfl⟩ := Prod.mk.inj (some.inj ((h.tagGet index t).symm.trans hs))
    exact h
  | tagged t =>
    obtain ⟨rfl, rfl⟩ := Prod.mk.inj (some.inj hs)
    exact h
  | reclaim k =>
    obtain ⟨rfl, rfl⟩ := Prod.mk.inj (some.inj hs)
    exact h.reclaim k

end

end Tree.Holds

theorem Reachable.holds (h : Reachable s M) : s.Holds M := by
  induction h with
  | empty => exact Tree.holds_empty
  | step _ hc hs ih => exact ih.step hc hs

/-- No call fails, whatever the allocator does, and the answers are those of a partial map. -/
theorem radix_tree_refines_map (h : Reachable s M) :
    (∀ index x grants, ∃ e s', s.step (.insert index x grants) = some (.code e, s') ∧
      (e = -EEXIST ↔ (M index).isSome) ∧
      (e = 0 ∧ M index = none ∧ Reachable s' (Function.update M index (some (x, noTags))) ∨
        (e = -EEXIST ∨ e = -ENOMEM) ∧ Reachable s' M)) ∧
    (∀ index, ∃ s', s.step (.delete index) = some (.item ((M index).map Prod.fst), s') ∧
      Reachable s' (Function.update M index none)) ∧
    ∀ index, s.step (.lookup index) = some (.item ((M index).map Prod.fst), s) := by
  refine ⟨fun index x grants => ?_, fun index => ?_, h.holds.lookup⟩
  · obtain ⟨e, s', hrun, hacc, -⟩ := h.holds.insert index x grants
    have hr : Reachable s' (M.next (.insert index x grants) (.code e)) := h.step trivial hrun
    refine ⟨e, s', hrun, ?_, ?_⟩
    · rcases hacc with ⟨hsome, rfl⟩ | ⟨hnone, rfl | rfl⟩
      · exact iff_of_true rfl hsome
      · exact iff_of_false (by decide) (by simp [hnone])
      · exact iff_of_false (by decide) (by simp [hnone])
    · rcases hacc with ⟨-, rfl⟩ | ⟨hnone, rfl | rfl⟩
      · exact .inr ⟨.inl rfl, hr⟩
      · exact .inl ⟨rfl, hnone, hr⟩
      · exact .inr ⟨.inr rfl, hr⟩
  · obtain ⟨s', hrun, -⟩ := h.holds.delete index
    have hr : Reachable s' (M.next (.delete index) _) := h.step trivial hrun
    exact ⟨s', hrun, hr⟩

/-- Items at 64, 65 and 200, so that two leaves are below the root. -/
def threeItems : Option Tree := do
  let (_, s) ← Tree.empty.step (.insert 64 ⟨4, by decide⟩ [.fresh, .fresh])
  let (_, s) ← s.step (.insert 65 ⟨8, by decide⟩ [])
  let (_, s) ← s.step (.insert 200 ⟨12, by decide⟩ [.fresh])
  return s

def threeBook : Book :=
  update (update (update (fun _ => none) 64 (some (⟨4, by decide⟩, noTags)))
    65 (some (⟨8, by decide⟩, noTags))) 200 (some (⟨12, by decide⟩, noTags))

theorem reachable_three : ∃ s, threeItems = some s ∧ Reachable s threeBook := by
  have h₁ := Reachable.empty.step (c := .insert 64 ⟨4, by decide⟩ [.fresh, .fresh]) trivial rfl
  have h₂ := h₁.step (c := .insert 65 ⟨8, by decide⟩ []) trivial rfl
  have h₃ := h₂.step (c := .insert 200 ⟨12, by decide⟩ [.fresh]) trivial rfl
  exact ⟨_, rfl, h₃⟩

theorem radix_tree_refines_map_three : ∃ s s', threeItems = some s ∧
    s.step (.delete 64) = some (.item (some ⟨4, by decide⟩), s') ∧
    s'.step (.lookup 64) = some (.item none, s') ∧
    s'.step (.lookup 65) = some (.item (some ⟨8, by decide⟩), s') ∧
    s'.step (.lookup 200) = some (.item (some ⟨12, by decide⟩), s') := by
  obtain ⟨s, heq, hs⟩ := reachable_three
  obtain ⟨-, hdelete, -⟩ := radix_tree_refines_map hs
  obtain ⟨s', hrun, hs'⟩ := hdelete 64
  obtain ⟨-, -, hlookup⟩ := radix_tree_refines_map hs'
  exact ⟨s, s', heq, hrun, hlookup 64, hlookup 65, hlookup 200⟩

/-- The node on the path to an index that has so many levels of nodes below it. -/
def Slot.nodeAt (i level : Nat) : Nat → Slot → Option Node
  | h + 1, .node n => if h = level then some n else nodeAt i level h (n.slots (place 64 i h))
  | _, _ => none

theorem Slot.Valid.nodeAt (hv : Slot.Valid h s tags) (hn : s.nodeAt i level h = some n) :
    (∀ o, Slot.Valid level (n.slots o) (n.flags o)) ∧ level < h ∧
      ∀ j, j / 64 ^ (level + 1) = i / 64 ^ (level + 1) →
        s.entry h tags j = Slot.entry level (n.slots (place 64 j level))
          (n.flags (place 64 j level)) j := by
  induction hv with
  | @null _ h => cases h <;> cases hn
  | item => cases hn
  | @node tags h m hheight hcount htags hslots ih =>
    rw [Slot.nodeAt] at hn
    split at hn
    next heq =>
      obtain rfl := some.inj hn
      subst heq
      exact ⟨hslots, Nat.lt_succ_self h, fun j _ => rfl⟩
    next hne =>
      obtain ⟨hvalid, hlt, hentry⟩ := ih _ hn
      refine ⟨hvalid, Nat.lt_succ_of_lt hlt, fun j hj => ?_⟩
      have hplace : place 64 j h = place 64 i h := by
        rw [place, place, div_pow_eq_of_le hj hlt]
      rw [Slot.entry_node, hplace]
      exact hentry j hj

theorem Tree.Holds.tag_iff {s : Tree} (h : s.Holds M) (t : Tag) (hi : i < 64 ^ s.root.height)
    (hn : s.root.rnode.nodeAt i level s.root.height = some n) (o : Offset) :
    n.tags t o = true ↔ ∃ j : Index, j.toNat / 64 ^ (level + 1) = i / 64 ^ (level + 1) ∧
      offset j level = o ∧ carries (M j) t = true := by
  obtain ⟨hslots, hlevel, hentry⟩ := h.root.slot.nodeAt hn
  have hbound : ∀ {j : Nat}, j / 64 ^ (level + 1) = i / 64 ^ (level + 1) →
      j < 64 ^ s.root.height := by
    intro j hj
    have hzero := div_pow_eq_of_le hj hlevel
    rw [Nat.div_eq_of_lt hi] at hzero
    exact (Nat.div_eq_zero_iff_lt (Nat.pow_pos (by decide))).mp hzero
  have htag := (hslots o).tag_iff t
  constructor
  · intro ho
    obtain ⟨k, hk, e, he, het⟩ := htag.mp ho
    obtain ⟨j, hdiv, hplace, hmod⟩ := exists_compose (i / 64 ^ (level + 1)) o hk
    have hj : s.root.entries j = some e := by
      rw [Root.entries, if_pos (hbound hdiv), hentry j hdiv, hplace, ← he]
      exact Slot.entry_congr (by rw [hmod, Nat.mod_eq_of_lt hk])
    have hlt : j < 2 ^ 32 := by
      by_contra hge
      rw [h.bounded j (Nat.not_lt.mp hge)] at hj
      cases hj
    have hback : (BitVec.ofNat 32 j).toNat = j := by
      rw [toNat_ofNat, Nat.mod_eq_of_lt hlt]
    refine ⟨BitVec.ofNat 32 j, by rw [hback, hdiv], by rw [offset_eq, hback, hplace], ?_⟩
    rw [h.book, hback]
    exact carries_iff.mpr ⟨e, hj, het⟩
  · rintro ⟨j, hdiv, hplace, hj⟩
    obtain ⟨e, he, het⟩ := carries_iff.mp hj
    rw [h.book, Root.entries, if_pos (hbound hdiv), hentry _ hdiv, ← offset_eq, hplace] at he
    refine htag.mpr ⟨j.toNat % 64 ^ level, Nat.mod_lt _ (Nat.pow_pos (by decide)), e, ?_, het⟩
    rw [← he]
    exact Slot.entry_congr (Nat.mod_mod _ _)

/-- The tag bits of the nodes and the root, and what is read from them, are those of the items. -/
theorem radix_tree_tags_exact (h : Reachable s M) (t : Tag) : (∀ i level n, i < 64 ^ s.root.height →
      s.root.rnode.nodeAt i level s.root.height = some n →
      ∀ o, n.tags t o = true ↔ ∃ j : Index, j.toNat / 64 ^ (level + 1) = i / 64 ^ (level + 1) ∧
        offset j level = o ∧ carries (M j) t = true) ∧
    (s.root.tags t = true ↔ ∃ j, carries (M j) t = true) ∧
    (∀ index x grants s', s.step (.insert index x grants) = some (.code 0, s') →
      Reachable s' (Function.update M index (some (x, noTags)))) ∧
    (∀ index, (M index).isSome → ∃ s',
      s.step (.tagSet index t) = some (.item ((M index).map Prod.fst), s') ∧
      Reachable s' (Function.update M index
        ((M index).map fun e => (e.1, Function.update e.2 t true)))) ∧
    (∀ index, ∃ s', s.step (.tagClear index t) = some (.item ((M index).map Prod.fst), s') ∧
      Reachable s' (Function.update M index
        ((M index).map fun e => (e.1, Function.update e.2 t false)))) ∧
    (∀ index, s.step (.tagGet index t) = some (.bit (carries (M index) t), s)) ∧
    ∃ b, s.step (.tagged t) = some (.bit b, s) ∧ (b = true ↔ ∃ j, carries (M j) t = true) := by
  refine ⟨fun i level n hi hn => h.holds.tag_iff t hi hn, h.holds.root_tag_iff t, ?_, ?_, ?_,
    fun index => h.holds.tagGet index t, s.root.tags t, rfl, h.holds.root_tag_iff t⟩
  · intro index x grants s' hs
    have hr : Reachable s' (M.next (.insert index x grants) (.code 0)) := h.step trivial hs
    exact hr
  · intro index hx
    obtain ⟨e, he⟩ := isSome_iff_exists.mp hx
    obtain ⟨s', hrun, -⟩ := h.holds.tagSet t he
    have hr : Reachable s' (M.next (.tagSet index t) _) := h.step hx hrun
    exact ⟨s', by rw [hrun, he]; rfl, hr⟩
  · intro index
    obtain ⟨s', hrun, -⟩ := h.holds.tagClear index t
    have hr : Reachable s' (M.next (.tagClear index t) _) := h.step trivial hrun
    exact ⟨s', hrun, hr⟩

theorem radix_tree_tags_exact_three : ∃ s M, Reachable s M ∧
    s.step (.tagGet 65 0) = some (.bit true, s) ∧ s.step (.tagGet 65 1) = some (.bit false, s) ∧
    s.step (.tagGet 64 0) = some (.bit false, s) ∧
    s.step (.tagGet 200 0) = some (.bit false, s) := by
  obtain ⟨s, -, hs⟩ := reachable_three
  obtain ⟨-, -, -, hset, -⟩ := radix_tree_tags_exact hs 0
  obtain ⟨s', -, hs'⟩ := hset 65 rfl
  obtain ⟨-, -, -, -, -, hget₀, -⟩ := radix_tree_tags_exact hs' 0
  obtain ⟨-, -, -, -, -, hget₁, -⟩ := radix_tree_tags_exact hs' 1
  exact ⟨s', _, hs', hget₀ 65, hget₁ 65, hget₀ 64, hget₀ 200⟩

end SpicaKernel.RadixTree
