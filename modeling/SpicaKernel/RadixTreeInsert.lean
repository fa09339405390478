import SpicaKernel.RadixTree

namespace SpicaKernel.RadixTree
open Function Digits Tally Option
set_option autoImplicit true

structure NodeOf.Clean (n : Node) : Prop where
  slots : ∀ o, n.slots o = .null
  tags : ∀ t o, n.tags t o = false
  count : n.count = 0

def Supply.Clean (m : Supply) : Prop := ∀ n ∈ m.free, n.Clean

theorem Supply.alloc_clean {m : Supply} (hm : m.Clean) :
    (∀ n ∈ m.alloc.1, n.Clean) ∧ m.alloc.2.Clean := by
  unfold Supply.alloc
  split
  · exact ⟨nofun, hm⟩
  · exact ⟨nofun, hm⟩
  · refine ⟨?_, hm⟩
    rintro n ⟨⟩
    exact ⟨fun _ => rfl, fun _ _ => rfl, rfl⟩
  · split
    · exact ⟨nofun, hm⟩
    · rename_i k _ _ n hn
      refine ⟨?_, fun n' hn' => hm n' (List.mem_of_mem_eraseIdx hn')⟩
      rintro n' ⟨⟩
      exact hm n (List.mem_of_getElem? hn)

namespace NodeOf.Clean

variable {n : Node}

theorem tally_eq (hn : n.Clean) : tally Slot.filled n.slots = 0 :=
  tally_eq_zero.mpr fun o => by rw [hn.slots o]; rfl

theorem anyTagSet (hn : n.Clean) : n.anyTagSet = noTags := by
  funext t
  simp [NodeOf.anyTagSet, hn.tags, noTags]

theorem valid (hn : n.Clean) (h : Nat) :
    Slot.Valid (h + 1) (.node { n with height := h + 1 }) noTags := by
  refine .node rfl (hn.count.trans hn.tally_eq.symm) hn.anyTagSet.symm fun o => ?_
  rw [hn.slots o]
  exact .null (funext fun t => hn.tags t o)

theorem entry (hn : n.Clean) (h : Nat) (tags : Flags) :
    Slot.entry (h + 1) (.node { n with height := h + 1 }) tags = fun _ => none := by
  funext i
  change Slot.entry h (n.slots _) _ i = none
  rw [hn.slots, Slot.entry_null]

end NodeOf.Clean

def Accepted (b : Option Entry) (e : Int) : Prop :=
  b.isSome ∧ e = -EEXIST ∨ b = none ∧ (e = 0 ∨ e = -ENOMEM)

/-- The entry that it leaves at the index. -/
def inserted (b : Option Entry) (x : Item) (e : Int) : Option Entry :=
  if e = 0 then some (x, noTags) else b

structure Filling (index : Index) (x : Item) (h : Nat) (tags : Flags) (slot : Slot) (e : Int)
    (slot' : Slot) : Prop where
  valid : slot'.Valid h tags
  filled : slot.filled → slot'.filled
  code : Accepted (slot.entry h tags index.toNat) e
  entries : SetAt (64 ^ h) index.toNat (inserted (slot.entry h tags index.toNat) x e)
    (slot.entry h tags) (slot'.entry h tags)

theorem setAt_entry (h : Nat) (s : Slot) (tags : Flags) (i : Nat) :
    SetAt (64 ^ h) i (s.entry h tags i) (s.entry h tags) (s.entry h tags) := by
  intro j
  split
  next hj => exact Slot.entry_congr hj
  next => rfl

theorem NodeOf.link_count {n : Node} (hcount : n.count = tally Slot.filled n.slots)
    (hfill : (n.slots o).filled → child.filled) :
    (n.link o child).count = tally Slot.filled (n.link o child).slots := by
  change (if (n.slots o).isNull && !child.isNull then n.count + 1 else n.count) =
    tally Slot.filled (update n.slots o child)
  rw [hcount]
  cases hs : (n.slots o).isNull with
  | true =>
    have hslot : (n.slots o).filled = false := by simp [Slot.filled, hs]
    cases hc : child.isNull with
    | true => simp [tally_update_same (hslot ▸ (by simp [Slot.filled, hc] : child.filled = false))]
    | false => simp [tally_update_fill hslot (by simp [Slot.filled, hc] : child.filled)]
  | false =>
    have hslot : (n.slots o).filled = true := by simp [Slot.filled, hs]
    simp [tally_update_same ((hfill hslot).trans hslot.symm)]

theorem Filling.putBack (hv : Slot.Valid (h + 1) (.node n) tags)
    (hf : Filling index x h (n.flags (offset index h)) (n.slots (offset index h)) e child) :
    n.putBack (offset index h) h (e, child, m) =
        some (e, .node (n.link (offset index h) child), m) ∧
      Filling index x (h + 1) tags (.node n) e (.node (n.link (offset index h) child)) := by
  rw [offset_eq] at hf ⊢
  generalize hp : place 64 index.toNat h = o at hf ⊢
  have hself : (n.link o child).slots o = child := update_self ..
  have hoff : ∀ p, p ≠ o → (n.link o child).slots p = n.slots p ∧
      (n.link o child).flags p = n.flags p :=
    fun p hne => ⟨update_of_ne hne .., rfl⟩
  constructor
  · refine if_neg ?_
    rintro ⟨rfl, rfl, htag⟩
    have hslot : (n.slots o).isNull := by
      cases hs : n.slots o with
      | null => rfl
      | item y =>
        rcases hf.code with ⟨-, he⟩ | ⟨he, -⟩
        · cases he
        · simp [hs, Slot.entry] at he
      | node y =>
        cases hv with
        | node _ _ _ hslots =>
          have hbad := hslots o
          rw [hs] at hbad
          cases hbad
    have hnone : n.flags o = noTags := by
      cases hv with
      | node _ _ _ hslots => exact (hslots o).tags_of_null hslot
    have h0 : n.tags 0 o = false := congrFun hnone 0
    have h1 : n.tags 1 o = false := congrFun hnone 1
    simp [h0, h1] at htag
  · have hentry : ∀ tags', Slot.entry (h + 1) (.node n) tags' index.toNat =
        Slot.entry h (n.slots o) (n.flags o) index.toNat := by
      intro tags'
      rw [Slot.entry_node, hp]
    refine ⟨?_, fun _ => rfl, ?_, ?_⟩
    · cases hv with
      | node hheight hcount htags hslots =>
        rw [htags]
        exact Slot.Valid.replace (.node hheight hcount htags hslots) rfl
          (NodeOf.link_count hcount hf.filled) hoff (hself.symm ▸ hf.valid)
    · rw [hentry]
      exact hf.code
    · rw [hentry]
      subst hp
      refine Slot.entry_replace hoff ?_
      rw [hself]
      exact hf.entries

theorem insertAt_filling (index : Index) (x : Item) (hv : Slot.Valid h slot tags) (hm : m.Clean) :
    ∃ e slot' m', insertAt index x h slot m = some (e, slot', m') ∧ m'.Clean ∧
      Filling index x h tags slot e slot' := by
  induction h generalizing slot tags m with
  | zero =>
    cases hv with
    | null htags =>
      refine ⟨0, .item x, m, rfl, hm, .item, nofun, .inr ⟨rfl, .inl rfl⟩, ?_⟩
      intro j
      simp [inserted, Slot.entry, htags, Nat.mod_one]
    | @item y =>
      exact ⟨-EEXIST, .item y, m, rfl, hm, .item, fun _ => rfl, .inl ⟨rfl, rfl⟩,
        setAt_entry 0 (.item y) tags _⟩
  | succ h ih =>
    have hnode : ∀ {n : Node} {m : Supply}, Slot.Valid (h + 1) (.node n) tags → m.Clean →
        ∃ e slot' m', (insertAt index x h (n.slots (offset index h)) m).bind
            (n.putBack (offset index h) h) = some (e, slot', m') ∧ m'.Clean ∧ slot'.filled ∧
          Filling index x (h + 1) tags (.node n) e slot' := by
      intro n m hv hm
      have hslot : Slot.Valid h (n.slots (offset index h)) (n.flags (offset index h)) := by
        cases hv with
        | node _ _ _ hslots => exact hslots _
      obtain ⟨e, child, m', hins, hm', hf⟩ := ih hslot hm
      obtain ⟨hput, hf'⟩ := hf.putBack hv
      exact ⟨e, _, m', by rw [hins, bind_some, hput], hm', rfl, hf'⟩
    cases hv with
    | null htags =>
      obtain ⟨hclean, hrest⟩ := Supply.alloc_clean hm
      cases ha : m.alloc with
      | mk got m₁ =>
        rw [ha] at hclean hrest
        cases got with
        | none =>
          refine ⟨-ENOMEM, .null, m₁, by simp [insertAt, ha], hrest, .null htags, id,
            .inr ⟨by simp, .inr rfl⟩, ?_⟩
          exact setAt_entry (h + 1) .null tags _
        | some n =>
          have hn : n.Clean := hclean n rfl
          obtain ⟨e, slot', m', hrun, hm', hfilled, hf⟩ := hnode (htags ▸ hn.valid h) hrest
          have hbefore : Slot.entry (h + 1) .null tags =
              Slot.entry (h + 1) (.node { n with height := h + 1 }) tags := by
            rw [hn.entry]
            exact funext fun i => Slot.entry_null ..
          refine ⟨e, slot', m', by simpa only [insertAt, ha] using hrun, hm', hf.valid,
            fun _ => hfilled, ?_, ?_⟩
          · rw [hbefore]
            exact hf.code
          · rw [hbefore]
            exact hf.entries
    | node hheight hcount htags hslots =>
      obtain ⟨e, slot', m', hrun, hm', -, hf⟩ := hnode (.node hheight hcount htags hslots) hm
      exact ⟨e, slot', m', hrun, hm', hf⟩

theorem heightFor_eq (fuel : Nat) (index : Index) (hh : h ≤ 6) (hfuel : 6 - h < fuel) :
    ∃ h', heightFor index fuel h = some h' ∧ h ≤ h' ∧ h' ≤ 6 ∧ ¬ maxindex h' < index := by
  induction fuel generalizing h with
  | zero => omega
  | succ fuel ih =>
    by_cases hi : maxindex h < index
    · have hne : h ≠ 6 := by
        rintro rfl
        have hle := (maxindex_lt_iff hh index).mp hi
        omega
      obtain ⟨h', hr, hle, hrest⟩ := ih (h := h + 1) (by omega) (by omega)
      exact ⟨h', by rw [heightFor, if_pos hi, hr], by omega, hrest⟩
    · exact ⟨h, by rw [heightFor, if_neg hi], Nat.le_refl h, hh, hi⟩

namespace Root

variable {r : Root} {n : Node}

theorem raised_flags_zero (hn : n.Clean) : (r.raised n).flags 0 = r.tags := by
  funext t
  change (if r.tags t then update (n.tags t) 0 true else n.tags t) 0 = r.tags t
  cases r.tags t with
  | true => simp
  | false => exact hn.tags t 0

theorem raised_flags_of_ne (hn : n.Clean) (ho : o ≠ 0) : (r.raised n).flags o = noTags := by
  funext t
  change (if r.tags t then update (n.tags t) 0 true else n.tags t) o = false
  cases r.tags t with
  | true => simpa [ho] using hn.tags t o
  | false => exact hn.tags t o

theorem raised_slot_of_ne (hn : n.Clean) (ho : o ≠ 0) : (r.raised n).slots o = .null :=
  (update_of_ne ho ..).trans (hn.slots o)

theorem raised_valid (hr : r.Valid) (hn : n.Clean) (hfill : r.rnode.filled) :
    Slot.Valid (r.height + 1) (.node (r.raised n)) r.tags := by
  refine .node rfl ?_ ?_ fun o => ?_
  · change 1 = tally Slot.filled (update n.slots 0 r.rnode)
    rw [tally_update_fill (by rw [hn.slots 0]; rfl) hfill, hn.tally_eq]
  · rw [anyTagSet_level fun o ho => raised_flags_of_ne hn ho, raised_flags_zero hn]
  · by_cases ho : o = 0
    · rw [ho, raised_flags_zero hn]
      exact hr.slot
    · rw [raised_slot_of_ne hn ho]
      exact .null (raised_flags_of_ne hn ho)

theorem raised_entries (hn : n.Clean) :
    Root.entries { r with rnode := .node (r.raised n), height := r.height + 1 } = r.entries := by
  rw [Root.entries_level _ _ fun o ho => raised_slot_of_ne hn ho, raised_flags_zero hn]
  rfl

end Root

theorem extendLoop_eq (fuel height : Nat) (hr : r.Valid) (hm : m.Clean) (hfill : r.rnode.filled)
    (hlt : r.height < height) (hh : height ≤ 6) (hfuel : height - r.height ≤ fuel) :
    ∃ e r' m', extendLoop height fuel r m = some (e, r', m') ∧ m'.Clean ∧ r'.Valid ∧
      r'.entries = r.entries ∧ (e = 0 ∧ r'.height = height ∨ e = -ENOMEM) := by
  induction fuel generalizing r m with
  | zero => omega
  | succ fuel ih =>
    obtain ⟨hclean, hrest⟩ := Supply.alloc_clean hm
    cases ha : m.alloc with
    | mk got m₁ =>
      rw [ha] at hclean hrest
      cases got with
      | none =>
        exact ⟨-ENOMEM, r, m₁, by simp [extendLoop, ha], hrest, hr, rfl, .inr rfl⟩
      | some n =>
        have hn : n.Clean := hclean n rfl
        have hr₁ : Root.Valid { r with rnode := .node (r.raised n), height := r.height + 1 } :=
          ⟨Nat.le_trans hlt hh, Root.raised_valid hr hn hfill⟩
        have hsame := Root.raised_entries (r := r) hn
        by_cases hmore : r.height + 1 < height
        · obtain ⟨e, r', m', hrun, hm', hr', he, hcode⟩ :=
            ih hr₁ hrest rfl hmore (Nat.sub_le_of_le_add (by change _ ≤ _ + (r.height + 1); omega))
          refine ⟨e, r', m', ?_, hm', hr', he.trans hsame, hcode⟩
          simpa only [extendLoop, ha, hmore, if_true] using hrun
        · refine ⟨0, _, m₁, ?_, hrest, hr₁, hsame, .inl ⟨rfl, by change r.height + 1 = _; omega⟩⟩
          simp [extendLoop, ha, hmore]

theorem radixTreeExtend_eq (hr : r.Valid) (hm : m.Clean) (hi : maxindex r.height < index) :
    ∃ e r' m', radixTreeExtend r index m = some (e, r', m') ∧ m'.Clean ∧ r'.Valid ∧
      r'.entries = r.entries ∧ (e = 0 ∧ ¬ maxindex r'.height < index ∨ e = -ENOMEM) := by
  have hlow : r.height ≠ 6 := by
    intro h6
    have hle := (maxindex_lt_iff hr.height index).mp hi
    rw [h6] at hle
    omega
  have hbound := hr.height
  obtain ⟨height, hheight, hgt, hh, hmax⟩ := heightFor_eq 8 index
    (h := r.height + 1) (by omega) (by omega)
  cases hnull : r.rnode.isNull with
  | true =>
    have hslot := Slot.isNull_iff.mp hnull
    refine ⟨0, { r with height := height }, m, ?_, hm, ⟨hh, ?_⟩, ?_, .inl ⟨rfl, hmax⟩⟩
    · simp only [radixTreeExtend, hheight, hnull]
      rfl
    · have hslot' := hr.slot.tags_of_null hnull
      rw [hslot]
      exact .null hslot'
    · funext j
      simp [Root.entries, hslot]
  | false =>
    have hfill : r.rnode.filled := by simp [Slot.filled, hnull]
    obtain ⟨e, r', m', hrun, hm', hr', hsame, hcode⟩ :=
      extendLoop_eq 8 height hr hm hfill (by omega) hh (by omega)
    refine ⟨e, r', m', ?_, hm', hr', hsame, ?_⟩
    · simpa only [radixTreeExtend, hheight, hnull, bind_eq_bind, bind_some,
        Bool.false_eq_true, if_false] using hrun
    · rcases hcode with ⟨he, hheq⟩ | he
      · exact .inl ⟨he, hheq.symm ▸ hmax⟩
      · exact .inr he

theorem insertRoot_eq (x : Item) (hr : r.Valid) (hm : m.Clean) (hi : ¬ maxindex r.height < index) :
    ∃ e r' m', insertRoot r index x m = some (e, r', m') ∧ m'.Clean ∧ r'.Valid ∧
      Accepted (r.entries index.toNat) e ∧
      r'.entries = update r.entries index.toNat (inserted (r.entries index.toNat) x e) := by
  obtain ⟨e, slot, m', hrun, hm', hf⟩ := insertAt_filling index x hr.slot hm
  have hat := Root.entries_of_le hr.height hi
  refine ⟨e, { r with rnode := slot }, m', ?_, hm', ⟨hr.height, hf.valid⟩, hat ▸ hf.code, ?_⟩
  · have hbug : ¬ (r.height = 0 ∧ e = 0 ∧ (r.tags 0 ∨ r.tags 1)) := by
      rintro ⟨h0, rfl, htag⟩
      have hslot := hr.slot
      have hcode := hf.code
      rw [h0] at hslot hcode
      cases hs : r.rnode with
      | null =>
        rw [hslot.tags_of_null (by rw [hs]; rfl)] at htag
        simp [noTags] at htag
      | item y =>
        rcases hcode with ⟨-, he⟩ | ⟨he, -⟩
        · cases he
        · simp [hs, Slot.entry] at he
      | node y =>
        rw [hs] at hslot
        cases hslot
    simp [insertRoot, hrun, if_neg hbug]
  · rw [hat]
    exact Root.entries_update rfl hr.height hi hf.entries

theorem radixTreeInsert_eq (index : Index) (x : Item) (hr : r.Valid) (hm : m.Clean) :
    ∃ e r' m', radixTreeInsert r index x m = some (e, r', m') ∧ m'.Clean ∧ r'.Valid ∧
      Accepted (r.entries index.toNat) e ∧
      r'.entries = update r.entries index.toNat (inserted (r.entries index.toNat) x e) := by
  have hbug : ¬ x.val &&& 1#32 ≠ 0#32 := not_not_intro x.property.2
  by_cases hi : maxindex r.height < index
  · obtain ⟨e, r₁, m₁, hext, hm₁, hr₁, hsame, hcode⟩ := radixTreeExtend_eq hr hm hi
    rcases hcode with ⟨rfl, hi₁⟩ | rfl
    · obtain ⟨e, r', m', hrun, hm', hr', hacc, hent⟩ := insertRoot_eq x hr₁ hm₁ hi₁
      rw [hsame] at hacc hent
      refine ⟨e, r', m', ?_, hm', hr', hacc, hent⟩
      simp [radixTreeInsert, if_neg hbug, if_pos hi, hext, hrun]
    · refine ⟨-ENOMEM, r₁, m₁, ?_, hm₁, hr₁, .inr ⟨Root.entries_of_gt hr.height hi, .inr rfl⟩, ?_⟩
      · simp only [radixTreeInsert, if_neg hbug, if_pos hi, hext]
        rfl
      · rw [hsame]
        exact (update_eq_self ..).symm
  · obtain ⟨e, r', m', hrun, hrest⟩ := insertRoot_eq x hr hm hi
    exact ⟨e, r', m', by rw [radixTreeInsert, if_neg hbug, if_neg hi, hrun], hrest⟩

def carries (b : Option Entry) (t : Tag) : Bool := b.any fun e => e.2 t

theorem carries_iff : carries b t = true ↔ ∃ e, b = some e ∧ e.2 t = true := by
  cases b <;> simp [carries]

theorem lookupAt_eq (index : Index) (hv : Slot.Valid h s tags) :
    lookupAt index h s = some ((s.entry h tags index.toNat).map Prod.fst) := by
  induction hv with
  | null htags =>
    rw [Slot.entry_null]
    unfold lookupAt
    rfl
  | item => rfl
  | node hheight hcount htags hslots ih =>
    rw [lookupAt, Slot.entry_node, ih, offset_eq]

theorem radixTreeLookup_eq (index : Index) (hr : r.Valid) :
    radixTreeLookup r index = some ((r.entries index.toNat).map Prod.fst) := by
  rcases hr.forms with hs | ⟨x, hs, hh⟩ | ⟨n, h, hs, hh, hn⟩
  · simp [radixTreeLookup, hs, Root.entries]
  · by_cases hi : 0#32 < index
    · have hpos : ¬ index.toNat < 64 ^ r.height := by
        rw [hh]
        exact Nat.not_lt.mpr (BitVec.lt_def.mp hi)
      simp [radixTreeLookup, hs, hi, Root.entries, hpos]
    · have hzero : index.toNat < 64 ^ r.height := by
        rw [hh]
        exact Nat.lt_one_iff.mpr (Nat.le_zero.mp (Nat.not_lt.mp (hi)))
      simp only [radixTreeLookup, hs, hi, Root.entries, hzero]
      rw [hh]
      rfl
  · have hslot := hr.slot
    rw [hs] at hslot
    simp only [radixTreeLookup, hs, hn]
    by_cases hi : maxindex r.height < index
    · rw [if_pos hi, Root.entries_of_gt hr.height hi]
      rfl
    · rw [if_neg hi, lookupAt_eq index hslot, Root.entries_of_le hr.height hi, hs]

namespace NodeOf

variable (n : Node) (t : Tag) (o : Offset) (b : Bool)

theorem flags_setTag_self : (n.setTag t o b).flags o = update (n.flags o) t b := by
  funext t'
  by_cases ht : t' = t
  · subst ht
    simp [flags, setTag]
  · simp [flags, setTag, ht]

theorem flags_setTag_of_ne (hp : p ≠ o) : (n.setTag t o b).flags p = n.flags p := by
  funext t'
  by_cases ht : t' = t
  · subst ht
    simp [flags, setTag, hp]
  · simp [flags, setTag, ht]

theorem anyTagSet_setTag_of_ne (ht : t' ≠ t) : (n.setTag t o b).anyTagSet t' = n.anyTagSet t' := by
  simp [anyTagSet, setTag, ht]

theorem anyTagSet_of_flag {n : Node} (h : n.tags t o = true) : n.anyTagSet t = true :=
  decide_eq_true ⟨o, h⟩

theorem anyTagSet_setTag_true : (n.setTag t o true).anyTagSet = update n.anyTagSet t true := by
  funext t'
  by_cases ht : t' = t
  · subst ht
    rw [update_self]
    exact anyTagSet_of_flag t' o (by simp [setTag])
  · rw [update_of_ne ht, anyTagSet_setTag_of_ne n t o true ht]

end NodeOf

theorem tagSetAt_eq (index : Index) (t : Tag) (hv : Slot.Valid h s tags)
    (he : s.entry h tags index.toNat = some (y, b)) :
    ∃ s', tagSetAt index t h s = some (some y, s') ∧ s'.filled ∧
      Slot.Valid h s' (update tags t true) ∧
      SetAt (64 ^ h) index.toNat (some (y, update b t true)) (s.entry h tags)
        (s'.entry h (update tags t true)) := by
  induction hv generalizing y b with
  | null htags => simp at he
  | @item x tags =>
    obtain ⟨rfl, rfl⟩ := Prod.mk.inj (Option.some.inj he)
    refine ⟨.item x, rfl, rfl, .item, ?_⟩
    intro j
    simp [Slot.entry, Nat.mod_one]
  | @node tags h n hheight hcount htags hslots ih =>
    rw [Slot.entry_node] at he
    obtain ⟨child, hrun, hfill, hvalid, hset⟩ := ih _ he
    generalize hp : place 64 index.toNat h = o at *
    have hslot : (n.slots o).isNull = false := by
      cases hs : n.slots o with
      | null => simp [hs] at he
      | _ => rfl
    have hoff : ∀ p, p ≠ o → ((n.setTag t o true).setSlot o child).slots p = n.slots p ∧
        ((n.setTag t o true).setSlot o child).flags p = n.flags p :=
      fun p hne => ⟨update_of_ne hne .., NodeOf.flags_setTag_of_ne n t o true hne⟩
    have hself : ((n.setTag t o true).setSlot o child).slots o = child := update_self ..
    have hflags : ((n.setTag t o true).setSlot o child).flags o =
        update (n.flags o) t true := NodeOf.flags_setTag_self ..
    have hany : update tags t true = ((n.setTag t o true).setSlot o child).anyTagSet := by
      rw [htags]
      exact (NodeOf.anyTagSet_setTag_true n t o).symm
    refine ⟨.node ((n.setTag t o true).setSlot o child), ?_, rfl, ?_, ?_⟩
    · rw [tagSetAt, offset_eq, hp]
      simp only [hslot, hrun]
      rfl
    · rw [hany]
      refine Slot.Valid.replace (n := n) (.node hheight hcount htags hslots) rfl ?_ hoff ?_
      · refine hcount.trans (tally_update_same (hfill.trans ?_)).symm
        exact (congrArg not hslot).symm
      · rw [hself, hflags]
        exact hvalid
    · subst hp
      refine Slot.entry_replace hoff ?_
      rw [hself, hflags]
      exact hset

theorem radixTreeTagSet_eq (t : Tag) (hr : r.Valid) (he : r.entries index.toNat = some (y, b)) :
    ∃ r', radixTreeTagSet r index t = some (some y, r') ∧ r'.Valid ∧ r'.entries =
        update r.entries index.toNat (some (y, update b t true)) := by
  have hi : ¬ maxindex r.height < index := by
    intro hi
    rw [Root.entries_of_gt hr.height hi] at he
    cases he
  rw [Root.entries_of_le hr.height hi] at he
  obtain ⟨s', hrun, -, hvalid, hset⟩ := tagSetAt_eq index t hr.slot he
  refine ⟨{ r with rnode := s', tags := update r.tags t true }, ?_, ⟨hr.height, hvalid⟩,
    Root.entries_update rfl hr.height hi hset⟩
  simp only [radixTreeTagSet, if_neg hi, hrun]
  rfl

/-- The tag bits of a slot when `radix_tree_tag_clear` has left it. -/
def cleared (tags : Flags) (t : Tag) (up : Bool) : Flags :=
  if up then update tags t false else tags

theorem NodeOf.clearUp_eq (n : Node) (t : Tag) (o : Offset) (child : Slot) (up : Bool) :
    ∃ n' up', n.clearUp t o child up = (.node n', up') ∧ n'.height = n.height ∧
      n'.count = n.count ∧ n'.slots = update n.slots o child ∧
      (∀ p, p ≠ o → n'.flags p = n.flags p) ∧ n'.flags o = cleared (n.flags o) t up ∧
      cleared n.anyTagSet t up' = n'.anyTagSet := by
  have hsame : (n.setSlot o child).tags = n.tags := rfl
  by_cases hc : up = true ∧ n.tags t o = true
  · refine ⟨(n.setSlot o child).setTag t o false,
      !((n.setSlot o child).setTag t o false).anyTagSet t, ?_, rfl, rfl, rfl,
      fun p hp => flags_setTag_of_ne _ t o false hp, ?_, ?_⟩
    · simp [clearUp, hsame, hc]
    · rw [flags_setTag_self, hc.1]
      rfl
    · funext t'
      by_cases ht : t' = t
      · subst ht
        cases hany : ((n.setSlot o child).setTag t' o false).anyTagSet t' with
        | true => exact anyTagSet_of_flag t' o hc.2
        | false => simp [cleared]
      · rw [anyTagSet_setTag_of_ne _ t o false ht]
        cases ((n.setSlot o child).setTag t o false).anyTagSet t with
        | true => rfl
        | false => simp [cleared, ht, anyTagSet, hsame]
  · refine ⟨n.setSlot o child, false, ?_, rfl, rfl, rfl, fun _ _ => rfl, ?_, rfl⟩
    · rw [clearUp]
      cases up with
      | true => simp_all
      | false => rfl
    · cases up with
      | true =>
        have hoff : n.flags o t = false := by simpa [flags] using hc
        rw [cleared, ← hoff, update_eq_self]
        rfl
      | false => rfl

/-- The entry that `radix_tree_tag_clear` leaves. -/
def untagged (b : Option Entry) (t : Tag) : Option Entry :=
  b.map fun e => (e.1, update e.2 t false)

theorem tagClearAt_eq (index : Index) (t : Tag) (hv : Slot.Valid h s tags) :
    ∃ s' up, tagClearAt index t h s =
        some ((s.entry h tags index.toNat).map Prod.fst, s', up) ∧ s'.filled = s.filled ∧
      Slot.Valid h s' (cleared tags t up) ∧
      SetAt (64 ^ h) index.toNat (untagged (s.entry h tags index.toNat) t) (s.entry h tags)
        (s'.entry h (cleared tags t up)) := by
  induction hv with
  | null htags =>
    refine ⟨.null, false, ?_, rfl, .null htags, ?_⟩
    · rw [Slot.entry_null]
      unfold tagClearAt
      rfl
    · intro j
      simp [untagged]
  | @item x tags =>
    refine ⟨.item x, true, rfl, rfl, .item, ?_⟩
    intro j
    simp [Slot.entry, untagged, cleared, Nat.mod_one]
  | @node tags h n hheight hcount htags hslots ih =>
    obtain ⟨child, up, hrun, hfill, hvalid, hset⟩ := ih (place 64 index.toNat h)
    rw [Slot.entry_node]
    generalize hp : place 64 index.toNat h = o at *
    obtain ⟨n', up', hclear, hh, hc, hslot, hflags, hself, hany⟩ := n.clearUp_eq t o child up
    have hoff : ∀ p, p ≠ o → n'.slots p = n.slots p ∧ n'.flags p = n.flags p := by
      intro p hne
      rw [hslot, update_of_ne hne]
      exact ⟨rfl, hflags p hne⟩
    have hchild : n'.slots o = child := by rw [hslot, update_self]
    refine ⟨.node n', up', ?_, rfl, ?_, ?_⟩
    · rw [tagClearAt, offset_eq, hp]
      simp only [hrun]
      rw [← hclear]
      rfl
    · rw [htags, hany]
      refine Slot.Valid.replace (.node hheight hcount htags hslots) hh ?_ hoff ?_
      · rw [hc, hcount, hslot, tally_update_same hfill]
      · rw [hchild, hself]
        exact hvalid
    · subst hp
      refine Slot.entry_replace hoff ?_
      rw [hchild, hself]
      exact hset

theorem radixTreeTagClear_eq (index : Index) (t : Tag) (hr : r.Valid) :
    ∃ r', radixTreeTagClear r index t = some ((r.entries index.toNat).map Prod.fst, r') ∧
      r'.Valid ∧ r'.height = r.height ∧ r'.entries =
        update r.entries index.toNat (untagged (r.entries index.toNat) t) := by
  by_cases hi : maxindex r.height < index
  · rw [Root.entries_of_gt hr.height hi]
    refine ⟨r, if_pos hi, hr, rfl, ?_⟩
    rw [untagged, Option.map_none, ← Root.entries_of_gt hr.height hi, update_eq_self]
  · rw [Root.entries_of_le hr.height hi]
    obtain ⟨s', up, hrun, -, hvalid, hset⟩ := tagClearAt_eq index t hr.slot
    refine ⟨{ r with rnode := s', tags := cleared r.tags t up }, ?_, ⟨hr.height, hvalid⟩, rfl,
      Root.entries_update rfl hr.height hi hset⟩
    simp only [radixTreeTagClear, if_neg hi, hrun]
    rfl

theorem tagGetAt_eq (index : Index) (t : Tag) (hv : Slot.Valid (h + 1) s tags)
    (hsaw : saw = true → tags t = false) :
    tagGetAt index t (h + 1) s saw = some (carries (s.entry (h + 1) tags index.toNat) t) := by
  induction h generalizing s tags saw with
  | zero =>
    cases hv with
    | null htags =>
      rfl
    | @node _ _ n hheight hcount htags hslots =>
      rw [tagGetAt, Slot.entry_node, offset_eq]
      have hslot := hslots (place 64 index.toNat 0)
      generalize place 64 index.toNat 0 = o at hslot ⊢
      have hret : carries (Slot.entry 0 (n.slots o) (n.flags o) index.toNat) t = n.tags t o := by
        cases hs : n.slots o with
        | null =>
          rw [hs] at hslot
          exact (congrFun (hslot.tags_of_null rfl) t).symm
        | item x => rfl
        | node m =>
          rw [hs] at hslot
          cases hslot
      have hbug : ¬ (n.tags t o && (saw || !n.tags t o)) = true := by
        intro hb
        cases htag : n.tags t o with
        | true =>
          have hoff := hsaw (by simpa [htag] using hb)
          rw [htags, NodeOf.anyTagSet_of_flag t o htag] at hoff
          cases hoff
        | false => simp [htag] at hb
      rw [hret]
      exact if_neg hbug
  | succ h ih =>
    cases hv with
    | null htags =>
      rfl
    | @node _ _ n hheight hcount htags hslots =>
      rw [tagGetAt, offset_eq]
      refine ih (hslots _) fun hs => ?_
      generalize place 64 index.toNat (h + 1) = o at hs ⊢
      cases htag : n.tags t o with
      | true =>
        have hoff := hsaw (by simpa [htag] using hs)
        rw [htags, NodeOf.anyTagSet_of_flag t o htag] at hoff
        cases hoff
      | false => exact htag

theorem Root.Valid.tag_iff {r : Root} (hr : r.Valid) (t : Tag) :
    r.tags t = true ↔ ∃ i, carries (r.entries i) t = true := by
  rw [hr.slot.tag_iff t]
  constructor
  · rintro ⟨i, hi, e, he, het⟩
    exact ⟨i, by rw [Root.entries, if_pos hi, he]; exact het⟩
  · rintro ⟨i, hi⟩
    obtain ⟨e, he, het⟩ := carries_iff.mp hi
    rw [Root.entries] at he
    split at he
    next hlt => exact ⟨i, hlt, e, he, het⟩
    next => cases he

theorem radixTreeTagGet_eq (index : Index) (t : Tag) (hr : r.Valid) :
    radixTreeTagGet r index t = some (carries (r.entries index.toNat) t) := by
  cases htag : r.tags t with
  | false =>
    have hno : carries (r.entries index.toNat) t = false := by
      cases hc : carries (r.entries index.toNat) t with
      | true => rw [(hr.tag_iff t).mpr ⟨_, hc⟩] at htag; cases htag
      | false => rfl
    simp [radixTreeTagGet, htag, hno]
  | true =>
    rcases hr.forms with hs | ⟨x, hs, hh⟩ | ⟨n, h, hs, hh, hn⟩
    · simp [radixTreeTagGet, hs, Root.entries, carries]
    · simp only [radixTreeTagGet, hs, Root.entries, hh]
      by_cases hi : index = 0#32
      · subst hi
        simp [Slot.entry, carries, htag]
      · have hpos : ¬ index.toNat < 1 := by
          intro hlt
          exact hi (BitVec.eq_of_toNat_eq (Nat.lt_one_iff.mp hlt))
        simp [hi, hpos, carries]
    · have hslot := hr.slot
      rw [hs, hh] at hslot
      simp only [radixTreeTagGet, htag, hs, hn]
      by_cases hi : maxindex r.height < index
      · rw [if_pos hi, Root.entries_of_gt hr.height hi]
        rfl
      · rw [if_neg hi, Root.entries_of_le hr.height hi, hs, hh]
        exact tagGetAt_eq index t hslot fun h => Bool.noConfusion h

end SpicaKernel.RadixTree
