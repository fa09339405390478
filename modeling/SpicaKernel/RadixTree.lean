import Mathlib.Tactic.IntervalCases
import SpicaKernel.Digits
import SpicaKernel.Tables

namespace SpicaKernel.RadixTree
open Function
set_option autoImplicit true

abbrev Index := BitVec 32

/-- A place in a node, below `RADIX_TREE_MAP_SIZE`. -/
abbrev Offset := Fin 64

/-- A tag, below `RADIX_TREE_MAX_TAGS`. -/
abbrev Tag := Fin 2

def EEXIST : Int := 17

def ENOMEM : Int := 12

/-- An item pointer: not NULL, and not marked by `RADIX_TREE_INDIRECT_PTR`. -/
abbrev Item := { p : BitVec 32 // p ≠ 0#32 ∧ p &&& 1#32 = 0#32 }

/-- A `radix_tree_node`, with slots of some kind. -/
structure NodeOf (σ : Type) where
  height : Nat
  count : Nat
  slots : Offset → σ
  tags : Tag → Offset → Bool

/-- What a slot holds. A node in `rnode` is a pointer with the indirect mark. -/
inductive Slot where
  | null
  | item (x : Item)
  | node (n : NodeOf Slot)

abbrev Node := NodeOf Slot

def Slot.isNull : Slot → Bool
  | .null => true
  | _ => false

/-- A `radix_tree_root`. The tags are the bits of `gfp_mask` from `__GFP_BITS_SHIFT` on. -/
structure Root where
  height : Nat
  tags : Tag → Bool
  rnode : Slot

namespace NodeOf

def setSlot (n : Node) (o : Offset) (s : Slot) : Node :=
  { n with slots := update n.slots o s }

def setTag (n : Node) (t : Tag) (o : Offset) (b : Bool) : Node :=
  { n with tags := update n.tags t (update (n.tags t) o b) }

def anyTagSet (n : Node) (t : Tag) : Bool := decide (∃ o, n.tags t o = true)

def zeroed : Node := ⟨0, 0, fun _ => .null, fun _ _ => false⟩

/-- `radix_tree_node_rcu_free`, before the node goes back to the slab. -/
def rcuFree (n : Node) : Node :=
  { ((n.setTag 0 0 false).setTag 1 0 false).setSlot 0 .null with count := 0 }

end NodeOf

/-- No memory, a node fresh from the slab's constructor, or one of those that were freed before. -/
inductive Grant where
  | fail
  | fresh
  | recycled (k : Nat)

/-- The nodes in the slab that were used before, and what the allocator will do next. -/
structure Supply where
  free : List Node
  grants : List Grant

/-- `radix_tree_node_alloc`; `none` is NULL. -/
def Supply.alloc (m : Supply) : Option Node × Supply :=
  match m.grants with
  | [] => (none, m)
  | .fail :: gs => (none, { m with grants := gs })
  | .fresh :: gs => (some .zeroed, { m with grants := gs })
  | .recycled k :: gs =>
    match m.free[k]? with
    | none => (none, { m with grants := gs })
    | some n => (some n, ⟨m.free.eraseIdx k, gs⟩)

def maxindex (height : Nat) : Index :=
  if 32 < height * 6 then BitVec.allOnes 32
  else if height = 0 then 0#32
  else BitVec.allOnes 32 >>> (32 - height * 6)

/-- `(index >> shift) & RADIX_TREE_MAP_MASK` in a node with `level` levels of nodes below it. -/
def offset (index : Index) (level : Nat) : Offset := Fin.ofNat 64 (index >>> (level * 6)).toNat

/-- `while (index > radix_tree_maxindex(height)) height++`. -/
def heightFor (index : Index) : Nat → Nat → Option Nat
  | 0, _ => none
  | fuel + 1, height =>
    if maxindex height < index then heightFor index fuel (height + 1) else height

/-- The node that `radix_tree_extend` puts above the root. -/
def Root.raised (r : Root) (n : Node) : Node :=
  { n.setSlot 0 r.rnode with
    tags := fun t => if r.tags t then update (n.tags t) 0 true else n.tags t
    height := r.height + 1
    count := 1 }

/-- The loop of `radix_tree_extend`. Returns the error code. -/
def extendLoop (height : Nat) : Nat → Root → Supply → Option (Int × Root × Supply)
  | 0, _, _ => none
  | fuel + 1, r, m =>
    match m.alloc with
    | (none, m) => some (-ENOMEM, r, m)
    | (some n, m) =>
      let r := { r with rnode := .node (r.raised n), height := r.height + 1 }
      if r.height < height then extendLoop height fuel r m else some (0, r, m)

def radixTreeExtend (r : Root) (index : Index) (m : Supply) : Option (Int × Root × Supply) := do
  let height ← heightFor index 8 (r.height + 1)
  if r.rnode.isNull then return (0, { r with height := height }, m)
  extendLoop height 8 r m

/-- A node after a child of it may have been filled. -/
def NodeOf.link (n : Node) (o : Offset) (child : Slot) : Node :=
  { n.setSlot o child with
    count := if (n.slots o).isNull && !child.isNull then n.count + 1 else n.count }

/-- Back in the node `n` from its slot `o`, with `level` levels below it. -/
def NodeOf.putBack (n : Node) (o : Offset) (level : Nat) (r : Int × Slot × Supply) :
    Option (Int × Slot × Supply) :=
  if level = 0 ∧ r.1 = 0 ∧ (n.tags 0 o ∨ n.tags 1 o) then none
  else some (r.1, .node (n.link o r.2.1), r.2.2)

/-- The loop of `radix_tree_insert` from a slot with so many levels of nodes, with the error code;
`none` is a `BUG_ON`, or an item where a node should be. -/
def insertAt (index : Index) (x : Item) : Nat → Slot → Supply → Option (Int × Slot × Supply)
  | 0, .null, m => some (0, .item x, m)
  | 0, slot, m => some (-EEXIST, slot, m)
  | level + 1, .null, m =>
    match m.alloc with
    | (none, m) => some (-ENOMEM, .null, m)
    | (some n, m) =>
      let o := offset index level
      (insertAt index x level (n.slots o) m).bind
        (NodeOf.putBack { n with height := level + 1 } o level)
  | level + 1, .node n, m =>
    let o := offset index level
    (insertAt index x level (n.slots o) m).bind (n.putBack o level)
  | _ + 1, .item _, _ => none

/-- `radix_tree_insert` once the tree is high enough. -/
def insertRoot (r : Root) (index : Index) (x : Item) (m : Supply) :
    Option (Int × Root × Supply) := do
  let (e, slot, m) ← insertAt index x r.height r.rnode m
  if r.height = 0 ∧ e = 0 ∧ (r.tags 0 ∨ r.tags 1) then none
  else some (e, { r with rnode := slot }, m)

def radixTreeInsert (r : Root) (index : Index) (x : Item) (m : Supply) :
    Option (Int × Root × Supply) :=
  if x.val &&& 1#32 ≠ 0#32 then none
  else if maxindex r.height < index then do
    let (e, r, m) ← radixTreeExtend r index m
    if e ≠ 0 then some (e, r, m) else insertRoot r index x m
  else insertRoot r index x m

/-- The loop of `radix_tree_lookup_element`. -/
def lookupAt (index : Index) : Nat → Slot → Option (Option Item)
  | _, .null => some none
  | 0, .item x => some (some x)
  | 0, .node _ => none
  | level + 1, .node n => lookupAt index level (n.slots (offset index level))
  | _ + 1, .item _ => none

def radixTreeLookup (r : Root) (index : Index) : Option (Option Item) :=
  match r.rnode with
  | .null => some none
  | .item x => some (if 0#32 < index then none else some x)
  | .node n => if maxindex n.height < index then some none else lookupAt index n.height (.node n)

/-- The loop of `radix_tree_tag_set`. -/
def tagSetAt (index : Index) (t : Tag) : Nat → Slot → Option (Option Item × Slot)
  | 0, .null => some (none, .null)
  | 0, .item x => some (some x, .item x)
  | 0, .node _ => none
  | level + 1, .node n =>
    let o := offset index level
    if (n.slots o).isNull then none
    else do
      let (x, child) ← tagSetAt index t level (n.slots o)
      return (x, .node ((n.setTag t o true).setSlot o child))
  | _ + 1, _ => none

def radixTreeTagSet (r : Root) (index : Index) (t : Tag) : Option (Option Item × Root) :=
  if maxindex r.height < index then none
  else do
    let (x, slot) ← tagSetAt index t r.height r.rnode
    let tags := if x.isSome then update r.tags t true else r.tags
    return (x, { r with rnode := slot, tags := tags })

/-- A step of `radix_tree_tag_clear` up the path, into the node `n`, if it has come this far. -/
def NodeOf.clearUp (n : Node) (t : Tag) (o : Offset) (child : Slot) (up : Bool) : Slot × Bool :=
  let n := n.setSlot o child
  if up && n.tags t o then
    let n := n.setTag t o false
    (.node n, !n.anyTagSet t)
  else (.node n, false)

/-- The walk of `radix_tree_tag_clear` down to the item and up; the flag: it still goes up. -/
def tagClearAt (index : Index) (t : Tag) : Nat → Slot → Option (Option Item × Slot × Bool)
  | _, .null => some (none, .null, false)
  | 0, .item x => some (some x, .item x, true)
  | 0, .node _ => none
  | level + 1, .node n => do
    let o := offset index level
    let (x, child, up) ← tagClearAt index t level (n.slots o)
    return (x, n.clearUp t o child up)
  | _ + 1, .item _ => none

def radixTreeTagClear (r : Root) (index : Index) (t : Tag) : Option (Option Item × Root) :=
  if maxindex r.height < index then some (none, r)
  else do
    let (x, slot, up) ← tagClearAt index t r.height r.rnode
    let tags := if up then update r.tags t false else r.tags
    return (x, { r with rnode := slot, tags := tags })

/-- The loop of `radix_tree_tag_get`, with `saw_unset_tag`. -/
def tagGetAt (index : Index) (t : Tag) : Nat → Slot → Bool → Option Bool
  | _, .null, _ => some false
  | 1, .node n, saw =>
    let ret := n.tags t (offset index 0)
    if ret && (saw || !ret) then none else some ret
  | level + 2, .node n, saw =>
    let o := offset index (level + 1)
    tagGetAt index t (level + 1) (n.slots o) (saw || !n.tags t o)
  | _, _, _ => none

def radixTreeTagGet (r : Root) (index : Index) (t : Tag) : Option Bool :=
  if !r.tags t then some false
  else match r.rnode with
    | .null => some false
    | .item _ => some (index = 0#32)
    | .node n =>
      if maxindex n.height < index then some false else tagGetAt index t n.height (.node n) false

def radixTreeTagged (r : Root) (t : Tag) : Bool := r.tags t

/-- `radix_tree_shrink`. Returns the height, `rnode` and the nodes that are freed. -/
def radixTreeShrink : Nat → Slot → Option (Nat × Slot × List Node)
  | 0, slot => some (0, slot, [])
  | height + 1, .node n =>
    if n.count = 1 && !(n.slots 0).isNull then do
      let (h, slot, freed) ← radixTreeShrink height (n.slots 0)
      return (h, slot, n :: freed)
    else some (height + 1, .node n, [])
  | _ + 1, _ => none

/-- The tag of an item, read in the node above it. -/
def leafTag (index : Index) (t : Tag) : Nat → Slot → Option Bool
  | 1, .node n => some (n.tags t (offset index 0))
  | level + 2, .node n => leafTag index t (level + 1) (n.slots (offset index (level + 1)))
  | _, _ => none

/-- The loop of `radix_tree_delete` over the tags of the item. -/
def clearTags (index : Index) : List Tag → Root → Option Root
  | [], r => some r
  | t :: ts, r => do
    let set ← leafTag index t r.height r.rnode
    if set then
      let (_, r) ← radixTreeTagClear r index t
      clearTags index ts r
    else clearTags index ts r

/-- The second loop of `radix_tree_delete` goes on above a slot, or ended in its node or below. -/
inductive Ascent where
  | empty
  | here
  | below

/-- A step of this loop up the path, into the node `n`. -/
def NodeOf.unlink (n : Node) (o : Offset) : Slot × Ascent × List Node → Slot × Ascent × List Node
  | (_, .empty, freed) =>
    let n := { n.setSlot o .null with count := n.count - 1 }
    if n.count = 0 then (.null, .empty, freed ++ [n]) else (.node n, .here, freed)
  | (child, _, freed) => (.node (n.setSlot o child), .below, freed)

/-- The second loop of `radix_tree_delete`. Returns what is now in the slot, and the nodes freed. -/
def deleteAt (index : Index) : Nat → Slot → Option (Slot × Ascent × List Node)
  | 0, .item _ => some (.null, .empty, [])
  | level + 1, .node n =>
    let o := offset index level
    (deleteAt index level (n.slots o)).map (n.unlink o)
  | _, _ => none

/-- The end of `radix_tree_delete`. -/
def unlinkRoot (r : Root) : Slot × Ascent × List Node → Option (Root × List Node)
  | (_, .empty, freed) => some (⟨0, fun _ => false, .null⟩, freed)
  | (slot, .here, freed) => do
    let (height, slot, more) ← radixTreeShrink r.height slot
    return ({ r with height := height, rnode := slot }, freed ++ more)
  | (slot, .below, freed) => some ({ r with rnode := slot }, freed)

/-- What `radix_tree_delete` does with the item it has found. -/
def deleteRoot (r : Root) (index : Index) : Option (Root × List Node) := do
  let r ← clearTags index [0, 1] r
  let unlinked ← deleteAt index r.height r.rnode
  unlinkRoot r unlinked

/-- Returns the item, the root and the nodes that are freed. -/
def radixTreeDelete (r : Root) (index : Index) : Option (Option Item × Root × List Node) :=
  if maxindex r.height < index then some (none, r, [])
  else do
    let slot ← lookupAt index r.height r.rnode
    if r.height = 0 then some (slot, ⟨0, fun _ => false, .null⟩, [])
    else if slot.isNone then some (none, r, [])
    else (deleteRoot r index).map fun d => (slot, d)

/-- The offsets from `i` on. -/
def offsetsFrom (i : Offset) : List Offset := (List.finRange 64).drop i

/-- The inner loop of `__lookup` and `__lookup_tag`. It ends at a slot that is wanted, or with `goto
out`; either way with the index it has come to. -/
def skipSlots (wanted : Offset → Bool) (shift : Nat) :
    List Offset → Index → Except Index (Offset × Index)
  | [], index => .error index
  | i :: is, index =>
    if wanted i then .ok (i, index)
    else
      let index := (index &&& ~~~(1#32 <<< shift - 1#32)) + 1#32 <<< shift
      if index = 0#32 then .error index else skipSlots wanted shift is index

/-- The bottom loop of `__lookup` and `__lookup_tag`. -/
def grabItems (n : Node) (wanted : Offset → Bool) (maxItems : Nat) :
    List Offset → Index → List Slot → List Slot × Index
  | [], index, results => (results, index)
  | i :: is, index, results =>
    let index := index + 1
    if wanted i then
      let results := results ++ [n.slots i]
      if results.length = maxItems then (results, index)
      else grabItems n wanted maxItems is index results
    else grabItems n wanted maxItems is index results

def NodeOf.filled (n : Node) (o : Offset) : Bool := !(n.slots o).isNull

/-- `__lookup` in a node of some height. Returns the results and the index of the next search. -/
def lookup (maxItems : Nat) : Nat → Node → Index → Option (List Slot × Index)
  | 0, _, index => some ([], index)
  | 1, n, index => some (grabItems n n.filled maxItems (offsetsFrom (offset index 0)) index [])
  | level + 2, n, index =>
    match skipSlots n.filled ((level + 1) * 6) (offsetsFrom (offset index (level + 1))) index with
    | .error index => some ([], index)
    | .ok (i, index) =>
      match n.slots i with
      | .null => some ([], index)
      | .node n => lookup maxItems (level + 1) n index
      | .item _ => none

def lookupTag (t : Tag) (maxItems : Nat) : Nat → Node → Index → Option (List Slot × Index)
  | 0, _, index => some ([], index)
  | level + 1, n, index =>
    match skipSlots (n.tags t) (level * 6) (offsetsFrom (offset index level)) index with
    | .error index => some ([], index)
    | .ok (i, index) =>
      if level = 0 then
        let wanted o := n.tags t o && n.filled o
        some (grabItems n wanted maxItems (offsetsFrom (offset index 0)) index [])
      else
        match n.slots i with
        | .null => some ([], index)
        | .node n => lookupTag t maxItems level n index
        | .item _ => none

/-- The loop of the gang lookups, around `__lookup` or `__lookup_tag`. -/
def gangLoop (scan : Nat → Index → Option (List Slot × Index)) (maxIndex : Index)
    (maxItems : Nat) : Nat → Index → List Slot → Option (List Slot)
  | 0, _, _ => none
  | fuel + 1, cur, results =>
    if results.length < maxItems then
      if maxIndex < cur then some results
      else do
        let (found, next) ← scan (maxItems - results.length) cur
        if next = 0#32 then some (results ++ found)
        else gangLoop scan maxIndex maxItems fuel next (results ++ found)
    else some results

/-- `radix_tree_gang_lookup`. Returns what it has put into `results`. -/
def radixTreeGangLookup (fuel : Nat) (r : Root) (first : Index) (maxItems : Nat) :
    Option (List Slot) :=
  match r.rnode with
  | .null => some []
  | .item x => some (if 0#32 < first then [] else [.item x])
  | .node n =>
    gangLoop (fun k cur => lookup k n.height n cur) (maxindex n.height) maxItems fuel first []

def radixTreeGangLookupTag (fuel : Nat) (r : Root) (first : Index) (maxItems : Nat) (t : Tag) :
    Option (List Slot) :=
  if !r.tags t then some []
  else match r.rnode with
    | .null => some []
    | .item x => some (if 0#32 < first then [] else [.item x])
    | .node n =>
      gangLoop (fun k cur => lookupTag t k n.height n cur) (maxindex n.height) maxItems fuel
        first []

open Digits Tally

scoped instance neZero_slots : NeZero 64 := ⟨by decide⟩

abbrev Flags := Tag → Bool

def noTags : Flags := fun _ => false

abbrev Entry := Item × Flags

def NodeOf.flags (n : Node) (o : Offset) : Flags := fun t => n.tags t o

def Slot.filled (s : Slot) : Bool := !s.isNull

namespace Slot

theorem isNull_iff {s : Slot} : s.isNull = true ↔ s = .null := by
  cases s <;> simp [isNull]

/-- The item at an index below a slot with so many levels of nodes and the given tag bits. -/
def entry : Nat → Slot → Flags → Nat → Option Entry
  | 0, .item x, tags, _ => some (x, tags)
  | h + 1, .node n, _, i => entry h (n.slots (place 64 i h)) (n.flags (place 64 i h)) i
  | _, _, _, _ => none

inductive Valid : Nat → Slot → Flags → Prop where
  | null (htags : tags = noTags) : Valid h .null tags
  | item : Valid 0 (.item x) tags
  | node {h : Nat} {n : Node} (hheight : n.height = h + 1)
      (hcount : n.count = tally filled n.slots) (htags : tags = n.anyTagSet)
      (hslots : ∀ o, Valid h (n.slots o) (n.flags o)) :
      Valid (h + 1) (.node n) tags

@[simp] theorem entry_null (h : Nat) (tags : Flags) (i : Nat) : entry h .null tags i = none := by
  cases h <;> rfl

theorem entry_node (h : Nat) (n : Node) (tags : Flags) (i : Nat) : entry (h + 1) (.node n) tags i =
      entry h (n.slots (place 64 i h)) (n.flags (place 64 i h)) i := rfl

theorem entry_congr (hij : i % 64 ^ h = j % 64 ^ h) : entry h s tags i = entry h s tags j := by
  induction h generalizing s tags with
  | zero => cases s <;> rfl
  | succ h ih =>
    obtain ⟨hplace, hlow⟩ := (mod_succ_eq_iff (by decide)).mp hij
    cases s with
    | node n =>
      simp only [entry_node, place_eq_iff.mpr hplace]
      exact ih hlow
    | _ => rfl

theorem Valid.tag_iff (hv : Valid h s tags) (t : Tag) :
    tags t = true ↔ ∃ i < 64 ^ h, ∃ e, entry h s tags i = some e ∧ e.2 t = true := by
  induction hv with
  | null htags => simp [htags, noTags]
  | item => simp [entry]
  | @node tags h n hheight hcount htags hslots ih =>
    rw [htags, NodeOf.anyTagSet, decide_eq_true_iff]
    constructor
    · rintro ⟨o, ho⟩
      obtain ⟨i, hi, e, he, het⟩ := (ih o).mp ho
      refine ⟨o * 64 ^ h + i, add_lt_pow_succ o hi, e, ?_, het⟩
      rw [entry_node, place_add o hi, ← he]
      exact entry_congr (by rw [Nat.mul_add_mod_self_right])
    · rintro ⟨i, -, e, he, het⟩
      have hlt : i % 64 ^ h < 64 ^ h := Nat.mod_lt _ (Nat.pow_pos (by decide))
      refine ⟨place 64 i h, (ih _).mpr ⟨i % 64 ^ h, hlt, e, ?_, het⟩⟩
      rw [← he]
      exact entry_congr (Nat.mod_mod _ _)

theorem Valid.tags_of_null (hv : Valid h s tags) (hs : s.isNull) : tags = noTags := by
  cases hv with
  | null htags => exact htags
  | item => cases hs
  | node => cases hs

theorem Valid.replace (hv : Valid (h + 1) (.node n) tags)
    (hheight : n'.height = n.height) (hcount : n'.count = tally filled n'.slots)
    (hoff : ∀ p, p ≠ o → n'.slots p = n.slots p ∧ n'.flags p = n.flags p)
    (hchild : Valid h (n'.slots o) (n'.flags o)) : Valid (h + 1) (.node n') n'.anyTagSet := by
  cases hv with
  | node hh _ _ hslots =>
    refine .node (hheight.trans hh) hcount rfl fun p => ?_
    by_cases hp : p = o
    · rw [hp]
      exact hchild
    · rw [(hoff p hp).1, (hoff p hp).2]
      exact hslots p

theorem entry_replace
    (hoff : ∀ p, p ≠ place 64 i h → n'.slots p = n.slots p ∧ n'.flags p = n.flags p)
    (hset : SetAt (64 ^ h) i v (entry h (n.slots (place 64 i h)) (n.flags (place 64 i h)))
      (entry h (n'.slots (place 64 i h)) (n'.flags (place 64 i h)))) :
    SetAt (64 ^ (h + 1)) i v (entry (h + 1) (.node n) tags) (entry (h + 1) (.node n') tags') := by
  refine SetAt.branch (g := fun o => entry h (n.slots o) (n.flags o))
    (k := fun o => entry h (n'.slots o) (n'.flags o)) ?_ hset
  intro o ho
  rw [(hoff o ho).1, (hoff o ho).2]

end Slot

def Root.entries (r : Root) (i : Nat) : Option Entry :=
  if i < 64 ^ r.height then r.rnode.entry r.height r.tags i else none

structure Root.Valid (r : Root) : Prop where
  height : r.height ≤ 6
  slot : r.rnode.Valid r.height r.tags

theorem offset_eq (index : Index) (level : Nat) :
    offset index level = place 64 index.toNat level := by
  rw [offset, place, BitVec.toNat_ushiftRight, Nat.shiftRight_eq_div_pow, Nat.mul_comm, Nat.pow_mul]

theorem maxindex_lt_iff (hh : h ≤ 6) (index : Index) :
    maxindex h < index ↔ 64 ^ h ≤ index.toNat := by
  have hmax : (maxindex h).toNat + 1 = min (64 ^ h) (2 ^ 32) := by
    interval_cases h <;> rfl
  rw [BitVec.lt_def]
  omega

namespace Root

variable {r r' : Root}

theorem entries_of_gt (hh : r.height ≤ 6) (hi : maxindex r.height < index) :
    r.entries index.toNat = none :=
  if_neg (Nat.not_lt.mpr ((maxindex_lt_iff hh index).mp hi))

theorem entries_of_le (hh : r.height ≤ 6) (hi : ¬ maxindex r.height < index) :
    r.entries index.toNat = r.rnode.entry r.height r.tags index.toNat :=
  if_pos (Nat.not_le.mp (mt (maxindex_lt_iff hh index).mpr hi))

theorem entries_update (hh : r'.height = r.height) (hr : r.height ≤ 6)
    (hi : ¬ maxindex r.height < index)
    (hset : SetAt (64 ^ r.height) index.toNat v (r.rnode.entry r.height r.tags)
      (r'.rnode.entry r.height r'.tags)) :
    r'.entries = update r.entries index.toNat v := by
  have hlt := Nat.not_le.mp (mt (maxindex_lt_iff hr index).mpr hi)
  funext j
  by_cases hj : j < 64 ^ r.height
  · rw [Root.entries, hh, if_pos hj, hset j, Nat.mod_eq_of_lt hj, Nat.mod_eq_of_lt hlt,
      update_apply, Root.entries, if_pos hj]
  · have hne : j ≠ index.toNat := by
      rintro rfl
      exact hj hlt
    rw [Root.entries, hh, if_neg hj, update_of_ne hne, Root.entries, if_neg hj]

theorem entries_level (h : Nat) (tags : Flags) (hoff : ∀ o, o ≠ 0 → n.slots o = .null) :
    Root.entries ⟨h + 1, tags, .node n⟩ = Root.entries ⟨h, n.flags 0, n.slots 0⟩ := by
  funext j
  have hle : 64 ^ h ≤ 64 ^ (h + 1) := Nat.pow_le_pow_right (by decide) (by omega)
  by_cases hj : j < 64 ^ h
  · rw [Root.entries, if_pos (Nat.lt_of_lt_of_le hj hle), Root.entries, if_pos hj,
      Slot.entry_node, place_of_lt hj]
  · rw [Root.entries, Root.entries]
    split
    next hlt =>
      have hplace : place 64 j h ≠ 0 := fun h0 => hj (lt_of_place_eq_zero hlt h0)
      rw [Slot.entry_node, hoff _ hplace, Slot.entry_null]
    next => rfl

theorem anyTagSet_level {n : Node} (hoff : ∀ o, o ≠ 0 → n.flags o = noTags) :
    n.anyTagSet = n.flags 0 := by
  funext t
  rw [Bool.eq_iff_iff, NodeOf.anyTagSet, decide_eq_true_iff]
  constructor
  · rintro ⟨o, ho⟩
    by_cases h0 : o = 0
    · exact h0 ▸ ho
    · exact absurd (ho.symm.trans (congrFun (hoff o h0) t)) (by simp [noTags])
  · exact fun h0 => ⟨0, h0⟩

theorem Valid.forms (hr : r.Valid) : r.rnode = .null ∨ (∃ x, r.rnode = .item x ∧ r.height = 0) ∨
    ∃ n h, r.rnode = .node n ∧ r.height = h + 1 ∧ n.height = r.height := by
  have hslot := hr.slot
  cases hs : r.rnode with
  | null => exact .inl rfl
  | item x =>
    rw [hs] at hslot
    cases hh : r.height with
    | zero => exact .inr (.inl ⟨x, rfl, rfl⟩)
    | succ h =>
      rw [hh] at hslot
      cases hslot
  | node n =>
    rw [hs] at hslot
    cases hh : r.height with
    | zero =>
      rw [hh] at hslot
      cases hslot
    | succ h =>
      rw [hh] at hslot
      cases hslot with
      | node hheight => exact .inr (.inr ⟨n, h, rfl, rfl, hheight⟩)

end Root

end SpicaKernel.RadixTree
