import Mathlib.Data.Fintype.Basic
import SpicaKernel.Runs

namespace SpicaKernel.Ids
set_option autoImplicit true

/-- An id, an `int`. -/
abbrev Id := BitVec 32

/-- A place in a layer, below `IDR_SIZE`. -/
abbrev Place := Fin 32

def EAGAIN : Int := 11

def EINVAL : Int := 22

def ENOENT : Int := 2

def ENOSPC : Int := 28

def MAX_ID_BIT : Id := 1#32 <<< 31

def MAX_ID_MASK : Id := MAX_ID_BIT - 1#32

def MAX_LEVEL : Nat := 7

def IDR_FREE_MAX : Nat := 14

/-- An `idr_layer`, with places of some kind. A zero bit means space. -/
structure LayerOf (σ : Type) where
  bitmap : Place → Bool
  ary : Place → σ
  count : Nat
  layer : Nat

/-- What a place of a layer holds: NULL, a pointer of the user, or a layer. -/
inductive Slot (α : Type) where
  | null
  | item (x : α)
  | node (p : LayerOf (Slot α))

abbrev Layer (α : Type) := LayerOf (Slot α)

def Slot.isNull : Slot α → Bool
  | .null => true
  | _ => false

/-- The pointer of a user, which may be NULL. -/
def Slot.ofPtr : Option α → Slot α
  | none => .null
  | some x => .item x

namespace LayerOf

def setAry (p : Layer α) (n : Place) (s : Slot α) : Layer α :=
  { p with ary := Function.update p.ary n s }

def setBit (p : Layer α) (n : Place) (b : Bool) : Layer α :=
  { p with bitmap := Function.update p.bitmap n b }

/-- The bitmap is `IDR_FULL`. -/
def full (p : Layer α) : Bool := decide (∀ n, p.bitmap n = true)

def zeroed : Layer α := ⟨fun _ => false, fun _ => .null, 0, 0⟩

/-- `find_next_bit` on the inverted bitmap; `none` is `IDR_SIZE`. -/
def nextZero (p : Layer α) (n : Place) : Option Place :=
  ((List.finRange 32).drop n).find? fun m => !p.bitmap m

end LayerOf

/-- A `struct idr`. The links of the free list, in `ary[0]` of its layers, are those of the list. -/
structure Idr (α : Type) where
  top : Slot α
  idFree : List (Layer α)
  layers : Nat

def idrInit : Idr α := ⟨.null, [], 0⟩

def getFromFreeList : List (Layer α) → Option (Layer α × List (Layer α))
  | [] => none
  | p :: free => some (p.setAry 0 .null, free)

/-- `idr_pre_get`, with what `kmem_cache_zalloc` does at each call. -/
def idrPreGet : List Bool → List (Layer α) → Bool × List (Layer α)
  | [], free => (decide (IDR_FREE_MAX ≤ free.length), free)
  | ok :: grants, free =>
    if free.length < IDR_FREE_MAX then
      if ok then idrPreGet grants (.zeroed :: free) else (false, free)
    else (true, free)

/-- `(id >> (IDR_BITS * l)) & IDR_MASK`. -/
def idPlace (id : Id) (l : Nat) : Place := Fin.ofNat 32 (id.sshiftRight (5 * l)).toNat

/-- Where `sub_alloc` goes on when there is no space for the id below the layer `l`. -/
def nextStart (id : Id) (l : Nat) : Id := (id ||| (1#32 <<< (5 * l) - 1#32)) + 1#32

/-- The id at another place of the layer `l`. -/
def idAt (id : Id) (l : Nat) (n m : Place) : Id :=
  if m ≠ n then
    (id.sshiftRight (5 * l) ^^^ BitVec.ofNat 32 n ^^^ BitVec.ofNat 32 m) <<< (5 * l)
  else id

/-- The layers above one, from the nearest on: the array `pa`, with the place in each of them. -/
abbrev Path (α : Type) := List (Layer α × Place)

/-- The top layer over a layer and its path. -/
def plug (p : Layer α) : Path α → Layer α
  | [] => p
  | (q, m) :: path => plug (q.setAry m (.node p)) path

/-- The state of the loop of `sub_alloc`. -/
structure Cursor (α : Type) where
  id : Id
  l : Nat
  p : Layer α
  path : Path α
  free : List (Layer α)

/-- What `sub_alloc` ends with: an id with the layers to it, or the tree and `IDR_NEED_TO_GROW`,
with the id to start at, `IDR_NOMORE_SPACE` or -1. -/
inductive Outcome (α : Type) where
  | found (id : Id) (p : Layer α) (path : Path α)
  | needToGrow (id : Id) (top : Layer α)
  | noMoreSpace (top : Layer α)
  | noLayer (top : Layer α)

/-- `sub_alloc` with the next place `m` of the layer. -/
def subAllocDown (c : Cursor α) (id : Id) (m : Place) :
    Turn (Cursor α) (Option (Outcome α × List (Layer α))) :=
  if MAX_ID_BIT ≤ id ∨ id.slt 0#32 then .stop (some (.noMoreSpace (plug c.p c.path), c.free))
  else if c.l = 0 then .stop (some (.found id c.p c.path, c.free))
  else
    match c.p.ary m with
    | .null =>
      match getFromFreeList c.free with
      | none => .stop (some (.noLayer (plug c.p c.path), c.free))
      | some (new, free) =>
        let new := { new with layer := c.l - 1 }
        let p := { c.p.setAry m (.node new) with count := c.p.count + 1 }
        .next ⟨id, c.l - 1, new, (p, m) :: c.path, free⟩
    | .node q => .next ⟨id, c.l - 1, q, (c.p, m) :: c.path, c.free⟩
    | .item _ => .stop none

/-- `sub_alloc` with no space from the place of the id on. -/
def subAllocUp (layers : Nat) (c : Cursor α) :
    Turn (Cursor α) (Option (Outcome α × List (Layer α))) :=
  let id := nextStart c.id (c.l + 1)
  match c.path with
  | [] => .stop (some (.needToGrow id c.p, c.free))
  | (q, m) :: path =>
    let p := q.setAry m (.node c.p)
    let sh := 5 * (c.l + 2)
    if c.id.sshiftRight sh = id.sshiftRight sh then .next ⟨id, c.l + 1, p, path, c.free⟩
    else .next ⟨id, layers - 1, plug p path, [], c.free⟩

/-- One turn of the loop of `sub_alloc`; `restart` is the cursor at the top. -/
def subAllocTurn (layers : Nat) (c : Cursor α) :
    Turn (Cursor α) (Option (Outcome α × List (Layer α))) :=
  let n := idPlace c.id c.l
  match c.p.nextZero n with
  | none => subAllocUp layers c
  | some m => subAllocDown c (idAt c.id c.l n m) m

def subAlloc (fuel layers : Nat) (id : Id) (top : Layer α) (free : List (Layer α)) :
    Option (Outcome α × List (Layer α)) :=
  (runFor (subAllocTurn layers) fuel ⟨id, layers - 1, top, [], free⟩).join

/-- The layers that `idr_get_empty_slot` has on top of one another, `built` of them new. -/
structure Tower (α : Type) where
  p : Layer α
  layers : Nat
  built : Nat
  free : List (Layer α)

/-- The loop of `idr_get_empty_slot` that gives the new layers back. -/
def tearDown : Nat → Layer α → List (Layer α) → List (Layer α)
  | 0, _, free => free
  | built + 1, p, free =>
    let free := { p.setAry 0 .null with bitmap := fun _ => false, count := 0 } :: free
    match p.ary 0 with
    | .node q => tearDown built q free
    | _ => free

def Tower.raise (t : Tower α) (new : Layer α) (free : List (Layer α)) : Tower α :=
  let new := { new.setAry 0 (.node t.p) with count := 1, layer := t.layers }
  ⟨if t.p.full then new.setBit 0 true else new, t.layers + 1, t.built + 1, free⟩

/-- The loop of `idr_get_empty_slot` that adds layers, with so many to go to `MAX_LEVEL - 1`. -/
def buildUp (id : Id) : Nat → Tower α → Except (List (Layer α)) (Tower α)
  | 0, t => .ok t
  | k + 1, t =>
    if (1#32 <<< (t.layers * 5)).sle id then
      if t.p.count = 0 then
        buildUp id k { t with p := { t.p with layer := t.p.layer + 1 }, layers := t.layers + 1 }
      else
        match getFromFreeList t.free with
        | none => .error (tearDown t.built t.p t.free)
        | some (new, free) => buildUp id k (t.raise new free)
    else .ok t

/-- The layer that `idr_get_empty_slot` starts with; `none` is -1. -/
def firstTower (s : Idr α) : Option (Tower α) :=
  match s.top with
  | .node p => some ⟨p, s.layers, 0, s.idFree⟩
  | _ => (getFromFreeList s.idFree).map fun (p, free) => ⟨{ p with layer := 0 }, 1, 0, free⟩

/-- What `idr_get_empty_slot` returns: an id, with the layers to it, or an error. -/
inductive EmptySlot (α : Type) where
  | found (id : Id) (p : Layer α) (path : Path α) (layers : Nat) (free : List (Layer α))
  | failed (rv : Int) (s : Idr α)

/-- `idr_get_empty_slot` with so many rounds of `build_up` and turns of `sub_alloc`. -/
def idrGetEmptySlot (fuel : Nat) : Nat → Id → Idr α → Option (EmptySlot α)
  | 0, _, _ => none
  | rounds + 1, id, s =>
    match firstTower s with
    | none => some (.failed (-1) s)
    | some t =>
      match buildUp id (MAX_LEVEL - 1 - t.layers) t with
      | .error free => some (.failed (-1) { s with idFree := free })
      | .ok t => do
        let (r, free) ← subAlloc fuel t.layers id t.p t.free
        match r with
        | .found id p path => some (.found id p path t.layers free)
        | .needToGrow id top => idrGetEmptySlot fuel rounds id ⟨.node top, free, t.layers⟩
        | .noMoreSpace top => some (.failed (-3) ⟨.node top, free, t.layers⟩)
        | .noLayer top => some (.failed (-1) ⟨.node top, free, t.layers⟩)

/-- The loop of `idr_mark_full`. -/
def markUp (id : Id) (p : Layer α) : Path α → Layer α
  | [] => p
  | (q, m) :: path =>
    let q := q.setAry m (.node p)
    if p.full then
      let id := id.sshiftRight 5
      markUp id (q.setBit (idPlace id 0) true) path
    else plug q path

def idrMarkFull (id : Id) (p : Layer α) (path : Path α) : Layer α :=
  markUp id (p.setBit (idPlace id 0) true) path

/-- `idr_get_new_above`. Returns the error code and the id. -/
def idrGetNewAbove (fuel : Nat) (s : Idr α) (ptr : Option α) (startingId : Id) :
    Option (Int × Id × Idr α) := do
  let r ← idrGetEmptySlot fuel fuel startingId s
  match r with
  | .failed rv s => some (if rv = -1 then -EAGAIN else -ENOSPC, 0#32, s)
  | .found id p path layers free =>
    let p := { p.setAry (idPlace id 0) (.ofPtr ptr) with count := p.count + 1 }
    some (0, id, ⟨.node (idrMarkFull id p path), free, layers⟩)

def idrGetNew (fuel : Nat) (s : Idr α) (ptr : Option α) : Option (Int × Id × Idr α) :=
  idrGetNewAbove fuel s ptr 0#32

/-- How far `sub_remove` has come at a place: the id is not there, the layer is empty and the second
loop goes on above, or it has ended. -/
inductive Removal where
  | missing
  | emptied
  | done
  deriving DecidableEq

def LayerOf.takeOut (p : Layer α) (n : Place) : Slot α × Removal :=
  let p := { p.setAry n .null with count := p.count - 1 }
  if p.count = 0 then (.null, .emptied) else (.node p, .done)

def LayerOf.removed (p : Layer α) (n : Place) : Slot α × Removal → Slot α × Removal
  | (_, .emptied) => p.takeOut n
  | (child, r) => (.node (p.setAry n child), r)

/-- The loops of `sub_remove`, down from a place with so many layers and up again. -/
def subRemove (id : Id) : Nat → Slot α → Option (Slot α × Removal)
  | _, .null => some (.null, .missing)
  | 1, .node p =>
    let n := idPlace id 0
    some (if p.bitmap n then (p.setBit n false).takeOut n else (.node p, .missing))
  | l + 2, .node p =>
    let n := idPlace id (l + 1)
    (subRemove id (l + 1) (p.ary n)).map ((p.setBit n false).removed n)
  | _, _ => none

/-- `idr_remove` takes the top layer away if it has only its first place filled. -/
def shrinkTop (s : Idr α) : Idr α :=
  match s.top with
  | .node p =>
    if p.count = 1 && decide (1 < s.layers) && !(p.ary 0).isNull then
      { s with top := p.ary 0, layers := s.layers - 1 }
    else s
  | _ => s

def idrRemove (s : Idr α) (id : Id) : Option (Idr α) := do
  let (top, r) ← subRemove (id &&& MAX_ID_MASK) s.layers s.top
  let s := shrinkTop { s with top := top, layers := if r = .emptied then 0 else s.layers }
  return { s with idFree := s.idFree.drop (s.idFree.length - (IDR_FREE_MAX - 1)) }

/-- The loop of `idr_find`. -/
def findAt (id : Id) : Nat → Slot α → Option (Slot α)
  | 0, s => some s
  | _ + 1, .null => some .null
  | l + 1, .node p => if l ≠ p.layer then none else findAt id l (p.ary (idPlace id l))
  | _ + 1, .item _ => none

def idrFind (s : Idr α) (id : Id) : Option (Slot α) :=
  match s.top with
  | .node p =>
    let n := p.layer + 1
    let id := id &&& MAX_ID_MASK
    if (1#32 <<< (n * 5)).sle id then some .null else findAt id n (.node p)
  | _ => some .null

/-- The loop of `idr_replace`; `none` in the result is `-ENOENT`. -/
def replaceAt (id : Id) (ptr : Option α) : Nat → Slot α → Option (Option (Slot α) × Slot α)
  | _, .null => some (none, .null)
  | 1, .node p =>
    let n := idPlace id 0
    some (if p.bitmap n then (some (p.ary n), .node (p.setAry n (.ofPtr ptr)))
      else (none, .node p))
  | l + 2, .node p => do
    let n := idPlace id (l + 1)
    let (old, child) ← replaceAt id ptr (l + 1) (p.ary n)
    return (old, .node (p.setAry n child))
  | _, _ => none

/-- `idr_replace`. Returns the error code or the old pointer. -/
def idrReplace (s : Idr α) (ptr : Option α) (id : Id) : Option (Except Int (Slot α) × Idr α) :=
  match s.top with
  | .node p =>
    let n := p.layer + 1
    let id := id &&& MAX_ID_MASK
    if (1#32 <<< (n * 5)).sle id then some (.error (-EINVAL), s)
    else do
      let (old, top) ← replaceAt id ptr n (.node p)
      match old with
      | none => some (.error (-ENOENT), s)
      | some x => some (.ok x, { s with top := top })
  | _ => some (.error (-EINVAL), s)

/-- A bit of an `ida_bitmap`, below `IDA_BITMAP_BITS`. -/
abbrev Offset := Fin 992

def IDA_BITMAP_BITS : Id := 992#32

structure IdaBitmap where
  nrBusy : Nat
  bitmap : Offset → Bool

namespace IdaBitmap

def zeroed : IdaBitmap := ⟨0, fun _ => false⟩

/-- `find_next_zero_bit`; `none` is `IDA_BITMAP_BITS`. -/
def nextZero (bm : IdaBitmap) (k : Offset) : Option Offset :=
  ((List.finRange 992).drop k).find? fun m => !bm.bitmap m

/-- `__set_bit` and `++nr_busy`. -/
def setBit (bm : IdaBitmap) (k : Offset) : IdaBitmap :=
  ⟨bm.nrBusy + 1, Function.update bm.bitmap k true⟩

/-- `__clear_bit` and `--nr_busy`. -/
def clearBit (bm : IdaBitmap) (k : Offset) : IdaBitmap :=
  ⟨bm.nrBusy - 1, Function.update bm.bitmap k false⟩

end IdaBitmap

structure Ida where
  idr : Idr IdaBitmap
  freeBitmap : Option IdaBitmap

def idaInit : Ida := ⟨idrInit, none⟩

def freeBitmap (a : Ida) (bm : IdaBitmap) : Ida :=
  match a.freeBitmap with
  | none => { a with freeBitmap := some bm }
  | some _ => a

/-- `ida_pre_get`, with what `kmem_cache_zalloc` and `kmalloc` do. -/
def idaPreGet (a : Ida) (grants : List Bool) (grant : Option IdaBitmap) : Bool × Ida :=
  let (ok, free) := idrPreGet grants a.idr.idFree
  let a := { a with idr := { a.idr with idFree := free } }
  if !ok then (false, a)
  else
    match a.freeBitmap, grant with
    | some _, _ => (true, a)
    | none, none => (false, a)
    | none, some bm => (true, freeBitmap a bm)

/-- The bitmap at a place, or a new one, with the layer and the free bitmap. None is `-EAGAIN`. -/
def bitmapAt (p : Layer IdaBitmap) (n : Place) (free : Option IdaBitmap) :
    Option (Option (IdaBitmap × Layer IdaBitmap × Option IdaBitmap)) :=
  match p.ary n with
  | .item bm => some (some (bm, p, free))
  | .null => some (free.map fun _ =>
      (.zeroed, { p.setAry n (.item .zeroed) with count := p.count + 1 }, none))
  | .node _ => none

/-- `ida_get_new_above` throws one free layer away after an allocation. -/
def Ida.throwAway (a : Ida) : Ida :=
  { a with idr := { a.idr with idFree := a.idr.idFree.tail } }

/-- The loop of `ida_get_new_above`, with so many turns. Returns the error code and the id. -/
def idaGetNewAt (fuel : Nat) : Nat → Id → Offset → Ida → Option (Int × Id × Ida)
  | 0, _, _, _ => none
  | turns + 1, idrId, offset, a => do
    let r ← idrGetEmptySlot fuel fuel idrId a.idr
    match r with
    | .failed rv s => some (if rv = -1 then -EAGAIN else -ENOSPC, 0#32, { a with idr := s })
    | .found t p path layers free =>
      if MAX_ID_BIT ≤ t * IDA_BITMAP_BITS then
        some (-ENOSPC, 0#32, { a with idr := ⟨.node (plug p path), free, layers⟩ })
      else
        let offset := if t ≠ idrId then 0 else offset
        let n := idPlace t 0
        match ← bitmapAt p n a.freeBitmap with
        | none => some (-EAGAIN, 0#32, ⟨⟨.node (plug p path), free, layers⟩, none⟩)
        | some (bm, p, freeBitmap) =>
          match bm.nextZero offset with
          | none =>
            idaGetNewAt fuel turns (t + 1#32) 0 ⟨⟨.node (plug p path), free, layers⟩, freeBitmap⟩
          | some k =>
            let id := t * IDA_BITMAP_BITS + BitVec.ofNat 32 k
            if MAX_ID_BIT ≤ id then
              some (-ENOSPC, 0#32, ⟨⟨.node (plug p path), free, layers⟩, freeBitmap⟩)
            else
              let p := p.setAry n (.item (bm.setBit k))
              let top := if (bm.setBit k).nrBusy = 992 then idrMarkFull t p path else plug p path
              some (0, id, Ida.throwAway ⟨⟨.node top, free, layers⟩, freeBitmap⟩)

def idaGetNewAbove (fuel : Nat) (a : Ida) (startingId : Id) : Option (Int × Id × Ida) :=
  idaGetNewAt fuel fuel (startingId / IDA_BITMAP_BITS) (Fin.ofNat 992 startingId.toNat) a

def idaGetNew (fuel : Nat) (a : Ida) : Option (Int × Id × Ida) := idaGetNewAbove fuel a 0#32

/-- How `ida_remove` ends: the id is not allocated, its bitmap has others, or it is now empty. -/
inductive Cleared where
  | err
  | busy
  | emptied (bm : IdaBitmap)

/-- `ida_remove` in a leaf layer. -/
def clearLeaf (p : Layer IdaBitmap) (n : Place) (offset : Offset) :
    Option (Slot IdaBitmap × Cleared) :=
  let p := p.setBit n false
  match p.ary n with
  | .item bm =>
    if !bm.bitmap offset then some (.node p, .err)
    else
      let bm := bm.clearBit offset
      let p := p.setAry n (.item bm)
      some (if bm.nrBusy = 0 then (.node (p.setBit n true), .emptied bm) else (.node p, .busy))
  | _ => none

/-- The loop of `ida_remove`, which clears the bits on its way. -/
def clearAt (idrId : Id) (offset : Offset) : Nat → Slot IdaBitmap →
    Option (Slot IdaBitmap × Cleared)
  | _, .null => some (.null, .err)
  | 1, .node p => clearLeaf p (idPlace idrId 0) offset
  | l + 2, .node p =>
    let n := idPlace idrId (l + 1)
    (clearAt idrId offset (l + 1) (p.ary n)).map fun (child, r) =>
      (.node ((p.setBit n false).setAry n child), r)
  | _, _ => none

def idaRemove (a : Ida) (id : Id) : Option Ida := do
  let idrId := id / IDA_BITMAP_BITS
  let (top, r) ← clearAt idrId (Fin.ofNat 992 id.toNat) a.idr.layers a.idr.top
  let idr := { a.idr with top := top }
  match r with
  | .emptied bm => do
    let idr ← idrRemove idr idrId
    return freeBitmap { a with idr := idr } bm
  | _ => return { a with idr := idr }

end SpicaKernel.Ids
