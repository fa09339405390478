import SpicaKernel.RedBlackTrees
import SpicaKernel.Runs

namespace SpicaKernel.RbTree
open RedBlack
set_option autoImplicit true

/-- The address of an `rb_node`; 0 is NULL. -/
abbrev Ptr := BitVec 32

/-- The first word holds the address of the parent and, in bit 0, the colour. -/
structure RbNode where
  parentColor : BitVec 32
  right : Ptr
  left : Ptr
  deriving DecidableEq

def colorBit : Color → BitVec 32
  | .red => 0#32
  | .black => 1#32

namespace RbNode

def rbParent (n : RbNode) : Ptr := n.parentColor &&& ~~~3#32

def rbColor (n : RbNode) : BitVec 32 := n.parentColor &&& 1#32

def rbIsRed (n : RbNode) : Bool := n.rbColor == 0#32

def rbIsBlack (n : RbNode) : Bool := n.rbColor != 0#32

def child (n : RbNode) : Side → Ptr
  | .left => n.left
  | .right => n.right

def withChild (n : RbNode) (side : Side) (p : Ptr) : RbNode :=
  match side with
  | .left => { n with left := p }
  | .right => { n with right := p }

def withRed (n : RbNode) : RbNode := { n with parentColor := n.parentColor &&& ~~~1#32 }

def withBlack (n : RbNode) : RbNode := { n with parentColor := n.parentColor ||| 1#32 }

def withParent (n : RbNode) (p : Ptr) : RbNode :=
  { n with parentColor := (n.parentColor &&& 3#32) ||| p }

def withColor (n : RbNode) (color : BitVec 32) : RbNode :=
  { n with parentColor := (n.parentColor &&& ~~~1#32) ||| color }

end RbNode

/-- The memory the nodes live in, and an `rb_root`. -/
structure Rb where
  nodes : Ptr → Option RbNode
  root : Ptr

namespace Rb

/-- Dereferencing NULL, or an address that holds no node, is a fault. -/
def load (s : Rb) (p : Ptr) : Option RbNode := if p = 0#32 then none else s.nodes p

def put (s : Rb) (p : Ptr) (n : RbNode) : Rb :=
  { s with nodes := Function.update s.nodes p (some n) }

def modify (s : Rb) (p : Ptr) (f : RbNode → RbNode) : Option Rb := do
  let n ← s.load p
  return s.put p (f n)

def setChild (s : Rb) (side : Side) (p q : Ptr) : Option Rb := s.modify p (·.withChild side q)

def rbSetParent (s : Rb) (p q : Ptr) : Option Rb := s.modify p (·.withParent q)

def rbSetRed (s : Rb) (p : Ptr) : Option Rb := s.modify p RbNode.withRed

def rbSetBlack (s : Rb) (p : Ptr) : Option Rb := s.modify p RbNode.withBlack

def rbSetColor (s : Rb) (p : Ptr) (color : BitVec 32) : Option Rb := s.modify p (·.withColor color)

/-- The test `!p || rb_is_black(p)`. -/
def nullOrBlack (s : Rb) (p : Ptr) : Option Bool :=
  if p = 0#32 then some true else do
    let n ← s.load p
    return n.rbIsBlack

/-- The test `p && rb_is_red(p)`. -/
def nonnullAndRed (s : Rb) (p : Ptr) : Option Bool :=
  if p = 0#32 then some false else do
    let n ← s.load p
    return n.rbIsRed

/-- Puts `new` in the place of `old`; `side` is the child link that is compared with `old`. -/
def changeChild (s : Rb) (side : Side) (parent old new : Ptr) : Option Rb :=
  if parent = 0#32 then some { s with root := new }
  else do
    let p ← s.load parent
    if p.child side = old then s.setChild side parent new
    else s.setChild side.flip parent new

/-- `if (child) rb_set_parent(child, parent)`. -/
def adopt (s : Rb) (child parent : Ptr) : Option Rb :=
  if child = 0#32 then some s else s.rbSetParent child parent

/-- Where a new node is linked: the root pointer, or a child link of a node. -/
inductive Link where
  | root
  | child (side : Side) (parent : Ptr)

def rbLinkNode (s : Rb) (node parent : Ptr) (link : Link) : Option Rb := do
  let _ ← s.load node
  let s := s.put node ⟨parent, 0#32, 0#32⟩
  match link with
  | .root => return { s with root := node }
  | .child side p => s.setChild side p node

/-- `__rb_rotate_left` and `__rb_rotate_right`: the child on the other side comes up. -/
def rbRotate (s : Rb) (side : Side) (node : Ptr) : Option Rb := do
  let n ← s.load node
  let right := n.child side.flip
  let parent := n.rbParent
  let r ← s.load right
  let inner := r.child side
  let s ← s.setChild side.flip node inner
  let s ← s.adopt inner node
  let s ← s.setChild side right node
  let s ← s.rbSetParent right parent
  let s ← s.changeChild side parent node right
  s.rbSetParent node right

def rbRotateLeft (s : Rb) (node : Ptr) : Option Rb := s.rbRotate .left node

def rbRotateRight (s : Rb) (node : Ptr) : Option Rb := s.rbRotate .right node

/-- One branch of the loop of `rb_insert_color`: `parent` is the child of `gparent` on `side`. -/
def insertColorAt (s : Rb) (side : Side) (node parent gparent : Ptr) : Option (Ptr × Rb) := do
  let g ← s.load gparent
  let uncle := g.child side.flip
  if ← s.nonnullAndRed uncle then
    let s ← s.rbSetBlack uncle
    let s ← s.rbSetBlack parent
    let s ← s.rbSetRed gparent
    return (gparent, s)
  let p ← s.load parent
  let (s, node, parent) ←
    if p.child side.flip = node then do
      let s ← s.rbRotate side parent
      pure (s, parent, node)
    else pure (s, node, parent)
  let s ← s.rbSetBlack parent
  let s ← s.rbSetRed gparent
  let s ← s.rbRotate side.flip gparent
  return (node, s)

def insertColorBody (s : Rb) (node : Ptr) : Option (Turn (Ptr × Rb) (Option Rb)) := do
  let n ← s.load node
  let parent := n.rbParent
  if ← s.nonnullAndRed parent then
    let p ← s.load parent
    let gparent := p.rbParent
    let g ← s.load gparent
    if parent = g.left then
      return .next (← s.insertColorAt .left node parent gparent)
    else
      return .next (← s.insertColorAt .right node parent gparent)
  else return .stop (some s)

def insertColorStep (x : Ptr × Rb) : Turn (Ptr × Rb) (Option Rb) :=
  (x.2.insertColorBody x.1).getD (.stop none)

/-- The loop is given `fuel` turns; `none` is a fault or a loop that did not end in them. -/
def rbInsertColor (fuel : Nat) (s : Rb) (node : Ptr) : Option Rb := do
  let s ← (runFor insertColorStep fuel (node, s)).join
  s.rbSetBlack s.root

/-- The first test of `__rb_erase_color`, for a red sibling. Returns the sibling there is then. -/
def raiseRedSibling (s : Rb) (side : Side) (parent other : Ptr) : Option (Rb × Ptr) := do
  let o ← s.load other
  if o.rbIsRed then
    let s ← s.rbSetBlack other
    let s ← s.rbSetRed parent
    let s ← s.rbRotate side parent
    let p ← s.load parent
    return (s, p.child side.flip)
  else return (s, other)

/-- The third test: if the far nephew is not red, the near one is, and comes up. -/
def raiseRedNephew (s : Rb) (side : Side) (parent other : Ptr) : Option (Rb × Ptr) := do
  let o ← s.load other
  if ← s.nullOrBlack (o.child side.flip) then
    let s ← s.rbSetBlack (o.child side)
    let s ← s.rbSetRed other
    let s ← s.rbRotate side.flip other
    let p ← s.load parent
    return (s, p.child side.flip)
  else return (s, other)

/-- A branch of the loop of `__rb_erase_color` for the child on `side`; the flag is its `break`. -/
def eraseColorAt (s : Rb) (side : Side) (parent : Ptr) : Option (Bool × Ptr × Ptr × Rb) := do
  let p ← s.load parent
  let (s, other) ← s.raiseRedSibling side parent (p.child side.flip)
  let o ← s.load other
  if (← s.nullOrBlack o.left) && (← s.nullOrBlack o.right) then
    let s ← s.rbSetRed other
    let p ← s.load parent
    return (false, parent, p.rbParent, s)
  let (s, other) ← s.raiseRedNephew side parent other
  let p ← s.load parent
  let s ← s.rbSetColor other p.rbColor
  let s ← s.rbSetBlack parent
  let o ← s.load other
  let s ← s.rbSetBlack (o.child side.flip)
  let s ← s.rbRotate side parent
  return (true, s.root, parent, s)

def eraseColorBody (s : Rb) (node parent : Ptr) :
    Option (Turn (Ptr × Ptr × Rb) (Option (Ptr × Rb))) := do
  if (← s.nullOrBlack node) && node != s.root then
    let p ← s.load parent
    let (leaves, node, parent, s) ←
      if p.left = node then s.eraseColorAt .left parent else s.eraseColorAt .right parent
    return if leaves then .stop (some (node, s)) else .next (node, parent, s)
  else return .stop (some (node, s))

def eraseColorStep (x : Ptr × Ptr × Rb) : Turn (Ptr × Ptr × Rb) (Option (Ptr × Rb)) :=
  (x.2.2.eraseColorBody x.1 x.2.1).getD (.stop none)

/-- `__rb_erase_color`. -/
def rbEraseColor (fuel : Nat) (s : Rb) (node parent : Ptr) : Option Rb := do
  let (node, s) ← (runFor eraseColorStep fuel (node, parent, s)).join
  if node = 0#32 then return s else s.rbSetBlack node

/-- `while ((left = node->rb_left) != NULL) node = left`. -/
def leftmost (s : Rb) : Nat → Ptr → Option Ptr
  | 0, _ => none
  | fuel + 1, node => do
    let n ← s.load node
    if n.left = 0#32 then return node else s.leftmost fuel n.left

/-- The successor `node` leaves its place to its child, unless it is the right child of `old`.
Returns the child, the colour and the parent there. -/
def detachSuccessor (s : Rb) (old node : Ptr) : Option (Ptr × BitVec 32 × Ptr × Rb) := do
  let n ← s.load node
  let child := n.right
  let parent := n.rbParent
  let color := n.rbColor
  if parent = old then return (child, color, node, s)
  let s ← s.adopt child parent
  let s ← s.setChild .left parent child
  let o ← s.load old
  let s ← s.setChild .right node o.right
  let o ← s.load old
  let s ← s.rbSetParent o.right node
  return (child, color, parent, s)

/-- `rb_erase` for two children, up to `goto color`: the successor takes the place of `old`. -/
def eraseSplice (fuel : Nat) (s : Rb) (old : Ptr) : Option (Ptr × Ptr × BitVec 32 × Rb) := do
  let o ← s.load old
  let node ← s.leftmost fuel o.right
  let s ← s.changeChild .left o.rbParent old node
  let (child, color, parent, s) ← s.detachSuccessor old node
  let o ← s.load old
  let s ← s.modify node (fun n => { n with parentColor := o.parentColor })
  let o ← s.load old
  let s ← s.setChild .left node o.left
  let o ← s.load old
  let s ← s.rbSetParent o.left node
  return (child, parent, color, s)

/-- The other part of `rb_erase`: a node with at most one child is unlinked. -/
def eraseUnlink (s : Rb) (node child : Ptr) : Option (Ptr × Ptr × BitVec 32 × Rb) := do
  let n ← s.load node
  let parent := n.rbParent
  let color := n.rbColor
  let s ← s.adopt child parent
  let s ← s.changeChild .left parent node child
  return (child, parent, color, s)

def rbErase (fuel : Nat) (s : Rb) (node : Ptr) : Option Rb := do
  let n ← s.load node
  let (child, parent, color, s) ←
    if n.left = 0#32 then s.eraseUnlink node n.right
    else if n.right = 0#32 then s.eraseUnlink node n.left
    else s.eraseSplice fuel node
  if color = colorBit .black then s.rbEraseColor fuel child parent else return s

end Rb

def Aligned (p : Ptr) : Prop := p &&& 3#32 = 0#32

theorem or_and (a b c : BitVec 32) : (a ||| b) &&& c = (a &&& c) ||| (b &&& c) := by
  ext i hi
  simp [Bool.and_or_distrib_right]

theorem Aligned.and_eq_self (h : Aligned p) : p &&& ~~~3#32 = p := by
  have hall : (3#32 ||| ~~~3#32) &&& p = p := by
    rw [show 3#32 ||| ~~~3#32 = BitVec.allOnes 32 from rfl, BitVec.allOnes_and]
  rw [or_and, BitVec.and_comm 3#32, h, BitVec.zero_or, BitVec.and_comm] at hall
  exact hall

theorem Aligned.and_one (h : Aligned p) : p &&& 1#32 = 0#32 := by
  rw [show 1#32 = 3#32 &&& 1#32 from rfl, ← BitVec.and_assoc, h, BitVec.zero_and]

theorem aligned_zero : Aligned 0#32 := rfl

namespace RbNode

section Fields

variable (n : RbNode) (side : Side) (p : Ptr)

@[simp] theorem child_withChild : (n.withChild side p).child side = p := by
  cases side <;> rfl

@[simp] theorem child_withChild_flip :
    (n.withChild side p).child side.flip = n.child side.flip := by
  cases side <;> rfl

@[simp] theorem child_withChild_flip' : (n.withChild side.flip p).child side = n.child side := by
  cases side <;> rfl

@[simp] theorem rbParent_withChild : (n.withChild side p).rbParent = n.rbParent := by
  cases side <;> rfl

@[simp] theorem rbColor_withChild : (n.withChild side p).rbColor = n.rbColor := by
  cases side <;> rfl

end Fields

@[simp] theorem child_withParent (n : RbNode) (p : Ptr) (side : Side) :
    (n.withParent p).child side = n.child side := by
  cases side <;> rfl

theorem rbParent_withParent (n : RbNode) (h : Aligned p) : (n.withParent p).rbParent = p := by
  unfold rbParent withParent
  rw [or_and, BitVec.and_assoc, h.and_eq_self]
  simp

theorem rbColor_withParent (n : RbNode) (h : Aligned p) : (n.withParent p).rbColor = n.rbColor := by
  unfold rbColor withParent
  rw [or_and, BitVec.and_assoc, h.and_one]
  simp

structure Paints (f : RbNode → RbNode) (c : Color) : Prop where
  child : ∀ n side, (f n).child side = n.child side
  parent : ∀ n, (f n).rbParent = n.rbParent
  color : ∀ n, (f n).rbColor = colorBit c

theorem withRed_paints : Paints withRed .red where
  child n side := by cases side <;> rfl
  parent n := by
    unfold rbParent withRed
    rw [BitVec.and_assoc]
    rfl
  color n := by
    unfold rbColor withRed
    rw [BitVec.and_assoc]
    simp [colorBit]

theorem withBlack_paints : Paints withBlack .black where
  child n side := by cases side <;> rfl
  parent n := by
    unfold rbParent withBlack
    rw [or_and]
    simp
  color n := by
    unfold rbColor withBlack
    ext i hi
    simp only [colorBit]
    grind

theorem withColor_paints (c : Color) : Paints (·.withColor (colorBit c)) c where
  child n side := by cases side <;> rfl
  parent n := by
    unfold rbParent withColor
    rw [or_and, BitVec.and_assoc]
    cases c
    · simp [colorBit]
    · simp [colorBit]
  color n := by
    unfold rbColor withColor
    rw [or_and, BitVec.and_assoc]
    cases c <;> simp [colorBit]

theorem rbIsRed_eq {n : RbNode} (h : n.rbColor = colorBit c) : n.rbIsRed = decide (c = .red) := by
  cases c <;> simp [rbIsRed, h, colorBit]

theorem rbIsBlack_eq {n : RbNode} (h : n.rbColor = colorBit c) :
    n.rbIsBlack = decide (c = .black) := by
  cases c <;> simp [rbIsBlack, h, colorBit]

end RbNode

namespace Rb

@[simp] theorem put_nodes_self (s : Rb) (p : Ptr) (n : RbNode) : (s.put p n).nodes p = some n := by
  simp [put]

@[simp] theorem put_root (s : Rb) (p : Ptr) (n : RbNode) : (s.put p n).root = s.root := rfl

theorem put_nodes_of_ne (s : Rb) (n : RbNode) (h : q ≠ p) : (s.put p n).nodes q = s.nodes q := by
  simp [put, h]

theorem load_eq {s : Rb} (h : s.nodes p = some n) (hp : p ≠ 0#32) : s.load p = some n := by
  rw [load, if_neg hp, h]

theorem modify_eq {s : Rb} (h : s.load p = some n) : s.modify p f = some (s.put p (f n)) := by
  rw [modify, h]
  rfl

end Rb

def Holds (s : Rb) (a parent : Ptr) (c : Color) (side : Side) (near far : Ptr) : Prop :=
  ∃ n, s.nodes a = some n ∧ n.rbParent = parent ∧ n.rbColor = colorBit c ∧
    n.child side = near ∧ n.child side.flip = far

theorem Holds.flip (h : Holds s a parent c side near far) :
    Holds s a parent c side.flip far near := by
  obtain ⟨n, hn, hp, hc, hl, hr⟩ := h
  exact ⟨n, hn, hp, hc, hr, by rwa [Side.flip_flip]⟩

theorem holds_flip_iff :
    Holds s a parent c side.flip far near ↔ Holds s a parent c side near far := by
  refine ⟨fun h => ?_, Holds.flip⟩
  have h' := h.flip
  rwa [Side.flip_flip] at h'

theorem Holds.congr (h : Holds s a parent c side near far)
    (he : s'.nodes a = s.nodes a) : Holds s' a parent c side near far := by
  obtain ⟨n, hn, hrest⟩ := h
  exact ⟨n, he.trans hn, hrest⟩

def top : RedBlack.Tree Ptr → Ptr
  | .leaf => 0#32
  | .node _ _ a _ => a

@[simp] theorem top_build (side : Side) (c : Color) (l : RedBlack.Tree Ptr) (a : Ptr)
    (r : RedBlack.Tree Ptr) :
    top (.build side c l a r) = a := by
  cases side <;> rfl

def At (s : Rb) : Ptr → RedBlack.Tree Ptr → Prop
  | _, .leaf => True
  | parent, .node c l a r =>
    Holds s a parent c .left (top l) (top r) ∧ At s a l ∧ At s a r

theorem at_build : At s parent (.build side c l a r) ↔
      Holds s a parent c side (top l) (top r) ∧ At s a l ∧ At s a r := by
  cases side with
  | left => rfl
  | right =>
    rw [show Side.right = Side.left.flip from rfl, holds_flip_iff]
    exact and_congr_right fun _ => and_comm

theorem At.congr (h : At s parent t) (he : ∀ p ∈ t.toList, s'.nodes p = s.nodes p) :
    At s' parent t := by
  induction t generalizing parent with
  | leaf => trivial
  | node c l a r ihl ihr =>
    obtain ⟨ha, hl, hr⟩ := h
    refine ⟨ha.congr (he a (by simp [Tree.toList])), ihl hl ?_, ihr hr ?_⟩
    · exact fun p hp => he p (by simp [Tree.toList, hp])
    · exact fun p hp => he p (by simp [Tree.toList, hp])

/-- The node a subtree hangs below, at the end of a path that starts below the node `base`. -/
def parentFrom (base : Ptr) : List (Frame Ptr) → Ptr
  | [] => base
  | f :: _ => f.elem

def parentOf (fs : List (Frame Ptr)) : Ptr := parentFrom 0#32 fs

def Within (s : Rb) (base : Ptr) : List (Frame Ptr) → Ptr → Prop
  | [], _ => True
  | f :: fs, hole =>
    Holds s f.elem (parentFrom base fs) f.color f.side hole (top f.sibling) ∧
      At s f.elem f.sibling ∧ Within s base fs f.elem

def outermost : List (Frame Ptr) → Ptr → Ptr
  | [], hole => hole
  | f :: fs, _ => outermost fs f.elem

structure Around (s : Rb) (fs : List (Frame Ptr)) (hole : Ptr) : Prop where
  within : Within s 0#32 fs hole
  root : s.root = outermost fs hole

theorem at_fill :
    At s base (fill fs t) ↔ Within s base fs (top t) ∧ At s (parentFrom base fs) t := by
  induction fs generalizing t with
  | nil => simp [fill, Within, parentFrom]
  | cons f fs ih =>
    rw [fill, ih, Frame.fill, top_build, at_build, Within]
    tauto

theorem top_fill (fs : List (Frame Ptr)) (t : RedBlack.Tree Ptr) :
    top (fill fs t) = outermost fs (top t) := by
  induction fs generalizing t with
  | nil => rfl
  | cons f fs ih => rw [fill, ih, Frame.fill, top_build, outermost]

def OnPath (fs : List (Frame Ptr)) (p : Ptr) : Prop := p ∈ before fs ∨ p ∈ after fs

theorem onPath_cons : OnPath (f :: fs) p ↔ p = f.elem ∨ p ∈ f.sibling.toList ∨ OnPath fs p := by
  rw [← or_assoc, ← Frame.mem_before_or_after]
  simp only [OnPath, before, after, List.mem_append]
  tauto

theorem onPath_head (f : Frame Ptr) (fs : List (Frame Ptr)) : OnPath (f :: fs) f.elem :=
  onPath_cons.mpr (.inl rfl)

theorem mem_toList_fill : p ∈ (fill fs t).toList ↔ OnPath fs p ∨ p ∈ t.toList := by
  rw [toList_fill, List.mem_append, List.mem_append, OnPath]
  tauto

theorem Within.congr (h : Within s base fs hole)
    (he : ∀ p, OnPath fs p → s'.nodes p = s.nodes p) : Within s' base fs hole := by
  induction fs generalizing hole with
  | nil => trivial
  | cons f fs ih =>
    obtain ⟨hf, ht, hfs⟩ := h
    simp only [onPath_cons] at he
    exact ⟨hf.congr (he _ (.inl rfl)), ht.congr (fun p hp => he p (.inr (.inl hp))),
      ih hfs (fun p hp => he p (.inr (.inr hp)))⟩

theorem Around.congr (h : Around s fs hole) (hroot : s'.root = s.root)
    (he : ∀ p, OnPath fs p → s'.nodes p = s.nodes p) : Around s' fs hole :=
  ⟨h.within.congr he, hroot.trans h.root⟩

structure Addresses (ps : List Ptr) : Prop where
  nodup : ps.Nodup
  aligned : ∀ p ∈ ps, Aligned p
  nonnull : ∀ p ∈ ps, p ≠ 0#32

theorem Addresses.sublist (h : Addresses ps) (hs : qs.Sublist ps) : Addresses qs where
  nodup := h.nodup.sublist hs
  aligned p hp := h.aligned p (hs.subset hp)
  nonnull p hp := h.nonnull p (hs.subset hp)

theorem Addresses.insert (h : Addresses (ps ++ qs)) (halign : Aligned a)
    (ha : a ≠ 0#32) (hout : a ∉ ps ++ qs) : Addresses (ps ++ a :: qs) where
  nodup := List.nodup_middle.mpr (List.nodup_cons.mpr ⟨hout, h.nodup⟩)
  aligned p hp := by
    rcases List.mem_cons.mp (List.perm_middle.mem_iff.mp hp) with rfl | hp
    · exact halign
    · exact h.aligned p hp
  nonnull p hp := by
    rcases List.mem_cons.mp (List.perm_middle.mem_iff.mp hp) with rfl | hp
    · exact ha
    · exact h.nonnull p hp

/-- The memory holds the tree `t`: the root pointer, the links, the colours and the parents. -/
structure Represents (s : Rb) (t : RedBlack.Tree Ptr) : Prop where
  root : s.root = top t
  links : At s 0#32 t
  addresses : Addresses t.toList

theorem represents_fill : Represents s (fill fs t) ↔
      Around s fs (top t) ∧ At s (parentOf fs) t ∧ Addresses (fill fs t).toList := by
  constructor
  · intro h
    obtain ⟨hwithin, ht⟩ := at_fill.mp h.links
    exact ⟨⟨hwithin, h.root.trans (top_fill fs t)⟩, ht, h.addresses⟩
  · intro ⟨ha, ht, hd⟩
    exact ⟨ha.root.trans (top_fill fs t).symm, at_fill.mpr ⟨ha.within, ht⟩, hd⟩

theorem Addresses.apart (h : Addresses (fill fs t).toList) :
    Addresses (before fs ++ after fs) ∧ Addresses t.toList ∧ ∀ p, OnPath fs p → p ∉ t.toList := by
  rw [toList_fill] at h
  refine ⟨h.sublist ?_, h.sublist ?_, ?_⟩
  · rw [List.append_assoc]
    exact (List.sublist_append_right _ _).append_left _
  · rw [List.append_assoc]
    exact (List.sublist_append_left _ _).trans (List.sublist_append_right _ _)
  · intro p hp hpt
    have hn := h.nodup
    rw [List.append_assoc, List.nodup_append, List.nodup_append] at hn
    obtain ⟨-, ⟨-, -, hta⟩, hb⟩ := hn
    rcases hp with hpb | hpa
    · exact hb p hpb p (by simp [hpt]) rfl
    · exact hta p hpt p hpa rfl

theorem Addresses.build (h : Addresses (Tree.build side c l a r).toList) :
    Aligned a ∧ a ≠ 0#32 ∧ a ∉ l.toList ∧ a ∉ r.toList ∧ Addresses l.toList ∧ Addresses r.toList ∧
      ∀ p ∈ l.toList, p ∉ r.toList := by
  have ha : a ∈ (Tree.build side c l a r).toList := by simp
  have hl : l.toList.Sublist (Tree.build side c l a r).toList := by
    cases side
    · exact List.sublist_append_left _ _
    · exact (List.sublist_cons_self _ _).trans (List.sublist_append_right _ _)
  have hr : r.toList.Sublist (Tree.build side c l a r).toList := by
    cases side
    · exact (List.sublist_cons_self _ _).trans (List.sublist_append_right _ _)
    · exact List.sublist_append_left _ _
  refine ⟨h.aligned a ha, h.nonnull a ha, ?_⟩
  have hn := h.nodup
  cases side with
  | left =>
    simp only [Tree.build, Tree.toList, List.nodup_append, List.nodup_cons] at hn
    obtain ⟨-, ⟨har, -⟩, hlr⟩ := hn
    refine ⟨fun hal => hlr a hal a (by simp) rfl, har, h.sublist hl, h.sublist hr, ?_⟩
    exact fun p hp hp' => hlr p hp p (by simp [hp']) rfl
  | right =>
    simp only [Tree.build, Tree.toList, List.nodup_append, List.nodup_cons] at hn
    obtain ⟨-, ⟨hal, -⟩, hrl⟩ := hn
    refine ⟨hal, fun har => hrl a har a (by simp) rfl, h.sublist hl, h.sublist hr, ?_⟩
    exact fun p hp hp' => hrl p hp' p (by simp [hp]) rfl

theorem top_mem_or_null (t : RedBlack.Tree Ptr) : t = .leaf ∨ top t ∈ t.toList := by
  cases t with
  | leaf => exact .inl rfl
  | node c l a r => exact .inr (by simp [top, Tree.toList])

theorem top_ne (hp : p ∉ t.toList) (h0 : p ≠ 0#32) : top t ≠ p := by
  rcases top_mem_or_null t with rfl | hm
  · exact h0.symm
  · exact fun he => hp (he ▸ hm)

theorem parentOf_aligned (h : Addresses (before fs ++ after fs)) : Aligned (parentOf fs) := by
  cases fs with
  | nil => exact aligned_zero
  | cons f fs => exact h.aligned _ (List.mem_append.mpr (onPath_head f fs))

namespace Represents

section Focus

variable {side : Side} (h : Represents s (fill fs (.build side c l a r)))
include h

theorem load : ∃ n, s.load a = some n ∧ n.rbParent = parentOf fs ∧ n.rbColor = colorBit c ∧
      n.child side = top l ∧ n.child side.flip = top r := by
  obtain ⟨-, hat, had⟩ := represents_fill.mp h
  obtain ⟨⟨n, hn, hrest⟩, -, -⟩ := at_build.mp hat
  obtain ⟨-, had, -⟩ := had.apart
  exact ⟨n, Rb.load_eq hn had.build.2.1, hrest⟩

theorem paint (hf : RbNode.Paints f d) :
    ∃ s', s.modify a f = some s' ∧ Represents s' (fill fs (.build side d l a r)) := by
  obtain ⟨n, hload, hp, -, hl, hr⟩ := h.load
  obtain ⟨haround, hat, had⟩ := represents_fill.mp h
  obtain ⟨-, hleft, hright⟩ := at_build.mp hat
  obtain ⟨-, hadt, hout⟩ := had.apart
  obtain ⟨-, -, hal, har, -⟩ := hadt.build
  refine ⟨_, Rb.modify_eq hload, represents_fill.mpr ⟨?_, at_build.mpr ⟨?_, ?_, ?_⟩, ?_⟩⟩
  · rw [top_build] at haround ⊢
    exact haround.congr rfl (fun p hp => Rb.put_nodes_of_ne _ _
      (fun he => hout p hp (by simp [he])))
  · exact ⟨f n, Rb.put_nodes_self _ _ _, (hf.parent n).trans hp, hf.color n,
      (hf.child n side).trans hl, (hf.child n side.flip).trans hr⟩
  · exact hleft.congr (fun p hp => Rb.put_nodes_of_ne _ _ (fun he => hal (he ▸ hp)))
  · exact hright.congr (fun p hp => Rb.put_nodes_of_ne _ _ (fun he => har (he ▸ hp)))
  · rwa [toList_fill_congr fs (Tree.toList_build_color side d c l r a)]

theorem setRed : ∃ s', s.rbSetRed a = some s' ∧ Represents s' (fill fs (.build side .red l a r)) :=
  h.paint RbNode.withRed_paints

theorem setBlack :
    ∃ s', s.rbSetBlack a = some s' ∧ Represents s' (fill fs (.build side .black l a r)) :=
  h.paint RbNode.withBlack_paints

theorem setColor (d : Color) : ∃ s', s.rbSetColor a (colorBit d) = some s' ∧
      Represents s' (fill fs (.build side d l a r)) :=
  h.paint (RbNode.withColor_paints d)

end Focus

end Represents

theorem At.adopt (h : At s parent t) (had : Addresses t.toList) (hq : Aligned q) :
    ∃ s', s.adopt (top t) q = some s' ∧ At s' q t ∧ s'.root = s.root ∧
      ∀ p, p ∉ t.toList → s'.nodes p = s.nodes p := by
  cases t with
  | leaf => exact ⟨s, rfl, trivial, rfl, fun _ _ => rfl⟩
  | node c l a r =>
    obtain ⟨⟨n, hn, -, hc, hl, hr⟩, hleft, hright⟩ := h
    have had' : Addresses (Tree.build .left c l a r).toList := had
    obtain ⟨-, ha0, hal, har, -⟩ := had'.build
    have hload : s.load a = some n := Rb.load_eq hn ha0
    refine ⟨s.put a (n.withParent q), ?_, ⟨⟨n.withParent q, ?_, ?_, ?_, ?_, ?_⟩, ?_, ?_⟩, rfl, ?_⟩
    · rw [top, Rb.adopt, if_neg ha0, Rb.rbSetParent, Rb.modify_eq hload]
    · exact Rb.put_nodes_self _ _ _
    · exact n.rbParent_withParent hq
    · exact (n.rbColor_withParent hq).trans hc
    · rw [RbNode.child_withParent, hl]
    · rw [RbNode.child_withParent, hr]
    · exact hleft.congr (fun p hp => Rb.put_nodes_of_ne _ _ (fun he => hal (he ▸ hp)))
    · exact hright.congr (fun p hp => Rb.put_nodes_of_ne _ _ (fun he => har (he ▸ hp)))
    · exact fun p hp => Rb.put_nodes_of_ne _ _ (fun he => hp (by simp [he, Tree.toList]))

theorem Within.relink (h : Within s base (f :: fs) old)
    (had : Addresses (before (f :: fs) ++ after (f :: fs))) (new : Ptr) :
    ∃ n, s.load f.elem = some n ∧ n.child f.side = old ∧ n.child f.side.flip = top f.sibling ∧
      Within (s.put f.elem (n.withChild f.side new)) base (f :: fs) new := by
  obtain ⟨⟨n, hn, hpar, hc, hnear, hfar⟩, hsib, hup⟩ := h
  have hf0 : f.elem ≠ 0#32 := had.nonnull _ (List.mem_append.mpr (onPath_head f fs))
  have hnodup := had.nodup
  have hout : f.elem ∉ f.sibling.toList ∧ ¬ OnPath fs f.elem := by
    obtain ⟨side, c, a, u⟩ := f
    cases side <;> simp only [OnPath, before, after, Frame.before, Frame.after] at hnodup ⊢ <;>
      grind
  refine ⟨n, Rb.load_eq hn hf0, hnear, hfar, ⟨n.withChild f.side new, ?_, ?_, ?_, ?_, ?_⟩, ?_, ?_⟩
  · exact Rb.put_nodes_self _ _ _
  · rw [RbNode.rbParent_withChild, hpar]
  · rw [RbNode.rbColor_withChild, hc]
  · exact RbNode.child_withChild _ _ _
  · rw [RbNode.child_withChild_flip, hfar]
  · exact hsib.congr (fun p hp => Rb.put_nodes_of_ne _ _ (fun he => hout.1 (he ▸ hp)))
  · exact hup.congr (fun p hp => Rb.put_nodes_of_ne _ _ (fun he => hout.2 (he ▸ hp)))

theorem Around.relink (h : Around s (f :: fs) old)
    (had : Addresses (before (f :: fs) ++ after (f :: fs))) (new : Ptr) :
    ∃ n, s.load f.elem = some n ∧ n.child f.side = old ∧ n.child f.side.flip = top f.sibling ∧
      Around (s.put f.elem (n.withChild f.side new)) (f :: fs) new := by
  obtain ⟨n, hload, hnear, hfar, hnew⟩ := h.within.relink had new
  exact ⟨n, hload, hnear, hfar, hnew, h.root⟩

theorem Around.changeChild (h : Around s fs old) (had : Addresses (before fs ++ after fs))
    (hold : ¬ OnPath fs old) (h0 : old ≠ 0#32) (side : Side) (new : Ptr) :
    ∃ s', s.changeChild side (parentOf fs) old new = some s' ∧ Around s' fs new ∧
      ∀ p, ¬ OnPath fs p → s'.nodes p = s.nodes p := by
  cases fs with
  | nil => exact ⟨{ s with root := new }, rfl, ⟨trivial, rfl⟩, fun _ _ => rfl⟩
  | cons f fs =>
    obtain ⟨n, hload, hnear, hfar, hnew⟩ := h.relink had new
    rw [onPath_cons, not_or, not_or] at hold
    have hf0 : f.elem ≠ 0#32 := had.nonnull _ (List.mem_append.mpr (onPath_head f fs))
    have hsibling : top f.sibling ≠ old := top_ne hold.2.1 h0
    refine ⟨_, ?_, hnew, ?_⟩
    · rw [parentOf, parentFrom, Rb.changeChild, if_neg hf0, hload]
      simp only [Option.bind_eq_bind, Option.bind_some, Rb.setChild, Rb.modify_eq hload]
      by_cases hs : side = f.side
      · rw [hs, if_pos hnear]
      · have hs' : side = f.side.flip := by
          cases side <;> cases hf : f.side <;> simp_all [Side.flip]
        rw [hs', if_neg (hfar ▸ hsibling), Side.flip_flip]
    · exact fun p hp => Rb.put_nodes_of_ne _ _ (fun he => hp (onPath_cons.mpr (.inl he)))

theorem Represents.rotate (h : Represents s (fill fs (.build side c l a (.build side d m b r)))) :
    ∃ s', s.rbRotate side a = some s' ∧
      Represents s' (fill fs (.build side d (.build side c l a m) b r)) := by
  obtain ⟨na, hloada, hpar, hca, hla, hra⟩ := h.load
  obtain ⟨haround, hat, had⟩ := represents_fill.mp h
  obtain ⟨-, hatl, hatb⟩ := at_build.mp hat
  obtain ⟨⟨nb, hnb, -, hcb, hmb, hrb⟩, hatm, hatr⟩ := at_build.mp hatb
  obtain ⟨hadfs, hadt, hout⟩ := had.apart
  obtain ⟨haal, ha0, hal, har, hadl, hadb, hlb⟩ := hadt.build
  obtain ⟨hbal, hb0, hbm, hbr, hadm, hadr, hmr⟩ := hadb.build
  simp only [Tree.mem_toList_build, not_or] at hout har hlb
  rw [top_build] at haround hra
  obtain ⟨ham, hab, har⟩ := har
  have hloadb : s.load b = some nb := Rb.load_eq hnb hb0
  -- the child link of `a`, and the inner subtree below it
  let s₁ := s.put a (na.withChild side.flip (top m))
  have hs₁ : s.setChild side.flip a (top m) = some s₁ := Rb.modify_eq hloada
  have hatm₁ : At s₁ b m :=
    hatm.congr (fun p hp => Rb.put_nodes_of_ne _ _ (fun he => ham (he ▸ hp)))
  obtain ⟨s₂, hs₂, hatm₂, hroot₂, hsame₂⟩ := hatm₁.adopt hadm haal
  -- the links of `b`
  have hloadb₂ : s₂.load b = some nb := by
    refine Rb.load_eq ?_ hb0
    rw [hsame₂ b hbm]
    exact (Rb.put_nodes_of_ne _ _ (Ne.symm hab)).trans hnb
  let s₃ := s₂.put b (nb.withChild side a)
  have hs₃ : s₂.setChild side b a = some s₃ := Rb.modify_eq hloadb₂
  have hloadb₃ : s₃.load b = some (nb.withChild side a) := Rb.load_eq (Rb.put_nodes_self _ _ _) hb0
  let s₄ := s₃.put b ((nb.withChild side a).withParent (parentOf fs))
  have hs₄ : s₃.rbSetParent b (parentOf fs) = some s₄ := Rb.modify_eq hloadb₃
  have hsame₄ : ∀ p, p ≠ b → s₄.nodes p = s₂.nodes p := fun p hp =>
    (Rb.put_nodes_of_ne _ _ hp).trans (Rb.put_nodes_of_ne _ _ hp)
  -- the link to the whole, and last the parent of `a`
  have haround₄ : Around s₄ fs a := by
    refine haround.congr hroot₂ (fun p hp => ?_)
    obtain ⟨-, hpa, hpm, hpb, -⟩ := hout p hp
    rw [hsame₄ p hpb, hsame₂ p hpm]
    exact Rb.put_nodes_of_ne _ _ hpa
  obtain ⟨s₅, hs₅, haround₅, hsame₅⟩ :=
    haround₄.changeChild hadfs (fun hp => (hout a hp).2.1 rfl) ha0 side b
  have hloada₅ : s₅.load a = some (na.withChild side.flip (top m)) := by
    refine Rb.load_eq ?_ ha0
    rw [hsame₅ a (fun hp => (hout a hp).2.1 rfl), hsame₄ a hab, hsame₂ a ham]
    exact Rb.put_nodes_self _ _ _
  let s₆ := s₅.put a ((na.withChild side.flip (top m)).withParent b)
  have hs₆ : s₅.rbSetParent a b = some s₆ := Rb.modify_eq hloada₅
  have hsame₆ : ∀ p, ¬ OnPath fs p → p ≠ a → p ≠ b → s₆.nodes p = s₂.nodes p := by
    intro p hp hpa hpb
    calc s₆.nodes p = s₅.nodes p := Rb.put_nodes_of_ne _ _ hpa
      _ = s₄.nodes p := hsame₅ p hp
      _ = s₂.nodes p := hsame₄ p hpb
  refine ⟨s₆, ?_, represents_fill.mpr ⟨?_, at_build.mpr ⟨?_, at_build.mpr ⟨?_, ?_, ?_⟩, ?_⟩, ?_⟩⟩
  · simp [Rb.rbRotate, hloada, hra, hloadb, hmb, hpar, hs₁, hs₂, hs₃, hs₄, hs₅, hs₆]
  · rw [top_build]
    exact haround₅.congr rfl (fun p hp => Rb.put_nodes_of_ne _ _ (hout p hp).2.1)
  · refine ⟨(nb.withChild side a).withParent (parentOf fs), ?_, ?_, ?_, ?_, ?_⟩
    · have h₄ : s₄.nodes b = _ := Rb.put_nodes_self _ _ _
      rw [← h₄, ← hsame₅ b (fun hp => (hout b hp).2.2.2.1 rfl)]
      exact Rb.put_nodes_of_ne _ _ (Ne.symm hab)
    · exact RbNode.rbParent_withParent _ (parentOf_aligned hadfs)
    · rw [RbNode.rbColor_withParent _ (parentOf_aligned hadfs), RbNode.rbColor_withChild, hcb]
    · rw [RbNode.child_withParent, RbNode.child_withChild, top_build]
    · rw [RbNode.child_withParent, RbNode.child_withChild_flip, hrb]
  · refine ⟨(na.withChild side.flip (top m)).withParent b, Rb.put_nodes_self _ _ _, ?_, ?_, ?_, ?_⟩
    · exact RbNode.rbParent_withParent _ hbal
    · rw [RbNode.rbColor_withParent _ hbal, RbNode.rbColor_withChild, hca]
    · rw [RbNode.child_withParent, RbNode.child_withChild_flip', hla]
    · rw [RbNode.child_withParent, RbNode.child_withChild]
  · refine hatl.congr (fun p hp => ?_)
    obtain ⟨hpm, hpb, -⟩ := hlb p hp
    rw [hsame₆ p (fun h => (hout p h).1 hp) (fun he => hal (he ▸ hp)) hpb, hsame₂ p hpm]
    exact Rb.put_nodes_of_ne _ _ (fun he => hal (he ▸ hp))
  · exact hatm₂.congr (fun p hp => hsame₆ p (fun h => (hout p h).2.2.1 hp)
      (fun he => ham (he ▸ hp)) (fun he => hbm (he ▸ hp)))
  · refine hatr.congr (fun p hp => ?_)
    rw [hsame₆ p (fun h => (hout p h).2.2.2.2 hp) (fun he => har (he ▸ hp))
      (fun he => hbr (he ▸ hp)), hsame₂ p (fun h => hmr p h hp)]
    exact Rb.put_nodes_of_ne _ _ (fun he => har (he ▸ hp))
  · rwa [toList_fill_congr fs (Tree.toList_rotate side c d c d l m r a b)]

end SpicaKernel.RbTree
