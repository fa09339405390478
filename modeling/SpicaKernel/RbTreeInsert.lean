import Mathlib.Data.List.Induction
import SpicaKernel.RbTree

namespace SpicaKernel.RbTree
open RedBlack List Option
set_option autoImplicit true

theorem fill_sibling (side : Side) (c : Color) (a : α) (t u : RedBlack.Tree α)
    (fs : List (Frame α)) :
    fill (⟨side, c, a, u⟩ :: fs) t = fill (⟨side.flip, c, a, t⟩ :: fs) u := by
  rw [fill, fill, Frame.fill, Frame.fill, Tree.build_flip]

theorem Represents.nonnullAndRed (h : Represents s (fill fs t)) :
    s.nonnullAndRed (top t) = some (decide (t.color = .red)) := by
  cases t with
  | leaf => rfl
  | node c l a r =>
    have h' : Represents s (fill fs (.build .left c l a r)) := h
    obtain ⟨n, hload, -, hc, -⟩ := h'.load
    have ha0 : a ≠ 0#32 := h.addresses.apart.2.1.nonnull a (by simp [Tree.toList])
    rw [top, Rb.nonnullAndRed, if_neg ha0, hload]
    simp only [bind_eq_bind, bind_some, RbNode.rbIsRed_eq hc]
    rfl

theorem Represents.raise
    (h : Represents s (fill (⟨side, .black, g, u⟩ :: fs) (.build side .red t p r))) :
    ∃ s₁ s₂ s₃, s.rbSetBlack p = some s₁ ∧ s₁.rbSetRed g = some s₂ ∧
      s₂.rbRotate side.flip g = some s₃ ∧
      Represents s₃ (fill (⟨side, .black, p, .build side .red r g u⟩ :: fs) t) := by
  obtain ⟨s₁, hs₁, h₁⟩ := h.setBlack
  have h₁' : Represents s₁ (fill fs (.build side .black (.build side .black t p r) g u)) := h₁
  obtain ⟨s₂, hs₂, h₂⟩ := h₁'.setRed
  have h₂' : Represents s₂
      (fill fs (.build side.flip .red u g (.build side.flip .black r p t))) := by
    rwa [Tree.build_flip, Tree.build_flip]
  obtain ⟨s₃, hs₃, h₃⟩ := h₂'.rotate
  refine ⟨s₁, s₂, s₃, hs₁, hs₂, hs₃, ?_⟩
  rwa [Tree.build_flip, Tree.build_flip] at h₃

/-- The cursor of `rb_insert_color`: only the red node at it may have a red parent. -/
def InsertCursor (elems : List Ptr) (k : Nat) (x : Ptr × Rb) : Prop :=
  ∃ fs t n, top t = x.1 ∧ t.Balanced .red n ∧ Hole fs .black n ∧ Represents x.2 (fill fs t) ∧
    (fill fs t).toList = elems ∧ fs.length = k

section
variable (h : Represents s (fill (⟨sp, .red, p, r⟩ :: ⟨side, .black, g, u⟩ :: fs) t))
    (ht : t.Balanced .red n) (hr : r.Balanced .black n)
include h ht hr

theorem insertColorAt_recolor (hu : u.Balanced .red n)
    (hh : Hole fs .black (n + 1)) :
    ∃ x, s.insertColorAt side (top t) p g = some x ∧
      InsertCursor (fill (⟨sp, .red, p, r⟩ :: ⟨side, .black, g, u⟩ :: fs) t).toList
        fs.length x := by
  obtain ⟨ul, b, ur, rfl⟩ := Tree.eq_build_of_red side hu.color_eq
  obtain ⟨-, hul, hur⟩ := hu.of_red side
  have hg : Represents s (fill fs (.build side .black (.build sp .red t p r) g
    (.build side .red ul b ur))) := h
  obtain ⟨ng, hloadg, -, -, -, huncle⟩ := hg.load
  have hu' : Represents s (fill (⟨side.flip, .black, g, .build sp .red t p r⟩ :: fs)
      (.build side .red ul b ur)) := by
    rw [← fill_sibling]
    exact h
  have hred := hu'.nonnullAndRed
  obtain ⟨s₁, hs₁, h₁⟩ := hu'.setBlack
  rw [← fill_sibling] at h₁
  obtain ⟨s₂, hs₂, h₂⟩ := h₁.setBlack
  have h₂' : Represents s₂ (fill fs (.build side .black (.build sp .black t p r) g
    (.build side .black ul b ur))) := h₂
  obtain ⟨s₃, hs₃, h₃⟩ := h₂'.setRed
  refine ⟨(g, s₃), ?_, fs, _, n + 1, top_build _ _ _ _ _, ?_, hh, h₃, ?_, rfl⟩
  · rw [top_build] at huncle
    rw [top_build, Tree.color_build] at hred
    simp only [Rb.insertColorAt, hloadg, huncle, hred, hs₁, hs₂, hs₃, bind_eq_bind, bind_some]
    rfl
  · exact .build_red side (.build_black sp ht hr) (.build_black side hul hur)
  · rw [fill, fill]
    apply toList_fill_congr
    cases side <;> cases sp <;> rfl

theorem insertColorAt_rotate (hu : u.Balanced .black n)
    (hh : Hole fs .black (n + 1)) :
    ∃ x, s.insertColorAt side (top t) p g = some x ∧
      InsertCursor (fill (⟨sp, .red, p, r⟩ :: ⟨side, .black, g, u⟩ :: fs) t).toList
        (fs.length + 1) x := by
  obtain ⟨tl, a, tr, rfl⟩ := Tree.eq_build_of_red side ht.color_eq
  obtain ⟨-, htl, htr⟩ := ht.of_red side
  have hg : Represents s (fill fs (.build side .black
    (.build sp .red (.build side .red tl a tr) p r) g u)) := h
  have hp : Represents s (fill (⟨side, .black, g, u⟩ :: fs)
    (.build sp .red (.build side .red tl a tr) p r)) := h
  obtain ⟨ng, hloadg, -, -, -, huncle⟩ := hg.load
  have hu' := h
  rw [fill, fill_sibling] at hu'
  have hred := hu'.nonnullAndRed
  rw [hu.color_eq] at hred
  obtain ⟨np, hloadp, -, -, hnear, hfar⟩ := hp.load
  by_cases hs : sp = side
  · -- the node is the outer child
    subst hs
    have hne : top r ≠ a := by
      obtain ⟨-, hadt, -⟩ := h.addresses.apart
      obtain ⟨-, -, -, -, hta, -, hdis⟩ := (hp.addresses.apart).2.1.build
      exact top_ne (hdis a (by simp)) (hadt.build.2.1)
    obtain ⟨s₁, s₂, s₃, hs₁, hs₂, hs₃, h₃⟩ := hp.raise
    refine ⟨(a, s₃), ?_, _, _, n, top_build _ _ _ _ _, ht,
      .black (.build_red sp hr hu) hh, h₃, ?_, rfl⟩
    · have htest : np.child sp.flip ≠ a := hfar ▸ hne
      simp [Rb.insertColorAt, hloadg, huncle, hred, hloadp, if_neg htest, hs₁, hs₂, hs₃]
    · exact toList_fill_congr fs (Tree.toList_rotate ..).symm
  · -- the node is the inner child, and the first rotation makes it the outer one
    have hs' : sp = side.flip := by
      cases sp <;> cases side <;> simp_all [Side.flip]
    subst hs'
    have hp' : Represents s (fill (⟨side, .black, g, u⟩ :: fs)
        (.build side .red r p (.build side .red tl a tr))) := by
      rwa [Tree.build_flip] at hp
    obtain ⟨s₀, hs₀, h₀⟩ := hp'.rotate
    obtain ⟨s₁, s₂, s₃, hs₁, hs₂, hs₃, h₃⟩ := h₀.raise
    refine ⟨(p, s₃), ?_, _, _, n, top_build _ _ _ _ _, .build_red side hr htl,
      .black (.build_red side htr hu) hh, h₃, ?_, rfl⟩
    · simp [Rb.insertColorAt, hloadg, huncle, hred, hloadp, hnear, hs₀, hs₁, hs₂, hs₃]
    · rw [fill, fill, fill, Frame.fill, Frame.fill, Frame.fill, Tree.build_flip]
      apply toList_fill_congr
      cases side <;> simp [Tree.build, Tree.toList]

end

theorem pick_side {n : RbNode} (hnear : n.child side = p) (hfar : n.child side.flip ≠ p)
    (F : Side → β) : (if p = n.left then F .left else F .right) = F side := by
  cases side with
  | left => exact if_pos hnear.symm
  | right => exact if_neg (Ne.symm hfar)

theorem pick_side_symm {n : RbNode} (hnear : n.child side = p) (hfar : n.child side.flip ≠ p)
    (F : Side → β) : (if n.left = p then F .left else F .right) = F side := by
  rw [← pick_side hnear hfar F]
  simp only [eq_comm]

theorem insertColorStep_spec (h : InsertCursor elems k x) :
    (∃ k' x', Rb.insertColorStep x = .next x' ∧ k' < k ∧ InsertCursor elems k' x') ∨
      ∃ r, Rb.insertColorStep x = .stop r ∧
        ∃ s t, r = some s ∧ Represents s t ∧ t ≠ .leaf ∧ t.blacken.Valid ∧ t.toList = elems := by
  obtain ⟨node, s⟩ := x
  obtain ⟨fs, t, n, rfl, ht, hh, hrep, rfl, rfl⟩ := h
  obtain ⟨tl, a, tr, rfl⟩ := Tree.eq_build_of_red .left ht.color_eq
  obtain ⟨na, hload, hpar, -⟩ := hrep.load
  have hne : fill fs (Tree.build .left .red tl a tr) ≠ .leaf := fill_ne_leaf fs _ _ _ _
  cases hh with
  | root =>
    refine .inr ⟨some s, ?_, s, _, rfl, hrep, hne, ht.faulty.blacken_valid, rfl⟩
    simp only [Rb.insertColorStep, Rb.insertColorBody, top_build, hload, hpar,
      bind_eq_bind, bind_some]
    rfl
  | @black u cu _ fs side p _ hu hh =>
    have hpar' : Represents s (fill fs (.build side .black (.build .left .red tl a tr) p u)) := hrep
    have hblack := hpar'.nonnullAndRed
    rw [top_build, Tree.color_build] at hblack
    have hhole : Hole (⟨side, .black, p, u⟩ :: fs) .red n := .black hu hh
    have hvalid := hhole.fill_valid ht
    refine .inr ⟨some s, ?_, s, _, rfl, hrep, hne, ?_, rfl⟩
    · simp only [Rb.insertColorStep, Rb.insertColorBody, top_build, hload, hpar, parentOf,
        parentFrom,
        hblack, bind_eq_bind, bind_some]
      rfl
    · rwa [Tree.blacken_of_black hvalid.color]
  | @red u _ fs sp p hu hh =>
    obtain ⟨side, g, v, cv, fs, rfl, hv, hh⟩ := hh.parent_of_red
    have hp : Represents s (fill (⟨side, .black, g, v⟩ :: fs)
      (.build sp .red (.build .left .red tl a tr) p u)) := hrep
    have hg : Represents s (fill fs
      (.build side .black (.build sp .red (.build .left .red tl a tr) p u) g v)) := hrep
    obtain ⟨np, hloadp, hgp, -⟩ := hp.load
    obtain ⟨ng, hloadg, -, -, hnear, hfar⟩ := hg.load
    have hpred := hp.nonnullAndRed
    rw [top_build, Tree.color_build] at hpred
    have hstep : ∃ x' k', s.insertColorAt side a p g = some x' ∧
        k' < fs.length + 1 + 1 ∧ InsertCursor (fill (⟨sp, .red, p, u⟩ :: ⟨side, .black, g, v⟩ :: fs)
          (.build .left .red tl a tr)).toList k' x' := by
      cases cv with
      | red =>
        obtain ⟨x', he, hc⟩ := insertColorAt_recolor hrep ht hu hv hh
        exact ⟨x', _, he, by omega, hc⟩
      | black =>
        obtain ⟨x', he, hc⟩ := insertColorAt_rotate hrep ht hu hv hh
        exact ⟨x', _, he, by omega, hc⟩
    obtain ⟨x', k', he, hlt, hc⟩ := hstep
    have hout : ng.child side.flip ≠ p := by
      obtain ⟨-, hadp, -⟩ := hp.addresses.apart
      obtain ⟨-, -, -, -, -, -, hdis⟩ := hg.addresses.apart.2.1.build
      rw [hfar]
      exact top_ne (hdis p (by simp)) hadp.build.2.1
    rw [top_build] at hnear
    refine .inl ⟨k', x', ?_, hlt, hc⟩
    simp only [Rb.insertColorStep, Rb.insertColorBody, top_build, hload, hpar, parentOf, parentFrom,
      hpred,
      hloadp, hgp, hloadg, bind_eq_bind, bind_some]
    rw [pick_side hnear hout (fun d => (s.insertColorAt d a p g).bind fun y => pure (Turn.next y)),
      he]
    rfl

structure Fresh (s : Rb) (t : RedBlack.Tree Ptr) (node : Ptr) : Prop where
  mapped : s.nodes node ≠ none
  aligned : Aligned node
  nonnull : node ≠ 0#32
  apart : node ∉ t.toList

/-- The link of a leaf position of the tree. -/
def linkOf : List (Frame Ptr) → Rb.Link
  | [] => .root
  | f :: _ => .child f.side f.elem

theorem Represents.link (h : Represents s (fill fs .leaf)) (hx : Fresh s (fill fs .leaf) node) :
    ∃ s', s.rbLinkNode node (parentOf fs) (linkOf fs) = some s' ∧
      Represents s' (fill fs (.node .red .leaf node .leaf)) := by
  obtain ⟨haround, -, had⟩ := represents_fill.mp h
  obtain ⟨hadfs, -, -⟩ := had.apart
  have hx' : ¬ OnPath fs node := by
    have happ := hx.apart
    simp only [toList_fill, Tree.toList, append_nil, mem_append] at happ
    exact happ
  obtain ⟨n, hn⟩ := ne_none_iff_exists'.mp hx.mapped
  let s₁ := s.put node ⟨parentOf fs, 0#32, 0#32⟩
  have hload : s.load node = some n := Rb.load_eq hn hx.nonnull
  have haround₁ : Around s₁ fs 0#32 :=
    haround.congr rfl (fun p hp => Rb.put_nodes_of_ne _ _ (fun he => hx' (he ▸ hp)))
  have hholds : ∀ s' : Rb, s'.nodes node = s₁.nodes node →
      At s' (parentOf fs) (.node .red .leaf node .leaf) := by
    intro s' he
    refine ⟨⟨_, he.trans (Rb.put_nodes_self _ _ _), ?_, ?_, rfl, rfl⟩, trivial, trivial⟩
    · exact (parentOf_aligned hadfs).and_eq_self
    · exact (parentOf_aligned hadfs).and_one
  have hadd : Addresses (fill fs (.node .red .leaf node .leaf)).toList := by
    have hlist :
        (fill fs (.node .red .leaf node .leaf)).toList = before fs ++ node :: after fs := by
      simp [toList_fill, Tree.toList]
    rw [hlist]
    exact hadfs.insert hx.aligned hx.nonnull (by rwa [mem_append])
  cases fs with
  | nil =>
    refine ⟨{ s₁ with root := node }, ?_, represents_fill.mpr ⟨⟨trivial, rfl⟩, hholds _ rfl, hadd⟩⟩
    simp only [Rb.rbLinkNode, hload]
    rfl
  | cons f fs =>
    obtain ⟨nf, hloadf, -, -, hnew⟩ := haround₁.relink hadfs node
    refine ⟨_, ?_, represents_fill.mpr ⟨hnew, hholds _ (Rb.put_nodes_of_ne _ _ ?_), hadd⟩⟩
    · simp only [Rb.rbLinkNode, hload]
      exact Rb.modify_eq hloadf
    · exact fun he => hx' (onPath_cons.mpr (.inl he))

theorem Represents.insertColor (h : Represents s (fill fs (.node .red .leaf node .leaf)))
    (hv : (fill fs (.leaf : RedBlack.Tree Ptr)).Valid) :
    ∃ s' t', (∀ fuel, fs.length < fuel → s.rbInsertColor fuel node = some s') ∧
      Represents s' t' ∧ t'.Valid ∧
      t'.toList = (fill fs (.node .red .leaf node .leaf)).toList := by
  obtain ⟨c, n, hleaf, hh⟩ := hv.hole
  cases hleaf
  have hcursor : InsertCursor (fill fs (.node .red .leaf node .leaf)).toList fs.length (node, s) :=
    ⟨fs, _, 0, rfl, .red .leaf .leaf, hh, h, rfl, rfl⟩
  obtain ⟨r, hrun, s₁, t₁, rfl, h₁, hne, hvalid, hlist⟩ :=
    runFor_stops_within (InsertCursor _) insertColorStep_spec hcursor (Nat.lt_succ_self _)
  cases t₁ with
  | leaf => exact absurd rfl hne
  | node c l a r =>
    have h₁' : Represents s₁ (fill [] (.build .left c l a r)) := h₁
    obtain ⟨s₂, hs₂, h₂⟩ := h₁'.setBlack
    refine ⟨s₂, _, fun fuel hfuel => ?_, h₂, hvalid, hlist⟩
    have hroot : s₁.root = a := h₁.root
    simp [Rb.rbInsertColor, runFor_mono hrun hfuel, hroot, hs₂]

/-- For a red node at any leaf of a valid tree `rb_insert_color` ends without a fault in a valid
tree with the same nodes in the same order. -/
theorem rb_insert_color_valid {s : Rb} {t : RedBlack.Tree Ptr} {fs : List (Frame Ptr)} {node : Ptr}
    (h : Represents s t) (hv : t.Valid) (hpos : t = fill fs .leaf) (hx : Fresh s t node) :
    ∃ s₁, s.rbLinkNode node (parentOf fs) (linkOf fs) = some s₁ ∧
      Represents s₁ (fill fs (.node .red .leaf node .leaf)) ∧
      ∃ s' t', (∀ fuel, fs.length < fuel → s₁.rbInsertColor fuel node = some s') ∧
        Represents s' t' ∧ t'.Valid ∧
        t'.toList = (fill fs (.node .red .leaf node .leaf)).toList := by
  subst hpos
  obtain ⟨s₁, hs₁, h₁⟩ := h.link hx
  exact ⟨s₁, hs₁, h₁, h₁.insertColor hv⟩

/-- The nodes 4 and 12, both of this colour, are the children of 8; 16 is in no tree. -/
def threeNodes (c : Color) : Rb where
  nodes p := if p = 8#32 then some ⟨1#32, 12#32, 4#32⟩ else
    if p = 4#32 ∨ p = 12#32 then some ⟨if c = .red then 8#32 else 9#32, 0#32, 0#32⟩ else
      if p = 16#32 then some ⟨0#32, 0#32, 0#32⟩ else none
  root := 8#32

theorem threeNodes_represents (c : Color) : Represents (threeNodes c)
    (.node .black (.node c .leaf 4#32 .leaf) 8#32 (.node c .leaf 12#32 .leaf)) where
  root := rfl
  links := by
    cases c <;> exact ⟨⟨_, rfl, rfl, rfl, rfl, rfl⟩,
      ⟨⟨_, rfl, rfl, rfl, rfl, rfl⟩, trivial, trivial⟩,
      ⟨_, rfl, rfl, rfl, rfl, rfl⟩, trivial, trivial⟩
  addresses := ⟨by simp [Tree.toList], by simp [Tree.toList, Aligned], by simp [Tree.toList]⟩

/-- The parent and the uncle of the new node are red, and the loop turns. -/
theorem rb_insert_color_valid_fourth :
    ∃ s₁, (threeNodes .red).rbLinkNode 16#32 12#32 (.child .right 12#32) = some s₁ ∧
      ∃ s' t', (∀ fuel, 2 < fuel → s₁.rbInsertColor fuel 16#32 = some s') ∧
        Represents s' t' ∧ t'.Valid ∧ t'.toList = [4#32, 8#32, 12#32, 16#32] := by
  obtain ⟨s₁, hs₁, -, hrun⟩ := rb_insert_color_valid (threeNodes_represents .red)
    ⟨1, .black (.red .leaf .leaf) (.red .leaf .leaf)⟩
    (show _ = fill [⟨.right, .red, 12#32, .leaf⟩,
      ⟨.right, .black, 8#32, .node .red .leaf 4#32 .leaf⟩] .leaf from rfl)
    (show Fresh _ _ 16#32 from ⟨by decide, rfl, by decide, by simp [Tree.toList]⟩)
  exact ⟨s₁, hs₁, hrun⟩

theorem Represents.nullOrBlack (h : Represents s (fill fs t)) :
    s.nullOrBlack (top t) = some (decide (t.color = .black)) := by
  cases t with
  | leaf => rfl
  | node c l a r =>
    have h' : Represents s (fill fs (.build .left c l a r)) := h
    obtain ⟨n, hload, -, hc, -⟩ := h'.load
    have ha0 : a ≠ 0#32 := h.addresses.apart.2.1.nonnull a (by simp [Tree.toList])
    rw [top, Rb.nullOrBlack, if_neg ha0, hload]
    simp only [bind_eq_bind, bind_some, RbNode.rbIsBlack_eq hc]
    rfl

theorem top_fill_onPath (f : Frame Ptr) (fs : List (Frame Ptr)) (t : RedBlack.Tree Ptr) :
    OnPath (f :: fs) (top (fill (f :: fs) t)) := by
  induction fs generalizing f t with
  | nil =>
    rw [fill, fill, Frame.fill, top_build, onPath_cons]
    exact .inl rfl
  | cons g fs ih =>
    rw [onPath_cons]
    exact .inr (.inr (ih g (f.fill t)))

theorem Represents.root_ne (h : Represents s (fill (f :: fs) t)) : top t ≠ s.root := by
  obtain ⟨hfs, ht, hout⟩ := h.addresses.apart
  have hon := top_fill_onPath f fs t
  rw [← h.root] at hon
  refine top_ne (hout _ hon) (hfs.nonnull _ ?_)
  exact List.mem_append.mpr hon

/-- The cursor of `__rb_erase_color`: the subtree at it is one black node short. -/
def EraseCursor (elems : List Ptr) (k : Nat) (x : Ptr × Ptr × Rb) : Prop :=
  ∃ fs t n, top t = x.1 ∧ parentOf fs = x.2.1 ∧ t.Faulty n ∧ Hole fs .black (n + 1) ∧
    Represents x.2.2 (fill fs t) ∧ (fill fs t).toList = elems ∧
    2 * fs.length + (if t.color = .black then 1 else 0) = k

def Repaired (elems : List Ptr) (r : Option (Ptr × Rb)) : Prop :=
  ∃ s fs t, r = some (top t, s) ∧ Represents s (fill fs t) ∧ (fill fs t.blacken).Valid ∧
    (fill fs t).toList = elems

theorem Represents.sibling (h : Represents s (fill (⟨side, c, p, u⟩ :: fs) t)) :
    Represents s (fill (⟨side.flip, c, p, t⟩ :: fs) u) := by
  rwa [fill_sibling] at h

theorem Represents.eraseRaise
    (h : Represents s (fill (⟨side, cp, p, .build side cw w o (.build side cz y z y')⟩ :: fs) t)) :
    ∃ np s₁ s₂ no s₃ s₄, s.load p = some np ∧ s.rbSetColor o np.rbColor = some s₁ ∧
      s₁.rbSetBlack p = some s₂ ∧ s₂.load o = some no ∧
      s₂.rbSetBlack (no.child side.flip) = some s₃ ∧ s₃.rbRotate side p = some s₄ ∧
      Represents s₄ (fill fs (.build side cp (.build side .black t p w) o
        (.build side .black y z y'))) := by
  have hp : Represents s (fill fs (.build side cp t p
    (.build side cw w o (.build side cz y z y')))) := h
  obtain ⟨np, hnp, -, hcp, -⟩ := hp.load
  obtain ⟨s₁, hs₁, h₁⟩ := h.sibling.setColor cp
  rw [← fill_sibling] at h₁
  have h₁' : Represents s₁ (fill fs (.build side cp t p
    (.build side cp w o (.build side cz y z y')))) := h₁
  obtain ⟨s₂, hs₂, h₂⟩ := h₁'.setBlack
  have h₂' : Represents s₂ (fill (⟨side, .black, p,
    .build side cp w o (.build side cz y z y')⟩ :: fs) t) := h₂
  obtain ⟨no, hno, -, -, -, hfar⟩ := h₂'.sibling.load
  have hz : Represents s₂ (fill (⟨side, cp, o, .build side cz y z y'⟩ ::
    ⟨side.flip, .black, p, t⟩ :: fs) w) := h₂'.sibling
  obtain ⟨s₃, hs₃, h₃⟩ := hz.sibling.setBlack
  have h₃' : Represents s₃ (fill fs (.build side .black t p
      (.build side cp w o (.build side .black y z y')))) := by
    rw [← fill_sibling] at h₃
    have h₃'' : Represents s₃ (fill (⟨side.flip, .black, p, t⟩ :: fs)
      (.build side cp w o (.build side .black y z y'))) := h₃
    rwa [← fill_sibling] at h₃''
  obtain ⟨s₄, hs₄, h₄⟩ := h₃'.rotate
  rw [top_build] at hfar
  refine ⟨np, s₁, s₂, no, s₃, s₄, hnp, ?_, hs₂, hno, ?_, hs₄, h₄⟩
  · rw [hcp, hs₁]
  · rw [hfar, hs₃]

theorem Represents.raiseRedSibling (h : Represents s (fill (⟨side, cp, p, u⟩ :: fs) t))
    (hh : Hole (⟨side, cp, p, u⟩ :: fs) .black (n + 1)) :
    ∃ np s' cp' w o z fs', s.load p = some np ∧
      s.raiseRedSibling side p (np.child side.flip) = some (s', o) ∧
      Represents s' (fill (⟨side, cp', p, .build side .black w o z⟩ :: fs') t) ∧
      Hole (⟨side, cp', p, .build side .black w o z⟩ :: fs') .black (n + 1) ∧
      (fill (⟨side, cp', p, .build side .black w o z⟩ :: fs') t).toList =
        (fill (⟨side, cp, p, u⟩ :: fs) t).toList ∧
      (fs'.length = fs.length ∨ cp' = .red ∧ fs'.length = fs.length + 1) := by
  have hp : Represents s (fill fs (.build side cp t p u)) := h
  obtain ⟨np, hnp, -, -, -, hfar⟩ := hp.load
  have hkeep : ∀ w o z, u = .build side .black w o z →
      s.raiseRedSibling side p (np.child side.flip) = some (s, o) := by
    rintro w o z rfl
    obtain ⟨no, hno, -, hco, -⟩ := h.sibling.load
    simp [Rb.raiseRedSibling, hfar, hno, RbNode.rbIsRed_eq hco]
  cases hh with
  | red hu hh =>
    obtain ⟨w, o, z, rfl⟩ := hu.eq_build side
    exact ⟨np, s, .red, w, o, z, fs, hnp, hkeep w o z rfl, h, .red hu hh, rfl, .inl rfl⟩
  | @black _ cu _ _ _ _ _ hu hh =>
    cases cu with
    | black =>
      obtain ⟨w, o, z, rfl⟩ := hu.eq_build side
      exact ⟨np, s, .black, w, o, z, fs, hnp, hkeep w o z rfl, h, .black hu hh, rfl, .inl rfl⟩
    | red =>
      obtain ⟨v, a, z', rfl⟩ := hu.eq_build side
      obtain ⟨-, hv, hz⟩ := hu.of_red side
      -- the near child of the red sibling is black, and not missing
      obtain ⟨w, o, z, rfl⟩ := hv.eq_build side
      obtain ⟨na, hna, -, hca, -⟩ := h.sibling.load
      obtain ⟨s₁, hs₁, h₁⟩ := h.sibling.setBlack
      rw [← fill_sibling] at h₁
      have h₁' : Represents s₁ (fill fs (.build side .black t p
        (.build side .black (.build side .black w o z) a z'))) := h₁
      obtain ⟨s₂, hs₂, h₂⟩ := h₁'.setRed
      obtain ⟨s₃, hs₃, h₃⟩ := h₂.rotate
      have h₃' : Represents s₃ (fill (⟨side, .black, a, z'⟩ :: fs)
        (.build side .red t p (.build side .black w o z))) := h₃
      obtain ⟨np', hnp', -, -, -, hfar'⟩ := h₃'.load
      refine ⟨np, s₃, .red, w, o, z, ⟨side, .black, a, z'⟩ :: fs, hnp, ?_, h₃',
        .red hv (.black hz hh), ?_, .inr ⟨rfl, rfl⟩⟩
      · rw [top_build] at hfar'
        simp [Rb.raiseRedSibling, hfar, hna, RbNode.rbIsRed_eq hca, hs₁, hs₂, hs₃, hnp', hfar']
      · exact toList_fill_congr fs (Tree.toList_rotate ..)

theorem Represents.raiseRedNephew
    (h : Represents s (fill (⟨side, cp, p, .build side .black w o z⟩ :: fs) t))
    (hw : w.Balanced cw n) (hz : z.Balanced cz n) (hred : cw = .red ∨ cz = .red) :
    ∃ s' w' o' y b y' cw', s.raiseRedNephew side p o = some (s', o') ∧
      Represents s' (fill (⟨side, cp, p, .build side .black w' o' (.build side .red y b y')⟩ :: fs)
        t) ∧
      w'.Balanced cw' n ∧ y.Balanced .black n ∧ y'.Balanced .black n ∧
      (Tree.build side .black w' o' (.build side .red y b y')).toList =
        (Tree.build side .black w o z).toList := by
  obtain ⟨no, hno, -, -, hnear, hfar⟩ := h.sibling.load
  have hz' : Represents s (fill (⟨side.flip, .black, o, w⟩ :: ⟨side.flip, cp, p, t⟩ :: fs) z) :=
    Represents.sibling h.sibling
  have hblack := hz'.nullOrBlack
  rw [← hfar, hz.color_eq] at hblack
  cases cz with
  | red =>
    obtain ⟨y, b, y', rfl⟩ := Tree.eq_build_of_red side hz.color_eq
    obtain ⟨-, hy, hy'⟩ := hz.of_red side
    refine ⟨s, w, o, y, b, y', cw, ?_, h, hw, hy, hy', rfl⟩
    simp [Rb.raiseRedNephew, hno, hblack]
  | black =>
    have hcw : cw = .red := by simpa using hred
    subst hcw
    obtain ⟨y, b, y', rfl⟩ := Tree.eq_build_of_red side hw.color_eq
    obtain ⟨-, hy, hy'⟩ := hw.of_red side
    have hb : Represents s (fill (⟨side, .black, o, z⟩ :: ⟨side.flip, cp, p, t⟩ :: fs)
      (.build side .red y b y')) := h.sibling
    obtain ⟨s₁, hs₁, h₁⟩ := hb.setBlack
    have h₁' : Represents s₁ (fill (⟨side.flip, cp, p, t⟩ :: fs)
      (.build side .black (.build side .black y b y') o z)) := h₁
    obtain ⟨s₂, hs₂, h₂⟩ := h₁'.setRed
    have h₂' : Represents s₂ (fill (⟨side.flip, cp, p, t⟩ :: fs)
        (.build side.flip .red z o (.build side.flip .black y' b y))) := by
      rwa [Tree.build_flip, Tree.build_flip]
    obtain ⟨s₃, hs₃, h₃⟩ := h₂'.rotate
    rw [Tree.build_flip, Tree.build_flip, ← fill_sibling] at h₃
    have h₃' : Represents s₃ (fill fs (.build side cp t p
      (.build side .black y b (.build side .red y' o z)))) := h₃
    obtain ⟨np, hnp, -, -, -, hfar'⟩ := h₃'.load
    refine ⟨s₃, y, b, y', o, z, .black, ?_, h₃, hy, hy', hz, ?_⟩
    · rw [top_build] at hfar'
      simp [Rb.raiseRedNephew, hno, hblack, hnear, hs₁, hs₂, hs₃, hnp, hfar']
    · exact (Tree.toList_rotate ..).symm

theorem both_sides {n : RbNode} {f : Ptr → Option Bool}
    (hnear : f (n.child side) = some x) (hfar : f (n.child side.flip) = some y) :
    ∃ a b, f n.left = some a ∧ f n.right = some b ∧ (a && b) = (x && y) := by
  cases side with
  | left => exact ⟨x, y, hnear, hfar, rfl⟩
  | right => exact ⟨y, x, hfar, hnear, Bool.and_comm _ _⟩

theorem eraseColorAt_spec
    (h : Represents s (fill (⟨side, cp, p, u⟩ :: fs) t)) (ht : t.Balanced .black n)
    (hh : Hole (⟨side, cp, p, u⟩ :: fs) .black (n + 1))
    (helems : (fill (⟨side, cp, p, u⟩ :: fs) t).toList = elems) :
    (∃ s', s.eraseColorAt side p = some (true, s'.root, p, s') ∧
      Repaired elems (some (s'.root, s'))) ∨
    ∃ parent s' k, s.eraseColorAt side p = some (false, p, parent, s') ∧
      k < 2 * (fs.length + 1) + 1 ∧ EraseCursor elems k (p, parent, s') := by
  obtain ⟨np, s₁, cp, w, o, z, fs₁, hnp, hs₁, h₁, hh₁, hlist, hlen⟩ := h.raiseRedSibling hh
  rw [helems] at hlist
  obtain ⟨no, hno, -, -, hnear, hfar⟩ := h₁.sibling.load
  have hatw : Represents s₁ (fill (⟨side, .black, o, z⟩ :: ⟨side.flip, cp, p, t⟩ :: fs₁) w) :=
    h₁.sibling
  have hw := hatw.nullOrBlack
  have hz := hatw.sibling.nullOrBlack
  obtain ⟨cu, hu, hred, hblack⟩ := hh₁.frame
  obtain ⟨-, m, cw, cz, hm, hbw, hbz⟩ := hu.of_black side
  cases hm
  rw [← hnear, hbw.color_eq] at hw
  rw [← hfar, hbz.color_eq] at hz
  obtain ⟨x, y, hx, hy, hxy⟩ := both_sides hw hz
  by_cases hboth : cw = .black ∧ cz = .black
  · -- both nephews are black: the sibling turns red and the cursor goes up
    obtain ⟨rfl, rfl⟩ := hboth
    obtain ⟨s₂, hs₂, h₂⟩ := h₁.sibling.setRed
    rw [← fill_sibling] at h₂
    have h₂' : Represents s₂ (fill fs₁ (.build side cp t p (.build side .red w o z))) := h₂
    obtain ⟨np', hnp', hpar, -⟩ := h₂'.load
    have hlist' : (fill fs₁ (.build side cp t p (.build side .red w o z))).toList = elems := by
      rw [← hlist, fill]
      apply toList_fill_congr
      cases side <;> rfl
    refine .inr ⟨parentOf fs₁, s₂, _, ?_, ?_, fs₁, _, ?_, top_build _ _ _ _ _, rfl, ?_, ?_,
      h₂', hlist', rfl⟩
    · simp only [Rb.eraseColorAt, hnp, hs₁, hno, hx, hy, hxy, bind_eq_bind, bind_some]
      simp [hs₂, hnp', hpar]
    · rw [Tree.color_build]
      cases cp with
      | red => simp; omega
      | black => simp at hlen ⊢; omega
    · exact if cp = .red then n else n + 1
    · cases cp with
      | red => exact .build_red side ht (.build_red side hbw hbz)
      | black => exact .black (.build_black side ht (.build_red side hbw hbz))
    · cases cp with
      | red => exact (hred rfl).2.of_red
      | black => exact hblack rfl
  · -- a red nephew ends the repair
    have hnephew : cw = .red ∨ cz = .red := by
      cases cw <;> cases cz <;> simp_all
    obtain ⟨s₂, w', o', y, b, y', cw', hs₂, h₂, hbw', hby, hby', hlist₂⟩ :=
      h₁.raiseRedNephew hbw hbz hnephew
    obtain ⟨np', s₃, s₄, no', s₅, s₆, hnp', hs₃, hs₄, hno', hs₅, hs₆, h₆⟩ := h₂.eraseRaise
    have hvalid : (fill fs₁ (.build side cp (.build side .black t p w') o'
        (.build side .black y b y'))).Valid := by
      cases cp with
      | red =>
        exact (hred rfl).2.fill_valid
          (.build_red side (.build_black side ht hbw') (.build_black side hby hby'))
      | black =>
        exact (hblack rfl).fill_valid
          (.build_black side (.build_black side ht hbw') (.build_black side hby hby'))
    refine .inl ⟨s₆, ?_, s₆, [], _, ?_, h₆, ?_, ?_⟩
    · have hfalse : (decide (cw = .black) && decide (cz = .black)) = false := by
        simpa using hboth
      simp only [Rb.eraseColorAt, hnp, hs₁, hno, hx, hy, hxy, hfalse, bind_eq_bind, bind_some]
      simp [hs₂, hnp', hs₃, hs₄, hno', hs₅, hs₆]
    · rw [h₆.root]
    · rwa [Tree.blacken_of_black hvalid.color]
    · rw [← hlist, fill, fill, Frame.fill]
      apply toList_fill_congr
      rw [Tree.toList_rotate side .black cp cp .black]
      have hmid : (Tree.build side .black w' o' (.build side .black y b y')).toList =
          (Tree.build side .black w o z).toList := by
        rw [← hlist₂]
        cases side <;> rfl
      cases side <;> simp only [Tree.build, Tree.toList] at hmid ⊢ <;> rw [hmid]

theorem eraseColorStep_spec (h : EraseCursor elems k x) :
    (∃ k' x', Rb.eraseColorStep x = .next x' ∧ k' < k ∧ EraseCursor elems k' x') ∨
      ∃ r, Rb.eraseColorStep x = .stop r ∧ Repaired elems r := by
  obtain ⟨node, parent, s⟩ := x
  obtain ⟨fs, t, n, rfl, rfl, ht, hh, hrep, rfl, rfl⟩ := h
  have hnull := hrep.nullOrBlack
  cases hc : t.color with
  | red =>
    refine .inr ⟨some (top t, s), ?_, s, fs, t, rfl, hrep, ?_, rfl⟩
    · rw [hc] at hnull
      simp [Rb.eraseColorStep, Rb.eraseColorBody, hnull]
    · exact hh.fill_valid (ht.blacken_balanced hc)
  | black =>
    rw [hc] at hnull
    cases fs with
    | nil =>
      have hroot : s.root = top t := hrep.root
      refine .inr ⟨some (top t, s), ?_, s, [], t, rfl, hrep, ht.blacken_valid, rfl⟩
      simp [Rb.eraseColorStep, Rb.eraseColorBody, hnull, hroot]
    | cons f fs =>
      obtain ⟨side, cp, p, u⟩ := f
      have hne : top t ≠ s.root := hrep.root_ne
      have hp : Represents s (fill fs (.build side cp t p u)) := hrep
      obtain ⟨np, hnp, -, -, hnear, hfar⟩ := hp.load
      have hother : np.child side.flip ≠ top t := by
        obtain ⟨cu, hu, -⟩ := hh.frame
        obtain ⟨w, o, z, hw⟩ := hu.eq_build side
        obtain ⟨-, -, -, -, -, hadu, hdis⟩ := hp.addresses.apart.2.1.build
        have ho : top u ∈ u.toList := (top_mem_or_null u).resolve_left (by
          rintro rfl
          cases side <;> cases hw)
        rw [hfar]
        exact (top_ne (fun hm => hdis _ hm ho) (hadu.nonnull _ ho)).symm
      have hbody : s.eraseColorBody (top t) p = (s.eraseColorAt side p).bind fun x =>
          pure (if x.1 then Turn.stop (some (x.2.1, x.2.2.2)) else Turn.next x.2) := by
        simp only [Rb.eraseColorBody, hnull, hnp, bne_iff_ne.mpr hne]
        exact pick_side_symm hnear hother fun d => (s.eraseColorAt d p).bind fun x =>
          pure (if x.1 then Turn.stop (some (x.2.1, x.2.2.2)) else Turn.next x.2)
      rcases eraseColorAt_spec hrep (ht.balanced hc) hh rfl with
        ⟨s', he, hr⟩ | ⟨parent, s', k, he, hk, hcur⟩
      · refine .inr ⟨some (s'.root, s'), ?_, hr⟩
        simp [Rb.eraseColorStep, parentOf, parentFrom, hbody, he]
      · refine .inl ⟨k, (p, parent, s'), ?_, by simpa using hk, hcur⟩
        simp [Rb.eraseColorStep, parentOf, parentFrom, hbody, he]

theorem EraseCursor.repair (h : EraseCursor elems k (node, parent, s)) :
    ∃ s' t', (∀ fuel, k < fuel → s.rbEraseColor fuel node parent = some s') ∧
      Represents s' t' ∧ t'.Valid ∧ t'.toList = elems := by
  obtain ⟨r, hrun, s₁, fs, t, rfl, h₁, hvalid, hlist⟩ :=
    runFor_stops_within (EraseCursor elems) eraseColorStep_spec h (Nat.lt_succ_self k)
  cases t with
  | leaf =>
    refine ⟨s₁, fill fs .leaf, fun fuel hfuel => ?_, h₁, hvalid, hlist⟩
    simp [Rb.rbEraseColor, runFor_mono hrun hfuel, top]
  | node c l a r =>
    have h₁' : Represents s₁ (fill fs (.build .left c l a r)) := h₁
    obtain ⟨s₂, hs₂, h₂⟩ := h₁'.setBlack
    have ha0 : a ≠ 0#32 := h₁.addresses.apart.2.1.nonnull a (by simp [Tree.toList])
    refine ⟨s₂, _, fun fuel hfuel => ?_, h₂, hvalid, ?_⟩
    · simp [Rb.rbEraseColor, runFor_mono hrun hfuel, top, ha0, hs₂]
    · rw [← hlist]
      exact toList_fill_congr fs rfl

theorem Represents.eraseUnlink (h : Represents s (fill fs (.build side c t a .leaf))) :
    ∃ s', s.eraseUnlink a (top t) = some (top t, parentOf fs, colorBit c, s') ∧
      Represents s' (fill fs t) := by
  obtain ⟨n, hn, hpar, hc, -⟩ := h.load
  obtain ⟨haround, hat, had⟩ := represents_fill.mp h
  obtain ⟨-, hatt, -⟩ := at_build.mp hat
  obtain ⟨hadfs, hadt, hout⟩ := had.apart
  obtain ⟨-, ha0, hal, -, hadl, -⟩ := hadt.build
  simp only [Tree.mem_toList_build, not_or] at hout
  rw [top_build] at haround
  obtain ⟨s₁, hs₁, hatt₁, hroot₁, hsame₁⟩ := hatt.adopt hadl (parentOf_aligned hadfs)
  have haround₁ : Around s₁ fs a := haround.congr hroot₁ (fun p hp => hsame₁ p (hout p hp).1)
  obtain ⟨s₂, hs₂, haround₂, hsame₂⟩ :=
    haround₁.changeChild hadfs (fun hp => (hout a hp).2.1 rfl) ha0 .left (top t)
  refine ⟨s₂, ?_, represents_fill.mpr ⟨haround₂, ?_, ?_⟩⟩
  · simp [Rb.eraseUnlink, hn, hpar, hc, hs₁, hs₂]
  · exact hatt₁.congr (fun p hp => hsame₂ p (fun hon => (hout p hon).1 hp))
  · refine had.sublist ?_
    rw [toList_fill, toList_fill]
    refine (Sublist.append_left ?_ _).append_right _
    cases side
    · exact sublist_append_left _ _
    · exact sublist_cons_self _ _

theorem Tree.leftmost (r : RedBlack.Tree α) (hr : r ≠ .leaf) :
    ∃ rs c y u, r = fill rs (.node c .leaf y u) ∧ ∀ f ∈ rs, f.side = Side.left := by
  induction r with
  | leaf => exact absurd rfl hr
  | node c l a r ihl _ =>
    by_cases hl : l = .leaf
    · exact ⟨[], c, a, r, by rw [hl, fill], by simp⟩
    · obtain ⟨rs, d, y, u, rfl, hside⟩ := ihl hl
      refine ⟨rs ++ [⟨.left, c, a, r⟩], d, y, u, ?_, ?_⟩
      · rw [fill_append]
        rfl
      · intro f hf
        rcases mem_append.mp hf with hf | hf
        · exact hside f hf
        · rw [mem_singleton.mp hf]

theorem leftmost_walk (h : Represents s (fill gs (fill rs (.node c .leaf y u))))
    (hside : ∀ f ∈ rs, f.side = Side.left) (hfuel : rs.length < fuel) :
    s.leftmost fuel (top (fill rs (.node c .leaf y u))) = some y := by
  induction rs using reverseRecOn generalizing gs fuel with
  | nil =>
    obtain ⟨fuel, rfl⟩ : ∃ k, fuel = k + 1 := ⟨fuel - 1, by simp at hfuel; omega⟩
    have h' : Represents s (fill gs (.build .left c .leaf y u)) := h
    obtain ⟨n, hn, -, -, hl, -⟩ := h'.load
    change n.left = 0#32 at hl
    simp [Rb.leftmost, fill, top, hn, hl]
  | append_singleton rs f ih =>
    obtain ⟨side, d, a, v⟩ := f
    obtain rfl : side = .left := hside ⟨side, d, a, v⟩ (by simp)
    rw [fill_append] at h ⊢
    have h' : Represents s (fill gs (.build .left d (fill rs (.node c .leaf y u)) a v)) := h
    obtain ⟨n, hn, -, -, hl, -⟩ := h'.load
    change n.left = _ at hl
    have hbelow : Represents s (fill (⟨.left, d, a, v⟩ :: gs) (fill rs (.node c .leaf y u))) := h
    obtain ⟨fuel, rfl⟩ : ∃ k, fuel = k + 1 := ⟨fuel - 1, by simp at hfuel; omega⟩
    have hnonnull : top (fill rs (.node c .leaf y u)) ≠ 0#32 :=
      hbelow.addresses.apart.2.1.nonnull _
        ((top_mem_or_null _).resolve_left (fill_ne_leaf rs c .leaf y u))
    have hrec := ih hbelow (fun f hf => hside f (by simp [hf])) (by simp at hfuel; omega)
    simp [fill, Frame.fill, Rb.leftmost, hn, hl, hnonnull, hrec]

theorem toList_leftmost {rs : List (Frame α)} (hside : ∀ f ∈ rs, f.side = Side.left) :
    (fill rs (.node c .leaf y u)).toList = y :: (fill rs u).toList := by
  have hbefore : before rs = [] := by
    induction rs with
    | nil => rfl
    | cons f rs ih =>
      obtain ⟨side, d, a, v⟩ := f
      obtain rfl : side = .left := hside ⟨side, d, a, v⟩ (by simp)
      rw [before, ih (fun f hf => hside f (by simp [hf]))]
      rfl
  rw [toList_fill, toList_fill, hbefore]
  rfl

theorem At.dropLeftmost (h : At s base (fill (f :: rs) (.node c .leaf y u)))
    (had : Addresses (fill (f :: rs) (.node c .leaf y u)).toList) (hside : f.side = .left) :
    ∃ s₁ s₂, s.adopt (top u) f.elem = some s₁ ∧ s₁.setChild .left f.elem (top u) = some s₂ ∧
      At s₂ base (fill (f :: rs) u) ∧ s₂.root = s.root ∧
      ∀ p, p ∉ (fill (f :: rs) u).toList → s₂.nodes p = s.nodes p := by
  obtain ⟨hwithin, -, -, hatu⟩ := at_fill.mp h
  obtain ⟨hadfs, hady, hout⟩ := had.apart
  have hady' : Addresses (Tree.build .left c .leaf y u).toList := hady
  obtain ⟨-, -, -, hyu, -, hadu, -⟩ := hady'.build
  have houtu : ∀ p, OnPath (f :: rs) p → p ∉ u.toList :=
    fun p hp hpu => hout p hp (by simp [Tree.toList, hpu])
  have hf : OnPath (f :: rs) f.elem := onPath_head f rs
  obtain ⟨s₁, hs₁, hatu₁, hroot₁, hsame₁⟩ :=
    hatu.adopt hadu (hadfs.aligned _ (mem_append.mpr hf))
  have hwithin₁ : Within s₁ base (f :: rs) y := hwithin.congr (fun p hp => hsame₁ p (houtu p hp))
  obtain ⟨n, hload, -, -, hwithin₂⟩ := hwithin₁.relink hadfs (top u)
  refine ⟨s₁, _, hs₁, Rb.modify_eq hload, at_fill.mpr ⟨?_, ?_⟩, hroot₁, ?_⟩
  · rwa [hside] at hwithin₂
  · exact hatu₁.congr (fun p hp => Rb.put_nodes_of_ne _ _ (fun he => houtu _ (he ▸ hf) hp))
  · intro p hp
    rw [mem_toList_fill, not_or] at hp
    have hpf : p ≠ f.elem := fun he => hp.1 (he ▸ hf)
    exact (Rb.put_nodes_of_ne _ _ hpf).trans (hsame₁ p hp.2)

theorem At.setParent (h : At s base t) (had : Addresses t.toList) (ht : t ≠ .leaf)
    (hq : Aligned q) :
    ∃ s', s.rbSetParent (top t) q = some s' ∧ At s' q t ∧ s'.root = s.root ∧
      ∀ p, p ∉ t.toList → s'.nodes p = s.nodes p := by
  have hnonnull : top t ≠ 0#32 := had.nonnull _ ((top_mem_or_null t).resolve_left ht)
  obtain ⟨s', hs', hrest⟩ := h.adopt had hq
  rw [Rb.adopt, if_neg hnonnull] at hs'
  exact ⟨s', hs', hrest⟩

theorem At.detachSuccessor (h : At s a (fill rs (.node d .leaf y u)))
    (had : Addresses (fill rs (.node d .leaf y u)).toList)
    (hside : ∀ f ∈ rs, f.side = Side.left) (ha : a ∉ (fill rs (.node d .leaf y u)).toList)
    (ho : s.load a = some o) (hright : o.right = top (fill rs (.node d .leaf y u))) :
    ∃ s' n, s.detachSuccessor a y = some (top u, colorBit d, parentFrom y rs, s') ∧
      s'.load y = some n ∧ n.right = top (fill rs u) ∧ At s' y (fill rs u) ∧ s'.root = s.root ∧
      ∀ p, p ∉ (fill rs (.node d .leaf y u)).toList → s'.nodes p = s.nodes p := by
  obtain ⟨-, ⟨n, hn, hpar, hc, hleft, hu⟩, -, hatu⟩ := at_fill.mp h
  change n.right = top u at hu
  rw [toList_leftmost hside] at ha had
  have hy0 : y ≠ 0#32 := had.nonnull y (by simp)
  have hyr : y ∉ (fill rs u).toList := (nodup_cons.mp had.nodup).1
  have hadr : Addresses (fill rs u).toList := had.sublist (sublist_cons_self _ _)
  have hload : s.load y = some n := Rb.load_eq hn hy0
  cases rs with
  | nil =>
    refine ⟨s, n, ?_, hload, hu, hatu, rfl, fun _ _ => rfl⟩
    simp [Rb.detachSuccessor, hload, hpar, hu, hc, parentFrom]
  | cons f rs =>
    have hadr' : Addresses (fill (f :: rs) (.node d .leaf y u)).toList := by
      rwa [toList_leftmost hside]
    obtain ⟨s₁, s₂, hs₁, hs₂, hat₂, hroot₂, hsame₂⟩ :=
      h.dropLeftmost hadr' (hside f (by simp))
    have hay : a ≠ y := fun he => ha (by simp [he])
    have har : a ∉ (fill (f :: rs) u).toList := fun hm => ha (by simp [hm])
    have ha0 : a ≠ 0#32 := by
      intro he
      simp [Rb.load, he] at ho
    have hna : s.nodes a = some o := by
      rwa [Rb.load, if_neg ha0] at ho
    have ho₂ : s₂.load a = some o := Rb.load_eq ((hsame₂ a har).trans hna) ha0
    have hload₂ : s₂.load y = some n := Rb.load_eq ((hsame₂ y hyr).trans hn) hy0
    have htop : o.right = top (fill (f :: rs) u) := by
      rw [hright, top_fill, top_fill, outermost, outermost]
    let s₃ := s₂.put y (n.withChild .right o.right)
    have ho₃ : s₃.load a = some o :=
      Rb.load_eq ((Rb.put_nodes_of_ne _ _ hay).trans ((hsame₂ a har).trans hna)) ha0
    have hat₃ : At s₃ a (fill (f :: rs) u) :=
      hat₂.congr (fun p hp => Rb.put_nodes_of_ne _ _ (fun he => hyr (he ▸ hp)))
    have hf : f.elem ∈ (fill (f :: rs) u).toList := mem_toList_fill.mpr (.inl (onPath_head f rs))
    have hne : fill (f :: rs) u ≠ .leaf := by
      intro he
      rw [he] at hf
      cases hf
    obtain ⟨s₄, hs₄, hat₄, hroot₄, hsame₄⟩ := hat₃.setParent hadr hne (had.aligned y (by simp))
    have hfa : f.elem ≠ a := fun he => har (he ▸ hf)
    refine ⟨s₄, n.withChild .right o.right, ?_, ?_, ?_, hat₄, hroot₄.trans hroot₂, ?_⟩
    · have hs₃ : s₂.setChild .right y o.right = some s₃ := Rb.modify_eq hload₂
      rw [← htop] at hs₄
      simp [Rb.detachSuccessor, hload, hpar, hu, hc, hfa, hs₁, hs₂, ho₂, hs₃, ho₃, hs₄, parentFrom]
    · exact Rb.load_eq ((hsame₄ y hyr).trans (Rb.put_nodes_self _ _ _)) hy0
    · exact htop
    · intro p hp
      rw [toList_leftmost hside, mem_cons, not_or] at hp
      rw [hsame₄ p hp.2]
      exact (Rb.put_nodes_of_ne _ _ hp.1).trans (hsame₂ p hp.2)

theorem Represents.eraseSplice
    (h : Represents s (fill fs (.node c l a (fill rs (.node d .leaf y u)))))
    (hl : l ≠ .leaf) (hside : ∀ f ∈ rs, f.side = Side.left) :
    ∃ s', (∀ fuel, rs.length < fuel → s.eraseSplice fuel a =
        some (top u, parentOf (rs ++ ⟨.right, c, y, l⟩ :: fs), colorBit d, s')) ∧
      Represents s' (fill (rs ++ ⟨.right, c, y, l⟩ :: fs) u) := by
  have ha : Represents s (fill fs (.build .left c l a (fill rs (.node d .leaf y u)))) := h
  have hr : Represents s (fill (⟨.right, c, a, l⟩ :: fs) (fill rs (.node d .leaf y u))) := h
  obtain ⟨o, ho, hpar, hc, hleft, hright⟩ := ha.load
  change o.left = top l at hleft
  change o.right = _ at hright
  obtain ⟨haround, ⟨-, hatl, hatr⟩, had⟩ := represents_fill.mp h
  obtain ⟨hadfs, hadt, hout⟩ := had.apart
  have hadt' : Addresses (Tree.build .left c l a (fill rs (.node d .leaf y u))).toList :=
    hadt
  obtain ⟨haal, ha0, hal, har, hadl, hadr, hlr⟩ := hadt'.build
  have hlist := toList_leftmost (c := d) (y := y) (u := u) hside
  have hy : y ∈ (fill rs (.node d .leaf y u)).toList := by simp [hlist]
  have hyr : y ∉ (fill rs u).toList := (nodup_cons.mp (hlist ▸ hadr).nodup).1
  have hsub : ∀ p ∈ (fill rs u).toList, p ∈ (fill rs (.node d .leaf y u)).toList :=
    fun p hp => by simp [hlist, hp]
  have hyl : y ∉ l.toList := fun hm => hlr y hm hy
  have hay : a ≠ y := fun he => har (he ▸ hy)
  simp only [Tree.toList, mem_append, mem_cons, not_or] at hout
  -- the link to the whole
  change Around s fs a at haround
  obtain ⟨s₁, hs₁, haround₁, hsame₁⟩ :=
    haround.changeChild hadfs (fun hp => (hout a hp).2.1 rfl) ha0 .left y
  have hoff : ∀ p, p ∈ l.toList ∨ p = a ∨ p ∈ (fill rs (.node d .leaf y u)).toList →
      s₁.nodes p = s.nodes p := by
    intro p hp
    apply hsame₁
    intro hon
    have := hout p hon
    tauto
  have ho₁ : s₁.load a = some o := by
    rw [Rb.load] at ho ⊢
    rw [hoff a (.inr (.inl rfl)), ho]
  -- the right subtree
  have hatr₁ := hatr.congr (fun p hp => hoff p (.inr (.inr hp)))
  obtain ⟨s₂, n, hs₂, hn, hnright, hatr₂, hroot₂, hsame₂⟩ :=
    hatr₁.detachSuccessor hadr hside har ho₁ hright
  -- the place and the left subtree of the node
  let n₃ : RbNode := { n with parentColor := o.parentColor }
  let s₃ := s₂.put y n₃
  let s₄ := s₃.put y (n₃.withChild .left o.left)
  have hy0 : y ≠ 0#32 := hadr.nonnull y hy
  have hload_a : ∀ s' : Rb, s'.nodes a = s₂.nodes a → s'.load a = some o := by
    intro s' he
    rw [Rb.load] at ho₁ ⊢
    rw [he, hsame₂ a har, ho₁]
  have hs₃ : s₂.modify y (fun n => { n with parentColor := o.parentColor }) = some s₃ :=
    Rb.modify_eq hn
  have hs₄ : s₃.setChild .left y o.left = some s₄ :=
    Rb.modify_eq (Rb.load_eq (Rb.put_nodes_self _ _ _) hy0)
  have hsame₄ : ∀ p, p ≠ y → s₄.nodes p = s₂.nodes p := fun p hp =>
    (Rb.put_nodes_of_ne _ _ hp).trans (Rb.put_nodes_of_ne _ _ hp)
  have hatl₄ : At s₄ a l := by
    refine hatl.congr (fun p hp => ?_)
    rw [hsame₄ p (fun he => hyl (he ▸ hp)), hsame₂ p (hlr p hp), hoff p (.inl hp)]
  obtain ⟨s₅, hs₅, hatl₅, hroot₅, hsame₅⟩ := hatl₄.setParent hadl hl (hadr.aligned y hy)
  have hs₅' : s₄.rbSetParent o.left y = some s₅ := by rw [hleft, hs₅]
  have hfill : fill (rs ++ ⟨.right, c, y, l⟩ :: fs) u = fill fs (.node c l y (fill rs u)) := by
    rw [fill_append]
    rfl
  refine ⟨s₅, ?_, hfill ▸ represents_fill.mpr ⟨?_, ⟨⟨n₃.withChild .left o.left, ?_, ?_, ?_, ?_, ?_⟩,
    hatl₅, ?_⟩, ?_⟩⟩
  · intro fuel hfuel
    have hparent : parentFrom y rs = parentOf (rs ++ ⟨.right, c, y, l⟩ :: fs) := by
      cases rs <;> rfl
    simp [Rb.eraseSplice, ho, hright, leftmost_walk hr hside hfuel, hpar, hs₁, hs₂, hs₃, hs₄,
      hs₅', hparent, hload_a s₂ rfl, hload_a s₃ (Rb.put_nodes_of_ne _ _ hay),
      hload_a s₄ (hsame₄ a hay)]
  · refine haround₁.congr (hroot₅.trans hroot₂) (fun p hp => ?_)
    obtain ⟨hpl, -, hpr⟩ := hout p hp
    rw [hsame₅ p hpl, hsame₄ p (fun he => hpr (he ▸ hy)), hsame₂ p hpr]
  · exact (hsame₅ y hyl).trans (Rb.put_nodes_self _ _ _)
  · exact hpar
  · exact hc
  · exact hleft
  · exact hnright
  · refine hatr₂.congr (fun p hp => ?_)
    rw [hsame₅ p (fun hm => hlr p hm (hsub p hp)), hsame₄ p (fun he => hyr (he ▸ hp))]
  · refine had.sublist ?_
    rw [toList_fill, toList_fill]
    refine (Sublist.append_left ?_ _).append_right _
    rw [Tree.toList, Tree.toList, hlist]
    exact (sublist_cons_self _ _).append_left _

theorem Hole.rename (h : Hole (rs ++ ⟨side, c, a, l⟩ :: fs) d n) :
    Hole (rs ++ ⟨side, c, b, l⟩ :: fs) d n := by
  induction rs generalizing d n with
  | nil =>
    cases h with
    | red ht hh => exact .red ht hh
    | black ht hh => exact .black ht hh
  | cons f rs ih =>
    cases h with
    | red ht hh => exact .red ht (ih hh)
    | black ht hh => exact .black ht (ih hh)

theorem Represents.eraseFinish (h : Represents s (fill fs t))
    (hb : (Tree.build side c t a .leaf).Balanced c n) (hh : Hole fs c n) :
    ∃ s' t', (∀ fuel, 2 * fs.length + 1 < fuel → (if colorBit c = colorBit .black then
        s.rbEraseColor fuel (top t) (parentOf fs) else pure s) = some s') ∧
      Represents s' t' ∧ t'.Valid ∧ t'.toList = (fill fs t).toList := by
  cases c with
  | red =>
    obtain ⟨-, ht, -⟩ := hb.of_red side
    exact ⟨s, fill fs t, fun _ _ => rfl, h, hh.of_red.fill_valid ht, rfl⟩
  | black =>
    obtain ⟨-, m, ct, cl, rfl, ht, hleaf⟩ := hb.of_black side
    have hcur : EraseCursor (fill fs t).toList _ (top t, parentOf fs, s) :=
      ⟨fs, t, m, rfl, rfl, ht.faulty, hh, h, rfl, rfl⟩
    obtain ⟨s', t', hrun, hrest⟩ := hcur.repair
    refine ⟨s', t', fun fuel hfuel => (if_pos rfl).trans (hrun fuel ?_), hrest⟩
    split <;> omega

theorem Represents.erase (h : Represents s (fill fs (.node c l a r)))
    (hv : (fill fs (.node c l a r)).Valid) :
    ∃ s' t', (∀ fuel, 2 * (fill fs (.node c l a r)).toList.length + 1 < fuel →
        s.rbErase fuel a = some s') ∧ Represents s' t' ∧ t'.Valid ∧
      t'.toList = (fill fs (.node c l a r)).toList.erase a := by
  have ha : Represents s (fill fs (.build .left c l a r)) := h
  obtain ⟨o, ho, -, -, hleft, hright⟩ := ha.load
  change o.left = top l at hleft
  change o.right = top r at hright
  have hnonnull : ∀ {u}, u ≠ .leaf → (∀ p ∈ u.toList, p ∈ (fill fs (.node c l a r)).toList) →
      top u ≠ 0#32 := fun hu hsub =>
    h.addresses.nonnull _ (hsub _ ((top_mem_or_null _).resolve_left hu))
  have hinl : ∀ p ∈ l.toList, p ∈ (fill fs (.node c l a r)).toList :=
    fun p hp => mem_toList_fill.mpr (.inr (by simp [Tree.toList, hp]))
  have hinr : ∀ p ∈ r.toList, p ∈ (fill fs (.node c l a r)).toList :=
    fun p hp => mem_toList_fill.mpr (.inr (by simp [Tree.toList, hp]))
  have herase : (fill fs (.node c l a r)).toList.erase a =
      before fs ++ (l.toList ++ r.toList) ++ after fs := by
    have hnd := h.addresses.nodup
    rw [toList_fill, Tree.toList] at hnd ⊢
    simp only [List.append_assoc, List.cons_append] at hnd ⊢
    rw [← List.append_assoc (before fs) l.toList] at hnd ⊢
    rw [nodup_middle, nodup_cons, mem_append, not_or] at hnd
    rw [erase_append_right _ hnd.1.1, erase_cons_head, List.append_assoc]
  have hlen := length_le_toList_fill fs (.node c l a r)
  obtain ⟨d, n, hb, hh⟩ := hv.hole
  obtain rfl : c = d := hb.color_eq
  by_cases hl : l = .leaf
  · subst hl
    have h' : Represents s (fill fs (.build .right c r a .leaf)) := h
    obtain ⟨s₁, hs₁, h₁⟩ := h'.eraseUnlink
    have hb' : (Tree.build .right c r a .leaf).Balanced c n := hb
    obtain ⟨s', t', hrun, hrep, hvalid, hlist⟩ := h₁.eraseFinish hb' hh
    refine ⟨s', t', fun fuel hfuel => ?_, hrep, hvalid, ?_⟩
    · rw [top] at hleft
      simpa [Rb.rbErase, ho, hleft, hright, hs₁] using hrun fuel (by omega)
    · rw [hlist, herase, toList_fill]
      rfl
  by_cases hr : r = .leaf
  · subst hr
    obtain ⟨s₁, hs₁, h₁⟩ := ha.eraseUnlink
    have hb' : (Tree.build .left c l a .leaf).Balanced c n := hb
    obtain ⟨s', t', hrun, hrep, hvalid, hlist⟩ := h₁.eraseFinish hb' hh
    refine ⟨s', t', fun fuel hfuel => ?_, hrep, hvalid, ?_⟩
    · rw [top] at hright
      simpa [Rb.rbErase, ho, hleft, hnonnull hl hinl, hright, hs₁] using hrun fuel (by omega)
    · rw [hlist, herase, toList_fill, Tree.toList, append_nil]
  · obtain ⟨rs, d, y, u, rfl, hside⟩ := Tree.leftmost r hr
    have hv' : (fill (rs ++ ⟨.right, c, a, l⟩ :: fs) (.node d .leaf y u)).Valid := by
      rwa [fill_append]
    obtain ⟨d', m, hby, hhy⟩ := hv'.hole
    obtain rfl : d = d' := hby.color_eq
    have hby' : (Tree.build .right d u y .leaf).Balanced d m := hby
    obtain ⟨s₁, hs₁, h₁⟩ := h.eraseSplice hl hside
    obtain ⟨s', t', hrun, hrep, hvalid, hlist⟩ := h₁.eraseFinish hby' (Hole.rename hhy)
    refine ⟨s', t', fun fuel hfuel => ?_, hrep, hvalid, ?_⟩
    · have hlen' := length_le_toList_fill (rs ++ ⟨.right, c, a, l⟩ :: fs) (.node d .leaf y u)
      rw [fill_append] at hlen'
      change _ ≤ (fill fs (.node c l a (fill rs (.node d .leaf y u)))).toList.length at hlen'
      have hpath : (rs ++ ⟨.right, c, y, l⟩ :: fs).length =
        (rs ++ (⟨.right, c, a, l⟩ : Frame Ptr) :: fs).length := by simp
      have hrs : rs.length ≤ (rs ++ (⟨.right, c, a, l⟩ : Frame Ptr) :: fs).length := by simp
      simpa [Rb.rbErase, ho, hleft, hnonnull hl hinl, hright, hnonnull hr hinr,
        hs₁ fuel (by omega)] using hrun fuel (by omega)
    · rw [hlist, herase, toList_leftmost hside, fill_append]
      change (fill fs (.node c l y (fill rs u))).toList = _
      rw [toList_fill]
      rfl

/-- Erasing any node ends without a fault in a valid tree with the other nodes in the same order. -/
theorem rb_erase_valid {s : Rb} {t : RedBlack.Tree Ptr} {node : Ptr} (h : Represents s t)
    (hv : t.Valid)
    (hnode : node ∈ t.toList) :
    ∃ s' t', (∀ fuel, 2 * t.toList.length + 1 < fuel → s.rbErase fuel node = some s') ∧
      Represents s' t' ∧ t'.Valid ∧ t'.toList = t.toList.erase node := by
  obtain ⟨fs, c, l, r, rfl⟩ := Tree.exists_fill hnode
  exact h.erase hv

/-- All three nodes are black, and `__rb_erase_color` runs for the place of the removed one. -/
theorem rb_erase_valid_black :
    ∃ s' t', (∀ fuel, 7 < fuel → (threeNodes .black).rbErase fuel 4#32 = some s') ∧
      Represents s' t' ∧ t'.Valid ∧ t'.toList = [8#32, 12#32] :=
  rb_erase_valid (threeNodes_represents .black)
    ⟨2, .black (.black .leaf .leaf) (.black .leaf .leaf)⟩ (by simp [Tree.toList])

end SpicaKernel.RbTree
