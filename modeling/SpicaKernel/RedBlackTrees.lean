import Mathlib.Data.List.Nodup

namespace SpicaKernel.RedBlack
open List
set_option autoImplicit true

inductive Color where
  | red
  | black
  deriving DecidableEq

inductive Side where
  | left
  | right
  deriving DecidableEq

def Side.flip : Side → Side
  | .left => .right
  | .right => .left

@[simp] theorem Side.flip_flip (side : Side) : side.flip.flip = side := by
  cases side <;> rfl

inductive Tree (α : Type) where
  | leaf : Tree α
  | node : Color → Tree α → α → Tree α → Tree α

namespace Tree

def toList : Tree α → List α
  | leaf => []
  | node _ l a r => l.toList ++ a :: r.toList

/-- A node whose child on the given side is `near`. -/
def build (side : Side) (c : Color) (near : Tree α) (a : α) (far : Tree α) : Tree α :=
  match side with
  | .left => node c near a far
  | .right => node c far a near

theorem build_flip (side : Side) (c : Color) (l : Tree α) (a : α) (r : Tree α) :
    build side.flip c l a r = build side c r a l := by
  cases side <;> rfl

@[simp] theorem mem_toList_build :
    x ∈ (build side c l a r).toList ↔ x ∈ l.toList ∨ x = a ∨ x ∈ r.toList := by
  cases side <;> simp only [build, toList, mem_append, mem_cons]
  tauto

theorem toList_rotate (side : Side) (c c' d d' : Color) (l m r : Tree α) (a b : α) :
    (build side c' (build side c l a m) b r).toList =
      (build side d l a (build side d' m b r)).toList := by
  cases side <;> simp [build, toList]

theorem toList_build_color (side : Side) (c d : Color) (l r : Tree α) (a : α) :
    (build side c l a r).toList = (build side d l a r).toList := by
  cases side <;> rfl

def color : Tree α → Color
  | leaf => .black
  | node c _ _ _ => c

@[simp] theorem color_build (side : Side) (c : Color) (l : Tree α) (a : α) (r : Tree α) :
    (build side c l a r).color = c := by
  cases side <;> rfl

theorem eq_build_of_red (side : Side) (h : t.color = .red) :
    ∃ l a r, t = build side .red l a r := by
  cases t with
  | leaf => cases h
  | node c l a r =>
    cases h
    cases side
    · exact ⟨l, a, r, rfl⟩
    · exact ⟨r, a, l, rfl⟩

/-- Children of a red node are black, as leaves are, and every path down meets `n` black nodes.-/
inductive Balanced : Tree α → Color → Nat → Prop where
  | leaf : Balanced leaf .black 0
  | red : Balanced l .black n → Balanced r .black n → Balanced (node .red l a r) .red n
  | black : Balanced l c n → Balanced r c' n → Balanced (node .black l a r) .black (n + 1)

def Valid (t : Tree α) : Prop := ∃ n, Balanced t .black n

theorem Balanced.color_eq (h : Balanced t c n) : t.color = c := by
  cases h <;> rfl

theorem Balanced.build_red (side : Side) (hl : Balanced l .black n) (hr : Balanced r .black n) :
    Balanced (build side .red l a r) .red n := by
  cases side
  · exact .red hl hr
  · exact .red hr hl

theorem Balanced.build_black (side : Side) (hl : Balanced l c n) (hr : Balanced r c' n) :
    Balanced (build side .black l a r) .black (n + 1) := by
  cases side
  · exact .black hl hr
  · exact .black hr hl

theorem Balanced.of_red (side : Side) (h : Balanced (build side .red l a r) c n) :
    c = .red ∧ Balanced l .black n ∧ Balanced r .black n := by
  cases side <;> cases h with
  | red hl hr => simp [hl, hr]

theorem Balanced.of_black (side : Side) (h : Balanced (build side .black l a r) c n) :
    c = .black ∧ ∃ m cl cr, n = m + 1 ∧ Balanced l cl m ∧ Balanced r cr m := by
  cases side <;> cases h with
  | black hl hr => exact ⟨rfl, _, _, _, rfl, by assumption, by assumption⟩

theorem Balanced.eq_build (side : Side) (h : Balanced t c (n + 1)) :
    ∃ l a r, t = build side c l a r := by
  cases h with
  | @red l _ r a _ _ =>
    cases side
    · exact ⟨l, a, r, rfl⟩
    · exact ⟨r, a, l, rfl⟩
  | @black l _ _ r _ a _ _ =>
    cases side
    · exact ⟨l, a, r, rfl⟩
    · exact ⟨r, a, l, rfl⟩

/-- A red node may have red children here: the one fault a repair leaves at its cursor. -/
inductive Faulty : Tree α → Nat → Prop where
  | black : Balanced t .black n → Faulty t n
  | red : Balanced l c n → Balanced r c' n → Faulty (node .red l a r) n

theorem Balanced.faulty (h : Balanced t c n) : Faulty t n := by
  cases h with
  | leaf => exact .black .leaf
  | red hl hr => exact .red hl hr
  | black hl hr => exact .black (.black hl hr)

theorem Faulty.build_red (side : Side) (hl : Balanced l c n) (hr : Balanced r c' n) :
    Faulty (build side .red l a r) n := by
  cases side
  · exact .red hl hr
  · exact .red hr hl

def blacken : Tree α → Tree α
  | leaf => leaf
  | node _ l a r => node .black l a r

theorem blacken_of_black {t : Tree α} (h : t.color = .black) : t.blacken = t := by
  cases t with
  | leaf => rfl
  | node c l a r =>
    cases h
    rfl

theorem Faulty.blacken_balanced (h : Faulty t n) (hc : t.color = .red) :
    Balanced t.blacken .black (n + 1) := by
  cases h with
  | black hb =>
    rw [hb.color_eq] at hc
    cases hc
  | red hl hr => exact .black hl hr

theorem Faulty.balanced (h : Faulty t n) (hc : t.color = .black) : Balanced t .black n := by
  cases h with
  | black hb => exact hb
  | red hl hr => cases hc

theorem Faulty.blacken_valid (h : Faulty t n) : t.blacken.Valid := by
  cases hc : t.color with
  | red => exact ⟨n + 1, h.blacken_balanced hc⟩
  | black =>
    rw [blacken_of_black hc]
    exact ⟨n, h.balanced hc⟩

end Tree

/-- The side on which a subtree hangs, and the rest of its parent. -/
structure Frame (α : Type) where
  side : Side
  color : Color
  elem : α
  sibling : Tree α

namespace Frame

def fill (f : Frame α) (t : Tree α) : Tree α := .build f.side f.color t f.elem f.sibling

def before (f : Frame α) : List α :=
  match f.side with
  | .left => []
  | .right => f.sibling.toList ++ [f.elem]

def after (f : Frame α) : List α :=
  match f.side with
  | .left => f.elem :: f.sibling.toList
  | .right => []

theorem toList_fill (f : Frame α) (t : Tree α) :
    (f.fill t).toList = f.before ++ t.toList ++ f.after := by
  obtain ⟨side, c, a, u⟩ := f
  cases side <;> simp [fill, before, after, Tree.build, Tree.toList]

theorem mem_before_or_after {f : Frame α} :
    x ∈ f.before ∨ x ∈ f.after ↔ x = f.elem ∨ x ∈ f.sibling.toList := by
  obtain ⟨side, c, a, u⟩ := f
  cases side <;> simp [before, after, or_comm]

end Frame

def fill : List (Frame α) → Tree α → Tree α
  | [], t => t
  | f :: fs, t => fill fs (f.fill t)

def before : List (Frame α) → List α
  | [] => []
  | f :: fs => before fs ++ f.before

def after : List (Frame α) → List α
  | [] => []
  | f :: fs => f.after ++ after fs

theorem toList_fill (fs : List (Frame α)) (t : Tree α) :
    (fill fs t).toList = before fs ++ t.toList ++ after fs := by
  induction fs generalizing t with
  | nil => simp [fill, before, after]
  | cons f fs ih => simp [fill, before, after, ih, f.toList_fill]

theorem toList_fill_congr (fs : List (Frame α)) (h : t.toList = u.toList) :
    (fill fs t).toList = (fill fs u).toList := by
  rw [toList_fill, toList_fill, h]

theorem length_le_toList_fill (fs : List (Frame α)) (t : Tree α) :
    fs.length + t.toList.length ≤ (fill fs t).toList.length := by
  induction fs generalizing t with
  | nil => simp [fill]
  | cons f fs ih =>
    have hle := ih (f.fill t)
    have hlt : t.toList.length < (f.fill t).toList.length := by
      obtain ⟨side, c, a, u⟩ := f
      cases side
      · simp [Frame.fill, Tree.build, Tree.toList]
      · simp [Frame.fill, Tree.build, Tree.toList]
        omega
    rw [fill, length_cons]
    omega

theorem fill_ne_leaf (rs : List (Frame α)) (c : Color) (l : Tree α) (y : α) (r : Tree α) :
    fill rs (.node c l y r) ≠ .leaf := by
  intro he
  have := congrArg Tree.toList he
  rw [toList_fill] at this
  simp [Tree.toList] at this

theorem fill_append (fs gs : List (Frame α)) (t : Tree α) :
    fill (fs ++ gs) t = fill gs (fill fs t) := by
  induction fs generalizing t with
  | nil => rfl
  | cons f fs ih => exact ih _

theorem Tree.exists_fill (h : a ∈ t.toList) : ∃ fs c l r, t = fill fs (.node c l a r) := by
  induction t with
  | leaf => cases h
  | node c l b r ihl ihr =>
    rw [toList, mem_append, mem_cons] at h
    rcases h with hl | rfl | hr
    · obtain ⟨fs, d, u, v, rfl⟩ := ihl hl
      refine ⟨fs ++ [⟨.left, c, b, r⟩], d, u, v, ?_⟩
      rw [fill_append]
      rfl
    · exact ⟨[], c, l, r, rfl⟩
    · obtain ⟨fs, d, u, v, rfl⟩ := ihr hr
      refine ⟨fs ++ [⟨.right, c, b, l⟩], d, u, v, ?_⟩
      rw [fill_append]
      rfl

/-- The way down to the border between the elements with `P` and those without. -/
def Tree.descend (P : α → Bool) : Tree α → List (Frame α) → List (Frame α)
  | leaf, fs => fs
  | node c l a r, fs =>
    if P a then r.descend P (⟨.right, c, a, l⟩ :: fs) else l.descend P (⟨.left, c, a, r⟩ :: fs)

theorem fill_descend (P : α → Bool) (t : Tree α) (fs : List (Frame α)) :
    fill (t.descend P fs) .leaf = fill fs t := by
  induction t generalizing fs with
  | leaf => rfl
  | node c l a r ihl ihr =>
    rw [Tree.descend]
    split
    · exact ihr _
    · exact ihl _

theorem filter_border (h : (xs ++ a :: ys).Pairwise fun x y => P y → P x) :
    (P a → (xs ++ a :: ys).filter P = xs ++ a :: ys.filter P ∧
      (xs ++ a :: ys).filter (!P ·) = ys.filter (!P ·)) ∧
    (¬ P a → (xs ++ a :: ys).filter P = xs.filter P ∧
      (xs ++ a :: ys).filter (!P ·) = xs.filter (!P ·) ++ a :: ys) := by
  obtain ⟨-, hys, hxs⟩ := pairwise_append.mp h
  constructor
  · intro ha
    have hall : ∀ x ∈ xs, P x := fun x hx => hxs x hx a (by simp) ha
    have hnone : xs.filter (!P ·) = [] := filter_eq_nil_iff.mpr (by simpa using hall)
    simp [ha, hnone, filter_eq_self.mpr hall]
  · intro ha
    have hnone : ∀ y ∈ ys, ¬ P y := fun y hy hp => ha (rel_of_pairwise_cons hys hy hp)
    have hall : ys.filter (!P ·) = ys := filter_eq_self.mpr (by simpa using hnone)
    simp [ha, hall, filter_eq_nil_iff.mpr hnone]

theorem before_after_descend {t : Tree α}
    (h : t.toList.Pairwise fun a b => P b → P a) (fs : List (Frame α)) :
    before (t.descend P fs) = before fs ++ t.toList.filter P ∧
      after (t.descend P fs) = t.toList.filter (!P ·) ++ after fs := by
  induction t generalizing fs with
  | leaf => simp [Tree.descend, Tree.toList]
  | node c l a r ihl ihr =>
    obtain ⟨hpos, hneg⟩ := filter_border h
    obtain ⟨hl, hr, -⟩ := pairwise_append.mp h
    rw [Tree.descend, Tree.toList]
    split
    next ha =>
      obtain ⟨hb, haf⟩ := ihr hr.of_cons (⟨.right, c, a, l⟩ :: fs)
      rw [hb, haf, (hpos ha).1, (hpos ha).2]
      simp [before, after, Frame.before, Frame.after]
    next ha =>
      obtain ⟨hb, haf⟩ := ihl hl (⟨.left, c, a, r⟩ :: fs)
      rw [hb, haf, (hneg ha).1, (hneg ha).2]
      simp [before, after, Frame.before, Frame.after]

/-- A path whose hole is due a tree of colour `c` and black height `n`. -/
inductive Hole : List (Frame α) → Color → Nat → Prop where
  | root : Hole [] .black n
  | red : Tree.Balanced t .black n → Hole fs .red n → Hole (⟨side, .red, a, t⟩ :: fs) .black n
  | black : Tree.Balanced t c' n → Hole fs .black (n + 1) → Hole (⟨side, .black, a, t⟩ :: fs) c n

theorem Hole.fill_valid (h : Hole fs c n) (ht : t.Balanced c n) : (fill fs t).Valid := by
  induction h generalizing t with
  | root => exact ⟨_, ht⟩
  | red hu _ ih => exact ih (.build_red _ ht hu)
  | black hu _ ih => exact ih (.build_black _ ht hu)

theorem Tree.Valid.hole (h : (fill fs t).Valid) : ∃ c n, t.Balanced c n ∧ Hole fs c n := by
  induction fs generalizing t with
  | nil =>
    obtain ⟨n, hn⟩ := h
    exact ⟨.black, n, hn, .root⟩
  | cons f fs ih =>
    obtain ⟨c, n, hb, hh⟩ := ih h
    obtain ⟨side, d, a, u⟩ := f
    cases d with
    | red =>
      obtain ⟨rfl, ht, hu⟩ := Tree.Balanced.of_red side hb
      exact ⟨.black, n, ht, .red hu hh⟩
    | black =>
      obtain ⟨rfl, m, ct, cu, rfl, ht, hu⟩ := Tree.Balanced.of_black side hb
      exact ⟨ct, m, ht, .black hu hh⟩

theorem Hole.frame (h : Hole (f :: fs) c n) :
    ∃ cu, f.sibling.Balanced cu n ∧ (f.color = .red → cu = .black ∧ Hole fs .red n) ∧
      (f.color = .black → Hole fs .black (n + 1)) := by
  cases h with
  | red hu hh => exact ⟨_, hu, fun _ => ⟨rfl, hh⟩, nofun⟩
  | black hu hh => exact ⟨_, hu, nofun, fun _ => hh⟩

theorem Hole.of_red (h : Hole fs .red n) : Hole fs .black n := by
  cases h with
  | black hu hh => exact .black hu hh

theorem Hole.parent_of_red (h : Hole fs .red n) :
    ∃ side a t c fs', fs = ⟨side, .black, a, t⟩ :: fs' ∧ Tree.Balanced t c n ∧
      Hole fs' .black (n + 1) := by
  cases h with
  | black hu hh => exact ⟨_, _, _, _, _, rfl, hu, hh⟩

theorem Tree.Valid.color {t : Tree α} (h : t.Valid) : t.color = .black := by
  obtain ⟨n, hb⟩ := h
  exact hb.color_eq

end SpicaKernel.RedBlack
