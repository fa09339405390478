import Mathlib.Data.List.Basic
import Mathlib.Data.List.Pairwise

namespace SpicaKernel
set_option autoImplicit true

/-- The places from one end to the other, all of one kind. -/
structure Span (κ : Type) where
  start : Int
  stop : Int
  type : κ
  deriving DecidableEq

namespace Span

def Covers (s : Span κ) (x : Int) : Prop := s.start ≤ x ∧ x ≤ s.stop

instance (s : Span κ) (x : Int) : Decidable (s.Covers x) := inferInstanceAs (Decidable (_ ∧ _))

/-- One span ends before the other starts, with a gap if they are of the same kind. -/
def Before (s t : Span κ) : Prop := s.stop < t.start ∧ (s.type = t.type → s.stop + 1 < t.start)

theorem Before.trans {s t u : Span κ} (h : s.Before t) (ht : t.start ≤ t.stop)
    (h' : t.Before u) : s.Before u :=
  ⟨by have := h.1; have := h'.1; omega, fun _ => by have := h.1; have := h'.1; omega⟩

end Span

structure Laid (span : α → Span κ) (l : List α) : Prop where
  order : l.Pairwise fun a b => (span a).Before (span b)
  filled : ∀ a ∈ l, (span a).start ≤ (span a).stop

def HasAt (span : α → Span κ) (l : List α) (x : Int) (k : κ) : Prop :=
  ∃ a ∈ l, (span a).Covers x ∧ (span a).type = k

/-- The kind of the first span over a place. -/
def kindAt (span : α → Span κ) (l : List α) (x : Int) : Option κ :=
  (l.find? fun a => (span a).Covers x).map fun a => (span a).type

theorem hasAt_nil (span : α → Span κ) : ¬ HasAt span [] x k := by
  rintro ⟨a, ha, -⟩
  cases ha

theorem hasAt_cons (span : α → Span κ) :
    HasAt span (a :: l) x k ↔ ((span a).Covers x ∧ (span a).type = k) ∨ HasAt span l x k := by
  simp [HasAt]

theorem hasAt_append (span : α → Span κ) :
    HasAt span (l ++ l') x k ↔ HasAt span l x k ∨ HasAt span l' x k := by
  simp [HasAt, or_and_right, exists_or]

theorem Laid.unique (h : Laid span l) (ha : a ∈ l) (hb : b ∈ l)
    (hax : (span a).Covers x) (hbx : (span b).Covers x) : a = b := by
  induction l with
  | nil => cases ha
  | cons c l ih =>
    have hl : Laid span l := ⟨h.order.tail, fun d hd => h.filled d (List.mem_cons_of_mem c hd)⟩
    have hc := (List.pairwise_cons.mp h.order).1
    rcases List.mem_cons.mp ha with rfl | ha' <;> rcases List.mem_cons.mp hb with rfl | hb'
    · rfl
    · have := (hc b hb').1
      have := hax.2
      have := hbx.1
      omega
    · have := (hc a ha').1
      have := hbx.2
      have := hax.1
      omega
    · exact ih hl ha' hb'

theorem Laid.kindAt_eq_some (h : Laid span l) : kindAt span l x = some k ↔ HasAt span l x k := by
  unfold kindAt HasAt
  rw [Option.map_eq_some_iff]
  constructor
  · rintro ⟨a, ha, hk⟩
    exact ⟨a, List.mem_of_find?_eq_some ha, by simpa using List.find?_some ha, hk⟩
  · rintro ⟨a, ha, hax, hk⟩
    cases hf : l.find? (fun a => decide ((span a).Covers x)) with
    | none =>
      have := List.find?_eq_none.mp hf a ha
      simp [hax] at this
    | some b =>
      have hbx : (span b).Covers x := by simpa using List.find?_some hf
      obtain rfl := h.unique ha (List.mem_of_find?_eq_some hf) hax hbx
      exact ⟨a, rfl, hk⟩

namespace IntervalMap
open List

variable {α β : Type} (lo hi : α → Nat) (val : α → Nat → β)

structure Ordered (l : List α) : Prop where
  order : l.Pairwise fun x y => hi x ≤ lo y
  filled : ∀ x ∈ l, lo x < hi x

/-- What the first interval over a place says of it. -/
def valueAt (l : List α) (a : Nat) : Option β :=
  (l.find? fun x => decide (lo x ≤ a ∧ a < hi x)).map fun x => val x a

theorem valueAt_cons (x : α) (l : List α) (a : Nat) : valueAt lo hi val (x :: l) a =
      if lo x ≤ a ∧ a < hi x then some (val x a) else valueAt lo hi val l a := by
  unfold valueAt
  rw [find?_cons]
  split
  next h => rw [if_pos (by simpa using h), Option.map_some]
  next h => rw [if_neg (by simpa using h)]

theorem valueAt_append (l l' : List α) (a : Nat) :
    valueAt lo hi val (l ++ l') a = (valueAt lo hi val l a).or (valueAt lo hi val l' a) := by
  unfold valueAt
  rw [find?_append]
  cases l.find? _ <;> rfl

theorem valueAt_eq_none (h : ∀ x ∈ l, a < lo x ∨ hi x ≤ a) : valueAt lo hi val l a = none := by
  unfold valueAt
  rw [find?_eq_none.mpr, Option.map_none]
  intro x hx
  have := h x hx
  simp only [decide_eq_true_eq]
  omega

variable {lo hi val}

theorem ordered_append : Ordered lo hi (l ++ l') ↔
      Ordered lo hi l ∧ Ordered lo hi l' ∧ ∀ x ∈ l, ∀ y ∈ l', hi x ≤ lo y := by
  constructor
  · intro h
    obtain ⟨hl, hl', hll⟩ := pairwise_append.mp h.order
    exact ⟨⟨hl, fun x hx => h.filled x (by simp [hx])⟩, ⟨hl', fun x hx => h.filled x
      (by simp [hx])⟩,
      hll⟩
  · rintro ⟨h, h', hll⟩
    refine ⟨pairwise_append.mpr ⟨h.order, h'.order, hll⟩, fun x hx => ?_⟩
    rcases mem_append.mp hx with hx | hx
    · exact h.filled x hx
    · exact h'.filled x hx

theorem ordered_cons :
    Ordered lo hi (x :: l) ↔ lo x < hi x ∧ Ordered lo hi l ∧ ∀ y ∈ l, hi x ≤ lo y := by
  constructor
  · intro h
    obtain ⟨hx, hl⟩ := pairwise_cons.mp h.order
    exact ⟨h.filled x (by simp), ⟨hl, fun y hy => h.filled y (by simp [hy])⟩, hx⟩
  · rintro ⟨hx, h, hxl⟩
    refine ⟨pairwise_cons.mpr ⟨hxl, h.order⟩, fun y hy => ?_⟩
    rcases mem_cons.mp hy with rfl | hy
    · exact hx
    · exact h.filled y hy

theorem ordered_splice (hpre : Ordered lo hi pre) (hmid : Ordered lo hi mid)
    (hpost : Ordered lo hi post) (hbelow : ∀ x ∈ pre, hi x ≤ s)
    (hwithin : ∀ x ∈ mid, s ≤ lo x ∧ hi x ≤ t) (habove : ∀ x ∈ post, t ≤ lo x) (hst : s ≤ t) :
    Ordered lo hi (pre ++ mid ++ post) := by
  refine ordered_append.mpr ⟨ordered_append.mpr ⟨hpre, hmid, ?_⟩, hpost, ?_⟩
  · intro x hx y hy
    exact Nat.le_trans (hbelow x hx) (hwithin y hy).1
  · intro x hx y hy
    refine Nat.le_trans ?_ (habove y hy)
    rcases mem_append.mp hx with hx | hx
    · exact Nat.le_trans (hbelow x hx) hst
    · exact (hwithin x hx).2

theorem Ordered.split (h : Ordered lo hi l) (s : Nat) :
    ∃ pre post, l = pre ++ post ∧ (∀ x ∈ pre, hi x ≤ s) ∧ ∀ x ∈ post, s < hi x := by
  induction l with
  | nil => exact ⟨[], [], rfl, by simp, by simp⟩
  | cons x l ih =>
    obtain ⟨hx, hl, hxl⟩ := ordered_cons.mp h
    by_cases hs : hi x ≤ s
    · obtain ⟨pre, post, rfl, hpre, hpost⟩ := ih hl
      exact ⟨x :: pre, post, rfl, by simpa [hs] using hpre, hpost⟩
    · refine ⟨[], x :: l, rfl, by simp, ?_⟩
      intro y hy
      rcases mem_cons.mp hy with rfl | hy
      · omega
      · have := hxl y hy
        have := hl.filled y hy
        omega

end IntervalMap

end SpicaKernel
