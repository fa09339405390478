import Mathlib.Data.List.Nodup
import Mathlib.Data.List.Pairwise

namespace SpicaKernel
open List
set_option autoImplicit true

inductive SearchTree (α : Type) where
  | leaf : SearchTree α
  | node : SearchTree α → α → SearchTree α → SearchTree α

namespace SearchTree

def toList : SearchTree α → List α
  | leaf => []
  | node l v r => l.toList ++ v :: r.toList

/-- A rearrangement of a tree that keeps its in-order sequence. -/
structure Rebalance (α : Type) where
  apply : SearchTree α → SearchTree α
  toList_apply : ∀ t, (apply t).toList = t.toList

attribute [simp] Rebalance.toList_apply

/-- Links a new element at the leaf of a descent, which turns by `goesLeft` and stops at `none`. -/
def insert (goesLeft : α → Option Bool) (x : α) : SearchTree α → Option (SearchTree α)
  | leaf => some (node leaf x leaf)
  | node l v r => match goesLeft v with
    | none => none
    | some true => (l.insert goesLeft x).map (fun l' => node l' v r)
    | some false => (r.insert goesLeft x).map (fun r' => node l v r')

def join : SearchTree α → SearchTree α → SearchTree α
  | leaf, t => t
  | node l v r, t => node l v (r.join t)

def erase [DecidableEq α] (x : α) : SearchTree α → SearchTree α
  | leaf => leaf
  | node l v r =>
    if x ∈ l.toList then node (l.erase x) v r
    else if x = v then l.join r
    else node l v (r.erase x)

/-- A best-fit search: `cmp v` compares the request with `v`, `best` is the last node at which the
walk turned left, and the flag tells whether it met an equal node. -/
def bestFit (cmp : α → Option Ordering) (best : Option α) : SearchTree α → Option (Option α × Bool)
  | leaf => some (best, false)
  | node l v r => match cmp v with
    | none => none
    | some .lt => l.bestFit cmp (some v)
    | some .gt => r.bestFit cmp best
    | some .eq => some (some v, true)

def lookup (cmp : α → Option Ordering) : SearchTree α → Option (Option α)
  | leaf => some none
  | node l v r => match cmp v with
    | none => none
    | some .lt => l.lookup cmp
    | some .gt => r.lookup cmp
    | some .eq => some (some v)

theorem toList_insert (goesLeft : α → Option Bool) (p : α → Prop) (x : α) {t : SearchTree α}
    (hturn : ∀ v ∈ t.toList, (goesLeft v = some true ∧ p v) ∨ (goesLeft v = some false ∧ ¬ p v))
    (hmono : t.toList.Pairwise (fun a b => p a → p b)) :
    ∃ t' before after, t.insert goesLeft x = some t' ∧ t.toList = before ++ after ∧
      t'.toList = before ++ x :: after ∧ (∀ v ∈ before, ¬ p v) ∧ ∀ v ∈ after, p v := by
  induction t with
  | leaf => exact ⟨_, [], [], rfl, rfl, rfl, by simp, by simp⟩
  | node l v r ihl ihr =>
    simp only [toList, pairwise_append, pairwise_cons] at hmono
    obtain ⟨hl, ⟨hvr, hr⟩, hlr⟩ := hmono
    rcases hturn v (by simp [toList]) with ⟨hv, hp⟩ | ⟨hv, hp⟩
    · obtain ⟨t', before, after, he, hs, hs', hb, ha⟩ :=
        ihl (fun w hw => hturn w (by simp [toList, hw])) hl
      refine ⟨node t' v r, before, after ++ v :: r.toList, ?_, ?_, ?_, hb, ?_⟩
      · simp [insert, hv, he]
      · simp [toList, hs]
      · simp [toList, hs']
      · intro w hw
        rcases mem_append.mp hw with hw | hw
        · exact ha w hw
        · rcases mem_cons.mp hw with rfl | hw
          · exact hp
          · exact hvr w hw hp
    · obtain ⟨t', before, after, he, hs, hs', hb, ha⟩ :=
        ihr (fun w hw => hturn w (by simp [toList, hw])) hr
      refine ⟨node l v t', l.toList ++ v :: before, after, ?_, ?_, ?_, ?_, ha⟩
      · simp [insert, hv, he]
      · simp [toList, hs]
      · simp [toList, hs']
      · intro w hw
        rcases mem_append.mp hw with hw | hw
        · exact fun hpw => hp (hlr w hw v (by simp) hpw)
        · rcases mem_cons.mp hw with rfl | hw
          · exact hp
          · exact hb w hw

theorem toList_join (l r : SearchTree α) : (l.join r).toList = l.toList ++ r.toList := by
  induction l with
  | leaf => rfl
  | node l v r' _ ihr => simp [join, toList, ihr]

@[simp] theorem toList_erase [DecidableEq α] (x : α) (t : SearchTree α) :
    (t.erase x).toList = t.toList.erase x := by
  induction t with
  | leaf => rfl
  | node l v r ihl ihr =>
    simp only [erase, toList]
    split
    · rename_i hl
      rw [erase_append_left _ hl, toList, ihl]
    · rename_i hl
      rw [erase_append_right _ hl]
      split
      · rename_i hv
        rw [hv, erase_cons_head, toList_join]
      · rename_i hv
        rw [erase_cons_tail (by simpa using fun h => hv h.symm), toList, ihr]

theorem bestFit_spec (cmp : α → Option Ordering) {t : SearchTree α} (best : Option α)
    (hcmp : ∀ v ∈ t.toList, (cmp v).isSome) :
    (∃ v ∈ t.toList, cmp v = some .lt ∧ t.bestFit cmp best = some (some v, false)) ∨
    (∃ v ∈ t.toList, cmp v = some .eq ∧ t.bestFit cmp best = some (some v, true)) ∨
      t.bestFit cmp best = some (best, false) := by
  induction t generalizing best with
  | leaf => exact .inr (.inr rfl)
  | node l v r ihl ihr =>
    have hl := fun b => ihl b (fun w hw => hcmp w (by simp [toList, hw]))
    have hr := fun b => ihr b (fun w hw => hcmp w (by simp [toList, hw]))
    have hv : (cmp v).isSome := hcmp v (by simp [toList])
    simp only [bestFit]
    cases hc : cmp v with
    | none => simp [hc] at hv
    | some o =>
      cases o with
      | lt =>
        rcases hl (some v) with ⟨w, hw, h⟩ | ⟨w, hw, h⟩ | h
        · exact .inl ⟨w, by simp [toList, hw], h⟩
        · exact .inr (.inl ⟨w, by simp [toList, hw], h⟩)
        · exact .inl ⟨v, by simp [toList], hc, h⟩
      | gt =>
        rcases hr best with ⟨w, hw, h⟩ | ⟨w, hw, h⟩ | h
        · exact .inl ⟨w, by simp [toList, hw], h⟩
        · exact .inr (.inl ⟨w, by simp [toList, hw], h⟩)
        · exact .inr (.inr h)
      | eq => exact .inr (.inl ⟨v, by simp [toList], hc, rfl⟩)

theorem lookup_spec (cmp : α → Option Ordering) {t : SearchTree α}
    (hcmp : ∀ v ∈ t.toList, (cmp v).isSome) :
    t.lookup cmp = some none ∨ ∃ v ∈ t.toList, cmp v = some .eq ∧ t.lookup cmp = some (some v) := by
  induction t with
  | leaf => exact .inl rfl
  | node l v r ihl ihr =>
    have hv : (cmp v).isSome := hcmp v (by simp [toList])
    simp only [lookup]
    cases hc : cmp v with
    | none => simp [hc] at hv
    | some o =>
      cases o with
      | lt =>
        rcases ihl (fun w hw => hcmp w (by simp [toList, hw])) with h | ⟨w, hw, h⟩
        · exact .inl h
        · exact .inr ⟨w, by simp [toList, hw], h⟩
      | gt =>
        rcases ihr (fun w hw => hcmp w (by simp [toList, hw])) with h | ⟨w, hw, h⟩
        · exact .inl h
        · exact .inr ⟨w, by simp [toList, hw], h⟩
      | eq => exact .inr ⟨v, by simp [toList], hc, rfl⟩

end SearchTree

end SpicaKernel
