import Mathlib.Data.Set.Card
import SpicaKernel.Runs

namespace SpicaKernel.References
open Function List Option
set_option autoImplicit true

/-- A counted reference of `owner` to `node`, which the owner calls `key`. -/
structure Entry (O N : Type) where
  owner : O
  node : N
  key : Nat
  strong : Int

/-- What a node keeps of the references to it. -/
structure Account (R : Type) where
  refs : List R
  strongRefs : Int

/-- References and nodes, with two indexes of the references of each owner. -/
structure Book (O R N : Type) where
  entries : R → Option (Entry O N)
  accounts : N → Option (Account R)
  byKey : O → List R
  byNode : O → List R

variable {O R N : Type}

def Entry.active (e : Entry O N) : Bool := decide (0 < e.strong)

def Entry.weight (e : Entry O N) : Int := if e.active then 1 else 0

def Book.active (b : Book O R N) (r : R) : Bool := (b.entries r).any Entry.active

def Book.key (b : Book O R N) (r : R) : Nat := ((b.entries r).map Entry.key).getD 0

structure Book.Accounted (b : Book O R N) : Prop where
  listed : ∀ n a, b.accounts n = some a → ∀ r, r ∈ a.refs ↔ ∃ e, b.entries r = some e ∧ e.node = n
  nodup : ∀ n a, b.accounts n = some a → a.refs.Nodup
  held : ∀ r e, b.entries r = some e → ∃ a, b.accounts e.node = some a

/-- The counts are exact, and none is above `bound`. -/
structure Book.Counted (b : Book O R N) (bound : Int) : Prop where
  nonneg : 0 ≤ bound
  counted : ∀ n a, b.accounts n = some a → a.strongRefs = a.refs.countP b.active
  most : ∀ n a, b.accounts n = some a → a.strongRefs ≤ bound
  range : ∀ r e, b.entries r = some e → 0 ≤ e.strong ∧ e.strong ≤ bound

structure Book.Indexed (b : Book O R N) (index : O → List R) : Prop where
  mem : ∀ o r, r ∈ index o ↔ ∃ e, b.entries r = some e ∧ e.owner = o
  nodup : ∀ o, (index o).Nodup

structure Book.Balanced (b : Book O R N) : Prop where
  accounted : b.Accounted
  byKey : b.Indexed b.byKey
  sorted : ∀ o, (b.byKey o).Pairwise (fun r r' => b.key r < b.key r')
  byNode : b.Indexed b.byNode

theorem countP_update_of_not_mem [DecidableEq α] {l : List α} (p : α → Bool) (v : Bool)
    (hx : x ∉ l) : l.countP (update p x v) = l.countP p := by
  apply countP_congr
  intro y hy
  have hne : y ≠ x := fun heq => hx (heq ▸ hy)
  rw [update_of_ne hne]

theorem countP_update [DecidableEq α] {l : List α} (p : α → Bool) (v : Bool)
    (hl : l.Nodup) (hx : x ∈ l) : (l.countP (update p x v) : Int)
      = l.countP p + ((if v then 1 else 0) - (if p x then 1 else 0)) := by
  induction l with
  | nil => cases hx
  | cons y ys ih =>
    obtain ⟨hy, hys⟩ := nodup_cons.mp hl
    simp only [countP_cons, Nat.cast_add]
    by_cases hxy : x = y
    · subst hxy
      rw [countP_update_of_not_mem p v hy]
      cases v <;> cases p x <;> simp
    · have hmem : x ∈ ys := (mem_cons.mp hx).resolve_left hxy
      rw [ih hys hmem, update_of_ne (Ne.symm hxy)]
      omega

theorem pairwise_orderedInsert {f : α → Nat} {l : List α}
    (hl : l.Pairwise (fun a b => f a < f b)) (hx : ∀ y ∈ l, f y ≠ f x) :
    (l.orderedInsert (fun a b => f a ≤ f b) x).Pairwise (fun a b => f a < f b) := by
  induction l with
  | nil => exact pairwise_singleton _ _
  | cons y ys ih =>
    obtain ⟨hy, hys⟩ := pairwise_cons.mp hl
    have hne := hx y (by simp)
    rw [orderedInsert_cons]
    split
    next hle =>
      refine pairwise_cons.mpr ⟨?_, hl⟩
      intro z hz
      have hlt : f x < f y := by omega
      obtain rfl | hz := mem_cons.mp hz
      · exact hlt
      · exact hlt.trans (hy z hz)
    next hle =>
      refine pairwise_cons.mpr ⟨?_, ih hys fun z hz => hx z (by simp [hz])⟩
      intro z hz
      rw [mem_orderedInsert] at hz
      obtain rfl | hz := hz
      · omega
      · exact hy z hz

namespace Book

variable {b b' : Book O R N} {n : N} {r : R} {a : Account R} {e e' : Entry O N}
variable {x : Option (Entry O N)} {index : O → List R}

theorem Accounted.mem_refs (h : b.Accounted) (he : b.entries r = some e)
    (ha : b.accounts e.node = some a) : r ∈ a.refs :=
  (h.listed _ a ha r).mpr ⟨e, he, rfl⟩

theorem Accounted.node_ne (h : b.Accounted) (ha : b.accounts n = some a) (hempty : a.refs = [])
    (he : b.entries r = some e) : e.node ≠ n := by
  intro hn
  have hmem := (h.listed n a ha r).mpr ⟨e, he, hn⟩
  rw [hempty] at hmem
  cases hmem

theorem Accounted.not_mem_refs (h : b.Accounted) (hold : ∀ e, b.entries r = some e → e.node = n)
    (hm : m ≠ n) (hc : b.accounts m = some c) : r ∉ c.refs := by
  intro hr
  obtain ⟨e, he, rfl⟩ := (h.listed m c hc r).mp hr
  exact hm (hold e he)

theorem Accounted.not_mem_of_none (h : b.Accounted) (hnew : b.entries r = none)
    (ha : b.accounts n = some a) : r ∉ a.refs := by
  intro hr
  obtain ⟨f, hf, -⟩ := (h.listed n a ha r).mp hr
  exact ne_of_none hnew hf rfl

theorem Counted.mono (h : b.Counted m) (hm : m ≤ m') : b.Counted m' where
  nonneg := h.nonneg.trans hm
  counted := h.counted
  most n a ha := (h.most n a ha).trans hm
  range r e he := ⟨(h.range r e he).1, (h.range r e he).2.trans hm⟩

section
variable (h : b.Counted m) (ha : b.accounts n = some a)
include h ha

theorem Counted.refs_empty (hempty : a.refs = []) : a.strongRefs = 0 := by
  rw [h.counted n a ha, hempty]
  rfl

theorem Counted.strongRefs_eq_ncard (hacc : b.Accounted) :
    a.strongRefs = {r | ∃ e, b.entries r = some e ∧ e.node = n ∧ 0 < e.strong}.ncard := by
  classical
  have hset : {r | ∃ e, b.entries r = some e ∧ e.node = n ∧ 0 < e.strong}
      = ((a.refs.filter b.active).toFinset : Set R) := by
    ext r
    simp only [Set.mem_ofPred_eq, coe_toFinset, mem_filter, hacc.listed n a ha r]
    constructor
    · rintro ⟨e, he, hn, hpos⟩
      exact ⟨⟨e, he, hn⟩, by simp [Book.active, he, Entry.active, hpos]⟩
    · rintro ⟨⟨e, he, hn⟩, hact⟩
      simp only [Book.active, he, any_some, Entry.active, decide_eq_true_eq] at hact
      exact ⟨e, he, hn, hact⟩
  rw [h.counted n a ha, hset, Set.ncard_coe_finset,
    toFinset_card_of_nodup ((hacc.nodup n a ha).filter _), countP_eq_length_filter]

end

theorem active_congr (hentries : b'.entries = b.entries) : b'.active = b.active := by
  funext y
  rw [Book.active, Book.active, hentries]

theorem Indexed.congr (h : b.Indexed index) (hentries : b'.entries = b.entries) :
    b'.Indexed index := by
  refine ⟨?_, h.nodup⟩
  rw [hentries]
  exact h.mem

section Entries

variable [DecidableEq R]

section
variable (hentries : b'.entries = update b.entries r x)
include hentries

theorem active_update :
    b'.active = update b.active r (x.any Entry.active) := by
  funext y
  by_cases hy : y = r
  · subst hy
    simp [Book.active, hentries]
  · simp [Book.active, hentries, update_of_ne hy]

theorem key_of_ne (hy : y ≠ r) :
    b'.key y = b.key y := by
  simp [Book.key, hentries, update_of_ne hy]

theorem exists_update (P : Entry O N → Prop)
    (y : R) : (∃ f, b'.entries y = some f ∧ P f) ↔
      y = r ∧ (∃ f, x = some f ∧ P f) ∨ y ≠ r ∧ ∃ f, b.entries y = some f ∧ P f := by
  by_cases hy : y = r
  · subst hy
    simp [hentries]
  · simp [hentries, hy]

end

theorem exists_revalued (he : b.entries r = some e)
    (hentries : b'.entries = update b.entries r (some e')) {P : Entry O N → Prop}
    (hP : P e' ↔ P e) (y : R) :
    (∃ f, b'.entries y = some f ∧ P f) ↔ ∃ f, b.entries y = some f ∧ P f := by
  rw [exists_update hentries]
  by_cases hy : y = r
  · simp [hy, he, hP]
  · simp [hy]

theorem Indexed.revalue (h : b.Indexed index) (he : b.entries r = some e)
    (hentries : b'.entries = update b.entries r (some e'))
    (howner : e'.owner = e.owner) : b'.Indexed index := by
  refine ⟨?_, h.nodup⟩
  intro o y
  rw [h.mem o y]
  exact (exists_revalued he hentries (by rw [howner]) y).symm

end Entries

section Accounts

variable [DecidableEq R] [DecidableEq N]

theorem Accounted.change (h : b.Accounted) (ha : b.accounts n = some a)
    (hentries : b'.entries = update b.entries r x)
    (haccounts : b'.accounts = update b.accounts n (some a'))
    (hold : ∀ e, b.entries r = some e → e.node = n) (hnew : ∀ e, x = some e → e.node = n)
    (hmem : ∀ y, y ∈ a'.refs ↔ y = r ∧ x.isSome ∨ y ≠ r ∧ y ∈ a.refs) (hnodup : a'.refs.Nodup) :
    b'.Accounted := by
  have hcase : ∀ {m c}, b'.accounts m = some c →
      m = n ∧ c = a' ∨ m ≠ n ∧ b.accounts m = some c := by
    intro m c hc
    rwa [haccounts, update_some_iff] at hc
  constructor
  case listed =>
    intro m c hc y
    rw [exists_update hentries]
    obtain ⟨rfl, rfl⟩ | ⟨hm, hc⟩ := hcase hc
    · have hx : (∃ f, x = some f ∧ f.node = m) ↔ x.isSome := by
        rw [isSome_iff_exists]
        exact exists_congr fun f => and_iff_left_of_imp fun hf => hnew f hf
      rw [hmem y, h.listed m a ha y, hx]
    · have hx : ¬ ∃ f, x = some f ∧ f.node = m :=
        fun ⟨f, hf, hfn⟩ => hm (hfn.symm.trans (hnew f hf))
      rw [← h.listed m c hc y]
      simp only [hx, and_false, false_or]
      exact ⟨fun hy => ⟨fun heq => h.not_mem_refs hold hm hc (heq ▸ hy), hy⟩, And.right⟩
  case nodup =>
    intro m c hc
    obtain ⟨-, rfl⟩ | ⟨-, hc⟩ := hcase hc
    · exact hnodup
    · exact h.nodup m c hc
  case held =>
    intro y f hf
    by_cases hm : f.node = n
    · exact ⟨a', by rw [haccounts, hm, update_self]⟩
    · rw [haccounts, update_of_ne hm]
      by_cases hy : y = r
      · rw [hy, hentries, update_self] at hf
        exact absurd (hnew f hf) hm
      · rw [hentries, update_of_ne hy] at hf
        exact h.held y f hf

theorem Accounted.revalue (h : b.Accounted) (he : b.entries r = some e)
    (ha : b.accounts e.node = some a)
    (hentries : b'.entries = update b.entries r (some e'))
    (haccounts : b'.accounts = update b.accounts e.node (some a')) (hrefs : a'.refs = a.refs)
    (hnode : e'.node = e.node) : b'.Accounted := by
  refine h.change ha hentries haccounts ?_ ?_ ?_ (hrefs ▸ h.nodup _ a ha)
  · rintro f hf
    rw [he] at hf
    cases hf
    rfl
  · rintro f ⟨⟩
    exact hnode
  · intro y
    by_cases hy : y = r
    · simp [hy, hrefs, h.mem_refs he ha]
    · simp [hy, hrefs]

theorem Accounted.enter (h : b.Accounted) (hnew : b.entries r = none)
    (ha : b.accounts e.node = some a)
    (hentries : b'.entries = update b.entries r (some e))
    (haccounts : b'.accounts = update b.accounts e.node (some { a with refs := r :: a.refs })) :
    b'.Accounted := by
  refine h.change ha hentries haccounts ?_ ?_ ?_
    (nodup_cons.mpr ⟨h.not_mem_of_none hnew ha, h.nodup _ a ha⟩)
  · intro f hf
    exact absurd rfl (ne_of_none hnew hf)
  · rintro f ⟨⟩
    rfl
  · intro y
    by_cases hy : y = r
    · simp [hy]
    · simp [hy]

theorem Accounted.remove (h : b.Accounted) (he : b.entries r = some e)
    (ha : b.accounts e.node = some a)
    (hentries : b'.entries = update b.entries r none)
    (haccounts : b'.accounts = update b.accounts e.node (some a'))
    (hrefs : a'.refs = a.refs.erase r) : b'.Accounted := by
  refine h.change ha hentries haccounts ?_ nofun ?_ (hrefs ▸ (h.nodup _ a ha).erase r)
  · rintro f hf
    rw [he] at hf
    cases hf
    rfl
  · intro y
    simp [hrefs, (h.nodup _ a ha).mem_erase_iff]

theorem Counted.change (hc : b.Counted m) (h : b.Accounted) (hm : m ≤ m')
    (hentries : b'.entries = update b.entries r x)
    (haccounts : b'.accounts = update b.accounts n (some a'))
    (hold : ∀ e, b.entries r = some e → e.node = n)
    (hnew : ∀ e, x = some e → 0 ≤ e.strong ∧ e.strong ≤ m')
    (hcount : a'.strongRefs = a'.refs.countP (update b.active r (x.any Entry.active)))
    (hmost : a'.strongRefs ≤ m') : b'.Counted m' := by
  have hcase : ∀ {i c}, b'.accounts i = some c →
      i = n ∧ c = a' ∨ i ≠ n ∧ b.accounts i = some c := by
    intro i c hi
    rwa [haccounts, update_some_iff] at hi
  constructor
  case nonneg => exact hc.nonneg.trans hm
  case counted =>
    intro i c hi
    rw [active_update hentries]
    obtain ⟨-, rfl⟩ | ⟨hne, hi⟩ := hcase hi
    · exact hcount
    · rw [countP_update_of_not_mem _ _ (h.not_mem_refs hold hne hi)]
      exact hc.counted i c hi
  case most =>
    intro i c hi
    obtain ⟨-, rfl⟩ | ⟨-, hi⟩ := hcase hi
    · exact hmost
    · exact (hc.most i c hi).trans hm
  case range =>
    intro y f hf
    by_cases hy : y = r
    · rw [hy, hentries, update_self] at hf
      exact hnew f hf
    · rw [hentries, update_of_ne hy] at hf
      exact ⟨(hc.range y f hf).1, (hc.range y f hf).2.trans hm⟩

theorem Counted.revalue (hc : b.Counted m) (h : b.Accounted) (hm : m ≤ m')
    (he : b.entries r = some e) (ha : b.accounts e.node = some a)
    (hentries : b'.entries = update b.entries r (some e'))
    (haccounts : b'.accounts = update b.accounts e.node (some a')) (hrefs : a'.refs = a.refs)
    (hcount : a'.strongRefs = a.strongRefs + (e'.weight - e.weight))
    (hmost : a'.strongRefs ≤ m') (hrange : 0 ≤ e'.strong ∧ e'.strong ≤ m') : b'.Counted m' := by
  refine hc.change h hm hentries haccounts ?_ ?_ ?_ hmost
  · rintro f hf
    rw [he] at hf
    cases hf
    rfl
  · rintro f ⟨⟩
    exact hrange
  · rw [hcount, hrefs, countP_update _ _ (h.nodup _ a ha) (h.mem_refs he ha)]
    simp [hc.counted _ a ha, Entry.weight, Book.active, he]

theorem Counted.enter (hc : b.Counted m) (h : b.Accounted) (hnew : b.entries r = none)
    (ha : b.accounts e.node = some a)
    (hentries : b'.entries = update b.entries r (some e))
    (haccounts : b'.accounts = update b.accounts e.node (some { a with refs := r :: a.refs }))
    (hstrong : e.strong = 0) : b'.Counted m := by
  refine hc.change h le_rfl hentries haccounts ?_ ?_ ?_ (hc.most _ a ha)
  · intro f hf
    exact absurd rfl (ne_of_none hnew hf)
  · rintro f ⟨⟩
    exact ⟨hstrong.ge, hstrong.le.trans hc.nonneg⟩
  · rw [countP_cons, countP_update_of_not_mem _ _ (h.not_mem_of_none hnew ha)]
    simp [hc.counted _ a ha, Entry.active, hstrong]

theorem Counted.remove (hc : b.Counted m) (h : b.Accounted) (he : b.entries r = some e)
    (ha : b.accounts e.node = some a)
    (hentries : b'.entries = update b.entries r none)
    (haccounts : b'.accounts = update b.accounts e.node (some a'))
    (hrefs : a'.refs = a.refs.erase r) (hcount : a'.strongRefs = a.strongRefs - e.weight) :
    b'.Counted m := by
  refine hc.change h le_rfl hentries haccounts ?_ nofun ?_ ?_
  · rintro f hf
    rw [he] at hf
    cases hf
    rfl
  · rw [hcount, hrefs, countP_update_of_not_mem _ _ ((h.nodup _ a ha).not_mem_erase),
      hc.counted _ a ha, (perm_cons_erase (h.mem_refs he ha)).countP_eq, countP_cons]
    simp [Entry.weight, Book.active, he]
  · have hweight : 0 ≤ e.weight := by
      rw [Entry.weight]
      split <;> decide
    have hmost := hc.most _ a ha
    omega

end Accounts

section Nodes

variable [DecidableEq N]

theorem Accounted.openNode (h : b.Accounted) (hnew : b.accounts n = none)
    (hentries : b'.entries = b.entries)
    (haccounts : b'.accounts = update b.accounts n (some ⟨[], k⟩)) : b'.Accounted := by
  have hne : ∀ {y f}, b.entries y = some f → f.node ≠ n := by
    intro y f hf heq
    obtain ⟨c, hc⟩ := h.held y f hf
    rw [heq, hnew] at hc
    cases hc
  have hcase : ∀ {m c}, b'.accounts m = some c →
      m = n ∧ c = ⟨[], k⟩ ∨ m ≠ n ∧ b.accounts m = some c := by
    intro m c hc
    rwa [haccounts, update_some_iff] at hc
  constructor
  case listed =>
    intro m c hc y
    rw [hentries]
    obtain ⟨rfl, rfl⟩ | ⟨-, hc⟩ := hcase hc
    · simp only [not_mem_nil, false_iff]
      exact fun ⟨f, hf, hfn⟩ => hne hf hfn
    · exact h.listed m c hc y
  case nodup =>
    intro m c hc
    obtain ⟨-, rfl⟩ | ⟨-, hc⟩ := hcase hc
    · exact nodup_nil
    · exact h.nodup m c hc
  case held =>
    intro y f hf
    rw [hentries] at hf
    obtain ⟨c, hc⟩ := h.held y f hf
    exact ⟨c, by rw [haccounts, update_of_ne (hne hf), hc]⟩

theorem Accounted.closeNode (h : b.Accounted) (ha : b.accounts n = some a)
    (hempty : a.refs = []) (hentries : b'.entries = b.entries)
    (haccounts : b'.accounts = update b.accounts n none) : b'.Accounted := by
  have hold : ∀ {m c}, b'.accounts m = some c → b.accounts m = some c := by
    intro m c hc
    rw [haccounts, update_none_iff] at hc
    exact hc.2
  constructor
  case listed =>
    intro m c hc y
    rw [hentries]
    exact h.listed m c (hold hc) y
  case nodup => exact fun m c hc => h.nodup m c (hold hc)
  case held =>
    intro y f hf
    rw [hentries] at hf
    obtain ⟨c, hc⟩ := h.held y f hf
    exact ⟨c, by rw [haccounts, update_of_ne (h.node_ne ha hempty hf), hc]⟩

end Nodes

theorem Counted.nodes (h : b.Counted m) (hentries : b'.entries = b.entries)
    (haccounts : ∀ n a, b'.accounts n = some a → a = ⟨[], 0⟩ ∨ b.accounts n = some a) :
    b'.Counted m where
  nonneg := h.nonneg
  counted n a ha := by
    rw [active_congr hentries]
    obtain rfl | ha := haccounts n a ha
    · rfl
    · exact h.counted n a ha
  most n a ha := by
    obtain rfl | ha := haccounts n a ha
    · exact h.nonneg
    · exact h.most n a ha
  range := by
    rw [hentries]
    exact h.range

section Indexes

variable [DecidableEq O] [DecidableEq R]

theorem Indexed.change (h : b.Indexed index) (hentries : b'.entries = update b.entries r x)
    (hold : ∀ e, b.entries r = some e → e.owner = o) (hnew : ∀ e, x = some e → e.owner = o)
    (hmem : ∀ y, y ∈ l ↔ y = r ∧ x.isSome ∨ y ≠ r ∧ y ∈ index o) (hl : l.Nodup) :
    b'.Indexed (update index o l) := by
  constructor
  · intro o' y
    rw [exists_update hentries, ← h.mem o' y]
    by_cases ho : o' = o
    · have hx : (∃ f, x = some f ∧ f.owner = o) ↔ x.isSome := by
        rw [isSome_iff_exists]
        exact exists_congr fun f => and_iff_left_of_imp (hnew f)
      rw [ho, update_self, hmem y, hx]
    · have hx : ¬ ∃ f, x = some f ∧ f.owner = o' :=
        fun ⟨f, hf, hfo⟩ => ho (hfo.symm.trans (hnew f hf))
      simp only [update_of_ne ho, hx, and_false, false_or]
      refine ⟨fun hy => ⟨?_, hy⟩, And.right⟩
      rintro rfl
      obtain ⟨f, hf, rfl⟩ := (h.mem o' y).mp hy
      exact ho (hold f hf)
  · intro o'
    by_cases ho : o' = o
    · rwa [ho, update_self]
    · rw [update_of_ne ho]
      exact h.nodup o'

theorem Indexed.enter (h : b.Indexed index) (hnew : b.entries r = none)
    (hentries : b'.entries = update b.entries r (some e))
    (hmem : ∀ y, y ∈ l ↔ y = r ∨ y ∈ index e.owner) (hl : l.Nodup) :
    b'.Indexed (update index e.owner l) := by
  refine h.change hentries (fun f hf => absurd rfl (ne_of_none hnew hf)) ?_ ?_ hl
  · rintro f ⟨⟩
    rfl
  · intro y
    by_cases hy : y = r
    · simp [hmem, hy]
    · simp [hmem, hy]

theorem Indexed.remove (h : b.Indexed index) (he : b.entries r = some e)
    (hentries : b'.entries = update b.entries r none) :
    b'.Indexed (update index e.owner ((index e.owner).erase r)) := by
  refine h.change hentries ?_ nofun ?_ ((h.nodup _).erase r)
  · rintro f hf
    rw [he] at hf
    cases hf
    rfl
  · intro y
    simp [(h.nodup _).mem_erase_iff]

end Indexes

section Balance

variable [DecidableEq R] [DecidableEq N]

theorem Balanced.revalue (h : b.Balanced) (he : b.entries r = some e)
    (ha : b.accounts e.node = some a)
    (hentries : b'.entries = update b.entries r (some e'))
    (haccounts : b'.accounts = update b.accounts e.node (some a')) (hrefs : a'.refs = a.refs)
    (hbyKey : b'.byKey = b.byKey) (hbyNode : b'.byNode = b.byNode)
    (howner : e'.owner = e.owner) (hnode : e'.node = e.node) (hkey : e'.key = e.key) :
    b'.Balanced where
  accounted := h.accounted.revalue he ha hentries haccounts hrefs hnode
  byKey := hbyKey ▸ h.byKey.revalue he hentries howner
  sorted o := by
    have hkeys : ∀ y, b'.key y = b.key y := by
      intro y
      by_cases hy : y = r
      · subst hy
        simp [Book.key, hentries, he, hkey]
      · exact key_of_ne hentries hy
    rw [hbyKey]
    exact (h.sorted o).imp fun hlt => by rwa [hkeys, hkeys]
  byNode := hbyNode ▸ h.byNode.revalue he hentries howner

theorem Balanced.enter [DecidableEq O] {keys : List R} (h : b.Balanced)
    (hnew : b.entries r = none)
    (ha : b.accounts e.node = some a)
    (hentries : b'.entries = update b.entries r (some e))
    (haccounts : b'.accounts = update b.accounts e.node (some { a with refs := r :: a.refs }))
    (hbyKey : b'.byKey = update b.byKey e.owner keys)
    (hbyNode : b'.byNode = update b.byNode e.owner (r :: b.byNode e.owner))
    (hkeys : ∀ y, y ∈ keys ↔ y = r ∨ y ∈ b.byKey e.owner)
    (hsorted : keys.Pairwise (fun x y => b'.key x < b'.key y)) : b'.Balanced where
  accounted := h.accounted.enter hnew ha hentries haccounts
  byKey := by
    rw [hbyKey]
    exact h.byKey.enter hnew hentries hkeys (hsorted.imp fun hlt heq => by simp [heq] at hlt)
  sorted o := by
    rw [hbyKey]
    by_cases ho : o = e.owner
    · rwa [ho, update_self]
    · rw [update_of_ne ho]
      have hne : ∀ {y}, y ∈ b.byKey o → y ≠ r := by
        rintro y hy rfl
        obtain ⟨f, hf, -⟩ := (h.byKey.mem o y).mp hy
        exact ne_of_none hnew hf rfl
      refine Pairwise.imp_of_mem ?_ (h.sorted o)
      intro x y hx hy hlt
      rwa [key_of_ne hentries (hne hx), key_of_ne hentries (hne hy)]
  byNode := by
    rw [hbyNode]
    refine h.byNode.enter hnew hentries (fun y => mem_cons) ?_
    refine nodup_cons.mpr ⟨?_, h.byNode.nodup _⟩
    intro hmem
    obtain ⟨f, hf, -⟩ := (h.byNode.mem _ r).mp hmem
    exact ne_of_none hnew hf rfl

theorem Balanced.remove [DecidableEq O] (h : b.Balanced) (he : b.entries r = some e)
    (ha : b.accounts e.node = some a)
    (hentries : b'.entries = update b.entries r none)
    (haccounts : b'.accounts = update b.accounts e.node (some a'))
    (hrefs : a'.refs = a.refs.erase r)
    (hbyKey : b'.byKey = update b.byKey e.owner ((b.byKey e.owner).erase r))
    (hbyNode : b'.byNode = update b.byNode e.owner ((b.byNode e.owner).erase r)) :
    b'.Balanced where
  accounted := h.accounted.remove he ha hentries haccounts hrefs
  byKey := hbyKey ▸ h.byKey.remove he hentries
  sorted o := by
    have hindex := hbyKey ▸ h.byKey.remove he hentries
    have hsub : (b'.byKey o).Sublist (b.byKey o) := by
      rw [hbyKey]
      by_cases ho : o = e.owner
      · rw [ho, update_self]
        exact erase_sublist
      · rw [update_of_ne ho]
    refine Pairwise.imp_of_mem ?_ ((h.sorted o).sublist hsub)
    intro x y hx hy hlt
    have hne : ∀ {y}, y ∈ b'.byKey o → y ≠ r := by
      rintro y hy rfl
      obtain ⟨f, hf, -⟩ := (hindex.mem o y).mp hy
      simp [hentries] at hf
    rwa [key_of_ne hentries (hne hx), key_of_ne hentries (hne hy)]
  byNode := hbyNode ▸ h.byNode.remove he hentries

end Balance

theorem Balanced.of_accounted (h : b.Balanced) (hacc : b'.Accounted)
    (hentries : b'.entries = b.entries) (hbyKey : b'.byKey = b.byKey)
    (hbyNode : b'.byNode = b.byNode) : b'.Balanced where
  accounted := hacc
  byKey := hbyKey ▸ h.byKey.congr hentries
  sorted o := by
    rw [hbyKey]
    refine (h.sorted o).imp ?_
    intro x y hlt
    rwa [Book.key, Book.key, hentries]
  byNode := hbyNode ▸ h.byNode.congr hentries

end Book

end SpicaKernel.References
