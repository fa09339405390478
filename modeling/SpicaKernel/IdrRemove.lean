import SpicaKernel.IdrAlloc

namespace SpicaKernel.Ids
open Function Digits Tally Option
set_option autoImplicit true

/-- The kind of the cells of an idr: a bit for the id and the pointer of its user. -/
def idrKind (α : Type) : Kind α where
  Good c := (c.1 = false → c.2 = .null) ∧ ∀ p, c.2 ≠ .node p
  counts c := c.1
  good_empty := ⟨fun _ => rfl, fun _ h => by cases h⟩
  counts_empty := rfl
  empty_of_not := fun hgood hnot => Prod.ext hnot (hgood.1 hnot)

theorem idrKind_good_ofPtr (ptr : Option α) : (idrKind α).Good (true, .ofPtr ptr) := by
  refine And.intro (Bool.noConfusion) fun p => ?_
  cases ptr with
  | none => exact fun h => by cases h
  | some y => exact fun h => by cases h

section Replacing

variable {slot : Slot α}

theorem replaceAt_spec (hx : x < 2 ^ 31) (ptr : Option α)
    (hv : Valid (idrKind α) (h + 1) (b, slot)) :
    ((cell (h + 1) (b, slot) x).1 = false ∧
        ∃ t, replaceAt (BitVec.ofNat 32 x) ptr (h + 1) slot = some (none, t)) ∨
      ((cell (h + 1) (b, slot) x).1 = true ∧ slot.isNull = false ∧
        ∃ t, replaceAt (BitVec.ofNat 32 x) ptr (h + 1) slot =
            some (some (cell (h + 1) (b, slot) x).2, .node t) ∧
          Valid (idrKind α) (h + 1) (b, .node t) ∧
          SetAt (32 ^ (h + 1)) x (true, .ofPtr ptr) (cell (h + 1) (b, slot))
            (cell (h + 1) (b, .node t))) := by
  induction h generalizing b slot with
  | zero =>
    cases slot with
    | null => exact .inl ⟨rfl, .null, rfl⟩
    | item y => exact absurd hv not_valid_item
    | node p =>
      obtain ⟨rfl, -, hcount, hplaces⟩ := hv.node_inv
      rw [cell_node]
      generalize hn : place 32 x 0 = n
      cases hbit : p.bitmap n with
      | false =>
        refine .inl ⟨hbit, .node p, ?_⟩
        rw [replaceAt, idPlace_ofNat hx, hn, hbit]
        rfl
      | true =>
        have hcells : (p.setAry n (.ofPtr ptr)).cells = update p.cells n (true, .ofPtr ptr) := by
          rw [LayerOf.cells_setAry, hbit]
        have hvalid := hv.replace (q := p.setAry n (.ofPtr ptr)) rfl hcells (by
          exact hcount) (.leaf (idrKind_good_ofPtr ptr))
        refine .inr ⟨hbit, rfl, p.setAry n (.ofPtr ptr), ?_, hvalid, ?_⟩
        · rw [replaceAt, idPlace_ofNat hx, hn, hbit]
          rfl
        · subst hn
          refine cell_replace hcells fun j => ?_
          rw [if_pos (by rw [Nat.pow_zero, Nat.mod_one, Nat.mod_one])]
          rfl
  | succ h ih =>
    cases slot with
    | null => exact .inl ⟨rfl, .null, rfl⟩
    | item y => exact absurd hv not_valid_item
    | node p =>
      obtain ⟨rfl, -, hcount, hplaces⟩ := hv.node_inv
      rw [cell_node]
      generalize hn : place 32 x (h + 1) = n
      rcases ih (hplaces n) with ⟨hnot, t, ht⟩ | ⟨hset, hnode, t, ht, hvt, hst⟩
      · refine .inl ⟨hnot, .node (p.setAry n t), ?_⟩
        rw [replaceAt, idPlace_ofNat hx, hn, ht]
        rfl
      · have hcells : (p.setAry n (.node t)).cells =
            update p.cells n (p.bitmap n, .node t) := LayerOf.cells_setAry p n _
        have hocc : (idrKind α).occupied (h + 1) (p.bitmap n, .node t) =
            (idrKind α).occupied (h + 1) (p.cells n) := by
          change true = !(p.ary n).isNull
          rw [hnode]
          rfl
        have hvalid := hv.replace (q := p.setAry n (.node t)) rfl hcells (by
          rw [hcells, tally_update_same hocc]
          exact hcount) hvt
        refine .inr ⟨hset, rfl, p.setAry n (.node t), ?_, hvalid, ?_⟩
        · rw [replaceAt, idPlace_ofNat hx, hn, ht]
          rfl
        · subst hn
          exact cell_replace hcells hst

end Replacing

/-- A tree with other bits on the way to an id, another pointer for it, and its own bit set. -/
inductive Faked (x : Nat) : Nat → Slot α → Slot α → Prop where
  | leaf {p q : Layer α} (hlayer : q.layer = p.layer) (hcount : q.count = p.count)
      (hcells : q.cells = update p.cells (place 32 x 0) (true, y)) :
      Faked x 1 (.node p) (.node q)
  | node {p q : Layer α} (hlayer : q.layer = p.layer) (hcount : q.count = p.count)
      (hcells : q.cells = update p.cells (place 32 x (h + 1)) (b, t))
      (hbelow : Faked x (h + 1) (p.ary (place 32 x (h + 1))) t) :
      Faked x (h + 2) (.node p) (.node q)

section Removing

variable {K : Kind α} {slot slot' : Slot α} {p q : Layer α}

theorem Faked.refl (hv : Valid K (h + 1) (b, slot)) (hx : (cell (h + 1) (b, slot) x).1 = true) :
    Faked x (h + 1) slot slot := by
  induction h generalizing b slot with
  | zero =>
    cases slot with
    | null => cases hx
    | item y => exact absurd hv not_valid_item
    | node p =>
      refine .leaf (y := p.ary (place 32 x 0)) rfl rfl ?_
      rw [← show p.bitmap (place 32 x 0) = true from hx]
      exact (update_eq_self (place 32 x 0) p.cells).symm
  | succ h ih =>
    cases slot with
    | null => cases hx
    | item y => exact absurd hv not_valid_item
    | node p =>
      obtain ⟨-, -, -, hplaces⟩ := hv.node_inv
      exact .node rfl rfl (update_eq_self (place 32 x (h + 1)) p.cells).symm (ih (hplaces _) hx)

theorem Faked.node_left (hf : Faked x (h + 1) slot slot') : slot.isNull = false := by
  cases hf <;> rfl

theorem full_eq_false (hbit : (p.cells n).1 = false) : p.full = false := by
  cases hf : p.full with
  | true => exact absurd ((LayerOf.full_iff.mp hf n).symm.trans hbit) (by decide)
  | false => rfl

theorem subRemove_missing (hx : x < 2 ^ 31) (hv : Valid K (h + 1) (b, slot))
    (hnot : (cell (h + 1) (b, slot) x).1 = false) :
    subRemove (BitVec.ofNat 32 x) (h + 1) slot = some (slot, .missing) := by
  induction h generalizing b slot with
  | zero =>
    cases slot with
    | null => rfl
    | item y => exact absurd hv not_valid_item
    | node p =>
      rw [subRemove, idPlace_ofNat hx, show p.bitmap (place 32 x 0) = false from hnot]
      rfl
  | succ h ih =>
    cases slot with
    | null => rfl
    | item y => exact absurd hv not_valid_item
    | node p =>
      obtain ⟨-, -, -, hplaces⟩ := hv.node_inv
      rw [cell_node] at hnot
      rw [subRemove, idPlace_ofNat hx]
      generalize place 32 x (h + 1) = n at hnot
      -- The bits on the way are clear, since the id is not taken.
      have hbit : p.bitmap n = false := by
        cases hb : p.bitmap n with
        | false => rfl
        | true => exact absurd (((hplaces n).bit_iff.mp hb x).symm.trans hnot) (by decide)
      have hsame : (p.setBit n false).setAry n (p.ary n) = p := by
        rw [← hbit, LayerOf.setBit, update_eq_self]
        exact congrArg (fun f => (⟨p.bitmap, f, p.count, p.layer⟩ : Layer α))
          (update_eq_self n p.ary)
      rw [ih (hplaces n) hnot, map_some, LayerOf.removed, hsame]
      exact fun h => Removal.noConfusion h

theorem takeOut_spec (hv : Valid K (h + 1) (b, .node p)) (hlayer : q.layer = p.layer)
    (hcount : q.count = p.count) (hcells : q.cells = update p.cells n c)
    (hocc : K.occupied h (p.cells n) = true) :
    ∃ t r, (q.setBit n false).takeOut n = (t, r) ∧ Valid K (h + 1) (false, t) ∧
      (∀ j, cell (h + 1) (false, t) j = cell h (update p.cells n (false, .null) (place 32 j h)) j) ∧
      (r = .emptied ∧ t = .null ∨ r = .done ∧ t.isNull = false) := by
  generalize hp' : ({ (q.setBit n false).setAry n .null with
    count := (q.setBit n false).count - 1 } : Layer α) = p'
  have hcells' : p'.cells = update p.cells n (false, .null) := by
    have hset := LayerOf.cells_setBit_setAry q n false .null
    rw [hcells, update_idem] at hset
    rw [← hp']
    exact hset
  have htally := tally_update_clear (p := K.occupied h) (f := p.cells) (v := (false, .null)) hocc
    (occupied_empty K h)
  have hcount' : p'.count = tally (K.occupied h) p'.cells := by
    have hpc := hv.node_inv.2.2.1
    have hsub : p'.count = q.count - 1 := by rw [← hp']; rfl
    rw [hcells']
    omega
  have hlayer' : p'.layer = p.layer := by
    rw [← hp']
    exact hlayer
  have hvalid := hv.replace hlayer' hcells' hcount' (valid_empty K h)
  have hfull : p'.full = false := by
    apply full_eq_false (n := n)
    rw [hcells', update_self]
  rw [hfull] at hvalid
  have hcell : ∀ j, cell (h + 1) (false, .node p') j =
      cell h (update p.cells n (false, .null) (place 32 j h)) j := by
    intro j
    rw [cell_node, hcells']
  rw [LayerOf.takeOut, hp']
  by_cases h0 : p'.count = 0
  · refine ⟨.null, .emptied, if_pos h0, .null, fun j => ?_, .inl ⟨rfl, rfl⟩⟩
    rw [← hcell, cell_node, (hvalid.empty_of_count h0).cells, cell_empty, cell_empty]
  · exact ⟨.node p', .done, if_neg h0, hvalid, hcell, .inr ⟨rfl, rfl⟩⟩

theorem subRemove_taken (hx : x < 2 ^ 31) (hv : Valid K (h + 1) (b, slot))
    (hcounts : K.counts (cell (h + 1) (b, slot) x) = true) (hf : Faked x (h + 1) slot slot') :
    ∃ t r, subRemove (BitVec.ofNat 32 x) (h + 1) slot' = some (t, r) ∧ Valid K (h + 1) (false, t) ∧
      SetAt (32 ^ (h + 1)) x (false, .null) (cell (h + 1) (b, slot)) (cell (h + 1) (false, t)) ∧
      (r = .emptied ∧ t = .null ∨ r = .done ∧ t.isNull = false) := by
  induction h generalizing b slot slot' with
  | zero =>
    cases hf with
    | @leaf y p q hlayer hcount hcells =>
      obtain ⟨t, r, hout, hvt, hcell, hr⟩ := takeOut_spec hv hlayer hcount hcells hcounts
      have hbit : q.bitmap (place 32 x 0) = true := by
        have hq := congrFun hcells (place 32 x 0)
        rw [update_self] at hq
        exact congrArg Prod.fst hq
      refine ⟨t, r, ?_, hvt, ?_, hr⟩
      · rw [subRemove, idPlace_ofNat hx, if_pos hbit, hout]
      · have hbranch := SetAt.branch (b := 32) (h := 0) (i := x) (v := ((false, .null) : Cell α))
          (k := fun n => cell 0 (update p.cells (place 32 x 0) (false, .null) n))
          (fun n hn => by rw [update_of_ne hn]) (fun j => by
            rw [if_pos (by rw [Nat.pow_zero, Nat.mod_one, Nat.mod_one]), update_self, cell_empty])
        intro j
        rw [hcell]
        exact hbranch j
  | succ h ih =>
    cases hf with
    | @node _ b' t' p q hlayer hcount hcells hbelow =>
      obtain ⟨-, -, -, hplaces⟩ := hv.node_inv
      obtain ⟨t, r, hout, hvt, hst, hr⟩ := ih (hplaces _) hcounts hbelow
      have hocc : K.occupied (h + 1) (p.cells (place 32 x (h + 1))) = true := by
        change (!(p.ary (place 32 x (h + 1))).isNull) = true
        rw [hbelow.node_left]
        rfl
      have hchild : q.ary (place 32 x (h + 1)) = t' := by
        have hq := congrFun hcells (place 32 x (h + 1))
        rw [update_self] at hq
        exact congrArg Prod.snd hq
      have hstep : subRemove (BitVec.ofNat 32 x) (h + 2) (.node q) =
          some ((q.setBit (place 32 x (h + 1)) false).removed (place 32 x (h + 1)) (t, r)) := by
        rw [subRemove, idPlace_ofNat hx, hchild, hout, map_some]
      rw [hstep]
      rcases hr with ⟨rfl, rfl⟩ | ⟨rfl, hnode⟩
      · obtain ⟨t₁, r₁, hout₁, hvt₁, hcell₁, hr₁⟩ := takeOut_spec hv hlayer hcount hcells hocc
        refine ⟨t₁, r₁, by rw [LayerOf.removed, hout₁], hvt₁, ?_, hr₁⟩
        have hbranch := SetAt.branch (b := 32) (h := h + 1) (i := x) (k := fun n =>
            cell (h + 1) (update p.cells (place 32 x (h + 1)) (false, .null) n))
          (fun n hn => by rw [update_of_ne hn]) (by
            rw [update_self]
            exact hst)
        intro j
        rw [hcell₁]
        exact hbranch j
      · generalize hp' : (q.setBit (place 32 x (h + 1)) false).setAry (place 32 x (h + 1)) t = p'
        have hcells' : p'.cells = update p.cells (place 32 x (h + 1)) (false, t) := by
          rw [← hp', LayerOf.cells_setBit_setAry, hcells, update_idem]
        have hlayer' : p'.layer = p.layer := by
          rw [← hp']
          exact hlayer
        have hcount' : p'.count = tally (K.occupied (h + 1)) p'.cells := by
          have hocc' : K.occupied (h + 1) (false, t) =
              K.occupied (h + 1) (p.cells (place 32 x (h + 1))) := by
            rw [hocc]
            change (!t.isNull) = true
            rw [hnode]
            rfl
          rw [hcells', tally_update_same hocc', ← hv.node_inv.2.2.1, ← hp']
          exact hcount
        have hvalid := hv.replace hlayer' hcells' hcount' hvt
        have hfull : p'.full = false := by
          apply full_eq_false (n := place 32 x (h + 1))
          rw [hcells', update_self]
        rw [hfull] at hvalid
        refine ⟨.node p', .done, ?_, hvalid, cell_replace hcells' hst, .inr ⟨rfl, rfl⟩⟩
        rw [LayerOf.removed, hp']
        exact fun h => Removal.noConfusion h

end Removing

section Handles

variable {K : Kind α} {s : Idr α} {top : Slot α} {free : List (Layer α)} {id : Id}

inductive Remains (K : Kind α) (L : Nat) : Slot α → Nat → Prop where
  | nothing : Remains K L .null 0
  | tree {p : Layer α} (hv : Valid K L (p.full, .node p)) : Remains K L (.node p) L

theorem Remains.valid (h : Remains K L top L') (h1 : 1 ≤ L) (hL : L ≤ 6)
    (hfree : ∀ q ∈ free, q.Clean) : Idr.Valid K ⟨top, free, L'⟩ := by
  cases h with
  | nothing => exact .empty hfree
  | tree hv => exact .tree ⟨h1, hL, hv, hfree⟩

theorem shrinkTop_spec (hs : s.Valid K) :
    (shrinkTop s).Valid K ∧ (shrinkTop s).cells = s.cells := by
  cases hs with
  | empty hfree => exact ⟨.empty hfree, rfl⟩
  | @tree L p free h =>
    rw [shrinkTop]
    simp only
    split
    next hcond =>
      rw [Bool.and_eq_true, Bool.and_eq_true, decide_eq_true_iff, decide_eq_true_iff] at hcond
      obtain ⟨⟨hone, hlt⟩, hnode⟩ := hcond
      obtain ⟨l, rfl⟩ : ∃ l, L = l + 1 + 1 := ⟨L - 2, by omega⟩
      obtain ⟨-, -, hcount, hplaces⟩ := h.valid.node_inv
      rw [hone] at hcount
      have hother : ∀ n, n ≠ 0 → p.cells n = (false, .null) := by
        intro n hn
        have hnot : K.occupied (l + 1) (p.cells n) = false := by
          cases hocc : K.occupied (l + 1) (p.cells n) with
          | false => rfl
          | true => exact absurd (eq_of_tally_eq_one hcount.symm hocc hnode) hn
        have hvn := hplaces n
        generalize p.cells n = c at hnot hvn
        cases hvn with
        | null => rfl
        | node => cases hnot
      have hv0 := hplaces 0
      cases hq : p.ary 0 with
      | null =>
        rw [hq] at hnode
        cases hnode
      | item y =>
        rw [LayerOf.cells, hq] at hv0
        exact absurd hv0 not_valid_item
      | node q =>
        rw [LayerOf.cells, hq] at hv0
        obtain ⟨hbit, -⟩ := hv0.node_inv
        have hle := h.le
        refine ⟨.tree ⟨by omega, by omega, hbit ▸ hv0, h.free⟩, ?_⟩
        refine (treeCells_raise (b := q.full) (Nat.le_add_left 1 l) ?_).symm
        funext n
        by_cases hn : n = 0
        · rw [hn, update_self, LayerOf.cells, hq, hbit]
        · rw [update_of_ne hn, hother n hn]
    next => exact ⟨.tree h, rfl⟩

theorem idrRemove_eq (hrem : subRemove (id &&& MAX_ID_MASK) L slot = some (top, r))
    (hfree : ∀ q ∈ free, q.Clean) (h1 : 1 ≤ L) (hL : L ≤ 6)
    (hleft : Remains K L top (if r = .emptied then 0 else L)) :
    ∃ s', idrRemove ⟨slot, free, L⟩ id = some s' ∧ s'.Valid K ∧
      s'.cells = treeCells (if r = .emptied then 0 else L) top := by
  have hs := hleft.valid h1 hL hfree
  obtain ⟨hs', hcells⟩ := shrinkTop_spec hs
  generalize hshrunk : shrinkTop ⟨top, free, if r = .emptied then 0 else L⟩ = s₁ at hs' hcells
  refine ⟨{ s₁ with idFree := s₁.idFree.drop (s₁.idFree.length - (IDR_FREE_MAX - 1)) }, ?_, ?_,
    hcells⟩
  · simp only [idrRemove, hrem, bind_eq_bind, bind_some, hshrunk]
    rfl
  · exact hs'.with_free fun q hq => hs'.free q (List.mem_of_mem_drop hq)

theorem idrRemove_taken (h : TreeValid K L p free)
    (hx : key id < 32 ^ L) (hcounts : K.counts (treeCells L (.node p) (key id)) = true)
    (hf : Faked (key id) L (.node p) slot) :
    ∃ s', idrRemove ⟨slot, free, L⟩ id = some s' ∧ s'.Valid K ∧
      s'.cells = update (treeCells L (.node p)) (key id) (false, .null) := by
  have hpos := h.pos
  obtain ⟨l, rfl⟩ : ∃ l, L = l + 1 := ⟨L - 1, by omega⟩
  rw [treeCells_of_lt hx] at hcounts
  obtain ⟨t, r, hrem, hv, hset, hr⟩ := subRemove_taken (key_lt id) h.valid hcounts hf
  rw [ofNat_key] at hrem
  have hleft : Remains K (l + 1) t (if r = .emptied then 0 else l + 1) := by
    rcases hr with ⟨rfl, rfl⟩ | ⟨rfl, hnode⟩
    · exact .nothing
    · cases t with
      | null => cases hnode
      | item y => exact absurd hv not_valid_item
      | node p' =>
        obtain ⟨hbit, -⟩ := hv.node_inv
        exact .tree (hbit ▸ hv)
  obtain ⟨s', hs', hvalid, hcells⟩ := idrRemove_eq hrem h.free hpos h.le hleft
  refine ⟨s', hs', hvalid, ?_⟩
  have hsame : treeCells (if r = .emptied then 0 else l + 1) t = treeCells (l + 1) t := by
    rcases hr with ⟨rfl, rfl⟩ | ⟨rfl, -⟩
    · rw [treeCells_null, treeCells_null]
    · rfl
  rw [hcells, hsame]
  exact treeCells_set hx hset

theorem idrRemove_missing (hs : s.Valid K) (hnot : (s.cells (key id % 32 ^ s.layers)).1 = false) :
    ∃ s', idrRemove s id = some s' ∧ s'.Valid K ∧ s'.cells = s.cells := by
  cases hs with
  | @empty free hfree =>
    have hrem : subRemove (id &&& MAX_ID_MASK) 0 (.null : Slot α) = some (.null, .missing) := rfl
    refine ⟨⟨.null, free.drop (free.length - (IDR_FREE_MAX - 1)), 0⟩, ?_,
      .empty fun q hq => hfree q (List.mem_of_mem_drop hq), rfl⟩
    rfl
  | @tree L p free h =>
    have hpos := h.pos
    obtain ⟨l, rfl⟩ : ∃ l, L = l + 1 := ⟨L - 1, by omega⟩
    have hmod : key id % 32 ^ (l + 1) < 32 ^ (l + 1) := Nat.mod_lt _ (Nat.pow_pos (by decide))
    rw [Idr.cells, treeCells_of_lt hmod, cell_congr (j := key id) (Nat.mod_mod _ _)] at hnot
    have hrem := subRemove_missing (key_lt id) h.valid hnot
    rw [ofNat_key] at hrem
    exact idrRemove_eq (r := .missing) hrem h.free hpos h.le (.tree h.valid)

end Handles

open BitVec

/-- What an idr is for: the ids that are allocated, each with the pointer of its user. -/
abbrev Book (α : Type) := Nat → Option (Option α)

def entryCell : Option (Option α) → Cell α
  | none => (false, .null)
  | some ptr => (true, .ofPtr ptr)

theorem entryCell_fst (e : Option (Option α)) : (entryCell e).1 = e.isSome := by
  cases e <;> rfl

def Book.taken (M : Book α) (i : Nat) : Bool := (M i).isSome

/-- The calls on an idr; the grants of `idr_pre_get` are what `kmem_cache_zalloc` does. -/
inductive Call (α : Type) where
  | preGet (grants : List Bool)
  | getNewAbove (ptr : Option α) (startingId : Id)
  | replace (ptr : Option α) (id : Id)
  | remove (id : Id)

def Idr.step (fuel : Nat) (s : Idr α) (M : Book α) : Call α → Option (Idr α × Book α)
  | .preGet grants => some ({ s with idFree := (idrPreGet grants s.idFree).2 }, M)
  | .getNewAbove ptr startingId => do
    let (err, id, s') ← idrGetNewAbove fuel s ptr startingId
    return (s', if err = 0 then Function.update M id.toNat (some ptr) else M)
  | .replace ptr id => do
    let (_, s') ← idrReplace s ptr id
    return (s', if M.taken (key id) then Function.update M (key id) (some ptr) else M)
  | .remove id => do
    let s' ← idrRemove s id
    return (s', Function.update M (key id) none)

/-- The search gets to room for a new id, and no id beyond the tree is removed while its place in
the tree is taken by another. -/
def Idr.Allows (s : Idr α) (M : Book α) : Call α → Prop
  | .getNewAbove _ startingId => Room s.layers M.taken startingId.toNat
  | .remove id => key id < 32 ^ s.layers ∨ M (key id % 32 ^ s.layers) = none
  | _ => True

inductive Reachable (fuel : Nat) : Idr α → Book α → Prop where
  | init : Reachable fuel idrInit fun _ => none
  | step : Reachable fuel s M → s.Allows M c → s.step fuel M c = some (s', M') →
      Reachable fuel s' M'

structure Idr.Holds (s : Idr α) (M : Book α) : Prop where
  valid : s.Valid (idrKind α)
  book : ∀ i, s.cells i = entryCell (M i)

structure Least (taken : Nat → Bool) (start x : Nat) : Prop where
  le : start ≤ x
  free : taken x = false
  below : ∀ j, start ≤ j → j < x → taken j = true

theorem idrPreGet_clean {free : List (Layer α)}
    (hfree : ∀ p ∈ free, p.Clean) : ∀ p ∈ (idrPreGet grants free).2, p.Clean := by
  induction grants generalizing free with
  | nil => exact hfree
  | cons ok grants ih =>
    rw [idrPreGet]
    split
    next =>
      cases ok with
      | true =>
        refine ih fun p hp => ?_
        rcases List.mem_cons.mp hp with rfl | hp
        · exact ⟨fun _ => rfl, fun _ _ => rfl, rfl⟩
        · exact hfree p hp
      | false => exact hfree
    next => exact hfree

namespace Idr.Holds

variable {s s' : Idr α} {M : Book α} {id : Id}

theorem init : (idrInit : Idr α).Holds fun _ => none := by
  refine ⟨.empty fun _ hp => absurd hp List.not_mem_nil, fun i => ?_⟩
  exact congrFun (treeCells_null 0) i

section
variable (h : s.Holds M)
include h

theorem taken_eq : s.taken = M.taken := by
  funext i
  rw [Idr.taken, h.book, entryCell_fst, Book.taken]

theorem find_eq (id : Id) : idrFind s id = some (entryCell (M (key id))).2 := by
  rw [idrFind_spec h.valid, h.book]

theorem bounded (hi : 32 ^ s.layers ≤ i) : M i = none := by
  have hcell := h.book i
  rw [Idr.cells, treeCells_of_ge hi] at hcell
  cases hM : M i with
  | none => rfl
  | some ptr =>
    rw [hM] at hcell
    cases hcell

theorem update (hv : s'.Valid (idrKind α))
    (hcells : s'.cells = Function.update s.cells x (entryCell e)) :
    s'.Holds (Function.update M x e) := by
  refine ⟨hv, fun i => ?_⟩
  rw [hcells]
  by_cases hi : i = x
  · rw [hi, update_self, update_self]
  · rw [update_of_ne hi, update_of_ne hi, h.book]

theorem same (hv : s'.Valid (idrKind α)) (hcells : s'.cells = s.cells) :
    s'.Holds M := by
  refine ⟨hv, fun i => ?_⟩
  rw [hcells, h.book]

theorem preGet (grants : List Bool) :
    Idr.Holds { s with idFree := (idrPreGet grants s.idFree).2 } M :=
  h.same (h.valid.with_free (idrPreGet_clean h.valid.free)) rfl

theorem getNewAbove (hroom : Room s.layers M.taken start) (hfuel : 2 ^ 33 ≤ fuel)
    (ptr : Option α) :
    (∃ x s', idrGetNewAbove fuel s ptr (BitVec.ofNat 32 start) =
        some (0, BitVec.ofNat 32 x, s') ∧ x < 2 ^ 30 ∧ Least M.taken start x ∧
        s'.Holds (Function.update M x (some ptr))) ∨
      ∃ s', idrGetNewAbove fuel s ptr (BitVec.ofNat 32 start) = some (-EAGAIN, 0#32, s') ∧
        s'.Holds M := by
  rw [← h.taken_eq] at hroom
  obtain ⟨r, hr, hslot⟩ := idrGetEmptySlot_spec h.valid hroom hfuel
  simp only [idrGetNewAbove, hr]
  cases hslot with
  | @failed s' hv hcells => exact .inr ⟨s', rfl, h.same hv hcells⟩
  | @found L x p path free hspot hsame hstart hx hleast =>
    have hpow : 32 ^ L ≤ 2 ^ 30 := Nat.pow_le_pow_right (n := 32) (by decide) hspot.le
    have hbound := hspot.bound
    have hplace : idPlace (BitVec.ofNat 32 x) 0 = place 32 x 0 := idPlace_ofNat (by omega) 0
    have hlevel := hspot.level
    obtain ⟨-, -, hcount, hplaces⟩ := (hspot.valid.focus (l := 0) (by omega)).node_inv
    have hopen : (idrKind α).counts (p.cells (place 32 x 0)) = false := by
      rw [← hsame, treeCells_of_lt hbound,
        cell_focus (l := 0) (d := false) hspot.along (by omega) rfl] at hx
      exact hx
    generalize hp' : ({ p.setAry (place 32 x 0) (.ofPtr ptr) with
      count := p.count + 1 } : Layer α).setBit (place 32 x 0) true = p'
    have hcells : p'.cells = Function.update p.cells (place 32 x 0) (true, .ofPtr ptr) := by
      rw [← hp', LayerOf.cells_setBit]
      have hary : ({ p.setAry (place 32 x 0) (.ofPtr ptr) with
          count := p.count + 1 } : Layer α).cells = Function.update p.cells (place 32 x 0)
            (p.bitmap (place 32 x 0), .ofPtr ptr) := LayerOf.cells_setAry p _ _
      rw [hary, update_idem]
      exact congrArg (fun t => Function.update p.cells (place 32 x 0) (true, t)) (update_self ..)
    have hcount' : p'.count = tally (idrKind α).counts p'.cells := by
      rw [hcells, tally_update_fill hopen rfl, ← hp']
      exact congrArg (· + 1) hcount
    have hlayer : p'.layer = p.layer := by
      rw [← hp']
      rfl
    obtain ⟨top, htop, htree, hput⟩ := hspot.put hlayer hcells hcount' (idrKind_good_ofPtr ptr)
    rw [show (s.cells x).1 = M.taken x from congrFun h.taken_eq x] at hx
    refine .inl ⟨x, ⟨.node top, free, L⟩, ?_, by omega, ⟨hstart, hx, fun j hj hj' => ?_⟩, ?_⟩
    · rw [← htop, ← hp', ← hplace]
      rfl
    · rw [← h.taken_eq]
      exact hleast j hj hj'
    · refine h.update (.tree htree) ?_
      rw [← hsame]
      exact hput

theorem replace (ptr : Option α) (id : Id) :
    ∃ r s', idrReplace s ptr id = some (r, s') ∧
      s'.Holds (if M.taken (key id) then Function.update M (key id) (some ptr) else M) := by
  have htaken : (s.cells (key id)).1 = M.taken (key id) := congrFun h.taken_eq (key id)
  obtain ⟨hv, hbook⟩ := h
  cases hv with
  | empty hfree =>
    rw [Idr.cells, treeCells_null] at htaken
    rw [← htaken]
    exact ⟨_, _, rfl, .empty hfree, hbook⟩
  | @tree L p free htree =>
    have hkey := key_lt id
    have hpos := htree.pos
    obtain ⟨l, rfl⟩ : ∃ l, L = l + 1 := ⟨L - 1, by omega⟩
    obtain ⟨hfull, hlayer, -⟩ := htree.valid.node_inv
    simp only [idrReplace, hlayer, ← ofNat_key]
    by_cases hout : 32 ^ (l + 1) ≤ key id
    · rw [Idr.cells, treeCells_of_ge hout] at htaken
      rw [if_pos ((sle_ofNat htree.le hkey).mpr hout), ← htaken]
      exact ⟨_, _, rfl, .tree htree, hbook⟩
    · have hin := Nat.not_le.mp hout
      rw [if_neg (mt (sle_ofNat htree.le hkey).mp hout)]
      rw [Idr.cells, treeCells_of_lt hin] at htaken
      rcases replaceAt_spec hkey ptr htree.valid with ⟨hnot, t, ht⟩ | ⟨hset, -, t, ht, hvt, hst⟩
      · rw [show M.taken (key id) = false from htaken.symm.trans hnot]
        simp only [ht]
        exact ⟨_, _, rfl, .tree htree, hbook⟩
      · rw [show M.taken (key id) = true from htaken.symm.trans hset]
        simp only [ht]
        obtain ⟨hbit, -⟩ := hvt.node_inv
        refine ⟨_, _, rfl, ?_⟩
        exact update ⟨.tree htree, hbook⟩ (.tree ⟨hpos, htree.le, hbit ▸ hvt, htree.free⟩)
          (treeCells_set hin hst)

theorem remove (hwhere : key id < 32 ^ s.layers ∨ M (key id % 32 ^ s.layers) = none) :
    ∃ s', idrRemove s id = some s' ∧ s'.Holds (Function.update M (key id) none) := by
  by_cases htaken : M.taken (key id % 32 ^ s.layers) = true
  · have hin : key id < 32 ^ s.layers := by
      rcases hwhere with hin | hnone
      · exact hin
      · rw [Book.taken, hnone] at htaken
        cases htaken
    rw [Nat.mod_eq_of_lt hin, ← h.taken_eq, Idr.taken] at htaken
    have hv := h.valid
    cases hv with
    | empty =>
      rw [Idr.cells, treeCells_null] at htaken
      cases htaken
    | @tree L p free htree =>
      have hpos := htree.pos
      obtain ⟨l, rfl⟩ : ∃ l, L = l + 1 := ⟨L - 1, by omega⟩
      have hcell : (cell (l + 1) (p.full, .node p) (key id)).1 = true := by
        rw [Idr.cells, treeCells_of_lt hin] at htaken
        exact htaken
      obtain ⟨s', hs', hv', hcells⟩ :=
        idrRemove_taken htree hin htaken (Faked.refl htree.valid hcell)
      exact ⟨s', hs', h.update (e := none) hv' hcells⟩
  · have hnot : (s.cells (key id % 32 ^ s.layers)).1 = false :=
      (congrFun h.taken_eq _).trans (Bool.eq_false_of_not_eq_true htaken)
    obtain ⟨s', hs', hv, hcells⟩ := idrRemove_missing h.valid hnot
    have hnone : M (key id) = none := by
      by_cases hin : key id < 32 ^ s.layers
      · rw [Nat.mod_eq_of_lt hin] at htaken
        exact not_isSome_iff_eq_none.mp htaken
      · exact h.bounded (Nat.not_lt.mp hin)
    refine ⟨s', hs', ?_⟩
    rw [← hnone, update_eq_self]
    exact h.same hv hcells

end

end Idr.Holds

theorem room_zero (hf : f < 2 ^ 30) (hfree : taken f = false) (layers : Nat) :
    Room layers taken 0 := by
  by_cases hin : ∃ g, g < 32 ^ layers ∧ taken g = false
  · obtain ⟨g, hg, hnot⟩ := hin
    by_cases hgf : g < 2 ^ 30
    · exact ⟨g, Nat.zero_le _, hgf, hnot, .inl hg⟩
    · exact ⟨f, Nat.zero_le _, hf, hfree, .inl (Nat.lt_trans (by omega) hg)⟩
  · refine ⟨f, Nat.zero_le _, hf, hfree, .inr (.inr fun i _ hi => ?_)⟩
    by_contra hnot
    exact hin ⟨i, hi, Bool.eq_false_of_not_eq_true hnot⟩

section Runs

variable {fuel : Nat} {s : Idr α} {M : Book α}

theorem Idr.Holds.step (hfuel : 2 ^ 33 ≤ fuel) (h : s.Holds M) (hc : s.Allows M c) :
    ∃ s' M', s.step fuel M c = some (s', M') ∧ s'.Holds M' := by
  cases c with
  | preGet grants => exact ⟨_, _, rfl, h.preGet grants⟩
  | getNewAbove ptr startingId =>
    have hget := h.getNewAbove hc hfuel ptr
    rw [ofNat_toNat_id] at hget
    rcases hget with ⟨x, s', hs', hx, -, hholds⟩ | ⟨s', hs', hholds⟩
    · have hnat : (BitVec.ofNat 32 x).toNat = x := by
        rw [toNat_ofNat, Nat.mod_eq_of_lt (by omega)]
      refine ⟨s', Function.update M x (some ptr), ?_, hholds⟩
      simp only [Idr.step, hs', bind_eq_bind, bind_some, hnat]
      rfl
    · refine ⟨s', M, ?_, hholds⟩
      simp only [Idr.step, hs']
      rfl
  | replace ptr id =>
    obtain ⟨r, s', hs', hholds⟩ := h.replace ptr id
    refine ⟨s', _, ?_, hholds⟩
    simp only [Idr.step, hs']
    rfl
  | remove id =>
    obtain ⟨s', hs', hholds⟩ := h.remove hc
    refine ⟨s', _, ?_, hholds⟩
    simp only [Idr.step, hs']
    rfl

theorem Reachable.holds (hfuel : 2 ^ 33 ≤ fuel) (h : Reachable fuel s M) : s.Holds M := by
  induction h with
  | init => exact .init
  | step _ hc hs ih =>
    obtain ⟨s', M', hs', hholds⟩ := ih.step hfuel hc
    obtain ⟨rfl, rfl⟩ := Prod.mk.inj (some.inj (hs'.symm.trans hs))
    exact hholds

theorem find_update (h : s.Holds M) (h' : s'.Holds (Function.update M x e))
    (hj : key j ≠ x) : idrFind s' j = idrFind s j := by
  rw [h.find_eq, h'.find_eq, update_of_ne hj]

theorem idr_get_new_above_least (hfuel : 2 ^ 33 ≤ fuel) (h : Reachable fuel s M) (ptr : Option α)
    (startingId : Id) (hroom : s.Allows M (.getNewAbove ptr startingId)) :
    ∃ err id s', idrGetNewAbove fuel s ptr startingId = some (err, id, s') ∧
      (err = 0 → Least M.taken startingId.toNat id.toNat ∧ id.toNat < 2 ^ 31 ∧
        idrFind s' id = some (.ofPtr ptr) ∧
        ∀ j, key j ≠ key id → idrFind s' j = idrFind s j) ∧
      (err ≠ 0 → ∀ j, idrFind s' j = idrFind s j) := by
  have hs := h.holds hfuel
  have hget := hs.getNewAbove hroom hfuel ptr
  rw [ofNat_toNat_id] at hget
  rcases hget with ⟨x, s', hs', hx, hleast, hholds⟩ | ⟨s', hs', hholds⟩
  · have hnat : (BitVec.ofNat 32 x).toNat = x := by
      rw [toNat_ofNat, Nat.mod_eq_of_lt (by omega)]
    have hkey : key (BitVec.ofNat 32 x) = x := key_ofNat (by omega)
    refine ⟨0, BitVec.ofNat 32 x, s', hs', fun _ => ⟨?_, by omega, ?_, fun j hj => ?_⟩,
      fun h0 => absurd rfl h0⟩
    · rw [hnat]
      exact hleast
    · rw [hholds.find_eq, hkey, update_self]
      rfl
    · rw [hkey] at hj
      exact find_update hs hholds hj
  · refine ⟨-EAGAIN, 0#32, s', hs', fun h0 => absurd h0 (by decide), fun _ j => ?_⟩
    rw [hs.find_eq, hholds.find_eq]

/-- Two ids are allocated from 5 on, and the third one is 7. -/
theorem idr_get_new_above_least_third :
    ∃ s M s', Reachable (2 ^ 33) (s : Idr Nat) M ∧ M 5 = some (some 7) ∧ M 6 = some (some 8) ∧
      idrGetNewAbove (2 ^ 33) s (some 9) 5#32 = some (0, 7#32, s') ∧ Least M.taken 5 7 ∧
      idrFind s' 7#32 = some (.item 9) ∧ idrFind s' 5#32 = some (.item 7) ∧
      ∀ j, key j ≠ 7 → idrFind s' j = idrFind s j := by
  have h₀ : Reachable (2 ^ 33) (idrInit : Idr Nat) _ := .init
  have h₁ := h₀.step (c := .preGet (List.replicate 14 true)) trivial rfl
  have h₂ := h₁.step (c := .getNewAbove (some 7) 5#32)
    ⟨5, Nat.le_refl _, by decide, rfl, .inr (.inl (by decide))⟩ rfl
  have h₃ := h₂.step (c := .getNewAbove (some 8) 5#32)
    ⟨6, by decide, by decide, rfl, .inl (by decide)⟩ rfl
  obtain ⟨err, id, s', hs', hok, -⟩ := idr_get_new_above_least (Nat.le_refl _) h₃ (some 9) 5#32
    ⟨7, by decide, by decide, rfl, .inl (by decide)⟩
  have hid : some (0, 7#32) = some (err, id) :=
    congrArg (Option.map fun r : Int × Id × Idr Nat => (r.1, r.2.1)) hs'
  cases hid
  obtain ⟨hleast, -, hfind, hother⟩ := hok rfl
  exact ⟨_, _, s', h₃, rfl, rfl, hs', hleast, hfind, hother 5#32 (by decide), hother⟩

/-- The second id from 1023 on is 1024, but it is stored at the place of the id 0. -/
theorem get_new_above_misplaced : (do
      let s : Idr Nat := ⟨.null, (idrPreGet (List.replicate 14 true) []).2, 0⟩
      let (_, _, s) ← idrGetNewAbove 16 s (some 7) 1023#32
      let (err, id, s') ← idrGetNewAbove 16 s (some 8) 1023#32
      return (err, id, idrFind s' id, idrFind s 0#32, idrFind s' 0#32)) =
      some (0, 1024#32, some .null, some .null, some (.item 8)) := rfl

theorem idr_remove_frame (hfuel : 2 ^ 33 ≤ fuel) (h : Reachable fuel s M) (id : Id)
    (hid : s.Allows M (.remove id)) :
    ∃ s', idrRemove s id = some s' ∧ idrFind s' id = some .null ∧
      (∀ j, key j ≠ key id → idrFind s' j = idrFind s j) ∧
      (M (key id) = none → ∀ j, idrFind s' j = idrFind s j) ∧
      ∀ ptr f, f < 2 ^ 30 → Function.update M (key id) none f = none →
        ∃ err x s'', idrGetNew fuel s' ptr = some (err, x, s'') ∧
          (err = 0 → Least (Book.taken (Function.update M (key id) none)) 0 x.toNat) := by
  have hs := h.holds hfuel
  obtain ⟨s', hs', hholds⟩ := hs.remove hid
  refine ⟨s', hs', ?_, fun j hj => find_update hs hholds hj, fun hnone j => ?_,
    fun ptr f hf hfree => ?_⟩
  · rw [hholds.find_eq, update_self]
    rfl
  · rw [hs.find_eq, hholds.find_eq, ← hnone, update_eq_self]
  · have hroom : Room s'.layers (Book.taken (Function.update M (key id) none)) 0 :=
      room_zero hf (by rw [Book.taken, hfree]; rfl) _
    rcases hholds.getNewAbove hroom hfuel ptr with
      ⟨x, s'', hget, hx, hleast, -⟩ | ⟨s'', hget, -⟩
    · refine ⟨0, BitVec.ofNat 32 x, s'', hget, fun _ => ?_⟩
      rw [toNat_ofNat, Nat.mod_eq_of_lt (by omega)]
      exact hleast
    · exact ⟨-EAGAIN, 0#32, s'', hget, fun h0 => absurd h0 (by decide)⟩

/-- Of the ids 0, 1 and 2 the second one is removed, and `idr_get_new` returns it again. -/
theorem idr_remove_frame_middle :
    ∃ s M s', Reachable (2 ^ 33) (s : Idr Nat) M ∧ idrFind s 1#32 = some (.item 8) ∧
      idrRemove s 1#32 = some s' ∧ idrFind s' 1#32 = some .null ∧
      idrFind s' 0#32 = some (.item 7) ∧ idrFind s' 2#32 = some (.item 9) ∧
      (∀ j, key j ≠ 1 → idrFind s' j = idrFind s j) ∧
      ∃ s'', idrGetNew (2 ^ 33) s' (some 6) = some (0, 1#32, s'') ∧
        Least (Book.taken (Function.update M 1 none)) 0 1 := by
  have h₀ : Reachable (2 ^ 33) (idrInit : Idr Nat) _ := .init
  have h₁ := h₀.step (c := .preGet (List.replicate 14 true)) trivial rfl
  have h₂ := h₁.step (c := .getNewAbove (some 7) 0#32)
    ⟨0, Nat.le_refl _, by decide, rfl, .inl (by decide)⟩ rfl
  have h₃ := h₂.step (c := .getNewAbove (some 8) 0#32)
    ⟨1, by decide, by decide, rfl, .inl (by decide)⟩ rfl
  have h₄ := h₃.step (c := .getNewAbove (some 9) 0#32)
    ⟨2, by decide, by decide, rfl, .inl (by decide)⟩ rfl
  obtain ⟨s', hs', hnull, hother, -, hnext⟩ := idr_remove_frame (Nat.le_refl _) h₄ 1#32
    (.inl (by decide))
  obtain ⟨err, x, s'', hget, hleast⟩ := hnext (some 6) 1 (by decide) rfl
  have hid : some (0, 1#32) = some (err, x) := by
    refine Eq.trans ?_ (congrArg (Option.map fun r : Int × Id × Idr Nat => (r.1, r.2.1)) hget)
    cases hs'
    rfl
  cases hid
  exact ⟨_, _, s', h₄, rfl, hs', hnull, hother 0#32 (by decide), hother 2#32 (by decide), hother,
    s'', hget, hleast rfl⟩

/-- Only the id 0 is allocated, and the removal of the id 32 takes it away. -/
theorem remove_other : (do
      let s : Idr Nat := ⟨.null, (idrPreGet (List.replicate 14 true) []).2, 0⟩
      let (_, id, s) ← idrGetNew 16 s (some 7)
      let s' ← idrRemove s 32#32
      return (id, idrFind s 0#32, idrFind s 32#32, idrFind s' 0#32)) =
      some (0#32, some (.item 7), some .null, some .null) := rfl

end Runs

end SpicaKernel.Ids
