import SpicaKernel.IdrShape

namespace SpicaKernel.Ids
open Function Digits Tally
set_option autoImplicit true

/-- The cells of a tree with so many layers; there is nothing beyond them. -/
def treeCells (h : Nat) (top : Slot α) (i : Nat) : Cell α :=
  if i < 32 ^ h then cell h (false, top) i else (false, .null)

def Idr.cells (s : Idr α) : Nat → Cell α := treeCells s.layers s.top

theorem treeCells_of_lt (hi : i < 32 ^ h) : treeCells h top i = cell h (false, top) i := if_pos hi

theorem treeCells_of_ge (hi : 32 ^ h ≤ i) :
    treeCells h top i = (false, .null) := if_neg (Nat.not_lt.mpr hi)

theorem treeCells_null (h : Nat) : treeCells h (.null : Slot α) = fun _ => (false, .null) := by
  funext j
  rw [treeCells, cell_empty, ite_self]

structure TreeValid (K : Kind α) (h : Nat) (p : Layer α) (free : List (Layer α)) : Prop where
  pos : 1 ≤ h
  le : h ≤ 6
  valid : Valid K h (p.full, .node p)
  free : ∀ q ∈ free, q.Clean

inductive Idr.Valid (K : Kind α) : Idr α → Prop where
  | empty {free : List (Layer α)} (hfree : ∀ q ∈ free, q.Clean) : Valid K ⟨.null, free, 0⟩
  | tree {p : Layer α} {free : List (Layer α)} (h : TreeValid K L p free) :
      Valid K ⟨.node p, free, L⟩

theorem Idr.Valid.free {s : Idr α} (h : s.Valid K) : ∀ q ∈ s.idFree, q.Clean := by
  cases h with
  | empty hfree => exact hfree
  | tree h => exact h.free

theorem Idr.Valid.with_free {s : Idr α} {free : List (Layer α)} (h : s.Valid K)
    (hfree : ∀ q ∈ free, q.Clean) : Idr.Valid K { s with idFree := free } := by
  cases h with
  | empty => exact .empty hfree
  | tree h => exact .tree ⟨h.pos, h.le, h.valid, hfree⟩

section Growth

variable {K : Kind α} {p p' : Layer α} {h : Nat}

theorem Valid.empty_of_count (hv : Valid K (h + 1) (b, .node p)) (h0 : p.count = 0) : p.Empty := by
  obtain ⟨-, -, hcount, hplaces⟩ := hv.node_inv
  refine ⟨funext fun n => ?_, h0⟩
  have hnot := tally_eq_zero.mp (hcount.symm.trans h0) n
  have hn := hplaces n
  generalize p.cells n = c at hnot hn
  cases hn with
  | leaf hgood => exact K.empty_of_not hgood hnot
  | null => rfl
  | node => cases hnot

theorem treeCells_raise (hh : 1 ≤ h)
    (hcells : p'.cells = update (fun _ => (false, .null)) 0 (b, .node p)) :
    treeCells (h + 1) (.node p') = treeCells h (.node p) := by
  obtain ⟨h, rfl⟩ : ∃ k, h = k + 1 := ⟨h - 1, by omega⟩
  funext j
  have hle : 32 ^ (h + 1) ≤ 32 ^ (h + 1 + 1) := Nat.pow_le_pow_right (by decide) (Nat.le_succ _)
  by_cases hj : j < 32 ^ (h + 1)
  · rw [treeCells_of_lt (Nat.lt_of_lt_of_le hj hle), treeCells_of_lt hj, cell_node,
      place_of_lt hj, hcells]
    rfl
  · rw [treeCells_of_ge (Nat.not_lt.mp hj), treeCells]
    split
    next hlt =>
      have hplace : place 32 j (h + 1) ≠ 0 := fun h0 => hj (lt_of_place_eq_zero hlt h0)
      rw [cell_node, hcells, update_of_ne hplace, cell_empty]
    next => rfl

theorem LayerOf.Empty.treeCells (hp : p.Empty) (h : Nat) :
    treeCells (h + 1) (.node { p with layer := h }) = fun _ => (false, .null) := by
  funext j
  rw [Ids.treeCells]
  split
  next => exact hp.cell h false j
  next => rfl

def Built : Nat → Layer α → Prop
  | 0, _ => True
  | k + 1, p => (∀ n, n ≠ 0 → p.ary n = .null) ∧ ∃ q, p.ary 0 = .node q ∧ Built k q

theorem Built.tearDown_clean (hb : Built k p)
    (hfree : ∀ q ∈ free, q.Clean) : ∀ q ∈ tearDown k p free, q.Clean := by
  induction k generalizing p free with
  | zero => exact hfree
  | succ k ih =>
    obtain ⟨hoff, q, hq, hb'⟩ := hb
    rw [tearDown, hq]
    refine ih hb' fun r hr => ?_
    rcases List.mem_cons.mp hr with rfl | hr
    · exact ⟨fun _ => rfl, fun n hn => (update_of_ne hn ..).trans (hoff n hn), rfl⟩
    · exact hfree r hr

structure Tower.Ok (K : Kind α) (C : Nat → Cell α) (t : Tower α) : Prop where
  tree : TreeValid K t.layers t.p t.free
  built : Built t.built t.p
  cells : treeCells t.layers (.node t.p) = C

theorem Tower.raise_cells (t : Tower α) (free : List (Layer α))
    (hnew : new.Empty) : (t.raise new free).p.cells =
      update (fun _ => (false, .null)) 0 (t.p.full, .node t.p) := by
  have hset : ({ new.setAry 0 (.node t.p) with count := 1, layer := t.layers } : Layer α).cells =
      update (fun _ => (false, .null)) 0 (false, .node t.p) := by
    have hbit : new.bitmap 0 = false := congrArg Prod.fst (congrFun hnew.cells 0)
    rw [← hnew.cells, ← hbit]
    exact LayerOf.cells_setAry new 0 _
  rw [Tower.raise]
  cases t.p.full with
  | true =>
    simp only [if_true]
    rw [LayerOf.cells_setBit, hset, update_idem]
    congr 2
  | false => exact hset

theorem Tower.Ok.raise {t : Tower α} {free : List (Layer α)} (ht : t.Ok K C)
    (hlt : t.layers < 6) (hnew : new.Empty) (hfree : ∀ q ∈ free, q.Clean) :
    (t.raise new free).Ok K C := by
  have hcells := t.raise_cells free hnew
  have hpos := ht.tree.pos
  have hrest : (t.raise new free).p.layer = t.layers ∧ (t.raise new free).p.count = 1 ∧
      (∀ n, n ≠ 0 → (t.raise new free).p.ary n = .null) ∧
      (t.raise new free).p.ary 0 = .node t.p := by
    refine ⟨?_, ?_, fun n hn => ?_, ?_⟩
    · rw [Tower.raise]
      cases t.p.full <;> rfl
    · rw [Tower.raise]
      cases t.p.full <;> rfl
    · have hn' := congrArg Prod.snd (congrFun hcells n)
      rw [update_of_ne hn] at hn'
      exact hn'
    · have h0 := congrArg Prod.snd (congrFun hcells 0)
      exact h0
  obtain ⟨hlayer, hcount, hoff, hzero⟩ := hrest
  refine ⟨⟨Nat.le_add_left _ _, hlt, .node hlayer ?_ fun n => ?_, hfree⟩,
    ⟨hoff, t.p, hzero, ht.built⟩, (treeCells_raise hpos hcells).trans ht.cells⟩
  · obtain ⟨h, hh⟩ : ∃ h, t.layers = h + 1 := ⟨t.layers - 1, by omega⟩
    rw [hcount, hcells, hh, tally_update_fill rfl rfl, tally_eq_zero.mpr fun _ => rfl]
  · rw [hcells]
    by_cases hn : n = 0
    · rw [hn]
      exact ht.tree.valid
    · rw [update_of_ne hn]
      exact valid_empty K _

theorem Tower.Ok.lift {t : Tower α} (ht : t.Ok K C) (hlt : t.layers < 6) (h0 : t.p.count = 0) :
    Tower.Ok K C { t with p := { t.p with layer := t.p.layer + 1 }, layers := t.layers + 1 } := by
  obtain ⟨p, L, k, free⟩ := t
  have hpos : 1 ≤ L := ht.tree.pos
  obtain ⟨h, rfl⟩ : ∃ h, L = h + 1 := ⟨L - 1, by omega⟩
  have hv : Valid K (h + 1) (p.full, .node p) := ht.tree.valid
  obtain ⟨-, hlayer, -⟩ := hv.node_inv
  have hempty := hv.empty_of_count h0
  have hk : k = 0 := by
    cases k with
    | zero => rfl
    | succ k =>
      obtain ⟨-, q, hq, -⟩ := ht.built
      have hnull : p.ary 0 = .null := congrArg Prod.snd (congrFun hempty.cells 0)
      rw [show p.ary 0 = .node q from hq] at hnull
      cases hnull
  subst hk
  have hold : treeCells (h + 1) (.node p) = fun _ => (false, .null) := by
    rw [← hempty.treeCells h, ← hlayer]
  refine ⟨⟨Nat.le_add_left _ _, hlt, ?_, ht.tree.free⟩, trivial, ?_⟩
  · have hnew := hempty.valid K (h + 1)
    rw [← hempty.full] at hnew
    rw [hlayer]
    exact hnew
  · rw [hlayer]
    exact (hempty.treeCells (h + 1)).trans (hold.symm.trans ht.cells)

theorem buildUp_spec (ht : t.Ok K C) (hx : x < 2 ^ 30) (hk : k = 6 - t.layers) :
    (∃ free, buildUp (BitVec.ofNat 32 x) k t = .error free ∧ ∀ q ∈ free, q.Clean) ∨
      ∃ t', buildUp (BitVec.ofNat 32 x) k t = .ok t' ∧ t'.Ok K C ∧ t.layers ≤ t'.layers ∧
        x < 32 ^ t'.layers ∧ (x < 32 ^ t.layers → t' = t) := by
  induction k generalizing t with
  | zero =>
    have hle := ht.tree.le
    have h6 : t.layers = 6 := by omega
    exact .inr ⟨t, rfl, ht, Nat.le_refl _, by rw [h6]; exact hx, fun _ => rfl⟩
  | succ k ih =>
    have hlt : t.layers < 6 := by omega
    rw [buildUp]
    by_cases hgrow : 32 ^ t.layers ≤ x
    · rw [if_pos ((sle_ofNat (by omega) (by omega)).mpr hgrow)]
      by_cases h0 : t.p.count = 0
      · rw [if_pos h0]
        rcases ih (ht.lift hlt h0) (by change k = 6 - (t.layers + 1); omega) with
          ⟨free, he, hfree⟩ | ⟨t', he, ht', hle, hx', -⟩
        · exact .inl ⟨free, he, hfree⟩
        · exact .inr ⟨t', he, ht', Nat.le_of_succ_le hle, hx',
            fun hlt' => absurd hgrow (Nat.not_le.mpr hlt')⟩
      · rw [if_neg h0]
        rcases getFromFreeList_cases ht.tree.free with hnone | ⟨new, rest, hget, hnew, hrest⟩
        · refine .inl ⟨tearDown t.built t.p t.free, by simp only [hnone], ?_⟩
          exact ht.built.tearDown_clean ht.tree.free
        · simp only [hget]
          rcases ih (ht.raise hlt hnew hrest) (by change k = 6 - (t.layers + 1); omega) with
            ⟨free, he, hfree⟩ | ⟨t', he, ht', hle, hx', -⟩
          · exact .inl ⟨free, he, hfree⟩
          · exact .inr ⟨t', he, ht', Nat.le_of_succ_le hle, hx',
              fun hlt' => absurd hgrow (Nat.not_le.mpr hlt')⟩
    · rw [if_neg (mt (sle_ofNat (by omega) (by omega)).mp hgrow)]
      exact .inr ⟨t, rfl, ht, Nat.le_refl _, Nat.not_le.mp hgrow, fun _ => rfl⟩

theorem firstTower_spec (hs : s.Valid K) :
    firstTower s = none ∨ ∃ t, firstTower s = some t ∧ t.Ok K s.cells ∧
      (s.layers = 0 ∧ s.cells = (fun _ => (false, .null)) ∨ t.layers = s.layers) := by
  cases hs with
  | @empty free hfree =>
    have hcells : Idr.cells (⟨.null, free, 0⟩ : Idr α) = fun _ => (false, .null) :=
      treeCells_null 0
    rcases getFromFreeList_cases hfree with hnone | ⟨new, rest, hget, hnew, hrest⟩
    · exact .inl (by simp [firstTower, hnone])
    · refine .inr ⟨⟨{ new with layer := 0 }, 1, 0, rest⟩,
        by simp [firstTower, hget], ?_, .inl ⟨rfl, hcells⟩⟩
      have hv := hnew.valid K 0
      rw [← hnew.full] at hv
      exact ⟨⟨Nat.le_refl 1, Nat.le_add_left 1 5, hv, hrest⟩, trivial,
        (hnew.treeCells 0).trans hcells.symm⟩
  | tree h => exact .inr ⟨_, rfl, ⟨h, trivial, rfl⟩, .inr rfl⟩

end Growth

/-- An id is free from the start on, or that is beyond the tree, or its last top place is full. -/
def Room (layers : Nat) (taken : Nat → Bool) (start : Nat) : Prop :=
  ∃ f, start ≤ f ∧ f < 2 ^ 30 ∧ taken f = false ∧ (f < 32 ^ layers ∨ 32 ^ layers ≤ start ∨
      ∀ i, 31 * 32 ^ (layers - 1) ≤ i → i < 32 ^ layers → taken i = true)

def Idr.taken (s : Idr α) (i : Nat) : Bool := (s.cells i).1

structure Spot (K : Kind α) (L x : Nat) (p : Layer α) (path : Path α) (free : List (Layer α)) :
    Prop where
  le : L ≤ 6
  level : path.length + 1 = L
  along : Along x 0 path
  valid : Valid K L ((plug p path).full, .node (plug p path))
  bound : x < 32 ^ L
  free : ∀ q ∈ free, q.Clean

inductive Slotted (K : Kind α) (C : Nat → Cell α) (start : Nat) : EmptySlot α → Prop where
  | found (hspot : Spot K L x p path free) (hsame : treeCells L (.node (plug p path)) = C)
      (hstart : start ≤ x) (hx : (C x).1 = false)
      (hleast : ∀ j, start ≤ j → j < x → (C j).1 = true) :
      Slotted K C start (.found (BitVec.ofNat 32 x) p path L free)
  | failed (hs : s.Valid K) (hsame : s.cells = C) : Slotted K C start (.failed (-1) s)

section EmptySlots

variable {K : Kind α} {s : Idr α} {start : Nat}

theorem Room.inReach {t : Tower α} (hroom : Room s.layers s.taken start) (ht : t.Ok K s.cells)
    (hlt : start < 32 ^ t.layers) (hle : s.layers ≤ t.layers)
    (hkept : start < 32 ^ s.layers → s.cells = (fun _ => (false, .null)) ∨ t.layers = s.layers) :
    InReach t.layers start (cell t.layers (false, .node t.p)) := by
  have hcell : ∀ {j}, j < 32 ^ t.layers → cell t.layers (false, .node t.p) j = s.cells j := by
    intro j hj
    rw [← ht.cells, treeCells_of_lt hj]
  have hpow : 32 ^ s.layers ≤ 32 ^ t.layers := Nat.pow_le_pow_right (by decide) hle
  have hfree : s.cells start = (false, .null) →
      InReach t.layers start (cell t.layers (false, .node t.p)) := by
    intro hs
    exact .inl ⟨start, Nat.le_refl _, hlt, by rw [hcell hlt, hs]⟩
  obtain ⟨f, hf, -, hnot, hwhere⟩ := hroom
  by_cases hout : 32 ^ s.layers ≤ start
  · exact hfree (treeCells_of_ge hout)
  · rcases hwhere with hin | hout' | hlast
    · have hft := Nat.lt_of_lt_of_le hin hpow
      exact .inl ⟨f, hf, hft, by rw [hcell hft]; exact hnot⟩
    · exact absurd hout' hout
    · rcases hkept (Nat.not_le.mp hout) with hempty | heq
      · exact hfree (by rw [hempty])
      · refine .inr fun j hj hj' => ?_
        rw [hcell hj']
        rw [heq] at hj hj'
        exact hlast j hj hj'

theorem cell_top (h1 : 1 ≤ h) (b b' : Bool) (p : Layer α) :
    cell h (b, .node p) = cell h (b', .node p) := by
  obtain ⟨h, rfl⟩ : ∃ k, h = k + 1 := ⟨h - 1, by omega⟩
  rfl

theorem treeCells_eq (hsame : ∀ j, cell L (false, .node top) j = cell L (false, .node p) j)
    (hp : treeCells L (.node p) = C) : treeCells L (.node top) = C := by
  rw [← hp]
  funext j
  rw [treeCells, treeCells, hsame j]

theorem idrGetEmptySlot_round (hs : s.Valid K) (hroom : Room s.layers s.taken start)
    (hfuel : 2 ^ 33 ≤ fuel) (rounds : Nat) :
    (∃ r, idrGetEmptySlot fuel (rounds + 1) (BitVec.ofNat 32 start) s = some r ∧
        Slotted K s.cells start r) ∨
      ∃ top free L, idrGetEmptySlot fuel (rounds + 1) (BitVec.ofNat 32 start) s =
          idrGetEmptySlot fuel rounds (BitVec.ofNat 32 (32 ^ L)) ⟨.node top, free, L⟩ ∧
        TreeValid K L top free ∧ treeCells L (.node top) = s.cells ∧ start < 32 ^ L ∧
        ∀ j, start ≤ j → j < 32 ^ L → s.taken j = true := by
  have hstart : start < 2 ^ 30 := by
    obtain ⟨f, hf, hf', -⟩ := hroom
    omega
  rw [idrGetEmptySlot]
  rcases firstTower_spec hs with hnone | ⟨t, ht, hok, hlayers⟩
  · exact .inl ⟨.failed (-1) s, by simp only [hnone], .failed hs rfl⟩
  have hle₀ : s.layers ≤ t.layers := by
    rcases hlayers with ⟨h0, -⟩ | heq
    · omega
    · omega
  simp only [ht]
  have hbuild := buildUp_spec (k := MAX_LEVEL - 1 - t.layers) hok hstart rfl
  rcases hbuild with ⟨free, hb, hfree⟩ | ⟨t', hb, hok', hle, hlt, hkept⟩
  · refine .inl ⟨.failed (-1) { s with idFree := free }, ?_, .failed (hs.with_free hfree) rfl⟩
    simp only [hb]
  have htree := hok'.tree
  have hreach : InReach t'.layers start (cell t'.layers (t'.p.full, .node t'.p)) := by
    rw [cell_top htree.pos _ false]
    refine Room.inReach hroom hok' hlt (Nat.le_trans hle₀ hle) fun hin => ?_
    rcases hlayers with ⟨-, hempty⟩ | heq
    · exact .inl hempty
    · rw [hkept (by rw [heq]; exact hin)]
      exact .inr heq
  obtain ⟨r, hr, hsearched⟩ := subAlloc_spec htree.valid htree.pos htree.le hlt hreach htree.free
    hfuel
  have hcell : ∀ j, j < 32 ^ t'.layers → cell t'.layers (t'.p.full, .node t'.p) j = s.cells j := by
    intro j hj
    rw [← hok'.cells, treeCells_of_lt hj, cell_top htree.pos _ false]
  -- Whatever the search has left is a tree with the same cells.
  have hleft : ∀ {top : Layer α} {rest : List (Layer α)},
      Valid K t'.layers (t'.p.full, .node top) → (∀ q ∈ rest, q.Clean) →
      (∀ j, cell t'.layers (t'.p.full, .node top) j = cell t'.layers (t'.p.full, .node t'.p) j) →
      TreeValid K t'.layers top rest ∧ treeCells t'.layers (.node top) = s.cells := by
    intro top rest hv hrest hsame
    obtain ⟨h, hh⟩ : ∃ h, t'.layers = h + 1 := ⟨t'.layers - 1, by have := htree.pos; omega⟩
    have hbit : t'.p.full = top.full := by
      rw [hh] at hv
      exact hv.node_inv.1
    refine ⟨⟨htree.pos, htree.le, hbit ▸ hv, hrest⟩, treeCells_eq ?_ hok'.cells⟩
    rw [cell_top htree.pos false t'.p.full top, cell_top htree.pos false t'.p.full t'.p]
    exact hsame
  simp only [hb, hr]
  cases hsearched with
  | @found x p path free hsearch hx =>
    obtain ⟨htree', hsame⟩ := hleft hsearch.valid hsearch.free hsearch.same
    refine .inl ⟨_, rfl, .found ⟨htree.le, hsearch.level, hsearch.along, htree'.valid,
      hsearch.bound, hsearch.free⟩ hsame hsearch.start ?_ fun j hj hj' => ?_⟩
    · rw [← hcell x hsearch.bound]
      exact hx
    · rw [← hcell j (Nat.lt_trans hj' hsearch.bound)]
      exact hsearch.taken j hj hj'
  | @needToGrow top free hv hsame htaken hfree =>
    obtain ⟨htree', hcells⟩ := hleft hv hfree hsame
    refine .inr ⟨top, free, t'.layers, rfl, htree', hcells, hlt, fun j hj hj' => ?_⟩
    rw [Idr.taken, ← hcell j hj']
    exact htaken j hj hj'
  | @noLayer top free hv hsame hfree =>
    obtain ⟨htree', hcells⟩ := hleft hv hfree hsame
    exact .inl ⟨_, rfl, .failed (.tree htree') hcells⟩

theorem idrGetEmptySlot_spec (hs : s.Valid K) (hroom : Room s.layers s.taken start)
    (hfuel : 2 ^ 33 ≤ fuel) :
    ∃ r, idrGetEmptySlot fuel fuel (BitVec.ofNat 32 start) s = some r ∧
      Slotted K s.cells start r := by
  obtain ⟨rounds, hrounds⟩ : ∃ k, fuel = k + 1 + 1 := ⟨fuel - 2, by omega⟩
  have hone := idrGetEmptySlot_round hs hroom hfuel (rounds + 1)
  rw [← hrounds] at hone
  rcases hone with hdone | ⟨top, free, L, heq, htree, hsame, hlt, hfull⟩
  · exact hdone
  rw [heq]
  have hbeyond : ∀ j, 32 ^ L ≤ j → (s.cells j).1 = false := by
    intro j hj
    rw [← hsame, treeCells_of_ge hj]
  have hroom' : Room L (Idr.taken ⟨.node top, free, L⟩) (32 ^ L) := by
    obtain ⟨f, hf, hf', hnot, -⟩ := hroom
    have hge : 32 ^ L ≤ f := by
      by_contra hcon
      exact absurd ((hfull f hf (Nat.not_le.mp hcon)).symm.trans hnot) (by decide)
    refine ⟨f, hge, hf', ?_, .inr (.inl (Nat.le_refl _))⟩
    exact congrArg Prod.fst (treeCells_of_ge hge)
  rcases idrGetEmptySlot_round (.tree htree) hroom' hfuel rounds with
    ⟨r, hr, hslot⟩ | ⟨_, _, L', -, -, -, hlt', hfull'⟩
  · refine ⟨r, hr, ?_⟩
    rw [show Idr.cells ⟨.node top, free, L⟩ = s.cells from hsame] at hslot
    cases hslot with
    | found hspot hcells hstart hx hleast =>
      refine .found hspot hcells (Nat.le_trans (Nat.le_of_lt hlt) hstart) hx fun j hj hj' => ?_
      by_cases hin : j < 32 ^ L
      · exact hfull j hj hin
      · exact hleast j (Nat.not_lt.mp hin) hj'
    | failed hs' hcells => exact .failed hs' hcells
  · -- The tree has just grown: there is space at the start.
    have hnow := hfull' (32 ^ L) (Nat.le_refl _) hlt'
    rw [Idr.taken, show Idr.cells ⟨.node top, free, L⟩ = s.cells from hsame,
      hbeyond _ (Nat.le_refl _)] at hnow
    exact absurd hnow (by decide)

end EmptySlots

open BitVec

section Filling

variable {K : Kind α} {path : Path α} {p p' : Layer α} {L l x : Nat}

theorem markUp_of_not_full (hp : p.full = false) (id : Id) (path : Path α) :
    markUp id p path = plug p path := by
  cases path with
  | nil => rfl
  | cons qm path =>
    rw [markUp, hp]
    rfl

theorem Valid.markUp_set (hx : x < 2 ^ 31) (hv : Valid K L (b, .node (plug p path)))
    (hp : Along x l path) (hL : path.length + (l + 1) = L)
    (hp' : Valid K (l + 1) (p'.full, .node p'))
    (hset : SetAt (32 ^ (l + 1)) x v (cell (l + 1) (p.full, .node p))
      (cell (l + 1) (p'.full, .node p'))) :
    ∃ top, markUp (BitVec.ofNat 32 (x / 32 ^ l)) p' path = top ∧ Valid K L (top.full, .node top) ∧
      SetAt (32 ^ L) x v (cell L (b, .node (plug p path))) (cell L (top.full, .node top)) := by
  induction path generalizing p p' l with
  | nil =>
    rw [List.length_nil, Nat.zero_add] at hL
    subst hL
    exact ⟨p', rfl, hp', hset⟩
  | cons qm path ih =>
    obtain ⟨q, m⟩ := qm
    have hL' : path.length + 1 + (l + 1) = L := hL
    have hbit := hv.bit_eq_full (l := l) (by omega)
    obtain ⟨hm, hopen, hrest⟩ := hp
    by_cases hfull : p'.full = true
    · have hle : x / 32 ^ l ≤ x := Nat.div_le_self _ _
      have hshift : (BitVec.ofNat 32 (x / 32 ^ l)).sshiftRight 5 =
          BitVec.ofNat 32 (x / 32 ^ (l + 1)) := by
        rw [sshiftRight_ofNat (by omega), div_pow_succ 32 x l]
        rfl
      have hle' : x / 32 ^ (l + 1) ≤ x := Nat.div_le_self _ _
      have hplace : idPlace (BitVec.ofNat 32 (x / 32 ^ (l + 1))) 0 = m := by
        rw [idPlace_ofNat (by omega), hm, place, place, Nat.pow_zero, Nat.div_one]
      have hq := hv.focus_above (l := l) (by omega)
      have hold : (q.setAry m (.node p)).cells m = (p.full, .node p) := by
        rw [LayerOf.cells_setAry, update_self, hbit]
      have hcells : ((q.setAry m (.node p')).setBit m true).cells =
          update (q.setAry m (.node p)).cells m (p'.full, .node p') := by
        have hary : (q.setAry m (.node p')).ary m = .node p' := update_self ..
        rw [LayerOf.cells_setBit, LayerOf.cells_setAry, LayerOf.cells_setAry, update_idem,
          update_idem, hary, hfull]
      have hcount : ((q.setAry m (.node p')).setBit m true).count =
          tally (K.occupied (l + 1)) ((q.setAry m (.node p')).setBit m true).cells := by
        rw [hcells, tally_update_same (by rw [hold]; rfl)]
        exact hq.node_inv.2.2.1
      have hstep : markUp (BitVec.ofNat 32 (x / 32 ^ l)) p' ((q, m) :: path) =
          markUp (BitVec.ofNat 32 (x / 32 ^ (l + 1))) ((q.setAry m (.node p')).setBit m true)
            path := by
        rw [markUp, if_pos hfull, hshift]
        change markUp _ ((q.setAry m (.node p')).setBit (idPlace _ 0) true) path = _
        rw [hplace]
      rw [hstep]
      refine ih (l := l + 1) hv hrest (by omega) (hq.replace rfl hcells hcount hp') ?_
      subst hm
      refine cell_replace hcells ?_
      rw [hold]
      exact hset
    · have hsame : p.full = p'.full := by
        rw [← hbit, hopen]
        exact (Bool.eq_false_of_not_eq_true hfull).symm
      rw [← hsame] at hp'
      obtain ⟨hv', hset'⟩ := hv.plug_set ⟨hm, hopen, hrest⟩ hL hp' hset
      obtain ⟨h, rfl⟩ : ∃ h, L = h + 1 := ⟨L - 1, by omega⟩
      obtain ⟨hb, -⟩ := hv'.node_inv
      refine ⟨plug p' ((q, m) :: path), ?_, hb ▸ hv', hset'⟩
      exact markUp_of_not_full (Bool.eq_false_of_not_eq_true hfull) _ _

theorem treeCells_set (hx : x < 32 ^ L)
    (hset : SetAt (32 ^ L) x v (cell L (false, top)) (cell L (false, top'))) :
    treeCells L top' = update (treeCells L top) x v := by
  funext j
  by_cases hj : j < 32 ^ L
  · rw [treeCells_of_lt hj, hset j, Nat.mod_eq_of_lt hj, Nat.mod_eq_of_lt hx]
    by_cases hjx : j = x
    · rw [if_pos hjx, hjx, update_self]
    · rw [if_neg hjx, update_of_ne hjx, treeCells_of_lt hj]
  · have hne : j ≠ x := by
      rintro rfl
      exact hj hx
    rw [update_of_ne hne, treeCells_of_ge (Nat.not_lt.mp hj), treeCells_of_ge (Nat.not_lt.mp hj)]

theorem Spot.put {free : List (Layer α)} (h : Spot K L x p path free) (hlayer : p'.layer = p.layer)
    (hcells : p'.cells = update p.cells (place 32 x 0) c)
    (hcount : p'.count = tally K.counts p'.cells) (hc : K.Good c) :
    ∃ top, markUp (BitVec.ofNat 32 x) p' path = top ∧ TreeValid K L top free ∧
      treeCells L (.node top) = update (treeCells L (.node (plug p path))) x c := by
  have hL6 := h.le
  have hlevel := h.level
  have hpow : 32 ^ L ≤ 2 ^ 30 := Nat.pow_le_pow_right (n := 32) (by decide) hL6
  have hbound := h.bound
  have hleaf : Valid K 1 (p.full, .node p) := h.valid.focus (l := 0) (by omega)
  have hp' : Valid K 1 (p'.full, .node p') := hleaf.replace hlayer hcells hcount (.leaf hc)
  have hset : SetAt (32 ^ 1) x c (cell 1 (p.full, .node p)) (cell 1 (p'.full, .node p')) := by
    refine cell_replace hcells fun j => ?_
    rw [if_pos (by rw [Nat.pow_zero, Nat.mod_one, Nat.mod_one])]
    rfl
  obtain ⟨top, htop, hv, hset'⟩ :=
    h.valid.markUp_set (l := 0) (by omega) h.along (by omega) hp' hset
  rw [Nat.pow_zero, Nat.div_one] at htop
  refine ⟨top, htop, ⟨by omega, hL6, hv, h.free⟩, treeCells_set h.bound ?_⟩
  rw [cell_top (by omega) false (plug p path).full, cell_top (by omega) false top.full]
  exact hset'

end Filling

/-- The number under which `idr_find` and the others look for an id. -/
def key (id : Id) : Nat := (id &&& MAX_ID_MASK).toNat

theorem key_lt (id : Id) : key id < 2 ^ 31 := by
  have hle : key id ≤ MAX_ID_MASK.toNat := by
    exact Nat.and_le_right
  have hmask : MAX_ID_MASK.toNat = 2 ^ 31 - 1 := rfl
  omega

theorem key_ofNat (hx : x < 2 ^ 31) : key (BitVec.ofNat 32 x) = x := by
  have hmask : MAX_ID_MASK.toNat = 2 ^ 31 - 1 := rfl
  have hlow : x % 2 ^ 32 = x := Nat.mod_eq_of_lt (by omega)
  rw [key, toNat_and, hmask, Nat.and_two_pow_sub_one_eq_mod, toNat_ofNat, hlow, Nat.mod_eq_of_lt hx]

theorem ofNat_toNat_id (id : Id) : BitVec.ofNat 32 id.toNat = id := by
  rw [ofNat_toNat, setWidth_eq]

theorem ofNat_key (id : Id) : BitVec.ofNat 32 (key id) = id &&& MAX_ID_MASK :=
  ofNat_toNat_id _

section Finding

variable {K : Kind α} {s : Idr α}

theorem findAt_spec (hx : x < 2 ^ 31) (hv : Valid K h (b, slot)) :
    findAt (BitVec.ofNat 32 x) h slot = some (cell h (b, slot) x).2 := by
  induction h generalizing b slot with
  | zero => rfl
  | succ h ih =>
    cases slot with
    | null => rfl
    | item y => exact absurd hv not_valid_item
    | node p =>
      obtain ⟨-, hlayer, -, hplaces⟩ := hv.node_inv
      rw [findAt, if_neg (not_not.mpr hlayer.symm), idPlace_ofNat hx]
      exact ih (hplaces _)

theorem idrFind_spec (hs : s.Valid K) (id : Id) : idrFind s id = some (s.cells (key id)).2 := by
  cases hs with
  | @empty free _ =>
    rw [Idr.cells, treeCells_null]
    rfl
  | @tree L p free h =>
    have hkey := key_lt id
    have hpos := h.pos
    have hle := h.le
    obtain ⟨l, rfl⟩ : ∃ l, L = l + 1 := ⟨L - 1, by omega⟩
    obtain ⟨-, hlayer, -⟩ := h.valid.node_inv
    simp only [idrFind, hlayer, ← ofNat_key]
    by_cases hout : 32 ^ (l + 1) ≤ key id
    · rw [if_pos ((sle_ofNat hle hkey).mpr hout)]
      exact congrArg (fun c => some (Prod.snd c)) (treeCells_of_ge hout).symm
    · rw [if_neg (mt (sle_ofNat hle hkey).mp hout), findAt_spec hkey h.valid, Idr.cells,
        treeCells_of_lt (Nat.not_le.mp hout), cell_node, cell_node]

end Finding

end SpicaKernel.Ids
