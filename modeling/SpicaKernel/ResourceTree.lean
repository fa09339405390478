import SpicaKernel.Runs

namespace SpicaKernel.ResourceTree
open List
set_option autoImplicit true

/-- `struct resource` with its range, its first child and its next sibling, or `NULL`. -/
inductive Resource (ι : Type) where
  | null
  | node (name : ι) (start stop : Nat) (child sibling : Resource ι)

/-- The loop of `__request_resource` over the children. It fails with the range of the conflict. -/
def requestIn (n : ι) (s e : Nat) : Resource ι → Except (Nat × Nat) (Resource ι)
  | .null => .ok (.node n s e .null .null)
  | .node m ms me c sib =>
    if e < ms then .ok (.node n s e .null (.node m ms me c sib))
    else if me < s then (requestIn n s e sib).map (.node m ms me c)
    else .error (ms, me)

/-- `__request_resource` for the children of a root with a range. -/
def requestResource (root : Nat × Nat) (n : ι) (s e : Nat) (l : Resource ι) :
    Except (Nat × Nat) (Resource ι) :=
  if e < s ∨ s < root.1 ∨ root.2 < e then .error root else requestIn n s e l

/-- `__reserve_region_with_split` with `kzalloc` never failing and so many nested calls. -/
def reserveRegionWithSplit (root : Nat × Nat) (n : ι) :
    Nat → Nat → Nat → Resource ι → Option (Resource ι)
  | 0, _, _, _ => none
  | fuel + 1, s, e, l =>
    match requestResource root n s e l with
    | .ok l => some l
    | .error (cs, ce) =>
      if cs ≤ s ∧ e ≤ ce then some l
      else (if s < cs then reserveRegionWithSplit root n fuel s (cs - 1) l else some l).bind
        fun l => if ce < e then reserveRegionWithSplit root n fuel (ce + 1) e l else some l

/-- The children are inside the range and in order, and so are their children. -/
def WellFormed (lo hi : Nat) : Resource ι → Prop
  | .null => True
  | .node _ s e c sib =>
    lo ≤ s ∧ s ≤ e ∧ e ≤ hi ∧ WellFormed s e c ∧ WellFormed (e + 1) hi sib

def children : Resource ι → List (ι × Nat × Nat × Resource ι)
  | .null => []
  | .node n s e c sib => (n, s, e, c) :: children sib

/-- How many children cover an address. -/
def covers : Resource ι → Nat → Nat
  | .null, _ => 0
  | .node _ s e _ sib, x => (if s ≤ x ∧ x ≤ e then 1 else 0) + covers sib x

/-- A largest range of free addresses from `s` on and before `e`. -/
structure Gap (l : Resource ι) (s e : Nat) (r : Nat × Nat) : Prop where
  inside : s ≤ r.1 ∧ r.1 ≤ r.2 ∧ r.2 < e
  free : ∀ x, r.1 ≤ x → x ≤ r.2 → covers l x = 0
  left : r.1 = s ∨ covers l (r.1 - 1) ≠ 0
  right : r.2 + 1 = e ∨ covers l (r.2 + 1) ≠ 0

/-- The gaps from `s` on and before `e` have become children. -/
structure Filled (root : Nat × Nat) (n : ι) (s e : Nat) (l l' : Resource ι) : Prop where
  wellFormed : WellFormed root.1 root.2 l'
  added : ∃ gaps : List (Nat × Nat), (∀ r, r ∈ gaps ↔ Gap l s e r) ∧
    (children l').Perm (gaps.map (fun r => (n, r.1, r.2, .null)) ++ children l)
  covered : ∀ x, covers l' x = if s ≤ x ∧ x < e then 1 else covers l x

theorem WellFormed.covers_below (h : WellFormed lo hi l) (hx : x < lo) : covers l x = 0 := by
  induction l generalizing lo with
  | null => rfl
  | node n s e c sib _ ih =>
    obtain ⟨hs, hse, -, -, hsib⟩ := h
    rw [covers, ih hsib (by omega), if_neg (by omega)]

theorem WellFormed.mono (h : WellFormed lo hi l) (hlo : lo' ≤ lo) : WellFormed lo' hi l := by
  cases l with
  | null => trivial
  | node n s e c sib => exact ⟨Nat.le_trans hlo h.1, h.2⟩

/-- A request adds a child, or it finds one in the way. -/
theorem requestIn_spec (n : ι) (h : WellFormed lo hi l) (hs : lo ≤ s) (hse : s ≤ e) (he : e ≤ hi) :
    (∃ l', requestIn n s e l = .ok l' ∧ WellFormed lo hi l' ∧
      (children l').Perm ((n, s, e, .null) :: children l) ∧
      (∀ x, s ≤ x → x ≤ e → covers l x = 0) ∧
        ∀ x, covers l' x = if s ≤ x ∧ x ≤ e then 1 else covers l x) ∨
    ∃ cs ce, requestIn n s e l = .error (cs, ce) ∧ cs ≤ ce ∧ cs ≤ e ∧ s ≤ ce ∧
      ∀ x, cs ≤ x → x ≤ ce → covers l x = 1 := by
  induction l generalizing lo with
  | null =>
    refine .inl ⟨_, rfl, ⟨hs, hse, he, trivial, trivial⟩, .refl _, fun _ _ _ => rfl, fun x => ?_⟩
    simp [covers]
  | node m ms me c sib _ ih =>
    obtain ⟨hms, hme, hhi, hc, hsib⟩ := h
    rw [requestIn]
    split
    next hlt =>
      have hfree (x : Nat) (hx : x ≤ e) : covers (.node m ms me c sib) x = 0 := by
        rw [covers, hsib.covers_below (by omega), if_neg (by omega)]
      refine .inl ⟨_, rfl, ⟨hs, hse, he, trivial, by omega, hme, hhi, hc, hsib⟩, .refl _,
        fun x _ => hfree x, fun x => ?_⟩
      rw [covers]
      split
      next hx => rw [hfree x hx.2]
      next => rw [Nat.zero_add]
    next =>
      split
      next hlt =>
        rcases ih hsib (by omega) with ⟨l', hl', hw, hp, hfree, hcov⟩ |
          ⟨cs, ce, hcon, hle, hcs, hce, hone⟩
        · refine .inl ⟨.node m ms me c l', by rw [hl']; rfl, ⟨hms, hme, hhi, hc, hw⟩, ?_,
            fun x hx hx' => ?_, fun x => ?_⟩
          · exact (hp.cons _).trans (.swap _ _ _)
          · rw [covers, hfree x hx hx', if_neg (by omega)]
          · rw [covers, covers]
            grind
        · refine .inr ⟨cs, ce, by rw [hcon]; rfl, hle, hcs, hce, fun x hx hx' => ?_⟩
          have hge : me < x := by
            by_contra hlt'
            have := hsib.covers_below (x := x) (by omega)
            have := hone x hx hx'
            omega
          rw [covers, hone x hx hx', if_neg (by omega)]
      next =>
        refine .inr ⟨ms, me, rfl, hme, by omega, by omega, fun x hx hx' => ?_⟩
        rw [covers, if_pos ⟨hx, hx'⟩, hsib.covers_below (by omega)]

theorem Filled.guard [Decidable c] (h : WellFormed root.1 root.2 l) (hc : c ↔ s < e)
    (hf : s < e → ∃ l', f = some l' ∧ Filled root n s e l l') :
    ∃ l', (if c then f else some l) = some l' ∧ Filled root n s e l l' := by
  split
  next hlt => exact hf (hc.mp hlt)
  next hge =>
    rw [hc] at hge
    refine ⟨l, rfl, h, ⟨[], fun r => ⟨nofun, fun hgap => ?_⟩, .refl _⟩, fun x => ?_⟩
    · have := hgap.inside
      omega
    · rw [if_neg (by omega)]

theorem Filled.trans (h : Filled root n s cs l l₁) (h' : Filled root n (ce + 1) e l₁ l₂)
    (hle : cs ≤ ce) (hcs : cs < e) (hce : s ≤ ce)
    (hone : ∀ x, cs ≤ x → x ≤ ce → covers l x = 1) : Filled root n s e l l₂ := by
  have hcov := h.covered
  obtain ⟨gaps, hmem, hp⟩ := h.added
  obtain ⟨gaps', hmem', hp'⟩ := h'.added
  refine ⟨h'.wellFormed, ⟨gaps' ++ gaps, fun r => ?_, ?_⟩, fun x => ?_⟩
  · rw [mem_append, hmem, hmem']
    constructor
    · rintro (⟨hin, hfree, hl, hr⟩ | ⟨hin, hfree, hl, hr⟩)
      · refine ⟨by omega, fun x hx hx' => ?_, .inr ?_, ?_⟩
        · have := hfree x hx hx'
          grind
        · grind
        · grind
      · exact ⟨by omega, hfree, hl, .inr (by grind)⟩
    · rintro ⟨hin, hfree, hl, hr⟩
      rcases Nat.lt_or_ge r.2 cs with hlt | hge
      · exact .inr ⟨by omega, hfree, hl, by grind⟩
      · have hafter : ce < r.1 := by
          have := hfree (max r.1 cs)
          have := hone (max r.1 cs)
          omega
        refine .inl ⟨by omega, fun x hx hx' => ?_, by grind, by grind⟩
        grind
  · rw [map_append, List.append_assoc]
    exact hp'.trans (hp.append_left _)
  · rw [h'.covered]
    grind

theorem reserve_region_with_split_fills (root : Nat × Nat) (n : ι)
    (h : WellFormed root.1 root.2 l) (hs : root.1 ≤ s) (hse : s ≤ e) (he : e ≤ root.2)
    (hfuel : e - s < fuel) : ∃ l', reserveRegionWithSplit root n fuel s e l = some l' ∧
      Filled root n s (e + 1) l l' := by
  induction fuel generalizing s e l with
  | zero => omega
  | succ fuel ih =>
    rw [reserveRegionWithSplit, requestResource, if_neg (by omega)]
    rcases requestIn_spec n h hs hse he with ⟨l', hl', hw, hp, hfree, hcov⟩ |
      ⟨cs, ce, hcon, hle, hcs, hce, hone⟩
    · refine ⟨l', by rw [hl'], hw, ⟨[(s, e)], fun r => ?_, hp⟩, fun x => ?_⟩
      · rw [mem_singleton]
        constructor
        · rintro rfl
          exact ⟨⟨Nat.le_refl s, hse, Nat.lt_succ_self e⟩, hfree, .inl rfl, .inl rfl⟩
        · rintro ⟨hin, -, hl, hr⟩
          apply Prod.ext <;> grind
      · simpa [Nat.lt_succ_iff] using hcov x
    · rw [hcon]
      obtain ⟨l₁, he₁, h₁⟩ := Filled.guard h (.rfl : s < cs ↔ s < cs) fun hlt => by
        have hleft := ih (e := cs - 1) h hs (by omega) (by omega) (by omega)
        rwa [Nat.sub_add_cancel (by omega)] at hleft
      obtain ⟨l₂, he₂, h₂⟩ := Filled.guard h₁.wellFormed Nat.succ_lt_succ_iff.symm fun hlt =>
        ih (s := ce + 1) h₁.wellFormed (by omega) (by omega) he (by omega)
      refine ⟨l₂, ?_, h₁.trans h₂ hle (by omega) hce hone⟩
      dsimp only
      rw [he₁, Option.bind_some, he₂]
      split
      next hall =>
        rw [if_neg (by omega)] at he₁ he₂
        rw [← he₂, he₁]
      next => rfl

theorem reserve_region_with_split_fills_around :
    ∃ l', reserveRegionWithSplit (0, 9) 1 10 0 9 (.node 0 3 4 .null .null) = some l' ∧
      Filled (0, 9) 1 0 10 (.node 0 3 4 .null .null) l' :=
  reserve_region_with_split_fills (0, 9) 1 ⟨by decide, by decide, by decide, trivial, trivial⟩
    (by decide) (by decide) (by decide) (by decide)

/-- The loop of `__insert_resource` over the children to take over, with the rest of them. -/
def takeOver (s e : Nat) : Resource ι → Except (Nat × Nat) (Resource ι × Resource ι)
  | .null => .ok (.null, .null)
  | .node m ms me c sib =>
    if e < ms then .ok (.null, .node m ms me c sib)
    else if ms < s ∨ e < me then .error (ms, me)
    else (takeOver s e sib).map fun p => (.node m ms me c p.1, p.2)

/-- `__insert_resource` below a parent that contains `new`. The first child in the way becomes the
parent if it contains more than the range. -/
def insertIn (n : ι) (s e : Nat) : Resource ι → Except (Nat × Nat) (Resource ι)
  | .null => .ok (.node n s e .null .null)
  | .node m ms me c sib =>
    if e < ms then .ok (.node n s e .null (.node m ms me c sib))
    else if me < s then (insertIn n s e sib).map (.node m ms me c)
    else if ms ≤ s ∧ e ≤ me ∧ ¬ (ms = s ∧ me = e) then
      (insertIn n s e c).map fun c => .node m ms me c sib
    else (takeOver s e (.node m ms me c sib)).map fun p => .node n s e p.1 p.2

/-- The loop of `insert_resource_expand_to_fit`. Returns the range and the children of the root. -/
def expandToFit (root : Nat × Nat) (n : ι) :
    Nat → Nat → Nat → Resource ι → Option (Nat × Nat × Resource ι)
  | 0, _, _, _ => none
  | turns + 1, s, e, l =>
    if e < s ∨ s < root.1 ∨ root.2 < e then some (s, e, l)
    else match insertIn n s e l with
      | .ok l => some (s, e, l)
      | .error (cs, ce) => expandToFit root n turns (min s cs) (max e ce) l

def insertResourceExpandToFit (root : Nat × Nat) (n : ι) (hasParent : Bool) (turns s e : Nat)
    (l : Resource ι) : Option (Nat × Nat × Resource ι) :=
  if hasParent then some (s, e, l) else expandToFit root n turns s e l

/-- All nodes with their ranges. -/
def nodes : Resource ι → List (ι × Nat × Nat)
  | .null => []
  | .node n s e c sib => (n, s, e) :: (nodes c ++ nodes sib)

theorem takeOver_ok (h : WellFormed lo hi l) (hp : takeOver s e l = .ok p) :
    WellFormed (max lo s) e p.1 ∧ WellFormed (e + 1) hi p.2 ∧
      (nodes p.1 ++ nodes p.2).Perm (nodes l) := by
  induction l generalizing lo p with
  | null =>
    obtain rfl := Except.ok.inj hp
    exact ⟨trivial, trivial, .nil⟩
  | node m ms me c sib _ ih =>
    obtain ⟨hms, hme, hhi, hc, hsib⟩ := h
    rw [takeOver] at hp
    split at hp
    next hlt =>
      obtain rfl := Except.ok.inj hp
      exact ⟨trivial, ⟨hlt, hme, hhi, hc, hsib⟩, .refl _⟩
    next =>
      split at hp
      next => cases hp
      next hin =>
        obtain ⟨q, hq, rfl⟩ := map_eq_ok.mp hp
        obtain ⟨hinner, hrest, hperm⟩ := ih hsib hq
        refine ⟨⟨by omega, hme, by omega, hc, hinner.mono (by omega)⟩, hrest, ?_⟩
        simpa [nodes] using hperm.append_left _

theorem insertIn_ok (h : WellFormed lo hi l) (hs : lo ≤ s) (hse : s ≤ e) (he : e ≤ hi)
    (hl : insertIn n s e l = .ok l') :
    WellFormed lo hi l' ∧ (nodes l').Perm ((n, s, e) :: nodes l) := by
  induction l generalizing lo hi l' with
  | null =>
    obtain rfl := Except.ok.inj hl
    exact ⟨⟨hs, hse, he, trivial, trivial⟩, .refl _⟩
  | node m ms me c sib ihc ihs =>
    have hw := h
    obtain ⟨hms, hme, hhi, hc, hsib⟩ := h
    rw [insertIn] at hl
    split at hl
    next hlt =>
      obtain rfl := Except.ok.inj hl
      exact ⟨⟨hs, hse, he, trivial, hlt, hme, hhi, hc, hsib⟩, .refl _⟩
    next =>
      split at hl
      next hlt =>
        obtain ⟨sib', hq, rfl⟩ := map_eq_ok.mp hl
        obtain ⟨hw', hperm⟩ := ihs hsib hlt he hq
        refine ⟨⟨hms, hme, hhi, hc, hw'⟩, ?_⟩
        exact ((hperm.append_left _).trans perm_middle).cons _ |>.trans (.swap _ _ _)
      next =>
        split at hl
        next hin =>
          obtain ⟨c', hq, rfl⟩ := map_eq_ok.mp hl
          obtain ⟨hw', hperm⟩ := ihc hc hin.1 hin.2.1 hq
          exact ⟨⟨hms, hme, hhi, hw', hsib⟩, ((hperm.append_right _).cons _).trans (.swap _ _ _)⟩
        next =>
          obtain ⟨p, hp, rfl⟩ := map_eq_ok.mp hl
          obtain ⟨hinner, hrest, hperm⟩ := takeOver_ok hw hp
          exact ⟨⟨hs, hse, he, hinner.mono (by omega), hrest⟩, hperm.cons _⟩

/-- The range belongs to a node and is not inside of the new one. -/
def InTheWay (l : Resource ι) (s e : Nat) (c : Nat × Nat) : Prop :=
  (∃ m, (m, c) ∈ nodes l) ∧ (c.1 < s ∨ e < c.2)

theorem InTheWay.mono (h : InTheWay l s e c) (hsub : nodes l ⊆ nodes l') : InTheWay l' s e c :=
  ⟨h.1.imp fun _ hm => hsub hm, h.2⟩

theorem nodes_child_subset : nodes c ⊆ nodes (.node m ms me c sib) :=
  fun _ hx => mem_cons_of_mem _ (mem_append_left _ hx)

theorem nodes_sibling_subset : nodes sib ⊆ nodes (.node m ms me c sib) :=
  fun _ hx => mem_cons_of_mem _ (mem_append_right _ hx)

theorem takeOver_error (h : takeOver s e l = .error c) : InTheWay l s e c := by
  induction l with
  | null => cases h
  | node m ms me d sib _ ih =>
    rw [takeOver] at h
    split at h
    next => cases h
    next =>
      split at h
      next hpart =>
        obtain rfl := Except.error.inj h
        exact ⟨⟨m, mem_cons_self⟩, hpart⟩
      next => exact (ih (map_eq_error.mp h)).mono nodes_sibling_subset

theorem insertIn_error (h : insertIn n s e l = .error c) : InTheWay l s e c := by
  induction l with
  | null => cases h
  | node m ms me d sib ihd ihs =>
    rw [insertIn] at h
    split at h
    next => cases h
    next =>
      split at h
      next => exact (ihs (map_eq_error.mp h)).mono nodes_sibling_subset
      next =>
        split at h
        next => exact (ihd (map_eq_error.mp h)).mono nodes_child_subset
        next => exact takeOver_error (map_eq_error.mp h)

theorem WellFormed.inside (h : WellFormed lo hi l) (hm : (m, c) ∈ nodes l) :
    lo ≤ c.1 ∧ c.1 ≤ c.2 ∧ c.2 ≤ hi := by
  induction l generalizing lo hi with
  | null => cases hm
  | node n s e d sib ihd ihs =>
    obtain ⟨hs, hse, he, hd, hsib⟩ := h
    rcases mem_cons.mp hm with heq | hm
    · obtain ⟨-, rfl⟩ := Prod.mk.inj heq
      exact ⟨hs, hse, he⟩
    · rcases mem_append.mp hm with hm | hm
      · have := ihd hd hm
        omega
      · have := ihs hsib hm
        omega

/-- The new resource is in the tree, with ends that it had before or that another node has. -/
structure Inserted (root : Nat × Nat) (n : ι) (s e : Nat) (l : Resource ι)
    (r : Nat × Nat × Resource ι) : Prop where
  wellFormed : WellFormed root.1 root.2 r.2.2
  nodes : (nodes r.2.2).Perm ((n, r.1, r.2.1) :: nodes l)
  contains : r.1 ≤ s ∧ e ≤ r.2.1
  start : r.1 = s ∨ ∃ m stop, (m, r.1, stop) ∈ ResourceTree.nodes l
  stop : r.2.1 = e ∨ ∃ m start, (m, start, r.2.1) ∈ ResourceTree.nodes l

theorem expandToFit_spec (n : ι) (h : WellFormed root.1 root.2 l) (hse : s ≤ e)
    (hs : root.1 ≤ s) (he : e ≤ root.2) (hturns : s - root.1 + (root.2 - e) < turns) :
    ∃ r, expandToFit root n turns s e l = some r ∧ Inserted root n s e l r := by
  induction turns generalizing s e with
  | zero => omega
  | succ turns ih =>
    rw [expandToFit, if_neg (by omega)]
    cases hl : insertIn n s e l with
    | ok l' =>
      obtain ⟨hw, hp⟩ := insertIn_ok h hs hse he hl
      exact ⟨_, rfl, hw, hp, ⟨Nat.le_refl s, Nat.le_refl e⟩, .inl rfl, .inl rfl⟩
    | error c =>
      obtain ⟨⟨m, hm⟩, hpart⟩ := insertIn_error hl
      have hin := h.inside hm
      obtain ⟨r, hr, hi⟩ := ih (s := min s c.1) (e := max e c.2) (by omega) (by omega) (by omega)
        (by omega)
      have hc := hi.contains
      refine ⟨r, hr, hi.wellFormed, hi.nodes, by omega, ?_, ?_⟩
      · rcases hi.start with hr | hr
        · rcases Nat.le_total s c.1 with hle | hle
          · exact .inl (hr.trans (Nat.min_eq_left hle))
          · exact .inr ⟨m, c.2, by rwa [hr, Nat.min_eq_right hle]⟩
        · exact .inr hr
      · rcases hi.stop with hr | hr
        · rcases Nat.le_total c.2 e with hle | hle
          · exact .inl (hr.trans (Nat.max_eq_left hle))
          · exact .inr ⟨m, c.1, by rwa [hr, Nat.max_eq_right hle]⟩
        · exact .inr hr

theorem insert_resource_expand_to_fit_inserts (root : Nat × Nat) (n : ι)
    (h : WellFormed root.1 root.2 l) (hse : s ≤ e) :
    (root.1 ≤ s ∧ e ≤ root.2 → ∀ turns > s - root.1 + (root.2 - e),
      ∃ r, insertResourceExpandToFit root n false turns s e l = some r ∧
        Inserted root n s e l r) ∧
    (¬ (root.1 ≤ s ∧ e ≤ root.2) → ∀ turns > 0,
      insertResourceExpandToFit root n false turns s e l = some (s, e, l)) ∧
    ∀ turns, insertResourceExpandToFit root n true turns s e l = some (s, e, l) := by
  refine ⟨fun hin turns ht => expandToFit_spec n h hse hin.1 hin.2 ht,
    fun hout turns ht => ?_, fun _ => rfl⟩
  obtain ⟨turns, rfl⟩ := Nat.exists_eq_succ_of_ne_zero (Nat.ne_of_gt ht)
  rw [insertResourceExpandToFit, if_neg (by decide), expandToFit, if_pos (by omega)]

theorem insert_resource_expand_to_fit_inserts_over :
    ∃ r, insertResourceExpandToFit (0, 9) 1 false 10 2 3 (.node 0 3 4 .null .null) = some r ∧
      Inserted (0, 9) 1 2 3 (.node 0 3 4 .null .null) r :=
  (insert_resource_expand_to_fit_inserts (0, 9) 1 (l := .node 0 3 4 .null .null)
    ⟨by decide, by decide, by decide, trivial, trivial⟩ (by decide)).1 (by decide) 10 (by decide)

end SpicaKernel.ResourceTree
