import SpicaKernel.RadixTreeDelete

namespace SpicaKernel.RadixTree
open Digits Scan List BitVec
set_option autoImplicit true

theorem offsets_cons (hk : k < 64) :
    (finRange 64).drop k = (⟨k, hk⟩ : Offset) :: (finRange 64).drop (k + 1) := by
  rw [drop_eq_getElem_cons (by simpa using hk)]
  simp

theorem offsets_nil : (finRange 64).drop 64 = [] := by
  simp

theorem place_zero_eq (hk : k < 64) (hx : x = q * 64 + k) : place 64 x 0 = ⟨k, hk⟩ := by
  apply Fin.ext
  change x / 64 ^ 0 % 64 = k
  omega

def grabbed (n : Node) (wanted : Offset → Bool) (j : Nat) : Option Slot :=
  if wanted (place 64 j 0) then some (n.slots (place 64 j 0)) else none

theorem grabItems_eq (n : Node) (wanted : Offset → Bool) (hd : k + d = 64) (hx : x = q * 64 + k)
    (hlen : results.length < most) :
    ∃ found y, grabItems n wanted most ((finRange 64).drop k) (BitVec.ofNat 32 x) results =
        (results ++ found, BitVec.ofNat 32 y) ∧ x ≤ y ∧ (k < 64 → x < y) ∧ y ≤ q * 64 + 64 ∧
      found = between (grabbed n wanted) x y ∧ (results ++ found).length ≤ most := by
  induction d generalizing k x results with
  | zero =>
    obtain rfl : k = 64 := hd
    refine ⟨[], x, ?_, Nat.le_refl x, by omega, by omega, (between_self _ x).symm, ?_⟩
    · rw [offsets_nil, grabItems, append_nil]
    · rw [append_nil]
      omega
  | succ d ih =>
    have hk : k < 64 := by omega
    have hplace := place_zero_eq hk hx
    have hnext : BitVec.ofNat 32 x + 1 = BitVec.ofNat 32 (x + 1) := ofNat_add_ofNat x 1
    have hx' : x + 1 = q * 64 + (k + 1) := by omega
    rw [offsets_cons hk, grabItems, hnext]
    cases hw : wanted ⟨k, hk⟩ with
    | true =>
      have hhead : between (grabbed n wanted) x (x + 1) = [n.slots ⟨k, hk⟩] := by
        rw [between_succ, grabbed, hplace, if_pos hw]
        rfl
      by_cases hfull : (results ++ [n.slots ⟨k, hk⟩]).length = most
      · refine ⟨[n.slots ⟨k, hk⟩], x + 1, if_pos hfull, by omega, by omega, by omega, hhead.symm,
          Nat.le_of_eq hfull⟩
      · rw [if_neg hfull]
        have hmore : (results ++ [n.slots ⟨k, hk⟩]).length < most := by
          rw [length_append, length_singleton] at hfull ⊢
          omega
        obtain ⟨found, y, hrun, hle, -, hy, hfound, hshort⟩ := ih (k := k + 1) (by omega) hx' hmore
        refine ⟨n.slots ⟨k, hk⟩ :: found, y, ?_, by omega, by omega, hy, ?_, ?_⟩
        · rw [hrun, List.append_assoc]
          rfl
        · rw [between_append (Nat.le_succ x) hle, hhead, hfound]
          rfl
        · rw [List.append_assoc] at hshort
          exact hshort
    | false =>
      have hhead : between (grabbed n wanted) x (x + 1) = [] := by
        rw [between_succ, grabbed, hplace, hw]
        rfl
      obtain ⟨found, y, hrun, hle, -, hy, hfound, hshort⟩ := ih (k := k + 1) (by omega) hx' hlen
      refine ⟨found, y, hrun, by omega, by omega, hy, ?_, hshort⟩
      rw [between_append (Nat.le_succ x) hle, hhead, hfound]
      rfl

/-- The indices from `x` up to `y` are in unwanted slots of the node with the higher digits `q`. -/
def Skipped (wanted : Offset → Bool) (l q x y : Nat) : Prop :=
  ∀ j, x ≤ j → j < y → wanted (place 64 j l) = false ∧ j / 64 ^ (l + 1) = q

theorem skip_le (hl : l ≤ 5) (hx : x < 2 ^ 32) : (x / 64 ^ l + 1) * 64 ^ l ≤ 2 ^ 32 := by
  have hpow : 64 ^ l = 2 ^ (6 * l) := by rw [Nat.pow_mul]
  rw [hpow]
  exact next_le_pow (by decide) hx (by omega)

theorem skipSlots_eq (wanted : Offset → Bool) (hl : l ≤ 5) (hd : k + d = 64)
    (hx : x / 64 ^ l = q * 64 + k) (hlt : x < 2 ^ 32) :
    (∃ i y, skipSlots wanted (l * 6) ((finRange 64).drop k) (BitVec.ofNat 32 x) =
        .ok (i, BitVec.ofNat 32 y) ∧ wanted i ∧ x ≤ y ∧ y < 2 ^ 32 ∧ y / 64 ^ l = q * 64 + i ∧
        Skipped wanted l q x y) ∨
      ∃ y, skipSlots wanted (l * 6) ((finRange 64).drop k) (BitVec.ofNat 32 x) =
        .error (BitVec.ofNat 32 y) ∧ x ≤ y ∧ (k < 64 → x < y) ∧ y ≤ 2 ^ 32 ∧
        Skipped wanted l q x y := by
  induction d generalizing k x with
  | zero =>
    obtain rfl : k = 64 := hd
    refine .inr ⟨x, ?_, Nat.le_refl x, by omega, Nat.le_of_lt hlt, fun j hj hj' => by omega⟩
    rw [offsets_nil, skipSlots]
  | succ d ih =>
    have hk : k < 64 := by omega
    have hpos : 0 < 64 ^ l := Nat.pow_pos (by decide)
    rw [offsets_cons hk, skipSlots]
    cases hw : wanted ⟨k, hk⟩ with
    | true =>
      exact .inl ⟨⟨k, hk⟩, x, if_pos rfl, hw, Nat.le_refl x, hlt, hx, fun j hj hj' => by omega⟩
    | false =>
      have hshift : 2 ^ (l * 6) = 64 ^ l := by rw [Nat.mul_comm, Nat.pow_mul]
      have hbump : (BitVec.ofNat 32 x &&& ~~~(1#32 <<< (l * 6) - 1#32)) + 1#32 <<< (l * 6) =
          BitVec.ofNat 32 ((x / 64 ^ l + 1) * 64 ^ l) := by
        rw [ofNat_skip (by omega) hlt, hshift]
      have hle := skip_le hl hlt
      have hgt := lt_next (b := 64) (by decide) x l
      have hskip : Skipped wanted l q x ((x / 64 ^ l + 1) * 64 ^ l) := by
        intro j hj hj'
        have hdiv : j / 64 ^ l = q * 64 + k := (div_eq_of_lt_next (by decide) hj hj').trans hx
        have hplace : place 64 j l = ⟨k, hk⟩ := by
          apply Fin.ext
          change j / 64 ^ l % 64 = k
          omega
        refine ⟨by rw [hplace, hw], ?_⟩
        rw [div_pow_succ]
        omega
      generalize hy : (x / 64 ^ l + 1) * 64 ^ l = y at *
      simp only [Bool.false_eq_true, if_false, hbump]
      by_cases hwrap : BitVec.ofNat 32 y = 0#32
      · exact .inr ⟨y, if_pos hwrap, Nat.le_of_lt hgt, fun _ => hgt, hle, hskip⟩
      · rw [if_neg hwrap]
        have hy32 : y < 2 ^ 32 := by
          refine Nat.lt_of_le_of_ne hle ?_
          rintro rfl
          exact hwrap rfl
        have hdiv : y / 64 ^ l = q * 64 + (k + 1) := by
          rw [← hy, Nat.mul_div_cancel _ hpos, hx, Nat.add_assoc]
        have hglue : ∀ {z}, y ≤ z → Skipped wanted l q y z → Skipped wanted l q x z := by
          intro z _ hrest j hj hj'
          by_cases hjy : j < y
          · exact hskip j hj hjy
          · exact hrest j (Nat.not_lt.mp hjy) hj'
        rcases ih (k := k + 1) (by omega) hdiv hy32 with
          ⟨i, z, hrun, hwi, hyz, hz, hzdiv, hrest⟩ | ⟨z, hrun, hyz, -, hz, hrest⟩
        · exact .inl ⟨i, z, hrun, hwi, by omega, hz, hzdiv, hglue hyz hrest⟩
        · exact .inr ⟨z, hrun, by omega, fun _ => by omega, hz, hglue hyz hrest⟩

/-- The item that a lookup is to return for an index, among the entries it looks for. -/
def chosen (p : Entry → Bool) (b : Option Entry) : Option Slot :=
  (b.filter p).map fun e => .item e.1

theorem chosen_none (p : Entry → Bool) : chosen p none = none := rfl

structure NodePart (p : Entry → Bool) (h : Nat) (slot : Slot) (tags : Flags) (x most : Nat)
    (found : List Slot) (y : Nat) : Prop where
  part : Part (fun j => chosen p (slot.entry h tags j)) x most found y
  bound : y ≤ 2 ^ 32
  inside : ∀ j, x ≤ j → j < y → j / 64 ^ h = x / 64 ^ h

theorem place_eq_of_div {i : Offset} {j q : Nat} (hj : j / 64 ^ l = q * 64 + i) :
    place 64 j l = i := by
  apply Fin.ext
  change j / 64 ^ l % 64 = i
  omega

section Node

variable {n : Node} {p : Entry → Bool} {wanted : Offset → Bool}

def Idle (p : Entry → Bool) (wanted : Offset → Bool) (l : Nat) (n : Node) : Prop :=
  ∀ o, wanted o = false → ∀ j, chosen p (Slot.entry l (n.slots o) (n.flags o) j) = none

theorem Skipped.none (hs : Skipped wanted l q x y) (hidle : Idle p wanted l n) (tags : Flags) :
    ∀ j, x ≤ j → j < y → chosen p (Slot.entry (l + 1) (.node n) tags j) = none := by
  intro j hj hj'
  exact hidle _ (hs j hj hj').1 j

theorem Skipped.nodePart (hs : Skipped wanted l q x y) (hidle : Idle p wanted l n) (hxy : x < y)
    (hy : y ≤ 2 ^ 32) : NodePart p (l + 1) (.node n) tags x most [] y := by
  refine ⟨.nothing hxy (hs.none hidle tags), hy, fun j hj hj' => ?_⟩
  rw [(hs j hj hj').2, (hs x (Nat.le_refl x) hxy).2]

theorem NodePart.ofChild {i : Offset} (hs : Skipped wanted l (x / 64 ^ (l + 1)) x y)
    (hidle : Idle p wanted l n) (hxy : x ≤ y) (hy : y / 64 ^ l = x / 64 ^ (l + 1) * 64 + i)
    (hpart : NodePart p l (n.slots i) (n.flags i) y most found z) :
    NodePart p (l + 1) (.node n) tags x most found z := by
  have hchild : ∀ j, y ≤ j → j < z → j / 64 ^ l = x / 64 ^ (l + 1) * 64 + i :=
    fun j hj hj' => (hpart.inside j hj hj').trans hy
  refine ⟨.skip (.congr hpart.part fun j hj hj' => ?_) hxy (hs.none hidle tags), hpart.bound,
    fun j hj hj' => ?_⟩
  · rw [Slot.entry_node, place_eq_of_div (hchild j hj hj')]
  · by_cases hjy : j < y
    · exact (hs j hj hjy).2
    · have hdiv := hchild j (Nat.not_lt.mp hjy) hj'
      rw [div_pow_succ]
      omega

theorem grabItems_nodePart
    (hgrab : ∀ j, grabbed n wanted j = chosen p (Slot.entry 1 (.node n) tags j)) (hx : x < 2 ^ 32)
    (hmost : 0 < most) : ∃ found y,
      grabItems n wanted most (offsetsFrom (offset (BitVec.ofNat 32 x) 0)) (BitVec.ofNat 32 x) [] =
        (found, BitVec.ofNat 32 y) ∧ NodePart p 1 (.node n) tags x most found y := by
  have hdrop : offsetsFrom (offset (BitVec.ofNat 32 x) 0) = (finRange 64).drop (x % 64) := by
    rw [offset_eq, toNat_ofNat, Nat.mod_eq_of_lt hx]
    change (finRange 64).drop (x / 64 ^ 0 % 64) = _
    rw [Nat.pow_zero, Nat.div_one]
  have hq : x = x / 64 * 64 + x % 64 := by omega
  have hlen : ([] : List Slot).length < most := hmost
  obtain ⟨found, y, hrun, hle, hgt, hy, hfound, hshort⟩ :=
    grabItems_eq (k := x % 64) (d := 64 - x % 64) n wanted (by omega) hq hlen
  refine ⟨found, y, by rw [hdrop, hrun, nil_append], ⟨hgt (by omega), hshort, ?_⟩, by omega,
    fun j hj hj' => ?_⟩
  · rw [hfound]
    exact between_congr fun j _ _ => hgrab j
  · rw [Nat.pow_one]
    omega

theorem skipSlots_nodePart (wanted : Offset → Bool) (hl : l ≤ 5) (hx : x < 2 ^ 32)
    (hidle : Idle p wanted l n) :
    (∃ i y, skipSlots wanted (l * 6) (offsetsFrom (offset (BitVec.ofNat 32 x) l))
          (BitVec.ofNat 32 x) = .ok (i, BitVec.ofNat 32 y) ∧ wanted i ∧ x ≤ y ∧ y < 2 ^ 32 ∧
        y / 64 ^ l = x / 64 ^ (l + 1) * 64 + i ∧ Skipped wanted l (x / 64 ^ (l + 1)) x y) ∨
      ∃ y, skipSlots wanted (l * 6) (offsetsFrom (offset (BitVec.ofNat 32 x) l))
          (BitVec.ofNat 32 x) = .error (BitVec.ofNat 32 y) ∧
        ∀ tags most, NodePart p (l + 1) (.node n) tags x most [] y := by
  have hdrop : offsetsFrom (offset (BitVec.ofNat 32 x) l) =
      (finRange 64).drop (x / 64 ^ l % 64) := by
    rw [offset_eq, toNat_ofNat, Nat.mod_eq_of_lt hx]
    rfl
  have hk : x / 64 ^ l % 64 < 64 := Nat.mod_lt _ (by decide)
  have hq : x / 64 ^ l = x / 64 ^ (l + 1) * 64 + x / 64 ^ l % 64 := by
    rw [div_pow_succ]
    omega
  rw [hdrop]
  rcases skipSlots_eq (d := 64 - x / 64 ^ l % 64) wanted hl (by omega) hq hx with
    hok | ⟨y, hrun, -, hgt, hy, hs⟩
  · exact .inl hok
  · exact .inr ⟨y, hrun, fun _ _ => hs.nodePart hidle (hgt hk) hy⟩

end Node

def everything : Entry → Bool := fun _ => true

theorem filter_everything (b : Option Entry) : b.filter everything = b := by
  cases b <;> rfl

theorem filled_idle (l : Nat) (n : Node) : Idle everything n.filled l n := by
  intro o ho j
  have hnull : n.slots o = .null := Slot.isNull_iff.mp (by simpa [NodeOf.filled] using ho)
  rw [hnull, Slot.entry_null, chosen_none]

theorem tag_idle (t : Tag) (hslots : ∀ o, Slot.Valid l (n.slots o) (n.flags o)) :
    Idle (fun e => e.2 t) (n.tags t) l n := by
  intro o ho j
  have htag := (hslots o).tag_iff t
  cases he : Slot.entry l (n.slots o) (n.flags o) j with
  | none => rfl
  | some e =>
    have hoff : e.2 t = false := by
      by_contra hon
      have hlt : j % 64 ^ l < 64 ^ l := Nat.mod_lt _ (Nat.pow_pos (by decide))
      have hat : Slot.entry l (n.slots o) (n.flags o) (j % 64 ^ l) = some e := by
        rw [← he]
        exact Slot.entry_congr (Nat.mod_mod _ _)
      have hset := htag.mpr ⟨_, hlt, e, hat, by simpa using hon⟩
      exact absurd (hset.symm.trans ho) (by decide)
    simp [chosen, hoff]

theorem Slot.Valid.bottom (hv : Slot.Valid 1 (.node n) tags) (j : Nat) :
    Slot.entry 1 (.node n) tags j = none ∧ n.filled (place 64 j 0) = false ∨
      ∃ x, n.slots (place 64 j 0) = .item x ∧
        Slot.entry 1 (.node n) tags j = some (x, n.flags (place 64 j 0)) := by
  rw [Slot.entry_node]
  cases hv with
  | node _ _ _ hslots =>
    have hslot := hslots (place 64 j 0)
    cases hs : n.slots (place 64 j 0) with
    | null => exact .inl ⟨rfl, by simp [NodeOf.filled, hs, Slot.isNull]⟩
    | item x => exact .inr ⟨x, rfl, rfl⟩
    | node m =>
      rw [hs] at hslot
      cases hslot

theorem Slot.Valid.grabbed_filled (hv : Slot.Valid 1 (.node n) tags) (j : Nat) :
    grabbed n n.filled j = chosen everything (Slot.entry 1 (.node n) tags j) := by
  rcases hv.bottom j with ⟨he, hf⟩ | ⟨x, hs, he⟩
  · rw [he, grabbed, hf]
    rfl
  · have hf : n.filled (place 64 j 0) = true := by simp [NodeOf.filled, hs, Slot.isNull]
    rw [he, grabbed, hf, hs]
    rfl

theorem Slot.Valid.grabbed_tag (t : Tag) (hv : Slot.Valid 1 (.node n) tags) (j : Nat) :
    grabbed n (fun o => n.tags t o && n.filled o) j =
      chosen (fun e => e.2 t) (Slot.entry 1 (.node n) tags j) := by
  rcases hv.bottom j with ⟨he, hf⟩ | ⟨x, hs, he⟩
  · rw [he, grabbed, hf, Bool.and_false]
    rfl
  · have hf : n.filled (place 64 j 0) = true := by simp [NodeOf.filled, hs, Slot.isNull]
    rw [he, grabbed, hf, hs]
    cases htag : n.tags t (place 64 j 0) <;> simp [chosen, NodeOf.flags, htag]

theorem Slot.Valid.child (hv : Slot.Valid (h + 1) s tags) (hs : s ≠ .null) : ∃ n, s = .node n := by
  cases hv with
  | null => exact absurd rfl hs
  | node => exact ⟨_, rfl⟩

theorem lookup_nodePart (hv : Slot.Valid (h + 1) (.node n) tags) (hh : h ≤ 5)
    (hx : x < 2 ^ 32) (hmost : 0 < most) :
    ∃ found y, lookup most (h + 1) n (BitVec.ofNat 32 x) = some (found, BitVec.ofNat 32 y) ∧
      NodePart everything (h + 1) (.node n) tags x most found y := by
  induction h generalizing n tags x with
  | zero =>
    obtain ⟨found, y, hrun, hpart⟩ := grabItems_nodePart hv.grabbed_filled hx hmost
    exact ⟨found, y, by rw [lookup, hrun], hpart⟩
  | succ h ih =>
    have hslots : ∀ o, Slot.Valid (h + 1) (n.slots o) (n.flags o) := by
      cases hv with
      | node _ _ _ hslots => exact hslots
    rcases skipSlots_nodePart n.filled hh hx (filled_idle (h + 1) n) with
      ⟨i, y, hrun, hwanted, hxy, hy, hdiv, hskip⟩ | ⟨y, hrun, hpart⟩
    · have hne : n.slots i ≠ .null := by
        intro hnull
        simp [NodeOf.filled, hnull, Slot.isNull] at hwanted
      obtain ⟨m, hm⟩ := (hslots i).child hne
      obtain ⟨found, z, hlook, hpart⟩ := ih (hm ▸ hslots i) (by omega) hy
      rw [← hm] at hpart
      refine ⟨found, z, ?_, .ofChild hskip (filled_idle (h + 1) n) hxy hdiv hpart⟩
      simp only [lookup, hrun, hm]
      exact hlook
    · exact ⟨[], y, by simp only [lookup, hrun], hpart tags most⟩

theorem lookupTag_nodePart (t : Tag) (hv : Slot.Valid (h + 1) (.node n) tags)
    (hh : h ≤ 5) (hx : x < 2 ^ 32) (hmost : 0 < most) :
    ∃ found y, lookupTag t most (h + 1) n (BitVec.ofNat 32 x) = some (found, BitVec.ofNat 32 y) ∧
      NodePart (fun e => e.2 t) (h + 1) (.node n) tags x most found y := by
  induction h generalizing n tags x with
  | zero =>
    have hslots : ∀ o, Slot.Valid 0 (n.slots o) (n.flags o) := by
      cases hv with
      | node _ _ _ hslots => exact hslots
    rcases skipSlots_nodePart (n.tags t) hh hx (tag_idle t hslots) with
      ⟨i, y, hrun, hwanted, hxy, hy, hdiv, hskip⟩ | ⟨y, hrun, hpart⟩
    · obtain ⟨found, z, hgrab, hpart⟩ := grabItems_nodePart (hv.grabbed_tag t) hy hmost
      refine ⟨found, z, ?_, hpart.part.skip hxy (hskip.none (tag_idle t hslots) tags), hpart.bound,
        fun j hj hj' => ?_⟩
      · simp only [lookupTag, hrun]
        simp [hgrab]
      · by_cases hjy : j < y
        · exact (hskip j hj hjy).2
        · have hlt := i.isLt
          rw [hpart.inside j (Nat.not_lt.mp hjy) hj', div_pow_succ]
          omega
    · exact ⟨[], y, by simp only [lookupTag, hrun], hpart tags most⟩
  | succ h ih =>
    have hslots : ∀ o, Slot.Valid (h + 1) (n.slots o) (n.flags o) := by
      cases hv with
      | node _ _ _ hslots => exact hslots
    rcases skipSlots_nodePart (n.tags t) hh hx (tag_idle t hslots) with
      ⟨i, y, hrun, hwanted, hxy, hy, hdiv, hskip⟩ | ⟨y, hrun, hpart⟩
    · have hne : n.slots i ≠ .null := by
        intro hnull
        have hno := congrFun ((hslots i).tags_of_null (by rw [hnull]; rfl)) t
        exact absurd (hwanted.symm.trans hno) (by simp [noTags])
      obtain ⟨m, hm⟩ := (hslots i).child hne
      obtain ⟨found, z, hlook, hpart⟩ := ih (hm ▸ hslots i) (by omega) hy
      rw [← hm] at hpart
      refine ⟨found, z, ?_, .ofChild hskip (tag_idle t hslots) hxy hdiv hpart⟩
      rw [lookupTag, hrun]
      simp [hm, hlook]
    · exact ⟨[], y, by simp only [lookupTag, hrun], hpart tags most⟩

section Loop

variable {f : Nat → Option Slot} {scan : Nat → Index → Option (List Slot × Index)}
  {maxIndex : Index} {maxItems : Nat}

theorem gangLoop_eq (hscan : ∀ k x, 0 < k → x < 2 ^ 32 → ¬ maxIndex < BitVec.ofNat 32 x → ∃ found y,
      scan k (BitVec.ofNat 32 x) = some (found, BitVec.ofNat 32 y) ∧ y ≤ 2 ^ 32 ∧
        Part f x k found y)
    (htail : ∀ x, x < 2 ^ 32 → maxIndex < BitVec.ofNat 32 x → ∀ j, x ≤ j → f j = none)
    (hx : x < 2 ^ 32) (hfuel : 2 ^ 32 - x ≤ fuel) (hfirst : first ≤ x)
    (hresults : results = between f first x) (hlen : results.length ≤ maxItems) :
    gangLoop scan maxIndex maxItems fuel (BitVec.ofNat 32 x) results =
      some ((between f first (2 ^ 32)).take maxItems) := by
  have hsplit := between_append (f := f) hfirst (Nat.le_of_lt hx)
  induction fuel generalizing x results with
  | zero => omega
  | succ fuel ih =>
    rw [gangLoop]
    by_cases hmore : results.length < maxItems
    · rw [if_pos hmore]
      by_cases hend : maxIndex < BitVec.ofNat 32 x
      · rw [if_pos hend, hsplit, between_eq_nil fun j hj _ => htail x hx hend j hj,
          append_nil, ← hresults, take_of_length_le hlen]
      · obtain ⟨found, y, hrun, hy, hpart⟩ :=
          hscan (maxItems - results.length) x (by omega) hx hend
        have hgt := hpart.lt
        have hresults' : results ++ found = between f first y := by
          rw [between_append hfirst (Nat.le_of_lt hgt), hresults, hpart.eq]
        have hlen' : (results ++ found).length ≤ maxItems := by
          have hshort := hpart.short
          rw [length_append]
          omega
        simp only [if_neg hend, hrun, Option.bind_eq_bind, Option.bind_some]
        by_cases hwrap : BitVec.ofNat 32 y = 0#32
        · have hy32 : y = 2 ^ 32 := by
            have hzero := congrArg BitVec.toNat hwrap
            change y % 2 ^ 32 = 0 at hzero
            omega
          rw [if_pos hwrap, ← hy32, ← hresults', take_of_length_le hlen']
        · have hy32 : y < 2 ^ 32 := by
            refine Nat.lt_of_le_of_ne hy ?_
            rintro rfl
            exact hwrap rfl
          rw [if_neg hwrap]
          exact ih hy32 (by omega) (by omega) hresults' hlen'
            (between_append (by omega) (Nat.le_of_lt hy32))
    · rw [if_neg hmore, hsplit, ← hresults, take_append_of_le_length (by omega),
        take_of_length_le hlen]

end Loop

theorem Root.Valid.gangLoop_eq {r : Root} (p : Entry → Bool) (hr : r.Valid)
    (scan : Nat → Index → Option (List Slot × Index))
    (hscan : ∀ k x, 0 < k → x < 2 ^ 32 → ∃ found y,
      scan k (BitVec.ofNat 32 x) = some (found, BitVec.ofNat 32 y) ∧
        NodePart p r.height r.rnode r.tags x k found y)
    (first : Index) (hfuel : 2 ^ 32 < fuel) :
    gangLoop scan (maxindex r.height) maxItems fuel first [] =
      some ((between (fun j => chosen p (r.entries j)) first.toNat (2 ^ 32)).take maxItems) := by
  have hback : ∀ {x}, x < 2 ^ 32 → (maxindex r.height < BitVec.ofNat 32 x ↔ 64 ^ r.height ≤ x) := by
    intro x hx
    rw [maxindex_lt_iff hr.height, toNat_ofNat, Nat.mod_eq_of_lt hx]
  have hfirst : BitVec.ofNat 32 first.toNat = first := by simp
  rw [← hfirst]
  refine (RadixTree.gangLoop_eq ?_ ?_ first.isLt (by omega) (Nat.le_refl _)
    (between_self _ _).symm (Nat.zero_le _)).trans (by rw [hfirst])
  · intro k x hk hx hend
    have hxh : x < 64 ^ r.height := Nat.not_le.mp (mt (hback hx).mpr hend)
    obtain ⟨found, y, hrun, hpart⟩ := hscan k x hk hx
    refine ⟨found, y, hrun, hpart.bound, hpart.part.congr fun j hj hj' => ?_⟩
    have hin : j < 64 ^ r.height := by
      have hzero := hpart.inside j hj hj'
      rw [Nat.div_eq_of_lt hxh] at hzero
      exact (Nat.div_eq_zero_iff_lt (Nat.pow_pos (by decide))).mp hzero
    rw [Root.entries, if_pos hin]
  · intro x hx hend j hj
    have hout : ¬ j < 64 ^ r.height := Nat.not_lt.mpr (Nat.le_trans ((hback hx).mp hend) hj)
    rw [Root.entries, if_neg hout, chosen_none]

theorem Root.between_item {r : Root} (hs : r.rnode = .item x)
    (hh : r.height = 0) (hp : p (x, r.tags) = true) (first : Index) (hmax : 1 ≤ maxItems) :
    (between (fun j => chosen p (r.entries j)) first.toNat (2 ^ 32)).take maxItems =
      if 0#32 < first then [] else [.item x] := by
  have hrest : ∀ j, 1 ≤ j → chosen p (r.entries j) = none := by
    intro j hj
    have hout : ¬ j < 64 ^ r.height := by
      rw [hh]
      exact Nat.not_lt.mpr hj
    rw [Root.entries, if_neg hout, chosen_none]
  by_cases hi : 0#32 < first
  · have hpos : 1 ≤ first.toNat := lt_def.mp hi
    rw [if_pos hi, between_eq_nil fun j hj _ => hrest j (Nat.le_trans hpos hj), take_nil]
  · have hzero : first.toNat = 0 := Nat.le_zero.mp (Nat.not_lt.mp hi)
    have hat : chosen p (r.entries 0) = some (.item x) := by
      simp [Root.entries, hh, hs, Slot.entry, chosen, hp]
    rw [if_neg hi, hzero, between_append (Nat.zero_le 1) (by decide), between_succ, hat,
      between_eq_nil fun j hj _ => hrest j hj]
    exact take_of_length_le hmax

theorem radixTreeGangLookup_eq (hr : r.Valid) (first : Index) (hmax : 1 ≤ maxItems)
    (hfuel : 2 ^ 32 < fuel) : radixTreeGangLookup fuel r first maxItems =
      some ((between (fun j => chosen everything (r.entries j)) first.toNat (2 ^ 32)).take
        maxItems) := by
  rcases hr.forms with hs | ⟨x, hs, hh⟩ | ⟨n, h, hs, hh, hn⟩
  · rw [between_eq_nil fun j _ _ => by simp [Root.entries, hs, chosen]]
    simp [radixTreeGangLookup, hs]
  · rw [Root.between_item hs hh rfl first hmax]
    simp only [radixTreeGangLookup, hs]
  · have hbound := hr.height
    have hslot := hr.slot
    simp only [radixTreeGangLookup, hs, hn]
    refine hr.gangLoop_eq everything (fun k cur => lookup k r.height n cur) ?_ first hfuel
    intro k x hk hx
    rw [hs, hh] at hslot ⊢
    exact lookup_nodePart hslot (by omega) hx hk

theorem radixTreeGangLookupTag_eq (t : Tag) (hr : r.Valid) (first : Index)
    (hmax : 1 ≤ maxItems) (hfuel : 2 ^ 32 < fuel) :
    radixTreeGangLookupTag fuel r first maxItems t =
      some ((between (fun j => chosen (fun e => e.2 t) (r.entries j)) first.toNat (2 ^ 32)).take
        maxItems) := by
  cases htag : r.tags t with
  | false =>
    have hnone : ∀ j, chosen (fun e => e.2 t) (r.entries j) = none := by
      intro j
      cases he : r.entries j with
      | none => rfl
      | some e =>
        have hoff : e.2 t = false := by
          by_contra hon
          have hset := (hr.tag_iff t).mpr ⟨j, carries_iff.mpr ⟨e, he, by simpa using hon⟩⟩
          exact absurd (hset.symm.trans htag) (by decide)
        simp [chosen, hoff]
    rw [between_eq_nil fun j _ _ => hnone j]
    simp [radixTreeGangLookupTag, htag]
  | true =>
    rcases hr.forms with hs | ⟨x, hs, hh⟩ | ⟨n, h, hs, hh, hn⟩
    · rw [between_eq_nil fun j _ _ => by simp [Root.entries, hs, chosen]]
      simp [radixTreeGangLookupTag, hs]
    · rw [Root.between_item hs hh htag first hmax]
      simp [radixTreeGangLookupTag, hs, htag]
    · have hbound := hr.height
      have hslot := hr.slot
      simp only [radixTreeGangLookupTag, hs, hn, htag]
      refine hr.gangLoop_eq (fun e => e.2 t) (fun k cur => lookupTag t k r.height n cur) ?_ first
        hfuel
      intro k x hk hx
      rw [hs, hh] at hslot ⊢
      exact lookupTag_nodePart t hslot (by omega) hx hk

namespace Book

/-- The items from an index on, in the order of their indices. -/
def itemsFrom (M : Book) (first : Index) : List Item :=
  between (fun i => (M (BitVec.ofNat 32 i)).map Prod.fst) first.toNat (2 ^ 32)

def taggedFrom (M : Book) (t : Tag) (first : Index) : List Item :=
  between (fun i => ((M (BitVec.ofNat 32 i)).filter fun e => e.2 t).map Prod.fst) first.toNat
    (2 ^ 32)

end Book

theorem Tree.Holds.between_chosen {s : Tree} (h : s.Holds M) (p : Entry → Bool)
    (first : Index) : between (fun j => chosen p (s.root.entries j)) first.toNat (2 ^ 32) =
      (between (fun i => ((M (BitVec.ofNat 32 i)).filter p).map Prod.fst) first.toNat
        (2 ^ 32)).map Slot.item := by
  rw [map_between]
  refine between_congr fun j _ hj => ?_
  rw [h.book, toNat_ofNat, Nat.mod_eq_of_lt hj, Option.map_map]
  rfl

/-- The gang lookups end, and return the first of the items that are present, or tagged. -/
theorem gang_lookup_exact (h : Reachable s M) (first : Index) (hmax : 1 ≤ maxItems)
    (hfuel : 2 ^ 32 < fuel) :
    radixTreeGangLookup fuel s.root first maxItems =
        some (((M.itemsFrom first).take maxItems).map Slot.item) ∧
      ∀ t, radixTreeGangLookupTag fuel s.root first maxItems t =
        some (((M.taggedFrom t first).take maxItems).map Slot.item) := by
  constructor
  · rw [radixTreeGangLookup_eq h.holds.root first hmax hfuel, h.holds.between_chosen, ← map_take]
    simp only [filter_everything]
    rfl
  · intro t
    rw [radixTreeGangLookupTag_eq t h.holds.root first hmax hfuel, h.holds.between_chosen,
      ← map_take]
    rfl

/-- Of the three items from 7 on the first two are returned. -/
theorem gang_lookup_exact_three : ∃ s, Reachable s threeBook ∧
    radixTreeGangLookup (2 ^ 32 + 1) s.root 7 2 =
      some [.item ⟨4, by decide⟩, .item ⟨8, by decide⟩] ∧
    ((threeBook.itemsFrom 7).take 2).map Slot.item =
      [.item ⟨4, by decide⟩, .item ⟨8, by decide⟩] := by
  obtain ⟨s, heq, hs⟩ := reachable_three
  have hrun : threeItems.bind (fun s => radixTreeGangLookup (2 ^ 32 + 1) s.root 7 2) =
    some [.item ⟨4, by decide⟩, .item ⟨8, by decide⟩] := rfl
  rw [heq, Option.bind_some] at hrun
  have hexact := (gang_lookup_exact hs 7 (show 1 ≤ 2 by decide) (Nat.lt_succ_self _)).1
  exact ⟨s, hs, hrun, Option.some.inj (hexact.symm.trans hrun)⟩

/-- The loop of `radix_tree_next_hole` and `radix_tree_prev_hole`, which breaks at `last`. -/
def holeLoop (r : Root) (next : Index → Index) (last : Index) : Nat → Index → Option Index
  | 0, index => some index
  | n + 1, index => do
    if (← radixTreeLookup r index).isNone then return index
    let index := next index
    if index = last then return index
    holeLoop r next last n index

def LONG_MAX : Index := 0x7fffffff#32

def radixTreeNextHole (r : Root) (index maxScan : Index) : Option Index :=
  holeLoop r (· + 1#32) 0#32 maxScan.toNat index

def radixTreePrevHole (r : Root) (index maxScan : Index) : Option Index :=
  holeLoop r (· - 1#32) LONG_MAX maxScan.toNat index

/-- A search of the first `n` indices of a sequence for one that is absent. -/
structure Book.Finds (M : Book) (seq : Nat → Index) (n : Nat) (result : Option Index)
    (outside : Index → Prop) : Prop where
  hole : ∀ j < n, M (seq j) = none → (∀ i < j, M (seq i) ≠ none) → result = some (seq j)
  full : (∀ j < n, M (seq j) ≠ none) → ∃ r, result = some r ∧ outside r

section Scan

variable {s : Tree} {M : Book} (h : s.Holds M) {next : Index → Index} {last index : Index}
include h

theorem holeLoop_absent (n : Nat) (hm : M index = none) :
    holeLoop s.root next last (n + 1) index = some index := by
  rw [holeLoop, radixTreeLookup_eq index h.root, ← h.book index, hm]
  rfl

theorem holeLoop_present (n : Nat) (hm : M index ≠ none) :
    holeLoop s.root next last (n + 1) index =
      if next index = last then some (next index)
      else holeLoop s.root next last n (next index) := by
  obtain ⟨e, he⟩ := Option.ne_none_iff_exists'.mp hm
  rw [holeLoop, radixTreeLookup_eq index h.root, ← h.book index, he]
  rfl

theorem holeLoop_hole {p : Nat → Index} (h0 : p 0 = index)
    (hseq : ∀ j, p (j + 1) = next (p j)) (hj : j < n) (hnone : M (p j) = none)
    (hall : ∀ i < j, M (p i) ≠ none) (hlast : ∀ i < j, p (i + 1) = last → i + 1 = j) :
    holeLoop s.root next last n index = some (p j) := by
  subst h0
  induction n generalizing j p with
  | zero => exact absurd hj (Nat.not_lt_zero j)
  | succ n ih =>
    cases j with
    | zero => exact holeLoop_absent h n hnone
    | succ j =>
      rw [holeLoop_present h n (hall 0 (Nat.succ_pos j)), ← hseq]
      split
      next heq =>
        obtain rfl : 0 = j := Nat.succ.inj (hlast 0 (Nat.succ_pos j) heq)
        rfl
      next =>
        refine ih (p := fun i => p (i + 1)) (fun i => hseq (i + 1)) (Nat.lt_of_succ_lt_succ hj)
          hnone (fun i hi => hall (i + 1) (Nat.succ_lt_succ hi)) fun i hi heq => ?_
        exact Nat.succ.inj (hlast (i + 1) (Nat.succ_lt_succ hi) heq)

theorem holeLoop_full (next : Index → Index) (last : Index) {p : Nat → Index} (h0 : p 0 = index)
    (hseq : ∀ j, p (j + 1) = next (p j)) (hm : m ≤ n) (hall : ∀ i < m, M (p i) ≠ none)
    (hend : m = n ∨ 0 < m ∧ p m = last) :
    ∃ r, holeLoop s.root next last n index = some r ∧ (r = p m ∨ r = last) := by
  subst h0
  induction m generalizing n p with
  | zero =>
    obtain rfl : 0 = n := hend.resolve_right fun h0 => Nat.lt_irrefl 0 h0.1
    exact ⟨p 0, rfl, .inl rfl⟩
  | succ m ih =>
    obtain ⟨n, rfl⟩ := Nat.exists_eq_add_one.mpr (Nat.zero_lt_of_lt hm)
    rw [holeLoop_present h n (hall 0 (Nat.succ_pos m)), ← hseq]
    split
    next heq => exact ⟨_, rfl, .inr heq⟩
    next hne =>
      refine ih (p := fun i => p (i + 1)) (fun i => hseq (i + 1)) (Nat.le_of_succ_le_succ hm)
        (fun i hi => hall (i + 1) (Nat.succ_lt_succ hi)) ?_
      rcases hend with heq | ⟨-, heq⟩
      · exact .inl (Nat.succ.inj heq)
      · cases m with
        | zero => exact absurd heq hne
        | succ m => exact .inr ⟨Nat.succ_pos m, heq⟩

end Scan

theorem nextHole_finds {s : Tree} (h : s.Holds M) (index maxScan : Index) :
    M.Finds (fun j => index + BitVec.ofNat 32 j) (min maxScan.toNat (2 ^ 32 - index.toNat))
      (radixTreeNextHole s.root index maxScan) fun r => r = 0#32 ∨ maxScan ≤ r - index := by
  have hseq (j : Nat) :
      index + BitVec.ofNat 32 (j + 1) = index + BitVec.ofNat 32 j + 1#32 := by bv_omega
  constructor
  case hole =>
    intro j hj hnone hall
    refine holeLoop_hole h (BitVec.add_zero index) hseq (by omega) hnone hall fun i hij heq => ?_
    bv_omega
  case full =>
    intro hall
    obtain ⟨r, hr, hend⟩ := holeLoop_full h (· + 1#32) 0#32 (BitVec.add_zero index) hseq
      (Nat.min_le_left ..) hall (by bv_omega)
    exact ⟨r, hr, by bv_omega⟩

theorem Book.exists_first {M : Book} (p : Nat → Index) (h : M (p k) = none) :
    ∃ j ≤ k, M (p j) = none ∧ ∀ i < j, M (p i) ≠ none := by
  classical
  have hex : ∃ j, M (p j) = none := ⟨k, h⟩
  exact ⟨Nat.find hex, Nat.find_le h, Nat.find_spec hex, fun i hi => Nat.find_min hex hi⟩

/-- If all indices down to 0 are present, so are those at the top that the search goes on to. -/
def Book.WrapFull (M : Book) (index maxScan : Index) : Prop :=
  index ≤ LONG_MAX → (∀ i ≤ index, M i ≠ none) →
    ∀ i, LONG_MAX < i → index - i < maxScan → M i ≠ none

/-- If there are holes in the window, one is not below the index at which the loop breaks. -/
def Book.HoleAbove (M : Book) (index maxScan : Index) : Prop :=
  LONG_MAX < index → (∃ i ≤ index, index - i < maxScan ∧ M i = none) →
    ∃ i ≤ index, LONG_MAX ≤ i ∧ M i = none

section PrevHole

variable {s : Tree} {M : Book} (h : s.Holds M) {index maxScan : Index}
include h

/-- The search as far as all indices are present, to the end or to where the loop breaks. -/
theorem prevHole_full (hm : m ≤ maxScan.toNat)
    (hall : ∀ j < m, M (index - BitVec.ofNat 32 j) ≠ none)
    (hend : m = maxScan.toNat ∨ 0 < m ∧ index - BitVec.ofNat 32 m = LONG_MAX) :
    ∃ r, radixTreePrevHole s.root index maxScan = some r ∧
      (r = index - BitVec.ofNat 32 m ∨ r = LONG_MAX) :=
  holeLoop_full h (· - 1#32) LONG_MAX (BitVec.sub_zero index) (fun _ => by bv_omega) hm hall hend

/-- The search comes to the first hole, unless it breaks before. -/
theorem prevHole_hole (hj : j < maxScan.toNat) (hnone : M (index - BitVec.ofNat 32 j) = none)
    (hall : ∀ i < j, M (index - BitVec.ofNat 32 i) ≠ none)
    (hbreak : ∀ i < j, index - BitVec.ofNat 32 (i + 1) = LONG_MAX → i + 1 = j) :
    radixTreePrevHole s.root index maxScan = some (index - BitVec.ofNat 32 j) :=
  holeLoop_hole h (BitVec.sub_zero index) (fun _ => by bv_omega) hj hnone hall hbreak

theorem prevHole_breaks (hhigh : LONG_MAX < index) (hscan : index - LONG_MAX ≤ maxScan)
    (hall : ∀ i ≤ index, LONG_MAX < i → M i ≠ none) :
    radixTreePrevHole s.root index maxScan = some LONG_MAX := by
  have hlong : LONG_MAX.toNat = 2 ^ 31 - 1 := rfl
  have hm : index - BitVec.ofNat 32 (index - LONG_MAX).toNat = LONG_MAX := by bv_omega
  obtain ⟨r, hr, hend⟩ := prevHole_full h (BitVec.le_def.mp hscan)
    (fun j hj => hall (index - BitVec.ofNat 32 j) (by bv_omega) (by bv_omega))
    (.inr ⟨by bv_omega, hm⟩)
  rw [hm, or_self_iff] at hend
  rw [hr, hend]

theorem prevHole_finds (hwrap : M.WrapFull index maxScan) (habove : M.HoleAbove index maxScan) :
    M.Finds (fun j => index - BitVec.ofNat 32 j) (min maxScan.toNat (index.toNat + 1))
      (radixTreePrevHole s.root index maxScan) fun r => maxScan ≤ index - r ∨ r = LONG_MAX := by
  have hat (i : Index) : index - BitVec.ofNat 32 (index - i).toNat = i := by bv_omega
  constructor
  case hole =>
    clear hwrap
    intro j hj hnone hall
    refine prevHole_hole h (by omega) hnone hall fun i hij heq => ?_
    have hlow : LONG_MAX < index := by rw [LONG_MAX] at heq ⊢; bv_omega
    have hle : index - BitVec.ofNat 32 j ≤ index := by bv_omega
    have hlt : index - (index - BitVec.ofNat 32 j) < maxScan := by bv_omega
    obtain ⟨k, hk, hmax, hknone⟩ := habove hlow ⟨_, hle, hlt, hnone⟩
    have hnot : ¬ (index - k).toNat < j := fun hlt => hall _ hlt ((congrArg M (hat k)).trans hknone)
    bv_omega
  case full =>
    intro hall
    have hlong : LONG_MAX.toNat = 2 ^ 31 - 1 := rfl
    rcases Nat.lt_or_ge (index.toNat + 1) maxScan.toNat with hlt | hle
    · have hpresent (i : Index) (hi : i ≤ index) : M i ≠ none :=
        hat i ▸ hall (index - i).toNat (by bv_omega)
      by_cases hlow : index ≤ LONG_MAX
      · -- the indices at the top are present, down to where the loop breaks
        have hbeyond (j : Nat) (hj : j < min maxScan.toNat (index.toNat + 2 ^ 31 + 1)) :
            M (index - BitVec.ofNat 32 j) ≠ none := by
          by_cases hin : j ≤ index.toNat
          · exact hpresent _ (by bv_omega)
          · exact hwrap hlow hpresent _ (by bv_omega) (by bv_omega)
        obtain ⟨r, hr, hend⟩ := prevHole_full h (Nat.min_le_left ..) hbeyond (by bv_omega)
        exact ⟨r, hr, by bv_omega⟩
      · have hscan : index - LONG_MAX ≤ maxScan := by bv_omega
        exact ⟨_, prevHole_breaks h (by bv_omega) hscan fun i hi _ => hpresent i hi, .inr rfl⟩
    · obtain ⟨r, hr, hend⟩ := prevHole_full h (Nat.min_le_left ..) hall (.inl (by omega))
      exact ⟨r, hr, by bv_omega⟩

theorem wrapFull_of_finds
    (hf : M.Finds (fun j => index - BitVec.ofNat 32 j) (min maxScan.toNat (index.toNat + 1))
      (radixTreePrevHole s.root index maxScan) fun r => maxScan ≤ index - r ∨ r = LONG_MAX) :
    M.WrapFull index maxScan := by
  intro hlow hpresent i hi hlt hnone
  have hat : index - BitVec.ofNat 32 (index - i).toNat = i := by bv_omega
  obtain ⟨j, hj, hhole, hall⟩ := Book.exists_first (fun j => index - BitVec.ofNat 32 j)
    ((congrArg M hat).trans hnone)
  have hfar : index.toNat < j := Nat.lt_of_not_le fun hle => hpresent _ (by bv_omega) hhole
  obtain ⟨r, hr, hout⟩ := hf.full fun j hj => hpresent _ (by bv_omega)
  rw [prevHole_hole h (by bv_omega) hhole hall fun k hk heq => by bv_omega] at hr
  obtain rfl := Option.some.inj hr
  bv_omega

theorem holeAbove_of_finds
    (hf : M.Finds (fun j => index - BitVec.ofNat 32 j) (min maxScan.toNat (index.toNat + 1))
      (radixTreePrevHole s.root index maxScan) fun r => maxScan ≤ index - r ∨ r = LONG_MAX) :
    M.HoleAbove index maxScan := by
  rintro hhigh ⟨i, hi, hlt, hnone⟩
  by_contra hno
  have hpresent (k : Index) (hk : k ≤ index) (hk' : LONG_MAX ≤ k) : M k ≠ none :=
    fun hnone => hno ⟨k, hk, hk', hnone⟩
  have hat : index - BitVec.ofNat 32 (index - i).toNat = i := by bv_omega
  obtain ⟨j, hj, hhole, hall⟩ := Book.exists_first (fun j => index - BitVec.ofNat 32 j)
    ((congrArg M hat).trans hnone)
  have hlow : i < LONG_MAX := BitVec.not_le.mp fun hle => hno ⟨i, hi, hle, hnone⟩
  have hr := hf.hole j (by bv_omega) hhole hall
  rw [prevHole_breaks h hhigh (by bv_omega) fun k hk hk' => hpresent k hk (by bv_omega)] at hr
  exact hpresent _ (by bv_omega) (by decide) ((congrArg M (Option.some.inj hr)).trans hhole)

end PrevHole

/-- The search upwards is as documented, that downwards just if its wrap and break do not matter. -/
theorem radix_tree_holes (h : Reachable s M) (index maxScan : Index) :
    M.Finds (fun j => index + BitVec.ofNat 32 j) (min maxScan.toNat (2 ^ 32 - index.toNat))
        (radixTreeNextHole s.root index maxScan) (fun r => r = 0#32 ∨ maxScan ≤ r - index) ∧
      (M.Finds (fun j => index - BitVec.ofNat 32 j) (min maxScan.toNat (index.toNat + 1))
        (radixTreePrevHole s.root index maxScan) (fun r => maxScan ≤ index - r ∨ r = LONG_MAX) ↔
      M.WrapFull index maxScan ∧ M.HoleAbove index maxScan) :=
  ⟨nextHole_finds h.holds index maxScan,
    fun hf => ⟨wrapFull_of_finds h.holds hf, holeAbove_of_finds h.holds hf⟩,
    fun hc => prevHole_finds h.holds hc.1 hc.2⟩

theorem radix_tree_holes_three : ∃ s, Reachable s threeBook ∧
    radixTreeNextHole s.root 64 5 = some 66 ∧ radixTreePrevHole s.root 65 5 = some 63 := by
  obtain ⟨s, -, hs⟩ := reachable_three
  have hnext := (radix_tree_holes hs 64 5).1
  have hprev := (radix_tree_holes hs 65 5).2.mpr
    ⟨fun _ hall => absurd rfl (hall 0 (by decide)), fun hhigh => absurd hhigh (by decide)⟩
  refine ⟨s, hs, hnext.hole 2 (by decide) rfl ?_, hprev.hole 2 (by decide) rfl ?_⟩
  · decide
  · decide

/-- Past index 0 the search goes on at the top, where it stops at an index that is absent. -/
theorem radix_tree_prev_hole_wraps :
    ∃ s, Reachable s (Function.update (fun _ => none) 0 (some (⟨4, by decide⟩, noTags))) ∧
      radixTreePrevHole s.root 0 2 = some 0xffffffff :=
  ⟨_, Reachable.empty.step (c := .insert 0 ⟨4, by decide⟩ []) trivial rfl, rfl⟩

end SpicaKernel.RadixTree
