import SpicaKernel.Runs
import SpicaKernel.Tables

namespace SpicaKernel.PidMap
open Function Tally
set_option autoImplicit true

def BITS_PER_PAGE : Nat := 32768
def RESERVED_PIDS : Nat := 300

/-- The bits of the `pidmap` array of a `pid_namespace`, clear where a page is not yet there. -/
structure PidNamespace where
  used : Nat → Bool
  nrFree : Nat → Nat
  lastPid : Nat

def mkPid (map off : Nat) : Nat := map * BITS_PER_PAGE + off

section
variable (ns : PidNamespace) (pidMax : Nat)

/-- The condition of the `do` loop. -/
def inBounds (final : Bool) (pid : Nat) : Bool :=
  pid < pidMax && (!final || pid < ns.lastPid || (ns.lastPid + 1) % BITS_PER_PAGE == 0)

/-- The `do` loop, with at most so many turns. -/
def tryMap (final : Bool) (map : Nat) : Nat → Nat → Option Nat
  | 0, _ => none
  | turns + 1, offset =>
    if ns.used (mkPid map offset) = false then some (mkPid map offset)
    else
      let offset := findNext (fun off => ns.used (mkPid map off)) false BITS_PER_PAGE
        (BITS_PER_PAGE - offset)
      if offset < BITS_PER_PAGE ∧ inBounds ns pidMax final (mkPid map offset) then
        tryMap final map turns offset
      else none

/-- The `for` loop with so many turns left. The pages that are missing are installed. -/
def scan : Nat → Nat → Nat → Option Nat
  | 0, _, _ => none
  | left + 1, map, offset =>
    (if ns.nrFree map = 0 then none
      else tryMap ns pidMax (left == 0) map BITS_PER_PAGE offset).or
    (if map < (pidMax - 1) / BITS_PER_PAGE then scan left (map + 1) 0
      else if ns.lastPid = RESERVED_PIDS then none
      else scan left 0 RESERVED_PIDS)

/-- `alloc_pidmap`, with `none` for `-1`. -/
def allocPidmap : Option Nat × PidNamespace :=
  let pid := if pidMax ≤ ns.lastPid + 1 then RESERVED_PIDS else ns.lastPid + 1
  let offset := pid % BITS_PER_PAGE
  let maxScan := (pidMax + BITS_PER_PAGE - 1) / BITS_PER_PAGE - if offset = 0 then 1 else 0
  match scan ns pidMax (maxScan + 1) (pid / BITS_PER_PAGE) offset with
  | none => (none, ns)
  | some pid => (some pid, {
      used := update ns.used pid true
      nrFree := update ns.nrFree (pid / BITS_PER_PAGE) (ns.nrFree (pid / BITS_PER_PAGE) - 1)
      lastPid := pid })

end

def freePidmap (ns : PidNamespace) (nr : Nat) : PidNamespace :=
  { ns with
    used := update ns.used nr false
    nrFree := update ns.nrFree (nr / BITS_PER_PAGE) (ns.nrFree (nr / BITS_PER_PAGE) + 1) }

/-- `init_pid_ns` behind `pidmap_init`. -/
def pidmapInit : PidNamespace :=
  ⟨update (fun _ => false) 0 true, update (fun _ => BITS_PER_PAGE) 0 (BITS_PER_PAGE - 1), 0⟩

/-- `alloc_pidmap`, or `free_pidmap` of a pid. -/
def step (pidMax : Nat) (ns : PidNamespace) : Option Nat → Option PidNamespace
  | none => some (allocPidmap ns pidMax).2
  | some nr => some (freePidmap ns nr)

variable {ns : PidNamespace} {pidMax : Nat}

theorem inBounds_iff : inBounds ns pidMax final q = true ↔
    q < pidMax ∧ (final = false ∨ q < ns.lastPid ∨ (ns.lastPid + 1) % BITS_PER_PAGE = 0) := by
  simp [inBounds, or_assoc]

theorem inBounds_mono (h : p ≤ q) (hq : inBounds ns pidMax final q = true) :
    inBounds ns pidMax final p = true := by
  rw [inBounds_iff] at *
  exact ⟨Nat.lt_of_le_of_lt h hq.1, hq.2.imp id (.imp (Nat.lt_of_le_of_lt h) id)⟩

/-- The pids that a turn tests: the first of a map is tested whatever the bounds are. -/
def Tested (ns : PidNamespace) (pidMax : Nat) (final : Bool) (q : Nat) : Prop :=
  q < pidMax ∧ (inBounds ns pidMax final q = true ∨ q % BITS_PER_PAGE = 0)

theorem Tested.early (h : q < pidMax) : Tested ns pidMax false q :=
  ⟨h, .inl (inBounds_iff.mpr ⟨h, .inl rfl⟩)⟩

/-- The pids of a range were tried: one is the first not in use, or all that are tested are in use
and the result is that of the rest. -/
def Tried (ns : PidNamespace) (pidMax : Nat) (final : Bool) (start stop : Nat)
    (r rest : Option Nat) : Prop :=
  (∃ pid, r = some pid ∧ start ≤ pid ∧ pid < stop ∧ pid < pidMax ∧ ns.used pid = false ∧
    ∀ q, start ≤ q → q < pid → ns.used q = true) ∨
  r = rest ∧ ∀ q, start ≤ q → q < stop → Tested ns pidMax final q → ns.used q = true

theorem Tried.trans (h : Tried ns pidMax false start mid r r')
    (h' : Tried ns pidMax final mid stop r' rest) (hle : start ≤ mid) (hmid : mid ≤ pidMax)
    (hstop : mid ≤ stop) : Tried ns pidMax final start stop r rest := by
  obtain ⟨pid, rfl, hge, hlt, hfound⟩ | ⟨rfl, hused⟩ := h
  · exact .inl ⟨pid, rfl, hge, by omega, hfound⟩
  have hfirst (q : Nat) (hq : start ≤ q) (hq' : q < mid) : ns.used q = true :=
    hused q hq hq' (.early (by omega))
  obtain ⟨pid, rfl, hge, hlt, hmax, hclear, hskip⟩ | ⟨rfl, hused'⟩ := h'
  · refine .inl ⟨pid, rfl, by omega, hlt, hmax, hclear, fun q hq hq' => ?_⟩
    exact (Nat.lt_or_ge q mid).elim (hfirst q hq) (hskip q · hq')
  · refine .inr ⟨rfl, fun q hq hq' hb => ?_⟩
    exact (Nat.lt_or_ge q mid).elim (hfirst q hq) (hused' q · hq' hb)

theorem exists_offset (hq : mkPid m o ≤ q) (hq' : q < mkPid m z) :
    ∃ i, q = mkPid m i ∧ o ≤ i ∧ i < z := by
  refine ⟨q - m * BITS_PER_PAGE, ?_⟩
  unfold mkPid at *
  omega

theorem mkPid_succ (m : Nat) : mkPid m BITS_PER_PAGE = mkPid (m + 1) 0 := by
  rw [mkPid, mkPid, Nat.succ_mul, Nat.add_zero]

theorem mkPid_lt (h : a < b) : mkPid m a < mkPid m b := Nat.add_lt_add_left h _

/-- A map without free bits is full. -/
def Counted (ns : PidNamespace) : Prop :=
  ∀ m, ns.nrFree m = 0 → ∀ o < BITS_PER_PAGE, ns.used (mkPid m o) = true

theorem tried_map (hfree : Counted ns) (ho : o < BITS_PER_PAGE) (hstart : mkPid m o < pidMax)
    (left : Nat) :
    Tried ns pidMax (left == 0) (mkPid m o) (mkPid (m + 1) 0) (scan ns pidMax (left + 1) m o)
      (if m < (pidMax - 1) / BITS_PER_PAGE then scan ns pidMax left (m + 1) 0
        else if ns.lastPid = RESERVED_PIDS then none
        else scan ns pidMax left 0 RESERVED_PIDS) := by
  rw [scan, ← mkPid_succ]
  split
  next hfull =>
    refine .inr ⟨rfl, fun q hq hq' _ => ?_⟩
    obtain ⟨i, rfl, -, hi⟩ := exists_offset hq hq'
    exact hfree m hfull i hi
  next =>
    obtain ⟨z, he, hle, -, hbit, hskip⟩ := findNext_spec (fun off => ns.used (mkPid m off)) false
      (Nat.le_of_lt ho)
    replace hskip (q : Nat) (hq : mkPid m o ≤ q) (hq' : q < mkPid m z) : ns.used q = true := by
      obtain ⟨i, rfl, hi, hi'⟩ := exists_offset hq hq'
      exact hskip i hi hi'
    rw [show BITS_PER_PAGE = 32766 + 2 from rfl, tryMap, he]
    split
    next hclear =>
      exact .inl ⟨_, rfl, Nat.le_refl _, mkPid_lt ho, hstart, hclear, fun i hi hi' => by omega⟩
    next hset =>
      dsimp only
      split
      next hin =>
        rw [tryMap, if_pos (hbit hin.1)]
        exact .inl ⟨_, rfl, Nat.add_le_add_left hle _, mkPid_lt hin.1, (inBounds_iff.mp hin.2).1,
          hbit hin.1, hskip⟩
      next hout =>
        refine .inr ⟨rfl, fun q hq hq' hb => ?_⟩
        by_contra hclear
        have hge : mkPid m z ≤ q := Nat.le_of_not_lt fun hlt => hclear (hskip q hq hlt)
        obtain ⟨i, rfl, hi, hi'⟩ := exists_offset hge hq'
        obtain ⟨-, hb | hfirst⟩ := hb
        · exact hout ⟨Nat.lt_of_le_of_lt hi hi', inBounds_mono hge hb⟩
        -- Only the bit that the turn begins with can be the first of the map.
        · have hi0 : i = 0 := by
            unfold mkPid at hfirst
            have hmod : i % BITS_PER_PAGE = i := Nat.mod_eq_of_lt hi'
            rwa [Nat.mul_add_mod_self_right, hmod] at hfirst
          obtain rfl : o = i := by omega
          exact hset (by simpa using hclear)

/-- The maps from `m` to `m + k` were tried. -/
theorem tried_maps (hfree : Counted ns) (ho : o < BITS_PER_PAGE) (hstart : mkPid m o < pidMax)
    (hm : m + k ≤ (pidMax - 1) / BITS_PER_PAGE) (hk : k ≤ left) :
    Tried ns pidMax (left == k) (mkPid m o) (mkPid (m + k + 1) 0) (scan ns pidMax (left + 1) m o)
      (if m + k < (pidMax - 1) / BITS_PER_PAGE then scan ns pidMax (left - k) (m + k + 1) 0
        else if ns.lastPid = RESERVED_PIDS then none
        else scan ns pidMax (left - k) 0 RESERVED_PIDS) := by
  induction k generalizing m o left with
  | zero => exact tried_map hfree ho hstart left
  | succ k ih =>
    obtain ⟨left, rfl⟩ : ∃ l, left = l + 1 := ⟨left - 1, by omega⟩
    have hfirst := tried_map hfree ho hstart (left + 1)
    rw [if_pos (by omega)] at hfirst
    have hnext : mkPid (m + 1) 0 ≤ pidMax - 1 := by
      rw [mkPid, Nat.add_zero]
      exact (Nat.le_div_iff_mul_le (by decide)).mp (by omega)
    have hrest := ih (by decide) (m := m + 1) (o := 0) (by omega) (by omega)
      (Nat.le_of_succ_le_succ hk)
    rw [Nat.add_right_comm m 1 k] at hrest
    rw [Nat.add_sub_add_right, show (left + 1 == k + 1) = (left == k) by simp]
    refine hfirst.trans hrest ?_ (by omega) ?_
    · rw [← mkPid_succ]
      exact Nat.le_of_lt (mkPid_lt ho)
    · exact Nat.add_le_add_right (Nat.mul_le_mul_right _ (by omega)) 0

/-- The pids that can be handed out. -/
def Candidate (ns : PidNamespace) (pidMax q : Nat) : Prop :=
  q < pidMax ∧ (ns.lastPid < q ∨ RESERVED_PIDS ≤ q)

/-- Where a pid stands in the cyclic order. -/
def turn (ns : PidNamespace) (pidMax q : Nat) : Nat := if ns.lastPid < q then q else pidMax + q

/-- The first pid of the cyclic order that is not in use. -/
structure NextFree (ns : PidNamespace) (pidMax pid : Nat) : Prop where
  candidate : Candidate ns pidMax pid
  free : ns.used pid = false
  first : ∀ q, Candidate ns pidMax q → turn ns pidMax q < turn ns pidMax pid → ns.used q = true

/-- After the maps from that of `pid` to the last there are those from the first to it,
unless it was read from its first bit on. -/
theorem exists_rest (hpos : 0 < pid) (hlt : pid < pidMax) :
    ∃ k, (pidMax + BITS_PER_PAGE - 1) / BITS_PER_PAGE - (if pid % BITS_PER_PAGE = 0 then 1 else 0) =
        (pidMax - 1) / BITS_PER_PAGE - pid / BITS_PER_PAGE + (k + 1) ∧
      k ≤ pid / BITS_PER_PAGE ∧ pid ≤ mkPid (k + 1) 0 := by
  unfold mkPid BITS_PER_PAGE
  split
  next => exact ⟨pid / 32768 - 1, by omega⟩
  next => exact ⟨pid / 32768, by omega⟩

/-- The pids from `pid` up were tried, and the rest is a search from the first on. -/
theorem tried_upwards (hfree : Counted ns) (hpos : 0 < pid) (hlt : pid < pidMax) :
    ∃ k, k ≤ pid / BITS_PER_PAGE ∧ pid ≤ mkPid (k + 1) 0 ∧
      Tried ns pidMax false pid (mkPid ((pidMax - 1) / BITS_PER_PAGE + 1) 0)
        (scan ns pidMax ((pidMax + BITS_PER_PAGE - 1) / BITS_PER_PAGE -
          (if pid % BITS_PER_PAGE = 0 then 1 else 0) + 1) (pid / BITS_PER_PAGE)
          (pid % BITS_PER_PAGE))
        (if ns.lastPid = RESERVED_PIDS then none else scan ns pidMax (k + 1) 0 RESERVED_PIDS) := by
  have hsplit : mkPid (pid / BITS_PER_PAGE) (pid % BITS_PER_PAGE) = pid := Nat.div_add_mod' ..
  have hm : pid / BITS_PER_PAGE ≤ (pidMax - 1) / BITS_PER_PAGE := Nat.div_le_div_right (by omega)
  obtain ⟨k, hk, hback, hback'⟩ := exists_rest hpos hlt
  rw [hk]
  have hrun := tried_maps hfree (Nat.mod_lt pid (by decide)) (hsplit.symm ▸ hlt)
    (Nat.le_of_eq (Nat.add_sub_cancel' hm)) (Nat.le_add_right _ (k + 1))
  rw [hsplit, Nat.add_sub_cancel' hm, if_neg (Nat.lt_irrefl _), Nat.add_sub_cancel_left] at hrun
  have hmore : ((pidMax - 1) / BITS_PER_PAGE - pid / BITS_PER_PAGE + (k + 1) ==
      (pidMax - 1) / BITS_PER_PAGE - pid / BITS_PER_PAGE) = false := beq_false_of_ne (by omega)
  exact ⟨k, hback, hback', hmore ▸ hrun⟩

theorem lt_mkPid_last (pidMax : Nat) :
    pidMax - 1 < mkPid ((pidMax - 1) / BITS_PER_PAGE + 1) 0 := by
  rw [mkPid, Nat.add_zero]
  exact Nat.lt_mul_of_div_lt (Nat.lt_succ_self _) (by decide)

/-- The last pid is tested again behind all the others. -/
def Reaches (ns : PidNamespace) (pidMax : Nat) : Prop :=
  ns.lastPid + 1 = pidMax ∨ ns.lastPid % BITS_PER_PAGE = 0 ∨ (ns.lastPid + 1) % BITS_PER_PAGE = 0

/-- The search finds the next free pid, or all in use but the last if it is not tested again. -/
theorem scan_spec (hfree : Counted ns) (hmax : RESERVED_PIDS < pidMax) (hlast : ns.lastPid < pidMax)
    (hpid : pid = if pidMax ≤ ns.lastPid + 1 then RESERVED_PIDS else ns.lastPid + 1) :
    ∃ r, scan ns pidMax ((pidMax + BITS_PER_PAGE - 1) / BITS_PER_PAGE -
      (if pid % BITS_PER_PAGE = 0 then 1 else 0) + 1) (pid / BITS_PER_PAGE) (pid % BITS_PER_PAGE) =
        r ∧ match r with
      | some pid => NextFree ns pidMax pid
      | none => ∀ q, RESERVED_PIDS ≤ q → q < pidMax → (q = ns.lastPid → Reaches ns pidMax) →
          ns.used q = true := by
  have hR : RESERVED_PIDS = 300 := rfl
  have hcase : pid = ns.lastPid + 1 ∨ pid = RESERVED_PIDS ∧ pidMax ≤ ns.lastPid + 1 := by
    split at hpid <;> omega
  have hpos : 0 < pid := by omega
  have hlt : pid < pidMax := by
    split at hpid <;> omega
  have hm : pid / BITS_PER_PAGE ≤ (pidMax - 1) / BITS_PER_PAGE := Nat.div_le_div_right (by omega)
  have hend := lt_mkPid_last pidMax
  obtain ⟨k, hback, hback', hrun⟩ := tried_upwards hfree hpos hlt
  obtain ⟨p, he, hp, -, hp', hclear, hskip⟩ | ⟨he, hused⟩ := hrun
  · refine ⟨_, he, ⟨hp', by omega⟩, hclear, fun q hq ht => hskip q ?_ ?_⟩ <;>
      grind [turn, Candidate]
  replace hused (q : Nat) (hq : pid ≤ q) (hq' : q < pidMax) : ns.used q = true :=
    hused q hq (by omega) (.early hq')
  rw [he]
  split
  next heq =>
    refine ⟨none, rfl, fun q hq hq' hlast => hused q ?_ hq'⟩
    by_cases hq : q = ns.lastPid
    · have hreach := hlast hq
      simp only [Reaches, heq] at hreach
      unfold RESERVED_PIDS BITS_PER_PAGE at hreach
      omega
    · omega
  next =>
    have hmap : mkPid 0 RESERVED_PIDS = RESERVED_PIDS := rfl
    have hrun := tried_maps hfree (by decide) (hmap.symm ▸ hmax)
      (by omega) (Nat.le_refl k)
    rw [Nat.zero_add, Nat.sub_self] at hrun
    obtain ⟨p, he, hp, -, hp', hclear, hskip⟩ | ⟨he, hused'⟩ := hrun
    · refine ⟨_, he, ⟨hp', .inr hp⟩, hclear, fun q hq ht => ?_⟩
      by_cases hge : pid ≤ q
      · exact hused q hge hq.1
      · have hlow : p < pid := by
          by_contra hge
          rw [hused p (by omega) hp'] at hclear
          cases hclear
        apply hskip q <;> grind [turn, Candidate]
    · refine ⟨none, ?_, fun q hq hq' hlast => ?_⟩
      · rw [he]
        split <;> rfl
      · by_cases hge : pid ≤ q
        · exact hused q hge hq'
        · refine hused' q hq (by omega) ⟨hq', ?_⟩
          by_cases hq : q = ns.lastPid
          · obtain hend | hfirst | hmask := hlast hq
            · omega
            · exact .inr (hq ▸ hfirst)
            · exact .inl (inBounds_iff.mpr ⟨hq', .inr (.inr hmask)⟩)
          · exact .inl (inBounds_iff.mpr ⟨hq', .inr (.inl (by omega))⟩)

/-- The turn that ends the search does not come to the last pid behind the bit it begins with. -/
theorem scan_final (ho : o < BITS_PER_PAGE) (hstart : mkPid m o < ns.lastPid)
    (hmask : (ns.lastPid + 1) % BITS_PER_PAGE ≠ 0)
    (hused : ∀ q, mkPid m o ≤ q → q < ns.lastPid → ns.used q = true) :
    scan ns pidMax 1 m o = none := by
  obtain ⟨z, he, hle, -, hbit, -⟩ := findNext_spec (fun off => ns.used (mkPid m off)) false
    (Nat.le_of_lt ho)
  have hnone : tryMap ns pidMax true m BITS_PER_PAGE o = none := by
    have hset : ¬ ns.used (mkPid m o) = false := by simp [hused _ (Nat.le_refl _) hstart]
    rw [show BITS_PER_PAGE = 32767 + 1 from rfl, tryMap, he, if_neg hset]
    refine if_neg fun hin => ?_
    have hlow := (inBounds_iff.mp hin.2).2
    have hlt : mkPid m z < ns.lastPid := by simpa [hmask] using hlow
    have hz : ns.used (mkPid m z) = true := hused _ (Nat.add_le_add_left hle _) hlt
    exact absurd ((hbit hin.1).symm.trans hz) (by decide)
  simp [scan, hnone]

theorem scan_missed (hfree : Counted ns) (hlow : RESERVED_PIDS ≤ ns.lastPid)
    (hmax : ns.lastPid + 1 < pidMax) (hreach : ¬ Reaches ns pidMax)
    (hused : ∀ q, RESERVED_PIDS ≤ q → q < pidMax → q ≠ ns.lastPid → ns.used q = true) :
    scan ns pidMax ((pidMax + BITS_PER_PAGE - 1) / BITS_PER_PAGE -
      (if (ns.lastPid + 1) % BITS_PER_PAGE = 0 then 1 else 0) + 1)
      ((ns.lastPid + 1) / BITS_PER_PAGE) ((ns.lastPid + 1) % BITS_PER_PAGE) = none := by
  obtain ⟨-, hfirst, hmask⟩ : _ ∧ ns.lastPid % BITS_PER_PAGE ≠ 0 ∧ _ := by
    simpa only [Reaches, not_or] using hreach
  obtain ⟨k, hback, hback', ⟨p, -, hp, -, hp', hclear, -⟩ | ⟨he, -⟩⟩ :=
    tried_upwards hfree (Nat.succ_pos ns.lastPid) hmax
  · rw [hused p (by omega) hp' (by omega)] at hclear
    cases hclear
  rw [he]
  split
  next => rfl
  next hne =>
    have hk : mkPid k 0 < ns.lastPid ∧ k ≤ (pidMax - 1) / BITS_PER_PAGE := by
      unfold mkPid BITS_PER_PAGE at *
      omega
    have hstart : mkPid 0 RESERVED_PIDS = RESERVED_PIDS := Nat.zero_add _
    cases k with
    | zero =>
      refine scan_final (by decide) ?_ hmask fun q hq hq' => ?_
      · exact hstart ▸ Nat.lt_of_le_of_ne hlow (Ne.symm hne)
      · exact hused q (hstart ▸ hq) (by omega) (Nat.ne_of_lt hq')
    | succ k =>
      have hrun := tried_maps hfree (show RESERVED_PIDS < BITS_PER_PAGE by decide)
        (show mkPid 0 RESERVED_PIDS < pidMax by omega)
        (show 0 + k ≤ (pidMax - 1) / BITS_PER_PAGE by omega) (Nat.le_add_right k 1)
      rw [hstart, Nat.zero_add, if_pos (by omega), Nat.add_sub_cancel_left] at hrun
      obtain ⟨p, -, hp, hp', hlt, hclear, -⟩ | ⟨he, -⟩ := hrun
      · rw [hused p hp hlt (by omega)] at hclear
        cases hclear
      · rw [he]
        refine scan_final (by decide) hk.1 hmask fun q hq hq' => hused q ?_ (by omega) (by omega)
        have hpage : mkPid 1 0 ≤ mkPid (k + 1) 0 :=
          Nat.add_le_add_right (Nat.mul_le_mul_right _ (by omega)) 0
        unfold RESERVED_PIDS mkPid BITS_PER_PAGE at *
        omega

/-- The last pid is the only one that is not in use, and the search does not come to it again. -/
def Missed (ns : PidNamespace) (pidMax : Nat) : Prop :=
  RESERVED_PIDS ≤ ns.lastPid ∧ ns.used ns.lastPid = false ∧
    (∀ q, RESERVED_PIDS ≤ q → q < pidMax → q ≠ ns.lastPid → ns.used q = true) ∧
    ¬ Reaches ns pidMax

/-- The next free pid is handed out, unless the last pid is the only one and it is missed. -/
theorem alloc_pidmap_next (hfree : Counted ns) (hmax : RESERVED_PIDS < pidMax)
    (hlast : ns.lastPid < pidMax) :
    ((∃ pid, NextFree ns pidMax pid ∧ allocPidmap ns pidMax = (some pid, {
      used := update ns.used pid true
      nrFree := update ns.nrFree (pid / BITS_PER_PAGE) (ns.nrFree (pid / BITS_PER_PAGE) - 1)
      lastPid := pid })) ∨
    allocPidmap ns pidMax = (none, ns) ∧
      ∀ q, RESERVED_PIDS ≤ q → q < pidMax → ns.used q = true) ↔ ¬ Missed ns pidMax := by
  constructor
  · rintro h ⟨hlow, hclear, hused, hreach⟩
    have hnext : ns.lastPid + 1 < pidMax :=
      Nat.lt_of_le_of_ne hlast fun heq => hreach (.inl heq)
    have hnone : allocPidmap ns pidMax = (none, ns) := by
      rw [allocPidmap, if_neg (Nat.not_le.mpr hnext)]
      simp only [scan_missed hfree hlow hnext hreach hused]
    obtain ⟨pid, -, he⟩ | ⟨-, hall⟩ := h
    · cases hnone.symm.trans he
    · rw [hall _ hlow hlast] at hclear
      cases hclear
  · intro hmissed
    rw [allocPidmap]
    obtain ⟨r, he, hr⟩ := scan_spec hfree hmax hlast rfl
    rw [he]
    cases r with
    | some pid => exact .inl ⟨pid, hr, rfl⟩
    | none =>
      refine .inr ⟨rfl, fun q hq hq' => ?_⟩
      by_contra hclear
      have hothers (p : Nat) (hp : RESERVED_PIDS ≤ p) (hp' : p < pidMax) (hne : p ≠ ns.lastPid) :
          ns.used p = true := hr p hp hp' fun heq => absurd heq hne
      obtain rfl : q = ns.lastPid := by
        by_contra hne
        exact hclear (hothers q hq hq' hne)
      refine hmissed ⟨hq, Bool.eq_false_iff.mpr hclear, hothers, fun hreach => ?_⟩
      exact hclear (hr _ hq hq' fun _ => hreach)

/-- Of the pids up to 302 only 301 is not in use, the last that was handed out. -/
def crowded : PidNamespace := ⟨fun pid => decide (pid < 303 ∧ pid ≠ 301), fun _ => 32466, 301⟩

/-- Another pid is free; and the last pid is the greatest, from which the search begins anew. -/
theorem alloc_pidmap_next_crowded :
    ((∃ pid, NextFree crowded 400 pid ∧ allocPidmap crowded 400 = (some pid, {
      used := update crowded.used pid true
      nrFree := update crowded.nrFree (pid / BITS_PER_PAGE) (32466 - 1)
      lastPid := pid })) ∨
    allocPidmap crowded 400 = (none, crowded) ∧
      ∀ q, RESERVED_PIDS ≤ q → q < 400 → crowded.used q = true) ∧
    ∃ pid, NextFree crowded 302 pid := by
  have hfree : Counted crowded := nofun
  constructor
  · refine (alloc_pidmap_next hfree (by decide) (by decide)).mpr ?_
    rintro ⟨-, -, hused, -⟩
    exact absurd (hused 303 (by decide) (by decide) (by decide)) (by decide)
  · have h := (alloc_pidmap_next hfree (show RESERVED_PIDS < 302 by decide) (by decide)).mpr
      fun hmissed => hmissed.2.2.2 (.inl rfl)
    obtain ⟨pid, hnext, -⟩ | ⟨-, hall⟩ := h
    · exact ⟨pid, hnext⟩
    · exact absurd (hall 301 (by decide) (by decide)) (by decide)

/-- The last pid is not tried again. -/
theorem alloc_pidmap_skips_last : Counted crowded ∧ crowded.used 301 = false ∧
    (allocPidmap crowded 303).1 = none :=
  ⟨nofun, by decide, by decide⟩

def clearBits (used : Nat → Bool) (m : Nat) : Nat :=
  tally (!·) fun o : Fin BITS_PER_PAGE => used (mkPid m o)

theorem clearBits_eq (h : used pid = false) (m : Nat) : clearBits used m =
    clearBits (update used pid true) m + if m = pid / BITS_PER_PAGE then 1 else 0 := by
  let bit : Fin BITS_PER_PAGE := ⟨pid % BITS_PER_PAGE, Nat.mod_lt _ (by decide)⟩
  have hpid (o : Fin BITS_PER_PAGE) : mkPid m o = pid ↔ m = pid / BITS_PER_PAGE ∧ o = bit := by
    simp only [mkPid, Fin.ext_iff, bit, BITS_PER_PAGE] at o ⊢
    omega
  by_cases hm : m = pid / BITS_PER_PAGE
  · have hset : (fun o : Fin BITS_PER_PAGE => update used pid true (mkPid m o)) =
        update (fun o : Fin BITS_PER_PAGE => used (mkPid m o)) bit true := by
      funext o
      rw [update_apply, update_apply, if_congr ((hpid o).trans (and_iff_right hm)) rfl rfl]
    rw [clearBits, clearBits, hset, if_pos hm]
    exact (tally_update_clear (by simp [(hpid bit).mpr ⟨hm, rfl⟩, h]) rfl).symm
  · simp [clearBits, hpid, hm]

theorem clearBits_set (h : used pid = false) : clearBits (update used pid true) =
    update (clearBits used) (pid / BITS_PER_PAGE) (clearBits used (pid / BITS_PER_PAGE) - 1) := by
  funext m
  have hm := clearBits_eq h m
  grind [update_apply]

theorem clearBits_clear (h : used pid = true) : clearBits (update used pid false) =
    update (clearBits used) (pid / BITS_PER_PAGE) (clearBits used (pid / BITS_PER_PAGE) + 1) := by
  funext m
  have hm := clearBits_eq (update_self pid false used) m
  rw [update_idem, ← h, update_eq_self] at hm
  grind [update_apply]

/-- The counts are those of the clear bits. -/
structure Exact (pidMax : Nat) (ns : PidNamespace) : Prop where
  nrFree : ns.nrFree = clearBits ns.used
  last : ns.lastPid < pidMax

theorem Exact.init (hmax : RESERVED_PIDS < pidMax) : Exact pidMax pidmapInit where
  nrFree := by
    have hall : clearBits (fun _ => false) = fun _ => BITS_PER_PAGE := funext fun m =>
      (tally_eq_card.mpr fun _ => rfl).trans (Fintype.card_fin _)
    rw [pidmapInit, clearBits_set rfl, hall, Nat.zero_div]
  last := Nat.lt_of_le_of_lt (Nat.zero_le _) hmax

theorem Exact.free (h : Exact pidMax ns) (hused : ns.used nr = true) :
    Exact pidMax (freePidmap ns nr) :=
  ⟨by rw [freePidmap, clearBits_clear hused, h.nrFree], h.last⟩

/-- The next free pid is handed out, unless all but the last pid are in use. -/
def Answers (ns : PidNamespace) (pidMax : Nat) : Option Nat → Prop
  | some pid => NextFree ns pidMax pid
  | none => ∀ q, RESERVED_PIDS ≤ q → q < pidMax → q ≠ ns.lastPid → ns.used q = true

theorem Exact.alloc (h : Exact pidMax ns) (hmax : RESERVED_PIDS < pidMax) :
    Exact pidMax (allocPidmap ns pidMax).2 ∧ Answers ns pidMax (allocPidmap ns pidMax).1 := by
  have hfree : Counted ns := by
    intro m hm o ho
    rw [h.nrFree, clearBits, tally_eq_zero] at hm
    simpa using hm ⟨o, ho⟩
  obtain ⟨r, he, hr⟩ := scan_spec hfree hmax h.last rfl
  rw [allocPidmap, he]
  cases r with
  | none => exact ⟨h, fun q hq hq' hne => hr q hq hq' fun heq => absurd heq hne⟩
  | some pid => exact ⟨⟨by rw [clearBits_set hr.free, h.nrFree], hr.candidate.1⟩, hr⟩

/-- `nr_free` stays exact while only pids in use are freed, so that no free bit is skipped. -/
theorem pidmap_runs_exact (hmax : RESERVED_PIDS < pidMax)
    (hrun : Run (fun ns op => ∀ nr ∈ op, ns.used nr = true) (step pidMax) pidmapInit ops ns) :
    ns.nrFree = clearBits ns.used ∧ Answers ns pidMax (allocPidmap ns pidMax).1 := by
  have h : Exact pidMax ns := by
    refine hrun.invariant (fun {ns op _} h hop he => ?_) (.init hmax)
    cases op with
    | none => exact Option.some.inj he ▸ (h.alloc hmax).1
    | some nr => exact Option.some.inj he ▸ h.free (hop nr rfl)
  exact ⟨h.nrFree, (h.alloc hmax).2⟩

theorem pidmap_runs_exact_second : NextFree (allocPidmap pidmapInit 400).2 400 2 :=
  (@pidmap_runs_exact _ 400 [none] (by decide) (.cons nofun rfl (.nil _))).2

end SpicaKernel.PidMap
