import SpicaKernel.PosixLockFinish
import SpicaKernel.Runs

namespace SpicaKernel.PosixLocks
open List Option
set_option autoImplicit true

/-- The request, the spare locks that it gets, and what `posix_locks_deadlock` would say. -/
structure Call where
  flags : Flags
  request : FileLock
  spare : Option Nat
  spare2 : Option Nat
  deadlock : FileLock → Bool

def Call.run (q : Call) (locks : List FileLock) : Outcome :=
  posixLockFile q.deadlock q.flags q.spare q.spare2 q.request locks

def Call.spares (q : Call) : List Nat := q.spare.toList ++ q.spare2.toList

/-- The request is a POSIX lock on a range, and neither it nor a spare lock is on the list. -/
structure Call.Allowed (locks : List FileLock) (q : Call) : Prop where
  posix : q.request.posix = true
  ranged : Ranged q.request
  outside : ∀ l ∈ locks, l.id ≠ q.request.id ∧ l.id ∉ q.spares
  distinct : q.spares.Nodup

def Call.step (locks : List FileLock) (q : Call) : Option (List FileLock) :=
  some (q.run locks).locks

def held (locks : List FileLock) (o : Nat) : List FileLock :=
  locks.filter fun l => l.posix && l.owner == o

/-- The owner's map from offsets to what it has locked there. -/
def lockAt (locks : List FileLock) (o : Nat) (x : Int) : LockType :=
  (kindAt FileLock.toSpan (held locks o) x).getD .unlck

theorem Applied.lockAt (h : Applied own r spares own') (hl : Laid FileLock.toSpan own) (x : Int) :
    (kindAt FileLock.toSpan own' x).getD .unlck =
      if r.Covers x then r.type else (kindAt FileLock.toSpan own x).getD .unlck := by
  split
  next hx =>
    by_cases hun : r.type = .unlck
    · have hnone : kindAt FileLock.toSpan own' x = none := by
        refine eq_none_iff_forall_ne_some.mpr fun k hk => ?_
        rcases (h.has x k).mp (h.laid.kindAt_eq_some.mp hk) with hk | hk
        · exact hk.2.1 hun
        · exact hk.1 hx
      rw [hnone, hun]
      rfl
    · rw [h.laid.kindAt_eq_some.mpr ((h.has x r.type).mpr (.inl ⟨hx, hun, rfl⟩))]
      rfl
  next hx =>
    have hkind : kindAt FileLock.toSpan own' x = kindAt FileLock.toSpan own x := by
      ext k
      rw [h.laid.kindAt_eq_some, hl.kindAt_eq_some, h.has x k]
      simp [hx]
    rw [hkind]

structure Place (locks : List FileLock) (o : Nat) (A own B : List FileLock) : Prop where
  eq : locks = A ++ own ++ B
  laid : Laid FileLock.toSpan own
  proper : ∀ l ∈ own, Proper o l
  ahead : ∀ l ∈ A, l.posix = true → l.owner ≠ o
  behind : ∀ l ∈ B, l.owner ≠ o
  last : own = [] → B = []

section Place

variable (h : Place locks o A own B)
include h

theorem Place.held_append (hp : ∀ l ∈ own', Proper o l) : held (A ++ own' ++ B) o = own' := by
  have hA : A.filter (fun l => l.posix && l.owner == o) = [] := by
    simpa [filter_eq_nil_iff] using h.ahead
  have hB : B.filter (fun l => l.posix && l.owner == o) = [] := by
    simpa [filter_eq_nil_iff] using fun l hl _ => h.behind l hl
  have hown : own'.filter (fun l => l.posix && l.owner == o) = own' := by
    simpa [filter_eq_self] using fun l hl => ⟨(hp l hl).posix, (hp l hl).owner⟩
  rw [held, filter_append, filter_append, hA, hB, hown, append_nil, nil_append]

theorem Place.held : held locks o = own := by
  rw [h.eq]
  exact h.held_append h.proper

theorem Place.held_other (hp : ∀ l ∈ own', Proper o l) (ho : o' ≠ o) :
    PosixLocks.held (A ++ own' ++ B) o' = PosixLocks.held locks o' := by
  have hnone : ∀ l : List FileLock, (∀ a ∈ l, Proper o a) →
      l.filter (fun l => l.posix && l.owner == o') = [] := by
    intro l hl
    refine filter_eq_nil_iff.mpr fun a ha => ?_
    simp [(hl a ha).owner, ho.symm]
  rw [h.eq]
  simp [PosixLocks.held, hnone own' hp, hnone own h.proper]

theorem Place.skip (hr : r.owner = o) :
    locks.takeWhile (fun l => !l.posix || !posixSameOwner r l) = A ∧
      locks.dropWhile (fun l => !l.posix || !posixSameOwner r l) = own ++ B := by
  have hA : ∀ l ∈ A, (!l.posix || !posixSameOwner r l) = true := by
    intro l hl
    cases hp : l.posix with
    | false => rfl
    | true => simpa [posixSameOwner, hr] using (h.ahead l hl hp).symm
  rw [h.eq, List.append_assoc, takeWhile_append_of_pos hA, dropWhile_append_of_pos hA]
  cases own with
  | nil => simp [h.last rfl]
  | cons l own =>
    have hl := h.proper l (by simp)
    simp [posixSameOwner, hr, hl.posix, hl.owner]

end Place

def Call.conflicting (q : Call) (locks : List FileLock) : Option FileLock :=
  if q.request.type = .unlck then none
  else locks.find? fun fl => fl.posix && posixLocksConflict q.request fl

section Call

variable {q : Call}

theorem Call.run_some (h : q.conflicting locks = some fl) :
    (q.run locks).answer ≠ .ok ∧ (q.run locks).locks = locks := by
  unfold Call.conflicting at h
  simp only [Call.run, posixLockFile, h]
  split
  · exact ⟨nofun, rfl⟩
  split
  · exact ⟨nofun, rfl⟩
  · exact ⟨nofun, rfl⟩

theorem Call.run_access (h : q.conflicting locks = none) (ha : q.flags.access = true) :
    q.run locks = ⟨.ok, locks, []⟩ := by
  unfold Call.conflicting at h
  simp [Call.run, posixLockFile, h, ha]

theorem Call.run_none (h : q.conflicting locks = none) (ha : q.flags.access = false)
    (hpl : Place locks q.request.owner A own B)
    (hw : walk ⟨[], q.request, false, none, []⟩ (own ++ B) = (c, rest, right)) :
    ∃ newFl newFl2, (newFl.toList ++ newFl2.toList).Sublist q.spares ∧
      (q.run locks).answer = (finish q.flags newFl newFl2 c rest right).answer ∧
      (q.run locks).locks = A ++ (finish q.flags newFl newFl2 c rest right).locks := by
  unfold Call.conflicting at h
  obtain ⟨htake, hdrop⟩ := hpl.skip rfl
  simp only [Call.run, posixLockFile, h, ha, htake, hdrop, hw]
  refine ⟨_, _, ?_, rfl, rfl⟩
  split
  · exact Sublist.refl _
  · simp

theorem Call.conflict_free (h : q.conflicting locks = none) (hun : q.request.type ≠ .unlck)
    (hl : fl ∈ locks) (hp : fl.posix = true) : posixLocksConflict q.request fl = false := by
  rw [Call.conflicting, if_neg hun, find?_eq_none] at h
  simpa [hp] using h fl hl

variable (hpl : Place locks q.request.owner A own B) (hids : (locks.map (·.id)).Nodup)
include hpl hids

theorem Call.run_ok (hq : q.Allowed locks) (h : q.conflicting locks = none)
    (ha : q.flags.access = false) (hok : (q.run locks).answer = .ok) :
    ∃ own', (q.run locks).locks = A ++ own' ++ B ∧ Applied own q.request q.spares own' := by
  have hown : ∀ l ∈ own, l ∈ locks := fun l hl => by simp [hpl.eq, hl]
  have hidown : (own.map (·.id)).Nodup := by
    rw [hpl.eq] at hids
    exact hids.sublist (by simp)
  have hstart : Going own q.request [] none none ⟨[], q.request, false, none, []⟩ own :=
    .start hpl.proper hpl.laid.order hidown fun l hl => (hq.outside l (hown l hl)).1
  obtain ⟨c, rest, right, hw, hend⟩ := walk_ends (B := B) hq.ranged hstart
    fun b hb => hpl.behind b (mem_of_mem_head? hb)
  obtain ⟨newFl, newFl2, hsub, hans, hlocks⟩ := Call.run_none h ha hpl hw
  have hspare : ∀ i ∈ newFl.toList ++ newFl2.toList, i ∉ own.map (·.id) := by
    intro i hi hin
    obtain ⟨l, hl, rfl⟩ := List.mem_map.mp hin
    exact (hq.outside l (hown l hl)).2 (hsub.subset hi)
  have hB : ∀ b ∈ B, b.id ∉ own.map (·.id) ∧ b.id ∉ newFl.toList ++ newFl2.toList := by
    intro b hb
    refine ⟨fun hin => ?_, fun hin => (hq.outside b (by simp [hpl.eq, hb])).2 (hsub.subset hin)⟩
    obtain ⟨l, hl, he⟩ := List.mem_map.mp hin
    have hpair := pairwise_map.mp hids
    rw [hpl.eq] at hpair
    exact (pairwise_append.mp hpair).2.2 l (by simp [hl]) b hb he
  obtain ⟨own', hown', happ⟩ := finish_ends hq.ranged hspare hB hq.posix (hq.distinct.sublist hsub)
    hend (hans.symm.trans hok)
  refine ⟨own', ?_, happ.laid, happ.proper, happ.has, happ.ids, fun l hl => ?_⟩
  · rw [hlocks, hown', List.append_assoc]
  · exact (happ.fresh l hl).imp_right fun hin => hsub.subset hin

theorem Call.run_fails (he : (q.run locks).answer ≠ .ok) : (q.run locks).locks = locks := by
  cases h : q.conflicting locks with
  | some fl => exact (Call.run_some h).2
  | none =>
    cases ha : q.flags.access with
    | true => rw [Call.run_access h ha]
    | false =>
      have hun : Untouched own q.request.owner ⟨[], q.request, false, none, []⟩ own := by
        refine ⟨.inl rfl, ?_, nofun, ?_, rfl, fun m hm => (hpl.proper m hm).owner⟩
        · refine hpl.laid.order.imp_of_mem fun {a b} ha _ hab => ?_
          have := hpl.laid.filled a ha
          have := hab.1
          omega
        · rw [hpl.eq] at hids
          exact hids.sublist (by simp)
      obtain ⟨c, rest, right, hw, hend⟩ := walk_untouched (B := B) hun
        fun b hb => hpl.behind b (mem_of_mem_head? hb)
      obtain ⟨newFl, newFl2, -, hans, hlocks⟩ := Call.run_none h ha hpl hw
      rw [hlocks, hend.finish (hans ▸ he), hpl.eq, List.append_assoc]

end Call

def Grouped (locks : List FileLock) : Prop :=
  ∃ others, ∃ runs : List (Nat × List FileLock), locks = others ++ runs.flatMap Prod.snd ∧
    (∀ l ∈ others, l.posix = false) ∧ (runs.map Prod.fst).Nodup ∧
    ∀ p ∈ runs, Laid FileLock.toSpan p.2 ∧ ∀ l ∈ p.2, Proper p.1 l

theorem Grouped.start (h : ∀ l ∈ others, l.posix = false) : Grouped others :=
  ⟨others, [], by simp, h, by simp, nofun⟩

theorem flatMap_filter_key {runs : List (Nat × List FileLock)}
    (h : ∀ p ∈ runs, p.1 = o → p.2 = []) :
    (runs.filter fun p => p.1 != o).flatMap Prod.snd = runs.flatMap Prod.snd := by
  induction runs with
  | nil => rfl
  | cons p runs ih =>
    have ih := ih fun p hp => h p (mem_cons_of_mem _ hp)
    by_cases ho : p.1 = o
    · simp [ho, ih, h p (by simp) ho]
    · simp [ho, ih]

theorem Grouped.place (h : Grouped locks) (o : Nat) : ∃ A own B, Place locks o A own B ∧
    ∀ own', Laid FileLock.toSpan own' → (∀ l ∈ own', Proper o l) → Grouped (A ++ own' ++ B) := by
  obtain ⟨others, runs, rfl, hothers, hkeys, hruns⟩ := h
  -- the runs of other owners have no lock of this one
  have howner : ∀ R : List (Nat × List FileLock), (∀ p ∈ R, p ∈ runs ∧ p.1 ≠ o) →
      ∀ l ∈ R.flatMap Prod.snd, l.owner ≠ o := by
    intro R hR l hl
    obtain ⟨p, hp, hl⟩ := mem_flatMap.mp hl
    rw [((hruns p (hR p hp).1).2 l hl).owner]
    exact (hR p hp).2
  have hahead : ∀ R : List (Nat × List FileLock), (∀ p ∈ R, p ∈ runs ∧ p.1 ≠ o) →
      ∀ l ∈ others ++ R.flatMap Prod.snd, l.posix = true → l.owner ≠ o := by
    intro R hR l hl hp
    rcases mem_append.mp hl with hl | hl
    · simp [hothers l hl] at hp
    · exact howner R hR l hl
  by_cases hrun : ∃ p ∈ runs, p.1 = o ∧ p.2 ≠ []
  · obtain ⟨p, hp, rfl, hne⟩ := hrun
    obtain ⟨R, R', rfl⟩ := append_of_mem hp
    rw [map_append] at hkeys
    have hkey := (nodup_cons.mp (nodup_middle.mp hkeys)).1
    rw [← map_append] at hkey
    have hR : ∀ p' ∈ R ++ R', p'.1 ≠ p.1 := fun p' hp' he => hkey (he ▸ List.mem_map_of_mem hp')
    refine ⟨others ++ R.flatMap Prod.snd, p.2, R'.flatMap Prod.snd, ⟨by simp, (hruns p hp).1,
      (hruns p hp).2, hahead R fun p' hp' => ⟨by simp [hp'], hR p' (by simp [hp'])⟩,
      howner R' fun p' hp' => ⟨by simp [hp'], hR p' (by simp [hp'])⟩, fun he => absurd he hne⟩,
      fun own' hlaid hproper => ?_⟩
    refine ⟨others, R ++ (p.1, own') :: R', by simp, hothers, by simpa using hkeys, ?_⟩
    intro p' hp'
    rcases mem_append.mp hp' with hp' | hp'
    · exact hruns p' (by simp [hp'])
    · rcases mem_cons.mp hp' with rfl | hp'
      · exact ⟨hlaid, hproper⟩
      · exact hruns p' (by simp [hp'])
  · have hempty : ∀ p ∈ runs, p.1 = o → p.2 = [] := fun p hp ho =>
      Classical.byContradiction fun hne => hrun ⟨p, hp, ho, hne⟩
    have hflat := flatMap_filter_key hempty
    have hR : ∀ p ∈ runs.filter (fun p => p.1 != o), p ∈ runs ∧ p.1 ≠ o := fun p hp => by
      simpa using hp
    refine ⟨others ++ (runs.filter fun p => p.1 != o).flatMap Prod.snd, [], [],
      ⟨by rw [hflat]; simp, ⟨.nil, nofun⟩, nofun, hahead _ hR, nofun, fun _ => rfl⟩,
      fun own' hlaid hproper => ?_⟩
    refine ⟨others, (runs.filter fun p => p.1 != o) ++ [(o, own')], by simp, hothers, ?_, ?_⟩
    · rw [map_append, map_cons, nodup_middle, nodup_cons]
      simp only [map_nil, append_nil]
      refine ⟨fun hin => ?_, hkeys.sublist ((filter_sublist).map Prod.fst)⟩
      obtain ⟨p, hp, he⟩ := List.mem_map.mp hin
      exact (hR p hp).2 he
    · intro p hp
      rcases mem_append.mp hp with hp | hp
      · exact hruns p (hR p hp).1
      · obtain rfl := mem_singleton.mp hp
        exact ⟨hlaid, hproper⟩

structure Filed (locks : List FileLock) : Prop where
  grouped : Grouped locks
  ids : (locks.map (·.id)).Nodup
  compatible : ∀ a ∈ locks, ∀ b ∈ locks, a.posix = true → b.posix = true → a.owner ≠ b.owner →
    locksOverlap a b = true → locksConflict a b = false

theorem Grouped.ranged (h : Grouped locks) (hl : l ∈ locks) (hp : l.posix = true) : Ranged l := by
  obtain ⟨A, own, B, hpl, -⟩ := h.place l.owner
  have hin : l ∈ held locks l.owner := mem_filter.mpr ⟨hl, by simp [hp]⟩
  rw [hpl.held] at hin
  exact (hpl.proper l hin).toRanged

theorem locksOverlap_iff (ha : Ranged a) (hb : Ranged b) :
    locksOverlap a b = true ↔ ∃ x, a.Covers x ∧ b.Covers x := by
  have hfa := ha.filled
  have hfb := hb.filled
  simp only [locksOverlap, Bool.and_eq_true, decide_eq_true_eq, Span.Covers]
  constructor
  · rintro ⟨h₁, h₂⟩
    exact ⟨max a.start b.start, by omega, by omega⟩
  · rintro ⟨x, h₁, h₂⟩
    omega

theorem locksOverlap_comm (a b : FileLock) : locksOverlap a b = locksOverlap b a :=
  Bool.and_comm _ _

theorem locksConflict_comm (a b : FileLock) : locksConflict a b = locksConflict b a :=
  Bool.or_comm _ _

theorem Applied.compatible (h : Applied own r spares own') (hr : Ranged r)
    (hown : ∀ a ∈ own, Ranged a) (hb : Ranged b)
    (hnew : r.type ≠ .unlck → locksOverlap r b = true → locksConflict r b = false)
    (hold : ∀ a ∈ own, locksOverlap a b = true → locksConflict a b = false)
    (ha : a ∈ own') (hab : locksOverlap a b = true) : locksConflict a b = false := by
  obtain ⟨x, hax, hbx⟩ := (locksOverlap_iff (h.proper a ha).toRanged hb).mp hab
  rcases (h.has x a.type).mp ⟨a, ha, hax, rfl⟩ with ⟨hrx, hun, ht⟩ | ⟨-, a', ha', hax', ht⟩
  · have := hnew hun ((locksOverlap_iff hr hb).mpr ⟨x, hrx, hbx⟩)
    simpa [locksConflict, ht] using this
  · have := hold a' ha' ((locksOverlap_iff (hown a' ha') hb).mpr ⟨x, hax', hbx⟩)
    simpa [locksConflict, ← ht] using this

theorem Applied.nodup (h : Applied own r spares own') (hids : ((A ++ own ++ B).map (·.id)).Nodup)
    (hout : ∀ l ∈ A ++ own ++ B, l.id ∉ spares) : ((A ++ own' ++ B).map (·.id)).Nodup := by
  have hpair := pairwise_map.mp hids
  obtain ⟨hAo, hB, hAoB⟩ := pairwise_append.mp hpair
  obtain ⟨hA, -, hAown⟩ := pairwise_append.mp hAo
  -- an old lock that differs from all of the owner's differs from the new ones
  have hne : ∀ l ∈ A ++ own ++ B, (∀ a ∈ own, a.id ≠ l.id) → ∀ n ∈ own', n.id ≠ l.id := by
    intro l hl hown n hn he
    rcases h.fresh n hn with hin | hin
    · obtain ⟨a, ha, hae⟩ := List.mem_map.mp hin
      exact hown a ha (hae.trans he)
    · exact hout l hl (he ▸ hin)
  refine pairwise_map.mpr (pairwise_append.mpr ⟨pairwise_append.mpr
    ⟨hA, pairwise_map.mp h.ids, fun l hl n hn he => ?_⟩, hB, fun l hl b hb he => ?_⟩)
  · exact hne l (by simp [hl]) (fun a ha he => hAown l hl a ha he.symm) n hn he.symm
  · rcases mem_append.mp hl with hl | hl
    · exact hAoB l (by simp [hl]) b hb he
    · exact hne b (by simp [hb]) (fun a ha => hAoB a (by simp [ha]) b hb) l hl he

theorem Filed.start (h : ∀ l ∈ others, l.posix = false) (hids : (others.map (·.id)).Nodup) :
    Filed others :=
  ⟨.start h, hids, fun a ha _ _ hp => by simp [h a ha] at hp⟩

section
variable {q : Call} (h : Filed locks) (hq : q.Allowed locks)
include h hq

theorem Filed.run_cases :
    (q.run locks).locks = locks ∨ q.conflicting locks = none ∧ ∃ A own B own',
      Place locks q.request.owner A own B ∧ (q.run locks).locks = A ++ own' ++ B ∧
      Applied own q.request q.spares own' ∧ Grouped (A ++ own' ++ B) := by
  obtain ⟨A, own, B, hpl, hre⟩ := h.grouped.place q.request.owner
  by_cases hok : (q.run locks).answer = .ok
  · cases hc : q.conflicting locks with
    | some fl => exact absurd hok (Call.run_some hc).1
    | none =>
      cases ha : q.flags.access with
      | true => exact .inl (by rw [Call.run_access hc ha])
      | false =>
        obtain ⟨own', hrun, happ⟩ := Call.run_ok hpl h.ids hq hc ha hok
        exact .inr ⟨rfl, A, own, B, own', hpl, hrun, happ, hre own' happ.laid happ.proper⟩
  · exact .inl (Call.run_fails hpl h.ids hok)

theorem Filed.step :
    Filed (q.run locks).locks := by
  rcases h.run_cases hq with hsame | ⟨hc, A, own, B, own', hpl, hrun, happ, hgroup⟩
  · rw [hsame]
    exact h
  rw [hrun]
  have heq := hpl.eq
  have hkept : ∀ l ∈ A ++ own' ++ B, l ∉ own' → l ∈ locks := fun l hl hn => by
    simp only [mem_append, heq] at hl ⊢
    tauto
  -- a new lock of the owner against a lock of another owner
  have hnew : ∀ a ∈ own', ∀ b ∈ locks, b.posix = true → a.owner ≠ b.owner →
      locksOverlap a b = true → locksConflict a b = false := by
    intro a ha b hb hbp hne hab
    have hbo : q.request.owner ≠ b.owner := (happ.proper a ha).owner ▸ hne
    refine happ.compatible hq.ranged (fun a ha => (hpl.proper a ha).toRanged)
      (h.grouped.ranged hb hbp) (fun hun hov => ?_) (fun a' ha' hov => ?_) ha hab
    · have hfree := Call.conflict_free hc hun hb hbp
      simpa [posixLocksConflict, posixSameOwner, hbp, hov, hbo] using hfree
    · have hp := hpl.proper a' ha'
      exact h.compatible a' (by simp [heq, ha']) b hb hp.posix hbp (hp.owner ▸ hbo) hov
  refine ⟨hgroup, happ.nodup (heq ▸ h.ids) fun l hl => (hq.outside l (heq ▸ hl)).2,
    fun a ha b hb hap hbp hne hab => ?_⟩
  by_cases ha' : a ∈ own'
  · by_cases hb' : b ∈ own'
    · exact absurd ((happ.proper a ha').owner.trans (happ.proper b hb').owner.symm) hne
    · exact hnew a ha' b (hkept b hb hb') hbp hne hab
  · by_cases hb' : b ∈ own'
    · rw [locksOverlap_comm] at hab
      rw [locksConflict_comm]
      exact hnew b hb' a (hkept a ha ha') hap hne.symm hab
    · exact h.compatible a (hkept a ha ha') b (hkept b hb hb') hap hbp hne hab

theorem Filed.refines (ha : q.flags.access = false) (hok : (q.run locks).answer = .ok)
    (o : Nat) (x : Int) :
    lockAt (q.run locks).locks o x =
      if o = q.request.owner ∧ q.request.Covers x then q.request.type else lockAt locks o x := by
  obtain ⟨A, own, B, hpl, -⟩ := h.grouped.place q.request.owner
  have hc : q.conflicting locks = none := eq_none_iff_forall_ne_some.mpr fun fl hc =>
    (Call.run_some hc).1 hok
  obtain ⟨own', hrun, happ⟩ := Call.run_ok hpl h.ids hq hc ha hok
  unfold lockAt
  rw [hrun]
  by_cases ho : o = q.request.owner
  · subst ho
    rw [hpl.held_append happ.proper, hpl.held, happ.lockAt hpl.laid x]
    simp
  · rw [hpl.held_other happ.proper ho]
    simp [ho]

end

/-- Each owner's POSIX locks stand together, ordered, disjoint and merged; no two owners conflict.-/
structure Orderly (locks : List FileLock) : Prop where
  sorted : ∀ o, ∃ A own B, locks = A ++ own ++ B ∧
    (∀ l ∈ own, l.posix = true ∧ l.owner = o ∧ l.start ≤ l.stop) ∧
    (∀ l ∈ A ++ B, l.posix = true → l.owner ≠ o) ∧
    own.Pairwise fun a b => a.stop < b.start ∧ (a.type = b.type → a.stop + 1 < b.start)
  compatible : ∀ a ∈ locks, ∀ b ∈ locks, a.posix = true → b.posix = true → a.owner ≠ b.owner →
    locksOverlap a b = true → a.type ≠ .wrlck ∧ b.type ≠ .wrlck

theorem Filed.orderly (h : Filed locks) : Orderly locks where
  sorted := by
    intro o
    obtain ⟨A, own, B, hpl, -⟩ := h.grouped.place o
    refine ⟨A, own, B, hpl.eq, fun l hl => ?_, fun l hl hp => ?_, hpl.laid.order⟩
    · have hl := hpl.proper l hl
      exact ⟨hl.posix, hl.owner, hl.filled⟩
    · rcases mem_append.mp hl with hl | hl
      · exact hpl.ahead l hl hp
      · exact hpl.behind l hl
  compatible := by
    intro a ha b hb hap hbp hne hab
    have hfree := h.compatible a ha b hb hap hbp hne hab
    simpa [locksConflict, and_comm] using hfree

theorem walk_unlockAll (i : Nat) (added : Bool) (woken : List Nat) (hown : ∀ l ∈ own, Proper o l)
    (hB : ∀ b ∈ B, b.owner ≠ o) :
    ∃ added' woken', walk ⟨[], unlockAll i o, added, none, woken⟩ (own ++ B) =
      (⟨[], unlockAll i o, added', none, woken'⟩, B, false) := by
  induction own generalizing added woken with
  | nil =>
    cases B with
    | nil => exact ⟨_, _, rfl⟩
    | cons b B =>
      exact ⟨added, woken, by simp [walk, posixSameOwner, unlockAll, (hB b (by simp)).symm]⟩
  | cons l own ih =>
    have hl := hown l mem_cons_self
    obtain ⟨added', woken', hw⟩ := ih true (woken ++ [l.id]) fun l hl =>
      hown l (mem_cons_of_mem _ hl)
    refine ⟨added', woken', Eq.trans ?_ hw⟩
    have hin : ¬ l.stop < 0 ∧ ¬ OFFSET_MAX < l.start ∧ ¬ l.start < 0 ∧ ¬ OFFSET_MAX < l.stop := by
      have := hl.nonneg
      have := hl.filled
      have := hl.bounded
      omega
    simp [walk, posixSameOwner, unlockAll, hl.owner, visit, otherType, hl.locked.symm, hl.nonneg,
      hin]

section Reached

variable {others locks : List FileLock} {qs : List Call} (hothers : ∀ l ∈ others, l.posix = false)
  (hids : (others.map (·.id)).Nodup)
  (hrun : Run (fun locks q => q.Allowed locks) Call.step others qs locks)
include hothers hids hrun

theorem Filed.reached : Filed locks :=
  hrun.invariant (fun {_ _ _} (h : Filed _) hq he => some.inj he ▸ h.step hq) (.start hothers hids)

theorem posix_lock_file_refines_map :
    Orderly locks ∧ ∀ q : Call, q.Allowed locks → q.flags.access = false →
      (q.run locks).answer = .ok → ∀ o x, lockAt (q.run locks).locks o x =
        if o = q.request.owner ∧ q.request.Covers x then q.request.type
        else lockAt locks o x := by
  have h := Filed.reached hothers hids hrun
  exact ⟨h.orderly, fun q hq ha hok => h.refines hq ha hok⟩

theorem posix_lock_file_error_unchanged (q : Call) (he : (q.run locks).answer ≠ .ok) :
    (q.run locks).locks = locks := by
  have h := Filed.reached hothers hids hrun
  obtain ⟨A, own, B, hpl, -⟩ := h.grouped.place q.request.owner
  exact Call.run_fails hpl h.ids he

/-- On a close the owner's locks go, and no other lock is touched. -/
theorem locks_remove_posix_releases (id o : Nat) :
    locksRemovePosix id o locks = locks.filter fun l => !l.posix || l.owner != o := by
  obtain ⟨A, own, B, hpl, -⟩ := (Filed.reached hothers hids hrun).grouped.place o
  have hkept : locks.filter (fun l => !l.posix || l.owner != o) = A ++ B := by
    rw [hpl.eq, filter_append, filter_append, filter_eq_self.mpr, filter_eq_nil_iff.mpr,
      filter_eq_self.mpr, append_nil]
    · exact fun l hl => by simp [hpl.behind l hl]
    · exact fun l hl => by simp [(hpl.proper l hl).posix, (hpl.proper l hl).owner]
    · simpa [imp_iff_not_or] using hpl.ahead
  rw [locksRemovePosix, hkept]
  split
  · rename_i hnil
    rw [← hkept, hnil, filter_nil]
  obtain ⟨htake, hdrop⟩ := hpl.skip (show (unlockAll id o).owner = o from rfl)
  obtain ⟨added, woken, hw⟩ := walk_unlockAll id false [] hpl.proper hpl.behind
  have ht : (unlockAll id o).type = .unlck := rfl
  cases added <;> simp [posixLockFile, ht, htake, hdrop, hw, finish, trimLeft]

end Reached

def tenBytes : FileLock := ⟨⟨0, 9, .wrlck⟩, 2, 1, true⟩

def lockTen : Call :=
  ⟨⟨false, false, false⟩, { tenBytes with id := 1 }, some 2, some 3, fun _ => false⟩

def inner (type : LockType) (spare spare2 : Option Nat) : Call :=
  ⟨⟨false, false, false⟩, ⟨⟨3, 5, type⟩, 4, 1, true⟩, spare, spare2, fun _ => false⟩

theorem lockTen_run : Run (fun locks q => q.Allowed locks) Call.step [] [lockTen] [tenBytes] :=
  .cons ⟨rfl, ⟨by decide, by decide, by decide⟩, nofun, by decide⟩ (by decide) (.nil _)

theorem posix_lock_file_refines_map_inner :
    lockAt ((inner .unlck (some 5) (some 6)).run [tenBytes]).locks 1 4 = .unlck ∧
      lockAt ((inner .unlck (some 5) (some 6)).run [tenBytes]).locks 1 6 = .wrlck := by
  have h := (posix_lock_file_refines_map (by simp) (by simp) lockTen_run).2
    (inner .unlck (some 5) (some 6)) ⟨rfl, ⟨by decide, by decide, by decide⟩, by decide, by decide⟩
    rfl (by decide) 1
  exact ⟨(h 4).trans (by decide), (h 6).trans (by decide)⟩

theorem posix_lock_file_error_inner :
    ((inner .rdlck (some 5) none).run [tenBytes]).answer = .error .ENOLCK ∧
      ((inner .rdlck (some 5) none).run [tenBytes]).locks = [tenBytes] :=
  ⟨by decide, posix_lock_file_error_unchanged (by simp) (by simp) lockTen_run _ (by decide)⟩

theorem locks_remove_posix_releases_ten : locksRemovePosix 4 1 [tenBytes] = [] :=
  (locks_remove_posix_releases (by simp) (by simp) lockTen_run 4 1).trans (by decide)

end SpicaKernel.PosixLocks
