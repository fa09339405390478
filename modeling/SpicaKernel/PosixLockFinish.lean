import Mathlib.Data.List.Nodup
import SpicaKernel.PosixLockWalk

namespace SpicaKernel.PosixLocks
open List
set_option autoImplicit true

structure Applied (own : List FileLock) (r : FileLock) (spares : List Nat)
    (own' : List FileLock) : Prop where
  laid : Laid FileLock.toSpan own'
  proper : ∀ l ∈ own', Proper r.owner l
  has : ∀ x k, HasAt FileLock.toSpan own' x k ↔
    (r.Covers x ∧ r.type ≠ .unlck ∧ k = r.type) ∨ (¬ r.Covers x ∧ HasAt FileLock.toSpan own x k)
  ids : (own'.map (·.id)).Nodup
  fresh : ∀ l ∈ own', l.id ∈ own.map (·.id) ∨ l.id ∈ spares

theorem Applied.of_parts (hr : Ranged r) (hq : q.start ≤ r.start ∧ r.stop ≤ q.stop)
    (hA : A.Pairwise fun a b => a.toSpan.Before b.toSpan) (hAq : ∀ a ∈ A, a.toSpan.Before q)
    (hR : R.Pairwise fun a b => a.toSpan.Before b.toSpan) (hqR : ∀ m ∈ R, q.Before m.toSpan)
    (hM : M = [] ∧ r.type = .unlck ∨
      ∃ n, M = [n] ∧ n.toSpan = q ∧ n.type = r.type ∧ Proper r.owner n)
    (hp : ∀ l ∈ A ++ R, Proper r.owner l)
    (hsame : ∀ x k, ¬ r.Covers x →
      (HasAt FileLock.toSpan own x k ↔ HasAt FileLock.toSpan (A ++ M ++ R) x k))
    (hids : ((A ++ M ++ R).map (·.id)).Nodup)
    (hfresh : ∀ l ∈ A ++ M ++ R, l.id ∈ own.map (·.id) ∨ l.id ∈ spares) :
    Applied own r spares (A ++ M ++ R) := by
  have hfill := hr.filled
  have hproper : ∀ l ∈ A ++ M ++ R, Proper r.owner l := by
    intro l hl
    rcases mem_append.mp hl with hl | hl
    · rcases mem_append.mp hl with hl | hl
      · exact hp l (mem_append_left _ hl)
      · rcases hM with ⟨rfl, -⟩ | ⟨n, rfl, -, -, hn⟩
        · cases hl
        · exact mem_singleton.mp hl ▸ hn
    · exact hp l (mem_append_right _ hl)
  refine ⟨⟨?_, fun l hl => (hproper l hl).filled⟩, hproper, fun x k => ?_, hids, hfresh⟩
  · have hAR : ∀ a ∈ A, ∀ m ∈ R, a.toSpan.Before m.toSpan := fun a ha m hm =>
      (hAq a ha).trans (by omega) (hqR m hm)
    rcases hM with ⟨rfl, -⟩ | ⟨n, rfl, rfl, -, -⟩
    · rw [append_nil]
      exact pairwise_append.mpr ⟨hA, hR, hAR⟩
    · rw [List.append_assoc]
      refine pairwise_append.mpr ⟨hA, pairwise_cons.mpr ⟨hqR, hR⟩, fun a ha m hm => ?_⟩
      rcases mem_cons.mp hm with rfl | hm
      · exact hAq a ha
      · exact hAR a ha m hm
  · by_cases hx : r.Covers x
    · -- in the requested range neither side has anything
      have hAx : ¬ HasAt FileLock.toSpan A x k := by
        rintro ⟨a, ha, hax, -⟩
        have := (hAq a ha).1
        unfold Span.Covers at hx hax
        omega
      have hRx : ¬ HasAt FileLock.toSpan R x k := by
        rintro ⟨m, hm, hmx, -⟩
        have := (hqR m hm).1
        unfold Span.Covers at hx hmx
        omega
      simp only [hasAt_append, hAx, hRx, hx, not_true, false_and, false_or]
      rcases hM with ⟨rfl, hun⟩ | ⟨n, rfl, rfl, ht, hn⟩
      · simp [hasAt_nil, hun]
      · have hnx : n.Covers x := by
          unfold Span.Covers at hx ⊢
          omega
        simp only [hasAt_cons, hasAt_nil, or_false, hnx, true_and, ht]
        exact ⟨fun hk => ⟨ht ▸ hn.locked, hk.symm⟩, fun hk => hk.2.symm⟩
    · rw [← hsame x k hx]
      simp [hx]

theorem trimLeft_append : trimLeft left s (l ++ l') = trimLeft left s l ++ trimLeft left s l' :=
  map_append

theorem trimLeft_other (h : ∀ l ∈ locks, left ≠ some l.id) : trimLeft left s locks = locks :=
  map_fixed fun l hl => if_neg (h l hl)

def cutLeft (l : FileLock) (s : Int) : FileLock := { l with stop := s - 1 }

def cutRight (l : FileLock) (e : Int) : FileLock := { l with start := e + 1 }

theorem Proper.cutLeft (h : Proper o l) (hs : l.start < s) (hle : s ≤ l.stop) :
    Proper o (cutLeft l s) :=
  ⟨⟨h.nonneg, show l.start ≤ s - 1 by omega, by
    have := h.bounded
    exact (show s - 1 ≤ OFFSET_MAX by omega)⟩, h.posix, h.owner, h.locked⟩

theorem Proper.cutRight (h : Proper o l) (hs : l.start ≤ e) (hlt : e < l.stop) :
    Proper o (cutRight l e) :=
  ⟨⟨by have := h.nonneg; exact (show 0 ≤ e + 1 by omega), show e + 1 ≤ l.stop by omega,
    h.bounded⟩, h.posix, h.owner, h.locked⟩

theorem before_cutLeft (ht : l.type ≠ q.type) : (cutLeft l q.start).toSpan.Before q :=
  ⟨show q.start - 1 < q.start by omega, fun he => absurd he ht⟩

theorem before_cutRight {q : Span LockType} (ht : l.type ≠ q.type) :
    q.Before (cutRight l q.stop).toSpan :=
  ⟨show q.stop < q.stop + 1 by omega, fun he => absurd he.symm ht⟩

section Left

variable (h : Going own r P lf nd c rest)
include h

theorem Going.trim_passed : trimLeft c.left (c.request.start - 1) c.passed =
      P ++ (lf.map (cutLeft · c.request.start)).toList ++ nd.toList := by
  have hids := h.ids
  rw [h.passed] at hids ⊢
  rw [h.left]
  cases lf with
  | none => simpa using trimLeft_other fun _ _ => by simp
  | some l =>
    have hpair := pairwise_map.mp hids
    have hpass := (pairwise_append.mp hpair).1
    have hpl := (pairwise_append.mp hpass).1
    have hP : ∀ a ∈ P, some l.id ≠ some a.id := fun a ha he =>
      (pairwise_append.mp hpl).2.2 a ha l (by simp) (Option.some.inj he).symm
    have hnd : ∀ a ∈ nd.toList, some l.id ≠ some a.id := fun a ha he =>
      (pairwise_append.mp hpass).2.2 l (by simp) a ha (Option.some.inj he)
    have hl : trimLeft (some l.id) (c.request.start - 1) [l] = [cutLeft l c.request.start] := by
      simp [trimLeft, cutLeft]
    simp only [Option.map_some, Option.toList_some]
    rw [trimLeft_append, trimLeft_append, trimLeft_other hP, trimLeft_other hnd, hl]

theorem Going.left_ne (hm : m ∈ rest) : c.left ≠ some m.id := by
  rw [h.left]
  cases lf with
  | none => nofun
  | some l =>
    intro he
    have hids := h.ids
    rw [h.passed] at hids
    have hpair := pairwise_map.mp hids
    exact (pairwise_append.mp hpair).2.2 l (by simp) m hm (Option.some.inj he)

theorem Going.left_known (hl : c.left = some i) : i ∈ own.map (·.id) := by
  rw [h.left] at hl
  obtain ⟨l, rfl, rfl⟩ := Option.map_eq_some_iff.mp hl
  exact h.known l (by rw [h.passed]; simp)

theorem Going.leftPart (hA : A = P ++ (lf.map (cutLeft · c.request.start)).toList) :
    (A.Pairwise fun a b => a.toSpan.Before b.toSpan) ∧
    (∀ a ∈ A, a.toSpan.Before c.request.toSpan) ∧ (∀ a ∈ A, Proper r.owner a) ∧
    (∀ x k, ¬ r.Covers x → (HasAt FileLock.toSpan A x k ↔
      HasAt FileLock.toSpan (P ++ lf.toList) x k)) ∧
    A.map (·.id) = (P ++ lf.toList).map (·.id) := by
  subst hA
  have hleft := (pairwise_append.mp h.order).1
  have hprop : ∀ l ∈ P ++ lf.toList, Proper r.owner l := fun l hl =>
    h.proper l (mem_append_left _ hl)
  have htype := h.request_type
  cases lf with
  | none =>
    simp only [Option.map_none, Option.toList_none, append_nil] at hleft hprop ⊢
    exact ⟨hleft, h.before, hprop, fun _ _ _ => trivial, trivial⟩
  | some l =>
    obtain ⟨ht, hlt, hge, hle, hstart⟩ := h.hang l rfl
    have hl : Proper r.owner l := hprop l (by simp)
    have hpl := (pairwise_append.mp hleft)
    simp only [Option.map_some, Option.toList_some]
    refine ⟨?_, fun a ha => ?_, fun a ha => ?_, fun x k hx => ?_, by simp [cutLeft]⟩
    · refine pairwise_append.mpr ⟨hpl.1, by simp, fun a ha b hb => ?_⟩
      obtain rfl := mem_singleton.mp hb
      exact hpl.2.2 a ha l (by simp)
    · rcases mem_append.mp ha with ha | ha
      · exact h.before a ha
      · obtain rfl := mem_singleton.mp ha
        exact before_cutLeft (by rw [htype]; exact ht)
    · rcases mem_append.mp ha with ha | ha
      · exact hprop a (by simp [ha])
      · obtain rfl := mem_singleton.mp ha
        exact hl.cutLeft (by omega) (by omega)
    · rw [hstart]
      have hcov : (cutLeft l r.start).Covers x ↔ l.Covers x := by
        change l.start ≤ x ∧ x ≤ r.start - 1 ↔ l.start ≤ x ∧ x ≤ l.stop
        unfold Span.Covers at hx
        omega
      simp only [hasAt_append, hasAt_cons, hcov]
      rfl

end Left

theorem Going.unlck_node (h : Going own r P lf nd c rest) (hun : r.type = .unlck) : nd = none := by
  cases nd with
  | none => rfl
  | some n =>
    have hn := h.node n rfl
    exact absurd (hn.2.1.trans hun) hn.1.locked

theorem Going.applied (h : Going own r P lf nd c rest) (hr : Ranged r)
    (hM : M = [] ∧ r.type = .unlck ∨ ∃ n, M = [n] ∧ n.toSpan = c.request.toSpan ∧ Proper r.owner n)
    (hMid : M.map (·.id) = nd.toList.map (·.id) ∨ nd = none ∧ ∃ i ∈ spares, M.map (·.id) = [i])
    (hspare : ∀ i ∈ spares, i ∉ own.map (·.id))
    (hR : R.Pairwise fun a b => a.toSpan.Before b.toSpan)
    (hqR : ∀ m ∈ R, c.request.toSpan.Before m.toSpan) (hRp : ∀ m ∈ R, Proper r.owner m)
    (hRs : ∀ x k, ¬ r.Covers x → (HasAt FileLock.toSpan R x k ↔ HasAt FileLock.toSpan rest x k))
    (hRid : R.map (·.id) = rest.map (·.id)) :
    Applied own r spares (P ++ (lf.map (cutLeft · c.request.start)).toList ++ M ++ R) := by
  generalize hAe : P ++ (lf.map (cutLeft · c.request.start)).toList = A
  obtain ⟨hA, hAq, hAp, hAs, hAid⟩ := h.leftPart hAe.symm
  have hids := h.ids
  have hknown : ∀ i ∈ (c.passed ++ rest).map (·.id), i ∈ own.map (·.id) := fun i hi => by
    obtain ⟨l, hl, rfl⟩ := List.mem_map.mp hi
    exact h.known l hl
  rw [h.passed, map_append, map_append] at hids hknown
  refine .of_parts hr h.request_le hA hAq hR hqR ?_ (fun l hl => ?_) (fun x k hx => ?_) ?_
    (fun l hl => ?_)
  · rcases hM with hM | ⟨n, hMn, hspan, hn⟩
    · exact .inl hM
    · exact .inr ⟨n, hMn, hspan, by rw [hspan]; exact h.request_type, hn⟩
  · rcases mem_append.mp hl with hl | hl
    · exact hAp l hl
    · exact hRp l hl
  · have hMs : HasAt FileLock.toSpan M x k ↔ HasAt FileLock.toSpan nd.toList x k := by
      rcases hM with ⟨rfl, hun⟩ | ⟨n, rfl, hspan, hn⟩
      · rw [h.unlck_node hun]
        rfl
      · cases nd with
        | none =>
          have haim : c.request = r := h.aim
          simp [hasAt_cons, hspan, haim, hx]
        | some m =>
          have haim : c.request = m := h.aim
          simp [hasAt_cons, hspan, haim]
    rw [h.same x k hx, hasAt_append _ (l := A ++ M), hasAt_append _ (l := A), hAs x k hx,
      hRs x k hx, hMs, ← hasAt_append, ← hasAt_append]
  · rw [map_append, map_append, hAid, hRid]
    rcases hMid with hMid | ⟨rfl, i, hi, hMid⟩
    · rw [hMid]
      exact hids
    · simp only [Option.toList_none, map_nil, append_nil] at hids hknown
      rw [hMid, List.append_assoc, singleton_append, nodup_middle, nodup_cons]
      exact ⟨fun hin => hspare i hi (hknown i hin), hids⟩
  · have hin : l.id ∈ (P ++ lf.toList).map (·.id) ++ M.map (·.id) ++ rest.map (·.id) := by
      rw [← hAid, ← hRid, ← map_append, ← map_append]
      exact List.mem_map_of_mem hl
    rcases hMid with hMid | ⟨rfl, i, hi, hMid⟩
    · rw [hMid] at hin
      exact .inl (hknown _ hin)
    · rw [hMid] at hin
      simp only [Option.toList_none, map_nil, append_nil] at hknown
      simp only [mem_append, mem_singleton] at hin hknown
      rcases hin with (hin | rfl) | hin
      · exact .inl (hknown _ (.inl hin))
      · exact .inr hi
      · exact .inl (hknown _ (.inr hin))

section Right

variable (h : Going own r P lf nd c (fl :: rest)) (hhi : fl.start ≤ c.request.stop)
  (hlt : c.request.stop < fl.stop)
include h hhi

theorem Going.request_stop : c.request.stop = r.stop := by
  rcases h.far with hf | hf
  · exact hf
  · have := hf fl (by simp)
    omega

include hlt

theorem Going.rightPart (ht : fl.type ≠ r.type) :
    ((cutRight fl c.request.stop :: rest).Pairwise fun a b => a.toSpan.Before b.toSpan) ∧
    (∀ m ∈ cutRight fl c.request.stop :: rest, c.request.toSpan.Before m.toSpan) ∧
    (∀ m ∈ cutRight fl c.request.stop :: rest, Proper r.owner m) := by
  have horder := (pairwise_append.mp h.order).2.1
  refine ⟨pairwise_cons.mpr ⟨h.next, horder.tail⟩, fun m hm => ?_, fun m hm => ?_⟩
  · rcases mem_cons.mp hm with rfl | hm
    · exact before_cutRight (by rw [h.request_type]; exact ht)
    · have := (h.next m hm).1
      exact ⟨by omega, fun _ => by omega⟩
  · rcases mem_cons.mp hm with rfl | hm
    · exact h.head.cutRight hhi hlt
    · exact h.proper m (by simp [hm])

omit hlt in
theorem Going.right_has (hlo : r.start ≤ fl.start) (hx : ¬ r.Covers x) :
    HasAt FileLock.toSpan (cutRight fl c.request.stop :: rest) x k ↔
      HasAt FileLock.toSpan (fl :: rest) x k := by
  have hstop := h.request_stop hhi
  have hcov : (cutRight fl c.request.stop).Covers x ↔ fl.Covers x := by
    change c.request.stop + 1 ≤ x ∧ x ≤ fl.stop ↔ fl.start ≤ x ∧ x ≤ fl.stop
    unfold Span.Covers at hx
    omega
  simp only [hasAt_cons, hcov]
  rfl

end Right

def Finished (own : List FileLock) (r : FileLock) (spares : List Nat) (B : List FileLock)
    (o : Outcome) : Prop :=
  o.answer = .ok → ∃ own', o.locks = own' ++ B ∧ Applied own r spares own'

section
variable (h : Going own r P lf nd c rest)
include h

theorem Going.node_none (hadd : c.added = false) : nd = none := by
  by_cases hun : r.type = .unlck
  · exact h.unlck_node hun
  · simpa [hadd] using h.added hun

theorem Going.intact_of (hadd : c.added = false) :
    c.passed ++ rest = own := by
  rcases h.intact with hi | hi
  · exact hi
  · simp [hadd] at hi

theorem Going.node_spec (hun : r.type ≠ .unlck)
    (hadd : c.added = true) :
    ∃ n, nd.toList = [n] ∧ n.toSpan = c.request.toSpan ∧ Proper r.owner n := by
  obtain ⟨n, rfl⟩ := Option.isSome_iff_exists.mp ((h.added hun).mp hadd)
  refine ⟨n, rfl, ?_, (h.node n rfl).1⟩
  rw [h.aim]
  rfl

theorem Going.trimmed (hX : ∀ m ∈ X, c.left ≠ some m.id) :
    trimLeft c.left (c.request.start - 1) (c.passed ++ X) =
      P ++ (lf.map (cutLeft · c.request.start)).toList ++ nd.toList ++ X := by
  rw [trimLeft_append, h.trim_passed, trimLeft_other hX]

end

theorem covers_halves {fl r : FileLock} (hfill : r.start ≤ r.stop) (hlo : fl.start < r.start)
    (hhi : r.stop < fl.stop) (hx : ¬ r.Covers x) : fl.Covers x ↔
      (cutLeft { fl with id := j } r.start).Covers x ∨ (cutRight fl r.stop).Covers x := by
  change fl.start ≤ x ∧ x ≤ fl.stop ↔
    (fl.start ≤ x ∧ x ≤ r.start - 1) ∨ (r.stop + 1 ≤ x ∧ x ≤ fl.stop)
  unfold Span.Covers at hx
  omega

theorem nodup_between (hAB : (A ++ B).Nodup) (hj : j ∉ A ++ B)
    (hM : M = [] ∨ ∃ n, M = [n] ∧ n ∉ A ++ B ∧ n ≠ j) : (A ++ [j] ++ M ++ B).Nodup := by
  have hmid : (A ++ j :: B).Nodup := by
    rw [nodup_middle, nodup_cons]
    exact ⟨hj, hAB⟩
  rcases hM with rfl | ⟨n, rfl, hn, hnj⟩
  · simpa using hmid
  · have hn' : n ∉ A ++ j :: B := by
      rw [mem_append, not_or] at hn
      simp [hn.1, hn.2, hnj]
    have hnodup := nodup_cons.mpr ⟨hn', hmid⟩
    rw [append_cons, ← nodup_middle] at hnodup
    exact List.append_assoc (A ++ [j]) [n] B ▸ hnodup

theorem Going.halved (h : Going own r P none none c (fl :: rest)) (hown : P ++ fl :: rest = own)
    (hr : Ranged r) (ht : fl.type ≠ r.type) (hlo : fl.start < r.start) (hhi : r.stop < fl.stop)
    (hM : M = [] ∧ r.type = .unlck ∨
      ∃ n, M = [n] ∧ n.toSpan = r.toSpan ∧ n.type = r.type ∧ Proper r.owner n)
    (hMid : ∀ n ∈ M, n.id ∈ spares ∧ n.id ≠ j) (hj : j ∈ spares)
    (hspare : ∀ i ∈ spares, i ∉ own.map (·.id)) :
    Applied own r spares
      (P ++ [cutLeft { fl with id := j } r.start] ++ M ++ cutRight fl r.stop :: rest) := by
  have haim : c.request = r := h.aim
  have hfill := hr.filled
  obtain ⟨hR, hqR, hRp⟩ := h.rightPart (by rw [haim]; omega) (by rw [haim]; omega) ht
  rw [haim] at hR hqR hRp
  have hP : P.Pairwise fun a b => a.toSpan.Before b.toSpan :=
    (pairwise_append.mp (pairwise_append.mp h.order).1).1
  have hPfl : ∀ a ∈ P, a.toSpan.Before fl.toSpan := fun a ha =>
    (pairwise_append.mp h.order).2.2 a (by simp [ha]) fl (by simp)
  have hfl : Proper r.owner { fl with id := j } := by
    obtain ⟨⟨hn, hf, hb⟩, hp, ho, hl⟩ := h.head
    exact ⟨⟨hn, hf, hb⟩, hp, ho, hl⟩
  have hids : (own.map (·.id)).Nodup := by
    have hids := h.ids
    rw [h.passed] at hids
    simpa [← hown] using hids
  refine .of_parts hr ⟨Int.le_refl _, Int.le_refl _⟩ ?_ (fun a ha => ?_) hR hqR hM (fun l hl => ?_)
    (fun x k hx => ?_) ?_ (fun l hl => ?_)
  · refine pairwise_append.mpr ⟨hP, by simp, fun a ha b hb => ?_⟩
    obtain rfl := mem_singleton.mp hb
    exact hPfl a ha
  · rcases mem_append.mp ha with ha | ha
    · rw [← haim]
      exact h.before a ha
    · obtain rfl := mem_singleton.mp ha
      exact before_cutLeft ht
  · rcases mem_append.mp hl with hl | hl
    · rcases mem_append.mp hl with hl | hl
      · exact h.proper l (by simp [hl])
      · obtain rfl := mem_singleton.mp hl
        exact hfl.cutLeft hlo (show r.start ≤ fl.stop by omega)
    · exact hRp l hl
  · have hcov := covers_halves (j := j) hfill hlo hhi hx
    have hMx : ¬ HasAt FileLock.toSpan M x k := by
      rintro ⟨n, hn, hnx, -⟩
      rcases hM with ⟨rfl, -⟩ | ⟨m, rfl, hspan, -⟩
      · cases hn
      · obtain rfl := mem_singleton.mp hn
        exact hx (hspan ▸ hnx)
    rw [← hown]
    simp only [hasAt_append, hasAt_cons, hasAt_nil, hMx, or_false, hcov, or_and_right, or_assoc]
    rfl
  · rw [← hown, map_append] at hids hspare
    have hnames : M.map (·.id) = [] ∨ ∃ n, M.map (·.id) = [n] ∧
        n ∉ P.map (·.id) ++ (fl :: rest).map (·.id) ∧ n ≠ j := by
      rcases hM with ⟨rfl, -⟩ | ⟨n, rfl, -⟩
      · exact .inl rfl
      · obtain ⟨hin, hne⟩ := hMid n (by simp)
        exact .inr ⟨n.id, rfl, hspare n.id hin, hne⟩
    simp only [map_append]
    exact nodup_between hids (hspare j hj) hnames
  · rcases mem_append.mp hl with hl | hl
    · rcases mem_append.mp hl with hl | hl
      · rcases mem_append.mp hl with hl | hl
        · exact .inl (List.mem_map_of_mem (by simp [← hown, hl]))
        · obtain rfl := mem_singleton.mp hl
          exact .inr hj
      · exact .inr (hMid l hl).1
    · rcases mem_cons.mp hl with rfl | hl
      · exact .inl (List.mem_map_of_mem (a := fl) (by simp [← hown]))
      · exact .inl (List.mem_map_of_mem (by simp [← hown, hl]))

section Finish

variable {r : FileLock} {own B : List FileLock} {newFl newFl2 : Option Nat} (hr : Ranged r)
  (hspare : ∀ i ∈ newFl.toList ++ newFl2.toList, i ∉ own.map (·.id))
  (hB : ∀ b ∈ B, b.id ∉ own.map (·.id) ∧ b.id ∉ newFl.toList ++ newFl2.toList)
include hr hspare hB

omit hspare hB in
theorem proper_copy (hp : r.posix = true) (hun : r.type ≠ .unlck) (i : Nat) :
    Proper r.owner { r with id := i } :=
  ⟨⟨hr.nonneg, hr.filled, hr.bounded⟩, hp, rfl, hun⟩

theorem finish_clear (hp : r.posix = true) (h : Going own r P lf nd c rest)
    (hend : ∀ m ∈ rest, c.request.toSpan.Before m.toSpan) :
    Finished own r (newFl.toList ++ newFl2.toList) B
      (finish flags newFl newFl2 c (rest ++ B) false) := by
  have horder := (pairwise_append.mp h.order).2.1
  have hproper : ∀ m ∈ rest, Proper r.owner m := fun m hm => h.proper m (by simp [hm])
  have hrest : ∀ m ∈ rest ++ B, c.left ≠ some m.id := by
    intro m hm he
    rcases mem_append.mp hm with hm | hm
    · exact h.left_ne hm he
    · exact (hB m hm).1 (h.left_known he)
  have htype := h.request_type
  cases hadd : c.added with
  | true =>
    refine fun _ => ⟨_, ?_, h.applied hr (M := nd.toList) ?_ (.inl rfl) hspare
      horder hend hproper (fun _ _ _ => Iff.rfl) rfl⟩
    · simp only [finish, hadd, Bool.false_and, Bool.not_true, Bool.false_eq_true, if_false,
        append_nil]
      rw [h.trimmed hrest, List.append_assoc _ rest B]
    · by_cases hun : r.type = .unlck
      · exact .inl ⟨by rw [h.unlck_node hun]; rfl, hun⟩
      · exact .inr (h.node_spec hun hadd)
  | false =>
    obtain rfl := h.node_none hadd
    have haim : c.request = r := h.aim
    have hown := h.intact_of hadd
    by_cases hun : r.type = .unlck
    · -- nothing of the owner is in the range that is to be unlocked
      have hlf : lf = none := by simpa [hadd] using h.unlocking hun
      have hlocks : (finish flags newFl newFl2 c (rest ++ B) false).locks = own ++ B := by
        simp [finish, hadd, htype, hun, ← hown]
      have happ := h.applied hr (M := []) (.inl ⟨rfl, hun⟩) (.inl rfl) hspare horder hend hproper
        (fun _ _ _ => Iff.rfl) rfl
      have hP : c.passed = P := by simpa [hlf] using h.passed
      exact fun _ => ⟨own, hlocks, by simpa [hlf, ← hP, hown] using happ⟩
    · cases newFl with
      | none =>
        intro hok
        simp [finish, hadd, htype, hun] at hok
      | some i =>
        have hi : i ∉ own.map (·.id) := hspare i (by simp)
        refine fun _ => ⟨_, ?_, h.applied hr (M := [{ r with id := i }])
            (.inr ⟨_, rfl, by rw [haim], proper_copy hr hp hun i⟩)
            (.inr ⟨rfl, i, by simp, rfl⟩) hspare horder hend hproper (fun _ _ _ => Iff.rfl) rfl⟩
        have hX : ∀ m ∈ [{ r with id := i }] ++ (rest ++ B), c.left ≠ some m.id := by
          intro m hm he
          rcases mem_append.mp hm with hm | hm
          · obtain rfl := mem_singleton.mp hm
            exact hi (h.left_known he)
          · exact hrest m hm he
        have htrim := h.trimmed hX
        simp only [Option.toList_none, append_nil] at htrim
        simp only [finish, hadd, Bool.false_and, Bool.not_false, Bool.true_and, htype, hun,
          Bool.false_eq_true, if_false, beq_iff_eq, Option.isNone_some,
          List.append_assoc] at htrim ⊢
        rw [← htrim, haim]

theorem finish_cut (hp : r.posix = true) (h : Going own r P lf nd c (fl :: rest))
    (ht : fl.type ≠ r.type) (hlo : c.request.start ≤ fl.start) (hhi : fl.start ≤ c.request.stop)
    (hlt : c.request.stop < fl.stop) (ha : a = (c.added || r.type = .unlck)) :
    Finished own r (newFl.toList ++ newFl2.toList) B
      (finish flags newFl newFl2 { c with added := a } (fl :: rest ++ B) true) := by
  obtain ⟨hR, hqR, hRp⟩ := h.rightPart hhi hlt ht
  have hne : (some fl.id == c.left) = false := by
    simpa using fun he => h.left_ne (m := fl) (by simp) he.symm
  have hstart : r.start ≤ fl.start := by
    cases hadd : c.added with
    | true => exact (h.beyond (.inr hadd) fl (by simp)).1
    | false =>
      have haim : c.request = r := by rw [h.aim, h.node_none hadd]; rfl
      rwa [haim] at hlo
  have hRs := fun x k hx => h.right_has (x := x) (k := k) hhi hstart hx
  have hrest : ∀ m ∈ cutRight fl c.request.stop :: rest ++ B, c.left ≠ some m.id := by
    intro m hm he
    rcases mem_append.mp hm with hm | hm
    · rcases mem_cons.mp hm with rfl | hm
      · exact h.left_ne (m := fl) (by simp) he
      · exact h.left_ne (by simp [hm]) he
    · exact (hB m hm).1 (h.left_known he)
  have htype := h.request_type
  cases a with
  | true =>
    refine fun _ => ⟨_, ?_, h.applied hr (M := nd.toList) ?_ (.inl rfl) hspare hR hqR hRp hRs rfl⟩
    · have htrim := h.trimmed hrest
      simp only [finish, hne, List.cons_append, head?_cons, Option.map_some, Bool.and_false,
        Bool.false_and, Bool.not_true, Bool.false_eq_true, if_false, append_nil,
        List.append_assoc] at htrim ⊢
      exact htrim
    · by_cases hun : r.type = .unlck
      · exact .inl ⟨by rw [h.unlck_node hun]; rfl, hun⟩
      · exact .inr (h.node_spec hun (by simpa [hun] using ha))
  | false =>
    simp only [Bool.false_eq, Bool.or_eq_false_iff, decide_eq_false_iff_not] at ha
    obtain ⟨hadd, hun⟩ := ha
    obtain rfl := h.node_none hadd
    have haim : c.request = r := h.aim
    have hown := h.intact_of hadd
    cases newFl with
    | none =>
      intro hok
      simp [finish, htype, hun, hne] at hok
    | some i =>
      have hi : i ∉ own.map (·.id) := hspare i (by simp)
      refine fun _ => ⟨_, ?_, h.applied hr (M := [{ r with id := i }])
          (.inr ⟨_, rfl, by rw [haim], proper_copy hr hp hun i⟩)
          (.inr ⟨rfl, i, by simp, rfl⟩) hspare hR hqR hRp hRs rfl⟩
      have hX : ∀ m ∈ [{ r with id := i }] ++ (cutRight fl c.request.stop :: rest ++ B),
          c.left ≠ some m.id := by
        intro m hm he
        rcases mem_append.mp hm with hm | hm
        · obtain rfl := mem_singleton.mp hm
          exact hi (h.left_known he)
        · exact hrest m hm he
      have htrim := h.trimmed hX
      simp only [finish, hne, htype, hun, List.cons_append, head?_cons, Option.map_some,
        Bool.and_false, Bool.false_and, Bool.not_false, Bool.true_and, Bool.false_eq_true, if_false,
        beq_iff_eq, Option.isNone_some, Option.toList_none, append_nil,
        List.append_assoc] at htrim ⊢
      rw [← htrim, haim]
      rfl

theorem finish_split (hp : r.posix = true) (hdis : (newFl.toList ++ newFl2.toList).Nodup)
    (h : Going own r P none none c (fl :: rest)) (ht : fl.type ≠ r.type)
    (hlo : fl.start < r.start) (hhi : r.stop < fl.stop) (hadd : c.added = false)
    (ha : a = decide (r.type = .unlck)) :
    Finished own r (newFl.toList ++ newFl2.toList) B
      (finish flags newFl newFl2 { c with added := a, left := some fl.id } (fl :: rest ++ B)
        true) := by
  have haim : c.request = r := h.aim
  have hP : c.passed = P := by simpa using h.passed
  have hown := h.intact_of hadd
  cases newFl2 with
  | none =>
    intro hok
    simp [finish] at hok
  | some j =>
    have hj : j ∈ newFl.toList ++ (some j).toList := by simp
    have htrim : ∀ M : List FileLock, (∀ n ∈ M, n.id ≠ j) → trimLeft (some j) (r.start - 1)
            (P ++ [{ fl with id := j }] ++ M ++ cutRight fl r.stop :: (rest ++ B)) =
          P ++ [cutLeft { fl with id := j } r.start] ++ M ++ cutRight fl r.stop :: rest ++ B := by
      intro M hM
      have hother : ∀ l ∈ own, some j ≠ some l.id := fun l hl he =>
        hspare j hj (Option.some.inj he ▸ List.mem_map_of_mem hl)
      have hPj : ∀ l ∈ P, some j ≠ some l.id := fun l hl => hother l (by simp [← hown, hP, hl])
      have hMj : ∀ l ∈ M, some j ≠ some l.id := fun l hl he => hM l hl (Option.some.inj he).symm
      have hend : ∀ l ∈ cutRight fl r.stop :: (rest ++ B), some j ≠ some l.id := by
        intro l hl he
        rcases mem_cons.mp hl with rfl | hl
        · exact hother fl (by simp [← hown]) he
        · rcases mem_append.mp hl with hl | hl
          · exact hother l (by simp [← hown, hl]) he
          · exact (hB l hl).2 (Option.some.inj he ▸ hj)
      have hfl : trimLeft (some j) (r.start - 1) [{ fl with id := j }] =
          [cutLeft { fl with id := j } r.start] := by
        simp [trimLeft, cutLeft]
      rw [trimLeft_append, trimLeft_append, trimLeft_append, trimLeft_other hPj,
        trimLeft_other hMj, trimLeft_other hend, hfl, List.append_assoc _ (_ :: rest) B]
      rfl
    by_cases hun : r.type = .unlck
    · refine fun _ => ⟨_, ?_, h.halved (hP ▸ hown) hr ht hlo hhi (M := [])
        (.inl ⟨rfl, hun⟩) (by simp) hj hspare⟩
      have htrim := htrim [] (by simp)
      simpa [finish, ha, hun, haim, hP, cutRight] using htrim
    · cases newFl with
      | none =>
        intro hok
        simp [finish, ha, hun, haim] at hok
      | some i =>
        have hij : i ≠ j := by simpa using hdis
        refine fun _ => ⟨_, ?_, h.halved (hP ▸ hown) hr ht hlo hhi
          (M := [{ r with id := i }]) (.inr ⟨_, rfl, rfl, rfl, proper_copy hr hp hun i⟩)
          (by simpa using hij) hj hspare⟩
        have htrim := htrim [{ r with id := i }] (by simpa using hij)
        simpa [finish, ha, hun, haim, hP, cutRight] using htrim

theorem finish_ends (hp : r.posix = true) (hdis : (newFl.toList ++ newFl2.toList).Nodup)
    (h : Ended own r c rest right) :
    Finished own r (newFl.toList ++ newFl2.toList) B
      (finish flags newFl newFl2 c (rest ++ B) right) := by
  cases h with
  | clear h hend => exact finish_clear hr hspare hB hp h hend
  | cut h ht hlo hhi hlt ha => exact finish_cut hr hspare hB hp h ht hlo hhi hlt ha
  | split h ht hlo hhi hadd ha => exact finish_split hr hspare hB hp hdis h ht hlo hhi hadd ha

end Finish

end SpicaKernel.PosixLocks
