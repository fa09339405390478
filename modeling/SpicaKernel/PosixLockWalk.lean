import SpicaKernel.PosixLocks

namespace SpicaKernel.PosixLocks
open List
set_option autoImplicit true

structure Ranged (l : FileLock) : Prop where
  nonneg : 0 ≤ l.start
  filled : l.start ≤ l.stop
  bounded : l.stop ≤ OFFSET_MAX

structure Proper (o : Nat) (l : FileLock) : Prop extends Ranged l where
  posix : l.posix = true
  owner : l.owner = o
  locked : l.type ≠ .unlck

/-- The walk on its way: the locks `P` end before the request, `lf` hangs into it from the left,
`nd` now stands for the request, and `rest` is still to come. -/
structure Going (own : List FileLock) (r : FileLock) (P : List FileLock) (lf nd : Option FileLock)
    (c : Cursor) (rest : List FileLock) : Prop where
  passed : c.passed = P ++ lf.toList ++ nd.toList
  left : c.left = lf.map (·.id)
  aim : c.request = nd.getD r
  node : ∀ n ∈ nd, Proper r.owner n ∧ n.type = r.type ∧ n.start ≤ r.start ∧ r.stop ≤ n.stop
  added : r.type ≠ .unlck → (c.added = true ↔ nd.isSome = true)
  before : ∀ l ∈ P, l.toSpan.Before c.request.toSpan
  hang : ∀ l ∈ lf, l.type ≠ r.type ∧ l.start < r.start ∧ r.start ≤ l.stop ∧ l.stop ≤ r.stop ∧
    c.request.start = r.start
  order : (P ++ lf.toList ++ rest).Pairwise fun a b => a.toSpan.Before b.toSpan
  proper : ∀ l ∈ P ++ lf.toList ++ rest, Proper r.owner l
  beyond : lf.isSome = true ∨ c.added = true →
    ∀ m ∈ rest, r.start ≤ m.start ∧ c.request.start < m.start
  far : c.request.stop = r.stop ∨ ∀ m ∈ rest, c.request.stop < m.start
  same : ∀ x k, ¬ r.Covers x → (HasAt FileLock.toSpan own x k ↔
    HasAt FileLock.toSpan (P ++ lf.toList ++ nd.toList ++ rest) x k)
  intact : c.passed ++ rest = own ∨ c.added = true
  ids : ((c.passed ++ rest).map (·.id)).Nodup
  foreign : ∀ l ∈ c.passed ++ rest, l.id ≠ r.id
  known : ∀ l ∈ c.passed ++ rest, l.id ∈ own.map (·.id)
  unlocking : r.type = .unlck → lf.isSome = true → c.added = true

theorem Going.start (hp : ∀ l ∈ own, Proper r.owner l)
    (ho : own.Pairwise fun a b => a.toSpan.Before b.toSpan) (hi : (own.map (·.id)).Nodup)
    (hf : ∀ l ∈ own, l.id ≠ r.id) : Going own r [] none none ⟨[], r, false, none, []⟩ own where
  passed := rfl
  left := rfl
  aim := rfl
  node := nofun
  added := by simp
  before := nofun
  hang := nofun
  order := ho
  proper := hp
  beyond := by simp
  far := .inl rfl
  same := by simp
  intact := .inl rfl
  ids := hi
  foreign := hf
  known := fun l hl => List.mem_map_of_mem hl
  unlocking := nofun

section Request

variable (h : Going own r P lf nd c rest)
include h

theorem Going.request_type : c.request.type = r.type := by
  rw [h.aim]
  cases nd with
  | none => rfl
  | some n => exact (h.node n rfl).2.1

theorem Going.request_owner : c.request.owner = r.owner := by
  rw [h.aim]
  cases nd with
  | none => rfl
  | some n => exact (h.node n rfl).1.owner

theorem Going.request_le : c.request.start ≤ r.start ∧ r.stop ≤ c.request.stop := by
  rw [h.aim]
  cases nd with
  | none => exact ⟨Int.le_refl _, Int.le_refl _⟩
  | some n => exact (h.node n rfl).2.2

end Request

section Step

variable (h : Going own r P lf nd c (fl :: rest))
include h

theorem Going.head : Proper r.owner fl := h.proper fl (by simp)

theorem Going.next : ∀ m ∈ rest, fl.toSpan.Before m.toSpan := by
  have ho := (pairwise_append.mp h.order).2.1
  exact (pairwise_cons.mp ho).1

theorem Going.prior : ∀ l ∈ P ++ lf.toList, l.toSpan.Before fl.toSpan := fun l hl =>
  (pairwise_append.mp h.order).2.2 l hl fl (by simp)

theorem Going.early (hfl : fl.start < c.request.start ∨ fl.stop < c.request.start) :
    lf = none ∧ nd = none ∧ c.added = false := by
  have hfill := h.head.filled
  have hnot : ¬ (lf.isSome = true ∨ c.added = true) := by
    intro hb
    have := (h.beyond hb fl (by simp)).2
    omega
  have hadd : c.added = false := by simpa using fun ha => hnot (.inr ha)
  refine ⟨by simpa using fun hl => hnot (.inl hl), ?_, hadd⟩
  cases hnd : nd with
  | none => rfl
  | some n =>
    have hn := h.node n (by simp [hnd])
    have hne : r.type ≠ .unlck := hn.2.1 ▸ hn.1.locked
    have := (h.added hne).mpr (by simp [hnd])
    simp [hadd] at this

theorem Going.pass (hfl : fl.toSpan.Before c.request.toSpan) :
    Going own r (P ++ [fl]) none none { c with passed := c.passed ++ [fl] } rest := by
  have hlt := hfl.1
  obtain ⟨rfl, rfl, hadd⟩ := h.early (.inr hlt)
  have hpassed : c.passed = P := by simpa using h.passed
  have haim : c.request = r := h.aim
  have hlist : P ++ [fl] ++ (none : Option FileLock).toList ++ rest = P ++ fl :: rest := by simp
  have horder : (P ++ fl :: rest).Pairwise fun a b => a.toSpan.Before b.toSpan := by
    simpa using h.order
  refine ⟨?_, h.left, haim, nofun, fun hne => ?_, fun l hl => ?_, nofun, ?_, fun l hl => ?_,
    ?_, .inl (by rw [haim]), fun x k hx => ?_, ?_, ?_, fun l hl => ?_, fun l hl => ?_, nofun⟩
  · simp [hpassed]
  · simpa using h.added hne
  · rcases mem_append.mp hl with hl | hl
    · exact h.before l hl
    · obtain rfl := mem_singleton.mp hl
      exact hfl
  · rw [hlist]
    exact horder
  · rw [hlist] at hl
    exact h.proper l (by simpa using hl)
  · simp [hadd]
  · have hs := h.same x k hx
    simpa [hasAt_cons] using hs
  · rcases h.intact with hi | hi
    · left
      simpa using hi
    · simp [hadd] at hi
  · simpa using h.ids
  · exact h.foreign l (by simpa using hl)
  · exact h.known l (by simpa using hl)

theorem Going.hangs (ht : fl.type ≠ r.type) (hlt : fl.start < c.request.start)
    (hge : c.request.start ≤ fl.stop) (hle : fl.stop ≤ c.request.stop)
    (ha : a = (c.added || r.type = .unlck)) :
    Going own r P (some fl) none
      { c with added := a, left := some fl.id, passed := c.passed ++ [fl] } rest := by
  obtain ⟨rfl, rfl, hadd⟩ := h.early (.inl hlt)
  have hpassed : c.passed = P := by simpa using h.passed
  have haim : c.request = r := h.aim
  rw [haim] at hlt hge hle
  have hnext := h.next
  have hintact : c.passed ++ fl :: rest = own := by
    rcases h.intact with hi | hi
    · exact hi
    · simp [hadd] at hi
  refine ⟨?_, rfl, haim, nofun, fun hne => ?_, h.before, fun l hl => ?_, ?_, fun l hl => ?_,
    fun _ m hm => ?_, .inl (by rw [haim]), fun x k hx => ?_, .inl ?_, ?_, fun l hl => ?_,
    fun l hl => ?_, fun hun _ => ?_⟩
  · simp [hpassed]
  · simp [ha, hne, hadd]
  · obtain rfl := Option.mem_some.mp hl
    exact ⟨ht, hlt, hge, hle, by rw [haim]⟩
  · simpa using h.order
  · exact h.proper l (by simpa using hl)
  · have := (hnext m hm).1
    rw [haim]
    omega
  · have hs := h.same x k hx
    simpa [hasAt_cons] using hs
  · simpa using hintact
  · simpa using h.ids
  · exact h.foreign l (by simpa using hl)
  · exact h.known l (by simpa using hl)
  · simp [ha, hun]

theorem Going.settle (hn : Proper r.owner n ∧ n.type = r.type ∧ n.start ≤ r.start ∧ r.stop ≤ n.stop)
    (hbefore : ∀ l ∈ P, l.toSpan.Before n.toSpan) (hhang : lf.isSome = true → n.start = r.start)
    (hbeyond : ∀ m ∈ rest, r.start ≤ m.start ∧ n.start < m.start)
    (hfar : n.stop = r.stop ∨ ∀ m ∈ rest, n.stop < m.start)
    (hsame : ∀ x k, ¬ r.Covers x → (HasAt FileLock.toSpan nd.toList x k ∨
      (fl.Covers x ∧ fl.type = k) ↔ n.Covers x ∧ n.type = k))
    (hid : n.id = fl.id ∧ nd = none ∨ ∃ m, nd = some m ∧ n.id = m.id) :
    Going own r P lf (some n) ⟨P ++ lf.toList ++ [n], n, true, c.left, w⟩ rest := by
  have horder : (P ++ lf.toList ++ rest).Pairwise fun a b => a.toSpan.Before b.toSpan :=
    h.order.sublist (by simp)
  have hids := h.ids
  have hforeign := h.foreign
  have hknown := h.known
  rw [h.passed] at hids hforeign hknown
  -- every address was there before
  have hold : ∀ l ∈ P ++ lf.toList ++ [n] ++ rest,
      ∃ l' ∈ P ++ lf.toList ++ nd.toList ++ fl :: rest, l.id = l'.id := by
    intro l hl
    rcases mem_append.mp hl with hl | hl
    · rcases mem_append.mp hl with hl | hl
      · exact ⟨l, mem_append_left _ (mem_append_left _ hl), rfl⟩
      · obtain rfl := mem_singleton.mp hl
        rcases hid with ⟨hid, rfl⟩ | ⟨m, rfl, hid⟩
        · exact ⟨fl, by simp, hid⟩
        · exact ⟨m, by simp, hid⟩
    · exact ⟨l, by simp [hl], rfl⟩
  refine ⟨rfl, h.left, rfl, fun m hm => ?_, fun _ => by simp, hbefore, fun l hl => ?_, horder,
    fun l hl => ?_, fun _ => hbeyond, hfar, fun x k hx => ?_, .inr rfl, ?_, fun l hl => ?_,
    fun l hl => ?_, fun _ _ => rfl⟩
  · obtain rfl := Option.mem_some.mp hm
    exact hn
  · obtain ⟨h₁, h₂, h₃, h₄, -⟩ := h.hang l hl
    exact ⟨h₁, h₂, h₃, h₄, hhang (by rw [Option.mem_def.mp hl]; rfl)⟩
  · refine h.proper l ?_
    simp only [mem_append] at hl ⊢
    tauto
  · rw [h.same x k hx]
    simp [hasAt_append, hasAt_cons, ← hsame x k hx, or_assoc]
  · rcases hid with ⟨hid, rfl⟩ | ⟨m, rfl, hid⟩
    · simpa [hid] using hids
    · simp only [Option.toList_some, map_append, map_cons, ← hid] at hids
      exact hids.sublist (by simp)
  · obtain ⟨l', hl', hid'⟩ := hold l hl
    rw [hid']
    exact hforeign l' hl'
  · obtain ⟨l', hl', hid'⟩ := hold l hl
    rw [hid']
    exact hknown l' hl'

theorem Going.merges (hadd : c.added = false) (ht : fl.type = r.type) (hr : Ranged r)
    (hlo : ¬ fl.stop < c.request.start - 1) (hhi : ¬ c.request.stop < fl.start - 1)
    (hn : n = { fl with
      start := min fl.start c.request.start, stop := max fl.stop c.request.stop }) :
    Going own r P lf (some n) ⟨P ++ lf.toList ++ [n], n, true, c.left, w⟩ rest := by
  have hp := h.head
  have hne : r.type ≠ .unlck := ht ▸ hp.locked
  obtain rfl : nd = none := by simpa [hadd] using h.added hne
  have haim : c.request = r := h.aim
  rw [haim] at hlo hhi hn
  have hfill := hp.filled
  have hstart : n.start = min fl.start r.start := by rw [hn]
  have hstop : n.stop = max fl.stop r.stop := by rw [hn]
  have htype : n.type = r.type := by rw [hn]; exact ht
  refine h.settle ⟨⟨⟨?_, ?_, ?_⟩, ?_, ?_, ?_⟩, htype, ?_, ?_⟩ (fun l hl => ?_) (fun hl => ?_)
    (fun m hm => ?_) ?_ (fun x k hx => ?_) (.inl ⟨by rw [hn], rfl⟩)
  · have := hp.nonneg
    have := hr.nonneg
    omega
  · omega
  · have := hp.bounded
    have := hr.bounded
    omega
  · rw [hn]
    exact hp.posix
  · rw [hn]
    exact hp.owner
  · rw [htype]
    exact hne
  · omega
  · omega
  · have hr := h.before l hl
    have hf := h.prior l (by simp [hl])
    rw [haim] at hr
    have h₁ := hr.1
    have h₂ := hf.1
    refine ⟨by omega, fun hk => ?_⟩
    have h₃ := hr.2 (hk.trans htype)
    have h₄ := hf.2 (hk.trans (htype.trans ht.symm))
    omega
  · have := (h.beyond (.inl hl) fl (by simp)).1
    omega
  · have := (h.next m hm).1
    omega
  · by_cases hle : fl.stop ≤ r.stop
    · exact .inl (by omega)
    · exact .inr fun m hm => by have := (h.next m hm).1; omega
  · simp only [Span.Covers, htype, ht, hasAt_nil, Option.toList_none, false_or] at hx ⊢
    constructor
    · rintro ⟨hc, rfl⟩
      exact ⟨by omega, rfl⟩
    · rintro ⟨hc, rfl⟩
      exact ⟨by omega, rfl⟩

theorem Going.absorbs (hnd : nd = some m) (ht : fl.type = r.type)
    (hlo : ¬ fl.stop < c.request.start - 1) (hhi : ¬ c.request.stop < fl.start - 1)
    (hn : n = { m with
      start := min fl.start c.request.start, stop := max fl.stop c.request.stop }) :
    Going own r P lf (some n) ⟨P ++ lf.toList ++ [n], n, true, c.left, w⟩ rest := by
  have hp := h.head
  have hne : r.type ≠ .unlck := ht ▸ hp.locked
  have hadd : c.added = true := (h.added hne).mpr (by rw [hnd]; rfl)
  subst hnd
  have haim : c.request = m := h.aim
  obtain ⟨hm, hmt, hms, hme⟩ := h.node m rfl
  have hbeyond := (h.beyond (.inr hadd) fl (by simp)).2
  have hbefore := h.before
  rw [haim] at hlo hhi hn hbeyond hbefore
  have hfill := hp.filled
  have hstart : n.start = m.start := by rw [hn]; simp only; omega
  have hstop : n.stop = max fl.stop m.stop := by rw [hn]
  have htype : n.type = m.type := by rw [hn]
  refine h.settle ⟨⟨⟨?_, ?_, ?_⟩, ?_, ?_, ?_⟩, ?_, ?_, ?_⟩ (fun l hl => ?_) (fun hl => ?_)
    (fun q hq => ?_) ?_ (fun x k hx => ?_) (.inr ⟨m, rfl, by rw [hn]⟩)
  · rw [hstart]
    exact hm.nonneg
  · have := hm.filled
    omega
  · have := hp.bounded
    have := hm.bounded
    omega
  · rw [hn]
    exact hm.posix
  · rw [hn]
    exact hm.owner
  · rw [htype]
    exact hm.locked
  · exact htype.trans hmt
  · omega
  · omega
  · have hb := hbefore l hl
    simp only [Span.Before, hstart, htype] at hb ⊢
    exact hb
  · obtain ⟨l, hl⟩ := Option.isSome_iff_exists.mp hl
    rw [hstart, ← haim]
    exact (h.hang l hl).2.2.2.2
  · have := (h.next q hq).1
    have := (h.beyond (.inr hadd) fl (by simp)).1
    omega
  · by_cases hle : fl.stop ≤ m.stop
    · have hfar := h.far
      rw [haim] at hfar
      rcases hfar with hfar | hfar
      · exact .inl (by omega)
      · exact .inr fun q hq => by have := hfar q (by simp [hq]); omega
    · exact .inr fun q hq => by have := (h.next q hq).1; omega
  · have hkind : m.type = fl.type := hmt.trans ht.symm
    simp only [Span.Covers, hstart, hstop, htype, hasAt_cons, hasAt_nil, or_false,
      Option.toList_some, hkind]
    constructor
    · rintro (⟨hc, rfl⟩ | ⟨hc, rfl⟩)
      · exact ⟨by omega, rfl⟩
      · exact ⟨by omega, rfl⟩
    · rintro ⟨hc, rfl⟩
      by_cases hx : x ≤ m.stop
      · exact .inl ⟨by omega, rfl⟩
      · exact .inr ⟨by omega, rfl⟩

theorem Going.replaces (hadd : c.added = false) (hne : r.type ≠ .unlck) (hr : Ranged r)
    (hlo : c.request.start ≤ fl.start) (hhi : fl.stop ≤ c.request.stop)
    (hn : n = { fl with
      start := c.request.start, stop := c.request.stop, type := c.request.type }) :
    Going own r P lf (some n) ⟨P ++ lf.toList ++ [n], n, true, c.left, w⟩ rest := by
  have hp := h.head
  obtain rfl : nd = none := by simpa [hadd] using h.added hne
  have haim : c.request = r := h.aim
  have hbefore := h.before
  rw [haim] at hlo hhi hn hbefore
  have hfill := hp.filled
  have hspan : n.toSpan = r.toSpan := by rw [hn]
  have hstart : n.start = r.start := by rw [hspan]
  have hstop : n.stop = r.stop := by rw [hspan]
  refine h.settle ⟨⟨⟨?_, ?_, ?_⟩, ?_, ?_, ?_⟩, by rw [hspan], ?_, ?_⟩ (fun l hl => ?_)
    (fun _ => hstart) (fun q hq => ?_) (.inl hstop) (fun x k hx => ?_) (.inl ⟨by rw [hn], rfl⟩)
  · rw [hstart]
    exact hr.nonneg
  · rw [hstart, hstop]
    exact hr.filled
  · rw [hstop]
    exact hr.bounded
  · rw [hn]
    exact hp.posix
  · rw [hn]
    exact hp.owner
  · rw [hspan]
    exact hne
  · omega
  · omega
  · rw [hspan]
    exact hbefore l hl
  · have := (h.next q hq).1
    omega
  · rw [hspan]
    have hnot : ¬ fl.Covers x := by
      unfold Span.Covers at hx ⊢
      omega
    simp [hasAt_nil, hnot, hx]

theorem Going.swallows (hnd : nd = some m) (hhi : fl.stop ≤ c.request.stop) :
    Going own r P lf (some m) ⟨P ++ lf.toList ++ [m], m, true, c.left, w⟩ rest := by
  have hp := h.head
  subst hnd
  have haim : c.request = m := h.aim
  obtain ⟨hm, hmt, hms, hme⟩ := h.node m rfl
  have hne : r.type ≠ .unlck := hmt ▸ hm.locked
  have hadd : c.added = true := (h.added hne).mpr rfl
  have hbeyond := h.beyond (.inr hadd)
  have hfar := h.far
  have hbefore := h.before
  rw [haim] at hhi hbeyond hfar hbefore
  refine h.settle ⟨hm, hmt, hms, hme⟩ hbefore (fun hl => ?_)
    (fun q hq => hbeyond q (by simp [hq])) ?_ (fun x k hx => ?_) (.inr ⟨m, rfl, rfl⟩)
  · obtain ⟨l, hl⟩ := Option.isSome_iff_exists.mp hl
    rw [← haim]
    exact (h.hang l hl).2.2.2.2
  · rcases hfar with hfar | hfar
    · exact .inl hfar
    · exact .inr fun q hq => hfar q (by simp [hq])
  · -- the lock lies in the requested range, not in what was merged to it
    have hnot : ¬ fl.Covers x := by
      have := (hbeyond fl (by simp)).1
      unfold Span.Covers at hx ⊢
      rcases hfar with hfar | hfar
      · omega
      · have := hfar fl (by simp)
        omega
    simp [hasAt_cons, hasAt_nil, hnot]

theorem Going.clears (hun : r.type = .unlck) (hlo : c.request.start ≤ fl.start)
    (hhi : fl.stop ≤ c.request.stop) :
    Going own r P lf none { c with added := true, woken := w } rest := by
  have hnd : nd = none := by
    cases hnd : nd with
    | none => rfl
    | some n =>
      have hn := h.node n (by simp [hnd])
      exact absurd (hn.2.1.trans hun) hn.1.locked
  subst hnd
  have haim : c.request = r := h.aim
  rw [haim] at hlo hhi
  have hfill := h.head.filled
  have hmem : ∀ l ∈ c.passed ++ rest, l ∈ c.passed ++ fl :: rest := fun l hl => by
    rcases mem_append.mp hl with hl | hl
    · exact mem_append_left _ hl
    · exact mem_append_right _ (mem_cons_of_mem _ hl)
  refine ⟨h.passed, h.left, haim, nofun, fun hne => absurd hun hne, h.before, h.hang,
    h.order.sublist (by simp), fun l hl => ?_, fun _ q hq => ?_, .inl (by rw [haim]),
    fun x k hx => ?_, .inr rfl, ?_, fun l hl => h.foreign l (hmem l hl),
    fun l hl => h.known l (hmem l hl), fun _ _ => rfl⟩
  · refine h.proper l ?_
    rcases mem_append.mp hl with hl | hl
    · exact mem_append_left _ hl
    · exact mem_append_right _ (mem_cons_of_mem _ hl)
  · have := (h.next q hq).1
    rw [haim]
    omega
  · rw [h.same x k hx]
    have hnot : ¬ fl.Covers x := by
      unfold Span.Covers at hx ⊢
      omega
    simp [hasAt_append, hasAt_cons, hnot]
  · exact h.ids.sublist (by simp)

omit h in
theorem map_fixed {l : List α} (hf : ∀ a ∈ l, f a = a) : l.map f = l :=
  (map_congr_left hf).trans (List.map_id' l)

theorem Going.widen_caller (hnd : nd = none) : (c.widen a b).passed = c.passed := by
  have hid : ∀ l ∈ c.passed, ¬ l.id = c.request.id := fun l hl => by
    rw [h.aim, hnd]
    exact h.foreign l (by simp [hl])
  unfold Cursor.widen
  exact map_fixed fun l hl => if_neg (hid l hl)

theorem Going.widen_node (hnd : nd = some m) :
    (c.widen a b).passed = P ++ lf.toList ++ [{ m with start := a, stop := b }] := by
  have hids := h.ids
  rw [h.passed, hnd] at hids
  have hne : ∀ l ∈ P ++ lf.toList, ¬ l.id = m.id := by
    have hpair := pairwise_map.mp hids
    have hfirst := (pairwise_append.mp hpair).1
    exact fun l hl => (pairwise_append.mp hfirst).2.2 l hl m (by simp)
  simp only [Cursor.widen, h.aim, h.passed, hnd, Option.getD_some, Option.toList_some]
  rw [map_append, map_singleton, if_pos rfl]
  congr 1
  exact map_fixed fun l hl => if_neg (hne l hl)

end Step

inductive Ended (own : List FileLock) (r : FileLock) : Cursor → List FileLock → Bool → Prop where
  | clear : Going own r P lf nd c rest → (∀ m ∈ rest, c.request.toSpan.Before m.toSpan) →
      Ended own r c rest false
  | cut : Going own r P lf nd c (fl :: rest) → fl.type ≠ r.type →
      c.request.start ≤ fl.start → fl.start ≤ c.request.stop → c.request.stop < fl.stop →
      a = (c.added || r.type = .unlck) → Ended own r { c with added := a } (fl :: rest) true
  | split : Going own r P none none c (fl :: rest) → fl.type ≠ r.type →
      fl.start < r.start → r.stop < fl.stop → c.added = false → a = decide (r.type = .unlck) →
      Ended own r { c with added := a, left := some fl.id } (fl :: rest) true

section Walk

variable {r : FileLock} (hr : Ranged r)
include hr

def Kept (own : List FileLock) (r fl : FileLock) (rest : List FileLock) : Round → Prop
  | .pass c fl' => ∃ P lf nd, Going own r P lf nd { c with passed := c.passed ++ [fl'] } rest
  | .drop c => ∃ P lf nd, Going own r P lf nd c rest
  | .leave c right => Ended own r c (fl :: rest) right

theorem kept_sameType (h : Going own r P lf nd c (fl :: rest)) (ht : fl.type = r.type) :
    Kept own r fl rest (sameType c fl) := by
  have hp := h.head
  have hne : r.type ≠ .unlck := ht ▸ hp.locked
  unfold sameType
  split
  · rename_i hlt
    exact ⟨_, _, _, h.pass ⟨by omega, fun _ => by omega⟩⟩
  split
  · rename_i hlt
    refine .clear h fun m hm => ?_
    rcases mem_cons.mp hm with rfl | hm
    · exact ⟨by omega, fun _ => by omega⟩
    · have := (h.next m hm).1
      have := hp.filled
      exact ⟨by omega, fun _ => by omega⟩
  · rename_i hlo hhi
    cases hadd : c.added with
    | false =>
      have hnd : nd = none := by simpa [hadd] using h.added hne
      have hm := h.merges hadd ht hr hlo hhi rfl (w := c.woken)
      have hpassed : c.passed = P ++ lf.toList := by simpa [hnd] using h.passed
      have hw := h.widen_caller hnd (a := min fl.start c.request.start)
        (b := max fl.stop c.request.stop)
      simp only [Cursor.widen, hpassed] at hw
      simp only [Cursor.widen, hadd, hpassed, hw]
      exact ⟨_, _, _, hm⟩
    | true =>
      obtain ⟨m, hnd⟩ := Option.isSome_iff_exists.mp ((h.added hne).mp hadd)
      have hm := h.absorbs hnd ht hlo hhi rfl (w := c.woken ++ [fl.id])
      have hw := h.widen_node hnd (a := min fl.start c.request.start)
        (b := max fl.stop c.request.stop)
      have haim : c.request = m := by rw [h.aim, hnd]; rfl
      simp only [Cursor.widen] at hw
      simp only [Cursor.widen, hadd, hw]
      rw [haim] at hm ⊢
      exact ⟨_, _, _, hm⟩

omit hr in
theorem otherType_overlap (c : Cursor) (fl : FileLock) (hlo : ¬ fl.stop < c.request.start)
    (hhi : ¬ c.request.stop < fl.start) :
    otherType c fl = let a := c.added || c.request.type = .unlck
      let left := if fl.start < c.request.start then some fl.id else c.left
      if c.request.stop < fl.stop then .leave { c with added := a, left := left } true
      else if c.request.start ≤ fl.start then
        if a then .drop { c with added := a, left := left, woken := c.woken ++ [fl.id] }
        else
          let fl' := { fl with
            start := c.request.start, stop := c.request.stop, type := c.request.type }
          .pass ⟨c.passed, fl', true, left, c.woken ++ [fl.id]⟩ fl'
      else .pass { c with added := a, left := left } fl := by
  unfold otherType
  rw [if_neg hlo, if_neg hhi]
  by_cases hu : c.request.type = .unlck <;> by_cases hs : fl.start < c.request.start <;>
    simp [hu, hs]

theorem kept_otherType (h : Going own r P lf nd c (fl :: rest)) (ht : fl.type ≠ r.type) :
    Kept own r fl rest (otherType c fl) := by
  have hp := h.head
  have htype := h.request_type
  have hfill := hp.filled
  by_cases hlo : fl.stop < c.request.start
  · rw [otherType, if_pos hlo]
    exact ⟨_, _, _, h.pass ⟨hlo, fun he => absurd (he.trans htype) ht⟩⟩
  by_cases hhi : c.request.stop < fl.start
  · rw [otherType, if_neg hlo, if_pos hhi]
    refine .clear h fun m hm => ?_
    rcases mem_cons.mp hm with rfl | hm
    · exact ⟨hhi, fun he => absurd (he.symm.trans htype) ht⟩
    · have := (h.next m hm).1
      exact ⟨by omega, fun _ => by omega⟩
  rw [otherType_overlap c fl hlo hhi, htype]
  by_cases hstart : fl.start < c.request.start
  · -- the lock hangs out of the request to the left, and perhaps to the right too
    obtain ⟨rfl, rfl, hadd⟩ := h.early (.inl hstart)
    have haim : c.request = r := h.aim
    simp only [if_pos hstart, if_neg (Int.not_le.mpr hstart), hadd, Bool.false_or]
    split
    · rename_i hstop
      rw [haim] at hstart hstop
      exact .split h ht hstart hstop hadd rfl
    · exact ⟨_, _, _, h.hangs ht hstart (by omega) (by omega) (by simp [hadd])⟩
  · simp only [if_neg hstart, if_pos (Int.not_lt.mp hstart)]
    split
    · rename_i hstop
      exact .cut h ht (by omega) (by omega) hstop rfl
    · -- the request covers the lock
      have hlo : c.request.start ≤ fl.start := by omega
      have hhi : fl.stop ≤ c.request.stop := by omega
      by_cases hun : r.type = .unlck
      · simp only [hun, decide_true, Bool.or_true, if_true]
        exact ⟨_, _, _, h.clears hun hlo hhi⟩
      · cases hadd : c.added with
        | false =>
          have hnd : nd = none := by simpa [hadd] using h.added hun
          have hpassed : c.passed = P ++ lf.toList := by simpa [hnd] using h.passed
          simp only [hun, decide_false, Bool.or_false, Bool.false_eq_true, if_false, Kept, hpassed]
          exact ⟨_, _, _, h.replaces hadd hun hr hlo hhi rfl⟩
        | true =>
          obtain ⟨m, hnd⟩ := Option.isSome_iff_exists.mp ((h.added hun).mp hadd)
          have hpassed : c.passed = P ++ lf.toList ++ [m] := by simpa [hnd] using h.passed
          have haim : c.request = m := by rw [h.aim, hnd]; rfl
          simp only [Bool.true_or, if_true, Kept, hpassed, haim]
          exact ⟨_, _, _, h.swallows hnd hhi⟩

theorem walk_ends (h : Going own r P lf nd c rest) (hB : ∀ b ∈ B.head?, b.owner ≠ r.owner) :
    ∃ c' rest' right, walk c (rest ++ B) = (c', rest' ++ B, right) ∧
      Ended own r c' rest' right := by
  induction rest generalizing P lf nd c with
  | nil =>
    refine ⟨c, [], false, ?_, .clear h nofun⟩
    cases B with
    | nil => rfl
    | cons b B =>
      have hne : posixSameOwner c.request b = false := by
        simpa [posixSameOwner, h.request_owner] using fun he => hB b rfl he.symm
      simp [walk, hne]
  | cons fl rest ih =>
    have hsame : posixSameOwner c.request fl = true := by
      simp [posixSameOwner, h.request_owner, h.head.owner]
    have hkept : Kept own r fl rest (visit c fl) := by
      unfold visit
      split
      · rename_i ht
        exact kept_sameType hr h (ht.symm.trans h.request_type)
      · rename_i ht
        exact kept_otherType hr h fun he => ht (h.request_type.trans he.symm)
    simp only [List.cons_append, walk, hsame]
    cases hv : visit c fl with
    | pass c' fl' =>
      rw [hv] at hkept
      obtain ⟨P', lf', nd', h'⟩ := hkept
      exact ih h'
    | drop c' =>
      rw [hv] at hkept
      obtain ⟨P', lf', nd', h'⟩ := hkept
      exact ih h'
    | leave c' right =>
      rw [hv] at hkept
      exact ⟨c', fl :: rest, right, rfl, hkept⟩

end Walk

end SpicaKernel.PosixLocks
