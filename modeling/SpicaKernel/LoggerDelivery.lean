import SpicaKernel.LoggerWrites
import SpicaKernel.Runs

namespace SpicaKernel.Logger
open List Option
set_option autoImplicit true

section

variable {J J' J₁ : Journal} {id : Nat}

def Journal.cursor (J : Journal) (id : Nat) : Option Nat :=
  (J.cursors.find? fun c => c.1 = id).map Prod.snd

structure Journal.Ok (J : Journal) : Prop where
  head : J.head ≤ J.entries.length
  le : ∀ c ∈ J.cursors, c.2 ≤ J.entries.length
  named : ∀ c ∈ J.cursors, c.1 < J.nextReader

theorem Journal.cursor_mem (h : J.cursor id = some k) : (id, k) ∈ J.cursors := by
  obtain ⟨c, hc, rfl⟩ := map_eq_some_iff.mp h
  have hid : c.1 = id := by simpa using find?_some hc
  exact hid ▸ mem_of_find?_eq_some hc

theorem Journal.cursor_eq_none : J.cursor id = none ↔ ∀ c ∈ J.cursors, c.1 ≠ id := by
  simp [Journal.cursor]

theorem Journal.cursor_map (J : Journal) (hf : ∀ c, (f c).1 = c.1)
    (id : Nat) : Journal.cursor { J with cursors := J.cursors.map f } id =
      (J.cursor id).map fun k => (f (id, k)).2 := by
  unfold Journal.cursor
  have hname : (fun c => decide (c.1 = id)) ∘ f = fun c => decide (c.1 = id) := by
    funext c
    simp [hf]
  rw [find?_map, hname]
  cases hc : J.cursors.find? (fun c => decide (c.1 = id)) with
  | none => rfl
  | some c =>
    have hid : c.1 = id := by simpa using find?_some hc
    simp [← hid]

theorem setCursor_name (id k : Nat) (c : Nat × Nat) :
    (if c.1 = id then (id, k) else c).1 = c.1 := by
  split
  next h => exact h.symm
  next => rfl

theorem Journal.Moved.cursor (h : Journal.Moved Move len J J') (id : Nat) :
    (J.cursor id = none ∧ J'.cursor id = none) ∨
      ∃ k k', J.cursor id = some k ∧ J'.cursor id = some k' ∧ Move J.entries len k k' := by
  have hids : ∀ c c' : Nat × Nat, (c'.1 = c.1 ∧ Move J.entries len c.2 c'.2) →
      decide (c.1 = id) = decide (c'.1 = id) := by
    rintro c c' ⟨hname, -⟩
    rw [hname]
  unfold Journal.cursor
  rcases find?_forall₂ h.cursors hids with ⟨hc, hc'⟩ | ⟨c, c', hc, hc', -, hmove⟩
  · rw [hc, hc']
    exact .inl ⟨rfl, rfl⟩
  · rw [hc, hc']
    exact .inr ⟨c.2, c'.2, rfl, rfl, hmove⟩

theorem Journal.Moved.cursor_some (h : Journal.Moved Move len J J') (hk : J.cursor id = some k) :
    ∃ k', J'.cursor id = some k' ∧ Move J.entries len k k' := by
  rcases h.cursor id with ⟨hnone, -⟩ | ⟨k₀, k', hk₀, hk', hmove⟩
  · rw [hk] at hnone
    cases hnone
  · rw [hk, some.injEq] at hk₀
    exact ⟨k', hk', hk₀ ▸ hmove⟩

theorem Journal.Moved.cursor_none (h : Journal.Moved Move len J J') (hk : J.cursor id = none) :
    J'.cursor id = none := by
  rcases h.cursor id with ⟨-, hnone⟩ | ⟨k, k', hk', -⟩
  · exact hnone
  · rw [hk] at hk'
    cases hk'

theorem mem_forall₂_right (h : Forall₂ R as bs) (hb : b ∈ bs) : ∃ a ∈ as, R a b := by
  induction h with
  | nil => cases hb
  | cons hab hrest ih =>
    rcases mem_cons.mp hb with rfl | hmem
    · exact ⟨_, mem_cons_self, hab⟩
    · obtain ⟨a, ha, hr⟩ := ih hmem
      exact ⟨a, mem_cons_of_mem _ ha, hr⟩

theorem Journal.Ok.moved (h : J.Ok) (hm : J.Moved (Advances n) len J') : J'.Ok where
  head := by
    rw [hm.entries]
    exact hm.head.le_length
  le := by
    intro c' hc'
    obtain ⟨c, -, -, hmove⟩ := mem_forall₂_right hm.cursors hc'
    rw [hm.entries]
    exact hmove.le_length
  named := by
    intro c' hc'
    obtain ⟨c, hc, hname, -⟩ := mem_forall₂_right hm.cursors hc'
    rw [hm.nextReader, hname]
    exact h.named c hc

theorem Journal.Ok.append (h : J.Ok) (e : List UInt8) :
    Journal.Ok { J with entries := J.entries ++ [e] } where
  head := by
    rw [length_append]
    exact Nat.le_add_right_of_le h.head
  le := by
    intro c hc
    rw [length_append]
    exact Nat.le_add_right_of_le (h.le c hc)
  named := h.named

theorem Journal.read_cases (J : Journal) (id count : Nat) (copied : Bool) :
    (∃ e, J.read id count copied = (J, .error e)) ∨
      ∃ k e, J.cursor id = some k ∧ J.entries[k]? = some e ∧ J.read id count copied =
          ({ J with cursors := J.cursors.map fun c => if c.1 = id then (id, k + 1) else c },
            .entry e) := by
  unfold Journal.read Journal.cursor
  cases hc : J.cursors.find? (fun c => decide (c.1 = id)) with
  | none => exact .inl ⟨_, rfl⟩
  | some c =>
    dsimp only
    cases he : J.entries[c.2]? with
    | none => exact .inl ⟨_, rfl⟩
    | some e =>
      dsimp only
      split
      next => exact .inl ⟨_, rfl⟩
      next =>
        split
        next => exact .inl ⟨_, rfl⟩
        next => exact .inr ⟨c.2, e, rfl, he, rfl⟩

theorem Journal.Ok.step (h : J.Ok) (hs : J.Step (Advances n) op out J') : J'.Ok := by
  cases hs with
  | «open» =>
    refine ⟨h.head, ?_, ?_⟩
    · intro c hc
      rcases mem_append.mp hc with hold | hnew
      · exact h.le c hold
      · rw [mem_singleton.mp hnew]
        exact h.head
    · intro c hc
      rcases mem_append.mp hc with hold | hnew
      · exact Nat.lt_succ_of_lt (h.named c hold)
      · rw [mem_singleton.mp hnew]
        exact Nat.lt_succ_self _
  | release _ id =>
    exact ⟨h.head, fun c hc => h.le c (mem_of_mem_filter hc),
      fun c hc => h.named c (mem_of_mem_filter hc)⟩
  | read _ id count copied =>
    rcases J.read_cases id count copied with ⟨e, he⟩ | ⟨k, e, hk, he, hr⟩
    · rw [he]
      exact h
    · rw [hr]
      have hlt := (List.getElem?_eq_some_iff.mp he).1
      have hnamed := h.named _ (Journal.cursor_mem hk)
      refine ⟨h.head, ?_, ?_⟩
      · intro c hc
        obtain ⟨c', hc', rfl⟩ := List.mem_map.mp hc
        split
        next => exact hlt
        next => exact h.le c' hc'
      · intro c hc
        obtain ⟨c', hc', rfl⟩ := List.mem_map.mp hc
        split
        next => exact hnamed
        next => exact h.named c' hc'
  | flush =>
    refine ⟨Nat.le_refl _, ?_, ?_⟩
    · intro c hc
      obtain ⟨c', -, rfl⟩ := List.mem_map.mp hc
      exact Nat.le_refl _
    · intro c hc
      obtain ⟨c', hc', rfl⟩ := List.mem_map.mp hc
      exact h.named c' hc'
  | empty => exact h
  | write hlen hmoved => exact hmoved.entries ▸ (h.moved hmoved).append _
  | fault hlen hbad hmoved => exact h.moved hmoved

theorem Journal.Step.reader (hs : J.Step (Advances n) op out J₁) (hok : J.Ok)
    (hk : J.cursor id = some k) :
    (∃ e, J.entries[k]? = some e ∧ J₁.cursor id = some (k + 1) ∧
      ∀ ops outs, received id (op :: ops) (out :: outs) = e :: received id ops outs) ∨
    ((∀ ops outs, received id (op :: ops) (out :: outs) = received id ops outs) ∧
      ((∃ k', k ≤ k' ∧ J₁.cursor id = some k') ∨ (J₁.cursor id = none ∧ id < J₁.nextReader))) := by
  have hmem := Journal.cursor_mem hk
  cases hs with
  | «open» =>
    refine .inr ⟨fun _ _ => rfl, .inl ⟨k, Nat.le_refl k, ?_⟩⟩
    obtain ⟨c, hc, rfl⟩ := map_eq_some_iff.mp hk
    unfold Journal.cursor
    rw [find?_append, hc]
    rfl
  | release _ id' =>
    refine .inr ⟨fun _ _ => rfl, ?_⟩
    by_cases hid : id' = id
    · refine .inr ⟨?_, hok.named _ hmem⟩
      rw [Journal.cursor_eq_none]
      intro c hc
      have hne := (mem_filter.mp hc).2
      simpa [hid] using hne
    · refine .inl ⟨k, Nat.le_refl k, ?_⟩
      rw [← hk, Journal.cursor, find?_filter]
      congr 2
      funext c
      by_cases hc : c.1 = id
      · simp [hc, Ne.symm hid]
      · simp [hc]
  | read _ id' count copied =>
    rcases J.read_cases id' count copied with ⟨e, he⟩ | ⟨k', e, hk', he, hr⟩
    · rw [he]
      exact .inr ⟨fun _ _ => rfl, .inl ⟨k, Nat.le_refl k, hk⟩⟩
    · rw [hr]
      have hcursor := J.cursor_map (setCursor_name id' (k' + 1)) id
      rw [hk] at hcursor
      by_cases hid : id' = id
      · subst hid
        rw [hk', some.injEq] at hk
        subst hk
        refine .inl ⟨e, he, ?_, fun ops outs => if_pos rfl⟩
        rw [hcursor]
        simp
      · refine .inr ⟨fun ops outs => if_neg hid, .inl ⟨k, Nat.le_refl k, ?_⟩⟩
        rw [hcursor]
        simp [Ne.symm hid]
  | flush =>
    refine .inr ⟨fun _ _ => rfl, .inl ⟨J.entries.length, hok.le _ hmem, ?_⟩⟩
    have hcursor := J.cursor_map (f := fun c => (c.1, J.entries.length)) (fun _ => rfl) id
    rw [hk] at hcursor
    exact hcursor
  | empty => exact .inr ⟨fun _ _ => rfl, .inl ⟨k, Nat.le_refl k, hk⟩⟩
  | write hlen hmoved =>
    obtain ⟨k', hk', hmove⟩ := hmoved.cursor_some hk
    exact .inr ⟨fun _ _ => rfl, .inl ⟨k', hmove.le, hk'⟩⟩
  | fault hlen hbad hmoved =>
    obtain ⟨k', hk', hmove⟩ := hmoved.cursor_some hk
    exact .inr ⟨fun _ _ => rfl, .inl ⟨k', hmove.le, hk'⟩⟩

theorem Journal.Step.stranger (hs : J.Step (Advances n) op out J₁) (hk : J.cursor id = none) :
    (∀ ops outs, received id (op :: ops) (out :: outs) = received id ops outs) ∧
      J.nextReader ≤ J₁.nextReader ∧ (id < J.nextReader → J₁.cursor id = none) := by
  have hnone := Journal.cursor_eq_none.mp hk
  cases hs with
  | «open» =>
    refine ⟨fun _ _ => rfl, Nat.le_succ _, fun hid => ?_⟩
    rw [Journal.cursor_eq_none]
    intro c hc
    rcases mem_append.mp hc with hold | hnew
    · exact hnone c hold
    · rw [mem_singleton.mp hnew]
      exact Nat.ne_of_gt hid
  | release _ id' =>
    refine ⟨fun _ _ => rfl, Nat.le_refl _, fun _ => ?_⟩
    rw [Journal.cursor_eq_none]
    exact fun c hc => hnone c (mem_of_mem_filter hc)
  | read _ id' count copied =>
    rcases J.read_cases id' count copied with ⟨e, he⟩ | ⟨k', e, hk', he, hr⟩
    · rw [he]
      exact ⟨fun _ _ => rfl, Nat.le_refl _, fun _ => hk⟩
    · rw [hr]
      have hid : id' ≠ id := hnone _ (Journal.cursor_mem hk')
      refine ⟨fun ops outs => if_neg hid, Nat.le_refl _, fun _ => ?_⟩
      have hcursor := J.cursor_map (setCursor_name id' (k' + 1)) id
      rw [hk] at hcursor
      exact hcursor
  | flush =>
    refine ⟨fun _ _ => rfl, Nat.le_refl _, fun _ => ?_⟩
    have hcursor := J.cursor_map (f := fun c => (c.1, J.entries.length)) (fun _ => rfl) id
    rw [hk] at hcursor
    exact hcursor
  | empty => exact ⟨fun _ _ => rfl, Nat.le_refl _, fun _ => hk⟩
  | write hlen hmoved =>
    exact ⟨fun _ _ => rfl, Nat.le_of_eq hmoved.nextReader.symm, fun _ => hmoved.cursor_none hk⟩
  | fault hlen hbad hmoved =>
    exact ⟨fun _ _ => rfl, Nat.le_of_eq hmoved.nextReader.symm, fun _ => hmoved.cursor_none hk⟩

theorem Journal.Run.entries (h : J.Run Move ops outs J') :
    J'.entries = J.entries ++ written ops outs := by
  induction h with
  | nil => exact (append_nil _).symm
  | @cons J op out J₁ ops outs J' hs hr ih =>
    rw [ih]
    cases hs with
    | «open» => rfl
    | release => rfl
    | read _ id count copied =>
      rcases J.read_cases id count copied with ⟨e, he⟩ | ⟨k, e, hk, he, hread⟩
      · rw [he]
        rfl
      · rw [hread]
        rfl
    | flush => rfl
    | empty => rfl
    | write hlen hmoved =>
      rw [written, if_neg hlen, List.append_assoc]
      rfl
    | fault hlen hbad hmoved =>
      rw [hmoved.entries]
      rfl

theorem Journal.Run.gone (h : J.Run (Advances n) ops outs J') (hk : J.cursor id = none)
    (hid : id < J.nextReader) : received id ops outs = [] := by
  induction h with
  | nil => rfl
  | cons hs hr ih =>
    obtain ⟨hsame, hnext, hnone⟩ := hs.stranger hk
    rw [hsame]
    exact ih (hnone hid) (by omega)

theorem Journal.Run.received_sublist (h : J.Run (Advances n) ops outs J') (hok : J.Ok) :
    (received id ops outs).Sublist (J'.entries.drop ((J.cursor id).getD 0)) := by
  induction h with
  | nil => exact nil_sublist _
  | @cons J op out J₁ ops outs J' hs hr ih =>
    have hrest := ih (hok.step hs)
    cases hk : J.cursor id with
    | none =>
      rw [(hs.stranger hk).1]
      exact hrest.trans (drop_sublist _ _)
    | some k =>
      rcases hs.reader hok hk with ⟨e, he, hk', hget⟩ | ⟨hsame, ⟨k', hle, hk'⟩ | ⟨hnone, hid⟩⟩
      · have hentry : J'.entries[k]? = some e := by
          rw [(Journal.Run.cons hs hr).entries,
            getElem?_append_left (List.getElem?_eq_some_iff.mp he).1]
          exact he
        obtain ⟨hlt, rfl⟩ := List.getElem?_eq_some_iff.mp hentry
        rw [hk'] at hrest
        rw [hget, getD_some, drop_eq_getElem_cons hlt]
        exact hrest.cons_cons _
      · rw [hk'] at hrest
        rw [hsame]
        exact hrest.trans (drop_sublist_drop_left _ hle)
      · rw [hsame, hr.gone hnone hid]
        exact nil_sublist _

theorem Rel.init (d : Device) : Rel 0 d.log .init where
  ring := d.ringSize
  formed := nofun
  wOff := rfl
  head := by
    have hpos : 0 < d.size := by
      have := d.ringSize.bound
      omega
    refine ⟨Nat.le_refl 0, rfl, ?_, ⟨Nat.le_refl 0, Nat.zero_le _, nofun⟩⟩
    change 0 + 0 < 0 + d.size
    omega
  readers := .nil

theorem Rel.run (h : Rel 0 s.log J) (hnext : s.nextReader = J.nextReader) (ops : List Op) :
    ∃ J', J.Run (Advances s.log.size) ops (run s ops).2 J' ∧ Rel 0 (run s ops).1.log J' ∧
      (run s ops).1.log.size = s.log.size := by
  induction ops generalizing s J with
  | nil => exact ⟨J, .nil J, h, rfl⟩
  | cons op ops ih =>
    obtain ⟨J₁, hs, hrel, hnext₁, hsize⟩ := h.step hnext op
    obtain ⟨J', hr, hrel', hsize'⟩ := ih hrel hnext₁
    rw [hsize] at hr
    exact ⟨J', .cons hs hr, hrel', hsize'.trans hsize⟩

/-- The log answers as a journal: a successful read gives the reader's next entry, and only a flush
or a write in the way of entries moves a reader on without them. -/
theorem logger_delivers_entries (d : Device) (ops : List Op) :
    ∃ J, Journal.init.Run (Advances d.size) ops (run ⟨d.log, 0⟩ ops).2 J ∧
      J.entries = written ops (run ⟨d.log, 0⟩ ops).2 ∧
      ∀ id, (received id ops (run ⟨d.log, 0⟩ ops).2).Sublist
        (written ops (run ⟨d.log, 0⟩ ops).2) := by
  obtain ⟨J, hr, -⟩ := Rel.run (s := ⟨d.log, 0⟩) (Rel.init d) rfl ops
  have hentries := hr.entries
  rw [show Journal.init.entries = [] from rfl, nil_append] at hentries
  refine ⟨J, hr, hentries, fun id => ?_⟩
  rw [← hentries]
  exact hr.received_sublist ⟨Nat.le_refl 0, nofun, nofun⟩

def longPayload : List UInt8 := List.replicate 4076 0

theorem longPayload_length : longPayload.length = 4076 := length_replicate

def longEntry (i : Nat) : LoggerEntry × List Iovec :=
  (⟨0, 0, i, 0, 0, 0⟩, [⟨longPayload, 4076⟩])

def writeLong (i : Nat) : Op := .write (longEntry i).1 (longEntry i).2

def longBytes (i : Nat) : List UInt8 := entryBytes (longEntry i).1 (longEntry i).2

theorem longEntry_len (i : Nat) : (entryHeader (longEntry i).1 (longEntry i).2).len = 4076 := by
  simp [longEntry, entryHeader, kiLeft, longPayload_length, LOGGER_ENTRY_MAX_PAYLOAD,
    LOGGER_ENTRY_MAX_LEN, sizeofLoggerEntry]

theorem longBytes_length (i : Nat) : (longBytes i).length = 4096 := by
  rw [longBytes, entryBytes_length, longEntry_len]
  rfl

theorem longBytes_pid (i : Nat) : (longBytes i)[4]? = some (UInt8.ofNat i) := by
  simp [longBytes, entryBytes, LoggerEntry.bytes, leBytes, entryHeader, longEntry]

theorem Journal.Step.writeLong (hs : J.Step Move (writeLong i) out J₁) (hc : J.cursors = [(0, 0)]) :
    J₁.entries = J.entries ++ [longBytes i] ∧
      ∃ k, J₁.cursors = [(0, k)] ∧ Move J.entries 4096 0 k := by
  have hlen := longEntry_len i
  have hbytes := longBytes_length i
  cases hs with
  | empty _ hzero => omega
  | fault hnz hbad hmoved =>
    obtain ⟨iov, hmem, hlt⟩ := hbad
    rw [mem_singleton.mp hmem, longPayload_length] at hlt
    exact absurd hlt (Nat.lt_irrefl _)
  | @write _ _ _ J' hnz hmoved =>
    have hcursors := hmoved.cursors
    rw [hc] at hcursors
    refine ⟨rfl, ?_⟩
    generalize J'.cursors = cursors at hcursors ⊢
    cases hcursors with
    | @cons _ c _ _ hmove hrest =>
      cases hrest
      obtain ⟨id, k⟩ := c
      obtain ⟨rfl, hm⟩ := hmove
      exact ⟨k, rfl, hbytes ▸ hm⟩

theorem Journal.Run.writeLongs {is : List Nat}
    (hmove : ∀ es k, es.flatten.length + 4096 < n → Move es 4096 0 k → k = 0)
    (hr : J.Run Move (is.map writeLong ++ ops) outs J') (hc : J.cursors = [(0, 0)])
    (hroom : J.entries.flatten.length + 4096 * is.length < n) :
    ∃ J₁ : Journal, J₁.Run Move ops (outs.drop is.length) J' ∧ J₁.cursors = [(0, 0)] ∧
      J₁.entries = J.entries ++ is.map longBytes := by
  induction is generalizing J outs with
  | nil => exact ⟨J, hr, hc, (append_nil _).symm⟩
  | cons i is ih =>
    rw [length_cons] at hroom
    cases hr with
    | @cons _ _ out J₁ _ outs _ hs hr =>
      obtain ⟨hentries, k, hk, hm⟩ := hs.writeLong hc
      have hroom₁ : J.entries.flatten.length + 4096 < n :=
        Nat.lt_of_le_of_lt (Nat.add_le_add_left (Nat.le_add_left 4096 _) _) hroom
      obtain rfl := hmove J.entries k hroom₁ hm
      obtain ⟨J₂, hr₂, hc₂, he₂⟩ := ih hr hk (by
        rw [hentries, flatten_append, length_append, flatten_singleton, longBytes_length]
        omega)
      refine ⟨J₂, hr₂, hc₂, ?_⟩
      rw [he₂, hentries, List.append_assoc]
      rfl

theorem Reuses.round (h : Reuses n es len i) : n < es.flatten.length + len := by
  obtain ⟨q, -, -, -, hq⟩ := h
  omega

theorem Skips.stays (h : Skips n es len 0 k) (hroom : es.flatten.length + len ≤ n) : k = 0 := by
  by_contra hk
  obtain ⟨i, -, -, hreuses⟩ := h.needs 0 (Nat.le_refl 0) (Nat.pos_of_ne_zero hk)
  have := hreuses.round
  omega

theorem Advances.stays (h : Advances n es len 0 k) (hroom : es.flatten.length + len < n) :
    k = 0 := by
  by_contra hk
  rcases h.needs 0 (Nat.le_refl 0) (Nat.pos_of_ne_zero hk) with ⟨i, -, -, hreuses⟩ | heq
  · have := hreuses.round
    omega
  · omega

def fillSystem : List Op :=
  .open :: ((List.range 15).map writeLong ++ [writeLong 15, .read 0 4096 true])

theorem longEntries (k : Nat) (hk : k ≤ 15) :
    ((List.range 15).map longBytes ++ [longBytes 15])[k]? = some (longBytes k) := by
  rw [show (List.range 15).map longBytes ++ [longBytes 15] = (List.range 16).map longBytes from rfl]
  rw [getElem?_map, getElem?_range (by omega)]
  rfl

theorem fillSystem_read
    (hmove : ∀ es k, es.flatten.length + 4096 < 65536 → Move es 4096 0 k → k = 0)
    (hr : Journal.init.Run Move fillSystem outs J') :
    ∃ k, Move ((List.range 15).map longBytes) 4096 0 k ∧
      (k ≤ 15 → outs[17]? = some (.entry (longBytes k))) := by
  cases hr with
  | @cons _ _ _ _ _ outs _ hs hr =>
    cases hs
    obtain ⟨J₂, hr₂, hc₂, he₂⟩ := hr.writeLongs hmove rfl (by decide)
    rw [show (List.range 15).length = 15 from rfl] at hr₂
    generalize hrest : outs.drop 15 = rest at hr₂
    cases hr₂ with
    | @cons _ _ _ J₃ _ _ _ hs₂ hr₃ =>
      obtain ⟨he₃, k, hc₃, hk⟩ := hs₂.writeLong hc₂
      rw [he₂] at hk he₃
      refine ⟨k, hk, fun hle => ?_⟩
      cases hr₃ with
      | @cons _ _ out₃ _ _ _ _ hs₃ _ =>
        have hget : outs[16]? = some out₃ := by
          have hsecond := congrArg (fun l => l[1]?) hrest
          rw [getElem?_drop] at hsecond
          exact hsecond
        rw [getElem?_cons_succ, hget]
        cases hs₃
        have hentry : J₃.entries[k]? = some (longBytes k) := he₃ ▸ longEntries k hle
        simp [Journal.read, hc₃, hentry, longBytes_length]

/-- The last of sixteen entries needs no byte of another, but the reader misses the first. -/
theorem logger_skips_intact_entry : ¬ ∀ (d : Device) (ops : List Op),
    ∃ J, Journal.init.Run (Skips d.size) ops (run ⟨d.log, 0⟩ ops).2 J := by
  intro h
  obtain ⟨J, hskips⟩ := h .system fillSystem
  obtain ⟨J', hr, -⟩ := Rel.run (s := ⟨Device.system.log, 0⟩) (Rel.init .system) rfl fillSystem
  have htotal : ((List.range 15).map longBytes).flatten.length = 61440 := by
    rw [length_flatten, List.map_map, show length ∘ longBytes = fun _ => 4096 from
      funext longBytes_length]
    rfl
  obtain ⟨k, hk, hout⟩ :=
    fillSystem_read (fun es k hroom hm => hm.stays (Nat.le_of_lt hroom)) hskips
  obtain ⟨k', hk', hout'⟩ := fillSystem_read (fun es k hroom hm => hm.stays hroom) hr
  obtain rfl := hk.stays (by rw [htotal]; decide)
  have hpos : 0 < k' := by
    rcases Nat.eq_zero_or_pos k' with rfl | hpos
    · have hclear := hk'.clear
      rw [htotal] at hclear
      exact absurd hclear (by decide)
    · exact hpos
  have hle : k' ≤ 15 := hk'.le_length
  -- the two readers would have received different entries
  have hsame := (hout (Nat.zero_le _)).symm.trans (hout' hle)
  rw [some.injEq, Output.entry.injEq] at hsame
  have hpid := congrArg (fun l => l[4]?) hsame
  simp only [longBytes_pid, some.injEq] at hpid
  have hnat := congrArg UInt8.toNat hpid
  simp only [UInt8.toNat_ofNat'] at hnat
  omega

end

/-- What `LOGGER_GET_LOG_LEN` returns for a reader at `off`. -/
def logLen (log : Log) (off : Nat) : Nat :=
  if log.wOff ≥ off then log.wOff - off else (log.size - off) + log.wOff

/-- The bytes from the head of the log to its write head. -/
def logBytes (log : Log) : List UInt8 :=
  loadRing log.size log.buffer log.head (logLen log log.head)

/-- The entries that `bs` is made of, each as long as its first two bytes say. -/
def parseEntries : Nat → List UInt8 → Option (List (List UInt8))
  | _, [] => some []
  | 0, _ :: _ => none
  | fuel + 1, b :: bs =>
    let len := sizeofLoggerEntry + leValue ((b :: bs).take 2)
    if (b :: bs).length < len then none
    else (parseEntries fuel ((b :: bs).drop len)).map (List.cons ((b :: bs).take len))

def parseLog (log : Log) : Option (List (List UInt8)) :=
  parseEntries (logBytes log).length (logBytes log)

theorem parseEntries_flatten (hf : ∀ e ∈ es, WellFormed e)
    (hfuel : es.flatten.length ≤ fuel) : parseEntries fuel es.flatten = some es := by
  induction es generalizing fuel with
  | nil => cases fuel <;> rfl
  | cons e es ih =>
    have he := hf e mem_cons_self
    have hmin : 20 ≤ e.length := he.min
    rw [flatten_cons, length_append] at hfuel
    rw [flatten_cons]
    have htake : (e ++ es.flatten).take 2 = e.take 2 :=
      take_append_of_le_length (by omega)
    cases fuel with
    | zero => omega
    | succ fuel =>
      have hrest := ih (fun e' he' => hf e' (mem_cons_of_mem e he'))
        (show es.flatten.length ≤ fuel by omega)
      generalize hbs : e ++ es.flatten = bs at htake ⊢
      cases bs with
      | nil =>
        rw [(append_eq_nil_iff.mp hbs).1] at hmin
        exact absurd hmin (by decide)
      | cons b bs =>
        rw [parseEntries, htake, he.len, ← hbs, if_neg (by rw [length_append]; omega),
          drop_left, take_left, hrest]
        rfl

theorem Rel.parse (h : Rel 0 log J) : parseLog log = some (J.entries.drop J.head) := by
  have hle := pos_le J.entries J.head
  have hnear := h.head.near
  have hlen : logLen log log.head = J.entries.flatten.length - pos J.entries J.head := by
    unfold logLen
    rw [h.wOff, h.head.cell]
    exact ring_distance (by omega) hle hnear
  have hbytes : logBytes log = (J.entries.drop J.head).flatten := by
    unfold logBytes
    have hoff := h.head.lt h.ring
    rw [hlen, h.head.holds.loadRing (by omega) (by omega) (by omega)
      (by rw [h.head.cell, Nat.mod_mod]), drop_pos]
    apply take_of_length_le
    rw [← drop_pos, length_drop]
  unfold parseLog
  rw [hbytes]
  exact parseEntries_flatten (fun e he => h.formed e (mem_of_mem_drop he)) (Nat.le_refl _)

/-- Calls of `logger_aio_write` under way: the log, the write heads read without the mutex, and the
entries of the calls that succeeded. -/
structure Writers where
  log : Log
  orig : Nat → Option Nat
  written : List (List UInt8)

inductive CallOp where
  | sample (call : Nat)
  | locked (call : Nat) (info : LoggerEntry) (iovs : List Iovec)

def Writers.finish (s : Writers) (call : Nat) (info : LoggerEntry) (iovs : List Iovec)
    (r : Log × Except Errno Nat) : Writers where
  log := r.1
  orig := fun c => if c = call then none else s.orig c
  written := match r.2 with
    | .ok 0 => s.written
    | .ok _ => s.written ++ [entryBytes info iovs]
    | .error _ => s.written

def callStep (s : Writers) : CallOp → Option Writers
  | .sample call => some { s with
      orig := fun c => if c = call then some s.log.wOff else s.orig c }
  | .locked call info iovs =>
    (s.orig call).map fun orig => s.finish call info iovs (loggerAioWrite s.log orig info iovs)

/-- A call with a segment that cannot be read finds the write head where it has read it. -/
def TakesBack (s : Writers) : CallOp → Prop
  | .sample _ => True
  | .locked call info iovs => Unreadable (entryHeader info iovs).len iovs →
      ∀ orig, s.orig call = some orig → orig = s.log.wOff

/-- The calls have added their entries to `J₀`, and what the head passed is far behind the end. -/
structure Kept (n : Nat) (J₀ : Journal) (s : Writers) (J : Journal) : Prop where
  rel : Rel 0 s.log J
  size : s.log.size = n
  entries : J.entries = J₀.entries ++ s.written
  head : J₀.head ≤ J.head
  far : ∀ j, J₀.head ≤ j → j < J.head →
    pos J.entries j + n < J.entries.flatten.length + 2 * LOGGER_ENTRY_MAX_LEN

theorem Kept.far_moved (h : Kept n J₀ s J)
    (hm : J.Moved (Advances n) len J') (hlen : len ≤ LOGGER_ENTRY_MAX_LEN) :
    ∀ j, J₀.head ≤ j → j < J'.head →
      pos J.entries j + n < J.entries.flatten.length + 2 * LOGGER_ENTRY_MAX_LEN := by
  intro j hj hlt
  rcases Nat.lt_or_ge j J.head with hold | hnew
  · exact h.far j hj hold
  · have := hm.head.close j hnew hlt
    omega

theorem Kept.step (h : ∃ J, Kept n J₀ s J) (hok : TakesBack s op)
    (he : callStep s op = some s') : ∃ J, Kept n J₀ s' J := by
  obtain ⟨J, h⟩ := h
  cases op with
  | sample call =>
    cases he
    exact ⟨J, h.rel, h.size, h.entries, h.head, h.far⟩
  | locked call info iovs =>
    obtain ⟨orig, horig, rfl⟩ := Option.map_eq_some_iff.mp he
    by_cases hlen : (entryHeader info iovs).len = 0
    · have hnull : loggerAioWrite s.log orig info iovs = (s.log, .ok 0) := if_pos hlen
      rw [hnull]
      exact ⟨J, h.rel, h.size, h.entries, h.head, h.far⟩
    obtain ⟨J', hmoved, hdone, hfault⟩ := h.rel.write hlen orig
    have hsize := (loggerAioWrite_size h.rel hlen orig).trans h.size
    have hback := fun hbad => hok hbad orig horig
    rw [h.size] at hmoved
    have hmax := (wellFormed_entryBytes info iovs).max
    have hfar := h.far_moved hmoved hmax
    have hhead : J₀.head ≤ J'.head := Nat.le_trans h.head hmoved.head.le
    generalize loggerAioWrite s.log orig info iovs = r at hdone hfault hsize
    obtain ⟨log', res⟩ := r
    cases res with
    | error e =>
      obtain ⟨⟨-, hbad⟩, hrel⟩ := hfault e rfl
      refine ⟨J', hrel (hback hbad), hsize, hmoved.entries.trans h.entries, hhead, ?_⟩
      rw [hmoved.entries]
      exact hfar
    | ok nr =>
      obtain ⟨rfl, hrel⟩ := hdone nr rfl
      refine ⟨_, hrel, hsize, ?_, hhead, ?_⟩
      · obtain ⟨m, hm⟩ := Nat.exists_eq_succ_of_ne_zero hlen
        simp only [Writers.finish]
        rw [h.entries, List.append_assoc]
      · intro j hj hlt
        have hclose := hfar j hj hlt
        have hbound : j ≤ J.entries.length := by
          have := hmoved.head.le_length
          dsimp only at hlt
          omega
        rw [pos_append hbound, flatten_append, length_append]
        omega

/-- However calls of `logger_aio_write` interleave, if each call that fails finds the write head
where it has read it, the log is made of the old entries and those of the calls that succeeded, less
some at the front. -/
theorem logger_writers_keep_entries (d : Device) (ops : List Op) (calls : List CallOp) (s : Writers)
    (hrun : Run TakesBack callStep ⟨(run ⟨d.log, 0⟩ ops).1.log, fun _ => none, []⟩ calls s) :
    ∃ old k, parseLog (run ⟨d.log, 0⟩ ops).1.log = some old ∧
      parseLog s.log = some ((old ++ s.written).drop k) ∧
      ∀ j, j < k →
        d.size < ((old ++ s.written).drop j).flatten.length + 2 * LOGGER_ENTRY_MAX_LEN := by
  obtain ⟨J₀, -, hrel₀, hsize₀⟩ := Rel.run (s := ⟨d.log, 0⟩) (Rel.init d) rfl ops
  have hstart : ∃ J, Kept d.size J₀ ⟨(run ⟨d.log, 0⟩ ops).1.log, fun _ => none, []⟩ J :=
    ⟨J₀, hrel₀, hsize₀, (append_nil _).symm, Nat.le_refl _, by omega⟩
  obtain ⟨J, h⟩ := hrun.invariant Kept.step hstart
  obtain ⟨k, hk⟩ := Nat.exists_eq_add_of_le h.head
  have hold : J.entries.drop J₀.head = J₀.entries.drop J₀.head ++ s.written := by
    rw [h.entries, drop_append_of_le_length hrel₀.head.le]
  refine ⟨J₀.entries.drop J₀.head, k, hrel₀.parse, ?_, ?_⟩
  · rw [h.rel.parse, ← hold, drop_drop, hk]
  · intro j hj
    have hfar := h.far (J₀.head + j) (by omega) (by omega)
    rw [← hold, drop_drop, ← drop_pos, length_drop]
    omega

def calmCalls : List CallOp :=
  [.sample 0, .locked 0 ⟨0, 0, 1, 1, 0, 0⟩ [⟨[65], 1⟩], .sample 1,
    .locked 1 ⟨0, 0, 2, 2, 0, 0⟩ [⟨[66], 0⟩]]

theorem logger_writers_keep_entries_sample : ∃ s e,
    Run TakesBack callStep ⟨Device.main.log, fun _ => none, []⟩ calmCalls s ∧ s.written = [e] ∧
    ∃ old k, parseLog Device.main.log = some old ∧ parseLog s.log = some ((old ++ [e]).drop k) ∧
      ∀ j, j < k → 262144 < ((old ++ [e]).drop j).flatten.length + 2 * LOGGER_ENTRY_MAX_LEN := by
  have hrun : ∃ s, Run TakesBack callStep ⟨Device.main.log, fun _ => none, []⟩ calmCalls s ∧
      ∃ e, s.written = [e] := by
    refine ⟨_, .cons trivial rfl (.cons ?_ rfl (.cons trivial rfl (.cons ?_ rfl (.nil _)))), _, rfl⟩
    · rintro (h | h)
      · exact absurd h (by decide)
      · exact h.elim
    · rintro - orig ⟨⟩
      rfl
  obtain ⟨s, hs, e, he⟩ := hrun
  obtain ⟨old, k, hold, hnew, hfar⟩ := logger_writers_keep_entries .main [] calmCalls s hs
  rw [he] at hnew hfar
  exact ⟨s, e, hs, he, old, k, hold, hnew, hfar⟩

def staleCalls : List CallOp :=
  [.sample 0, .sample 1, .locked 1 ⟨0, 0, 1, 1, 0, 0⟩ [⟨[65], 1⟩],
    .locked 0 ⟨0, 0, 2, 2, 0, 0⟩ [⟨[66], 0⟩]]

theorem logger_writer_drops_entry : ¬ ∀ (d : Device) (ops : List Op) (calls : List CallOp)
    (s : Writers),
    Run (fun _ _ => True) callStep ⟨(run ⟨d.log, 0⟩ ops).1.log, fun _ => none, []⟩ calls s →
    ∃ old k, parseLog (run ⟨d.log, 0⟩ ops).1.log = some old ∧
      parseLog s.log = some ((old ++ s.written).drop k) ∧
      ∀ j, j < k →
        d.size < ((old ++ s.written).drop j).flatten.length + 2 * LOGGER_ENTRY_MAX_LEN := by
  intro h
  have hrun : ∃ s,
      Run (fun _ _ => True) callStep ⟨Device.main.log, fun _ => none, []⟩ staleCalls s ∧
      s.log.wOff = 0 ∧ s.log.head = 0 ∧ ∃ e, s.written = [e] ∧ e.length = 21 :=
    ⟨_, .cons trivial rfl (.cons trivial rfl (.cons trivial rfl (.cons trivial rfl (.nil _)))),
      rfl, rfl, _, rfl, rfl⟩
  obtain ⟨s, hs, hw, hhead, e, hwritten, hlen⟩ := hrun
  obtain ⟨old, k, hold, hnew, hfar⟩ := h .main [] staleCalls s hs
  have hempty : ∀ log : Log, log.wOff = 0 → log.head = 0 → parseLog log = some [] := by
    intro log hw hh
    simp [parseLog, logBytes, logLen, hw, hh, loadRing, load, parseEntries]
  rw [hempty _ rfl rfl, Option.some.injEq] at hold
  rw [hempty _ hw hhead, ← hold, hwritten] at hnew
  cases k with
  | zero => cases hnew
  | succ k =>
    have := hfar 0 (Nat.succ_pos k)
    rw [← hold, hwritten] at this
    simp only [nil_append, drop_zero, flatten_singleton, hlen] at this
    exact absurd this (by decide)

end SpicaKernel.Logger
