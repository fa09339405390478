import Mathlib.Data.List.Perm.Subperm
import SpicaKernel.BinderStacks

namespace SpicaKernel.Stacks
open Function List Option
set_option autoImplicit true

namespace Sound

variable {s s' : State} {L : Nat → List Nat}

section
variable (h : Sound s L) (ht : s.threads t = some th) (htop : th.transactionStack = some x)
    (hx : s.transactions x = some tr) (hto : tr.toThread = some t)
include h ht htop hx hto

theorem top_incoming :
    ∃ l, L t = x :: l ∧ x ∉ l ∧ l.Nodup ∧ Chain s t tr.toParent l := by
  have hchain := h.chain t th ht
  have hnodup := h.nodup t th ht
  rw [htop] at hchain
  generalize L t = l at hchain hnodup ⊢
  cases hchain with
  | @incoming _ _ l hx' _ hrest =>
    rw [hx, some.injEq] at hx'
    obtain ⟨hnot, hl⟩ := nodup_cons.mp hnodup
    exact ⟨l, rfl, hnot, hl, hx' ▸ hrest⟩
  | outgoing hx' hto' _ _ =>
    rw [hx, some.injEq] at hx'
    exact absurd (hx' ▸ hto) hto'

theorem popIncoming :
    Sound (s.setThread t { th with transactionStack := tr.toParent }) (update L t (L t).tail) ∧
    Done (s.setThread t { th with transactionStack := tr.toParent }) (update L t (L t).tail) x := by
  obtain ⟨-, hunqueued, hchildless⟩ := h.top_served ht htop hx hto
  obtain ⟨l, hl, hnot, hnodup, hrest⟩ := h.top_incoming ht htop hx hto
  rw [hl]
  have hsub (t' y : Nat) (hy : y ∈ update L t l t') : y ∈ L t' := by
    by_cases heq : t' = t
    · rw [heq, update_self] at hy
      rw [heq, hl]
      exact mem_cons_of_mem _ hy
    · rwa [update_of_ne heq] at hy
  refine ⟨?_, ?_, hunqueued, hchildless⟩
  · refine h.shrink id (fun _ _ hp => hp) (.refl _) (fun _ hy => hy) ?_ ?_ ?_ ?_ (Nat.le_refl _)
    · intro t' th' ht'
      obtain ⟨rfl, rfl⟩ | ⟨hne, ht'⟩ := update_some_iff.mp ht'
      · rw [update_self]
        exact ⟨hrest.keep fun _ _ _ hy => hy, hnodup⟩
      · rw [update_of_ne hne]
        exact ⟨(h.chain t' th' ht').keep fun _ _ _ hy => hy, h.nodup t' th' ht'⟩
    · exact fun ht' hm => ⟨hsub _ _ hm, (exists_update_iff ht).mp ⟨_, ht'⟩⟩
    · intro y try' t' th' hy hto' ht' hm
      refine ⟨(exists_update_iff ht).mpr ⟨th', ht'⟩, ?_⟩
      by_cases heq : t' = t
      · subst heq
        rw [update_self]
        rw [hl] at hm
        refine (mem_cons.mp hm).resolve_left ?_
        rintro rfl
        exact hto' (mem_unique hx hy ▸ hto)
      · rwa [update_of_ne heq]
    · exact none_of_old h.freshThread (fun _ _ ht' => (exists_update_iff ht).mp ⟨_, ht'⟩)
        (Nat.le_refl _)
  · intro t' th' tr' ht' hm hx' hto'
    rw [← mem_unique hx hx', hto, some.injEq] at hto'
    subst hto'
    rw [update_self] at hm
    exact hnot hm

end

theorem dequeue (h : Sound s L) (hq : (q, x) ∈ s.todo) :
    Sound (s.dequeue q x) L ∧ Done (s.dequeue q x) L x := by
  obtain ⟨hloose, tr, hx⟩ := h.queued q x hq
  refine ⟨h.frame rfl (fun _ => rfl) erase_sublist rfl, hloose, ?_, ?_⟩
  · intro q' hq'
    have hperm : (s.todo.map Prod.snd).Perm (x :: ((s.todo.erase (q, x)).map Prod.snd)) :=
      (perm_cons_erase hq).map Prod.snd
    have hnodup := hperm.nodup_iff.mp h.queuedOnce
    exact (nodup_cons.mp hnodup).1 (List.mem_map_of_mem hq')
  · intro x' tr' hx' hp
    cases hsender : tr'.sender with
    | none => exact (h.orphan x' tr' x hx' hsender hp).2 q hq
    | some t =>
      obtain ⟨th, tr₁, ht, hmem, -, hx₁, hto₁⟩ := h.parent_taken hx' hsender hp
      exact hloose t th tr₁ ht hmem hx₁ hto₁

theorem live_of_mem (h : Sound s L) (ht : s.threads t = some th) (hx : x ∈ L t) : x < s.nextId := by
  obtain ⟨tr, htr, -⟩ := (h.chain t th ht).exists_of_mem hx
  by_contra hge
  rw [h.freshTransaction x (Nat.le_of_not_lt hge)] at htr
  cases htr

section Mount

-- A call `x` goes on top of the stack of the thread `t`.
variable {x t : Nat}

theorem mem_mount (hy : y ≠ x) : y ∈ update L t (x :: L t) t' ↔ y ∈ L t' := by
  by_cases heq : t' = t
  · rw [heq, update_self, mem_cons]
    exact ⟨fun hm => hm.resolve_left hy, .inr⟩
  · rw [update_of_ne heq]

theorem mount_nodup (h : Sound s L) (ht : s.threads t = some th) (hx : x ∉ L t)
    (hthreads : s'.threads = update s.threads t (some th'))
    (ht' : s'.threads t' = some th₁) : (update L t (x :: L t) t').Nodup := by
  rw [hthreads, update_some_iff] at ht'
  obtain ⟨rfl, -⟩ | ⟨hne, ht'⟩ := ht'
  · rw [update_self]
    exact nodup_cons.mpr ⟨hx, h.nodup t' th ht⟩
  · rw [update_of_ne hne]
    exact h.nodup t' th₁ ht'

theorem mount_loose (hl : Loose s L y) (hy : y ≠ x) (ht : s.threads t = some th)
    (hthreads : s'.threads = update s.threads t (some th'))
    (htr : s'.transactions y = s.transactions y) :
    Loose s' (update L t (x :: L t)) y := by
  refine hl.mono (fun t' th₁ ht' hm => ⟨(mem_mount hy).mp hm, ?_⟩) fun tr hy => htr ▸ hy
  exact (exists_update_iff ht).mp ⟨th₁, hthreads ▸ ht'⟩

end Mount

theorem push_cases (hy : (pushTransaction s t th p target).transactions y = some tr) :
    y = s.nextId ∧ tr = ⟨some t, th.transactionStack, target, none⟩ ∨
      y ≠ s.nextId ∧ s.transactions y = some tr :=
  update_some_iff.mp hy

theorem push_todo (hm : (q, y) ∈ (pushTransaction s t th targetProc target).todo) :
    (q, y) ∈ s.todo ∨ y = s.nextId ∧ ∀ t', q = .thread t' → target = some t' := by
  simp only [pushTransaction, mem_append, mem_singleton, Prod.mk.injEq] at hm
  obtain hm | ⟨hq, hy⟩ := hm
  · exact .inl hm
  · refine .inr ⟨hy, ?_⟩
    rintro t' rfl
    cases target with
    | none => cases hq
    | some t₁ => cases hq; rfl

section Push

variable (h : Sound s L)
include h

theorem ne_nextId (hy : s.transactions y = some tr) : y ≠ s.nextId :=
  ne_of_none (h.freshTransaction _ (Nat.le_refl _)) hy

theorem push_keep (hy : s.transactions y = some tr) :
    (pushTransaction s t th p target).transactions y = some tr :=
  (update_of_ne (h.ne_nextId hy) _ _).trans hy

variable (ht : s.threads t = some th)
include ht

theorem push_loose (hy : s.transactions y = some tr) (hl : Loose s L y) :
    Loose (pushTransaction s t th p target) (update L t (s.nextId :: L t)) y :=
  mount_loose hl (h.ne_nextId hy) ht rfl (update_of_ne (h.ne_nextId hy) _ _)

theorem push_lineage (hserving : ∀ p, th.transactionStack = some p →
      ∃ tr, s.transactions p = some tr ∧ tr.toThread = some t) :
    Lineage (pushTransaction s t th targetProc target) := by
  constructor
  case served =>
    intro y tr t' p hy hsender hp
    obtain ⟨rfl, rfl⟩ | ⟨-, hy⟩ := push_cases hy
    · cases hsender
      obtain ⟨tr', hp', hto⟩ := hserving p hp
      exact ⟨tr', h.push_keep hp', hto⟩
    · obtain ⟨tr', hp', hto⟩ := h.served y tr t' p hy hsender hp
      exact ⟨tr', h.push_keep hp', hto⟩
  case parent =>
    intro y tr p hy hp
    obtain ⟨rfl, rfl⟩ | ⟨-, hy⟩ := push_cases hy
    · obtain ⟨tr', hp', -⟩ := hserving p hp
      refine ⟨?_, tr', h.push_keep hp'⟩
      by_contra hge
      rw [h.freshTransaction p (Nat.le_of_not_lt hge)] at hp'
      cases hp'
    · obtain ⟨hlt, tr', hp'⟩ := h.parent y tr p hy hp
      exact ⟨hlt, tr', h.push_keep hp'⟩
  case onlyChild =>
    -- The call on top of the stack has no other call on its behalf.
    have hnew : ∀ {y tr p}, s.transactions y = some tr → th.transactionStack = some p →
        tr.fromParent ≠ some p := by
      intro y tr p hy hp
      obtain ⟨tr', hp', hto⟩ := hserving p hp
      exact (h.top_served ht hp hp' hto).2.2 y tr hy
    intro y tr y' tr' p hy hy' hp hp'
    obtain ⟨rfl, rfl⟩ | ⟨-, hy⟩ := push_cases hy
    · obtain ⟨rfl, -⟩ | ⟨-, hy'⟩ := push_cases hy'
      · rfl
      · exact absurd hp' (hnew hy' hp)
    · obtain ⟨rfl, rfl⟩ | ⟨-, hy'⟩ := push_cases hy'
      · exact absurd hp (hnew hy hp')
      · exact h.onlyChild y tr y' tr' p hy hy' hp hp'

theorem not_mem_nextId : s.nextId ∉ L t :=
  fun hm => Nat.lt_irrefl _ (h.live_of_mem ht hm)

theorem push_queues (htarget : target ≠ some t) :
    Queues (pushTransaction s t th targetProc target) (update L t (s.nextId :: L t)) := by
  have hself : (pushTransaction s t th targetProc target).transactions s.nextId =
      some ⟨some t, th.transactionStack, target, none⟩ := update_self ..
  constructor
  case queued =>
    intro q y hm
    obtain hm | ⟨rfl, -⟩ := push_todo hm
    · obtain ⟨hl, tr, hy⟩ := h.queued q y hm
      exact ⟨h.push_loose ht hy hl, tr, h.push_keep hy⟩
    · refine ⟨fun t' th' tr' ht' hm hy' hto => ?_, _, hself⟩
      obtain rfl := some.inj (hself.symm.trans hy')
      obtain ⟨rfl, -⟩ | ⟨hne, ht'⟩ := update_some_iff.mp ht'
      · exact htarget hto
      · rw [update_of_ne hne] at hm
        exact h.not_mem_nextId ht' hm
  case queuedTo =>
    intro t' y tr hm hy
    obtain hm | ⟨rfl, hq⟩ := push_todo hm
    · obtain ⟨-, tr', hy'⟩ := h.queued _ y hm
      rw [h.push_keep hy'] at hy
      exact h.queuedTo t' y tr hm (hy ▸ hy')
    · obtain rfl := some.inj (hself.symm.trans hy)
      exact hq t' rfl
  case queuedOnce =>
    have hids : (pushTransaction s t th targetProc target).todo.map Prod.snd =
        s.todo.map Prod.snd ++ [s.nextId] := by
      simp [pushTransaction, State.setTransaction, State.setThread]
    rw [hids, nodup_append]
    refine ⟨h.queuedOnce, by simp, ?_⟩
    rintro y hy _ hz rfl
    obtain ⟨⟨q, _⟩, hm, rfl⟩ := List.mem_map.mp hy
    obtain ⟨-, tr, hlive⟩ := h.queued q _ hm
    exact h.ne_nextId hlive (mem_singleton.mp hz)

theorem push (hserving : ∀ p, th.transactionStack = some p →
      ∃ tr, s.transactions p = some tr ∧ tr.toThread = some t) (htarget : target ≠ some t) :
    Sound (pushTransaction s t th targetProc target) (update L t (s.nextId :: L t)) := by
  constructor
  case toLineage => exact h.push_lineage ht hserving
  case toQueues => exact h.push_queues ht htarget
  case chain =>
    intro t' th' ht'
    obtain ⟨rfl, rfl⟩ | ⟨hne, ht'⟩ := update_some_iff.mp ht'
    · rw [update_self]
      exact .outgoing (update_self ..) htarget rfl
        ((h.chain t' th ht).keep fun y _ tr hy => h.push_keep hy)
    · rw [update_of_ne hne]
      exact (h.chain t' th' ht').keep fun y _ tr hy => h.push_keep hy
  case nodup => exact fun t' th' ht' => h.mount_nodup ht (h.not_mem_nextId ht) rfl ht'
  case sent =>
    intro y tr t' hy hsender
    obtain ⟨rfl, rfl⟩ | ⟨hne, hy⟩ := push_cases hy
    · cases hsender
      refine ⟨(exists_update_iff ht).mpr ⟨th, ht⟩, ?_, htarget⟩
      rw [update_self]
      exact mem_cons_self
    · obtain ⟨hlive, hm, hto⟩ := h.sent y tr t' hy hsender
      exact ⟨(exists_update_iff ht).mpr hlive, (mem_mount hne).mpr hm, hto⟩
  case orphan =>
    intro y tr p hy hsender hp
    obtain ⟨rfl, rfl⟩ | ⟨-, hy⟩ := push_cases hy
    · cases hsender
    · obtain ⟨hl, hq⟩ := h.orphan y tr p hy hsender hp
      obtain ⟨-, tr', hp'⟩ := h.parent y tr p hy hp
      refine ⟨h.push_loose ht hp' hl, fun q hm => ?_⟩
      obtain hm | ⟨heq, -⟩ := push_todo hm
      · exact hq q hm
      · exact h.ne_nextId hp' heq
  case freshThread =>
    exact none_of_old h.freshThread (fun t' th' ht' => (exists_update_iff ht).mp ⟨th', ht'⟩)
      (Nat.le_succ _)
  case freshTransaction =>
    intro y hle
    exact (update_of_ne (Nat.ne_of_gt (Nat.lt_of_succ_le hle)) _ _).trans
      (h.freshTransaction y (Nat.le_of_succ_le hle))

end Push

end Sound

/-- The call `x` goes from the list `q` to the thread `t`. -/
def State.delivered (s : State) (q : Todo) (x : Nat) (tr : Transaction) (t : Nat) (th : Thread) :
    State :=
  ((s.dequeue q x).setTransaction x
    { tr with toParent := th.transactionStack, toThread := some t }).setThread t
      { th with transactionStack := some x }

namespace Sound

variable {s s' : State} {L : Nat → List Nat}

theorem delivered_other (hy : y ≠ x) :
    (s.delivered q x tr t th).transactions y = s.transactions y :=
  update_of_ne hy _ _

section
variable (h : Sound s L) (ht : s.threads t = some th) (hx : s.transactions x = some tr)
    (hq : (q, x) ∈ s.todo) (hidle : q = .thread t ∨ th.transactionStack = none)
include h ht hx hq hidle

theorem queued_foreign : tr.sender ≠ some t ∧ x ∉ L t := by
  have hforeign : tr.sender ≠ some t := by
    intro hsender
    obtain ⟨-, hmem, hto⟩ := h.sent x tr t hx hsender
    obtain rfl | hnone := hidle
    · exact hto (h.queuedTo t x tr hq hx)
    · have hchain := h.chain t th ht
      rw [hnone] at hchain
      generalize L t = l at hchain hmem
      cases hchain
      cases hmem
  refine ⟨hforeign, fun hmem => ?_⟩
  obtain hto | hsender := (h.chain t th ht).end_of hmem hx
  · exact (h.queued q x hq).1 t th tr ht hmem hx hto
  · exact hforeign hsender

theorem deliver_chain (ht' : (s.delivered q x tr t th).threads t' = some th') :
    Chain (s.delivered q x tr t th) t' th'.transactionStack (update L t (x :: L t) t') := by
  have hself : (s.delivered q x tr t th).transactions x =
      some { tr with toParent := th.transactionStack, toThread := some t } := update_self ..
  obtain ⟨rfl, rfl⟩ | ⟨hne, ht'⟩ := update_some_iff.mp ht'
  · rw [update_self]
    refine .incoming hself rfl ((h.chain t' th ht).keep fun y hy tr' hy' => ?_)
    have hne : y ≠ x := fun heq => (h.queued_foreign ht hx hq hidle).2 (heq ▸ hy)
    rw [delivered_other hne, hy']
  · rw [update_of_ne hne]
    refine (h.chain t' th' ht').congr fun y hy tr' hy' => ?_
    by_cases heq : y = x
    · subst heq
      obtain rfl := some.inj (hx.symm.trans hy')
      have hto : tr.toThread ≠ some t' := (h.queued q y hq).1 t' th' tr ht' hy hx
      exact ⟨_, hself, ⟨⟨fun heq => absurd (some.inj heq).symm hne,
        fun heq => absurd heq hto⟩, fun heq => absurd heq hto, fun _ hs => ⟨hs, rfl⟩⟩⟩
    · exact ⟨tr', by rw [delivered_other heq, hy'], .refl⟩

theorem deliver : Sound (s.delivered q x tr t th) (update L t (x :: L t)) := by
  obtain ⟨hdeq, hdone⟩ := h.dequeue hq
  obtain ⟨hforeign, hnotmem⟩ := h.queued_foreign ht hx hq hidle
  have hloose : ∀ {y}, y ≠ x → Loose s L y →
      Loose (s.delivered q x tr t th) (update L t (x :: L t)) y :=
    fun hy hl => mount_loose hl hy ht rfl (delivered_other hy)
  -- Every call has the sender and the parent that it had, and no call has `x` for its parent.
  have hcase : ∀ {y tr'}, (s.delivered q x tr t th).transactions y = some tr' →
      ∃ tr₀, s.transactions y = some tr₀ ∧
        tr'.fromParent = tr₀.fromParent ∧ tr'.sender = tr₀.sender := by
    intro y tr' hy
    obtain ⟨rfl, rfl⟩ | ⟨-, hy⟩ := update_some_iff.mp hy
    · exact ⟨tr, hx, rfl, rfl⟩
    · exact ⟨tr', hy, rfl, rfl⟩
  have hparent : ∀ {y tr' p}, (s.delivered q x tr t th).transactions y = some tr' →
      tr'.fromParent = some p → p ≠ x := by
    intro y tr' p hy hp heq
    obtain ⟨tr₀, hy₀, hp₀, -⟩ := hcase hy
    exact hdone.childless y tr₀ hy₀ (hp₀ ▸ heq ▸ hp)
  constructor
  case toLineage =>
    refine h.toLineage.congr (fun hy => ?_) fun {y tr' p trp} hy hp hp' => ?_
    · obtain ⟨tr₀, hy₀, hp₀, hs₀⟩ := hcase hy
      exact ⟨tr₀, hy₀, hp₀, fun t' => hs₀ ▸ id⟩
    · exact ⟨trp, by rw [delivered_other (hparent hy hp), hp'], fun _ _ => id⟩
  case toQueues =>
    refine hdeq.toQueues.congr (.refl _) fun {q' y tr'} hm hl hy => ?_
    have hne : y ≠ x := fun heq => hdone.unqueued q' (heq ▸ hm)
    exact ⟨hloose hne hl, tr', (delivered_other hne).trans hy, fun _ => id⟩
  case chain => exact fun t' th' ht' => h.deliver_chain ht hx hq hidle ht'
  case nodup => exact fun t' th' ht' => h.mount_nodup ht hnotmem rfl ht'
  case sent =>
    intro y tr' t' hy hsender
    obtain ⟨rfl, rfl⟩ | ⟨hne, hy⟩ := update_some_iff.mp hy
    · have hne : t' ≠ t := fun heq => hforeign (heq ▸ hsender)
      obtain ⟨hlive, hm, -⟩ := h.sent y tr t' hx hsender
      refine ⟨(exists_update_iff ht).mpr hlive, ?_, fun hto => hne (some.inj hto).symm⟩
      rwa [update_of_ne hne]
    · obtain ⟨hlive, hm, hto⟩ := h.sent y tr' t' hy hsender
      exact ⟨(exists_update_iff ht).mpr hlive, (mem_mount hne).mpr hm, hto⟩
  case orphan =>
    intro y tr' p hy hsender hp
    obtain ⟨tr₀, hy₀, hp₀, hs₀⟩ := hcase hy
    obtain ⟨hl, hnot⟩ := hdeq.orphan y tr₀ p hy₀ (hs₀ ▸ hsender) (hp₀ ▸ hp)
    exact ⟨hloose (hparent hy hp) hl, hnot⟩
  case freshThread =>
    exact none_of_old h.freshThread (fun t' th' ht' => (exists_update_iff ht).mp ⟨th', ht'⟩)
      (Nat.le_refl _)
  case freshTransaction =>
    refine none_of_old h.freshTransaction (fun y tr' hy => ?_) (Nat.le_refl _)
    obtain ⟨tr₀, hy₀, -⟩ := hcase hy
    exact ⟨tr₀, hy₀⟩

end

end Sound

/-- What `binder_free_thread` does to a call on the stack of the thread. -/
def Transaction.leave (t : Nat) (tr : Transaction) : Transaction :=
  if tr.toThread = some t then { tr with toThread := none } else { tr with sender := none }

def State.leave (s : State) (t : Nat) (l : List Nat) : State :=
  { s with transactions := fun x =>
      if x ∈ l then (s.transactions x).map (Transaction.leave t) else s.transactions x }

def State.exited (s : State) (t : Nat) (l : List Nat) : State :=
  State.leave { s with threads := update s.threads t none } t l

structure Left (t : Nat) (tr tr' : Transaction) : Prop where
  toParent : tr'.toParent = tr.toParent
  fromParent : tr'.fromParent = tr.fromParent
  toThread : tr'.toThread = tr.toThread ∨ tr.toThread = some t ∧ tr'.toThread = none
  sender : tr'.sender = tr.sender ∨ tr.sender = some t ∧ tr'.sender = none

theorem Left.refl : Left t tr tr := ⟨rfl, rfl, .inl rfl, .inl rfl⟩

theorem Left.toThread_iff (h : Left t tr tr') (hne : t' ≠ t) :
    tr'.toThread = some t' ↔ tr.toThread = some t' := by
  obtain hsame | ⟨hold, hnew⟩ := h.toThread
  · rw [hsame]
  · rw [hold, hnew]
    exact ⟨nofun, fun heq => absurd (some.inj heq).symm hne⟩

theorem Left.sender_iff (h : Left t tr tr') (hne : t' ≠ t) :
    tr'.sender = some t' ↔ tr.sender = some t' := by
  obtain hsame | ⟨hold, hnew⟩ := h.sender
  · rw [hsame]
  · rw [hold, hnew]
    exact ⟨nofun, fun heq => absurd (some.inj heq).symm hne⟩

theorem Left.sameFor (h : Left t tr tr') (hne : t' ≠ t) : SameFor t' tr tr' where
  incoming := h.toThread_iff hne
  toParent _ := h.toParent
  outgoing _ hs := ⟨(h.sender_iff hne).mpr hs, h.fromParent⟩

section Loop

variable {s : State}

theorem leave_cons (hx : s.transactions x = some tr) (hl : x ∉ l) :
    (s.setTransaction x (tr.leave t)).leave t l = s.leave t (x :: l) := by
  unfold State.leave
  congr 1
  funext y
  by_cases heq : y = x
  · simp [heq, hl, State.setTransaction, hx]
  · simp [heq, State.setTransaction]

theorem freeStack_ok (h : Chain s t top l) (hl : l.Nodup) (hfuel : l.length ≤ fuel) :
    freeStack fuel s t top = .ok (s.leave t l) := by
  induction l generalizing s top fuel with
  | nil =>
    cases h
    cases fuel <;> simp [freeStack, State.leave]
  | cons x l ih =>
    obtain ⟨hx, hl⟩ := nodup_cons.mp hl
    cases fuel with
    | zero => cases hfuel
    | succ fuel =>
      have hfuel := Nat.le_of_succ_le_succ hfuel
      have hrest : ∀ {top tr'}, Chain s t top l → Chain (s.setTransaction x tr') t top l := by
        intro top tr' hchain
        refine hchain.keep fun y hy tr hy' => ?_
        have hne : y ≠ x := fun heq => hx (heq ▸ hy)
        simpa [State.setTransaction, update_of_ne hne] using hy'
      cases h with
      | @incoming _ tr _ htr hto hchain =>
        have hleave : { tr with toThread := none } = tr.leave t := by
          rw [Transaction.leave, if_pos hto]
        rw [freeStack, transaction_eq_ok.mpr htr]
        simp only [bind, Except.bind, hto, if_true]
        rw [hleave, ih (hrest hchain) hl hfuel, leave_cons htr hx]
      | @outgoing _ tr _ htr hto hsender hchain =>
        have hleave : { tr with sender := none } = tr.leave t := by
          rw [Transaction.leave, if_neg hto]
        rw [freeStack, transaction_eq_ok.mpr htr]
        simp only [bind, Except.bind, hto, if_false, hsender, if_true]
        rw [hleave, ih (hrest hchain) hl hfuel, leave_cons htr hx]

end Loop

namespace Sound

variable {s s' : State} {L : Nat → List Nat}

section
variable (h : Sound s L) (ht : s.threads t = some th)
include h ht

theorem length_le : (L t).length ≤ s.nextId := by
  have hsub : L t ⊆ List.range s.nextId := fun x hx => mem_range.mpr (h.live_of_mem ht hx)
  have hlen := ((h.nodup t th ht).subperm hsub).length_le
  rwa [length_range] at hlen

theorem leave_left (hx : s.transactions x = some tr) :
    ∃ tr', (s.leave t (L t)).transactions x = some tr' ∧ Left t tr tr' ∧ tr'.sender ≠ some t := by
  by_cases hmem : x ∈ L t
  · refine ⟨tr.leave t, by simp [State.leave, hmem, hx], ?_⟩
    unfold Transaction.leave
    split
    next hto =>
      refine ⟨⟨rfl, rfl, .inr ⟨hto, rfl⟩, .inl rfl⟩, ?_⟩
      exact fun hsender => (h.sent x tr t hx hsender).2.2 hto
    next hto =>
      obtain hto' | hsender := (h.chain t th ht).end_of hmem hx
      · exact absurd hto' hto
      · exact ⟨⟨rfl, rfl, .inl rfl, .inr ⟨hsender, rfl⟩⟩, nofun⟩
  · refine ⟨tr, by simp [State.leave, hmem, hx], .refl, ?_⟩
    exact fun hsender => hmem (h.sent x tr t hx hsender).2.1

theorem left_of_leave (hx' : (s.leave t (L t)).transactions x = some tr') :
    ∃ tr, s.transactions x = some tr ∧ Left t tr tr' ∧ tr'.sender ≠ some t := by
  cases hx : s.transactions x with
  | none => by_cases hmem : x ∈ L t <;> simp [State.leave, hx] at hx'
  | some tr =>
    obtain ⟨tr₁, hx₁, hleft⟩ := h.leave_left ht hx
    rw [hx', some.injEq] at hx₁
    subst hx₁
    exact ⟨tr, rfl, hleft⟩

theorem exited_loose (hl : Loose s L x) : Loose (s.exited t (L t)) L x := by
  intro t' th' tr' ht' hmem hx' hto
  obtain ⟨hne, ht'⟩ := update_none_iff.mp ht'
  obtain ⟨tr, hx, hleft, -⟩ := h.left_of_leave ht hx'
  exact hl t' th' tr ht' hmem hx ((hleft.toThread_iff hne).mp hto)

/-- The call that a call of the thread was made for is with nobody now. -/
theorem exited_orphan (hx : s.transactions x = some tr) (hsender : tr.sender = some t)
    (hp : tr.fromParent = some p) :
    Loose (s.exited t (L t)) L p ∧ ∀ q, (q, p) ∉ s.todo := by
  obtain ⟨th₀, trp, ht₀, hmem, -, hp', hto⟩ := h.parent_taken hx hsender hp
  refine ⟨fun t' th' trp' ht' _ hp'' hto' => ?_, ?_⟩
  · obtain ⟨hne, ht'⟩ := update_none_iff.mp ht'
    obtain ⟨trp₁, hp₁, hleft, -⟩ := h.left_of_leave ht hp''
    obtain rfl := some.inj (hp'.symm.trans hp₁)
    rw [hleft.toThread_iff hne, hto, some.injEq] at hto'
    exact hne hto'.symm
  · exact fun q hq => (h.queued q p hq).1 t th₀ trp ht₀ hmem hp' hto

theorem exited : Sound (s.exited t (L t)) L := by
  have hold : ∀ {x tr'}, (s.exited t (L t)).transactions x = some tr' →
      ∃ tr, s.transactions x = some tr ∧ Left t tr tr' ∧ ∀ t', tr'.sender = some t' → t' ≠ t := by
    intro x tr' hx'
    obtain ⟨tr, hx, hleft, hnot⟩ := h.left_of_leave ht hx'
    exact ⟨tr, hx, hleft, fun t' hs heq => hnot (heq ▸ hs)⟩
  constructor
  case toLineage =>
    refine h.toLineage.congr (fun hx' => ?_) fun hx' _ hp' => ?_
    · obtain ⟨tr, hx, hleft, hnot⟩ := hold hx'
      exact ⟨tr, hx, hleft.fromParent, fun t' hs => (hleft.sender_iff (hnot t' hs)).mp hs⟩
    · obtain ⟨-, -, -, hnot⟩ := hold hx'
      obtain ⟨trp', hp'', hleft, -⟩ := h.leave_left ht hp'
      exact ⟨trp', hp'', fun t' hs => (hleft.toThread_iff (hnot t' hs)).mpr⟩
  case toQueues =>
    refine h.toQueues.congr (.refl _) fun {q x tr} _ hl hx => ?_
    obtain ⟨tr', hx', hleft, -⟩ := h.leave_left ht hx
    refine ⟨h.exited_loose ht hl, tr', hx', fun t' hto => ?_⟩
    by_cases heq : t' = t
    · subst heq
      have hnot : x ∉ L t' := fun hmem => hl t' th tr ht hmem hx hto
      simp only [State.leave, hnot, if_false, hx, some.injEq] at hx'
      exact hx' ▸ hto
    · exact (hleft.toThread_iff heq).mpr hto
  case chain =>
    intro t' th' ht'
    obtain ⟨hne, ht'⟩ := update_none_iff.mp ht'
    refine (h.chain t' th' ht').congr fun x _ tr hx => ?_
    obtain ⟨tr', hx', hleft, -⟩ := h.leave_left ht hx
    exact ⟨tr', hx', hleft.sameFor hne⟩
  case nodup => exact fun t' th' ht' => h.nodup t' th' (update_none_iff.mp ht').2
  case sent =>
    intro x tr' t' hx' hsender
    obtain ⟨tr, hx, hleft, hnot⟩ := hold hx'
    have hne := hnot t' hsender
    obtain ⟨⟨th', ht'⟩, hmem, hto⟩ := h.sent x tr t' hx ((hleft.sender_iff hne).mp hsender)
    refine ⟨⟨th', (update_of_ne hne _ _).trans ht'⟩, hmem, ?_⟩
    exact fun hto' => hto ((hleft.toThread_iff hne).mp hto')
  case orphan =>
    intro x tr' p hx' hsender hp
    obtain ⟨tr, hx, hleft, -⟩ := hold hx'
    have hp₀ : tr.fromParent = some p := hleft.fromParent ▸ hp
    obtain hsame | ⟨hsender₀, -⟩ := hleft.sender
    · obtain ⟨hl, hnot⟩ := h.orphan x tr p hx (hsame ▸ hsender) hp₀
      exact ⟨h.exited_loose ht hl, hnot⟩
    · exact h.exited_orphan ht hx hsender₀ hp₀
  case freshThread =>
    exact none_of_old h.freshThread (fun t' th' ht' => ⟨th', (update_none_iff.mp ht').2⟩)
      (Nat.le_refl _)
  case freshTransaction =>
    refine none_of_old h.freshTransaction (fun x tr' hx' => ?_) (Nat.le_refl _)
    obtain ⟨tr, hx, -⟩ := hold hx'
    exact ⟨tr, hx⟩

end

/-- A sound state comes out, or the driver stops at a `BUG`. -/
def Safe : Result State → Prop := Ends (fun s => ∃ L, Sound s L) (· = .bug)

theorem top_live (h : Sound s L) (ht : s.threads t = some th)
    (htop : th.transactionStack = some x) : ∃ tr, s.transactions x = some tr := by
  have hchain := h.chain t th ht
  rw [htop] at hchain
  obtain ⟨tr, hx, -⟩ := hchain.exists_of_mem (mem_of_mem_head? hchain.head)
  exact ⟨tr, hx⟩

theorem findTarget_total (h : Sound s L) (found : Option Nat)
    (htop : ∀ x, top = some x → x < fuel ∧ ∃ tr, s.transactions x = some tr) :
    ∃ found', findTarget fuel s p found top = .ok found' := by
  induction fuel generalizing top found with
  | zero =>
    cases top with
    | none => exact ⟨found, rfl⟩
    | some x => exact absurd (htop x rfl).1 (Nat.not_lt_zero x)
  | succ fuel ih =>
    cases top with
    | none => exact ⟨found, rfl⟩
    | some x =>
      obtain ⟨hlt, tr, hx⟩ := htop x rfl
      have hparent : ∀ y, tr.fromParent = some y → y < fuel ∧ ∃ tr, s.transactions y = some tr := by
        intro y hy
        obtain ⟨hyx, hlive⟩ := h.parent x tr y hx hy
        exact ⟨by omega, hlive⟩
      cases hsender : tr.sender with
      | none =>
        obtain ⟨found', hfound⟩ := ih found hparent
        refine ⟨found', bind_eq_ok.mpr ⟨tr, transaction_eq_ok.mpr hx, ?_⟩⟩
        rw [hsender]
        exact hfound
      | some t =>
        obtain ⟨⟨th, ht⟩, -⟩ := h.sent x tr t hx hsender
        obtain ⟨found', hfound⟩ := ih (if th.proc = p then some t else found) hparent
        refine ⟨found', bind_eq_ok.mpr ⟨tr, transaction_eq_ok.mpr hx, ?_⟩⟩
        rw [hsender]
        exact bind_eq_ok.mpr ⟨_, bind_eq_ok.mpr ⟨th, thread_eq_ok.mpr ht, rfl⟩, hfound⟩

section
variable (h : Sound s L) (ht : s.threads t = some th)
include h ht

theorem binderTransaction :
    Ends (fun s' => (∀ p tmp, s.targetProc target = some p → th.transactionStack = some tmp →
        findTarget (tmp + 1) s p none (some tmp) ≠ .ok (some t)) → ∃ L', Sound s' L')
      (· = .bug) (binderTransaction s t target granted) := by
  have hfail : ∃ L', Sound (failWith s t th) L' := ⟨L, h.setThread ht rfl⟩
  simp only [Stacks.binderTransaction, thread_eq_ok.mpr ht, ok_bind]
  split
  · exact fun _ => hfail
  next p hp =>
    split
    next hstack =>
      split
      · exact fun _ => hfail
      · refine fun _ => ⟨_, h.push ht ?_ nofun⟩
        intro tmp htmp
        rw [hstack] at htmp
        cases htmp
    next tmp hstack =>
      obtain ⟨tr, hx⟩ := h.top_live ht hstack
      simp only [transaction_eq_ok.mpr hx, ok_bind]
      split
      · exact fun _ => hfail
      next hto =>
        obtain ⟨found, hfound⟩ : ∃ found, findTarget (tmp + 1) s p none (some tmp) = .ok found :=
          h.findTarget_total none fun x hx' => by
            rw [some.injEq] at hx'
            exact ⟨Nat.lt_succ_of_le (Nat.le_of_eq hx'.symm), tr, hx' ▸ hx⟩
        simp only [hfound, ok_bind]
        split
        · exact fun _ => hfail
        · refine fun hok => ⟨_, h.push ht ?_ ?_⟩
          · intro tmp' htmp
            rw [hstack, some.injEq] at htmp
            exact ⟨tr, htmp ▸ hx, not_not.mp hto⟩
          · rintro rfl
            exact hok p tmp hp hstack hfound

theorem binderReply :
    Safe (binderReply s t granted) := by
  simp only [Stacks.binderReply, thread_eq_ok.mpr ht, ok_bind]
  split
  · exact ⟨L, h.setThread ht rfl⟩
  next x htop =>
    obtain ⟨tr, hx⟩ := h.top_live ht htop
    simp only [transaction_eq_ok.mpr hx, ok_bind]
    split
    · exact ⟨L, h.setThread ht rfl⟩
    next hto =>
      obtain ⟨hpop, hdone⟩ := h.popIncoming ht htop hx (not_not.mp hto)
      have hself : (s.setThread t { th with transactionStack := tr.toParent }).threads t
          = some { th with transactionStack := tr.toParent } := update_self ..
      have hfail : Sound (failWith (s.setThread t { th with transactionStack := tr.toParent }) t
          { th with transactionStack := tr.toParent }) _ := hpop.setThread hself rfl
      have hfailed : Safe (binderSendFailedReply _ x) :=
        (hfail.sendFailedReply (hdone.setThread hself) hx (Nat.lt_succ_self x)).imp
          fun _ => And.left
      split
      · exact hfailed
      next t' hsender =>
        obtain ⟨⟨th', ht'⟩, -⟩ := hpop.sent x tr t' hx hsender
        simp only [thread_eq_ok.mpr ht', ok_bind]
        split
        · exact ⟨_, hfail⟩
        · split
          · exact hfailed
          · refine (binderPopTransaction_ends ht' hx).imp ?_
            rintro _ ⟨htop', hsender', rfl⟩
            exact ⟨_, hpop.popOutgoing hdone ht' htop' hx hsender'⟩

theorem binderDeliver :
    Safe (Stacks.deliver s t x) := by
  simp only [Stacks.deliver, thread_eq_ok.mpr ht, ok_bind]
  generalize (if (Todo.thread t, x) ∈ s.todo then Todo.thread t else .proc th.proc) = q
  split
  · exact ⟨L, h⟩
  next hgo =>
    rw [not_or, not_not, not_and_or, not_not, not_not] at hgo
    obtain ⟨-, tr, hx⟩ := h.queued q x hgo.1
    simp only [transaction_eq_ok.mpr hx, ok_bind]
    exact ⟨_, h.deliver ht hx hgo.1 hgo.2⟩

end

theorem still_waiting (hx : x ∉ xs) (hxs : ∀ y ∈ x :: xs, (.thread t, y) ∈ s.todo)
    (htodo : s'.todo = (s.dequeue (.thread t) x).todo) : ∀ y ∈ xs, (.thread t, y) ∈ s'.todo := by
  intro y hy
  have hne : (Todo.thread t, y) ≠ (.thread t, x) := by
    rintro ⟨⟩
    exact hx hy
  rw [htodo]
  exact (mem_erase_of_ne hne).mpr (hxs y (mem_cons_of_mem _ hy))

theorem releaseWorks (xs : List Nat) (h : ∃ L, Sound s L) (hnodup : xs.Nodup)
    (hxs : ∀ x ∈ xs, (.thread t, x) ∈ s.todo) : Safe (xs.foldlM (releaseWork t) s) := by
  induction xs generalizing s with
  | nil => exact h
  | cons x xs ih =>
    obtain ⟨L, h⟩ := h
    obtain ⟨hx, hnodup⟩ := nodup_cons.mp hnodup
    obtain ⟨-, tr, hlive⟩ := h.queued _ x (hxs x mem_cons_self)
    obtain ⟨hdeq, hdone⟩ := h.dequeue (hxs x mem_cons_self)
    refine (hdeq.sendFailedReply hdone hlive (Nat.lt_succ_self x)).bind ?_
    rintro s₁ ⟨hsound, htodo⟩
    exact ih hsound hnodup (still_waiting hx hxs htodo)

theorem waiting_mem (hx : x ∈ s.waiting t) : (.thread t, x) ∈ s.todo := by
  obtain ⟨⟨q, y⟩, hmem, rfl⟩ := List.mem_map.mp hx
  obtain ⟨hmem, hq⟩ := mem_filter.mp hmem
  simp only [decide_eq_true_eq] at hq
  exact hq ▸ hmem

theorem waiting_nodup (h : Sound s L) : (s.waiting t).Nodup :=
  (filter_sublist.map Prod.snd).nodup h.queuedOnce

section
variable (h : Sound s L) (ht : s.threads t = some th)
include h ht

theorem sendReply :
    Ends (fun r => ∀ x, r = some x → th.transactionStack = some x ∧
        ∃ tr, s.transactions x = some tr ∧ tr.toThread = some t) (· = .bug)
      (match th.transactionStack with
      | none => .ok none
      | some x => do
        let tr ← s.transaction x
        return if tr.toThread = some t then some x else none : Result (Option Nat)) := by
  split
  · exact nofun
  next x htop =>
    obtain ⟨tr, hx⟩ := h.top_live ht htop
    simp only [transaction_eq_ok.mpr hx, ok_bind]
    split
    next hto =>
      rintro _ ⟨⟩
      exact ⟨htop, tr, hx, hto⟩
    next => exact nofun

theorem done_top (htop : th.transactionStack = some x) (hx : s.transactions x = some tr)
    (hto : tr.toThread = some t) :
    Done (s.exited t (L t)) L x ∧ (s.exited t (L t)).transactions x = some (tr.leave t) := by
  obtain ⟨hmem, hunqueued, hchildless⟩ := h.top_served ht htop hx hto
  have hself : (s.exited t (L t)).transactions x = some (tr.leave t) := by
    simp [State.exited, State.leave, hmem, hx]
  refine ⟨⟨?_, hunqueued, ?_⟩, hself⟩
  · intro t' th' tr' _ _ hx'
    rw [hself, some.injEq] at hx'
    rw [← hx', Transaction.leave, if_pos hto]
    nofun
  · intro x' tr' hx' hp
    obtain ⟨tr₀, hx₀, hleft, -⟩ := h.left_of_leave ht hx'
    exact hchildless x' tr₀ hx₀ (hleft.fromParent ▸ hp)

theorem freeStack_exited :
    freeStack (s.nextId + 1) { s with threads := update s.threads t none } t
      th.transactionStack = .ok (s.exited t (L t)) := by
  have hchain : Chain { s with threads := update s.threads t none } t
      th.transactionStack (L t) := (h.chain t th ht).congr fun y _ tr hy => ⟨tr, hy, .refl⟩
  exact freeStack_ok hchain (h.nodup t th ht) (Nat.le_succ_of_le (h.length_le ht))

theorem binderFreeThread :
    Safe (binderFreeThread s t) := by
  simp only [Stacks.binderFreeThread, thread_eq_ok.mpr ht, ok_bind]
  refine (h.sendReply ht).bind fun r hr => ?_
  simp only [h.freeStack_exited ht, ok_bind]
  apply Ends.bind (P := fun s' => ∃ L', Sound s' L')
  · cases r with
    | none => exact ⟨L, h.exited ht⟩
    | some x =>
      obtain ⟨htop, tr, hx, hto⟩ := hr x rfl
      obtain ⟨hdone, hx'⟩ := h.done_top ht htop hx hto
      exact ((h.exited ht).sendFailedReply hdone hx' (Nat.lt_succ_self x)).imp fun _ => And.left
  · rintro s₂ ⟨L₂, h₂⟩
    exact releaseWorks _ ⟨L₂, h₂⟩ h₂.waiting_nodup fun x hx => waiting_mem hx

end

variable {s s' : State} {L : Nat → List Nat}

theorem getThread (h : Sound s L) (hnext : s'.nextId = s.nextId + 1)
    (hthreads : s'.threads = update s.threads s.nextId (some ⟨p, none, false, false⟩))
    (htr : s'.transactions = s.transactions) (htodo : s'.todo = s.todo) :
    Sound s' (update L s.nextId []) := by
  have hfresh : s.threads s.nextId = none := h.freshThread _ (Nat.le_refl _)
  have hcase {t : Nat} {th : Thread} (ht : s'.threads t = some th) :
      t = s.nextId ∧ th = ⟨p, none, false, false⟩ ∨ t ≠ s.nextId ∧ s.threads t = some th := by
    rwa [hthreads, update_some_iff] at ht
  apply h.shrink (fun hy => htr ▸ hy) (fun _ _ hp => htr ▸ hp) (htodo ▸ .refl _)
    (fun _ hy => htr ▸ hy)
  · intro t th ht
    obtain ⟨rfl, rfl⟩ | ⟨hne, ht⟩ := hcase ht
    · rw [update_self]
      exact ⟨.nil, List.nodup_nil⟩
    · rw [update_of_ne hne]
      exact ⟨(h.chain t th ht).keep fun y _ tr hy => htr ▸ hy, h.nodup t th ht⟩
  · intro t th y ht hm
    obtain ⟨rfl, -⟩ | ⟨hne, ht⟩ := hcase ht
    · rw [update_self] at hm
      cases hm
    · rw [update_of_ne hne] at hm
      exact ⟨hm, th, ht⟩
  · intro y tr t th _ _ ht hm
    have hne : t ≠ s.nextId := ne_of_none hfresh ht
    rw [hthreads, update_of_ne hne, update_of_ne hne]
    exact ⟨⟨th, ht⟩, hm⟩
  · intro t hle
    rw [hnext] at hle
    have hne : t ≠ s.nextId := Nat.ne_of_gt (Nat.lt_of_succ_le hle)
    rw [hthreads, update_of_ne hne]
    exact h.freshThread t (Nat.le_of_succ_le hle)
  · exact hnext ▸ Nat.le_succ _

theorem init : Sound State.init fun _ => [] where
  served := nofun
  parent := nofun
  onlyChild := nofun
  queued := nofun
  queuedTo := nofun
  queuedOnce := List.nodup_nil
  chain := nofun
  nodup := nofun
  sent := nofun
  orphan := nofun
  freshThread _ _ := rfl
  freshTransaction _ _ := rfl

end Sound

/-- A call does not come back to its own sender: the search finds another thread. -/
def CallsElsewhere (s : State) : Op → Prop
  | .transaction t target _ => ∀ th p tmp, s.threads t = some th → s.targetProc target = some p →
      th.transactionStack = some tmp → findTarget (tmp + 1) s p none (some tmp) ≠ .ok (some t)
  | _ => True

theorem Sound.step (h : Sound s L) (op : Op) :
    Ends (fun s' => CallsElsewhere s op → ∃ L', Sound s' L') (· = .bug) (stackStep s op) := by
  have hguard {c : Bool} {r : Result State} (hr : c = true → Safe r) :
      Ends (fun s' => True → ∃ L', Sound s' L') (· = .bug) (if c then r else .ok s) := by
    split
    next hc => exact (hr hc).imp fun _ hs _ => hs
    next => exact fun _ => ⟨L, h⟩
  have halive {t : Nat} (ht : s.alive t = true) : ∃ th, s.threads t = some th :=
    isSome_iff_exists.mp ht
  have hwrites {t : Nat} (ht : s.writes t = true) : ∃ th, s.threads t = some th := by
    cases hth : s.threads t with
    | none => simp [State.writes, hth] at ht
    | some th => exact ⟨th, rfl⟩
  cases op with
  | getThread p => exact fun _ => ⟨_, h.getThread rfl rfl rfl rfl⟩
  | setContextMgr p => exact fun _ => ⟨L, h.frame rfl (fun _ => rfl) (.refl _) rfl⟩
  | transaction t target granted =>
    rw [stackStep]
    split
    next hc =>
      obtain ⟨th, ht⟩ := hwrites hc
      exact (h.binderTransaction ht).imp fun _ hs hok => hs fun p tmp => hok th p tmp ht
    next => exact fun _ => ⟨L, h⟩
  | reply t granted =>
    refine hguard fun ht => ?_
    obtain ⟨th, ht⟩ := hwrites ht
    exact h.binderReply ht
  | deliver t x =>
    refine hguard fun ht => ?_
    obtain ⟨th, ht⟩ := halive ht
    exact h.binderDeliver ht
  | readErrors t both =>
    refine hguard fun ht => ?_
    obtain ⟨th, ht⟩ := halive ht
    simp only [readErrors, thread_eq_ok.mpr ht, ok_bind]
    split <;> exact ⟨L, h.setThread ht rfl⟩
  | threadExit t =>
    refine hguard fun ht => ?_
    obtain ⟨th, ht⟩ := halive ht
    exact h.binderFreeThread ht

end SpicaKernel.Stacks
