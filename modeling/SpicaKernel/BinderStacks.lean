import SpicaKernel.Runs

namespace SpicaKernel.Stacks
open Function
set_option autoImplicit true

/-- `struct binder_transaction` of a synchronous call; `sender` is its field `from`. -/
structure Transaction where
  sender : Option Nat
  fromParent : Option Nat
  toThread : Option Nat
  toParent : Option Nat

/-- A thread with its `transaction_stack`, and whether its two errors differ from `BR_OK`. -/
structure Thread where
  proc : Nat
  transactionStack : Option Nat
  returnError : Bool
  returnError2 : Bool

/-- The lists in which a call waits: `proc->todo` and `thread->todo`. -/
inductive Todo where
  | proc (p : Nat)
  | thread (t : Nat)
  deriving DecidableEq

/-- Threads and calls are named by the order of their allocation, and a freed one is `none`. -/
structure State where
  nextId : Nat
  threads : Nat → Option Thread
  transactions : Nat → Option Transaction
  todo : List (Todo × Nat)
  contextMgr : Option Nat

def State.init : State where
  nextId := 0
  threads := fun _ => none
  transactions := fun _ => none
  todo := []
  contextMgr := none

/-- Why the driver stops: a `BUG`, a freed object or a loop without end. -/
inductive Fault where
  | bug
  | dangling
  | endless
  deriving DecidableEq

abbrev Result (α : Type) := Except Fault α

namespace State

def thread (s : State) (t : Nat) : Result Thread :=
  match s.threads t with
  | some th => .ok th
  | none => .error .dangling

def transaction (s : State) (x : Nat) : Result Transaction :=
  match s.transactions x with
  | some tr => .ok tr
  | none => .error .dangling

def setThread (s : State) (t : Nat) (th : Thread) : State :=
  { s with threads := update s.threads t (some th) }

def setTransaction (s : State) (x : Nat) (tr : Transaction) : State :=
  { s with transactions := update s.transactions x (some tr) }

def kfree (s : State) (x : Nat) : State :=
  { s with transactions := update s.transactions x none }

def dequeue (s : State) (q : Todo) (x : Nat) : State :=
  { s with todo := s.todo.erase (q, x) }

end State

def binderPopTransaction (s : State) (targetThread : Option Nat) (x : Nat) : Result State :=
  match targetThread with
  | none => .ok (s.kfree x)
  | some t => do
    let th ← s.thread t
    if th.transactionStack ≠ some x then throw .bug
    let tr ← s.transaction x
    if tr.sender ≠ some t then throw .bug
    return (s.setThread t { th with transactionStack := tr.fromParent }).kfree x

def Thread.shiftError (th : Thread) : Thread :=
  if th.returnError = true ∧ th.returnError2 = false
  then { th with returnError2 := true, returnError := false } else th

/-- The loop of `binder_send_failed_reply`. -/
def sendFailedReply : Nat → State → Nat → Result State
  | 0, _, _ => .error .endless
  | fuel + 1, s, x => do
    let tr ← s.transaction x
    match tr.sender with
    | some t =>
      let th ← s.thread t
      if th.shiftError.returnError = false then
        let s ← binderPopTransaction (s.setThread t th.shiftError) (some t) x
        let th ← s.thread t
        return s.setThread t { th with returnError := true }
      else return s
    | none =>
      let s ← binderPopTransaction s none x
      match tr.fromParent with
      | none => return s
      | some next => sendFailedReply fuel s next

/-- A call is older than those made on its behalf, so that the loop goes back at most `x` times. -/
def binderSendFailedReply (s : State) (x : Nat) : Result State := sendFailedReply (x + 1) s x

/-- The search of `binder_transaction` for a thread of the target process along `from_parent`. -/
def findTarget : Nat → State → Nat → Option Nat → Option Nat → Result (Option Nat)
  | _, _, _, found, none => .ok found
  | 0, _, _, _, some _ => .error .endless
  | fuel + 1, s, targetProc, found, some tmp => do
    let tr ← s.transaction tmp
    let found ← (match tr.sender with
      | some t => do
        let th ← s.thread t
        return if th.proc = targetProc then some t else found
      | none => .ok found)
    findTarget fuel s targetProc found tr.fromParent

/-- What a call is for: the context manager, or the process behind a handle that is valid. -/
inductive Target where
  | contextMgr
  | handle (proc : Option Nat)

def State.targetProc (s : State) : Target → Option Nat
  | .contextMgr => s.contextMgr
  | .handle p => p

def failWith (s : State) (t : Nat) (th : Thread) : State :=
  s.setThread t { th with returnError := true }

/-- The new call, on the stack of its sender and in the list of its target. -/
def pushTransaction (s : State) (t : Nat) (th : Thread) (targetProc : Nat)
    (targetThread : Option Nat) : State :=
  let x := s.nextId
  let s := s.setTransaction x ⟨some t, th.transactionStack, targetThread, none⟩
  let s := s.setThread t { th with transactionStack := some x }
  let targetList := match targetThread with
    | some t' => .thread t'
    | none => .proc targetProc
  { s with nextId := x + 1, todo := s.todo ++ [(targetList, x)] }

/-- A call that is not one-way; `granted`: its memory is there and its objects are accepted. -/
def binderTransaction (s : State) (t : Nat) (target : Target) (granted : Bool) : Result State := do
  let th ← s.thread t
  match s.targetProc target with
  | none => return failWith s t th
  | some targetProc =>
    match th.transactionStack with
    | none =>
      if granted = false then return failWith s t th
      else return pushTransaction s t th targetProc none
    | some tmp =>
      let tr ← s.transaction tmp
      if tr.toThread ≠ some t then return failWith s t th
      let targetThread ← findTarget (tmp + 1) s targetProc none (some tmp)
      if granted = false then return failWith s t th
      else return pushTransaction s t th targetProc targetThread

/-- `binder_transaction` for a reply, without the item that takes the answer to the caller. -/
def binderReply (s : State) (t : Nat) (granted : Bool) : Result State := do
  let th ← s.thread t
  match th.transactionStack with
  | none => return failWith s t th
  | some x =>
    let tr ← s.transaction x
    if tr.toThread ≠ some t then return failWith s t th
    let th := { th with transactionStack := tr.toParent }
    let s := s.setThread t th
    match tr.sender with
    | none => binderSendFailedReply (failWith s t th) x
    | some t' =>
      let target ← s.thread t'
      if target.transactionStack ≠ some x then return failWith s t th
      if granted = false then binderSendFailedReply (failWith s t th) x
      else binderPopTransaction s (some t') x

/-- `binder_thread_read` takes a call off a list, one of the process only for an idle thread. -/
def deliver (s : State) (t : Nat) (x : Nat) : Result State := do
  let th ← s.thread t
  let q := if (.thread t, x) ∈ s.todo then Todo.thread t else .proc th.proc
  if (q, x) ∉ s.todo ∨ q ≠ .thread t ∧ th.transactionStack ≠ none then return s
  let tr ← s.transaction x
  let s := (s.dequeue q x).setTransaction x
    { tr with toParent := th.transactionStack, toThread := some t }
  return s.setThread t { th with transactionStack := some x }

/-- `binder_thread_read` returns the errors of a thread, the older one first. -/
def readErrors (s : State) (t : Nat) (both : Bool) : Result State := do
  let th ← s.thread t
  if th.returnError2 = true ∧ both = false then
    return s.setThread t { th with returnError2 := false }
  else return s.setThread t { th with returnError := false, returnError2 := false }

/-- The loop of `binder_free_thread` over the stack of the thread. -/
def freeStack : Nat → State → Nat → Option Nat → Result State
  | _, s, _, none => .ok s
  | 0, _, _, some _ => .error .endless
  | fuel + 1, s, t, some x => do
    let tr ← s.transaction x
    if tr.toThread = some t then
      freeStack fuel (s.setTransaction x { tr with toThread := none }) t tr.toParent
    else if tr.sender = some t then
      freeStack fuel (s.setTransaction x { tr with sender := none }) t tr.fromParent
    else throw .bug

def releaseWork (t : Nat) (s : State) (x : Nat) : Result State :=
  binderSendFailedReply (s.dequeue (.thread t) x) x

def State.waiting (s : State) (t : Nat) : List Nat :=
  (s.todo.filter (fun w => w.1 = .thread t)).map Prod.snd

def binderFreeThread (s : State) (t : Nat) : Result State := do
  let th ← s.thread t
  let sendReply ← (match th.transactionStack with
    | none => .ok none
    | some x => do
      let tr ← s.transaction x
      return if tr.toThread = some t then some x else none)
  let s ← freeStack (s.nextId + 1) { s with threads := update s.threads t none } t
    th.transactionStack
  let s ← (match sendReply with
    | some x => binderSendFailedReply s x
    | none => .ok s)
  (s.waiting t).foldlM (releaseWork t) s

inductive Op where
  | getThread (p : Nat)
  | setContextMgr (p : Nat)
  | transaction (t : Nat) (target : Target) (granted : Bool)
  | reply (t : Nat) (granted : Bool)
  | deliver (t x : Nat)
  | readErrors (t : Nat) (both : Bool)
  | threadExit (t : Nat)

def State.alive (s : State) (t : Nat) : Bool := (s.threads t).isSome

/-- `binder_thread_write` goes on with commands of a thread that has no error to return. -/
def State.writes (s : State) (t : Nat) : Bool :=
  (s.threads t).any (fun th => th.returnError = false)

def stackStep (s : State) : Op → Result State
  | .getThread p => .ok { s with
      nextId := s.nextId + 1
      threads := update s.threads s.nextId (some ⟨p, none, false, false⟩) }
  | .setContextMgr p => .ok { s with contextMgr := some p }
  | .transaction t target granted => if s.writes t
    then binderTransaction s t target granted else .ok s
  | .reply t granted => if s.writes t then binderReply s t granted else .ok s
  | .deliver t x => if s.alive t then deliver s t x else .ok s
  | .readErrors t both => if s.alive t then readErrors s t both else .ok s
  | .threadExit t => if s.alive t then binderFreeThread s t else .ok s

open List Option

/-- The stack of a thread from a call on, as `binder_free_thread` walks it. -/
inductive Chain (s : State) (t : Nat) : Option Nat → List Nat → Prop where
  | nil : Chain s t none []
  | incoming : s.transactions x = some tr → tr.toThread = some t → Chain s t tr.toParent l →
      Chain s t (some x) (x :: l)
  | outgoing : s.transactions x = some tr → tr.toThread ≠ some t → tr.sender = some t →
      Chain s t tr.fromParent l → Chain s t (some x) (x :: l)

structure SameFor (t : Nat) (tr tr' : Transaction) : Prop where
  incoming : tr'.toThread = some t ↔ tr.toThread = some t
  toParent : tr.toThread = some t → tr'.toParent = tr.toParent
  outgoing : tr.toThread ≠ some t → tr.sender = some t →
    tr'.sender = some t ∧ tr'.fromParent = tr.fromParent

theorem SameFor.refl : SameFor t tr tr := ⟨.rfl, fun _ => rfl, fun _ h => ⟨h, rfl⟩⟩

section Chains

variable {s s' : State}

section
variable (h : Chain s t top l)
include h

theorem Chain.congr (hsame : ∀ x ∈ l, ∀ tr, s.transactions x = some tr →
      ∃ tr', s'.transactions x = some tr' ∧ SameFor t tr tr') : Chain s' t top l := by
  induction h with
  | nil => exact .nil
  | incoming hx hto _ ih =>
    obtain ⟨tr', hx', hs⟩ := hsame _ mem_cons_self _ hx
    refine .incoming hx' (hs.incoming.mpr hto) ?_
    rw [hs.toParent hto]
    exact ih fun y hy => hsame y (mem_cons_of_mem _ hy)
  | outgoing hx hto hfrom _ ih =>
    obtain ⟨tr', hx', hs⟩ := hsame _ mem_cons_self _ hx
    obtain ⟨hfrom', hparent⟩ := hs.outgoing hto hfrom
    refine .outgoing hx' (fun hto' => hto (hs.incoming.mp hto')) hfrom' ?_
    rw [hparent]
    exact ih fun y hy => hsame y (mem_cons_of_mem _ hy)

theorem Chain.keep (hkeep : ∀ x ∈ l, ∀ tr,
  s.transactions x = some tr → s'.transactions x = some tr) :
    Chain s' t top l :=
  h.congr fun x hx tr htr => ⟨tr, hkeep x hx tr htr, .refl⟩

theorem Chain.exists_of_mem (hx : x ∈ l) :
    ∃ tr, s.transactions x = some tr ∧ (tr.toThread = some t ∨ tr.sender = some t) := by
  induction h with
  | nil => cases hx
  | incoming hy hto _ ih =>
    obtain rfl | hx := mem_cons.mp hx
    · exact ⟨_, hy, .inl hto⟩
    · exact ih hx
  | outgoing hy _ hfrom _ ih =>
    obtain rfl | hx := mem_cons.mp hx
    · exact ⟨_, hy, .inr hfrom⟩
    · exact ih hx

theorem Chain.end_of (hx : x ∈ l) (htr : s.transactions x = some tr) :
    tr.toThread = some t ∨ tr.sender = some t := by
  obtain ⟨tr', hx', hend⟩ := h.exists_of_mem hx
  rw [htr, some.injEq] at hx'
  exact hx' ▸ hend

theorem Chain.parent_mem (hl : l.Nodup) (hx : x ∈ l)
    (htr : s.transactions x = some tr) (hto : tr.toThread ≠ some t)
    (hp : tr.fromParent = some p) : p ∈ l ∧ l.head? ≠ some p := by
  induction h with
  | nil => cases hx
  | @incoming y tr' l' hy hto' hrest ih =>
    obtain ⟨hy', hl'⟩ := nodup_cons.mp hl
    obtain rfl | hx := mem_cons.mp hx
    · rw [htr, some.injEq] at hy
      exact absurd (hy ▸ hto') hto
    · obtain ⟨hmem, -⟩ := ih hl' hx
      refine ⟨mem_cons_of_mem _ hmem, ?_⟩
      rintro ⟨⟩
      exact hy' hmem
  | @outgoing y tr' l' hy _ _ hrest ih =>
    obtain ⟨hy', hl'⟩ := nodup_cons.mp hl
    have hmem : p ∈ l' := by
      obtain rfl | hx := mem_cons.mp hx
      · rw [htr, some.injEq] at hy
        subst hy
        rw [hp] at hrest
        cases hrest <;> exact mem_cons_self
      · exact (ih hl' hx).1
    refine ⟨mem_cons_of_mem _ hmem, ?_⟩
    rintro ⟨⟩
    exact hy' hmem

theorem Chain.head : l.head? = top := by
  cases h <;> rfl

end

end Chains

def Loose (s : State) (L : Nat → List Nat) (x : Nat) : Prop :=
  ∀ t th tr, s.threads t = some th → x ∈ L t → s.transactions x = some tr → tr.toThread ≠ some t

theorem Loose.mono (h : Loose s L x)
    (hold : ∀ t th', s'.threads t = some th' → x ∈ L' t → x ∈ L t ∧ ∃ th, s.threads t = some th)
    (htr : ∀ tr, s'.transactions x = some tr → s.transactions x = some tr) : Loose s' L' x := by
  intro t th' tr ht' hmem hx
  obtain ⟨hmem, th, ht⟩ := hold t th' ht' hmem
  exact h t th tr ht hmem (htr tr hx)

/-- A call is made on behalf of an older one, which its sender works on. -/
structure Lineage (s : State) : Prop where
  served : ∀ x tr t p, s.transactions x = some tr → tr.sender = some t → tr.fromParent = some p →
    ∃ tr', s.transactions p = some tr' ∧ tr'.toThread = some t
  parent : ∀ x tr p, s.transactions x = some tr → tr.fromParent = some p →
    p < x ∧ ∃ tr', s.transactions p = some tr'
  onlyChild : ∀ x tr x' tr' p, s.transactions x = some tr → s.transactions x' = some tr' →
    tr.fromParent = some p → tr'.fromParent = some p → x = x'

structure Queues (s : State) (L : Nat → List Nat) : Prop where
  queued : ∀ q x, (q, x) ∈ s.todo → Loose s L x ∧ ∃ tr, s.transactions x = some tr
  queuedTo : ∀ t x tr, (.thread t, x) ∈ s.todo → s.transactions x = some tr → tr.toThread = some t
  queuedOnce : (s.todo.map Prod.snd).Nodup

structure Sound (s : State) (L : Nat → List Nat) : Prop extends Lineage s, Queues s L where
  chain : ∀ t th, s.threads t = some th → Chain s t th.transactionStack (L t)
  nodup : ∀ t th, s.threads t = some th → (L t).Nodup
  sent : ∀ x tr t, s.transactions x = some tr → tr.sender = some t →
    (∃ th, s.threads t = some th) ∧ x ∈ L t ∧ tr.toThread ≠ some t
  orphan : ∀ x tr p, s.transactions x = some tr → tr.sender = none → tr.fromParent = some p →
    Loose s L p ∧ ∀ q, (q, p) ∉ s.todo
  freshThread : ∀ t, s.nextId ≤ t → s.threads t = none
  freshTransaction : ∀ x, s.nextId ≤ x → s.transactions x = none

/-- No call is new, and those that others were made on behalf of stay with who works on them. -/
theorem Lineage.congr (h : Lineage s)
    (hold : ∀ {y tr'}, s'.transactions y = some tr' → ∃ tr, s.transactions y = some tr ∧
      tr'.fromParent = tr.fromParent ∧ ∀ t, tr'.sender = some t → tr.sender = some t)
    (hkeep : ∀ {y tr' p trp}, s'.transactions y = some tr' → tr'.fromParent = some p →
      s.transactions p = some trp → ∃ trp', s'.transactions p = some trp' ∧
        ∀ t, tr'.sender = some t → trp.toThread = some t → trp'.toThread = some t) :
    Lineage s' where
  served y tr' t p hy hsender hp := by
    obtain ⟨tr, hy₀, hparent, hs⟩ := hold hy
    obtain ⟨trp, hp₀, hto⟩ := h.served y tr t p hy₀ (hs t hsender) (hparent ▸ hp)
    obtain ⟨trp', hp', hto'⟩ := hkeep hy hp hp₀
    exact ⟨trp', hp', hto' t hsender hto⟩
  parent y tr' p hy hp := by
    obtain ⟨tr, hy₀, hparent, -⟩ := hold hy
    obtain ⟨hlt, trp, hp₀⟩ := h.parent y tr p hy₀ (hparent ▸ hp)
    obtain ⟨trp', hp', -⟩ := hkeep hy hp hp₀
    exact ⟨hlt, trp', hp'⟩
  onlyChild y tr₁ y' tr₂ p hy hy' hp hp' := by
    obtain ⟨tr, hy₀, hparent, -⟩ := hold hy
    obtain ⟨tr', hy₀', hparent', -⟩ := hold hy'
    exact h.onlyChild y tr y' tr' p hy₀ hy₀' (hparent ▸ hp) (hparent' ▸ hp')

theorem Queues.congr (h : Queues s L) (htodo : s'.todo.Sublist s.todo)
    (hkeep : ∀ {q y tr}, (q, y) ∈ s'.todo → Loose s L y → s.transactions y = some tr →
      Loose s' L' y ∧ ∃ tr', s'.transactions y = some tr' ∧
        ∀ t, tr.toThread = some t → tr'.toThread = some t) : Queues s' L' where
  queued q y hm := by
    obtain ⟨hl, tr, hy⟩ := h.queued q y (htodo.subset hm)
    obtain ⟨hl', tr', hy', -⟩ := hkeep hm hl hy
    exact ⟨hl', tr', hy'⟩
  queuedTo t y tr' hm hy' := by
    obtain ⟨hl, tr, hy⟩ := h.queued _ y (htodo.subset hm)
    obtain ⟨-, tr₁, hy₁, hto⟩ := hkeep hm hl hy
    obtain rfl := some.inj (hy₁.symm.trans hy')
    exact hto t (h.queuedTo t y tr (htodo.subset hm) hy)
  queuedOnce := (htodo.map Prod.snd).nodup h.queuedOnce

/-- A call that may be freed: it is in no list, no target's stack, and no call's parent. -/
structure Done (s : State) (L : Nat → List Nat) (x : Nat) : Prop where
  loose : Loose s L x
  unqueued : ∀ q, (q, x) ∉ s.todo
  childless : ∀ x' tr', s.transactions x' = some tr' → tr'.fromParent ≠ some x

namespace Sound

variable {s s' : State} {L : Nat → List Nat}

/-- The sender of a call works on the parent of the call, below the top of its stack. -/
theorem parent_taken (h : Sound s L) (hx : s.transactions x = some tr)
    (hsender : tr.sender = some t) (hp : tr.fromParent = some p) : ∃ th trp,
      s.threads t = some th ∧ p ∈ L t ∧ (L t).head? ≠ some p ∧ s.transactions p = some trp ∧
        trp.toThread = some t := by
  obtain ⟨trp, hp', hto⟩ := h.served x tr t p hx hsender hp
  obtain ⟨⟨th, ht⟩, hmem, hout⟩ := h.sent x tr t hx hsender
  obtain ⟨hin, hhead⟩ := (h.chain t th ht).parent_mem (h.nodup t th ht) hmem hx hout hp
  exact ⟨th, trp, ht, hin, hhead, hp', hto⟩

theorem top_served (h : Sound s L) (ht : s.threads t = some th)
    (htop : th.transactionStack = some x) (hx : s.transactions x = some tr)
    (hto : tr.toThread = some t) : x ∈ L t ∧ (∀ q, (q, x) ∉ s.todo) ∧
      ∀ x' tr', s.transactions x' = some tr' → tr'.fromParent ≠ some x := by
  have hhead : (L t).head? = some x := (h.chain t th ht).head.trans htop
  have hmem : x ∈ L t := mem_of_mem_head? hhead
  have hnot : ¬ Loose s L x := fun hloose => hloose t th tr ht hmem hx hto
  refine ⟨hmem, fun q hq => hnot (h.queued q x hq).1, ?_⟩
  intro x' tr' hx' hparent
  cases hsender : tr'.sender with
  | none => exact hnot (h.orphan x' tr' x hx' hsender hparent).1
  | some t' =>
    obtain ⟨-, tr₁, -, -, hbelow, hx₁, hto₁⟩ := h.parent_taken hx' hsender hparent
    rw [hx, some.injEq] at hx₁
    rw [← hx₁, hto, some.injEq] at hto₁
    exact hbelow (hto₁ ▸ hhead)

theorem old_thread (hthreads : ∀ t, (s'.threads t).map Thread.transactionStack
      = (s.threads t).map Thread.transactionStack) (ht : s'.threads t = some th') :
    ∃ th, s.threads t = some th ∧ th.transactionStack = th'.transactionStack := by
  have hmap := hthreads t
  rw [ht] at hmap
  exact map_eq_some_iff.mp hmap.symm

section
variable (h : Sound s L)
include h

/-- No call is new, and those that stay are as they were. -/
theorem shrink (hold : ∀ {y tr}, s'.transactions y = some tr → s.transactions y = some tr)
    (hparent : ∀ {y tr p trp}, s'.transactions y = some tr → tr.fromParent = some p →
      s.transactions p = some trp → s'.transactions p = some trp)
    (htodo : s'.todo.Sublist s.todo) (hqueued : ∀ {q y tr}, (q, y) ∈ s'.todo →
      s.transactions y = some tr → s'.transactions y = some tr)
    (hthreads : ∀ {t th'}, s'.threads t = some th' →
      Chain s' t th'.transactionStack (L' t) ∧ (L' t).Nodup)
    (hmem : ∀ {t th' y}, s'.threads t = some th' → y ∈ L' t → y ∈ L t ∧ ∃ th, s.threads t = some th)
    (hsent : ∀ {y tr t th}, s'.transactions y = some tr → tr.toThread ≠ some t →
      s.threads t = some th → y ∈ L t → (∃ th', s'.threads t = some th') ∧ y ∈ L' t)
    (hfresh : ∀ t, s'.nextId ≤ t → s'.threads t = none) (hnext : s.nextId ≤ s'.nextId) :
    Sound s' L' := by
  have hloose {y : Nat} (hy : Loose s L y) : Loose s' L' y :=
    hy.mono (fun _ _ ht' hm => hmem ht' hm) fun _ => hold
  constructor
  case chain => exact fun t th' ht' => (hthreads ht').1
  case nodup => exact fun t th' ht' => (hthreads ht').2
  case sent =>
    intro y tr t hy hsender
    obtain ⟨⟨th, ht⟩, hm, hto⟩ := h.sent y tr t (hold hy) hsender
    obtain ⟨hlive, hm'⟩ := hsent hy hto ht hm
    exact ⟨hlive, hm', hto⟩
  case toLineage =>
    exact h.toLineage.congr (fun hy => ⟨_, hold hy, rfl, fun _ => id⟩)
      fun hy hp hp' => ⟨_, hparent hy hp hp', fun _ _ => id⟩
  case toQueues =>
    exact h.toQueues.congr htodo fun hm hl hy => ⟨hloose hl, _, hqueued hm hy, fun _ => id⟩
  case orphan =>
    intro y tr p hy hsender hp
    obtain ⟨hl, hq⟩ := h.orphan y tr p (hold hy) hsender hp
    exact ⟨hloose hl, fun q hm => hq q (htodo.subset hm)⟩
  case freshThread => exact hfresh
  case freshTransaction => exact none_of_old h.freshTransaction (fun y tr hy => ⟨tr, hold hy⟩) hnext

theorem frame (htr : s'.transactions = s.transactions)
    (hthreads : ∀ t, (s'.threads t).map Thread.transactionStack
      = (s.threads t).map Thread.transactionStack)
    (htodo : s'.todo.Sublist s.todo) (hnext : s'.nextId = s.nextId) : Sound s' L := by
  have hold (t : Nat) (th' : Thread) (ht' : s'.threads t = some th') :
      ∃ th, s.threads t = some th := by
    obtain ⟨th, ht, -⟩ := old_thread hthreads ht'
    exact ⟨th, ht⟩
  apply h.shrink (fun hy => htr ▸ hy) (fun _ _ hp => htr ▸ hp) htodo (fun _ hy => htr ▸ hy)
  · intro t th' ht'
    obtain ⟨th, ht, hstack⟩ := old_thread hthreads ht'
    rw [← hstack]
    exact ⟨(h.chain t th ht).keep fun y _ tr hy => htr ▸ hy, h.nodup t th ht⟩
  · exact fun ht' hm => ⟨hm, hold _ _ ht'⟩
  · intro y tr t th _ _ ht hm
    obtain ⟨th', ht', -⟩ := old_thread (fun t => (hthreads t).symm) ht
    exact ⟨⟨th', ht'⟩, hm⟩
  · exact none_of_old h.freshThread hold (Nat.le_of_eq hnext.symm)
  · exact Nat.le_of_eq hnext.symm

theorem setThread (ht : s.threads t = some th)
    (hstack : th'.transactionStack = th.transactionStack) : Sound (s.setThread t th') L := by
  refine h.frame rfl (fun t' => ?_) (.refl _) rfl
  by_cases heq : t' = t
  · simp [State.setThread, heq, ht, hstack]
  · simp [State.setThread, update_of_ne heq]

theorem drop (htr : s'.transactions = update s.transactions x none)
    (hlive : ∀ t th, s.threads t = some th → ∃ th', s'.threads t = some th')
    (hthreads : ∀ t th', s'.threads t = some th' → ∃ th, s.threads t = some th ∧
      Chain s t th'.transactionStack (L' t) ∧ (L' t).Nodup ∧ ∀ y, y ∈ L' t ↔ y ∈ L t ∧ y ≠ x)
    (htodo : s'.todo = s.todo) (hnext : s'.nextId = s.nextId) (hq : ∀ q, (q, x) ∉ s.todo)
    (hchild : ∀ x' tr', s.transactions x' = some tr' → tr'.fromParent ≠ some x) :
    Sound s' L' := by
  have hother {y : Nat} (hy : y ≠ x) : s'.transactions y = s.transactions y := by
    rw [htr, update_of_ne hy]
  have hold {y : Nat} {tr : Transaction} (hy : s'.transactions y = some tr) :
      y ≠ x ∧ s.transactions y = some tr := by
    rwa [htr, update_none_iff] at hy
  apply h.shrink (fun hy => (hold hy).2) _ (htodo ▸ .refl _)
  · intro q y tr hm hy
    rwa [hother fun heq => hq q (htodo ▸ heq ▸ hm)]
  · intro t th' ht'
    obtain ⟨th, ht, hchain, hnodup, hiff⟩ := hthreads t th' ht'
    refine ⟨hchain.keep fun y hy tr hy' => ?_, hnodup⟩
    rw [hother ((hiff y).mp hy).2, hy']
  · intro t th' y ht' hm
    obtain ⟨th, ht, -, -, hiff⟩ := hthreads t th' ht'
    exact ⟨((hiff y).mp hm).1, th, ht⟩
  · intro y tr t th hy _ ht hm
    obtain ⟨th', ht'⟩ := hlive t th ht
    obtain ⟨-, -, -, -, hiff⟩ := hthreads t th' ht'
    exact ⟨⟨th', ht'⟩, (hiff y).mpr ⟨hm, (hold hy).1⟩⟩
  · refine none_of_old h.freshThread (fun t th' ht' => ?_) (Nat.le_of_eq hnext.symm)
    obtain ⟨th, ht, -⟩ := hthreads t th' ht'
    exact ⟨th, ht⟩
  · exact Nat.le_of_eq hnext.symm
  · intro y tr p trp hy hp hp'
    rwa [hother fun heq => hchild y tr (hold hy).2 (heq ▸ hp)]

theorem popOutgoing (hd : Done s L x) (ht : s.threads t = some th)
    (htop : th.transactionStack = some x) (hx : s.transactions x = some tr)
    (hsender : tr.sender = some t) :
    Sound ((s.setThread t { th with transactionStack := tr.fromParent }).kfree x)
      (update L t (L t).tail) := by
  have hchain := h.chain t th ht
  have hnodup := h.nodup t th ht
  rw [htop] at hchain
  have hlist : L t = x :: (L t).tail ∧ Chain s t tr.fromParent (L t).tail := by
    obtain ⟨-, hmem, hto⟩ := h.sent x tr t hx hsender
    generalize L t = l at hchain hmem ⊢
    cases hchain with
    | incoming hx' hto' _ =>
      rw [hx, some.injEq] at hx'
      exact absurd (hx' ▸ hto') hto
    | outgoing hx' _ _ hrest =>
      rw [hx, some.injEq] at hx'
      exact ⟨rfl, hx' ▸ hrest⟩
  refine h.drop rfl ?_ ?_ rfl rfl hd.unqueued hd.childless
  · exact fun t' th' ht' => (exists_update_iff ht).mpr ⟨th', ht'⟩
  · intro t' th' ht'
    obtain ⟨rfl, rfl⟩ | ⟨hne, ht₁⟩ := update_some_iff.mp ht'
    · rw [hlist.1] at hnodup
      obtain ⟨hnot, hrest⟩ := nodup_cons.mp hnodup
      rw [update_self]
      refine ⟨th, ht, hlist.2, hrest, fun y => ?_⟩
      rw [hlist.1, mem_cons]
      constructor
      · exact fun hy => ⟨.inr hy, fun heq => hnot (heq ▸ hy)⟩
      · exact fun hy => hy.1.resolve_left hy.2
    · rw [update_of_ne hne]
      refine ⟨th', ht₁, h.chain t' th' ht₁, h.nodup t' th' ht₁, fun y => ?_⟩
      refine ⟨fun hy => ⟨hy, ?_⟩, And.left⟩
      rintro rfl
      obtain hto | hsender' := (h.chain t' th' ht₁).end_of hy hx
      · exact hd.loose t' th' tr ht₁ hy hx hto
      · rw [hsender, some.injEq] at hsender'
        exact hne hsender'.symm

theorem freeOrphan (hd : Done s L x) (hx : s.transactions x = some tr)
    (hsender : tr.sender = none) : Sound (s.kfree x) L := by
  refine h.drop rfl (fun t th ht => ⟨th, ht⟩) ?_ rfl rfl hd.unqueued hd.childless
  intro t th ht
  refine ⟨th, ht, h.chain t th ht, h.nodup t th ht, fun y => ⟨fun hy => ⟨hy, ?_⟩, And.left⟩⟩
  rintro rfl
  obtain hto | hsender' := (h.chain t th ht).end_of hy hx
  · exact hd.loose t th tr ht hy hx hto
  · rw [hsender] at hsender'
    cases hsender'

theorem done_parent (hx : s.transactions x = some tr) (hsender : tr.sender = none)
    (hp : tr.fromParent = some p) :
    Done (s.kfree x) L p ∧ ∃ tr', (s.kfree x).transactions p = some tr' := by
  obtain ⟨hloose, hunqueued⟩ := h.orphan x tr p hx hsender hp
  obtain ⟨hlt, tr', hp'⟩ := h.parent x tr p hx hp
  have hold : ∀ {y tr}, (s.kfree x).transactions y = some tr →
      y ≠ x ∧ s.transactions y = some tr := update_none_iff.mp
  refine ⟨⟨?_, hunqueued, ?_⟩, tr', ?_⟩
  · exact fun t th tr ht hmem hy => hloose t th tr ht hmem (hold hy).2
  · intro x' tr' hx' hp''
    obtain ⟨hne, hx'⟩ := hold hx'
    exact hne (h.onlyChild x' tr' x tr p hx' hx hp'' hp)
  · have hne : p ≠ x := Nat.ne_of_lt hlt
    simpa [State.kfree, update_of_ne hne] using hp'

end

end Sound

section Replies

variable {s s' : State} {L : Nat → List Nat}

theorem thread_eq_ok : s.thread t = .ok th ↔ s.threads t = some th := by
  unfold State.thread
  cases s.threads t <;> simp

theorem transaction_eq_ok : s.transaction x = .ok tr ↔ s.transactions x = some tr := by
  unfold State.transaction
  cases s.transactions x <;> simp

theorem binderPopTransaction_ends (ht : s.threads t = some th) (hx : s.transactions x = some tr) :
    Ends (fun s' => th.transactionStack = some x ∧ tr.sender = some t ∧
      s' = (s.setThread t { th with transactionStack := tr.fromParent }).kfree x) (· = .bug)
        (binderPopTransaction s (some t) x) := by
  simp only [binderPopTransaction, thread_eq_ok.mpr ht, transaction_eq_ok.mpr hx, ok_bind]
  split
  · rfl
  next htop =>
    split
    · rfl
    next hsender => exact ⟨not_not.mp htop, not_not.mp hsender, rfl⟩

theorem Thread.shiftError_stack (th : Thread) :
    th.shiftError.transactionStack = th.transactionStack := by
  unfold Thread.shiftError
  split <;> rfl

theorem Done.setThread (hd : Done s L x) (ht : s.threads t = some th) :
    Done (s.setThread t th') L x where
  loose := hd.loose.mono (fun _ th₁ ht' hmem => ⟨hmem, (exists_update_iff ht).mp ⟨th₁, ht'⟩⟩)
    fun _ hx => hx
  unqueued := hd.unqueued
  childless := hd.childless

theorem Sound.sendFailedReply (h : Sound s L) (hd : Done s L x) (hx : s.transactions x = some tr)
    (hfuel : x < fuel) : Ends (fun s' => (∃ L', Sound s' L') ∧ s'.todo = s.todo) (· = .bug)
      (sendFailedReply fuel s x) := by
  induction fuel generalizing s x tr with
  | zero => cases hfuel
  | succ fuel ih =>
    simp only [Stacks.sendFailedReply, transaction_eq_ok.mpr hx, ok_bind]
    split
    next t hsender =>
      obtain ⟨⟨th, ht⟩, -⟩ := h.sent x tr t hx hsender
      simp only [thread_eq_ok.mpr ht, ok_bind]
      split
      · have hself : (s.setThread t th.shiftError).threads t = some th.shiftError := update_self ..
        have hshift : Sound (s.setThread t th.shiftError) L := h.setThread ht th.shiftError_stack
        refine (binderPopTransaction_ends hself hx).bind ?_
        rintro _ ⟨htop, -, rfl⟩
        have hpopped := hshift.popOutgoing (hd.setThread ht) hself htop hx hsender
        have hself' : (((s.setThread t th.shiftError).setThread t { th.shiftError with
          transactionStack := tr.fromParent }).kfree x).threads t = some _ := update_self ..
        simp only [thread_eq_ok.mpr hself', ok_bind]
        exact ⟨⟨_, hpopped.setThread hself' rfl⟩, rfl⟩
      · exact ⟨⟨L, h⟩, rfl⟩
    next hsender =>
      have hfreed := h.freeOrphan hd hx hsender
      simp only [binderPopTransaction, ok_bind]
      split
      · exact ⟨⟨L, hfreed⟩, rfl⟩
      next p hp =>
        obtain ⟨hd', tr', hp'⟩ := h.done_parent hx hsender hp
        have hlt := (h.parent x tr p hx hp).1
        exact ih hfreed hd' hp' (by omega)

end Replies

end SpicaKernel.Stacks
