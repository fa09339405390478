import SpicaKernel.PosixLockRuns

namespace SpicaKernel.PosixLocks
open List Option
set_option autoImplicit true

def Stays (w : List Nat) (l : List FileLock) (w' : List Nat) (l' : List FileLock) : Prop :=
  (∀ i ∈ w, i ∈ w') ∧ ∀ a ∈ l, a.id ∈ w' ∨ ∃ b ∈ l', b.id = a.id ∧ b.owner = a.owner

theorem Stays.refl (w : List Nat) (l : List FileLock) : Stays w l w l :=
  ⟨fun _ h => h, fun a ha => .inr ⟨a, ha, rfl, rfl⟩⟩

theorem Stays.trans (h : Stays w l w' l') (h' : Stays w' l' w'' l'') : Stays w l w'' l'' := by
  refine ⟨fun i hi => h'.1 i (h.1 i hi), fun a ha => ?_⟩
  rcases h.2 a ha with hi | ⟨b, hb, hid, ho⟩
  · exact .inl (h'.1 _ hi)
  · rcases h'.2 b hb with hi | ⟨b', hb', hid', ho'⟩
    · exact .inl (hid ▸ hi)
    · exact .inr ⟨b', hb', hid'.trans hid, ho'.trans ho⟩

theorem Stays.append (h : Stays w l w' l') (h' : Stays w m w' m') :
    Stays w (l ++ m) w' (l' ++ m') := by
  refine ⟨h.1, fun a ha => ?_⟩
  rcases mem_append.mp ha with ha | ha
  · exact (h.2 a ha).imp_right fun ⟨b, hb, he⟩ => ⟨b, mem_append_left _ hb, he⟩
  · exact (h'.2 a ha).imp_right fun ⟨b, hb, he⟩ => ⟨b, mem_append_right _ hb, he⟩

theorem Stays.map (hw : ∀ i ∈ w, i ∈ w') (f : FileLock → FileLock)
    (hf : ∀ a, (f a).id = a.id ∧ (f a).owner = a.owner) : Stays w l w' (l.map f) :=
  ⟨hw, fun a ha => .inr ⟨f a, List.mem_map_of_mem ha, hf a⟩⟩

theorem Stays.gone (h : Stays w l w' l') (ha : a.id ∈ w') : Stays w (l ++ [a]) w' l' := by
  refine ⟨h.1, fun b hb => ?_⟩
  rcases mem_append.mp hb with hb | hb
  · exact h.2 b hb
  · exact .inl (mem_singleton.mp hb ▸ ha)

theorem Stays.single (hw : ∀ i ∈ w, i ∈ w') (hid : b.id = a.id) (ho : b.owner = a.owner) :
    Stays w [a] w' [b] :=
  ⟨hw, fun a' ha => by rw [mem_singleton.mp ha]; exact .inr ⟨b, by simp, hid, ho⟩⟩

theorem Stays.rest (hw : ∀ i ∈ w, i ∈ w') (l : List FileLock) : Stays w l w' l :=
  ⟨hw, fun a ha => .inr ⟨a, ha, rfl, rfl⟩⟩

theorem widen_stays (c : Cursor) (hw : ∀ i ∈ c.woken, i ∈ w') :
    Stays c.woken c.passed w' (c.widen s e).passed :=
  .map hw _ fun a => by split <;> exact ⟨rfl, rfl⟩

def Round.Leaves (c : Cursor) (fl : FileLock) : Round → Prop
  | .pass c' fl' => Stays c.woken (c.passed ++ [fl]) c'.woken (c'.passed ++ [fl'])
  | .drop c' => Stays c.woken (c.passed ++ [fl]) c'.woken c'.passed
  | .leave c' _ => c'.woken = c.woken ∧ c'.passed = c.passed

theorem sameType_leaves (c : Cursor) (fl : FileLock) : (sameType c fl).Leaves c fl := by
  unfold sameType
  split
  · exact Stays.refl _ _
  split
  · exact ⟨rfl, rfl⟩
  dsimp only
  split
  · exact (widen_stays c fun i hi => mem_append_left _ hi).gone (by simp)
  · exact (widen_stays c fun _ hi => hi).append (.single (fun _ hi => hi) rfl rfl)

theorem otherType_leaves (c : Cursor) (fl : FileLock) : (otherType c fl).Leaves c fl := by
  unfold otherType
  split
  · exact Stays.refl _ _
  split
  · exact ⟨rfl, rfl⟩
  dsimp only
  generalize hc₁ : (if c.request.type = .unlck then { c with added := true } else c) = c₁
  have hmark₁ : c₁.passed = c.passed ∧ c₁.woken = c.woken := by
    subst hc₁
    split <;> exact ⟨rfl, rfl⟩
  generalize hc₂ : (if fl.start < c₁.request.start then { c₁ with left := some fl.id } else c₁) = c₂
  have hmark₂ : c₂.passed = c.passed ∧ c₂.woken = c.woken := by
    subst hc₂
    split <;> exact hmark₁
  obtain ⟨hp, hw⟩ := hmark₂
  have hin : ∀ i ∈ c.woken, i ∈ c₂.woken ++ [fl.id] := fun i hi => by simp [hw, hi]
  split
  · exact ⟨hw, hp⟩
  split
  · split
    · simp only [hp]
      exact (Stays.rest hin c.passed).gone (by simp)
    · simp only [hp]
      exact (Stays.rest hin c.passed).append (.single hin rfl rfl)
  · simp only [Round.Leaves, hp, hw]
    exact Stays.refl _ _

theorem visit_leaves (c : Cursor) (fl : FileLock) : (visit c fl).Leaves c fl := by
  unfold visit
  split
  · exact sameType_leaves c fl
  · exact otherType_leaves c fl

theorem walk_leaves (hw : walk c rest = (c', rest', right)) :
    Stays c.woken (c.passed ++ rest) c'.woken (c'.passed ++ rest') := by
  induction rest generalizing c with
  | nil =>
    obtain ⟨rfl, rfl, -⟩ := hw
    exact .refl _ _
  | cons fl rest ih =>
    simp only [walk] at hw
    split at hw
    next =>
      have hvisit := visit_leaves c fl
      rw [append_cons]
      cases hv : visit c fl with
      | pass c₁ fl₁ =>
        rw [hv] at hw hvisit
        exact (hvisit.append (.rest hvisit.1 rest)).trans (ih hw)
      | drop c₁ =>
        rw [hv] at hw hvisit
        exact (hvisit.append (.rest hvisit.1 rest)).trans (ih hw)
      | leave c₁ right₁ =>
        rw [hv] at hw hvisit
        obtain ⟨rfl, rfl, -⟩ := hw
        rw [hvisit.1, hvisit.2, List.append_assoc]
        exact .refl _ _
    next =>
      obtain ⟨rfl, rfl, -⟩ := hw
      exact .refl _ _

theorem trimLeft_stays (hw : ∀ i ∈ w, i ∈ w') : Stays w l w' (trimLeft left s l) :=
  .map hw _ fun a => by split <;> exact ⟨rfl, rfl⟩

theorem finish_leaves (flags : Flags) (newFl newFl2 : Option Nat) (c : Cursor)
    (rest : List FileLock) (right : Bool) :
    Stays c.woken (c.passed ++ rest) (finish flags newFl newFl2 c rest right).woken
      (finish flags newFl newFl2 c rest right).locks := by
  simp only [finish]
  split
  · exact .refl _ _
  split
  · exact .refl _ _
  split
  · exact .refl _ _
  -- what is inserted comes on top, and only the ends of a lock are moved
  split
  next r rest =>
    refine Stays.trans ⟨fun i hi => by simp [hi], fun a ha => ?_⟩ (trimLeft_stays fun _ hi => hi)
    rcases mem_append.mp ha with ha | ha
    · exact .inr ⟨a, by simp [ha], rfl, rfl⟩
    · rcases mem_cons.mp ha with rfl | ha
      · exact .inl (by simp)
      · exact .inr ⟨a, by simp [ha], rfl, rfl⟩
  next =>
    refine Stays.trans ⟨fun i hi => by simp [hi], fun a ha => ?_⟩ (trimLeft_stays fun _ hi => hi)
    rcases mem_append.mp ha with ha | ha
    · exact .inr ⟨a, by simp [ha], rfl, rfl⟩
    · exact .inr ⟨a, by simp [ha], rfl, rfl⟩

theorem Call.run_leaves (q : Call) (locks : List FileLock) :
    Stays [] locks (q.run locks).woken (q.run locks).locks := by
  simp only [Call.run, posixLockFile]
  split
  · split
    · exact .refl _ _
    split
    · exact .refl _ _
    · exact .refl _ _
  split
  · exact .refl _ _
  generalize hskip : (fun fl : FileLock => !fl.posix || !posixSameOwner q.request fl) = skip
  generalize hw : walk ⟨[], q.request, false, none, []⟩ (locks.dropWhile skip) = r
  have hwalk := walk_leaves (c := ⟨[], q.request, false, none, []⟩) hw
  have hfin := fun newFl newFl2 =>
    hwalk.trans (finish_leaves q.flags newFl newFl2 r.1 r.2.1 r.2.2)
  have h := fun newFl newFl2 =>
    (Stays.rest (hfin newFl newFl2).1 (locks.takeWhile skip)).append (hfin newFl newFl2)
  simp only [nil_append, takeWhile_append_dropWhile] at h
  exact h _ _

/-- A request on `blocked_list`; `next` is the lock of its inode that `fl_next` points to. -/
structure Waiter where
  request : FileLock
  inode : Nat
  next : Nat
  deriving DecidableEq

structure System where
  inodes : List (List FileLock)
  blocked : List Waiter
  deriving DecidableEq

def System.locks (s : System) (i : Nat) : List FileLock := (s.inodes[i]?).getD []

/-- The lock that a waiter's `fl_next` points to. -/
def System.blocker (s : System) (w : Waiter) : Option FileLock :=
  (s.locks w.inode).find? fun l => l.id == w.next

def whatOwnerIsWaitingFor (s : System) (block : FileLock) : Option FileLock :=
  (s.blocked.find? fun w => posixSameOwner w.request block).bind s.blocker

def MAX_DEADLK_ITERATIONS : Nat := 10

/-- The `while` loop of `posix_locks_deadlock` with as many comparisons left. -/
def deadlockLoop (s : System) (caller : FileLock) : Nat → FileLock → Bool
  | n, block =>
    match whatOwnerIsWaitingFor s block with
    | none => false
    | some block =>
      match n with
      | 0 => false
      | n + 1 => if posixSameOwner caller block then true else deadlockLoop s caller n block

/-- `posix_locks_deadlock`, which gives up when `i++` is above the limit. -/
def posixLocksDeadlock (s : System) (caller block : FileLock) : Bool :=
  deadlockLoop s caller (MAX_DEADLK_ITERATIONS + 1) block

/-- A call on one of the inodes, or a waiter that stops waiting (`locks_delete_block`). -/
inductive Event where
  | call (inode : Nat) (q : Call)
  | giveUp (waiter : Nat)

/-- The call with the answer of `posix_locks_deadlock` in this state. -/
def Call.within (q : Call) (s : System) : Call :=
  { q with deadlock := posixLocksDeadlock s q.request }

/-- The waiters that are left when the waiters of these locks of an inode are woken. -/
def wakeUpBlocks (i : Nat) (woken : List Nat) (blocked : List Waiter) : List Waiter :=
  blocked.filter fun w => !(w.inode == i && woken.contains w.next)

def System.step (s : System) : Event → Option System
  | .call i q =>
    let o := (q.within s).run (s.locks i)
    let blocked := wakeUpBlocks i o.woken s.blocked
    some {
      inodes := s.inodes.set i o.locks
      blocked :=
        match o.answer with
        | .deferred b => ⟨q.request, i, b⟩ :: blocked
        | _ => blocked }
  | .giveUp id => some { s with blocked := s.blocked.filter fun w => w.request.id != id }

/-- An owner that is blocked does not make another request that could block. -/
def System.Allowed (s : System) : Event → Prop
  | .call i q => i < s.inodes.length ∧ q.Allowed (s.locks i) ∧
    (q.flags.sleep = true → ∀ w ∈ s.blocked, w.request.owner ≠ q.request.owner)
  | .giveUp _ => True

def System.Waits (s : System) (o o' : Nat) : Prop :=
  ∃ w ∈ s.blocked, w.request.owner = o ∧ ∃ l ∈ s.blocker w, l.owner = o'

theorem System.locks_set (s : System) (hi : i < s.inodes.length) :
    System.locks ⟨s.inodes.set i l, b⟩ j = if j = i then l else s.locks j := by
  unfold System.locks
  split
  next h =>
    subst h
    simp [hi]
  next h => rw [getElem?_set_ne (Ne.symm h)]

theorem System.blocker_mem {s : System} (h : s.blocker w = some l) :
    l ∈ s.locks w.inode ∧ l.id = w.next :=
  ⟨mem_of_find?_eq_some h, by simpa using find?_some h⟩

theorem System.blocker_eq {s : System} (h : Filed (s.locks w.inode)) (hl : l ∈ s.locks w.inode)
    (hid : l.id = w.next) : s.blocker w = some l := by
  cases hf : s.blocker w with
  | none => exact absurd hid (by simpa using find?_eq_none.mp hf l hl)
  | some l' =>
    obtain ⟨hl', hid'⟩ := System.blocker_mem hf
    rw [inj_on_of_nodup_map h.ids hl' hl (hid'.trans hid.symm)]

structure Linked (s : System) : Prop where
  filed : ∀ i, Filed (s.locks i)
  owners : (s.blocked.map fun w => w.request.owner).Nodup
  next : ∀ w ∈ s.blocked, ∃ l ∈ s.locks w.inode, l.id = w.next

theorem Linked.start (h : ∀ l ∈ inodes, Filed l) : Linked ⟨inodes, []⟩ := by
  refine ⟨fun i => ?_, by simp, nofun⟩
  cases hi : inodes[i]? with
  | none => simpa [System.locks, hi] using Filed.start (by simp) (by simp)
  | some l => simpa [System.locks, hi] using h l (mem_of_getElem? hi)

theorem Linked.less (h : Linked s) (hsub : s'.blocked.Sublist s.blocked)
    (hfiled : ∀ i, Filed (s'.locks i))
    (hstays : ∀ w ∈ s'.blocked, ∀ l ∈ s.locks w.inode, l.id = w.next →
      ∃ l' ∈ s'.locks w.inode, l'.id = l.id ∧ l'.owner = l.owner) :
    Linked s' ∧ ∀ x y, s'.Waits x y → s.Waits x y := by
  refine ⟨⟨hfiled, h.owners.sublist (hsub.map _), fun w hw => ?_⟩, ?_⟩
  · obtain ⟨l, hl, hid⟩ := h.next w (hsub.subset hw)
    obtain ⟨l', hl', hid', -⟩ := hstays w hw l hl hid
    exact ⟨l', hl', hid'.trans hid⟩
  · rintro x y ⟨w, hw, rfl, b, hb, rfl⟩
    obtain ⟨l, hl, hid⟩ := h.next w (hsub.subset hw)
    obtain ⟨l', hl', hid', ho⟩ := hstays w hw l hl hid
    have hb' := System.blocker_eq (hfiled w.inode) hl' (hid'.trans hid)
    obtain rfl := some.inj (hb'.symm.trans (mem_def.mp hb))
    exact ⟨w, hsub.subset hw, rfl, l, System.blocker_eq (h.filed w.inode) hl hid, ho.symm⟩

theorem Linked.called {q : Call} (h : Linked s) (hi : i < s.inodes.length)
    (hq : q.Allowed (s.locks i))
    (hs' : s' = ⟨s.inodes.set i (q.run (s.locks i)).locks,
      wakeUpBlocks i (q.run (s.locks i)).woken s.blocked⟩) :
    Linked s' ∧ ∀ x y, s'.Waits x y → s.Waits x y := by
  subst hs'
  refine h.less filter_sublist (fun j => ?_) (fun w hw l hl hid => ?_)
  · rw [s.locks_set hi]
    split
    · exact (h.filed i).step hq
    · exact h.filed j
  · rw [s.locks_set hi]
    split
    next hwi =>
      rw [hwi] at hl
      rcases (q.run_leaves (s.locks i)).2 l hl with hin | hstays
      · have hkept := (mem_filter.mp hw).2
        simp [hwi, ← hid, hin] at hkept
      · exact hstays
    next => exact ⟨l, hl, rfl, rfl⟩

/-- The lock reached by so many steps to the lock that its owner is waiting for. -/
def hops (s : System) : Nat → FileLock → Option FileLock
  | 0, block => some block
  | n + 1, block => (whatOwnerIsWaitingFor s block).bind (hops s n)

theorem Linked.waiting_for (h : Linked s) (hw : s.Waits block.owner y) :
    ∃ l, whatOwnerIsWaitingFor s block = some l ∧ l.owner = y := by
  obtain ⟨w, hw, ho, l, hl, rfl⟩ := hw
  refine ⟨l, ?_, rfl⟩
  unfold whatOwnerIsWaitingFor
  cases hf : s.blocked.find? fun w => posixSameOwner w.request block with
  | none => exact absurd ho (by simpa [posixSameOwner] using find?_eq_none.mp hf w hw)
  | some w' =>
    have ho' : w'.request.owner = block.owner := by
      simpa [posixSameOwner] using find?_some hf
    have hw' := mem_of_find?_eq_some hf
    obtain rfl := inj_on_of_nodup_map h.owners hw' hw (ho'.trans ho.symm)
    exact hl

theorem Linked.path_hops (h : Linked s) (hp : Relation.ReflTransGen s.Waits x y)
    (hx : block.owner = x) : ∃ n l, hops s n block = some l ∧ l.owner = y := by
  induction hp using Relation.ReflTransGen.head_induction_on generalizing block with
  | refl => exact ⟨0, block, rfl, hx⟩
  | head hxz hzy ih =>
    subst hx
    obtain ⟨l, hl, ho⟩ := h.waiting_for hxz
    obtain ⟨n, l', hn, ho'⟩ := ih ho
    exact ⟨n + 1, l', by simp [hops, hl, hn], ho'⟩

theorem hops_none (hn : hops s n block = none) (hle : n ≤ m) : hops s m block = none := by
  induction n generalizing m block with
  | zero => cases hn
  | succ n ih =>
    obtain ⟨m, rfl⟩ : ∃ k, m = k + 1 := ⟨m - 1, by omega⟩
    simp only [hops] at hn ⊢
    cases hw : whatOwnerIsWaitingFor s block with
    | none => rfl
    | some l =>
      rw [hw] at hn
      exact ih hn (by omega)

theorem deadlockLoop_false (hd : deadlockLoop s caller n block = false) (hk : k < n)
    (hl : hops s (k + 1) block = some l) : l.owner ≠ caller.owner := by
  induction n generalizing block k with
  | zero => omega
  | succ n ih =>
    simp only [hops] at hl
    rw [deadlockLoop] at hd
    cases hw : whatOwnerIsWaitingFor s block with
    | none => simp [hw] at hl
    | some b =>
      simp only [hw] at hd hl
      cases hs : posixSameOwner caller b with
      | true => simp [hs] at hd
      | false =>
        rw [hs] at hd
        cases k with
        | zero =>
          obtain rfl := some.inj hl
          intro ho
          simp [posixSameOwner, ho] at hs
        | succ k => exact ih hd (by omega) hl

theorem transGen_of_insert (h : ∀ x y, R' x y → R x y ∨ x = a ∧ y = b)
    (hp : Relation.TransGen R' x y) : Relation.TransGen R x y ∨
      Relation.ReflTransGen R x a ∧ Relation.ReflTransGen R b y := by
  induction hp with
  | single hxy =>
    rcases h _ _ hxy with hxy | ⟨rfl, rfl⟩
    · exact .inl (.single hxy)
    · exact .inr ⟨.refl, .refl⟩
  | tail _ hyz ih =>
    rcases h _ _ hyz with hyz | ⟨rfl, rfl⟩
    · exact ih.imp (·.tail hyz) fun hp => ⟨hp.1, hp.2.tail hyz⟩
    · exact .inr ⟨ih.elim (·.to_reflTransGen) And.left, .refl⟩

/-- From the lock to be waited for, the chain is no longer than `posix_locks_deadlock` follows. -/
def System.ShortChain (s : System) : Event → Prop
  | .call i q => q.flags.sleep = true → ∀ fl ∈ q.conflicting (s.locks i),
    hops s (MAX_DEADLK_ITERATIONS + 2) fl = none
  | .giveUp _ => True

theorem Linked.no_path (h : Linked s) (hne : fl.owner ≠ caller.owner)
    (hd : posixLocksDeadlock s caller fl = false)
    (hshort : hops s (MAX_DEADLK_ITERATIONS + 2) fl = none) :
    ¬ Relation.ReflTransGen s.Waits fl.owner caller.owner := by
  intro hp
  obtain ⟨n, l, hn, ho⟩ := h.path_hops hp rfl
  have hlt : n < MAX_DEADLK_ITERATIONS + 2 := Nat.lt_of_not_le fun hle => by
    rw [hops_none hshort hle] at hn
    cases hn
  cases n with
  | zero =>
    obtain rfl := some.inj hn
    exact hne ho
  | succ n => exact deadlockLoop_false hd (by omega) hn ho

theorem finish_not_deferred : (finish flags newFl newFl2 c rest right).answer ≠ .deferred b := by
  simp only [finish]
  split
  · nofun
  split
  · split <;> nofun
  split
  · nofun
  split <;> nofun

theorem Call.run_deferred {q : Call} (h : (q.run locks).answer = .deferred b) :
    ∃ fl ∈ locks, q.conflicting locks = some fl ∧ fl.id = b ∧ fl.owner ≠ q.request.owner ∧
      q.flags.sleep = true ∧ q.deadlock fl = false ∧ q.run locks = ⟨.deferred b, locks, []⟩ := by
  cases hc : q.conflicting locks with
  | none =>
    simp only [Call.conflicting] at hc
    simp only [Call.run, posixLockFile, hc] at h
    split at h
    · cases h
    · exact absurd h finish_not_deferred
  | some fl =>
    have hfound : fl ∈ locks ∧ fl.owner ≠ q.request.owner := by
      simp only [Call.conflicting] at hc
      split at hc
      · cases hc
      · have hconf := find?_some hc
        simp only [posixLocksConflict, posixSameOwner] at hconf
        exact ⟨mem_of_find?_eq_some hc, fun ho => by simp [ho] at hconf⟩
    refine ⟨fl, hfound.1, rfl, ?_⟩
    simp only [Call.conflicting] at hc
    simp only [Call.run, posixLockFile, hc] at h ⊢
    cases hs : q.flags.sleep with
    | false => simp [hs] at h
    | true =>
      cases hd : q.deadlock fl with
      | true => simp [hs, hd] at h
      | false =>
        simp only [hs, hd, Bool.not_true, Bool.false_eq_true, if_false] at h ⊢
        exact ⟨Answer.deferred.inj h, hfound.2, trivial, trivial, by rw [h]⟩

theorem Linked.blocks (h : Linked s) (hown : ∀ w ∈ s.blocked, w.request.owner ≠ r.owner)
    (hl : fl ∈ s.locks i) (hs' : s' = ⟨s.inodes, ⟨r, i, fl.id⟩ :: s.blocked⟩) :
    Linked s' ∧ ∀ x y, s'.Waits x y → s.Waits x y ∨ x = r.owner ∧ y = fl.owner := by
  subst hs'
  refine ⟨⟨h.filed, ?_, fun w hw => ?_⟩, ?_⟩
  · refine nodup_cons.mpr ⟨fun hin => ?_, h.owners⟩
    obtain ⟨w, hw, ho⟩ := List.mem_map.mp hin
    exact hown w hw ho
  · rcases mem_cons.mp hw with rfl | hw
    · exact ⟨fl, hl, rfl⟩
    · exact h.next w hw
  · rintro x y ⟨w, hw, rfl, b, hb, rfl⟩
    rcases mem_cons.mp hw with rfl | hw
    · have hfl : s.blocker ⟨r, i, fl.id⟩ = some fl := System.blocker_eq (h.filed i) hl rfl
      exact .inr ⟨rfl, congrArg FileLock.owner (some.inj (hb.symm.trans hfl))⟩
    · exact .inl ⟨w, hw, rfl, b, hb, rfl⟩

structure Live (s : System) : Prop extends Linked s where
  acyclic : ∀ o, ¬ Relation.TransGen s.Waits o o

theorem Live.less (h : Live s) (hs' : Linked s' ∧ ∀ x y, s'.Waits x y → s.Waits x y) : Live s' :=
  ⟨hs'.1, fun o hp => h.acyclic o (Relation.TransGen.mono hs'.2 o o hp)⟩

theorem Live.step (h : Live s) (hok : s.Allowed e ∧ s.ShortChain e) (he : s.step e = some s') :
    Live s' := by
  cases e with
  | giveUp id =>
    obtain rfl := some.inj he
    exact h.less (h.toLinked.less filter_sublist h.filed fun _ _ l hl _ => ⟨l, hl, rfl, rfl⟩)
  | call i q =>
    obtain ⟨⟨hi, hq, hsleep⟩, hshort⟩ := hok
    have hq' : (q.within s).Allowed (s.locks i) := ⟨hq.posix, hq.ranged, hq.outside, hq.distinct⟩
    have hcalled := h.toLinked.called hi hq' rfl
    obtain rfl := some.inj he
    cases ha : ((q.within s).run (s.locks i)).answer with
    | ok => exact h.less hcalled
    | error e => exact h.less hcalled
    | deferred b =>
      obtain ⟨fl, hl, hc, rfl, hne, hs, hd, hrun⟩ := Call.run_deferred ha
      rw [hrun] at hcalled ⊢
      have hl' : fl ∈ System.locks ⟨s.inodes.set i (s.locks i), wakeUpBlocks i [] s.blocked⟩ i := by
        rw [s.locks_set hi, if_pos rfl]
        exact hl
      have hblocks := hcalled.1.blocks (r := q.request)
        (fun w hw => hsleep hs w (filter_sublist.subset hw)) hl' rfl
      refine ⟨hblocks.1, fun o hp => ?_⟩
      have hedge : ∀ x y, System.Waits _ x y → s.Waits x y ∨ x = q.request.owner ∧ y = fl.owner :=
        fun x y hxy => (hblocks.2 x y hxy).imp_left (hcalled.2 x y)
      rcases transGen_of_insert hedge hp with hp | ⟨hp, hp'⟩
      · exact h.acyclic o hp
      · exact h.no_path hne hd (hshort hs fl hc) (hp'.trans hp)

theorem posix_locks_no_deadlock {inodes : List (List FileLock)}
    (hothers : ∀ l ∈ inodes, (∀ a ∈ l, a.posix = false) ∧ (l.map (·.id)).Nodup)
    (hrun : Run (fun s e => s.Allowed e ∧ s.ShortChain e) System.step ⟨inodes, []⟩ es s) (o : Nat) :
    ¬ Relation.TransGen s.Waits o o := by
  have hstart : Live ⟨inodes, []⟩ := by
    refine ⟨.start fun l hl => .start (hothers l hl).1 (hothers l hl).2, fun o hp => ?_⟩
    obtain ⟨y, ⟨w, hw, -⟩, -⟩ := Relation.TransGen.head'_iff.mp hp
    cases hw
  exact (hrun.invariant (fun {_ _ _} (h : Live _) hok he => h.step hok he) hstart).acyclic o

def ringLock (owner : Nat) : FileLock := ⟨⟨owner, owner, .wrlck⟩, owner, owner, true⟩

def ringRequest (owner byte : Nat) : FileLock :=
  ⟨⟨byte, byte, .wrlck⟩, 100 + owner, owner, true⟩

def ringEvent (n k : Nat) : Event :=
  if k < n then .call 0 ⟨⟨false, false, false⟩, ringRequest k k, some k, some 99, fun _ => false⟩
  else .call 0 ⟨⟨false, true, false⟩, ringRequest (k - n) ((k - n + 1) % n), some 98, some 99,
    fun _ => false⟩

def ringState (n k : Nat) : System :=
  ⟨[(List.range (min k n)).map ringLock],
    ((List.range (k - n)).map fun o => ⟨ringRequest o ((o + 1) % n), 0, (o + 1) % n⟩).reverse⟩

instance (locks : List FileLock) (q : Call) : Decidable (q.Allowed locks) :=
  decidable_of_iff (q.request.posix = true ∧ (0 ≤ q.request.start ∧ q.request.start ≤ q.request.stop
      ∧ q.request.stop ≤ OFFSET_MAX) ∧ (∀ l ∈ locks, l.id ≠ q.request.id ∧ l.id ∉ q.spares) ∧
      q.spares.Nodup)
    ⟨fun h => ⟨h.1, ⟨h.2.1.1, h.2.1.2.1, h.2.1.2.2⟩, h.2.2.1, h.2.2.2⟩,
      fun h => ⟨h.posix, ⟨h.ranged.nonneg, h.ranged.filled, h.ranged.bounded⟩, h.outside,
        h.distinct⟩⟩

instance (s : System) : (e : Event) → Decidable (s.Allowed e)
  | .call _ _ => inferInstanceAs (Decidable (_ ∧ _ ∧ (_ → _)))
  | .giveUp _ => inferInstanceAs (Decidable True)

instance (s : System) : (e : Event) → Decidable (s.ShortChain e)
  | .call _ _ => inferInstanceAs (Decidable (_ → ∀ fl ∈ _, _))
  | .giveUp _ => inferInstanceAs (Decidable True)

theorem posix_locks_no_deadlock_pair : ¬ Relation.TransGen (ringState 2 3).Waits 0 0 := by
  have hstep : ∀ k < 3, ((ringState 2 k).Allowed (ringEvent 2 k) ∧
      (ringState 2 k).ShortChain (ringEvent 2 k)) ∧
      (ringState 2 k).step (ringEvent 2 k) = some (ringState 2 (k + 1)) := by
    decide +kernel
  exact posix_locks_no_deadlock (by simp) (Run.of_stages (ringState 2) (ringEvent 2) hstep) 0

theorem ring_step : ∀ k < 26, (ringState 13 k).Allowed (ringEvent 13 k) ∧
    (ringState 13 k).step (ringEvent 13 k) = some (ringState 13 (k + 1)) := by
  decide +kernel

theorem ring_waits : ∀ k < 13, (ringState 13 26).Waits k ((k + 1) % 13) := by
  have h : ∀ k < 13, ⟨ringRequest k ((k + 1) % 13), 0, (k + 1) % 13⟩ ∈ (ringState 13 26).blocked ∧
      (ringState 13 26).blocker ⟨ringRequest k ((k + 1) % 13), 0, (k + 1) % 13⟩ =
        some (ringLock ((k + 1) % 13)) := by
    decide +kernel
  exact fun k hk => ⟨_, (h k hk).1, rfl, _, (h k hk).2, rfl⟩

/-- Thirteen owners: the request that closes the ring is one lock too far for the search. -/
theorem posix_locks_deadlock_ring : ∃ es s,
    Run (fun s e => s.Allowed e) System.step ⟨[[]], []⟩ es s ∧ Relation.TransGen s.Waits 0 0 := by
  refine ⟨_, ringState 13 26, Run.of_stages (ringState 13) (ringEvent 13) ring_step, ?_⟩
  have hpath : ∀ k < 12, Relation.TransGen (ringState 13 26).Waits 0 (k + 1) := by
    intro k hk
    induction k with
    | zero => exact .single (ring_waits 0 (by omega))
    | succ k ih =>
      have hedge := ring_waits (k + 1) (by omega)
      rw [Nat.mod_eq_of_lt (by omega)] at hedge
      exact (ih (by omega)).tail hedge
  exact (hpath 11 (by omega)).tail (ring_waits 12 (by omega))

end SpicaKernel.PosixLocks
