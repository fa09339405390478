import Mathlib.Algebra.Group.Int.Defs
import Mathlib.Data.List.Nodup
import SpicaKernel.Runs

namespace SpicaKernel.WakeLocks
open Function
set_option autoImplicit true

def wakeLockSuspend : Nat := 0

def wakeLockTypeCount : Nat := 2

/-- `struct wake_lock` with its flags: the type bits and one truth value for each of the others. -/
structure WakeLock where
  type : Nat
  initialized : Bool
  active : Bool
  autoExpire : Bool
  expires : BitVec 32

/-- `expireTimer` is the expiry of the timer while it is pending, and `workQueued` counts the calls
of `queue_work` for `suspend_work`. -/
structure State where
  locks : Nat → WakeLock
  inactiveLocks : List Nat
  activeWakeLocks : Nat → List Nat
  jiffies : BitVec 32
  expireTimer : Option (BitVec 32)
  workQueued : Nat

/-- `time_after_eq` of the kernel, by the sign of the difference. -/
def timeAfterEq (a b : BitVec 32) : Bool := 0 ≤ (a - b).toInt

namespace State

def setLock (s : State) (a : Nat) (lock : WakeLock) : State :=
  { s with locks := update s.locks a lock }

def linked (s : State) (a : Nat) : Bool :=
  a ∈ s.inactiveLocks ∨ ∃ t < wakeLockTypeCount, a ∈ s.activeWakeLocks t

def listDel (s : State) (a : Nat) : State :=
  { s with
    inactiveLocks := s.inactiveLocks.erase a
    activeWakeLocks := fun t => (s.activeWakeLocks t).erase a }

def addInactive (s : State) (a : Nat) : State :=
  { s with inactiveLocks := a :: s.inactiveLocks }

def addActive (s : State) (t a : Nat) : State :=
  { s with activeWakeLocks :=
      update s.activeWakeLocks t (a :: s.activeWakeLocks t) }

def addActiveTail (s : State) (t a : Nat) : State :=
  { s with activeWakeLocks :=
      update s.activeWakeLocks t (s.activeWakeLocks t ++ [a]) }

def timeout (s : State) (a : Nat) : Int := ((s.locks a).expires - s.jiffies).toInt

def queueWork (s : State) : State := { s with workQueued := s.workQueued + 1 }

end State

def WakeLock.deactivate (lock : WakeLock) : WakeLock :=
  { lock with active := false, autoExpire := false }

def expireWakeLock (s : State) (a : Nat) : State :=
  ((s.setLock a (s.locks a).deactivate).listDel a).addInactive a

/-- The loop of `has_wake_lock_locked` over the locks still to be seen. -/
def scan : List Nat → State → Int → State × Int
  | [], s, maxTimeout => (s, maxTimeout)
  | a :: rest, s, maxTimeout =>
    if (s.locks a).autoExpire then
      if s.timeout a ≤ 0 then scan rest (expireWakeLock s a) maxTimeout
      else scan rest s (max maxTimeout (s.timeout a))
    else (s, -1)

def hasWakeLockLocked (s : State) (type : Nat) : State × Int :=
  scan (s.activeWakeLocks type) s 0

/-- `has_wake_lock`; without a result where the kernel stops, here at a `BUG_ON`. -/
def hasWakeLock (s : State) (type : Nat) : Option (State × Int) :=
  if wakeLockTypeCount ≤ type then none else some (hasWakeLockLocked s type)

/-- The handler of `expire_timer`, which is no longer pending when it runs. -/
def expireWakeLocks (s : State) : State :=
  let (s, hasLock) := hasWakeLockLocked { s with expireTimer := none } wakeLockSuspend
  if hasLock = 0 then s.queueWork else s

/-- A lock that is still linked would be put on a second list, which destroys both lists. -/
def wakeLockInit (s : State) (a type : Nat) : Option State :=
  if s.linked a then none
  else
    let lock := ⟨type % 16, true, false, false, (s.locks a).expires⟩
    some ((s.setLock a lock).addInactive a)

/-- The last lines of `wake_lock_internal` and of `wake_unlock`, for a SUSPEND lock. -/
def startExpireTimer (s : State) (expireIn : Int) : State :=
  if 0 < expireIn then { s with expireTimer := some (s.jiffies + BitVec.ofInt 32 expireIn) }
  else
    let s := { s with expireTimer := none }
    if expireIn = 0 then s.queueWork else s

def longMax : BitVec 32 := 0x7fffffff

/-- A lock that is on no list has no links for `list_del` to follow. -/
def wakeLockInternal (s : State) (a : Nat) (timeout : Int) (hasTimeout : Bool) : Option State :=
  let lock := s.locks a
  let type := lock.type
  if wakeLockTypeCount ≤ type ∨ lock.initialized = false ∨ s.linked a = false then none
  else
    let s := s.listDel a
    let s := if hasTimeout
      then (s.setLock a { lock with
        active := true
        autoExpire := true
        expires := s.jiffies + BitVec.ofInt 32 timeout }).addActiveTail type a
      else (s.setLock a { lock with
        active := true
        autoExpire := false
        expires := longMax }).addActive type a
    if type = wakeLockSuspend then
      let (s, expireIn) := if hasTimeout then hasWakeLockLocked s type else (s, -1)
      some (startExpireTimer s expireIn)
    else some s

def wakeLock (s : State) (a : Nat) : Option State := wakeLockInternal s a 0 false

def wakeLockTimeout (s : State) (a : Nat) (timeout : Int) : Option State :=
  wakeLockInternal s a timeout true

def wakeUnlock (s : State) (a : Nat) : Option State :=
  let lock := s.locks a
  if s.linked a = false then none
  else
    let s := ((s.setLock a lock.deactivate).listDel a).addInactive a
    if lock.type = wakeLockSuspend then
      let (s, hasLock) := hasWakeLockLocked s lock.type
      some (startExpireTimer s hasLock)
    else some s

def wakeLockDestroy (s : State) (a : Nat) : Option State :=
  if s.linked a = false then none
  else some ((s.setLock a { s.locks a with initialized := false }).listDel a)

def mainWakeLock : Nat := 0

def unknownWakeup : Nat := 1

def State.boot (jiffies : BitVec 32) : State where
  locks := fun _ => ⟨0, false, false, false, 0⟩
  inactiveLocks := []
  activeWakeLocks := fun _ => []
  jiffies := jiffies
  expireTimer := none
  workQueued := 0

def wakelocksInit (s : State) : Option State := do
  let s ← wakeLockInit s mainWakeLock wakeLockSuspend
  let s ← wakeLock s mainWakeLock
  wakeLockInit s unknownWakeup wakeLockSuspend

inductive Op where
  | init (a type : Nat)
  | lock (a : Nat)
  | lockTimeout (a : Nat) (timeout : Int)
  | unlock (a : Nat)
  | destroy (a : Nat)
  | hasWakeLock (type : Nat)
  | tick
  | expire

/-- The timer runs its handler once `jiffies` has reached its expiry. -/
def wakeStep (s : State) : Op → Option State
  | .init a type => wakeLockInit s a type
  | .lock a => wakeLock s a
  | .lockTimeout a timeout => wakeLockTimeout s a timeout
  | .unlock a => wakeUnlock s a
  | .destroy a => wakeLockDestroy s a
  | .hasWakeLock type => (hasWakeLock s type).map Prod.fst
  | .tick => some { s with jiffies := s.jiffies + 1 }
  | .expire =>
    if s.expireTimer.any (timeAfterEq s.jiffies) then some (expireWakeLocks s) else none

open List

section

variable {s s' : State} {out : Option Nat} {a t mark : Nat} {lock : WakeLock}

/-- The locks are on the lists that their flags name, but for `out`, which is on none. -/
structure Listed (out : Option Nat) (s : State) : Prop where
  nodup : ∀ t, (s.activeWakeLocks t).Nodup
  inactive_nodup : s.inactiveLocks.Nodup
  typed : ∀ {t a}, a ∈ s.activeWakeLocks t → t < wakeLockTypeCount
  active : ∀ {t a}, a ∈ s.activeWakeLocks t ↔ out ≠ some a ∧ (s.locks a).initialized = true ∧
    (s.locks a).active = true ∧ (s.locks a).type = t
  inactive : ∀ {a}, a ∈ s.inactiveLocks ↔ out ≠ some a ∧ (s.locks a).initialized = true ∧
    (s.locks a).active = false

namespace Listed

theorem listDel (h : Listed none s) : Listed (some a) (s.listDel a) where
  nodup t := (h.nodup t).erase a
  inactive_nodup := h.inactive_nodup.erase a
  typed hb := h.typed (mem_of_mem_erase hb)
  active {t b} := by
    show b ∈ (s.activeWakeLocks t).erase a ↔ _
    rw [(h.nodup t).mem_erase_iff, h.active]
    simp [State.listDel, @eq_comm _ a b]
  inactive {b} := by
    show b ∈ s.inactiveLocks.erase a ↔ _
    rw [h.inactive_nodup.mem_erase_iff, h.inactive]
    simp [State.listDel, @eq_comm _ a b]

theorem setLock (h : Listed (some a) s) : Listed (some a) (s.setLock a lock) where
  nodup := h.nodup
  inactive_nodup := h.inactive_nodup
  typed := h.typed
  active {t b} := by
    by_cases hb : b = a
    · subst hb
      exact ⟨fun hm => absurd rfl (h.active.mp hm).1, fun hm => absurd rfl hm.1⟩
    · simpa [State.setLock, update_of_ne hb] using h.active
  inactive {b} := by
    by_cases hb : b = a
    · subst hb
      exact ⟨fun hm => absurd rfl (h.inactive.mp hm).1, fun hm => absurd rfl hm.1⟩
    · simpa [State.setLock, update_of_ne hb] using h.inactive

theorem addInactive (h : Listed (some a) s) (hi : (s.locks a).initialized = true)
    (ha : (s.locks a).active = false) : Listed none (s.addInactive a) where
  nodup := h.nodup
  inactive_nodup := nodup_cons.mpr ⟨fun hm => (h.inactive.mp hm).1 rfl, h.inactive_nodup⟩
  typed := h.typed
  active {t b} := by
    show b ∈ s.activeWakeLocks t ↔ none ≠ some b ∧ (s.locks b).initialized = true ∧
      (s.locks b).active = true ∧ _
    rw [h.active]
    by_cases hb : b = a
    · subst hb
      simp [ha]
    · simp [Ne.symm hb, State.addInactive]
  inactive {b} := by
    show b ∈ a :: s.inactiveLocks ↔ none ≠ some b ∧ (s.locks b).initialized = true ∧ _
    rw [mem_cons, h.inactive]
    by_cases hb : b = a
    · subst hb
      simp [hi, ha, State.addInactive]
    · simp [hb, Ne.symm hb, State.addInactive]

section
variable (h : Listed (some a) s) (ht : t < wakeLockTypeCount) (hi : (s.locks a).initialized = true)
    (ha : (s.locks a).active = true) (hty : (s.locks a).type = t)
include h ht hi ha hty

theorem addActive : Listed none (s.addActive t a) where
  nodup u := by
    by_cases hu : u = t
    · subst hu
      simpa [State.addActive] using ⟨fun hm => (h.active.mp hm).1 rfl, h.nodup u⟩
    · simpa [State.addActive, update_of_ne hu] using h.nodup u
  inactive_nodup := h.inactive_nodup
  typed {u b} hb := by
    by_cases hu : u = t
    · exact hu ▸ ht
    · exact h.typed (a := b) (by simpa [State.addActive, update_of_ne hu] using hb)
  active {u b} := by
    have hout := h.active (t := u) (a := b)
    by_cases hb : b = a
    · subst hb
      by_cases hu : u = t
      · subst hu
        simp [State.addActive, hi, ha, hty]
      · have hne : t ≠ u := Ne.symm hu
        simp [State.addActive, update_of_ne hu, hout, hty, hne]
    · by_cases hu : u = t
      · subst hu
        simp [State.addActive, hb, Ne.symm hb, hout]
      · simp [State.addActive, update_of_ne hu, Ne.symm hb, hout]
  inactive {b} := by
    show b ∈ s.inactiveLocks ↔ none ≠ some b ∧ (s.locks b).initialized = true ∧
      (s.locks b).active = false
    rw [h.inactive]
    by_cases hb : b = a
    · subst hb
      simp [ha]
    · simp [Ne.symm hb]

theorem addActiveTail : Listed none (s.addActiveTail t a) := by
  -- the lists differ from those of `addActive` by the place of the lock only
  have hp : ∀ u, ((s.addActiveTail t a).activeWakeLocks u).Perm
      ((s.addActive t a).activeWakeLocks u) := by
    intro u
    by_cases hu : u = t
    · subst hu
      simp [State.addActive, State.addActiveTail]
    · simp [State.addActive, State.addActiveTail, update_of_ne hu]
  have hl := h.addActive ht hi ha hty
  exact ⟨fun u => (hp u).nodup_iff.mpr (hl.nodup u), hl.inactive_nodup,
    fun hb => hl.typed ((hp _).mem_iff.mp hb), (hp _).mem_iff.trans hl.active, hl.inactive⟩

end

theorem forget (h : Listed (some a) s) (hi : (s.locks a).initialized = false) : Listed none s where
  nodup := h.nodup
  inactive_nodup := h.inactive_nodup
  typed := h.typed
  active {t b} := by
    rw [h.active]
    by_cases hb : b = a
    · subst hb
      simp [hi]
    · simp [Ne.symm hb]
  inactive {b} := by
    rw [h.inactive]
    by_cases hb : b = a
    · subst hb
      simp [hi]
    · simp [Ne.symm hb]

theorem unlinked (h : Listed none s) (ha : s.linked a = false) : Listed (some a) s := by
  have hl : s.listDel a = s := by
    simp only [State.linked, decide_eq_false_iff_not, not_or, not_exists, not_and] at ha
    have hact : ∀ t, (s.activeWakeLocks t).erase a = s.activeWakeLocks t :=
      fun t => erase_of_not_mem fun hm => ha.2 t (h.typed hm) hm
    simp [State.listDel, erase_of_not_mem ha.1, hact]
  exact hl ▸ h.listDel

theorem initialized (h : Listed none s) (ha : s.linked a = true) :
    (s.locks a).initialized = true := by
  simp only [State.linked, decide_eq_true_eq] at ha
  rcases ha with hm | ⟨t, -, hm⟩
  · exact (h.inactive.mp hm).2.1
  · exact (h.active.mp hm).2.1

theorem relist (h : Listed none s) (hi : lock.initialized = true) (ha : lock.active = false) :
    Listed none (((s.setLock a lock).listDel a).addInactive a) := by
  have hl : Listed (some a) ((s.listDel a).setLock a lock) := h.listDel.setLock
  exact hl.addInactive (by simpa [State.setLock] using hi) (by simpa [State.setLock] using ha)

end Listed

def State.live (s : State) (a : Nat) : Bool := !(s.locks a).autoExpire || 0 < s.timeout a

structure Scanned (s s' : State) : Prop where
  jiffies : s'.jiffies = s.jiffies
  timer : s'.expireTimer = s.expireTimer
  queued : s'.workQueued = s.workQueued
  kept : ∀ {t a}, a ∈ s'.activeWakeLocks t → a ∈ s.activeWakeLocks t ∧ s'.locks a = s.locks a
  held : ∀ {t a}, a ∈ s.activeWakeLocks t → s.live a = true → a ∈ s'.activeWakeLocks t

theorem Scanned.refl : Scanned s s := ⟨rfl, rfl, rfl, fun h => ⟨h, rfl⟩, fun h _ => h⟩

theorem Scanned.timeout (h : Scanned s s') (ha : a ∈ s'.activeWakeLocks t) :
    s'.timeout a = s.timeout a := by
  rw [State.timeout, State.timeout, (h.kept ha).2, h.jiffies]

theorem mem_expireWakeLock (h : Listed none s) :
    b ∈ (expireWakeLock s a).activeWakeLocks t ↔ b ≠ a ∧ b ∈ s.activeWakeLocks t :=
  (h.nodup t).mem_erase_iff

theorem expireWakeLock_locks (hb : b ≠ a) : (expireWakeLock s a).locks b = s.locks b :=
  update_of_ne hb _ _

theorem Listed.expireWakeLock (h : Listed none s) (ha : a ∈ s.activeWakeLocks t) :
    Listed none (expireWakeLock s a) :=
  h.relist (h.active.mp ha).2.1 rfl

theorem Scanned.expire (h : Listed none s) (he : s.live a = false)
    (hs : Scanned (expireWakeLock s a) s') : Scanned s s' where
  jiffies := hs.jiffies
  timer := hs.timer
  queued := hs.queued
  kept hb := by
    obtain ⟨hb, hl⟩ := hs.kept hb
    obtain ⟨hne, hb⟩ := (mem_expireWakeLock h).mp hb
    exact ⟨hb, hl.trans (expireWakeLock_locks hne)⟩
  held {t b} hb hn := by
    have hne : b ≠ a := by
      rintro rfl
      rw [he] at hn
      cases hn
    apply hs.held ((mem_expireWakeLock h).mpr ⟨hne, hb⟩)
    rw [State.live, State.timeout, expireWakeLock_locks hne]
    exact hn

theorem timeout_lt (s : State) (a : Nat) : s.timeout a < 2 ^ 31 := by
  have := BitVec.toInt_lt (x := (s.locks a).expires - s.jiffies)
  simpa [State.timeout] using this

def Reports (s : State) (t : Nat) (l : List Nat) (m r : Int) : Prop :=
  (r = -1 ∧ ∃ a ∈ l, a ∈ s.activeWakeLocks t ∧ (s.locks a).autoExpire = false) ∨
  (m ≤ r ∧ r < 2 ^ 31 ∧ (∀ a ∈ l, a ∈ s.activeWakeLocks t → 0 < s.timeout a ∧ s.timeout a ≤ r) ∧
    (r ≤ m ∨ ∃ a ∈ l, a ∈ s.activeWakeLocks t))

theorem Reports.nil (h : Reports s t l 0 0) (hl : ∀ a ∈ s.activeWakeLocks t, a ∈ l) :
    s.activeWakeLocks t = [] := by
  rcases h with ⟨h, -⟩ | ⟨-, -, hall, -⟩
  · cases h
  · apply eq_nil_iff_forall_not_mem.mpr
    intro a ha
    obtain ⟨hgt, hle⟩ := hall a (hl a ha) ha
    omega

theorem scan_spec (h : Listed none s) (hl : l.Nodup)
    (hm : ∀ a ∈ l, a ∈ s.activeWakeLocks t) (hr : m < 2 ^ 31) :
    Listed none (scan l s m).1 ∧ Scanned s (scan l s m).1 ∧
      Reports (scan l s m).1 t l m (scan l s m).2 := by
  induction l generalizing s m with
  | nil => exact ⟨h, .refl, .inr ⟨Int.le_refl m, hr, nofun, .inl (Int.le_refl m)⟩⟩
  | cons a l ih =>
    obtain ⟨hal, hl⟩ := nodup_cons.mp hl
    have ha := hm a (by simp)
    have hrest : ∀ b ∈ l, b ∈ s.activeWakeLocks t := fun b hb => hm b (by simp [hb])
    rw [scan]
    split
    next he =>
      split
      next hexp =>
        have hrest' : ∀ b ∈ l, b ∈ (expireWakeLock s a).activeWakeLocks t :=
          fun b hb => (mem_expireWakeLock h).mpr ⟨ne_of_mem_of_not_mem hb hal, hrest b hb⟩
        obtain ⟨hL, hS, hR⟩ := ih (h.expireWakeLock ha) hl hrest' hr
        refine ⟨hL, .expire h (by simp [State.live, he, hexp]) hS, ?_⟩
        rcases hR with ⟨hr, b, hb, hbn⟩ | ⟨hmr, hlt, hall, hsome⟩
        · exact .inl ⟨hr, b, by simp [hb], hbn⟩
        · refine .inr ⟨hmr, hlt, ?_, ?_⟩
          · intro b hb hbs
            rcases mem_cons.mp hb with rfl | hb
            · exact absurd rfl ((mem_expireWakeLock h).mp (hS.kept hbs).1).1
            · exact hall b hb hbs
          · exact hsome.imp_right fun ⟨b, hb, hbs⟩ => ⟨b, by simp [hb], hbs⟩
      next hpos =>
        have hlt := timeout_lt s a
        obtain ⟨hL, hS, hR⟩ := ih h hl hrest (Int.max_lt.mpr ⟨hr, hlt⟩)
        refine ⟨hL, hS, ?_⟩
        rcases hR with ⟨hr, b, hb, hbn⟩ | ⟨hmr, hlt, hall, -⟩
        · exact .inl ⟨hr, b, by simp [hb], hbn⟩
        · refine .inr ⟨Int.le_trans (Int.le_max_left _ _) hmr, hlt, ?_, ?_⟩
          · intro b hb hbs
            rcases mem_cons.mp hb with rfl | hb
            · have htime := hS.timeout hbs
              omega
            · exact hall b hb hbs
          · exact .inr ⟨a, by simp, hS.held ha (by simpa [State.live, he] using hpos)⟩
    next he =>
      exact ⟨h, .refl, .inl ⟨rfl, a, by simp, ha, by simpa using he⟩⟩

theorem hasWakeLockLocked_spec (h : Listed none s) :
    Listed none (hasWakeLockLocked s t).1 ∧ Scanned s (hasWakeLockLocked s t).1 ∧
      Reports (hasWakeLockLocked s t).1 t (s.activeWakeLocks t) 0 (hasWakeLockLocked s t).2 :=
  scan_spec h (h.nodup t) (fun _ ha => ha) (by decide)

end

open Option

variable {s s' : State} {a t m : Nat}

def NonExpiring (s : State) (a : Nat) : Prop :=
  a ∈ s.activeWakeLocks wakeLockSuspend ∧ (s.locks a).autoExpire = false

def State.unexpired (s : State) : Bool :=
  (s.activeWakeLocks wakeLockSuspend).any s.live

/-- The kernel, and the calls of `queue_work` before the last unexpired SUSPEND lock was removed. -/
structure Watched where
  state : State
  mark : Nat

def Watched.step (w : Watched) (op : Op) : Option Watched :=
  (wakeStep w.state op).map fun s =>
    ⟨s, if w.state.unexpired ∧ s.unexpired = false then w.state.workQueued else w.mark⟩

def Covers (s : State) (e : BitVec 32) : Prop :=
  ∀ a ∈ s.activeWakeLocks wakeLockSuspend, timeAfterEq e (s.locks a).expires = true ∧
    s.timeout a ≤ (e - s.jiffies).toInt

def Timed (s : State) (m : Nat) : Prop :=
  (∀ a, ¬ NonExpiring s a) → (∃ e, s.expireTimer = some e ∧ Covers s e) ∨
    (s.activeWakeLocks wakeLockSuspend = [] ∧ m < s.workQueued)

theorem Timed.remark (h : Timed s m) (hu : s.unexpired = true) (m' : Nat) : Timed s m' := by
  intro hn
  rcases h hn with hc | ⟨he, -⟩
  · exact .inl hc
  · simp [State.unexpired, he] at hu

theorem Timed.frame (h : Timed s m) (hj : s'.jiffies = s.jiffies)
    (htimer : s'.expireTimer = s.expireTimer) (hq : s'.workQueued = s.workQueued)
    (hkept : ∀ a ∈ s'.activeWakeLocks wakeLockSuspend,
      a ∈ s.activeWakeLocks wakeLockSuspend ∧ s'.locks a = s.locks a)
    (hheld : ∀ a, NonExpiring s a → ∃ b, NonExpiring s' b) : Timed s' m := by
  intro hn
  have hn' : ∀ a, ¬ NonExpiring s a := by
    intro a ha
    obtain ⟨b, hb⟩ := hheld a ha
    exact hn b hb
  rcases h hn' with ⟨e, he, hc⟩ | ⟨hnil, hlt⟩
  · refine .inl ⟨e, htimer.trans he, ?_⟩
    intro a ha
    obtain ⟨ha, hl⟩ := hkept a ha
    rw [State.timeout, hl, hj]
    exact hc a ha
  · refine .inr ⟨?_, hq ▸ hlt⟩
    apply List.eq_nil_iff_forall_not_mem.mpr
    intro a ha
    have := (hkept a ha).1
    rw [hnil] at this
    cases this

theorem toInt_ofInt_long (h0 : 0 ≤ r) (hr : r < 2 ^ 31) : (BitVec.ofInt 32 r).toInt = r := by
  rw [BitVec.toInt_ofInt]
  exact Int.bmod_eq_of_le (by omega) (by omega)

theorem expiry_covers (h0 : 0 < (x - j).toInt) (hle : (x - j).toInt ≤ r) (hr : r < 2 ^ 31) :
    timeAfterEq (j + BitVec.ofInt 32 r) x = true ∧
      (x - j).toInt ≤ (j + BitVec.ofInt 32 r - j).toInt := by
  have hr' := toInt_ofInt_long (Int.le_trans (Int.le_of_lt h0) hle) hr
  have hj : j + BitVec.ofInt 32 r - j = BitVec.ofInt 32 r := by
    rw [BitVec.add_comm, BitVec.add_sub_cancel]
  have hx : j + BitVec.ofInt 32 r - x = BitVec.ofInt 32 r - (x - j) := by bv_omega
  refine ⟨?_, by rw [hj, hr']; exact hle⟩
  rw [timeAfterEq, hx, BitVec.toInt_sub]
  rw [Int.bmod_eq_of_le (by omega) (by omega)]
  exact decide_eq_true (by omega)

theorem startExpireTimer_timed (h : Reports s wakeLockSuspend l 0 r)
    (hl : ∀ a ∈ s.activeWakeLocks wakeLockSuspend, a ∈ l) (hm : m ≤ s.workQueued) :
    Timed (startExpireTimer s r) m := by
  by_cases h0 : r = 0
  · subst h0
    exact fun _ => .inr ⟨h.nil hl, Nat.lt_succ_of_le hm⟩
  · rcases h with ⟨rfl, a, -, ha⟩ | ⟨hle, hr, hall, -⟩
    · exact fun hn => absurd ha (hn a)
    · have hpos : 0 < r := by omega
      rw [startExpireTimer, if_pos hpos]
      refine fun _ => .inl ⟨_, rfl, ?_⟩
      intro a ha
      obtain ⟨hgt, hle⟩ := hall a (hl a ha) ha
      exact expiry_covers hgt hle hr

structure Advances (s s' : State) : Prop where
  listed : Listed none s'
  queued : s.workQueued ≤ s'.workQueued
  timed : ∀ m ≤ s.workQueued, Timed s m → Timed s' m

theorem startExpireTimer_queued (s : State) (r : Int) :
    s.workQueued ≤ (startExpireTimer s r).workQueued := by
  unfold startExpireTimer
  split
  · exact Nat.le_refl _
  · dsimp only
    split
    · exact Nat.le_succ _
    · exact Nat.le_refl _

theorem Listed.startExpireTimer (h : Listed none s) (r : Int) :
    Listed none (startExpireTimer s r) := by
  unfold WakeLocks.startExpireTimer
  split
  · exact ⟨h.nodup, h.inactive_nodup, h.typed, h.active, h.inactive⟩
  · dsimp only
    split
    all_goals exact ⟨h.nodup, h.inactive_nodup, h.typed, h.active, h.inactive⟩

theorem Advances.rescan (h : Listed none s₁) (hq : s₁.workQueued = s.workQueued) :
    Advances s (WakeLocks.startExpireTimer (hasWakeLockLocked s₁ wakeLockSuspend).1
      (hasWakeLockLocked s₁ wakeLockSuspend).2) := by
  obtain ⟨hL, hS, hR⟩ := hasWakeLockLocked_spec h (t := wakeLockSuspend)
  have hq' := hS.queued.trans hq
  refine ⟨hL.startExpireTimer _, ?_, ?_⟩
  · exact hq' ▸ startExpireTimer_queued _ _
  · intro m hm _
    exact startExpireTimer_timed hR (fun a ha => (hS.kept ha).1) (hq' ▸ hm)

theorem mem_listDel (h : Listed none s) {b : Nat} :
    b ∈ (s.listDel a).activeWakeLocks t ↔ b ≠ a ∧ b ∈ s.activeWakeLocks t :=
  (h.nodup t).mem_erase_iff

structure Aside (a : Nat) (s s' : State) : Prop where
  jiffies : s'.jiffies = s.jiffies
  timer : s'.expireTimer = s.expireTimer
  queued : s'.workQueued = s.workQueued
  mem : ∀ {b}, b ∈ s'.activeWakeLocks wakeLockSuspend ↔
    b ≠ a ∧ b ∈ s.activeWakeLocks wakeLockSuspend
  locks : ∀ b ≠ a, s'.locks b = s.locks b

theorem Aside.advances (h : Aside a s s') (hL : Listed none s')
    (hheld : NonExpiring s a → ∃ b ≠ a, NonExpiring s b) : Advances s s' := by
  refine ⟨hL, Nat.le_of_eq h.queued.symm, ?_⟩
  intro m _ hm
  apply hm.frame h.jiffies h.timer h.queued
  · intro b hb
    obtain ⟨hne, hb⟩ := h.mem.mp hb
    exact ⟨hb, h.locks b hne⟩
  · have hstay : ∀ b ≠ a, NonExpiring s b → NonExpiring s' b := by
      intro b hne hb
      exact ⟨h.mem.mpr ⟨hne, hb.1⟩, (h.locks b hne).symm ▸ hb.2⟩
    intro b hb
    by_cases hba : b = a
    · obtain ⟨c, hc, hcn⟩ := hheld (hba ▸ hb)
      exact ⟨c, hstay c hc hcn⟩
    · exact ⟨b, hstay b hba hb⟩

theorem NonExpiring.type (h : Listed none s) (ha : NonExpiring s a) :
    (s.locks a).type = wakeLockSuspend :=
  (h.active.mp ha.1).2.2.2

theorem wakeLockInit_advances (h : Listed none s) (hs : wakeLockInit s a t = some s') :
    Advances s s' := by
  rw [wakeLockInit] at hs
  split at hs
  · cases hs
  next hl =>
    obtain rfl := some.inj hs
    have hout := h.unlinked (by simpa using hl)
    have hne : ∀ b ∈ s.activeWakeLocks wakeLockSuspend, b ≠ a :=
      fun b hb hba => (hout.active.mp hb).1 (hba ▸ rfl)
    apply Aside.advances (a := a)
    · exact ⟨rfl, rfl, rfl, ⟨fun hb => ⟨hne _ hb, hb⟩, And.right⟩, fun b hb => update_of_ne hb _ _⟩
    · apply hout.setLock.addInactive
      all_goals simp [State.setLock]
    · exact fun ha => absurd rfl (hne a ha.1)

theorem wakeUnlock_advances (h : Listed none s) (hs : wakeUnlock s a = some s') :
    Advances s s' := by
  rw [wakeUnlock] at hs
  split at hs
  · cases hs
  next hl =>
    have hi := h.initialized (by simpa using hl)
    have hL : Listed none (((s.setLock a (s.locks a).deactivate).listDel a).addInactive a) :=
      h.relist hi rfl
    split at hs
    next ht =>
      rw [ht] at hs
      obtain rfl := some.inj hs
      exact .rescan hL rfl
    next ht =>
      obtain rfl := some.inj hs
      apply Aside.advances (a := a)
      · exact ⟨rfl, rfl, rfl, mem_listDel h, fun b hb => update_of_ne hb _ _⟩
      · exact hL
      · exact fun ha => absurd (ha.type h) ht

theorem wakeLockDestroy_advances (h : Listed none s)
    (hg : NonExpiring s a → ∃ b ≠ a, NonExpiring s b) (hs : wakeLockDestroy s a = some s') :
    Advances s s' := by
  rw [wakeLockDestroy] at hs
  split at hs
  · cases hs
  · obtain rfl := some.inj hs
    apply Aside.advances (a := a)
    · exact ⟨rfl, rfl, rfl, mem_listDel h, fun b hb => update_of_ne hb _ _⟩
    · apply Listed.forget (a := a)
      · exact h.listDel.setLock
      · simp [State.setLock, State.listDel]
    · exact hg

theorem wakeLock_nonExpiring (hs : wakeLock s a = some s')
    (ht : (s.locks a).type = wakeLockSuspend) : NonExpiring s' a := by
  rw [wakeLock, wakeLockInternal] at hs
  split at hs
  · cases hs
  · simp only [Bool.false_eq_true, if_false] at hs
    obtain rfl := some.inj hs
    constructor
    · simp [startExpireTimer, State.addActive, ht]
    · simp [startExpireTimer, State.addActive, State.setLock]

theorem wakeLock_advances (h : Listed none s) (hs : wakeLock s a = some s') : Advances s s' := by
  have hheld := wakeLock_nonExpiring hs
  rw [wakeLock, wakeLockInternal] at hs
  split at hs
  · cases hs
  next hok =>
    simp only [not_or, Nat.not_le] at hok
    obtain ⟨hty, hi, -⟩ := hok
    simp only [Bool.false_eq_true, if_false] at hs
    generalize hlock : ({ s.locks a with
      active := true, autoExpire := false, expires := longMax } : WakeLock) = lock at hs
    have hL : Listed none (((s.listDel a).setLock a lock).addActive (s.locks a).type a) := by
      subst hlock
      apply h.listDel.setLock.addActive hty
      all_goals simp [State.setLock, hi]
    split at hs
    next ht =>
      obtain rfl := some.inj hs
      refine ⟨hL.startExpireTimer _, Nat.le_refl _, ?_⟩
      exact fun m _ _ hn => absurd (hheld ht) (hn a)
    next ht =>
      obtain rfl := some.inj hs
      apply Aside.advances (a := a)
      · refine ⟨rfl, rfl, rfl, ?_, fun b hb => update_of_ne hb _ _⟩
        intro b
        rw [← mem_listDel h]
        simp [State.addActive, State.setLock, update_of_ne (Ne.symm ht)]
      · exact hL
      · exact fun ha => absurd (ha.type h) ht

theorem wakeLockTimeout_advances (h : Listed none s)
    (hs : wakeLockTimeout s a timeout = some s') : Advances s s' := by
  rw [wakeLockTimeout, wakeLockInternal] at hs
  split at hs
  · cases hs
  next hok =>
    simp only [not_or, Nat.not_le] at hok
    obtain ⟨hty, hi, -⟩ := hok
    simp only [if_true] at hs
    generalize hlock : ({ s.locks a with
      active := true, autoExpire := true,
      expires := (s.listDel a).jiffies + BitVec.ofInt 32 timeout } : WakeLock) = lock at hs
    have hL : Listed none (((s.listDel a).setLock a lock).addActiveTail (s.locks a).type a) := by
      subst hlock
      apply h.listDel.setLock.addActiveTail hty
      all_goals simp [State.setLock, hi]
    split at hs
    next ht =>
      rw [ht] at hs hL
      obtain rfl := some.inj hs
      exact .rescan hL rfl
    next ht =>
      obtain rfl := some.inj hs
      apply Aside.advances (a := a)
      · refine ⟨rfl, rfl, rfl, ?_, fun b hb => update_of_ne hb _ _⟩
        intro b
        rw [← mem_listDel h]
        simp [State.addActiveTail, State.setLock, update_of_ne (Ne.symm ht)]
      · exact hL
      · exact fun ha => absurd (ha.type h) ht

theorem hasWakeLock_advances (h : Listed none s)
    (hs : (hasWakeLock s t).map Prod.fst = some s') : Advances s s' := by
  rw [hasWakeLock] at hs
  split at hs
  · cases hs
  · obtain rfl := some.inj hs
    obtain ⟨hL, hS, -⟩ := hasWakeLockLocked_spec h (t := t)
    refine ⟨hL, Nat.le_of_eq hS.queued.symm, ?_⟩
    intro m _ hm
    apply hm.frame hS.jiffies hS.timer hS.queued
    · exact fun a ha => hS.kept ha
    · intro a ha
      have hmem := hS.held ha.1 (by simp [State.live, ha.2])
      exact ⟨a, hmem, (hS.kept hmem).2.symm ▸ ha.2⟩

theorem neg_le_toInt (x : BitVec 32) : -2 ^ 31 ≤ x.toInt := by
  simpa using BitVec.le_toInt x

theorem toInt_sub_succ {x j : BitVec 32} (h : (x - j).toInt ≠ -2 ^ 31) :
    (x - (j + 1)).toInt = (x - j).toInt - 1 := by
  have hx : x - (j + 1) = (x - j) - 1 := by bv_omega
  rw [hx]
  generalize x - j = d at h ⊢
  have hle := neg_le_toInt d
  have hlt : d.toInt < 2 ^ 31 := by simpa using BitVec.toInt_lt (x := d)
  have h1 : (1 : BitVec 32).toInt = 1 := rfl
  rw [BitVec.toInt_sub, h1, Int.bmod_eq_of_le (by omega) (by omega)]

theorem tick_advances (h : Listed none s)
    (hg : s.expireTimer.isSome = true → ∀ a ∈ s.activeWakeLocks wakeLockSuspend,
      s.timeout a ≠ -2 ^ 31) :
    Advances s { s with jiffies := s.jiffies + 1 } := by
  refine ⟨⟨h.nodup, h.inactive_nodup, h.typed, h.active, h.inactive⟩, Nat.le_refl _, ?_⟩
  intro m _ hm hn
  rcases hm hn with ⟨e, he, hc⟩ | hq
  · refine .inl ⟨e, he, ?_⟩
    intro a ha
    obtain ⟨hafter, hle⟩ := hc a ha
    have hne := hg (by rw [he]; rfl) a ha
    have hlow : -2 ^ 31 ≤ s.timeout a := neg_le_toInt _
    have hne' : (e - s.jiffies).toInt ≠ -2 ^ 31 := by omega
    refine ⟨hafter, ?_⟩
    show ((s.locks a).expires - (s.jiffies + 1)).toInt ≤ (e - (s.jiffies + 1)).toInt
    rw [toInt_sub_succ hne, toInt_sub_succ hne']
    exact Int.sub_le_sub_right hle 1
  · exact .inr hq

theorem due_toInt (h : timeAfterEq j e = true) : (e - j).toInt ≤ 0 := by
  have h0 : 0 ≤ (j - e).toInt := by simpa [timeAfterEq] using h
  have hlt : (j - e).toInt < 2 ^ 31 := by simpa using BitVec.toInt_lt (x := j - e)
  have he : e - j = -(j - e) := by bv_omega
  rw [he]
  rw [BitVec.toInt_neg, Int.bmod_eq_of_le (by omega) (by omega)]
  omega

theorem Timed.due (h : Timed s m)
    (he : s.expireTimer = some e) (hdue : timeAfterEq s.jiffies e = true)
    (hS : Scanned { s with expireTimer := none } s')
    (hR : Reports s' wakeLockSuspend l 0 r) (hr : r ≠ 0) : ∃ a, NonExpiring s' a := by
  by_contra! hn
  rcases hR with ⟨-, a, -, ha⟩ | ⟨h0, -, hall, hle | ⟨a, ha, has⟩⟩
  · exact hn a ha
  · omega
  · obtain ⟨hmem, hl⟩ := hS.kept has
    have hn' : ∀ b, ¬ NonExpiring s b := by
      intro b hb
      have hbs := hS.held hb.1 (by simp [State.live, hb.2])
      exact hn b ⟨hbs, (hS.kept hbs).2.symm ▸ hb.2⟩
    rcases h hn' with ⟨e', he', hc⟩ | ⟨hnil, -⟩
    · obtain rfl : e = e' := some.inj (he.symm.trans he')
      have hpos := (hall a ha has).1
      have htime : s'.timeout a = s.timeout a := hS.timeout has
      have hle := (hc a hmem).2
      have hnow := due_toInt hdue
      omega
    · have hmem' : a ∈ s.activeWakeLocks wakeLockSuspend := hmem
      rw [hnil] at hmem'
      cases hmem'

theorem expireWakeLocks_advances (h : Listed none s)
    (he : s.expireTimer = some e) (hdue : timeAfterEq s.jiffies e = true) :
    Advances s (expireWakeLocks s) := by
  have h' : Listed none { s with expireTimer := none } :=
    ⟨h.nodup, h.inactive_nodup, h.typed, h.active, h.inactive⟩
  obtain ⟨hL, hS, hR⟩ := hasWakeLockLocked_spec h' (t := wakeLockSuspend)
  rw [expireWakeLocks]
  generalize hasWakeLockLocked { s with expireTimer := none } wakeLockSuspend = res at hL hS hR ⊢
  obtain ⟨s', r⟩ := res
  have hq : s'.workQueued = s.workQueued := hS.queued
  dsimp only at hL hS hR ⊢
  split
  next h0 =>
    subst h0
    refine ⟨⟨hL.nodup, hL.inactive_nodup, hL.typed, hL.active, hL.inactive⟩, ?_, ?_⟩
    · exact hq ▸ Nat.le_succ _
    · intro m hm _ _
      exact .inr ⟨hR.nil fun a ha => (hS.kept ha).1, Nat.lt_succ_of_le (hq ▸ hm)⟩
  next h0 =>
    refine ⟨hL, Nat.le_of_eq hq.symm, ?_⟩
    intro m _ hm hn
    obtain ⟨a, ha⟩ := hm.due he hdue hS hR h0
    exact absurd ha (hn a)

/-- The last SUSPEND lock that does not expire is not destroyed while it is held, and `jiffies` does
not run half a round past an expiry for which the timer is still pending. -/
def Careful (w : Watched) : Op → Prop
  | .destroy a => NonExpiring w.state a → ∃ b ≠ a, NonExpiring w.state b
  | .tick => w.state.expireTimer.isSome = true →
      ∀ a ∈ w.state.activeWakeLocks wakeLockSuspend, w.state.timeout a ≠ -2 ^ 31
  | _ => True

theorem wakeStep_advances (h : Listed none w.state) (hg : Careful w op)
    (hs : wakeStep w.state op = some s') : Advances w.state s' := by
  cases op with
  | init a type => exact wakeLockInit_advances h hs
  | lock a => exact wakeLock_advances h hs
  | lockTimeout a timeout => exact wakeLockTimeout_advances h hs
  | unlock a => exact wakeUnlock_advances h hs
  | destroy a => exact wakeLockDestroy_advances h hg hs
  | hasWakeLock type => exact hasWakeLock_advances h hs
  | tick =>
    obtain rfl := some.inj hs
    exact tick_advances h hg
  | expire =>
    rw [wakeStep] at hs
    split at hs
    next hdue =>
      obtain rfl := some.inj hs
      cases he : w.state.expireTimer with
      | none => simp [he] at hdue
      | some e => exact expireWakeLocks_advances h he (by simpa [he] using hdue)
    next => cases hs

structure Inv (w : Watched) : Prop where
  listed : Listed none w.state
  mark : w.mark ≤ w.state.workQueued
  timed : Timed w.state w.mark

theorem Inv.step (h : Inv w) (hg : Careful w op) (hs : w.step op = some w') : Inv w' := by
  obtain ⟨s', hs', rfl⟩ := map_eq_some_iff.mp hs
  obtain ⟨hL, hq, ht⟩ := wakeStep_advances h.listed hg hs'
  by_cases hu : w.state.unexpired = true ∧ s'.unexpired = false
  · simp only [hu]
    exact ⟨hL, hq, ht _ (Nat.le_refl _) (h.timed.remark hu.1 _)⟩
  · simp only [hu]
    exact ⟨hL, Nat.le_trans h.mark hq, ht _ h.mark h.timed⟩

theorem Listed.boot (j : BitVec 32) : Listed none (State.boot j) := by
  constructor
  all_goals simp [State.boot]

theorem Inv.wakelocksInit (h : wakelocksInit (State.boot j) = some s) : Inv ⟨s, 0⟩ := by
  rw [WakeLocks.wakelocksInit] at h
  obtain ⟨s₁, h₁, h⟩ := bind_eq_some_iff.mp h
  obtain ⟨s₂, h₂, h⟩ := bind_eq_some_iff.mp h
  have hL₁ := (wakeLockInit_advances (Listed.boot j) h₁).listed
  have hA₂ := wakeLock_advances hL₁ h₂
  have hA := wakeLockInit_advances hA₂.listed h
  refine ⟨hA.listed, Nat.zero_le _, hA.timed 0 (Nat.zero_le _) ?_⟩
  -- the main lock is held and does not expire
  obtain rfl := some.inj h₁
  exact fun hn => absurd (wakeLock_nonExpiring h₂ rfl) (hn mainWakeLock)

/-- In a careful run each lock is on the list of its flags, and while no SUSPEND lock is held for
good the timer covers the active ones or `suspend_work` was queued since. -/
theorem wake_locks_never_miss_suspend {j : BitVec 32} {w : Watched} {ops : List Op}
    (h₀ : wakelocksInit (State.boot j) = some s) (h : Run Careful Watched.step ⟨s, 0⟩ ops w) :
    (∀ a, (w.state.locks a).initialized = true → (∀ t, a ∈ w.state.activeWakeLocks t ↔
        (w.state.locks a).active = true ∧ (w.state.locks a).type = t) ∧
      (a ∈ w.state.inactiveLocks ↔ (w.state.locks a).active = false)) ∧
    ((∀ a, ¬ NonExpiring w.state a) → (∃ e, w.state.expireTimer = some e ∧
        ∀ a ∈ w.state.activeWakeLocks wakeLockSuspend,
          timeAfterEq e (w.state.locks a).expires = true) ∨
      (w.state.unexpired = false ∧ w.mark < w.state.workQueued)) := by
  have hI := h.invariant (Inv.step) (Inv.wakelocksInit h₀)
  refine ⟨?_, ?_⟩
  · intro a hi
    exact ⟨fun t => by simp [hI.listed.active, hi], by simp [hI.listed.inactive, hi]⟩
  · intro hn
    rcases hI.timed hn with ⟨e, he, hc⟩ | ⟨hnil, hlt⟩
    · exact .inl ⟨e, he, fun a ha => (hc a ha).1⟩
    · exact .inr ⟨by simp [State.unexpired, hnil], hlt⟩

theorem wake_locks_never_miss_suspend_sample : ∃ s w, wakelocksInit (State.boot 0) = some s ∧
      Run Careful Watched.step ⟨s, 0⟩ [.init 2 0, .lockTimeout 2 1, .unlock 0, .tick, .expire] w ∧
      (∀ a, ¬ NonExpiring w.state a) ∧ w.state.expireTimer = none ∧
      w.state.unexpired = false ∧ w.mark < w.state.workQueued := by
  obtain ⟨s, w, hs, hrun, htimer, hnil⟩ : ∃ s w, wakelocksInit (State.boot 0) = some s ∧
      Run Careful Watched.step ⟨s, 0⟩ [.init 2 0, .lockTimeout 2 1, .unlock 0, .tick, .expire] w ∧
      w.state.expireTimer = none ∧ w.state.activeWakeLocks wakeLockSuspend = [] := by
    refine ⟨_, _, rfl, .cons trivial rfl (.cons trivial rfl (.cons trivial rfl (.cons ?_ rfl
      (.cons trivial rfl (.nil _))))), rfl, rfl⟩
    intro _ a ha
    obtain rfl := List.mem_singleton.mp ha
    decide
  have hn : ∀ a, ¬ NonExpiring w.state a := by
    intro a ha
    have hmem := ha.1
    rw [hnil] at hmem
    cases hmem
  rcases (wake_locks_never_miss_suspend hs hrun).2 hn with ⟨e, he, -⟩ | hq
  · rw [htimer] at he
    cases he
  · exact ⟨s, w, hs, hrun, hn, htimer, hq⟩

/-- The last lock that does not expire is destroyed while held: nothing starts the suspend. -/
theorem wake_lock_destroy_misses_suspend : ∃ s w, wakelocksInit (State.boot 0) = some s ∧
      Run (fun _ _ => True) Watched.step ⟨s, 0⟩ [.init 2 0, .lock 2, .unlock 0, .destroy 2] w ∧
      w.state.activeWakeLocks wakeLockSuspend = [] ∧ w.state.expireTimer = none ∧
      ¬ w.mark < w.state.workQueued := by
  refine ⟨_, _, rfl, .cons trivial rfl (.cons trivial rfl (.cons trivial rfl (.cons trivial rfl
    (.nil _)))), rfl, rfl, by decide⟩

end SpicaKernel.WakeLocks
