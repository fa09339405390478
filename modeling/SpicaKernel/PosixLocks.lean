import SpicaKernel.Spans

namespace SpicaKernel.PosixLocks
set_option autoImplicit true

/-- `F_RDLCK`, `F_WRLCK` and `F_UNLCK`. -/
inductive LockType where
  | rdlck
  | wrlck
  | unlck
  deriving DecidableEq

def OFFSET_MAX : Int := 0x7fffffffffffffff

/-- `struct file_lock`: its range and type, with its address, its owner and `IS_POSIX`. -/
structure FileLock extends Span LockType where
  id : Nat
  owner : Nat
  posix : Bool
  deriving DecidableEq

/-- `FL_ACCESS`, `FL_SLEEP` and `FL_EXISTS`. -/
structure Flags where
  access : Bool
  sleep : Bool
  mustExist : Bool

inductive Errno where
  | EAGAIN
  | EDEADLK
  | ENOLCK
  | ENOENT
  deriving DecidableEq

/-- What `__posix_lock_file` returns; `FILE_LOCK_DEFERRED` comes with the lock queued on. -/
inductive Answer where
  | ok
  | error (e : Errno)
  | deferred (blocker : Nat)
  deriving DecidableEq

/-- The answer, the inode's list behind the call, and the locks whose waiters were woken. -/
structure Outcome where
  answer : Answer
  locks : List FileLock
  woken : List Nat

def posixSameOwner (a b : FileLock) : Bool := a.owner == b.owner

def locksOverlap (a b : FileLock) : Bool := b.start ≤ a.stop && a.start ≤ b.stop

def locksConflict (caller sys : FileLock) : Bool :=
  sys.type == .wrlck || caller.type == .wrlck

def posixLocksConflict (caller sys : FileLock) : Bool :=
  sys.posix && !posixSameOwner caller sys && locksOverlap caller sys && locksConflict caller sys

/-- The owner's locks that `before` has passed, what `request` points to, which is the caller's or
one of these, and the rest. -/
structure Cursor where
  passed : List FileLock
  request : FileLock
  added : Bool
  left : Option Nat
  woken : List Nat

/-- A write through `request`, which changes the passed lock that it points to. -/
def Cursor.widen (c : Cursor) (start stop : Int) : Cursor :=
  { c with
    request := { c.request with start := start, stop := stop }
    passed := c.passed.map fun l =>
      if l.id = c.request.id then { l with start := start, stop := stop } else l }

/-- Go on behind the lock, delete it, or leave the loop, with `right` set or not. -/
inductive Round where
  | pass (c : Cursor) (fl : FileLock)
  | drop (c : Cursor)
  | leave (c : Cursor) (right : Bool)

def sameType (c : Cursor) (fl : FileLock) : Round :=
  if fl.stop < c.request.start - 1 then .pass c fl
  else if c.request.stop < fl.start - 1 then .leave c false
  else
    let start := min fl.start c.request.start
    let stop := max fl.stop c.request.stop
    let fl' := { fl with start := start, stop := stop }
    let c := c.widen start stop
    if c.added then .drop { c with woken := c.woken ++ [fl.id] }
    else .pass { c with request := fl', added := true } fl'

def otherType (c : Cursor) (fl : FileLock) : Round :=
  if fl.stop < c.request.start then .pass c fl
  else if c.request.stop < fl.start then .leave c false
  else
    let c := if c.request.type = .unlck then { c with added := true } else c
    let c := if fl.start < c.request.start then { c with left := some fl.id } else c
    if c.request.stop < fl.stop then .leave c true
    else if c.request.start ≤ fl.start then
      if c.added then .drop { c with woken := c.woken ++ [fl.id] }
      else
        let fl' := { fl with
          start := c.request.start
          stop := c.request.stop
          type := c.request.type }
        .pass { c with request := fl', added := true, woken := c.woken ++ [fl.id] } fl'
    else .pass c fl

def visit (c : Cursor) (fl : FileLock) : Round :=
  if c.request.type = fl.type then sameType c fl else otherType c fl

/-- The second `while` loop, with the list from `*before` on, and whether `right` is its first. -/
def walk : Cursor → List FileLock → Cursor × List FileLock × Bool
  | c, [] => (c, [], false)
  | c, fl :: rest =>
    if posixSameOwner c.request fl then
      match visit c fl with
      | .pass c fl => walk { c with passed := c.passed ++ [fl] } rest
      | .drop c => walk c rest
      | .leave c right => (c, fl :: rest, right)
    else (c, fl :: rest, false)

/-- `left->fl_end = request->fl_start - 1`. -/
def trimLeft (left : Option Nat) (stop : Int) (locks : List FileLock) : List FileLock :=
  locks.map fun l => if left = some l.id then { l with stop := stop } else l

/-- The last part of `__posix_lock_file`, on the owner's locks and what follows them. -/
def finish (flags : Flags) (newFl newFl2 : Option Nat) (c : Cursor) (rest : List FileLock)
    (right : Bool) : Outcome :=
  let halves : Bool := right && (rest.head?.map fun l => l.id) == c.left
  let kept := c.passed ++ rest
  if halves && newFl2.isNone then ⟨.error .ENOLCK, kept, c.woken⟩
  else if !c.added && c.request.type == .unlck then
    ⟨if flags.mustExist then .error .ENOENT else .ok, kept, c.woken⟩
  else if !c.added && newFl.isNone then ⟨.error .ENOLCK, kept, c.woken⟩
  else
    let inserted :=
      match c.added, newFl with
      | false, some id => [{ c.request with id := id }]
      | _, _ => []
    match right, rest with
    | true, r :: rest =>
      let copy :=
        match halves, newFl2 with
        | true, some id => [{ r with id := id }]
        | _, _ => []
      let left := if halves then newFl2 else c.left
      ⟨.ok, trimLeft left (c.request.start - 1)
          (c.passed ++ copy ++ inserted ++ { r with start := c.request.stop + 1 } :: rest),
        c.woken ++ [r.id] ++ left.toList⟩
    | _, _ =>
      ⟨.ok, trimLeft c.left (c.request.start - 1) (c.passed ++ inserted ++ rest),
        c.woken ++ c.left.toList⟩

/-- The locks are allocated in advance, unless everything is unlocked or nothing is changed. -/
def needsSpares (flags : Flags) (request : FileLock) : Bool :=
  !flags.access && (request.type != .unlck || request.start != 0 || request.stop != OFFSET_MAX)

/-- `__posix_lock_file` on the inode's list. The spare locks are those that `locks_alloc_lock`
gives, and `deadlock` is the result of `posix_locks_deadlock`. -/
def posixLockFile (deadlock : FileLock → Bool) (flags : Flags) (spare spare2 : Option Nat)
    (request : FileLock) (locks : List FileLock) : Outcome :=
  let newFl := if needsSpares flags request then spare else none
  let newFl2 := if needsSpares flags request then spare2 else none
  let conflicting :=
    if request.type = .unlck then none
    else locks.find? fun fl => fl.posix && posixLocksConflict request fl
  match conflicting with
  | some fl =>
    if !flags.sleep then ⟨.error .EAGAIN, locks, []⟩
    else if deadlock fl then ⟨.error .EDEADLK, locks, []⟩
    else ⟨.deferred fl.id, locks, []⟩
  | none =>
    if flags.access then ⟨.ok, locks, []⟩
    else
      let skip := fun fl : FileLock => !fl.posix || !posixSameOwner request fl
      let r := walk ⟨[], request, false, none, []⟩ (locks.dropWhile skip)
      let o := finish flags newFl newFl2 r.1 r.2.1 r.2.2
      { o with locks := locks.takeWhile skip ++ o.locks }

/-- The request of `locks_remove_posix`; `id` is its address. -/
def unlockAll (id owner : Nat) : FileLock := ⟨⟨0, OFFSET_MAX, .unlck⟩, id, owner, true⟩

def locksRemovePosix (id owner : Nat) (locks : List FileLock) : List FileLock :=
  if locks = [] then locks
  else (posixLockFile (fun _ => false) ⟨false, false, false⟩ none none (unlockAll id owner)
    locks).locks

/-- A result as the signed type has it whose least value is `-half`. -/
def wrap (half x : Int) : Int := (x + half) % (2 * half) - half

/-- `off_t` -/
def offT : Int := 0x80000000

/-- `loff_t` -/
def loffT : Int := 0x8000000000000000

/-- `struct flock` and `struct flock64`; the values are of the converter's type. -/
structure Flock where
  type : Int
  whence : Int
  start : Int
  len : Int

structure File where
  pos : Int
  size : Int

inductive RangeError where
  | EINVAL
  | EOVERFLOW
  deriving DecidableEq

/-- `SEEK_SET`, `SEEK_CUR` and `SEEK_END` -/
def File.base (filp : File) (whence : Int) : Option Int :=
  if whence = 0 then some 0
  else if whence = 1 then some filp.pos
  else if whence = 2 then some filp.size
  else none

def lockType (type : Int) : Option LockType :=
  if type = 0 then some .rdlck
  else if type = 1 then some .wrlck
  else if type = 2 then some .unlck
  else none

def LockType.code : LockType → Int
  | .rdlck => 0
  | .wrlck => 1
  | .unlck => 2

/-- The checks behind the arithmetic, and the type. -/
def assign (type start stop : Int) : Except RangeError (Span LockType) :=
  if start < 0 then .error .EINVAL
  else if stop < start then .error .EOVERFLOW
  else
    match lockType type with
    | none => .error .EINVAL
    | some type => .ok ⟨start, stop, type⟩

/-- The two converters: `start` and the end are computed in the type of `half`. -/
def toPosixLock (half : Int) (filp : File) (l : Flock) : Except RangeError (Span LockType) :=
  match filp.base l.whence with
  | none => .error .EINVAL
  | some base =>
    let start := wrap half base
    let start := wrap half (start + l.start)
    if start < 0 then .error .EINVAL
    else
      let stop := if 0 < l.len then wrap half (start + l.len - 1)
        else if l.len < 0 then wrap half (start - 1) else OFFSET_MAX
      assign l.type (if l.len < 0 then wrap half (start + l.len) else start) stop

def flockToPosixLock : File → Flock → Except RangeError (Span LockType) := toPosixLock offT

def flock64ToPosixLock : File → Flock → Except RangeError (Span LockType) := toPosixLock loffT

/-- The start and length that both `posix_lock_to_flock` report. -/
def report (half : Int) (fl : Span LockType) : Flock where
  type := fl.type.code
  whence := 0
  start := wrap half fl.start
  len := if fl.stop = OFFSET_MAX then 0 else wrap half (fl.stop - fl.start + 1)

def posixLockToFlock (fl : Span LockType) : Except RangeError Flock :=
  if offT - 1 < fl.start then .error .EOVERFLOW
  else if fl.stop ≠ OFFSET_MAX ∧ offT - 1 < fl.stop then .error .EOVERFLOW
  else .ok (report offT fl)

def posixLockToFlock64 : Span LockType → Flock := report loffT

/-- The bytes that POSIX gives a lock. -/
def prescribed (base : Int) (l : Flock) : Int × Int :=
  let start := base + l.start
  if 0 < l.len then (start, start + l.len - 1)
  else if l.len < 0 then (start + l.len, start - 1)
  else (start, OFFSET_MAX)

theorem wrap_inside (h : -half ≤ x) (h' : x < half) : wrap half x = x := by
  rw [wrap, Int.emod_eq_of_lt (by omega) (by omega)]
  omega

theorem wrap_over (h : half ≤ x) (h' : x < 2 * half) : wrap half x = x - 2 * half := by
  have hmod : (x + half) % (2 * half) = x - half := by
    rw [← Int.sub_emod_right, Int.emod_eq_of_lt (by omega) (by omega)]
    omega
  rw [wrap]
  omega

theorem lockType_code (type : LockType) : lockType type.code = some type := by
  cases type <;> rfl

theorem assign_of_lockType (h0 : 0 ≤ start) (hle : start ≤ stop) (htype : lockType type = some t) :
    assign type start stop = .ok ⟨start, stop, t⟩ := by
  rw [assign, if_neg (by omega), if_neg (by omega), htype]

theorem assign_code (h0 : 0 ≤ fl.start) (hle : fl.start ≤ fl.stop) :
    assign fl.type.code fl.start fl.stop = .ok fl :=
  assign_of_lockType h0 hle (lockType_code fl.type)

theorem wrap_wrap_add (half x y : Int) : wrap half (wrap half x + y) = wrap half (x + y) := by
  have hsum : (x + half) % (2 * half) - half + y + half = (x + half) % (2 * half) + y := by omega
  rw [wrap, wrap, hsum, Int.emod_add_emod, wrap, Int.add_right_comm]

theorem wrap_emod (half x : Int) : wrap half (x % (2 * half)) = wrap half x := by
  rw [wrap, wrap, Int.emod_add_emod]

def Flock.Fits (half : Int) (l : Flock) : Prop :=
  (-half ≤ l.start ∧ l.start < half) ∧ -half ≤ l.len ∧ l.len < half

/-- No range goes from the first byte modulo the type's values, or there is no such type of lock. -/
def Flock.Refused (half base : Int) (l : Flock) : Prop :=
  let first := (base + l.start) % (2 * half)
  half ≤ first ∨ (0 < l.len ∧ half < first + l.len) ∨ (l.len < 0 ∧ first + l.len < 0) ∨
    lockType l.type = none

/-- The first byte is one of the type, or what the sum leaves of it is refused. -/
def Flock.Kept (half : Int) (filp : File) (l : Flock) : Prop :=
  ∀ base, filp.base l.whence = some base →
    (0 ≤ base + l.start ∧ base + l.start < half) ∨ l.Refused half base

theorem toPosixLock_first (hhalf : 0 < half) (hbase : filp.base l.whence = some base)
    (hfirst : (base + l.start) % (2 * half) < half) :
    let first := (base + l.start) % (2 * half)
    toPosixLock half filp l =
      assign l.type (if l.len < 0 then wrap half (first + l.len) else first)
        (if 0 < l.len then wrap half (first + l.len - 1)
          else if l.len < 0 then wrap half (first - 1) else OFFSET_MAX) := by
  have h0 : 0 ≤ (base + l.start) % (2 * half) := Int.emod_nonneg _ (by omega)
  have hw : wrap half (wrap half base + l.start) = (base + l.start) % (2 * half) := by
    rw [wrap_wrap_add, ← wrap_emod, wrap_inside (by omega) hfirst]
  rw [toPosixLock, hbase]
  simp only [hw]
  rw [if_neg (by omega)]

theorem toPosixLock_negative (hhalf : 0 < half) (hbase : filp.base l.whence = some base)
    (hfirst : half ≤ (base + l.start) % (2 * half)) : toPosixLock half filp l = .error .EINVAL := by
  have hlt : (base + l.start) % (2 * half) < 2 * half := Int.emod_lt_of_pos _ (by omega)
  have hw : wrap half (wrap half base + l.start) < 0 := by
    rw [wrap_wrap_add, ← wrap_emod, wrap_over hfirst hlt]
    omega
  rw [toPosixLock, hbase]
  simp only [hw, if_true]

theorem not_ok_of_assign (h : start < 0 ∨ stop < start ∨ lockType type = none) :
    assign type start stop ≠ .ok fl := by
  intro hok
  rw [assign] at hok
  split at hok
  · cases hok
  next h0 =>
    split at hok
    · cases hok
    next hle =>
      rw [(h.resolve_left h0).resolve_left hle] at hok
      cases hok

theorem toPosixLock_refused (hhalf : 0 < half) (hl : l.Fits half)
    (hbase : filp.base l.whence = some base) (h : l.Refused half base) :
    toPosixLock half filp l ≠ .ok fl := by
  rcases Int.lt_or_le ((base + l.start) % (2 * half)) half with hfirst | hfirst
  · have h0 : 0 ≤ (base + l.start) % (2 * half) := Int.emod_nonneg _ (by omega)
    obtain ⟨-, hlen⟩ := hl
    rw [toPosixLock_first hhalf hbase hfirst]
    apply not_ok_of_assign
    rcases h.resolve_left (Int.not_le.mpr hfirst) with ⟨hpos, hend⟩ | ⟨hneg, hstart⟩ | htype
    · simp only [hpos, Int.not_lt.mpr (Int.le_of_lt hpos), if_true, if_false]
      rw [wrap_over (by omega) (by omega)]
      omega
    · simp only [hneg, if_true]
      rw [wrap_inside (by omega) (by omega)]
      exact .inl hstart
    · exact .inr (.inr htype)
  · rw [toPosixLock_negative hhalf hbase hfirst]
    nofun

/-- Otherwise the range is the one that the first byte prescribes. -/
theorem toPosixLock_accepted (hhalf : 0 < half) (hmax : half - 1 ≤ OFFSET_MAX) (hl : l.Fits half)
    (hbase : filp.base l.whence = some base) (h : ¬ l.Refused half base) :
    ∃ fl, toPosixLock half filp l = .ok fl ∧ fl.start ≤ fl.stop ∧
      (fl.start, fl.stop) = prescribed ((base + l.start) % (2 * half) - l.start) l := by
  have h0 : 0 ≤ (base + l.start) % (2 * half) := Int.emod_nonneg _ (by omega)
  obtain ⟨-, hlen⟩ := hl
  simp only [Flock.Refused, not_or, not_and, Int.not_le, Int.not_lt] at h
  obtain ⟨hfirst, hpos, hneg, htype⟩ := h
  obtain ⟨t, ht⟩ := Option.ne_none_iff_exists'.mp htype
  rw [toPosixLock_first hhalf hbase hfirst, prescribed, Int.sub_add_cancel]
  rcases Int.lt_trichotomy l.len 0 with hlt | hzero | hgt
  · have hstart := hneg hlt
    simp only [hlt, show ¬ 0 < l.len by omega, if_true, if_false]
    rw [wrap_inside (by omega) (by omega), wrap_inside (by omega) (by omega)]
    exact ⟨_, assign_of_lockType hstart (by omega) ht, by dsimp only; omega, rfl⟩
  · simp only [hzero, Int.lt_irrefl, if_false]
    exact ⟨_, assign_of_lockType h0 (by omega) ht, by dsimp only; omega, rfl⟩
  · have hend := hpos hgt
    simp only [hgt, show ¬ l.len < 0 by omega, if_true, if_false]
    rw [wrap_inside (by omega) (by omega)]
    exact ⟨_, assign_of_lockType h0 (by omega) ht, by dsimp only; omega, rfl⟩

theorem prescribed_inj (h : prescribed a l = prescribed b l) : a = b := by
  simp only [prescribed] at h
  split at h
  · have hsum := (Prod.mk.inj h).1
    omega
  · split at h
    · have hsum := (Prod.mk.inj h).1
      omega
    · have hsum := (Prod.mk.inj h).1
      omega

theorem toPosixLock_prescribed (hhalf : 0 < half) (hmax : half - 1 ≤ OFFSET_MAX)
    (hl : l.Fits half) :
    (∀ fl, toPosixLock half filp l = .ok fl → ∃ base, filp.base l.whence = some base ∧
        fl.start ≤ fl.stop ∧ (fl.start, fl.stop) = prescribed base l) ↔ l.Kept half filp := by
  constructor
  · intro h base hbase
    by_cases hr : l.Refused half base
    · exact .inr hr
    · obtain ⟨fl, hok, -, hfl⟩ := toPosixLock_accepted hhalf hmax hl hbase hr
      obtain ⟨base', hbase', -, hfl'⟩ := h fl hok
      obtain rfl := Option.some.inj (hbase.symm.trans hbase')
      have heq := prescribed_inj (hfl.symm.trans hfl')
      have h0 : 0 ≤ (base + l.start) % (2 * half) := Int.emod_nonneg _ (by omega)
      have hlt := Int.not_le.mp fun hle => hr (.inl hle)
      exact .inl (by omega)
  · intro h fl hok
    cases hbase : filp.base l.whence with
    | none =>
      rw [toPosixLock, hbase] at hok
      cases hok
    | some base =>
      by_cases hr : l.Refused half base
      · exact absurd hok (toPosixLock_refused hhalf hl hbase hr)
      · obtain ⟨fl', hok', hle, hfl⟩ := toPosixLock_accepted hhalf hmax hl hbase hr
        obtain rfl := Except.ok.inj (hok.symm.trans hok')
        obtain ⟨h0, hlt⟩ := (h base hbase).resolve_right hr
        rw [Int.emod_eq_of_lt h0 (by omega), Int.add_sub_cancel] at hfl
        exact ⟨base, rfl, hle, hfl⟩

theorem toPosixLock_report (filp : File) (h0 : 0 ≤ fl.start)
    (hle : fl.start ≤ fl.stop) (hstart : fl.start < half)
    (hlen : fl.stop ≠ OFFSET_MAX → fl.stop < half ∧ fl.stop - fl.start + 1 < half) :
    toPosixLock half filp (report half fl) = .ok fl := by
  have hbase : filp.base (report half fl).whence = some 0 := rfl
  have hs : (report half fl).start = fl.start := wrap_inside (by omega) hstart
  rw [toPosixLock, hbase]
  simp only [hs, wrap_inside (by omega) (show 0 < half by omega),
    Int.zero_add, wrap_inside (show -half ≤ fl.start by omega) hstart]
  rw [if_neg (by omega)]
  by_cases hmax : fl.stop = OFFSET_MAX
  · have hl : (report half fl).len = 0 := if_pos hmax
    simp only [hl, ← hmax]
    exact assign_code h0 hle
  · obtain ⟨hstop, hfit⟩ := hlen hmax
    have hl : (report half fl).len = fl.stop - fl.start + 1 :=
      (if_neg hmax).trans (wrap_inside (by omega) hfit)
    have hpos : 0 < fl.stop - fl.start + 1 := by omega
    have hend : fl.start + (fl.stop - fl.start + 1) - 1 = fl.stop := by omega
    simp only [hl, hpos, Int.not_lt.mpr (Int.le_of_lt hpos), hend]
    rw [wrap_inside (by omega) hstop]
    exact assign_code h0 hle

/-- The first 2 GiB are reported with a length that is the least value of the type. -/
theorem report_truncated (filp : File) (hstart : fl.start = 0) (hstop : fl.stop = offT - 1) :
    posixLockToFlock fl = .ok ⟨fl.type.code, 0, 0, -offT⟩ ∧
      flockToPosixLock filp ⟨fl.type.code, 0, 0, -offT⟩ ≠ .ok fl := by
  obtain ⟨start, stop, type⟩ := fl
  obtain rfl : start = 0 := hstart
  obtain rfl : stop = offT - 1 := hstop
  have hbase : filp.base 0 = some 0 := rfl
  have hsmall : -offT ≤ 0 ∧ 0 < offT := by decide
  have hleast : -offT ≤ -offT ∧ -offT < offT := by decide
  have hbefore : -offT < 0 ∧ (0 + 0) % (2 * offT) + -offT < 0 := by decide
  refine ⟨rfl, toPosixLock_refused (by decide) ⟨hsmall, hleast⟩ hbase ?_⟩
  exact .inr (.inr (.inl hbefore))

theorem posix_lock_ranges (filp : File) :
    (∀ l, l.Fits offT →
      ((∀ fl, flockToPosixLock filp l = .ok fl → ∃ base, filp.base l.whence = some base ∧
          fl.start ≤ fl.stop ∧ (fl.start, fl.stop) = prescribed base l) ↔ l.Kept offT filp)) ∧
    (∀ l, l.Fits loffT →
      ((∀ fl, flock64ToPosixLock filp l = .ok fl → ∃ base, filp.base l.whence = some base ∧
          fl.start ≤ fl.stop ∧ (fl.start, fl.stop) = prescribed base l) ↔ l.Kept loffT filp)) ∧
    ∀ fl : Span LockType, 0 ≤ fl.start → fl.start ≤ fl.stop → fl.stop ≤ OFFSET_MAX →
      ((∀ l, posixLockToFlock fl = .ok l → flockToPosixLock filp l = .ok fl) ↔
        ¬ (fl.start = 0 ∧ fl.stop = offT - 1)) ∧
      flock64ToPosixLock filp (posixLockToFlock64 fl) = .ok fl := by
  have hmax : loffT - 1 = OFFSET_MAX := rfl
  refine ⟨?_, ?_, ?_⟩
  · intro l hl
    exact toPosixLock_prescribed (by decide) (by decide) hl
  · intro l hl
    exact toPosixLock_prescribed (by decide) (by decide) hl
  · intro fl h0 hle hstop
    refine ⟨⟨?_, fun hnot l hl => ?_⟩, ?_⟩
    · rintro h ⟨hstart, hend⟩
      obtain ⟨hl, hne⟩ := report_truncated filp hstart hend
      exact hne (h _ hl)
    · rw [posixLockToFlock] at hl
      split at hl
      · cases hl
      next hs =>
        split at hl
        · cases hl
        next he =>
          cases hl
          apply toPosixLock_report filp h0 hle (by omega)
          intro hne
          omega
    · exact toPosixLock_report filp h0 hle (by omega) (by omega)

/-- Backwards from the end of the file, and from a position before the file. -/
theorem posix_lock_ranges_backwards :
    (flock64ToPosixLock ⟨0, 100⟩ ⟨1, 2, -10, -20⟩ = .ok ⟨70, 89, .wrlck⟩ ∧
      (70, 89) = prescribed 100 ⟨1, 2, -10, -20⟩) ∧
    flock64ToPosixLock ⟨-1, 100⟩ ⟨1, 1, 5, 1⟩ = .ok ⟨4, 4, .wrlck⟩ ∧
      (4, 4) = prescribed (-1) ⟨1, 1, 5, 1⟩ := by
  constructor
  · have h := ((posix_lock_ranges ⟨0, 100⟩).2.1 ⟨1, 2, -10, -20⟩ ⟨by decide, by decide⟩).mpr
    obtain ⟨base, hbase, -, hfl⟩ := h (fun base hbase => by
      obtain rfl := Option.some.inj hbase
      exact .inl (by decide)) ⟨70, 89, .wrlck⟩ rfl
    obtain rfl := Option.some.inj hbase
    exact ⟨rfl, hfl⟩
  · have h := ((posix_lock_ranges ⟨-1, 100⟩).2.1 ⟨1, 1, 5, 1⟩ ⟨by decide, by decide⟩).mpr
    obtain ⟨base, hbase, -, hfl⟩ := h (fun base hbase => by
      obtain rfl := Option.some.inj hbase
      exact .inl (by decide)) ⟨4, 4, .wrlck⟩ rfl
    obtain rfl := Option.some.inj hbase
    exact ⟨rfl, hfl⟩

/-- 4 GiB and 5 bytes are taken for 5; and the first 2 GiB are reported with a negative length. -/
theorem posix_lock_ranges_truncate :
    flockToPosixLock ⟨0x100000005, 0⟩ ⟨1, 1, 0, 1⟩ = .ok ⟨5, 5, .wrlck⟩ ∧
      posixLockToFlock ⟨0, 0x7fffffff, .wrlck⟩ = .ok ⟨1, 0, 0, -0x80000000⟩ ∧
      flockToPosixLock ⟨0, 0⟩ ⟨1, 0, 0, -0x80000000⟩ = .error .EINVAL := by
  exact ⟨rfl, rfl, rfl⟩

open List

/-- Nothing is written yet, or the request has its lock and all locks to come start behind it. -/
structure Untouched (own : List FileLock) (o : Nat) (c : Cursor) (rest : List FileLock) :
    Prop where
  kept : c.passed ++ rest = own ∨ c.added = true ∧ ∀ m ∈ rest, c.request.start < m.start
  order : rest.Pairwise fun a b => a.start < b.start
  left : ∀ i ∈ c.left, i ∈ c.passed.map (·.id)
  ids : ((c.passed ++ rest).map (·.id)).Nodup
  owner : c.request.owner = o
  owners : ∀ m ∈ rest, m.owner = o

structure Bails (own : List FileLock) (c : Cursor) (rest : List FileLock) (right : Bool) :
    Prop where
  added : c.added = false → c.passed ++ rest = own
  halves : right = true →
    ∃ fl rest', rest = fl :: rest' ∧ (c.left = some fl.id → c.passed ++ rest = own)

theorem widen_ids (c : Cursor) : (c.widen s e).passed.map (·.id) = c.passed.map (·.id) := by
  simp only [Cursor.widen, List.map_map]
  refine map_congr_left fun l _ => ?_
  simp only [Function.comp]
  split <;> rfl

section Visit

variable (h : Untouched own o c (fl :: rest))
include h

theorem Untouched.kept_of (hadd : c.added = false) : c.passed ++ fl :: rest = own :=
  h.kept.resolve_right fun hk => by simp [hadd] at hk

theorem Untouched.onward (hp : c'.passed = c.passed ++ [fl])
    (ha : c.added = true → c'.added = true) (hreq : c'.request = c.request)
    (hl : c'.left = c.left ∨ c'.left = some fl.id) : Untouched own o c' rest where
  kept := by
    rcases h.kept with hk | ⟨hadd, hk⟩
    · exact .inl (by rw [hp, ← hk, List.append_assoc]; rfl)
    · exact .inr ⟨ha hadd, fun m hm => by rw [hreq]; exact hk m (mem_cons_of_mem fl hm)⟩
  order := h.order.tail
  left := by
    intro i hi
    rw [hp, map_append]
    rcases hl with hl | hl
    · exact mem_append_left _ (h.left i (hl ▸ hi))
    · rw [hl] at hi
      obtain rfl := Option.mem_some.mp hi
      simp
  ids := by
    have hids := h.ids
    rw [hp, List.append_assoc]
    exact hids
  owner := by rw [hreq]; exact h.owner
  owners := fun m hm => h.owners m (mem_cons_of_mem fl hm)

theorem Untouched.written (hadd : c'.added = true) (hstart : c'.request.start ≤ fl.start)
    (hown : c'.request.owner = o) (hl : c'.left = c.left)
    (hp : c'.passed.map (·.id) = c.passed.map (·.id) ∨
      c'.passed.map (·.id) = c.passed.map (·.id) ++ [fl.id]) : Untouched own o c' rest where
  kept := .inr ⟨hadd, fun m hm => by
    have := (pairwise_cons.mp h.order).1 m hm
    omega⟩
  order := h.order.tail
  left := by
    intro i hi
    have hi := h.left i (hl ▸ hi)
    rcases hp with hp | hp
    · rwa [hp]
    · rw [hp]
      exact mem_append_left _ hi
  ids := by
    have hids := h.ids
    rw [map_append] at hids
    rw [map_append]
    rcases hp with hp | hp
    · rw [hp]
      exact hids.sublist (by simp)
    · rw [hp, List.append_assoc]
      exact hids
  owner := hown
  owners := fun m hm => h.owners m (mem_cons_of_mem fl hm)

theorem Untouched.left_ne : c.left ≠ some fl.id := by
  intro hl
  obtain ⟨l, hl, he⟩ := List.mem_map.mp (h.left fl.id hl)
  have hpair := pairwise_map.mp h.ids
  exact (pairwise_append.mp hpair).2.2 l hl fl (by simp) he

theorem Untouched.bails : Bails own c (fl :: rest) false := ⟨h.kept_of, nofun⟩

def Round.Fine (own : List FileLock) (o : Nat) (fl : FileLock) (rest : List FileLock) : Round → Prop
  | .pass c fl' => Untouched own o { c with passed := c.passed ++ [fl'] } rest
  | .drop c => Untouched own o c rest
  | .leave c right => Bails own c (fl :: rest) right

theorem Untouched.sameType : (sameType c fl).Fine own o fl rest := by
  unfold PosixLocks.sameType
  have howner := h.owners fl (by simp)
  split
  · exact h.onward rfl id rfl (.inl rfl)
  split
  · exact h.bails
  dsimp only
  split
  next hadd => exact h.written hadd (Int.min_le_left _ _) h.owner rfl (.inl (widen_ids c))
  next =>
    refine h.written rfl (Int.min_le_left _ _) howner rfl (.inr ?_)
    rw [map_append, widen_ids]
    rfl

theorem Untouched.otherType : (otherType c fl).Fine own o fl rest := by
  unfold PosixLocks.otherType
  have howner := h.owners fl (by simp)
  split
  · exact h.onward rfl id rfl (.inl rfl)
  split
  · exact h.bails
  dsimp only
  generalize hc₁ : (if c.request.type = .unlck then { c with added := true } else c) = c₁
  have hmark₁ : c₁.passed = c.passed ∧ c₁.request = c.request ∧ c₁.left = c.left ∧
      (c.added = true → c₁.added = true) := by
    subst hc₁
    split
    · exact ⟨rfl, rfl, rfl, fun _ => rfl⟩
    · exact ⟨rfl, rfl, rfl, id⟩
  obtain ⟨hp₁, hreq₁, hl₁, ha₁⟩ := hmark₁
  generalize hc₂ : (if fl.start < c₁.request.start then { c₁ with left := some fl.id } else c₁) = c₂
  have hmark₂ : c₂.passed = c.passed ∧ c₂.request = c.request ∧ (c.added = true → c₂.added = true) ∧
      (c₂.left = c.left ∨ c₂.left = some fl.id ∧ fl.start < c.request.start) := by
    subst hc₂
    split
    next hlt => exact ⟨hp₁, hreq₁, ha₁, .inr ⟨rfl, hreq₁ ▸ hlt⟩⟩
    next => exact ⟨hp₁, hreq₁, ha₁, .inl hl₁⟩
  obtain ⟨hp, hreq, ha, hl⟩ := hmark₂
  split
  · -- only a lock that starts before the request and ends behind it is both `left` and `right`
    refine ⟨fun hadd => ?_, fun _ => ⟨fl, rest, rfl, fun hleft => ?_⟩⟩
    · rw [hp]
      exact h.kept_of (Bool.eq_false_iff.mpr fun hc => by simp [ha hc] at hadd)
    · rw [hp]
      rcases hl with hl | ⟨-, hlt⟩
      · exact absurd (hl.symm.trans hleft) h.left_ne
      · refine h.kept.resolve_right fun hk => ?_
        have := hk.2 fl (by simp)
        omega
  split
  next hle =>
    have hl : c₂.left = c.left := hl.resolve_right fun hlt => by rw [hreq] at hle; omega
    split
    next hadd => exact h.written hadd hle (hreq ▸ h.owner) hl (.inl (by rw [hp]))
    next => exact h.written rfl hle howner hl (.inr (by simp [hp]))
  · exact h.onward (by rw [hp]) ha hreq (hl.imp_right And.left)

theorem Untouched.visit : (visit c fl).Fine own o fl rest := by
  unfold PosixLocks.visit
  split
  · exact h.sameType
  · exact h.otherType

end Visit

theorem walk_untouched (h : Untouched own o c rest) (hB : ∀ b ∈ B.head?, b.owner ≠ o) :
    ∃ c' rest' right, walk c (rest ++ B) = (c', rest' ++ B, right) ∧ Bails own c' rest' right := by
  induction rest generalizing c with
  | nil =>
    refine ⟨c, [], false, ?_, fun hadd => ?_, nofun⟩
    · cases B with
      | nil => rfl
      | cons b B =>
        have hb : posixSameOwner c.request b = false := by
          simpa [posixSameOwner, h.owner] using (hB b rfl).symm
        simp [walk, hb]
    · exact h.kept.resolve_right fun hk => by simp [hadd] at hk
  | cons fl rest ih =>
    have hsame : posixSameOwner c.request fl = true := by
      simp [posixSameOwner, h.owner, h.owners fl (by simp)]
    have hvisit := h.visit
    simp only [List.cons_append, walk, hsame]
    cases hv : visit c fl with
    | pass c' fl' =>
      rw [hv] at hvisit
      exact ih hvisit
    | drop c' =>
      rw [hv] at hvisit
      exact ih hvisit
    | leave c' right =>
      rw [hv] at hvisit
      exact ⟨c', fl :: rest, right, rfl, hvisit⟩

theorem Bails.finish (h : Bails own c rest right)
    (he : (finish flags newFl newFl2 c (rest ++ B) right).answer ≠ .ok) :
    (finish flags newFl newFl2 c (rest ++ B) right).locks = own ++ B := by
  have hkept : c.passed ++ rest = own → c.passed ++ (rest ++ B) = own ++ B := fun hk => by
    rw [← List.append_assoc, hk]
  simp only [PosixLocks.finish] at he ⊢
  split
  next hhalves =>
    simp only [Bool.and_eq_true, beq_iff_eq] at hhalves
    obtain ⟨⟨hright, hleft⟩, -⟩ := hhalves
    obtain ⟨fl, rest', rfl, hk⟩ := h.halves hright
    exact hkept (hk hleft.symm)
  next hhalves =>
    rw [if_neg hhalves] at he
    split
    next hadd => exact hkept (h.added (by simp at hadd; exact hadd.1))
    next hadd =>
      rw [if_neg hadd] at he
      split
      next hnew => exact hkept (h.added (by simp at hnew; exact hnew.1))
      next hnew =>
        rw [if_neg hnew] at he
        split at he <;> exact absurd rfl he

end SpicaKernel.PosixLocks
