import SpicaKernel.Runs

namespace SpicaKernel.Semaphores
open Function
set_option autoImplicit true

def SEMVMX : Int := 32767

def SEMAEM : Int := SEMVMX

/-- `struct sembuf`, with the two flags that are looked at. -/
structure SemBuf where
  semNum : Nat
  semOp : Int
  nowait : Bool
  undo : Bool
  deriving DecidableEq

/-- What `try_atomic_semop` returns: 0, 1 or an error. -/
inductive Result where
  | done
  | block
  | ERANGE
  | EAGAIN
  deriving DecidableEq

/-- `struct sem_queue`; an undo structure is named by the undo list that it belongs to. -/
structure SemQueue where
  sleeper : Nat
  sops : List SemBuf
  undo : Option Nat
  pid : Nat
  alter : Bool
  deriving DecidableEq

/-- Values and last pids, the adjustments of the undo structures, and the pending operations. -/
structure SemArray where
  nsems : Nat
  semval : Nat → Int
  sempid : Nat → Nat
  undos : Nat → Option (Nat → Int16)
  pending : List SemQueue

def SemArray.semadj (sma : SemArray) (un : Option Nat) : Nat → Int16 :=
  (un.bind sma.undos).getD fun _ => 0

/-- How the first loop ends, with the semaphores' values and the operations done, the last first. -/
inductive Pass where
  | all (semval : Nat → Int)
  | outOfRange (semval : Nat → Int) (done : List SemBuf)
  | wouldBlock (semval : Nat → Int) (done : List SemBuf) (sop : SemBuf)

def applyOps (semadj : Nat → Int16) (semval : Nat → Int) (done : List SemBuf) : List SemBuf → Pass
  | [] => .all semval
  | sop :: sops =>
    let result := semval sop.semNum
    if sop.semOp = 0 ∧ result ≠ 0 then .wouldBlock semval done sop
    else
      let result := result + sop.semOp
      if result < 0 then .wouldBlock semval done sop
      else if SEMVMX < result then .outOfRange semval done
      else
        let undo := (semadj sop.semNum).toInt - sop.semOp
        if sop.undo = true ∧ (undo < -SEMAEM - 1 ∨ SEMAEM < undo) then .outOfRange semval done
        else applyOps semadj (update semval sop.semNum result) (sop :: done) sops

/-- The loop at the label `undo`. -/
def takeBack (semval : Nat → Int) : List SemBuf → Nat → Int
  | [] => semval
  | sop :: done => takeBack (update semval sop.semNum (semval sop.semNum - sop.semOp)) done

/-- The second loop, from the last operation to the first. -/
def settle (pid : Nat) (sempid : Nat → Nat) (semadj : Nat → Int16) :
    List SemBuf → (Nat → Nat) × (Nat → Int16)
  | [] => (sempid, semadj)
  | sop :: sops =>
    let sempid := update sempid sop.semNum pid
    let semadj :=
      if sop.undo then
        update semadj sop.semNum (Int16.ofInt ((semadj sop.semNum).toInt - sop.semOp))
      else semadj
    settle pid sempid semadj sops

def tryAtomicSemop (sma : SemArray) (sops : List SemBuf) (un : Option Nat) (pid : Nat) :
    Result × SemArray :=
  match applyOps (sma.semadj un) sma.semval [] sops with
  | .all semval =>
    let r := settle pid sma.sempid (sma.semadj un) sops.reverse
    (.done, { sma with
      semval := semval
      sempid := r.1
      undos :=
        match un with
        | some u => update sma.undos u (some r.2)
        | none => sma.undos })
  | .outOfRange semval done => (.ERANGE, { sma with semval := takeBack semval done })
  | .wouldBlock semval done sop =>
    (if sop.nowait then .EAGAIN else .block, { sma with semval := takeBack semval done })

/-- The loop: the queue in front of `q` and from `q` on, and the statuses given to sleepers. -/
structure Scan where
  sma : SemArray
  before : List SemQueue
  rest : List SemQueue
  woken : List (SemQueue × Result)

def updateQueueStep (s : Scan) : Turn Scan (SemArray × List (SemQueue × Result)) :=
  match s.rest with
  | [] => .stop ({ s.sma with pending := s.before }, s.woken)
  | q :: rest =>
    let r := tryAtomicSemop s.sma q.sops q.undo q.pid
    if r.1 = .block then .next { s with sma := r.2, before := s.before ++ [q], rest := rest }
    else if q.alter then .next ⟨r.2, [], s.before ++ rest, s.woken ++ [(q, r.1)]⟩
    else .next ⟨r.2, s.before, rest, s.woken ++ [(q, r.1)]⟩

def Scan.start (sma : SemArray) : Scan := ⟨sma, [], sma.pending, []⟩

def Scan.rank (s : Scan) : Nat :=
  (s.before.length + s.rest.length) * (s.before.length + s.rest.length + 1) + s.rest.length

def updateQueue (sma : SemArray) : SemArray :=
  ((runFor updateQueueStep ((Scan.start sma).rank + 1) (.start sma)).getD (sma, [])).1

inductive Errno where
  | EINVAL
  | E2BIG
  | EFBIG
  | EACCES
  | ERANGE
  | EAGAIN
  | EINTR
  deriving DecidableEq

/-- The caller gets an error or 0, or sleeps. -/
inductive Answer where
  | ok
  | error (e : Errno)
  | sleeps
  deriving DecidableEq

/-- A call of `semtimedop`, with the limit of its name space and what the access checks say. -/
structure SemCall where
  sops : List SemBuf
  ulp : Nat
  pid : Nat
  sleeper : Nat
  semopm : Nat
  permitted : Bool

def SemCall.alter (c : SemCall) : Bool := c.sops.any fun sop => sop.semOp != 0

def SemCall.undos (c : SemCall) : Bool := c.sops.any (·.undo)

def SemCall.un (c : SemCall) : Option Nat := if c.undos then some c.ulp else none

/-- `find_alloc_undo`, which has its own part under the lock. -/
def findAllocUndo (sma : SemArray) (ulp : Nat) : SemArray :=
  match sma.undos ulp with
  | some _ => sma
  | none => { sma with undos := update sma.undos ulp (some fun _ => 0) }

/-- The last part of `semtimedop` up to where it returns or sleeps. -/
def semtimedop (sma : SemArray) (c : SemCall) : Answer × SemArray :=
  if c.sops = [] then (.error .EINVAL, sma)
  else if c.semopm < c.sops.length then (.error .E2BIG, sma)
  else if c.sops.any (fun sop => sma.nsems ≤ sop.semNum) then (.error .EFBIG, sma)
  else if !c.permitted then (.error .EACCES, sma)
  else
    let r := tryAtomicSemop sma c.sops c.un c.pid
    match r.1 with
    | .done => (.ok, if c.alter then updateQueue r.2 else r.2)
    | .ERANGE => (.error .ERANGE, r.2)
    | .EAGAIN => (.error .EAGAIN, r.2)
    | .block =>
      let q : SemQueue := ⟨c.sleeper, c.sops, c.un, c.pid, c.alter⟩
      (.sleeps, { r.2 with pending := if c.alter then r.2.pending ++ [q] else q :: r.2.pending })

/-- A sleeper whose status is still `-EINTR` wakes up: its time is over or it was interrupted. -/
def wakeInterrupted (sma : SemArray) (sleeper : Nat) (timedOut : Bool) : Errno × SemArray :=
  (if timedOut then .EAGAIN else .EINTR,
    { sma with pending := sma.pending.filter fun q => q.sleeper != sleeper })

/-- `SETVAL` of `semctl_main`. -/
def setVal (sma : SemArray) (semnum val : Int) (pid : Nat) : Answer × SemArray :=
  if semnum < 0 ∨ sma.nsems ≤ semnum then (.error .EINVAL, sma)
  else if SEMVMX < val ∨ val < 0 then (.error .ERANGE, sma)
  else
    (.ok, updateQueue { sma with
      undos := fun u => (sma.undos u).map fun adj => update adj semnum.toNat 0
      semval := update sma.semval semnum.toNat val
      sempid := update sma.sempid semnum.toNat pid })

/-- `SETALL` of `semctl_main`, with the values of the user's array. -/
def setAll (sma : SemArray) (semIo : Nat → Nat) : Answer × SemArray :=
  if ∃ i < sma.nsems, SEMVMX < semIo i then (.error .ERANGE, sma)
  else
    (.ok, updateQueue { sma with
      semval := fun i => if i < sma.nsems then semIo i else sma.semval i
      undos := fun u => (sma.undos u).map fun adj i => if i < sma.nsems then 0 else adj i })

/-- One round of the loop of `exit_sem` over the array's semaphores. -/
def adjust (adj : Nat → Int16) (pid : Nat) (sma : SemArray) (i : Nat) : SemArray :=
  if adj i = 0 then sma
  else
    let semval := sma.semval i + (adj i).toInt
    let semval := if semval < 0 then 0 else semval
    let semval := if SEMVMX < semval then SEMVMX else semval
    { sma with
      semval := update sma.semval i semval
      sempid := update sma.sempid i pid }

/-- `exit_sem` on an array, for the undo list of the last task that uses it. -/
def exitSem (sma : SemArray) (ulp pid : Nat) : SemArray :=
  match sma.undos ulp with
  | none => sma
  | some adj =>
    let sma := { sma with undos := update sma.undos ulp none }
    updateQueue ((List.range sma.nsems).foldl (adjust adj pid) sma)

/-- What happens to the array under its lock. -/
inductive Event where
  | findAllocUndo (ulp : Nat)
  | semtimedop (c : SemCall)
  | wakeInterrupted (sleeper : Nat) (timedOut : Bool)
  | setVal (semnum val : Int) (pid : Nat)
  | setAll (semIo : Nat → Nat)
  | exitSem (ulp pid : Nat)

def SemArray.step (sma : SemArray) : Event → Option SemArray
  | .findAllocUndo ulp => some (Semaphores.findAllocUndo sma ulp)
  | .semtimedop c => some (Semaphores.semtimedop sma c).2
  | .wakeInterrupted sleeper timedOut => some (Semaphores.wakeInterrupted sma sleeper timedOut).2
  | .setVal semnum val pid => some (Semaphores.setVal sma semnum val pid).2
  | .setAll semIo => some (Semaphores.setAll sma semIo).2
  | .exitSem ulp pid => some (Semaphores.exitSem sma ulp pid)

open List

def total : List SemBuf → Nat → Int
  | [], _ => 0
  | sop :: sops, n => (if sop.semNum = n then sop.semOp else 0) + total sops n

theorem total_zero (h : ∀ sop ∈ sops, sop.semOp = 0) : total sops n = 0 := by
  induction sops with
  | nil => rfl
  | cons sop sops ih =>
    have hrest := ih fun s hs => h s (by simp [hs])
    simp [total, h sop (by simp), hrest]

theorem total_update (semval : Nat → Int) (sop : SemBuf) (sops : List SemBuf) (n : Nat) :
    update semval sop.semNum (semval sop.semNum + sop.semOp) n + total sops n =
      semval n + total (sop :: sops) n := by
  by_cases h : sop.semNum = n
  · subst h
    simp [total, Int.add_assoc]
  · simp [total, h, update_of_ne (Ne.symm h)]

/-- The operations in their order: no value left its range, and each wait for zero met a zero. -/
structure Performed (semval : Nat → Int) (sops : List SemBuf) (semval' : Nat → Int) : Prop where
  sum : ∀ n, semval' n = semval n + total sops n
  zero : ∀ pre sop post, sops = pre ++ sop :: post → sop.semOp = 0 →
    semval sop.semNum + total pre sop.semNum = 0
  range : ∀ pre sop post, sops = pre ++ sop :: post →
    0 ≤ semval sop.semNum + total (pre ++ [sop]) sop.semNum ∧
      semval sop.semNum + total (pre ++ [sop]) sop.semNum ≤ SEMVMX

/-- An operation has to wait for a semaphore of this value. -/
def SemBuf.Waits (sop : SemBuf) (v : Int) : Prop := (sop.semOp = 0 ∧ v ≠ 0) ∨ v + sop.semOp < 0

/-- An operation takes this value or the adjustment out of its range. -/
def SemBuf.Exceeds (sop : SemBuf) (v : Int) (adj : Int16) : Prop :=
  SEMVMX < v + sop.semOp ∨ sop.undo = true ∧
    (adj.toInt - sop.semOp < -SEMAEM - 1 ∨ SEMAEM < adj.toInt - sop.semOp)

theorem applyOps_cons (semadj : Nat → Int16) (semval : Nat → Int) (done : List SemBuf)
    (sop : SemBuf) (sops : List SemBuf) :
    (sop.Waits (semval sop.semNum) ∧
      applyOps semadj semval done (sop :: sops) = .wouldBlock semval done sop) ∨
    (¬ sop.Waits (semval sop.semNum) ∧ sop.Exceeds (semval sop.semNum) (semadj sop.semNum) ∧
      applyOps semadj semval done (sop :: sops) = .outOfRange semval done) ∨
    (sop.semOp = 0 → semval sop.semNum = 0) ∧ 0 ≤ semval sop.semNum + sop.semOp ∧
      semval sop.semNum + sop.semOp ≤ SEMVMX ∧
      (sop.undo = true → -SEMAEM - 1 ≤ (semadj sop.semNum).toInt - sop.semOp ∧
        (semadj sop.semNum).toInt - sop.semOp ≤ SEMAEM) ∧
      applyOps semadj semval done (sop :: sops) = applyOps semadj
        (update semval sop.semNum (semval sop.semNum + sop.semOp)) (sop :: done) sops := by
  rw [applyOps]
  by_cases hz : sop.semOp = 0 ∧ semval sop.semNum ≠ 0
  · exact .inl ⟨.inl hz, if_pos hz⟩
  simp only [if_neg hz]
  by_cases hneg : semval sop.semNum + sop.semOp < 0
  · exact .inl ⟨.inr hneg, if_pos hneg⟩
  have hwait : ¬ sop.Waits (semval sop.semNum) := not_or.mpr ⟨hz, hneg⟩
  simp only [if_neg hneg]
  by_cases hmax : SEMVMX < semval sop.semNum + sop.semOp
  · exact .inr (.inl ⟨hwait, .inl hmax, if_pos hmax⟩)
  simp only [if_neg hmax]
  split
  next hundo => exact .inr (.inl ⟨hwait, .inr hundo, rfl⟩)
  next hundo =>
    refine .inr (.inr ⟨fun h0 => ?_, by omega, by omega, fun hu => ?_, rfl⟩)
    · exact Classical.byContradiction fun hne => hz ⟨h0, hne⟩
    · simpa only [hu, true_and, not_or, Int.not_lt] using hundo

theorem takeBack_applyOps (semadj : Nat → Int16) (sops : List SemBuf)
    (h : takeBack semval done = orig) :
    (∀ v d, applyOps semadj semval done sops = .outOfRange v d → takeBack v d = orig) ∧
      ∀ v d s, applyOps semadj semval done sops = .wouldBlock v d s → takeBack v d = orig := by
  induction sops generalizing semval done with
  | nil => exact ⟨nofun, nofun⟩
  | cons sop sops ih =>
    rcases applyOps_cons semadj semval done sop sops with
      ⟨-, he⟩ | ⟨-, -, he⟩ | ⟨-, -, -, -, he⟩
    · rw [he]
      exact ⟨nofun, fun v d s heq => by cases heq; exact h⟩
    · rw [he]
      exact ⟨fun v d heq => by cases heq; exact h, nofun⟩
    · rw [he]
      refine ih ?_
      rw [takeBack, ← h]
      simp

theorem applyOps_all (h : applyOps semadj semval done sops = .all v) : Performed semval sops v := by
  induction sops generalizing semval done with
  | nil =>
    cases h
    exact ⟨fun n => by simp [total], fun pre _ _ he => by simp at he,
      fun pre _ _ he => by simp at he⟩
  | cons sop sops ih =>
    rcases applyOps_cons semadj semval done sop sops with
      ⟨-, he⟩ | ⟨-, -, he⟩ | ⟨hz, hlo, hhi, -, he⟩
    · rw [he] at h
      cases h
    · rw [he] at h
      cases h
    · rw [he] at h
      have hrest := ih h
      refine ⟨fun n => (hrest.sum n).trans (total_update semval sop sops n), ?_, ?_⟩
      · intro pre s post heq hs
        cases pre with
        | nil =>
          obtain ⟨rfl, rfl⟩ := cons.inj heq
          simpa [total] using hz hs
        | cons p pre =>
          obtain ⟨rfl, rfl⟩ := cons.inj heq
          rw [← total_update]
          exact hrest.zero pre s post rfl hs
      · intro pre s post heq
        cases pre with
        | nil =>
          obtain ⟨rfl, rfl⟩ := cons.inj heq
          simpa [total] using ⟨hlo, hhi⟩
        | cons p pre =>
          obtain ⟨rfl, rfl⟩ := cons.inj heq
          rw [List.cons_append, ← total_update]
          exact hrest.range pre s post rfl

theorem applyOps_range (h : applyOps semadj semval done sops = .all v)
    (hr : 0 ≤ semval n ∧ semval n ≤ SEMVMX) : 0 ≤ v n ∧ v n ≤ SEMVMX := by
  induction sops generalizing semval done with
  | nil =>
    cases h
    exact hr
  | cons sop sops ih =>
    rcases applyOps_cons semadj semval done sop sops with
      ⟨-, he⟩ | ⟨-, -, he⟩ | ⟨-, hlo, hhi, -, he⟩
    · rw [he] at h
      cases h
    · rw [he] at h
      cases h
    · rw [he] at h
      refine ih h ?_
      by_cases hn : n = sop.semNum
      · subst hn
        simpa using ⟨hlo, hhi⟩
      · simpa [update_of_ne hn] using hr

theorem tryAtomicSemop_fails (h : (tryAtomicSemop sma sops un pid).1 ≠ .done) :
    (tryAtomicSemop sma sops un pid).2 = sma := by
  have hback := takeBack_applyOps (sma.semadj un) sops (rfl : takeBack sma.semval [] = sma.semval)
  unfold tryAtomicSemop at h ⊢
  cases hp : applyOps (sma.semadj un) sma.semval [] sops with
  | all v => simp [hp] at h
  | outOfRange v d => exact congrArg (fun v => { sma with semval := v }) (hback.1 v d hp)
  | wouldBlock v d s => exact congrArg (fun v => { sma with semval := v }) (hback.2 v d s hp)

theorem tryAtomicSemop_done (h : (tryAtomicSemop sma sops un pid).1 = .done) :
    applyOps (sma.semadj un) sma.semval [] sops =
      .all (tryAtomicSemop sma sops un pid).2.semval := by
  unfold tryAtomicSemop at h ⊢
  cases hp : applyOps (sma.semadj un) sma.semval [] sops with
  | all v => rfl
  | outOfRange v d => simp [hp] at h
  | wouldBlock v d s =>
    rw [hp] at h
    dsimp only at h
    split at h <;> cases h

theorem tryAtomicSemop_congr (hv : sma.semval = sma'.semval) (ha : sma.semadj un = sma'.semadj un) :
    (tryAtomicSemop sma sops un pid).1 = (tryAtomicSemop sma' sops un pid).1 := by
  unfold tryAtomicSemop
  rw [hv, ha]
  split <;> rfl

theorem settle_zero (pid : Nat) (sempid : Nat → Nat) (semadj : Nat → Int16)
    (h : ∀ sop ∈ sops, sop.semOp = 0) :
    (settle pid sempid semadj sops).2 = semadj := by
  induction sops generalizing sempid semadj with
  | nil => rfl
  | cons sop sops ih =>
    rw [settle, ih _ _ fun s hs => h s (by simp [hs])]
    split
    · simp [h sop (by simp)]
    · rfl

theorem tryAtomicSemop_zero (h : ∀ sop ∈ sops, sop.semOp = 0) :
    (tryAtomicSemop sma sops un pid).2.semval = sma.semval ∧
      ∀ un', (tryAtomicSemop sma sops un pid).2.semadj un' = sma.semadj un' := by
  by_cases hd : (tryAtomicSemop sma sops un pid).1 = .done
  · have hall := tryAtomicSemop_done hd
    refine ⟨funext fun n => ?_, fun un' => ?_⟩
    · rw [(applyOps_all hall).sum n, total_zero h, Int.add_zero]
    · have hset := settle_zero pid sma.sempid (sma.semadj un) fun s hs =>
        h s (mem_reverse.mp hs)
      unfold tryAtomicSemop
      rw [hall]
      cases un with
      | none => rfl
      | some u =>
        cases un' with
        | none => rfl
        | some u' =>
          by_cases hu : u' = u
          · subst hu
            simpa [SemArray.semadj] using hset
          · simp [SemArray.semadj, update_of_ne hu]
  · rw [tryAtomicSemop_fails hd]
    exact ⟨rfl, fun _ => rfl⟩

open Option

def undone (sops : List SemBuf) : List SemBuf := sops.filter (·.undo)

/-- No semaphore is named twice with `SEM_UNDO`. -/
def Single (sops : List SemBuf) : Prop := ((undone sops).map (·.semNum)).Nodup

/-- The successful calls of the process with the undo list `ulp`, among other changes. -/
inductive History (ulp : Nat) : List (List SemBuf) → SemArray → Prop where
  | start (h : ∀ n, sma.semadj (some ulp) n = 0) : History ulp [] sma
  | call (h : History ulp calls sma) (hr : tryAtomicSemop sma sops (some ulp) pid = (.done, sma')) :
      History ulp (calls ++ [sops]) sma'
  | others (h : History ulp calls sma) (hu : sma'.undos ulp = sma.undos ulp) :
      History ulp calls sma'

theorem total_append (as bs : List SemBuf) (n : Nat) :
    total (as ++ bs) n = total as n + total bs n := by
  induction as with
  | nil => simp [total]
  | cons a as ih => rw [List.cons_append, total, total, ih, Int.add_assoc]

theorem total_reverse (sops : List SemBuf) (n : Nat) : total sops.reverse n = total sops n := by
  induction sops with
  | nil => rfl
  | cons sop sops ih =>
    rw [reverse_cons, total_append]
    simp only [total]
    omega

theorem total_absent (h : n ∉ sops.map (·.semNum)) : total sops n = 0 := by
  induction sops with
  | nil => rfl
  | cons sop sops ih =>
    simp only [map_cons, mem_cons, not_or] at h
    rw [total, if_neg (Ne.symm h.1), ih h.2]
    rfl

theorem total_nodup (h : (sops.map (·.semNum)).Nodup) :
    total sops n = 0 ∨ ∃ sop ∈ sops, sop.semNum = n ∧ total sops n = sop.semOp := by
  induction sops with
  | nil => exact .inl rfl
  | cons sop sops ih =>
    obtain ⟨hnot, hrest⟩ := nodup_cons.mp h
    rw [total]
    by_cases hn : sop.semNum = n
    · subst hn
      refine .inr ⟨sop, by simp, rfl, ?_⟩
      rw [if_pos rfl, total_absent hnot, Int.add_zero]
    · rw [if_neg hn, Int.zero_add]
      rcases ih hrest with h0 | ⟨s, hs, hsn, ht⟩
      · exact .inl h0
      · exact .inr ⟨s, by simp [hs], hsn, ht⟩

theorem settle_semadj (pid : Nat) (sempid : Nat → Nat) (semadj : Nat → Int16) (sops : List SemBuf)
    (n : Nat) :
    (settle pid sempid semadj sops).2 n = semadj n - Int16.ofInt (total (undone sops) n) := by
  induction sops generalizing sempid semadj with
  | nil => simp [settle, undone, total]
  | cons sop sops ih =>
    rw [settle, ih]
    cases hu : sop.undo with
    | false => simp [undone, hu]
    | true =>
      have hcons : undone (sop :: sops) = sop :: undone sops := by simp [undone, hu]
      rw [hcons, total]
      by_cases hn : sop.semNum = n
      · subst hn
        simp [Int16.sub_sub]
      · simp [hn, Function.update_of_ne (Ne.symm hn)]

theorem applyOps_undo (h : applyOps semadj semval done sops = .all v) :
    ∀ sop ∈ undone sops, -SEMAEM - 1 ≤ (semadj sop.semNum).toInt - sop.semOp ∧
      (semadj sop.semNum).toInt - sop.semOp ≤ SEMAEM := by
  induction sops generalizing semval done with
  | nil => nofun
  | cons sop sops ih =>
    rcases applyOps_cons semadj semval done sop sops with
      ⟨-, he⟩ | ⟨-, -, he⟩ | ⟨-, -, -, hundo, he⟩
    · rw [he] at h
      cases h
    · rw [he] at h
      cases h
    · rw [he] at h
      intro s hs
      obtain ⟨hmem, hu⟩ := mem_filter.mp hs
      rcases mem_cons.mp hmem with rfl | hmem
      · exact hundo hu
      · exact ih h s (mem_filter.mpr ⟨hmem, hu⟩)

/-- Each operation that has to wait comes behind one that leaves a range. -/
def WaitsBehind (semadj : Nat → Int16) (semval : Nat → Int) (sops : List SemBuf) : Prop :=
  ∀ pre sop post, sops = pre ++ sop :: post →
    sop.Waits (semval sop.semNum + total pre sop.semNum) →
      ∃ pre' sop' post', pre = pre' ++ sop' :: post' ∧
        sop'.Exceeds (semval sop'.semNum + total pre' sop'.semNum) (semadj sop'.semNum)

theorem waitsBehind_cons (hwait : ¬ sop.Waits (semval sop.semNum))
    (hin : ¬ sop.Exceeds (semval sop.semNum) (semadj sop.semNum)) :
    WaitsBehind semadj semval (sop :: sops) ↔
      WaitsBehind semadj (update semval sop.semNum (semval sop.semNum + sop.semOp)) sops := by
  constructor
  · rintro h pre s post rfl hs
    rw [total_update] at hs
    obtain ⟨pre', s', post', heq, hs'⟩ := h (sop :: pre) s post rfl hs
    cases pre' with
    | nil =>
      obtain ⟨rfl, -⟩ := cons.inj heq
      exact absurd (by simpa [total] using hs') hin
    | cons p pre' =>
      obtain ⟨rfl, rfl⟩ := cons.inj heq
      exact ⟨pre', s', post', rfl, by rwa [total_update]⟩
  · intro h pre s post heq hs
    cases pre with
    | nil =>
      obtain ⟨rfl, -⟩ := cons.inj heq
      exact absurd (by simpa [total] using hs) hwait
    | cons p pre =>
      obtain ⟨rfl, rfl⟩ := cons.inj heq
      rw [← total_update] at hs
      obtain ⟨pre', s', post', rfl, hs'⟩ := h pre s post rfl hs
      exact ⟨sop :: pre', s', post', rfl, by rwa [← total_update]⟩

theorem applyOps_waits_iff (semadj : Nat → Int16) (semval : Nat → Int) (done sops : List SemBuf) :
    (∀ v d s, applyOps semadj semval done sops ≠ .wouldBlock v d s) ↔
      WaitsBehind semadj semval sops := by
  induction sops generalizing semval done with
  | nil => exact iff_of_true nofun fun pre _ _ heq => by simp at heq
  | cons sop sops ih =>
    rcases applyOps_cons semadj semval done sop sops with
      ⟨hwait, he⟩ | ⟨hwait, hout, he⟩ | ⟨hz, hlo, hhi, hundo, he⟩
    · refine iff_of_false (fun h => h _ _ _ he) fun h => ?_
      obtain ⟨pre, _, _, heq, -⟩ := h [] sop sops rfl (by simpa [total] using hwait)
      simp at heq
    · rw [he]
      refine iff_of_true nofun fun pre s post heq hs => ?_
      cases pre with
      | nil =>
        obtain ⟨rfl, -⟩ := cons.inj heq
        exact absurd (by simpa [total] using hs) hwait
      | cons p pre =>
        obtain ⟨rfl, -⟩ := cons.inj heq
        exact ⟨[], sop, pre, rfl, by simpa [total] using hout⟩
    · rw [he, ih, waitsBehind_cons]
      · rintro (⟨h0, hne⟩ | hneg)
        · exact hne (hz h0)
        · omega
      · rintro (hmax | ⟨hu, hout⟩)
        · omega
        · have hin := hundo hu
          omega

def adjusted (sma : SemArray) (ulp : Nat) (sops : List SemBuf) (n : Nat) : Int :=
  (sma.semadj (some ulp) n).toInt - total (undone sops) n

theorem adjusted_range (hs : Single sops) (h : (tryAtomicSemop sma sops (some ulp) pid).1 = .done) :
    -SEMAEM - 1 ≤ adjusted sma ulp sops n ∧ adjusted sma ulp sops n ≤ SEMAEM := by
  have hundo := applyOps_undo (tryAtomicSemop_done h)
  have hlo := Int16.le_toInt (sma.semadj (some ulp) n)
  have hhi := Int16.toInt_lt (sma.semadj (some ulp) n)
  rw [adjusted]
  rcases total_nodup (n := n) hs with h0 | ⟨sop, hsop, rfl, ht⟩
  · rw [SEMAEM, SEMVMX]
    omega
  · rw [ht]
    exact hundo sop hsop

theorem semadj_call (hs : Single sops)
    (h : tryAtomicSemop sma sops (some ulp) pid = (.done, sma')) (n : Nat) :
    (sma'.semadj (some ulp) n).toInt = adjusted sma ulp sops n := by
  have hdone : (tryAtomicSemop sma sops (some ulp) pid).1 = .done := by rw [h]
  have hrange := adjusted_range (n := n) hs hdone
  have hundos : sma'.semadj (some ulp) n = sma.semadj (some ulp) n -
      Int16.ofInt (total (undone sops) n) := by
    have hrev : undone sops.reverse = (undone sops).reverse := filter_reverse
    rw [tryAtomicSemop, tryAtomicSemop_done hdone] at h
    cases h
    simp only [SemArray.semadj, bind_some, Function.update_self, getD_some]
    rw [settle_semadj, hrev, total_reverse]
  have hsub : Int16.ofInt (adjusted sma ulp sops n) = sma.semadj (some ulp) n -
      Int16.ofInt (total (undone sops) n) := by
    rw [adjusted, Int16.ofInt_sub, Int16.ofInt_toInt]
  rw [hundos, ← hsub]
  apply Int16.toInt_ofInt_of_le
  · exact hrange.1
  · exact Int.lt_of_le_of_lt hrange.2 (by decide)

theorem History.exact (h : History ulp calls sma) (hs : ∀ sops ∈ calls, Single sops) (n : Nat) :
    (sma.semadj (some ulp) n).toInt = -total (undone calls.flatten) n := by
  induction h with
  | start h => simp [h, undone, total]
  | @call calls sma sops pid sma' h hr ih =>
    have hprev := ih fun s hmem => hs s (by simp [hmem])
    have happend : undone (calls.flatten ++ sops) = undone calls.flatten ++ undone sops :=
      filter_append _ _
    rw [semadj_call (hs sops (by simp)) hr, adjusted, flatten_concat, happend, total_append]
    omega
  | others h hu ih =>
    rw [SemArray.semadj, bind_some, hu]
    exact ih hs

theorem semop_undo_exact (h : History ulp calls sma) (hs : ∀ sops ∈ calls, Single sops) :
    (∀ n, (sma.semadj (some ulp) n).toInt = -total (undone calls.flatten) n ∧
      -SEMAEM - 1 ≤ -total (undone calls.flatten) n ∧
      -total (undone calls.flatten) n ≤ SEMAEM) ∧
    ∀ sops pid n, Single sops →
      (adjusted sma ulp sops n < -SEMAEM - 1 ∨ SEMAEM < adjusted sma ulp sops n) →
      (tryAtomicSemop sma sops (some ulp) pid).1 ≠ .done ∧
        (tryAtomicSemop sma sops (some ulp) pid = (.ERANGE, sma) ↔
          WaitsBehind (sma.semadj (some ulp)) sma.semval sops) := by
  refine ⟨fun n => ?_, fun sops pid n hone hout => ?_⟩
  · have heq := h.exact hs n
    have hlo := Int16.le_toInt (sma.semadj (some ulp) n)
    have hhi := Int16.toInt_lt (sma.semadj (some ulp) n)
    rw [SEMAEM, SEMVMX]
    omega
  · have hnot : (tryAtomicSemop sma sops (some ulp) pid).1 ≠ .done := by
      intro hdone
      have hrange := adjusted_range (n := n) hone hdone
      omega
    refine ⟨hnot, ?_⟩
    rw [← applyOps_waits_iff _ _ [], Prod.ext_iff, and_iff_left (tryAtomicSemop_fails hnot)]
    rw [tryAtomicSemop] at hnot ⊢
    cases hp : applyOps (sma.semadj (some ulp)) sma.semval [] sops with
    | all v => simp [hp] at hnot
    | outOfRange v d => exact iff_of_true rfl nofun
    | wouldBlock v d sop =>
      refine iff_of_false ?_ fun h => h v d sop rfl
      dsimp only
      split <;> nofun

def unused : SemArray := ⟨1, fun _ => 0, fun _ => 0, fun _ => some fun _ => 0, []⟩

/-- After an operation with `SEM_UNDO` one more of the greatest size is refused. -/
theorem semop_undo_exact_post :
    let sma := (tryAtomicSemop unused [⟨0, 5, false, true⟩] (some 3) 7).2
    (sma.semadj (some 3) 0).toInt = -5 ∧
      (tryAtomicSemop sma [⟨0, 32767, false, true⟩] (some 3) 7).1 ≠ .done := by
  have hstart : History 3 [] unused := .start fun _ => rfl
  have hcall : History 3 ([] ++ [[⟨0, 5, false, true⟩]])
      (tryAtomicSemop unused [⟨0, 5, false, true⟩] (some 3) 7).2 :=
    .call hstart rfl
  have h := semop_undo_exact hcall (by simp [Single, undone])
  exact ⟨(h.1 0).1, (h.2 [⟨0, 32767, false, true⟩] 7 0 (by simp [Single, undone]) (by decide)).1⟩

/-- Two undone operations with one between them that is not. -/
theorem semop_undo_wraps :
    let sops : List SemBuf := [⟨0, 20000, false, true⟩, ⟨0, -20000, false, false⟩,
      ⟨0, 20000, false, true⟩]
    (tryAtomicSemop unused sops (some 3) 7).1 = .done ∧
      ((tryAtomicSemop unused sops (some 3) 7).2.semadj (some 3) 0).toInt = 25536 ∧
      -total (undone sops) 0 = -40000 := by
  decide

def SemArray.InRange (sma : SemArray) : Prop :=
  ∀ n < sma.nsems, 0 ≤ sma.semval n ∧ sma.semval n ≤ SEMVMX

def SemArray.Blocked (sma : SemArray) (q : SemQueue) : Prop :=
  (tryAtomicSemop sma q.sops q.undo q.pid).1 = .block

def SemQueue.Marked (q : SemQueue) : Prop := q.alter = false → ∀ sop ∈ q.sops, sop.semOp = 0

theorem tryAtomicSemop_nsems (sma : SemArray) :
    (tryAtomicSemop sma sops un pid).2.nsems = sma.nsems := by
  unfold tryAtomicSemop
  split <;> rfl

theorem SemArray.InRange.attempt (h : sma.InRange) :
    (tryAtomicSemop sma sops un pid).2.InRange := by
  by_cases hd : (tryAtomicSemop sma sops un pid).1 = .done
  · intro n hn
    rw [tryAtomicSemop_nsems] at hn
    exact applyOps_range (tryAtomicSemop_done hd) (h n hn)
  · rw [tryAtomicSemop_fails hd]
    exact h

def SemArray.Alike (sma sma' : SemArray) : Prop :=
  sma'.semval = sma.semval ∧ ∀ un, sma'.semadj un = sma.semadj un

theorem SemArray.Alike.blocked {sma sma' : SemArray} (h : sma.Alike sma') (hb : sma.Blocked q) :
    sma'.Blocked q :=
  (tryAtomicSemop_congr h.1 (h.2 q.undo)).trans hb

structure Scanning (sma : SemArray) (s : Scan) : Prop where
  perm : (s.woken.map Prod.fst ++ (s.before ++ s.rest)).Perm sma.pending
  stuck : (∀ q ∈ sma.pending, q.Marked) → ∀ q ∈ s.before, s.sma.Blocked q
  range : sma.InRange → s.sma.InRange

theorem Scanning.start (sma : SemArray) : Scanning sma (.start sma) :=
  ⟨by simp [Scan.start], nofun, id⟩

theorem rank_completed (h : before'.length + rest'.length = before.length + rest.length) :
    Scan.rank ⟨sma', before', rest', woken'⟩ < Scan.rank ⟨sma, before, q :: rest, woken⟩ := by
  simp only [Scan.rank, length_cons]
  generalize hm : before.length + rest.length = m at h
  have hq : before.length + (rest.length + 1) = m + 1 := by omega
  have hsq : (m + 1) * (m + 1 + 1) = m * (m + 1) + 2 * (m + 1) := by
    rw [Nat.mul_comm, Nat.add_assoc, Nat.add_mul]
  rw [h, hq]
  omega

theorem Scanning.step (h : Scanning sma s) (he : updateQueueStep s = .next s') :
    Scanning sma s' ∧ s'.rank < s.rank := by
  obtain ⟨cur, before, rest, woken⟩ := s
  cases rest with
  | nil => cases he
  | cons q rest =>
    have hperm := h.perm
    have hq : q ∈ sma.pending := hperm.subset (by simp)
    simp only [updateQueueStep] at he
    split at he
    next hb =>
      obtain rfl := Turn.next.inj he
      have hsame : (tryAtomicSemop cur q.sops q.undo q.pid).2 = cur :=
        tryAtomicSemop_fails (by rw [hb]; nofun)
      rw [hsame]
      refine ⟨⟨by simpa using hperm, fun hm q' hq' => ?_, h.range⟩, ?_⟩
      · rcases mem_append.mp hq' with hq' | hq'
        · exact h.stuck hm q' hq'
        · obtain rfl := mem_singleton.mp hq'
          exact hb
      · simp only [Scan.rank, length_append, length_cons, length_nil, Nat.add_assoc, Nat.add_comm 1]
        omega
    next hb =>
      -- in both cases `q` moves from the queue to the woken
      have hmoved : ((woken ++ [(q, (tryAtomicSemop cur q.sops q.undo q.pid).1)]).map Prod.fst ++
          (before ++ rest)).Perm sma.pending := by
        refine Perm.trans ?_ hperm
        simp only [map_append, map_cons, map_nil, List.append_assoc, singleton_append]
        exact perm_middle.symm.append_left _
      split at he
      next ha =>
        obtain rfl := Turn.next.inj he
        exact ⟨⟨by simpa using hmoved, nofun, fun hr => (h.range hr).attempt⟩,
          rank_completed (by simp)⟩
      next ha =>
        obtain rfl := Turn.next.inj he
        refine ⟨⟨hmoved, fun hm q' hq' => ?_, fun hr => (h.range hr).attempt⟩, rank_completed rfl⟩
        have halike : cur.Alike (tryAtomicSemop cur q.sops q.undo q.pid).2 :=
          tryAtomicSemop_zero (hm q hq (by simpa using ha))
        exact halike.blocked (h.stuck hm q' hq')

structure Scanned (sma : SemArray) (r : SemArray × List (SemQueue × Result)) : Prop where
  perm : (r.2.map Prod.fst ++ r.1.pending).Perm sma.pending
  stuck : (∀ q ∈ sma.pending, q.Marked) → ∀ q ∈ r.1.pending, r.1.Blocked q
  range : sma.InRange → r.1.InRange

theorem Scanning.stop (h : Scanning sma s) (he : updateQueueStep s = .stop r) : Scanned sma r := by
  obtain ⟨cur, before, rest, woken⟩ := s
  cases rest with
  | nil =>
    obtain rfl := Turn.stop.inj he
    have halike : cur.Alike { cur with pending := before } := ⟨rfl, fun _ => rfl⟩
    exact ⟨by simpa using h.perm, fun hm q hq => halike.blocked (h.stuck hm q hq), h.range⟩
  | cons q rest =>
    simp only [updateQueueStep] at he
    split at he
    · cases he
    · split at he <;> cases he

theorem updateQueue_stops (sma : SemArray) : ∃ r,
    runFor updateQueueStep ((Scan.start sma).rank + 1) (.start sma) = some r ∧
      updateQueue sma = r.1 ∧ Scanned sma r := by
  obtain ⟨r, hrun, h⟩ := runFor_stops (Scanning sma) Scan.rank Scanning.step Scanning.stop
    (.start sma) (Nat.lt_succ_self _)
  exact ⟨r, hrun, by rw [updateQueue, hrun]; rfl, h⟩

theorem updateQueue_spec (sma : SemArray) : (updateQueue sma).pending ⊆ sma.pending ∧
    ((∀ q ∈ sma.pending, q.Marked) → ∀ q ∈ (updateQueue sma).pending, (updateQueue sma).Blocked q) ∧
    (sma.InRange → (updateQueue sma).InRange) := by
  obtain ⟨r, -, heq, h⟩ := updateQueue_stops sma
  rw [heq]
  exact ⟨fun q hq => h.perm.subset (by simp [hq]), h.stuck, h.range⟩

theorem adjust_range (h : sma.InRange) : (adjust adj pid sma i).InRange := by
  unfold adjust
  split
  · exact h
  · intro n hn
    by_cases hi : n = i
    · subst hi
      simp only [update_self]
      have : (0 : Int) ≤ SEMVMX := by decide
      split <;> split <;> omega
    · simpa [update_of_ne hi] using h n hn

theorem foldl_adjust_range {l : List Nat} (h : sma.InRange) :
    (l.foldl (adjust adj pid) sma).InRange := by
  induction l generalizing sma with
  | nil => exact h
  | cons i l ih => exact ih (adjust_range h)

theorem findAllocUndo_range (h : sma.InRange) : (findAllocUndo sma ulp).InRange := by
  unfold findAllocUndo
  split
  · exact h
  · exact h

theorem semtimedop_range (h : sma.InRange) : (semtimedop sma c).2.InRange := by
  simp only [semtimedop]
  split
  · exact h
  split
  · exact h
  split
  · exact h
  split
  · exact h
  have hr : (tryAtomicSemop sma c.sops c.un c.pid).2.InRange := h.attempt
  split
  · dsimp only
    split
    · exact (updateQueue_spec _).2.2 hr
    · exact hr
  · exact hr
  · exact hr
  · exact hr

theorem setVal_range (h : sma.InRange) : (setVal sma semnum val pid).2.InRange := by
  unfold setVal
  split
  · exact h
  split
  · exact h
  next hval =>
    refine (updateQueue_spec _).2.2 fun n hn => ?_
    by_cases hi : n = semnum.toNat
    · subst hi
      simp only [update_self]
      omega
    · simpa [update_of_ne hi] using h n hn

theorem setAll_range (h : sma.InRange) : (setAll sma semIo).2.InRange := by
  unfold setAll
  split
  · exact h
  next hval =>
    refine (updateQueue_spec _).2.2 fun n hn => ?_
    simp only [if_pos hn]
    refine ⟨by omega, Int.not_lt.mp fun hlt => hval ⟨n, hn, hlt⟩⟩

theorem exitSem_range (h : sma.InRange) : (exitSem sma ulp pid).InRange := by
  unfold exitSem
  split
  · exact h
  next adj _ =>
    refine (updateQueue_spec _).2.2 (foldl_adjust_range ?_)
    exact h

theorem SemArray.InRange.step {sma : SemArray} (h : sma.InRange) (he : sma.step e = some sma') :
    sma'.InRange := by
  cases e with
  | findAllocUndo ulp =>
    obtain rfl := some.inj he
    exact findAllocUndo_range h
  | semtimedop c =>
    obtain rfl := some.inj he
    exact semtimedop_range h
  | wakeInterrupted sleeper timedOut =>
    obtain rfl := some.inj he
    exact h
  | setVal semnum val pid =>
    obtain rfl := some.inj he
    exact setVal_range h
  | setAll semIo =>
    obtain rfl := some.inj he
    exact setAll_range h
  | exitSem ulp pid =>
    obtain rfl := some.inj he
    exact exitSem_range h

theorem semop_atomic : (∀ (sma : SemArray) (sops : List SemBuf) (un : Option Nat) (pid : Nat),
      ((tryAtomicSemop sma sops un pid).1 ≠ .done → (tryAtomicSemop sma sops un pid).2 = sma) ∧
      ((tryAtomicSemop sma sops un pid).1 = .done →
        Performed sma.semval sops (tryAtomicSemop sma sops un pid).2.semval)) ∧
    ∀ (sma sma' : SemArray) (es : List Event), sma.InRange →
      Run (fun _ _ => True) SemArray.step sma es sma' → sma'.InRange := by
  refine ⟨fun sma sops un pid => ⟨tryAtomicSemop_fails, fun hd => applyOps_all
    (tryAtomicSemop_done hd)⟩, fun sma sma' es h hrun => ?_⟩
  exact hrun.invariant (fun {_ _ _} (h : SemArray.InRange _) _ he => h.step he) h

def pair : SemArray := ⟨2, fun n => if n = 0 then 1 else 0, fun _ => 0, fun _ => none, []⟩

def takeFirst : SemCall := ⟨[⟨0, -1, false, false⟩, ⟨1, 1, false, false⟩], 0, 7, 3, 32, true⟩

def takeSecond : SemCall := ⟨[⟨1, -1, false, false⟩], 0, 7, 3, 32, true⟩

theorem semop_atomic_pair :
    Performed pair.semval takeFirst.sops (tryAtomicSemop pair takeFirst.sops none 7).2.semval ∧
      (semtimedop pair takeFirst).2.InRange :=
  ⟨(semop_atomic.1 pair takeFirst.sops none 7).2 (by decide),
    semop_atomic.2 pair _ [.semtimedop takeFirst] (by unfold SemArray.InRange; decide)
      (.cons trivial rfl (.nil _))⟩

structure Settled (sma : SemArray) : Prop where
  marked : ∀ q ∈ sma.pending, q.Marked
  blocked : ∀ q ∈ sma.pending, sma.Blocked q

theorem Settled.of_updateQueue (h : ∀ q ∈ sma.pending, q.Marked) : Settled (updateQueue sma) :=
  ⟨fun q hq => h q ((updateQueue_spec sma).1 hq), (updateQueue_spec sma).2.1 h⟩

theorem Settled.alike (h : Settled sma) (ha : sma.Alike sma') (hq : sma'.pending ⊆ sma.pending) :
    Settled sma' :=
  ⟨fun q hq' => h.marked q (hq hq'), fun q hq' => ha.blocked (h.blocked q (hq hq'))⟩

theorem Settled.enqueue (h : Settled sma) (hm : q.Marked) (hb : sma.Blocked q)
    (hp : ∀ q' ∈ pending, q' = q ∨ q' ∈ sma.pending) : Settled { sma with pending := pending } := by
  have halike : sma.Alike { sma with pending := pending } := ⟨rfl, fun _ => rfl⟩
  refine ⟨fun q' hq' => ?_, fun q' hq' => halike.blocked ?_⟩
  · rcases hp q' hq' with rfl | hq'
    · exact hm
    · exact h.marked q' hq'
  · rcases hp q' hq' with rfl | hq'
    · exact hb
    · exact h.blocked q' hq'

theorem foldl_adjust_pending {l : List Nat} :
    (l.foldl (adjust adj pid) sma).pending = sma.pending := by
  induction l generalizing sma with
  | nil => rfl
  | cons i l ih =>
    rw [foldl_cons, ih, adjust]
    split <;> rfl

theorem SemCall.marked (c : SemCall) :
    SemQueue.Marked ⟨c.sleeper, c.sops, c.un, c.pid, c.alter⟩ := by
  intro ha sop hs
  simpa using List.any_eq_false.mp ha sop hs

theorem findAllocUndo_alike (sma : SemArray) (ulp : Nat) : sma.Alike (findAllocUndo sma ulp) := by
  unfold findAllocUndo
  split
  · exact ⟨rfl, fun _ => rfl⟩
  next hu =>
    refine ⟨rfl, fun un => ?_⟩
    cases un with
    | none => rfl
    | some u =>
      -- a new undo structure has the adjustments that a missing one stands for
      by_cases h : u = ulp
      · subst h
        simp [SemArray.semadj, hu]
      · simp [SemArray.semadj, update_of_ne h]

theorem findAllocUndo_pending : (findAllocUndo sma ulp).pending = sma.pending := by
  unfold findAllocUndo
  split <;> rfl

theorem tryAtomicSemop_pending : (tryAtomicSemop sma sops un pid).2.pending = sma.pending := by
  unfold tryAtomicSemop
  split <;> rfl

theorem Settled.semtimedop (h : Settled sma) : Settled (semtimedop sma c).2 := by
  simp only [Semaphores.semtimedop]
  split
  · exact h
  split
  · exact h
  split
  · exact h
  split
  · exact h
  have hsame : (tryAtomicSemop sma c.sops c.un c.pid).1 ≠ .done →
      (tryAtomicSemop sma c.sops c.un c.pid).2 = sma := tryAtomicSemop_fails
  have hpend : (tryAtomicSemop sma c.sops c.un c.pid).2.pending = sma.pending :=
    tryAtomicSemop_pending
  split
  next hr =>
    split
    · exact .of_updateQueue (by rw [hpend]; exact h.marked)
    next ha =>
      refine h.alike (tryAtomicSemop_zero fun sop hs => ?_) (by rw [hpend]; exact Subset.refl _)
      exact c.marked (by simpa using ha) sop hs
  next hr =>
    rw [hsame (by rw [hr]; nofun)]
    exact h
  next hr =>
    rw [hsame (by rw [hr]; nofun)]
    exact h
  next hr =>
    rw [hsame (by rw [hr]; nofun)]
    refine h.enqueue c.marked hr fun q' hq' => ?_
    split at hq'
    · simpa [or_comm] using hq'
    · simpa using hq'

theorem Settled.step (h : Settled sma) (he : sma.step e = some sma') : Settled sma' := by
  cases e with
  | findAllocUndo ulp =>
    obtain rfl := some.inj he
    refine h.alike (findAllocUndo_alike sma ulp) ?_
    rw [findAllocUndo_pending]
    exact Subset.refl _
  | semtimedop c =>
    obtain rfl := some.inj he
    exact h.semtimedop
  | wakeInterrupted sleeper timedOut =>
    obtain rfl := some.inj he
    exact h.alike ⟨rfl, fun _ => rfl⟩ (filter_subset_self _)
  | setVal semnum val pid =>
    obtain rfl := some.inj he
    unfold Semaphores.setVal
    split
    · exact h
    split
    · exact h
    · exact .of_updateQueue h.marked
  | setAll semIo =>
    obtain rfl := some.inj he
    unfold Semaphores.setAll
    split
    · exact h
    · exact .of_updateQueue h.marked
  | exitSem ulp pid =>
    obtain rfl := some.inj he
    unfold Semaphores.exitSem
    split
    · exact h
    · exact .of_updateQueue (by rw [foldl_adjust_pending]; exact h.marked)

theorem update_queue_no_lost_wakeup : (∀ (sma sma' : SemArray) (es : List Event), sma.pending = [] →
      Run (fun _ _ => True) SemArray.step sma es sma' →
      ∀ q ∈ sma'.pending, (tryAtomicSemop sma' q.sops q.undo q.pid).1 = .block) ∧
    ∀ sma : SemArray, ∃ n woken,
      runFor updateQueueStep n (.start sma) = some (updateQueue sma, woken) ∧
      (woken.map Prod.fst ++ (updateQueue sma).pending).Perm sma.pending := by
  refine ⟨fun sma sma' es hp hrun => ?_, fun sma => ?_⟩
  · have hstart : Settled sma := ⟨by simp [hp], by simp [hp]⟩
    exact (hrun.invariant (fun {_ _ _} (h : Settled _) _ he => h.step he) hstart).blocked
  · obtain ⟨r, hrun, heq, h⟩ := updateQueue_stops sma
    rw [heq]
    exact ⟨_, r.2, hrun, h.perm⟩

theorem update_queue_no_lost_wakeup_pair : (semtimedop pair takeSecond).2.pending ≠ [] ∧
      ∀ q ∈ (semtimedop pair takeSecond).2.pending,
        (tryAtomicSemop (semtimedop pair takeSecond).2 q.sops q.undo q.pid).1 = .block :=
  ⟨by decide,
    update_queue_no_lost_wakeup.1 pair _ [.semtimedop takeSecond] rfl (.cons trivial rfl (.nil _))⟩

end SpicaKernel.Semaphores
