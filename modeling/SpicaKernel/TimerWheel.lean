import Mathlib.Logic.Function.Basic
import SpicaKernel.Clocks

namespace SpicaKernel.TimerWheel
open Function
set_option autoImplicit true

/-- `TVN_BITS` and `TVR_BITS`, by `CONFIG_BASE_SMALL`. -/
def tvnBits (small : Bool) : Nat := if small then 4 else 6

def tvrBits (small : Bool) : Nat := if small then 6 else 8

/-- `struct timer_list`: its time, its deferrable flag, and whether it is on a list. -/
structure TimerList where
  expires : Time
  deferrable : Bool
  pending : Bool
  deriving DecidableEq

/-- `struct tvec_base`, with `tv1` to `tv5` as the levels 0 to 4 of `vec`, the timers by their
addresses, and the `work_list` of `__run_timers`. -/
structure Base where
  timerJiffies : Time
  nextTimer : Time
  vec : Nat → Nat → List Nat
  timers : Nat → TimerList
  workList : List Nat

/-- The lowest bit that a level looks at, and how many of them. -/
def shift (small : Bool) : Nat → Nat
  | 0 => 0
  | n + 1 => tvrBits small + n * tvnBits small

def bits (small : Bool) : Nat → Nat
  | 0 => tvrBits small
  | _ + 1 => tvnBits small

/-- `(j >> shift) & mask`; of `timer_jiffies` it is `INDEX`. -/
def slot (small : Bool) (level : Nat) (j : Time) : Nat :=
  (j >>> shift small level).toNat % 2 ^ bits small level

/-- The list that `internal_add_timer` chooses. -/
def bucket (small : Bool) (timerJiffies expires : Time) : Nat × Nat :=
  let idx := expires - timerJiffies
  if idx.toNat < 2 ^ tvrBits small then (0, slot small 0 expires)
  else if idx.toNat < 2 ^ (tvrBits small + tvnBits small) then (1, slot small 1 expires)
  else if idx.toNat < 2 ^ (tvrBits small + 2 * tvnBits small) then (2, slot small 2 expires)
  else if idx.toNat < 2 ^ (tvrBits small + 3 * tvnBits small) then (3, slot small 3 expires)
  else if idx.toInt < 0 then (0, slot small 0 timerJiffies)
  else (4, slot small 4 expires)

def internalAddTimer (small : Bool) (b : Base) (x : Nat) : Base :=
  let p := bucket small b.timerJiffies (b.timers x).expires
  { b with vec := fun level i => if (level, i) = p then b.vec level i ++ [x] else b.vec level i }

/-- `detach_timer`, from whichever list the timer is on. -/
def detachTimer (b : Base) (x : Nat) : Base :=
  { b with
    vec := fun level i => (b.vec level i).filter (· != x)
    workList := b.workList.filter (· != x)
    timers := update b.timers x { b.timers x with pending := false } }

/-- A detached timer may have been the next one. -/
def forgetNext (b : Base) (x : Nat) : Base :=
  if (b.timers x).expires = b.nextTimer ∧ (b.timers x).deferrable = false then
    { b with nextTimer := b.timerJiffies }
  else b

/-- The end of `__mod_timer`. -/
def arm (small : Bool) (b : Base) (x : Nat) (expires : Time) : Base :=
  let b := { b with
    timers := update b.timers x { b.timers x with expires := expires, pending := true }
    nextTimer :=
      if Time.before expires b.nextTimer ∧ (b.timers x).deferrable = false then expires
      else b.nextTimer }
  internalAddTimer small b x

def modTimerCore (small : Bool) (b : Base) (x : Nat) (expires : Time) (pendingOnly : Bool) : Base :=
  if (b.timers x).pending then arm small (forgetNext (detachTimer b x) x) x expires
  else if pendingOnly then b
  else arm small b x expires

def modTimer (small : Bool) (b : Base) (x : Nat) (expires : Time) : Base :=
  if (b.timers x).pending = true ∧ (b.timers x).expires = expires then b
  else modTimerCore small b x expires false

def modTimerPending (small : Bool) (b : Base) (x : Nat) (expires : Time) : Base :=
  modTimerCore small b x expires true

/-- `add_timer`, which stops at a `BUG_ON` if the timer is pending. -/
def addTimer (small : Bool) (b : Base) (x : Nat) (expires : Time) : Option Base :=
  if (b.timers x).pending then none else some (modTimer small b x expires)

def delTimer (b : Base) (x : Nat) : Base :=
  if (b.timers x).pending then forgetNext (detachTimer b x) x else b

def cascade (small : Bool) (b : Base) (level index : Nat) : Base :=
  let tvList := b.vec level index
  let b := { b with vec := update b.vec level (update (b.vec level) index []) }
  tvList.foldl (internalAddTimer small) b

/-- The cascades of a tick: each goes on to the next level if its index is zero. -/
def cascades (small : Bool) (b : Base) : Base :=
  let index := fun level => slot small level b.timerJiffies
  if index 0 ≠ 0 then b
  else
    let b := cascade small b 1 (index 1)
    if index 1 ≠ 0 then b
    else
      let b := cascade small b 2 (index 2)
      if index 2 ≠ 0 then b
      else
        let b := cascade small b 3 (index 3)
        if index 3 ≠ 0 then b else cascade small b 4 (index 4)

/-- The start of a round of the outer loop, up to where its timers are on the `work_list`. -/
def startTick (small : Bool) (b : Base) : Base :=
  let index := slot small 0 b.timerJiffies
  let b := cascades small b
  { b with
    timerJiffies := b.timerJiffies + 1
    workList := b.vec 0 index
    vec := update b.vec 0 (update (b.vec 0) index []) }

def NEXT_TIMER_MAX_DELTA : Nat := 2 ^ 30 - 1

def Base.counts (b : Base) (x : Nat) : Bool := !(b.timers x).deferrable

/-- The loop over `tv1`, with as many rounds left: the slot and the timer found. -/
def searchTv1 (small : Bool) (b : Base) : Nat → Nat → Option (Nat × Nat)
  | 0, _ => none
  | n + 1, s =>
    match (b.vec 0 s).find? b.counts with
    | some nte => some (s, nte)
    | none => searchTv1 small b n ((s + 1) % 2 ^ tvrBits small)

/-- The variables `expires` and `found`. -/
structure Search where
  expires : Time
  found : Bool

/-- The loop over one list of `tv2` to `tv5`. -/
def lookAt (b : Base) (r : Search) (nte : Nat) : Search :=
  if b.counts nte then
    ⟨if Time.before (b.timers nte).expires r.expires then (b.timers nte).expires else r.expires,
      true⟩
  else r

/-- The loop over the slots of an array, with the slot that it was left at. -/
def searchSlots (small : Bool) (b : Base) (level : Nat) : Nat → Nat → Search → Search × Option Nat
  | 0, _, r => (r, none)
  | n + 1, s, r =>
    let r := (b.vec level s).foldl (lookAt b) r
    if r.found then (r, some s) else searchSlots small b level n ((s + 1) % 2 ^ tvnBits small) r

/-- The loop over the arrays, with `timer_jiffies` shifted to the array's unit. -/
def searchArrays (small : Bool) (b : Base) : List Nat → Nat → Search → Time
  | [], _, r => r.expires
  | level :: levels, j, r =>
    let size := 2 ^ tvnBits small
    let index := j % size
    let p := searchSlots small b level size index r
    if p.2.any (fun s => index != 0 && index ≤ s) then p.1.expires
    else searchArrays small b levels ((if index = 0 then j else j + (size - index)) / size) p.1

def nextTimerInterrupt (small : Bool) (b : Base) : Time :=
  let size := 2 ^ tvrBits small
  let index := slot small 0 b.timerJiffies
  let j := if index = 0 then b.timerJiffies else b.timerJiffies + BitVec.ofNat 32 (size - index)
  let arrays := searchArrays small b [1, 2, 3, 4] (j >>> tvrBits small).toNat
  match searchTv1 small b size index with
  | some (s, nte) =>
    if index = 0 ∨ s < index then arrays ⟨(b.timers nte).expires, true⟩
    else (b.timers nte).expires
  | none => arrays ⟨b.timerJiffies + BitVec.ofNat 32 NEXT_TIMER_MAX_DELTA, false⟩

/-- The part of `get_next_timer_interrupt` under the lock. -/
def getNextTimerInterrupt (small : Bool) (b : Base) : Base :=
  if Time.beforeEq b.nextTimer b.timerJiffies then
    { b with nextTimer := nextTimerInterrupt small b }
  else b

/-- The timers run, each with its tick, and the ticks since `get_next_timer_interrupt`. -/
structure System where
  base : Base
  ran : List (Nat × Time)
  sinceNext : Nat

/-- What can happen while the base's lock is free; `expire` runs the first of the `work_list`. -/
inductive Event where
  | modTimer (x : Nat) (expires : Time)
  | modTimerPending (x : Nat) (expires : Time)
  | addTimer (x : Nat) (expires : Time)
  | delTimer (x : Nat)
  | tick (jiffies : Time)
  | expire
  | getNextTimerInterrupt

def System.step (small : Bool) (s : System) : Event → Option System
  | .modTimer x e => some { s with base := TimerWheel.modTimer small s.base x e }
  | .modTimerPending x e => some { s with base := TimerWheel.modTimerPending small s.base x e }
  | .addTimer x e => (TimerWheel.addTimer small s.base x e).map fun b => { s with base := b }
  | .delTimer x => some { s with base := TimerWheel.delTimer s.base x }
  | .tick jiffies =>
    if s.base.workList = [] ∧ Time.beforeEq s.base.timerJiffies jiffies then
      some { s with base := startTick small s.base, sinceNext := s.sinceNext + 1 }
    else none
  | .expire =>
    match s.base.workList with
    | [] => none
    | x :: _ =>
      some { s with
        base := detachTimer s.base x
        ran := s.ran ++ [(x, s.base.timerJiffies - 1)] }
  | .getNextTimerInterrupt =>
    if s.base.workList = [] then
      some { s with base := TimerWheel.getNextTimerInterrupt small s.base, sinceNext := 0 }
    else none

/-- The state that `init_timers_cpu` leaves, with timers that are not pending. -/
def System.init (jiffies : Time) (deferrable : Nat → Bool) : System :=
  ⟨⟨jiffies, jiffies, fun _ _ => [], fun x => ⟨0, deferrable x, false⟩, []⟩, [], 0⟩

open Time List

theorem slot_eq (small : Bool) (level : Nat) (j : Time) :
    slot small level j = j.toNat / 2 ^ shift small level % 2 ^ bits small level := by
  rw [slot, BitVec.toNat_ushiftRight, Nat.shiftRight_eq_div_pow]

theorem shift_succ (small : Bool) (level : Nat) :
    shift small (level + 1) = shift small level + bits small level := by
  cases level with
  | zero => simp [shift, bits]
  | succ n => simp only [shift, bits, Nat.succ_mul, Nat.add_assoc]

theorem shift_mono (h : m ≤ n) : shift small m ≤ shift small n := by
  induction n with
  | zero =>
    obtain rfl := Nat.le_zero.mp h
    exact Nat.le_refl _
  | succ n ih =>
    rcases Nat.le_or_eq_of_le_succ h with hle | rfl
    · have := ih hle
      rw [shift_succ]
      omega
    · exact Nat.le_refl _

theorem slot_eq_zero (h : 2 ^ shift small level ∣ t.toNat) (hm : m < level) :
    slot small m t = 0 := by
  have hle : shift small m + bits small m ≤ shift small level := by
    rw [← shift_succ]
    exact shift_mono hm
  rw [slot_eq, ← Nat.mod_mul_right_div_self, ← Nat.pow_add]
  have hdvd : 2 ^ (shift small m + bits small m) ∣ t.toNat :=
    Nat.dvd_trans (Nat.pow_dvd_pow 2 hle) h
  rw [Nat.mod_eq_zero_of_dvd hdvd, Nat.zero_div]

theorem slot_start (h : t.toNat = e.toNat - e.toNat % 2 ^ shift small level) :
    2 ^ shift small level ∣ t.toNat ∧ slot small level t = slot small level e := by
  have hmul : t.toNat = 2 ^ shift small level * (e.toNat / 2 ^ shift small level) := by
    have := Nat.div_add_mod e.toNat (2 ^ shift small level)
    omega
  refine ⟨⟨_, hmul⟩, ?_⟩
  rw [slot_eq, slot_eq, hmul, Nat.mul_div_cancel_left _ (Nat.two_pow_pos _)]

theorem slot_zero_inj (ha : ahead t e < 2 ^ tvrBits small) (h : slot small 0 e = slot small 0 t) :
    e = t := by
  have hadd := ahead_add (t := t) (e := e)
  refine ahead_eq_zero.mp ?_
  rw [slot_eq, slot_eq] at h
  cases small with
  | false =>
    simp only [shift, bits, tvrBits, Bool.false_eq_true, if_false] at ha h
    omega
  | true =>
    simp only [shift, bits, tvrBits, if_true] at ha h
    omega

theorem lowest_tv5 : 2 ^ (tvrBits small + 3 * tvnBits small) ≤ 2 ^ 31 := by
  cases small <;> decide

theorem bucket_late (h : 2 ^ 31 ≤ ahead t e) : bucket small t e = (0, slot small 0 t) := by
  have hneg : (e - t).toInt < 0 := lead_neg.mpr h
  have h₃ : 2 ^ (tvrBits small + 3 * tvnBits small) ≤ (e - t).toNat := Nat.le_trans lowest_tv5 h
  have h₂ : 2 ^ (tvrBits small + 2 * tvnBits small) ≤ (e - t).toNat :=
    Nat.le_trans (Nat.pow_le_pow_right (by decide) (by omega)) h₃
  have h₁ : 2 ^ (tvrBits small + tvnBits small) ≤ (e - t).toNat :=
    Nat.le_trans (Nat.pow_le_pow_right (by decide) (by omega)) h₂
  have h₀ : 2 ^ tvrBits small ≤ (e - t).toNat :=
    Nat.le_trans (Nat.pow_le_pow_right (by decide) (by omega)) h₁
  simp only [bucket]
  rw [if_neg (Nat.not_lt.mpr h₀), if_neg (Nat.not_lt.mpr h₁), if_neg (Nat.not_lt.mpr h₂),
    if_neg (Nat.not_lt.mpr h₃), if_pos hneg]

theorem bucket_future (small : Bool) (h : ahead t e < 2 ^ 31) :
    (ahead t e < 2 ^ tvrBits small ∧ bucket small t e = (0, slot small 0 e)) ∨
      ∃ level, 1 ≤ level ∧ level ≤ 4 ∧ 2 ^ shift small level ≤ ahead t e ∧
        (level < 4 → ahead t e < 2 ^ shift small (level + 1)) ∧
        bucket small t e = (level, slot small level e) := by
  have hpos : ¬ (e - t).toInt < 0 := fun hneg => Nat.not_le.mpr h (lead_neg.mp hneg)
  have hs : shift small 1 = tvrBits small ∧ shift small 2 = tvrBits small + tvnBits small ∧
      shift small 3 = tvrBits small + 2 * tvnBits small ∧
      shift small 4 = tvrBits small + 3 * tvnBits small := by
    simp [shift]
  obtain ⟨hs₁, hs₂, hs₃, hs₄⟩ := hs
  simp only [bucket]
  unfold ahead at h ⊢
  split
  next h₀ => exact .inl ⟨h₀, rfl⟩
  next h₀ =>
    refine .inr ?_
    split
    next h₁ =>
      exact ⟨1, by omega, by omega, by rw [hs₁]; omega, fun _ => by rw [hs₂]; exact h₁, rfl⟩
    next h₁ =>
      split
      next h₂ =>
        exact ⟨2, by omega, by omega, by rw [hs₂]; omega, fun _ => by rw [hs₃]; exact h₂, rfl⟩
      next h₂ =>
        split
        next h₃ =>
          exact ⟨3, by omega, by omega, by rw [hs₃]; omega, fun _ => by rw [hs₄]; exact h₃, rfl⟩
        next h₃ => exact ⟨4, by omega, by omega, by rw [hs₄]; omega, by omega, rfl⟩

structure On (b : Base) (x : Nat) (p : Option (Nat × Nat)) (w : Nat) : Prop where
  wheel : ∀ level i, (b.vec level i).count x = if p = some (level, i) then 1 else 0
  work : b.workList.count x = w

theorem On.internalAddTimer (h : On b x p w) (hy : y ≠ x) :
    On (internalAddTimer small b y) x p w := by
  refine ⟨fun level i => ?_, h.work⟩
  simp only [TimerWheel.internalAddTimer]
  split
  · rw [count_append, h.wheel]
    simp [hy]
  · exact h.wheel level i

theorem On.detachTimer (h : On b x p w) (hy : y ≠ x) : On (detachTimer b y) x p w := by
  have hx : (x != y) = true := by simpa using hy.symm
  refine ⟨fun level i => ?_, ?_⟩
  · simp only [TimerWheel.detachTimer]
    rw [count_filter (p := (· != y)) hx, h.wheel]
  · simp only [TimerWheel.detachTimer]
    rw [count_filter (p := (· != y)) hx, h.work]

theorem On.of_detachTimer (b : Base) (x : Nat) : On (TimerWheel.detachTimer b x) x none 0 := by
  refine ⟨fun level i => ?_, ?_⟩
  · simp [TimerWheel.detachTimer, count_eq_zero]
  · simp [TimerWheel.detachTimer, count_eq_zero]

theorem On.of_lists (h : On b x p w) (hv : b'.vec = b.vec) (hw : b'.workList = b.workList) :
    On b' x p w :=
  ⟨fun level i => by rw [hv]; exact h.wheel level i, by rw [hw]; exact h.work⟩

theorem foldl_internalAddTimer (small : Bool) (l : List Nat) (b : Base) :
    (l.foldl (internalAddTimer small) b).timerJiffies = b.timerJiffies ∧
    (l.foldl (internalAddTimer small) b).timers = b.timers ∧
    (l.foldl (internalAddTimer small) b).workList = b.workList ∧
    (l.foldl (internalAddTimer small) b).nextTimer = b.nextTimer ∧
    ∀ level i, (l.foldl (internalAddTimer small) b).vec level i = b.vec level i ++
      l.filter fun y => bucket small b.timerJiffies (b.timers y).expires = (level, i) := by
  induction l generalizing b with
  | nil => exact ⟨rfl, rfl, rfl, rfl, fun level i => by simp⟩
  | cons y l ih =>
    obtain ⟨h₁, h₂, h₃, h₄, h₅⟩ := ih (internalAddTimer small b y)
    refine ⟨h₁, h₂, h₃, h₄, fun level i => ?_⟩
    have hrest : (l.foldl (internalAddTimer small) (internalAddTimer small b y)).vec level i =
        (internalAddTimer small b y).vec level i ++
          l.filter fun z => bucket small b.timerJiffies (b.timers z).expires = (level, i) :=
      h₅ level i
    rw [foldl_cons, hrest]
    by_cases hp : bucket small b.timerJiffies (b.timers y).expires = (level, i)
    · simp [internalAddTimer, hp]
    · simp [internalAddTimer, hp, Ne.symm hp]

theorem cascade_spec (small : Bool) (b : Base) (n index : Nat) :
    (cascade small b n index).timerJiffies = b.timerJiffies ∧
    (cascade small b n index).timers = b.timers ∧
    (cascade small b n index).workList = b.workList ∧
    (cascade small b n index).nextTimer = b.nextTimer ∧
    ∀ level i, (cascade small b n index).vec level i =
      (if level = n ∧ i = index then [] else b.vec level i) ++ (b.vec n index).filter fun y =>
        bucket small b.timerJiffies (b.timers y).expires = (level, i) := by
  obtain ⟨h₁, h₂, h₃, h₄, h₅⟩ := foldl_internalAddTimer small (b.vec n index)
    { b with vec := Function.update b.vec n (Function.update (b.vec n) index []) }
  refine ⟨h₁, h₂, h₃, h₄, fun level i => (h₅ level i).trans ?_⟩
  by_cases hl : level = n
  · subst hl
    by_cases hi : i = index
    · simp [hi]
    · simp [hi]
  · simp [hl]

theorem On.cascade (h : On b x p w) : On (cascade small b n index) x (p.map fun p =>
    if p = (n, index) then bucket small b.timerJiffies (b.timers x).expires else p) w := by
  obtain ⟨-, -, hwork, -, hvec⟩ := cascade_spec small b n index
  refine ⟨fun level i => ?_, by rw [hwork]; exact h.work⟩
  rw [hvec, count_append]
  have hmoved : ((b.vec n index).filter fun y =>
      bucket small b.timerJiffies (b.timers y).expires = (level, i)).count x =
        if p = some (n, index) ∧ bucket small b.timerJiffies (b.timers x).expires = (level, i)
          then 1 else 0 := by
    by_cases hb : bucket small b.timerJiffies (b.timers x).expires = (level, i)
    · rw [count_filter (by simpa using hb), h.wheel]
      simp [hb]
    · rw [count_eq_zero.mpr (by simp [hb])]
      simp [hb]
  have hkept : (if level = n ∧ i = index then [] else b.vec level i).count x =
      if p ≠ some (n, index) ∧ p = some (level, i) then 1 else 0 := by
    by_cases hli : level = n ∧ i = index
    · obtain ⟨rfl, rfl⟩ := hli
      simp
    · rw [if_neg hli, h.wheel]
      have hne : (level, i) ≠ (n, index) := fun he => hli (Prod.mk.inj he)
      by_cases hp : p = some (level, i)
      · simp [hp, hne]
      · simp [hp]
  rw [hmoved, hkept]
  cases p with
  | none => simp
  | some p =>
    by_cases hp : p = (n, index)
    · simp [hp]
    · simp [hp]

/-- The list that a timer is on while its tick is to come: in `tv1` its slot will be the next with
this number, above it will be moved before. -/
def Fits (small : Bool) (t due : Time) (expires : Time) (p : Nat × Nat) : Prop :=
  (p = (0, slot small 0 due) ∧ ahead t due < 2 ^ tvrBits small) ∨
    (1 ≤ p.1 ∧ p.1 ≤ 4 ∧ p.2 = slot small p.1 due ∧ expires = due ∧
      (ahead t due < 2 ^ 31 ∧ (p.1 < 4 → ahead t due < 2 ^ shift small (p.1 + 1))) ∧
      due.toNat % 2 ^ shift small p.1 ≤ ahead t due)

def FitsWell (small : Bool) (t due : Time) (expires : Time) (p : Nat × Nat) : Prop :=
  Fits small t due expires p ∧ (1 ≤ p.1 → due.toNat % 2 ^ shift small p.1 < ahead t due)

theorem fitsWell_bucket (small : Bool) (h : ahead t e < 2 ^ 31) :
    FitsWell small t e e (bucket small t e) := by
  rcases bucket_future small h with ⟨hlt, he⟩ | ⟨level, h₁, h₂, hge, hnext, he⟩
  · rw [he]
    exact ⟨.inl ⟨rfl, hlt⟩, fun h => absurd h (by simp)⟩
  · rw [he]
    have hlt : e.toNat % 2 ^ shift small level < ahead t e :=
      Nat.lt_of_lt_of_le (Nat.mod_lt _ (Nat.two_pow_pos _)) hge
    exact ⟨.inr ⟨h₁, h₂, rfl, rfl, ⟨h, hnext⟩, Nat.le_of_lt hlt⟩, fun _ => hlt⟩

/-- The tick at which a timer will be run. -/
def dueAt (t e : Time) : Time := if ahead t e < 2 ^ 31 then e else t

theorem fits_bucket (small : Bool) (t e : Time) :
    Fits small t (dueAt t e) e (bucket small t e) := by
  unfold dueAt
  split
  next h => exact (fitsWell_bucket small h).1
  next h =>
    rw [bucket_late (Nat.not_lt.mp h)]
    exact .inl ⟨rfl, by rw [ahead_self]; exact Nat.two_pow_pos _⟩

theorem Fits.starts (h : Fits small t due e p) (hn : ¬ FitsWell small t due e p) :
    1 ≤ p.1 ∧ p.2 = slot small p.1 t ∧ (∀ m < p.1, slot small m t = 0) ∧ e = due ∧
      ahead t due < 2 ^ 31 := by
  rcases h with ⟨rfl, ha⟩ | ⟨h₁, h₂, hp, he, hlt, hle⟩
  · exact absurd ⟨.inl ⟨rfl, ha⟩, fun h => absurd h (by simp)⟩ hn
  · have heq : due.toNat % 2 ^ shift small p.1 = ahead t due := by
      refine Nat.le_antisymm hle (Nat.not_lt.mp fun hlt' => hn ?_)
      exact ⟨.inr ⟨h₁, h₂, hp, he, hlt, hle⟩, fun _ => hlt'⟩
    obtain ⟨hdvd, hslot⟩ := slot_start (start_of_ahead heq)
    exact ⟨h₁, hp.trans hslot.symm, fun m hm => slot_eq_zero hdvd hm, he, hlt.1⟩

def Turning (small : Bool) (b : Base) (x : Nat) (due : Time) (w n : Nat) : Prop :=
  ∃ p, On b x (some p) w ∧ Fits small b.timerJiffies due (b.timers x).expires p ∧
    (FitsWell small b.timerJiffies due (b.timers x).expires p ∨ n ≤ p.1)

theorem Turning.cascade (h : Turning small b x due w n) (hn : 1 ≤ n) :
    Turning small (cascade small b n (slot small n b.timerJiffies)) x due w (n + 1) := by
  obtain ⟨p, hon, hfit, hturn⟩ := h
  obtain ⟨ht, htm, -, -, -⟩ := cascade_spec small b n (slot small n b.timerJiffies)
  unfold Turning
  rw [ht, htm]
  refine ⟨_, hon.cascade, ?_⟩
  dsimp only
  by_cases hp : p = (n, slot small n b.timerJiffies)
  · rw [if_pos hp]
    have hfuture : (b.timers x).expires = due ∧ ahead b.timerJiffies due < 2 ^ 31 := by
      rcases hfit with ⟨h₀, -⟩ | ⟨-, -, -, he, hlt, -⟩
      · rw [h₀] at hp
        have := (Prod.mk.inj hp).1
        omega
      · exact ⟨he, hlt.1⟩
    rw [hfuture.1]
    have hwell := fitsWell_bucket small hfuture.2
    exact ⟨hwell.1, .inl hwell⟩
  · rw [if_neg hp]
    refine ⟨hfit, ?_⟩
    by_cases hwell : FitsWell small b.timerJiffies due (b.timers x).expires p
    · exact .inl hwell
    · -- its own level had its turn just now
      have hle : n ≤ p.1 := hturn.resolve_left hwell
      have hne : p.1 ≠ n := fun he => hp (Prod.ext he (he ▸ (hfit.starts hwell).2.1))
      exact .inr (by omega)

theorem Turning.done (h : Turning small b x due w n) (hs : m < n)
    (hne : slot small m b.timerJiffies ≠ 0) : ∃ p, On b x (some p) w ∧
      FitsWell small b.timerJiffies due (b.timers x).expires p := by
  obtain ⟨p, hon, hfit, hturn⟩ := h
  refine ⟨p, hon, ?_⟩
  by_cases hwell : FitsWell small b.timerJiffies due (b.timers x).expires p
  · exact hwell
  · have hle : n ≤ p.1 := hturn.resolve_left hwell
    exact absurd ((hfit.starts hwell).2.2.1 m (by omega)) hne

theorem Turning.last (h : Turning small b x due w 5) : ∃ p, On b x (some p) w ∧
    FitsWell small b.timerJiffies due (b.timers x).expires p := by
  obtain ⟨p, hon, hfit, hturn⟩ := h
  refine ⟨p, hon, hturn.resolve_right fun hle => ?_⟩
  rcases hfit with ⟨rfl, -⟩ | ⟨-, h₂, -⟩
  · exact absurd hle (by simp)
  · omega

theorem cascades_rule (small : Bool) (P : Nat → Base → Prop) (h₁ : P 1 b)
    (hstep : ∀ n b', 1 ≤ n → n ≤ 4 → P n b' →
      P (n + 1) (cascade small b' n (slot small n b.timerJiffies))) :
    P 5 (cascades small b) ∨
      ∃ n, P (n + 1) (cascades small b) ∧ slot small n b.timerJiffies ≠ 0 := by
  simp only [cascades]
  split
  next h => exact .inr ⟨0, h₁, h⟩
  next =>
    have h₂ := hstep 1 _ (by omega) (by omega) h₁
    split
    next h => exact .inr ⟨1, h₂, h⟩
    next =>
      have h₃ := hstep 2 _ (by omega) (by omega) h₂
      split
      next h => exact .inr ⟨2, h₃, h⟩
      next =>
        have h₄ := hstep 3 _ (by omega) (by omega) h₃
        split
        next h => exact .inr ⟨3, h₄, h⟩
        next => exact .inl (hstep 4 _ (by omega) (by omega) h₄)

theorem cascades_same (small : Bool) (b : Base) :
    (cascades small b).timerJiffies = b.timerJiffies ∧ (cascades small b).timers = b.timers ∧
      (cascades small b).workList = b.workList ∧ (cascades small b).nextTimer = b.nextTimer := by
  have hrule := cascades_rule small (b := b) (fun _ b' => b'.timerJiffies = b.timerJiffies ∧
    b'.timers = b.timers ∧ b'.workList = b.workList ∧ b'.nextTimer = b.nextTimer)
    ⟨rfl, rfl, rfl, rfl⟩ (fun n b' _ _ h => by
      obtain ⟨h₁, h₂, h₃, h₄, -⟩ := cascade_spec small b' n (slot small n b.timerJiffies)
      exact ⟨h₁.trans h.1, h₂.trans h.2.1, h₃.trans h.2.2.1, h₄.trans h.2.2.2⟩)
  rcases hrule with h | ⟨n, h, -⟩
  · exact h
  · exact h

theorem On.cascades (hon : On b x (some p) w)
    (hfit : Fits small b.timerJiffies due (b.timers x).expires p) :
    ∃ p', On (cascades small b) x (some p') w ∧
      FitsWell small b.timerJiffies due (b.timers x).expires p' := by
  obtain ⟨ht, htm, -, -⟩ := cascades_same small b
  have hstart : Turning small b x due w 1 := by
    refine ⟨p, hon, hfit, ?_⟩
    by_cases hwell : FitsWell small b.timerJiffies due (b.timers x).expires p
    · exact .inl hwell
    · exact .inr (hfit.starts hwell).1
  have hrule := cascades_rule small (b := b)
    (fun n b' => b'.timerJiffies = b.timerJiffies ∧ Turning small b' x due w n)
    ⟨rfl, hstart⟩ (fun n b' h1 _ h => by
      obtain ⟨ht', -⟩ := cascade_spec small b' n (slot small n b.timerJiffies)
      have hturn := h.2.cascade h1
      rw [h.1] at hturn
      exact ⟨ht'.trans h.1, hturn⟩)
  rcases hrule with ⟨-, h⟩ | ⟨n, ⟨-, h⟩, hne⟩
  · have hlast := h.last
    rwa [ht, htm] at hlast
  · have hdone := h.done (Nat.lt_succ_self n) (by rw [ht]; exact hne)
    rwa [ht, htm] at hdone

theorem startTick_vec (small : Bool) (b : Base) (level i : Nat) :
    (startTick small b).vec level i = if (level, i) = (0, slot small 0 b.timerJiffies) then []
      else (cascades small b).vec level i := by
  simp only [startTick]
  by_cases hl : level = 0
  · subst hl
    by_cases hi : i = slot small 0 b.timerJiffies
    · simp [hi]
    · simp [hi]
  · simp [hl]

theorem On.startTick (hon : On b x (some p) w)
    (hfit : Fits small b.timerJiffies due (b.timers x).expires p) :
    (due = b.timerJiffies ∧ On (startTick small b) x none 1) ∨
      (due ≠ b.timerJiffies ∧ ∃ p', On (startTick small b) x (some p') 0 ∧
        Fits small (b.timerJiffies + 1) due (b.timers x).expires p') := by
  obtain ⟨p', hon', hfit', hwell⟩ := hon.cascades hfit
  have hwork : (TimerWheel.startTick small b).workList.count x =
      if some p' = some (0, slot small 0 b.timerJiffies) then 1 else 0 := hon'.wheel _ _
  by_cases hp : p' = (0, slot small 0 b.timerJiffies)
  · -- a slot of `tv1` has the timers of one tick only
    have hdue : due = b.timerJiffies := by
      rcases hfit' with ⟨h₀, hlt⟩ | ⟨h₁, -⟩
      · exact slot_zero_inj hlt (Prod.mk.inj (h₀.symm.trans hp)).2
      · rw [hp] at h₁
        exact absurd h₁ (by simp)
    refine .inl ⟨hdue, fun level i => ?_, by rw [hwork, hp, if_pos rfl]⟩
    rw [startTick_vec]
    split
    · simp
    next hne =>
      rw [hon'.wheel, hp, if_neg fun he => hne (Option.some.inj he).symm]
      simp
  · have hne : due ≠ b.timerJiffies := by
      rintro rfl
      rcases hfit' with ⟨h₀, -⟩ | ⟨h₁, -⟩
      · exact hp h₀
      · have := hwell h₁
        rw [ahead_self] at this
        omega
    have hstep := ahead_succ (fun h0 => hne (ahead_eq_zero.mp h0))
    refine .inr ⟨hne, p', ⟨fun level i => ?_, by rw [hwork, if_neg (by simpa using hp)]⟩, ?_⟩
    · rw [startTick_vec]
      split
      next he =>
        rw [he, if_neg (by simpa using hp)]
        simp
      next => exact hon'.wheel level i
    · rcases hfit' with ⟨h₀, hlt⟩ | ⟨h₁, h₂, h₃, he, hlt, -⟩
      · exact .inl ⟨h₀, by omega⟩
      · have := hwell h₁
        exact .inr ⟨h₁, h₂, h₃, he, ⟨by omega, fun hp => by have := hlt.2 hp; omega⟩, by omega⟩

theorem On.startTick_none (small : Bool) (hon : On b x none w) :
    On (TimerWheel.startTick small b) x none 0 := by
  have hrule := cascades_rule small (b := b) (fun _ b' => On b' x none w) hon
    (fun _ _ _ _ h => h.cascade)
  have hon' : On (TimerWheel.cascades small b) x none w := by
    rcases hrule with h | ⟨n, h, -⟩
    · exact h
    · exact h
  refine ⟨fun level i => ?_, hon'.wheel _ _⟩
  rw [startTick_vec]
  split
  · simp
  · exact hon'.wheel level i

end SpicaKernel.TimerWheel
