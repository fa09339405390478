import SpicaKernel.Runs
import SpicaKernel.TimerWheel

namespace SpicaKernel.TimerWheel
set_option autoImplicit true

open Time

def Event.touches (x : Nat) : Event → Bool
  | .modTimer y _ => y == x
  | .modTimerPending y _ => y == x
  | .addTimer y _ => y == x
  | .delTimer y => y == x
  | _ => false

def Event.isTick : Event → Bool
  | .tick _ => true
  | _ => false

def Base.Arms (b : Base) (x : Nat) (e : Time) : Event → Prop
  | .modTimer y e' => y = x ∧ e' = e ∧ ¬ ((b.timers x).pending = true ∧ (b.timers x).expires = e)
  | .modTimerPending y e' => y = x ∧ e' = e ∧ (b.timers x).pending = true
  | .addTimer y e' => y = x ∧ e' = e
  | _ => False

theorem Base.Arms.touches {b : Base} (h : b.Arms x e a) : a.touches x = true := by
  cases a with
  | modTimer y e' => simp [Event.touches, h.1]
  | modTimerPending y e' => simp [Event.touches, h.1]
  | addTimer y e' => simp [Event.touches, h.1]
  | _ => exact h.elim

theorem Base.Arms.unique {b : Base} (h : b.Arms x e a) (h' : b.Arms y e' a) : y = x ∧ e' = e := by
  cases a with
  | modTimer z e'' => exact ⟨h'.1.symm.trans h.1, h'.2.1.symm.trans h.2.1⟩
  | modTimerPending z e'' => exact ⟨h'.1.symm.trans h.1, h'.2.1.symm.trans h.2.1⟩
  | addTimer z e'' => exact ⟨h'.1.symm.trans h.1, h'.2.symm.trans h.2⟩
  | _ => exact h.elim

/-- `del_timer`, and the first part of `mod_timer`, on a pending timer. -/
def release (b : Base) (x : Nat) : Base := forgetNext (detachTimer b x) x

inductive Does (small : Bool) (s : System) : Event → System → Prop where
  | nothing {a : Event} (hn : ∀ x e, ¬ s.base.Arms x e a) (htick : a.isTick = false) :
      Does small s a s
  | release {a : Event} (ha : a.touches x = true) (hn : ∀ x e, ¬ s.base.Arms x e a)
      (htick : a.isTick = false) : Does small s a { s with base := release s.base x }
  | arm {a : Event} (ha : s.base.Arms x e a) (hp : (s.base.timers x).pending = false)
      (htick : a.isTick = false) : Does small s a { s with base := arm small s.base x e }
  | rearm {a : Event} (ha : s.base.Arms x e a) (hp : (s.base.timers x).pending = true)
      (htick : a.isTick = false) :
      Does small s a { s with base := TimerWheel.arm small (TimerWheel.release s.base x) x e }
  | tick (hw : s.base.workList = []) : Does small s (.tick jiffies)
      { s with base := startTick small s.base, sinceNext := s.sinceNext + 1 }
  | expire (hy : y ∈ s.base.workList) : Does small s .expire
      { s with base := detachTimer s.base y, ran := s.ran ++ [(y, s.base.timerJiffies - 1)] }
  | next (hw : s.base.workList = []) : Does small s .getNextTimerInterrupt
      { s with base := getNextTimerInterrupt small s.base, sinceNext := 0 }

variable {s s' s₁ s₂ s₃ : System} {a : Event}

theorem does_modTimerCore (htick : a.isTick = false) (ha : ∀ y e', s.base.Arms y e' a ↔
      y = x ∧ e' = e ∧ ((s.base.timers x).pending = true ∨ pendingOnly = false)) :
    Does small s a { s with base := modTimerCore small s.base x e pendingOnly } := by
  unfold modTimerCore
  split
  next hp => exact .rearm ((ha x e).mpr ⟨rfl, rfl, .inl hp⟩) hp htick
  next hp =>
    split
    next ho => exact .nothing (fun y e' h => by simp_all) htick
    next ho =>
      have harm := (ha x e).mpr ⟨rfl, rfl, .inr (by simpa using ho)⟩
      exact .arm harm (by simpa using hp) htick

theorem step_does (he : s.step small a = some s') : Does small s a s' := by
  cases a with
  | modTimer x e =>
    obtain rfl := Option.some.inj he
    simp only [TimerWheel.modTimer]
    split
    next hp =>
      refine .nothing (fun y e' h => ?_) rfl
      obtain ⟨rfl, rfl, hn⟩ := h
      exact hn hp
    next hn =>
      refine does_modTimerCore rfl fun y e' => ⟨?_, ?_⟩
      · rintro ⟨rfl, rfl, -⟩
        exact ⟨rfl, rfl, .inr rfl⟩
      · rintro ⟨rfl, rfl, -⟩
        exact ⟨rfl, rfl, hn⟩
  | modTimerPending x e =>
    obtain rfl := Option.some.inj he
    refine does_modTimerCore rfl fun y e' => ⟨?_, ?_⟩
    · rintro ⟨rfl, rfl, hp⟩
      exact ⟨rfl, rfl, .inl hp⟩
    · rintro ⟨rfl, rfl, hp⟩
      exact ⟨rfl, rfl, hp.resolve_right (by simp)⟩
  | addTimer x e =>
    obtain ⟨b, hb, rfl⟩ := Option.map_eq_some_iff.mp he
    unfold TimerWheel.addTimer at hb
    split at hb
    · cases hb
    next hp =>
      obtain rfl := Option.some.inj hb
      simp only [TimerWheel.modTimer]
      rw [if_neg fun h => hp h.1]
      refine does_modTimerCore rfl fun y e' => ⟨?_, ?_⟩
      · rintro ⟨rfl, rfl⟩
        exact ⟨rfl, rfl, .inr rfl⟩
      · rintro ⟨rfl, rfl, -⟩
        exact ⟨rfl, rfl⟩
  | delTimer x =>
    obtain rfl := Option.some.inj he
    simp only [TimerWheel.delTimer]
    split
    · exact .release (by simp [Event.touches]) (fun _ _ h => h.elim) rfl
    · exact .nothing (fun _ _ h => h.elim) rfl
  | tick jiffies =>
    simp only [System.step] at he
    split at he
    next h =>
      obtain rfl := Option.some.inj he
      exact .tick h.1
    · cases he
  | expire =>
    simp only [System.step] at he
    split at he
    · cases he
    next y l hw =>
      obtain rfl := Option.some.inj he
      exact .expire (by simp [hw])
  | getNextTimerInterrupt =>
    simp only [System.step] at he
    split at he
    next hw =>
      obtain rfl := Option.some.inj he
      exact .next hw
    · cases he

structure Unmoved (x : Nat) (b b' : Base) : Prop where
  time : b'.timerJiffies = b.timerJiffies
  timer : b'.timers x = b.timers x
  on : ∀ {p w}, On b x p w → On b' x p w

theorem Unmoved.refl (x : Nat) (b : Base) : Unmoved x b b := ⟨rfl, rfl, id⟩

theorem Unmoved.trans (h : Unmoved x b b') (h' : Unmoved x b' b'') : Unmoved x b b'' :=
  ⟨h'.time.trans h.time, h'.timer.trans h.timer, fun ho => h'.on (h.on ho)⟩

theorem unmoved_forgetNext (x y : Nat) (b : Base) : Unmoved x b (forgetNext b y) := by
  unfold forgetNext
  split
  · exact ⟨rfl, rfl, fun h => h.of_lists rfl rfl⟩
  · exact .refl x b

theorem unmoved_getNext (small : Bool) (x : Nat) (b : Base) :
    Unmoved x b (getNextTimerInterrupt small b) := by
  unfold getNextTimerInterrupt
  split
  · exact ⟨rfl, rfl, fun h => h.of_lists rfl rfl⟩
  · exact .refl x b

section Other

variable {x y : Nat} (hy : y ≠ x)
include hy

theorem unmoved_detachTimer (b : Base) : Unmoved x b (detachTimer b y) :=
  ⟨rfl, Function.update_of_ne hy.symm _ _, fun h => h.detachTimer hy⟩

theorem unmoved_release (b : Base) : Unmoved x b (release b y) :=
  (unmoved_detachTimer hy b).trans (unmoved_forgetNext x y _)

theorem unmoved_arm (b : Base) : Unmoved x b (arm small b y e) :=
  ⟨rfl, Function.update_of_ne hy.symm _ _, fun h => On.internalAddTimer (h.of_lists rfl rfl) hy⟩

end Other

theorem On.release (b : Base) (x : Nat) : On (release b x) x none 0 :=
  (unmoved_forgetNext x x _).on (.of_detachTimer b x)

theorem release_time (b : Base) (x : Nat) : (release b x).timerJiffies = b.timerJiffies :=
  (unmoved_forgetNext x x (detachTimer b x)).time

theorem startTick_same (small : Bool) (b : Base) :
    (startTick small b).timerJiffies = b.timerJiffies + 1 ∧
      (startTick small b).timers = b.timers ∧ (startTick small b).nextTimer = b.nextTimer := by
  obtain ⟨h₁, h₂, -, h₄⟩ := cascades_same small b
  exact ⟨congrArg (· + 1) h₁, h₂, h₄⟩

theorem On.arm (h : On b x none 0) :
    On (arm small b x e) x (some (bucket small b.timerJiffies e)) 0 := by
  refine ⟨fun level i => ?_, h.work⟩
  have hzero : (b.vec level i).count x = 0 := by simpa using h.wheel level i
  simp only [TimerWheel.arm, TimerWheel.internalAddTimer, Function.update_self]
  by_cases hp : bucket small b.timerJiffies e = (level, i)
  · simp [hp, hzero]
  · rw [if_neg (Ne.symm hp), if_neg (by simpa using hp)]
    exact hzero

theorem arm_timer (small : Bool) (b : Base) (x : Nat) (e : Time) :
    (arm small b x e).timers x = { b.timers x with expires := e, pending := true } := by
  simp [arm, internalAddTimer]

def Flagged (b : Base) : Prop := ∀ x, (b.timers x).pending = false → On b x none 0

theorem Flagged.of_unmoved (h : Flagged b) (hu : ∀ y, x ≠ y → Unmoved y b b')
    (hx : (b'.timers x).pending = false → On b' x none 0) : Flagged b' := by
  intro y hy
  by_cases hxy : x = y
  · subst hxy
    exact hx hy
  · have hu := hu y hxy
    rw [hu.timer] at hy
    exact hu.on (h y hy)

theorem Flagged.release (h : Flagged b) (x : Nat) : Flagged (release b x) :=
  h.of_unmoved (fun _ hy => unmoved_release hy b) fun _ => .release b x

theorem Flagged.arm (h : Flagged b) (x : Nat) (e : Time) : Flagged (arm small b x e) :=
  h.of_unmoved (fun _ hy => unmoved_arm hy b) fun hp => by simp [arm_timer] at hp

theorem Flagged.step (h : Flagged s.base) (he : s.step small a = some s') : Flagged s'.base := by
  cases step_does he with
  | nothing => exact h
  | release => exact h.release _
  | arm => exact h.arm _ _
  | rearm => exact (h.release _).arm _ _
  | tick =>
    intro x hx
    rw [(startTick_same small s.base).2.1] at hx
    exact (h x hx).startTick_none small
  | expire => exact h.of_unmoved (fun _ hy => unmoved_detachTimer hy _) fun _ => .of_detachTimer _ _
  | next =>
    intro x hx
    have hu := unmoved_getNext small x s.base
    rw [hu.timer] at hx
    exact hu.on (h x hx)

theorem flagged_init (jiffies : Time) (deferrable : Nat → Bool) :
    Flagged (System.init jiffies deferrable).base :=
  fun _ _ => ⟨fun _ _ => by simp [System.init], rfl⟩

theorem flagged_run
    (hr : Run Ok (System.step small) (System.init jiffies deferrable) es s) : Flagged s.base := by
  have hinv := hr.invariant (fun {s : System} {_ _} (h : Flagged s.base) _ he => h.step he)
    (flagged_init jiffies deferrable)
  exact hinv

def runsOf (x : Nat) (log : List (Nat × Time)) : List (Nat × Time) := log.filter (·.1 == x)

/-- Where a timer is that was armed `n` ticks ago, `d` ahead of its tick, if `log` was run since. -/
inductive Fate (small : Bool) (x : Nat) (due : Time) (d n : Nat) (s : System)
    (log : List (Nat × Time)) : Prop where
  | waiting (hon : On s.base x (some p) 0)
      (hfit : Fits small s.base.timerJiffies due (s.base.timers x).expires p)
      (had : ahead s.base.timerJiffies due + n = d) (hlog : runsOf x log = [])
  | drained (hon : On s.base x none 1) (ht : s.base.timerJiffies = due + 1) (hn : n = d + 1)
      (hlog : runsOf x log = [])
  | fired (hon : On s.base x none 0) (hn : d < n) (hlog : runsOf x log = [(x, due)])

section
variable (h : Fate small x due d n s log)
include h

theorem Fate.of_unmoved (hu : Unmoved x s.base s'.base) :
    Fate small x due d n s' log := by
  cases h with
  | waiting hon hfit had hlog =>
    exact .waiting (hu.on hon) (by rw [hu.time, hu.timer]; exact hfit) (by rw [hu.time]; exact had)
      hlog
  | drained hon ht hn hlog => exact .drained (hu.on hon) (hu.time.trans ht) hn hlog
  | fired hon hn hlog => exact .fired (hu.on hon) hn hlog

theorem Fate.startTick (hw : s.base.workList = [])
    (hs : s'.base = startTick small s.base) : Fate small x due d (n + 1) s' log := by
  obtain ⟨ht, htm, -⟩ := startTick_same small s.base
  rw [← hs] at ht htm
  cases h with
  | waiting hon hfit had hlog =>
    rcases hon.startTick hfit with ⟨rfl, hon'⟩ | ⟨hne, p', hon', hfit'⟩
    · rw [ahead_self] at had
      exact .drained (hs ▸ hon') ht (by omega) hlog
    · have hpos : ahead s.base.timerJiffies due ≠ 0 := fun h0 => hne (ahead_eq_zero.mp h0)
      have hnear := ahead_succ hpos
      refine .waiting (hs ▸ hon') (by rw [ht, htm]; exact hfit') ?_ hlog
      rw [ht]
      omega
  | drained hon _ _ _ =>
    -- the next tick is started with an empty work list only
    have := hon.work
    rw [hw] at this
    cases this
  | fired hon hn hlog => exact .fired (hs ▸ hon.startTick_none small) (by omega) hlog

theorem Fate.expire (hy : y ∈ s.base.workList)
    (hs : s'.base = detachTimer s.base y) :
    Fate small x due d n s' (log ++ [(y, s.base.timerJiffies - 1)]) := by
  by_cases hyx : y = x
  · subst hyx
    have hcount : s.base.workList.count y ≠ 0 := fun h0 => List.count_eq_zero.mp h0 hy
    cases h with
    | waiting hon hfit had hlog => exact absurd hon.work hcount
    | drained hon ht hn hlog =>
      refine .fired (hs ▸ .of_detachTimer s.base y) (by omega) ?_
      have hdue : s.base.timerJiffies - 1#32 = due := by
        bv_omega
      simp only [runsOf] at hlog
      simp [runsOf, hlog, hdue]
    | fired hon hn hlog => exact absurd hon.work hcount
  · have hu : Unmoved x s.base s'.base := hs ▸ unmoved_detachTimer hyx s.base
    have hlog : runsOf x (log ++ [(y, s.base.timerJiffies - 1)]) = runsOf x log := by
      simp [runsOf, hyx]
    cases h.of_unmoved hu with
    | waiting hon hfit had hl => exact .waiting hon hfit had (hlog.trans hl)
    | drained hon ht hn hl => exact .drained hon ht hn (hlog.trans hl)
    | fired hon hn hl => exact .fired hon hn (hlog.trans hl)

theorem Fate.step (ha : a.touches x = false)
    (he : s.step small a = some s') : ∃ log', s'.ran = s.ran ++ log' ∧
      Fate small x due d (n + [a].countP Event.isTick) s' (log ++ log') := by
  have hother : ∀ {y}, a.touches y = true → y ≠ x := by
    rintro y hy rfl
    rw [ha] at hy
    cases hy
  cases step_does he with
  | nothing _ htick => exact ⟨[], by simp, by simpa [htick] using h⟩
  | release hy _ htick =>
    exact ⟨[], by simp, by simpa [htick] using h.of_unmoved (unmoved_release (hother hy) _)⟩
  | arm hy hp htick =>
    exact ⟨[], by simp, by simpa [htick] using h.of_unmoved (unmoved_arm (hother hy.touches) _)⟩
  | rearm hy hp htick =>
    have hne := hother hy.touches
    have hrel : Fate small x due d n { s with base := release s.base _ } log :=
      h.of_unmoved (unmoved_release hne _)
    exact ⟨[], by simp, by simpa [htick] using hrel.of_unmoved (unmoved_arm hne _)⟩
  | tick hw => exact ⟨[], by simp, by simpa [Event.isTick] using h.startTick hw rfl⟩
  | expire hy => exact ⟨_, rfl, by simpa [Event.isTick] using h.expire hy rfl⟩
  | next hw =>
    exact ⟨[], by simp, by simpa [Event.isTick] using h.of_unmoved (unmoved_getNext small x _)⟩

theorem Fate.run (hr : Run (fun _ a => a.touches x = false) (System.step small) s es s') :
    ∃ log', s'.ran = s.ran ++ log' ∧
      Fate small x due d (n + es.countP Event.isTick) s' (log ++ log') := by
  induction hr generalizing n log with
  | nil s => exact ⟨[], by simp, by simpa using h⟩
  | cons ha he _ ih =>
    obtain ⟨l₁, hran₁, h₁⟩ := h.step ha he
    obtain ⟨l₂, hran₂, h₂⟩ := ih h₁
    refine ⟨l₁ ++ l₂, by rw [hran₂, hran₁, List.append_assoc], ?_⟩
    rw [List.countP_cons] at *
    simpa [Nat.add_comm, Nat.add_left_comm] using h₂

end

theorem Fate.arm (hon : On b x none 0) (hs : s.base = arm small b x e) :
    Fate small x (dueAt b.timerJiffies e) (ahead b.timerJiffies (dueAt b.timerJiffies e)) 0
      s [] := by
  have ht : s.base.timerJiffies = b.timerJiffies := by
    rw [hs]
    rfl
  have htm : (s.base.timers x).expires = e := by rw [hs, arm_timer]
  refine .waiting (hs ▸ hon.arm) ?_ (by rw [ht]; rfl) rfl
  rw [ht, htm]
  exact fits_bucket small _ e

theorem Fate.armed (ha : s.base.Arms x e a) (hf : Flagged s.base) (he : s.step small a = some s') :
    Fate small x (dueAt s.base.timerJiffies e)
      (ahead s.base.timerJiffies (dueAt s.base.timerJiffies e)) 0 s' [] := by
  cases step_does he with
  | nothing hn => exact absurd ha (hn x e)
  | release _ hn => exact absurd ha (hn x e)
  | arm ha' hp =>
    obtain ⟨rfl, rfl⟩ := ha'.unique ha
    exact .arm (hf x hp) rfl
  | rearm ha' hp =>
    obtain ⟨rfl, rfl⟩ := ha'.unique ha
    have hfate : Fate small x _ _ 0
        { s with base := TimerWheel.arm small (release s.base x) x e } [] :=
      .arm (.release s.base x) rfl
    rw [release_time] at hfate
    exact hfate
  | tick => exact ha.elim
  | expire => exact ha.elim
  | next => exact ha.elim

/-- A timer armed at tick `t` with an expiry `e` less than half of the clock ahead is run in the
round of the tick `e`, one with another expiry in that of `t`. -/
theorem run_timers_on_time (small : Bool) (deferrable : Nat → Bool) (jiffies : Time)
    (h₁ : Run (fun _ _ => True) (System.step small) (System.init jiffies deferrable) es₁ s₁)
    (ha : s₁.base.Arms x e a) (he : s₁.step small a = some s₂)
    (h₂ : Run (fun _ a => a.touches x = false) (System.step small) s₂ es₂ s₃) :
    let t := s₁.base.timerJiffies
    let due := if (e - t).toNat < 2 ^ 31 then e else t
    let before := (due - t).toNat
    let ticks := es₂.countP Event.isTick
    ∃ log, s₃.ran = s₂.ran ++ log ∧ (ticks ≤ before → runsOf x log = []) ∧
      (ticks = before + 1 → runsOf x log = [] ∧ x ∈ s₃.base.workList ∨ runsOf x log = [(x, due)]) ∧
      (before + 1 < ticks → runsOf x log = [(x, due)]) := by
  intro t due before ticks
  obtain ⟨log, hran, hfate⟩ := (Fate.armed ha (flagged_run h₁) he).run h₂
  refine ⟨log, hran, ?_⟩
  simp only [Nat.zero_add] at hfate
  change Fate small x due before ticks s₃ log at hfate
  cases hfate with
  | waiting hon hfit had hlog =>
    exact ⟨fun _ => hlog, fun h => by omega, fun h => by omega⟩
  | drained hon ht hn hlog =>
    have hmem : x ∈ s₃.base.workList := List.count_pos_iff.mp (by rw [hon.work]; decide)
    exact ⟨fun h => by omega, fun _ => .inl ⟨hlog, hmem⟩, fun h => by omega⟩
  | fired hon hn hlog => exact ⟨fun h => by omega, fun _ => .inr hlog, fun _ => hlog⟩

/-- A timer that is armed one tick ahead, and the ticks until behind its own. -/
theorem run_timers_on_time_next : ∃ (s₂ s₃ : System) (log : List (Nat × Time)),
    (System.init 0 fun _ => false).step false (.modTimer 7 1) = some s₂ ∧
      s₃.ran = s₂.ran ++ log ∧ runsOf 7 log = [(7, 1)] := by
  obtain ⟨s₃, h₂⟩ : ∃ s₃, Run (fun _ a => a.touches 7 = false) (System.step false)
      ⟨modTimer false (System.init 0 fun _ => false).base 7 1, [], 0⟩
      [.tick 4, .tick 4, .expire, .tick 4] s₃ :=
    ⟨_, .cons rfl rfl (.cons rfl rfl (.cons rfl rfl (.cons rfl rfl (.nil _))))⟩
  have ha : (System.init 0 fun _ => false).base.Arms 7 1 (.modTimer 7 1) :=
    ⟨rfl, rfl, by simp [System.init]⟩
  obtain ⟨log, hran, -, -, hlog⟩ :=
    run_timers_on_time false (fun _ => false) 0 (.nil _) ha rfl h₂
  exact ⟨_, s₃, log, rfl, hran, hlog (by decide)⟩

end SpicaKernel.TimerWheel
