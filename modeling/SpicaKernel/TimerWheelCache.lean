import SpicaKernel.TimerWheelRuns
import SpicaKernel.TimerWheelSearch

namespace SpicaKernel.TimerWheel
open Time List
set_option autoImplicit true

def Base.Expects (b : Base) (x : Nat) : Prop :=
  (b.timers x).pending = true ∧ (b.timers x).deferrable = false

inductive Placed (b : Base) (x : Nat) : Prop where
  | idle (hp : (b.timers x).pending = false) (hon : On b x none 0)
  | waiting (hp : (b.timers x).pending = true) (hon : On b x (some p) 0)
      (hfit : Fits false b.timerJiffies (dueAt b.timerJiffies (b.timers x).expires)
        (b.timers x).expires p)
      (hfar : b.lead (b.timers x).expires < 2 ^ 30)
      (hlate : (b.timers x).deferrable = false → -2 ^ 30 < b.lead (b.timers x).expires)
  | drained (hp : (b.timers x).pending = true) (hon : On b x none 1)
      (hpast : (b.timers x).deferrable = false → b.lead (b.timers x).expires < 0)

theorem Placed.of_unmoved (h : Placed b x) (hu : Unmoved x b b') : Placed b' x := by
  have hlead : ∀ e, b'.lead e = b.lead e := fun e => congrArg (lead · e) hu.time
  cases h with
  | idle hp hon => exact .idle (hu.timer ▸ hp) (hu.on hon)
  | waiting hp hon hfit hfar hlate =>
    refine .waiting (hu.timer ▸ hp) (hu.on hon) ?_ ?_ ?_
    · rw [hu.time, hu.timer]
      exact hfit
    · rw [hlead, hu.timer]
      exact hfar
    · rw [hlead, hu.timer]
      exact hlate
  | drained hp hon hpast =>
    refine .drained (hu.timer ▸ hp) (hu.on hon) ?_
    rw [hlead, hu.timer]
    exact hpast

theorem Placed.arm (hon : On b x none 0) (hfar : b.lead e < 2 ^ 30)
    (hlate : (b.timers x).deferrable = false → -2 ^ 30 < b.lead e) :
    Placed (arm false b x e) x := by
  refine .waiting (by rw [arm_timer]) hon.arm ?_ ?_ ?_
  · rw [arm_timer]
    exact fits_bucket false b.timerJiffies e
  · rw [arm_timer]
    exact hfar
  · rw [arm_timer]
    exact hlate

theorem dueAt_eq (h : dueAt t e ≠ t) : ahead t e < 2 ^ 31 ∧ dueAt t e = e := by
  unfold dueAt at *
  split at h
  next hlt => exact ⟨hlt, if_pos hlt⟩
  next => exact absurd rfl h

theorem Placed.startTick (h : Placed b x) (hw : b.workList = []) :
    Placed (startTick false b) x := by
  obtain ⟨ht, htm, -⟩ := startTick_same false b
  have hlead : ∀ e, -2 ^ 31 < b.lead e → (TimerWheel.startTick false b).lead e = b.lead e - 1 :=
    fun e he => by rw [Base.lead, ht, lead_succ he]
  cases h with
  | idle hp hon => exact .idle (by rw [htm]; exact hp) (hon.startTick_none false)
  | drained hp hon =>
    have := hon.work
    rw [hw] at this
    cases this
  | waiting hp hon hfit hfar hlate =>
    rcases hon.startTick hfit with ⟨hdue, hon'⟩ | ⟨hne, p', hon', hfit'⟩
    · refine .drained (by rw [htm]; exact hp) hon' ?_
      rw [htm]
      intro hd
      have hlow := hlate hd
      rw [hlead _ (by omega)]
      have hle : b.lead (b.timers x).expires ≤ b.due x := lead_le_due b x
      rw [Base.due, hdue, ahead_self] at hle
      omega
    · obtain ⟨hlt, hdue⟩ := dueAt_eq hne
      rw [hdue] at hfit' hne
      have hpos : ahead b.timerJiffies (b.timers x).expires ≠ 0 :=
        fun h0 => hne (ahead_eq_zero.mp h0)
      have hnext := ahead_succ hpos
      have hfuture : 0 ≤ b.lead (b.timers x).expires := by
        rw [Base.lead, lead_of_ahead hlt]
        omega
      have hdue' : dueAt (b.timerJiffies + 1) (b.timers x).expires = (b.timers x).expires :=
        if_pos (by omega)
      refine .waiting (by rw [htm]; exact hp) hon' ?_ ?_ ?_
      · rw [ht, htm, hdue']
        exact hfit'
      · rw [htm, hlead _ (by omega)]
        omega
      · rw [htm, hlead _ (by omega)]
        omega

theorem Base.Waits.placed (hw : b.Waits level i x) (h : Placed b x) : b.Expects x ∧
    Fits false b.timerJiffies (dueAt b.timerJiffies (b.timers x).expires)
      (b.timers x).expires (level, i) ∧ Near b.timerJiffies (b.timers x).expires := by
  have hd : (b.timers x).deferrable = false := by simpa [Base.counts] using hw.2
  have hcount : (b.vec level i).count x ≠ 0 := fun h0 => count_eq_zero.mp h0 hw.1
  cases h with
  | idle hp hon => exact absurd (hon.wheel level i) hcount
  | drained hp hon => exact absurd (hon.wheel level i) hcount
  | @waiting p hp hon hfit hfar hlate =>
    rw [hon.wheel] at hcount
    obtain rfl : p = (level, i) := by
      by_contra hne
      exact hcount (if_neg (by simpa using hne))
    exact ⟨⟨hp, hd⟩, hfit, hlate hd, hfar⟩

theorem ready_of_placed (h : ∀ x, Placed b x) : b.Ready :=
  ⟨fun hw => (hw.placed (h _)).2.1, fun hw => (hw.placed (h _)).2.2⟩

theorem Base.Expects.waits (h : b.Expects x) (hp : Placed b x) (hw : b.workList = []) :
    ∃ level i, b.Waits level i x := by
  cases hp with
  | idle hp =>
    rw [h.1] at hp
    cases hp
  | drained hp hon =>
    have := hon.work
    rw [hw] at this
    cases this
  | @waiting p hp hon =>
    refine ⟨p.1, p.2, count_pos_iff.mp ?_, by simp [Base.counts, h.2]⟩
    rw [hon.wheel, if_pos rfl]
    exact Nat.one_pos

theorem due_cases (b : Base) (x : Nat) :
    (0 ≤ b.lead (b.timers x).expires ∧ (b.due x : Int) = b.lead (b.timers x).expires) ∨
      (b.lead (b.timers x).expires < 0 ∧ b.due x = 0) := by
  unfold Base.due Base.lead dueAt
  split
  next h =>
    rw [lead_of_ahead h]
    exact .inl ⟨by omega, rfl⟩
  next h => exact .inr ⟨lead_neg.mpr (Nat.not_lt.mp h), ahead_self _⟩

structure Watched (b : Base) (n : Nat) : Prop where
  placed : ∀ x, Placed b x
  since : n ≤ 2 ^ 30
  recent : -2 ^ 30 - (n : Int) < b.lead b.nextTimer
  soon : b.lead b.nextTimer < 2 ^ 30
  early : ∀ {x}, b.Expects x →
    b.lead b.nextTimer ≤ 0 ∨ b.lead b.nextTimer ≤ b.lead (b.timers x).expires

theorem Watched.init (jiffies : Time) (deferrable : Nat → Bool) :
    Watched (System.init jiffies deferrable).base 0 := by
  have hself : (System.init jiffies deferrable).base.lead
      (System.init jiffies deferrable).base.nextTimer = 0 := lead_self jiffies
  refine ⟨fun x => .idle rfl (flagged_init _ _ x rfl), by omega, by omega, by omega, fun h => ?_⟩
  cases h.1

theorem forgetNext_lead (b : Base) (x : Nat) :
    (forgetNext b x).lead (forgetNext b x).nextTimer = 0 ∨
      (forgetNext b x).nextTimer = b.nextTimer := by
  unfold forgetNext
  split
  · exact .inl (lead_self b.timerJiffies)
  · exact .inr rfl

theorem forgetNext_timers (b : Base) (x : Nat) : (forgetNext b x).timers = b.timers := by
  unfold forgetNext
  split <;> rfl

theorem Watched.forgetNext (h : Watched b n) (x : Nat) : Watched (forgetNext b x) n := by
  obtain ⟨hplaced, hsince, hrecent, hsoon, hearly⟩ := h
  have hplaced' := fun y => (hplaced y).of_unmoved (unmoved_forgetNext y x b)
  have hlead : ∀ e, (TimerWheel.forgetNext b x).lead e = b.lead e :=
    fun e => congrArg (lead · e) (unmoved_forgetNext x x b).time
  rcases forgetNext_lead b x with h0 | hN
  · exact ⟨hplaced', hsince, by omega, by omega, fun _ => .inl (by omega)⟩
  · refine ⟨hplaced', hsince, by rwa [hlead, hN], by rwa [hlead, hN], fun {y} hy => ?_⟩
    rw [hlead, hlead, hN, forgetNext_timers]
    unfold Base.Expects at hy
    rw [forgetNext_timers] at hy
    exact hearly hy

theorem expects_detachTimer : (detachTimer b x).Expects y ↔ y ≠ x ∧ b.Expects y := by
  unfold Base.Expects detachTimer
  by_cases hy : y = x
  · simp [hy]
  · simp [hy]

theorem Watched.detachTimer (h : Watched b n) (x : Nat) : Watched (detachTimer b x) n := by
  refine ⟨fun y => ?_, h.since, h.recent, h.soon, fun {y} hy => ?_⟩
  · by_cases hyx : x = y
    · subst hyx
      exact .idle (by simp [TimerWheel.detachTimer]) (.of_detachTimer b x)
    · exact (h.placed y).of_unmoved (unmoved_detachTimer hyx b)
  · obtain ⟨hne, hy⟩ := expects_detachTimer.mp hy
    have htimer := (unmoved_detachTimer hne.symm b).timer
    rw [htimer]
    exact h.early hy

theorem Watched.release (h : Watched b n) (x : Nat) : Watched (release b x) n :=
  (h.detachTimer x).forgetNext x

theorem arm_nextTimer (small : Bool) (b : Base) (x : Nat) (e : Time) : (arm small b x e).nextTimer =
      if before e b.nextTimer ∧ (b.timers x).deferrable = false then e else b.nextTimer := rfl

theorem expects_arm : (arm small b x e).Expects y ↔
    (y = x ∧ (b.timers x).deferrable = false) ∨ (y ≠ x ∧ b.Expects y) := by
  unfold Base.Expects
  by_cases hy : y = x
  · subst hy
    simp [arm_timer]
  · rw [(unmoved_arm (Ne.symm hy) b).timer]
    simp [hy]

theorem Watched.arm (h : Watched b n) (hon : On b x none 0) (hfar : b.lead e < 2 ^ 30)
    (hlate : (b.timers x).deferrable = false →
      -2 ^ 30 < b.lead e ∧ -2 ^ 30 ≤ b.lead b.nextTimer) : Watched (arm false b x e) n := by
  have hplaced : ∀ y, Placed (TimerWheel.arm false b x e) y := by
    intro y
    by_cases hy : x = y
    · subst hy
      exact .arm hon hfar fun hd => (hlate hd).1
    · exact (h.placed y).of_unmoved (unmoved_arm hy b)
  have htimer : ∀ {y}, y ≠ x → (TimerWheel.arm false b x e).timers y = b.timers y :=
    fun hy => (unmoved_arm (Ne.symm hy) b).timer
  have hlead : ∀ e', (TimerWheel.arm false b x e).lead e' = b.lead e' := fun _ => rfl
  have hrecent := h.recent
  have hsoon := h.soon
  by_cases hd : (b.timers x).deferrable = false
  · obtain ⟨hlow, hold⟩ := hlate hd
    have hiff : before e b.nextTimer = true ↔ b.lead e < b.lead b.nextTimer := by
      unfold Base.lead at *
      exact Time.before_iff b.timerJiffies (by omega) (by omega)
    have hN : b.lead (TimerWheel.arm false b x e).nextTimer ≤ b.lead e ∧
        b.lead (TimerWheel.arm false b x e).nextTimer ≤ b.lead b.nextTimer ∧
        -2 ^ 30 - (n : Int) < b.lead (TimerWheel.arm false b x e).nextTimer := by
      rw [arm_nextTimer]
      split
      next hb =>
        have := hiff.mp hb.1
        omega
      next hb =>
        have := mt hiff.mpr fun hb' => hb ⟨hb', hd⟩
        omega
    obtain ⟨hNe, hNN, hNr⟩ := hN
    refine ⟨hplaced, h.since, hNr, by rw [hlead]; omega, fun {y} hy => ?_⟩
    rw [hlead, hlead]
    rcases expects_arm.mp hy with ⟨rfl, -⟩ | ⟨hne, hy⟩
    · rw [arm_timer]
      exact .inr hNe
    · rw [htimer hne]
      have := h.early hy
      omega
  · have hN : (TimerWheel.arm false b x e).nextTimer = b.nextTimer := by
      rw [arm_nextTimer, if_neg fun hb => hd hb.2]
    refine ⟨hplaced, h.since, by rwa [hN], by rwa [hN], fun {y} hy => ?_⟩
    rw [hlead, hN]
    rcases expects_arm.mp hy with ⟨-, hd'⟩ | ⟨hne, hy⟩
    · exact absurd hd' hd
    · rw [htimer hne]
      exact h.early hy

theorem Watched.startTick (h : Watched b n) (hw : b.workList = []) (hn : n < 2 ^ 30) :
    Watched (startTick false b) (n + 1) := by
  obtain ⟨ht, htm, hN⟩ := startTick_same false b
  have hlead : ∀ e, -2 ^ 31 < b.lead e → (TimerWheel.startTick false b).lead e = b.lead e - 1 :=
    fun e he => by rw [Base.lead, ht, lead_succ he]
  have hrecent := h.recent
  have hsoon := h.soon
  have hnext := hlead b.nextTimer (by omega)
  refine ⟨fun x => (h.placed x).startTick hw, hn, ?_, ?_, fun {x} hx => ?_⟩
  · rw [hN]
    omega
  · rw [hN]
    omega
  · unfold Base.Expects at hx
    rw [htm] at hx
    obtain ⟨level, i, hwaits⟩ := Base.Expects.waits hx (h.placed x) hw
    have hnear := (hwaits.placed (h.placed x)).2.2
    have hearly := h.early hx
    rw [hN, htm, hnext, hlead _ (by have := hnear.1; unfold Base.lead; omega)]
    omega

theorem getNext_nextTimer (h : Watched b n) : (b.lead b.nextTimer ≤ 0 ∧
      (getNextTimerInterrupt false b).nextTimer = nextTimerInterrupt false b) ∨
    (0 < b.lead b.nextTimer ∧ (getNextTimerInterrupt false b).nextTimer = b.nextTimer) := by
  have hiff : beforeEq b.nextTimer b.timerJiffies = true ↔ b.lead b.nextTimer ≤ 0 := by
    have := h.since
    have := h.recent
    exact beforeEq_iff (by unfold Base.lead at *; omega)
  unfold getNextTimerInterrupt
  split
  next hb => exact .inl ⟨hiff.mp hb, rfl⟩
  next hb => exact .inr ⟨Int.not_le.mp (mt hiff.mpr hb), rfl⟩

theorem Watched.getNext_le (h : Watched b n) (hw : b.workList = []) (hx : b.Expects x) :
    b.lead (getNextTimerInterrupt false b).nextTimer ≤ b.due x := by
  have hready := ready_of_placed h.placed
  obtain ⟨level, i, hwaits⟩ := hx.waits (h.placed x) hw
  rcases getNext_nextTimer h with ⟨-, hN⟩ | ⟨hpos, hN⟩
  · rw [hN]
    rcases nextTimerInterrupt_spec hready with hbest | ⟨hnone, -⟩
    · obtain ⟨o, hs⟩ := hready.stands hwaits
      exact hbest.least (Nat.lt_succ_of_le hs.top) hwaits
    · exact absurd hwaits (hnone level i x)
  · rw [hN]
    have hearly := h.early hx
    have hle := lead_le_due b x
    omega

theorem Watched.getNext (h : Watched b n) (hw : b.workList = []) :
    Watched (getNextTimerInterrupt false b) 0 := by
  have hunmoved : ∀ x, Unmoved x b (getNextTimerInterrupt false b) :=
    fun x => unmoved_getNext false x b
  have hlead : ∀ e, (getNextTimerInterrupt false b).lead e = b.lead e :=
    fun e => congrArg (lead · e) (hunmoved 0).time
  have hbounds : -2 ^ 30 < b.lead (getNextTimerInterrupt false b).nextTimer ∧
      b.lead (getNextTimerInterrupt false b).nextTimer < 2 ^ 30 := by
    rcases getNext_nextTimer h with ⟨-, hN⟩ | ⟨hpos, hN⟩
    · rw [hN]
      rcases nextTimerInterrupt_spec (ready_of_placed h.placed) with hbest | ⟨-, hmax⟩
      · obtain ⟨level, i, x, hwaits, he⟩ := hbest.held
        rw [← he]
        exact (hwaits.placed (h.placed x)).2.2
      · rw [hmax, Base.lead, lead_add _ (by decide)]
        decide
    · rw [hN]
      have := h.soon
      omega
  refine ⟨fun x => (h.placed x).of_unmoved (hunmoved x), by omega, ?_, ?_, fun {x} hx => ?_⟩
  · rw [hlead]
    omega
  · rw [hlead]
    exact hbounds.2
  · unfold Base.Expects at hx
    rw [(hunmoved x).timer] at hx
    have hle := h.getNext_le hw hx
    rw [hlead, hlead, (hunmoved x).timer]
    rcases due_cases b x with ⟨-, hdue⟩ | ⟨-, hdue⟩
    · exact .inr (by omega)
    · exact .inl (by omega)

def Kept (b : Base) : Prop :=
  0 < b.lead b.nextTimer → ∃ x, b.Expects x ∧ (b.timers x).expires = b.nextTimer

theorem Kept.expire (h : Kept b) (hx : Placed b x) (hmem : x ∈ b.workList) :
    Kept (detachTimer b x) := by
  intro hpos
  obtain ⟨y, hy, he⟩ := h hpos
  have hne : y ≠ x := by
    rintro rfl
    -- a timer on the work list is behind its tick
    have hcount : b.workList.count y ≠ 0 := fun h0 => count_eq_zero.mp h0 hmem
    cases hx with
    | idle hp hon => exact hcount hon.work
    | waiting hp hon => exact hcount hon.work
    | drained hp hon hpast =>
      have hlt := hpast hy.2
      rw [he] at hlt
      exact absurd hpos (Int.lt_asymm hlt)
  exact ⟨y, expects_detachTimer.mpr ⟨hne, hy⟩, by
    rw [(unmoved_detachTimer hne.symm b).timer]
    exact he⟩

theorem Kept.release (h : Kept b) (x : Nat) : Kept (release b x) := by
  intro hpos
  simp only [TimerWheel.release, TimerWheel.forgetNext] at hpos ⊢
  split at hpos
  · exact absurd (lead_self b.timerJiffies) (Int.ne_of_gt hpos)
  next hn =>
    rw [if_neg hn]
    obtain ⟨y, hy, he⟩ := h hpos
    have hne : y ≠ x := by
      rintro rfl
      refine hn ⟨?_, ?_⟩
      · simpa [TimerWheel.detachTimer] using he
      · simpa [TimerWheel.detachTimer] using hy.2
    refine ⟨y, expects_detachTimer.mpr ⟨hne, hy⟩, ?_⟩
    rw [(unmoved_detachTimer hne.symm b).timer]
    exact he

theorem Kept.arm (h : Kept b) (hp : (b.timers x).pending = false) : Kept (arm small b x e) := by
  intro hpos
  rw [arm_nextTimer] at hpos ⊢
  split at hpos
  next hb =>
    rw [if_pos hb]
    exact ⟨x, expects_arm.mpr (.inl ⟨rfl, hb.2⟩), by rw [arm_timer]⟩
  next hb =>
    rw [if_neg hb]
    obtain ⟨y, hy, he⟩ := h hpos
    have hne : y ≠ x := by
      rintro rfl
      rw [hy.1] at hp
      cases hp
    refine ⟨y, expects_arm.mpr (.inr ⟨hne, hy⟩), ?_⟩
    rw [(unmoved_arm hne.symm b).timer]
    exact he

theorem Kept.startTick (h : Kept b) (hw : Watched b n) (hn : n < 2 ^ 30) :
    Kept (startTick false b) := by
  obtain ⟨ht, htm, hN⟩ := startTick_same false b
  have hrecent := hw.recent
  intro hpos
  rw [hN, Base.lead, ht, lead_succ (by unfold Base.lead at *; omega)] at hpos
  obtain ⟨y, hy, he⟩ := h (by unfold Base.lead; omega)
  refine ⟨y, ?_, by rw [htm, hN]; exact he⟩
  unfold Base.Expects
  rw [htm]
  exact hy

theorem Kept.getNext_held (h : Kept b) (hb : Watched b n) (hw : b.workList = [])
    (hx : ∃ x, b.Expects x) :
    ∃ x, b.Expects x ∧ (b.timers x).expires = (getNextTimerInterrupt false b).nextTimer := by
  rcases getNext_nextTimer hb with ⟨-, hN⟩ | ⟨hpos, hN⟩
  · rw [hN]
    rcases nextTimerInterrupt_spec (ready_of_placed hb.placed) with hbest | ⟨hnone, -⟩
    · obtain ⟨level, i, x, hwaits, he⟩ := hbest.held
      exact ⟨x, (hwaits.placed (hb.placed x)).1, he⟩
    · obtain ⟨x, hx⟩ := hx
      obtain ⟨level, i, hwaits⟩ := hx.waits (hb.placed x) hw
      exact absurd hwaits (hnone level i x)
  · rw [hN]
    exact h hpos

open Function

variable {s s' : System} {a : Event}

/-- Expiries less than `2^30` ticks ahead or in the past, and `get_next_timer_interrupt` evaluated
at least once every `2^30` ticks. -/
def Admitted (s : System) (a : Event) : Prop :=
  (∀ x e, s.base.Arms x e a → s.base.lead e < 2 ^ 30) ∧ (a.isTick = true → s.sinceNext < 2 ^ 30)

/-- Timers that are not deferrable are armed only while their expiry and `next_timer` are at most
`2^30` ticks behind. -/
def Timely (s : System) (a : Event) : Prop :=
  ∀ x e, s.base.Arms x e a → (s.base.timers x).deferrable = false →
    -2 ^ 30 < s.base.lead e ∧ -2 ^ 30 ≤ s.base.lead s.base.nextTimer

/-- `get_next_timer_interrupt` is evaluated only while there is a timer to find. -/
def Informed (s : System) : Event → Prop
  | .getNextTimerInterrupt => ∃ x, s.base.Expects x
  | _ => True

theorem release_deferrable (b : Base) (x : Nat) :
    ((release b x).timers x).deferrable = (b.timers x).deferrable := by
  rw [release, forgetNext_timers]
  simp [detachTimer]

theorem Watched.step (h : Watched s.base s.sinceNext) (ha : Admitted s a) (ht : Timely s a)
    (he : s.step false a = some s') : Watched s'.base s'.sinceNext := by
  cases step_does he with
  | nothing => exact h
  | release => exact h.release _
  | @arm x e _ harm hp =>
    have hon : On s.base x none 0 := by
      cases h.placed x with
      | idle _ hon => exact hon
      | waiting hp' =>
        rw [hp] at hp'
        cases hp'
      | drained hp' =>
        rw [hp] at hp'
        cases hp'
    exact h.arm hon (ha.1 x e harm) (ht x e harm)
  | @rearm x e _ harm hp =>
    have hlead : ∀ e', (TimerWheel.release s.base x).lead e' = s.base.lead e' :=
      fun e' => congrArg (lead · e') (release_time s.base x)
    refine (h.release x).arm (.release s.base x) ?_ fun hd => ?_
    · rw [hlead]
      exact ha.1 x e harm
    · rw [release_deferrable] at hd
      obtain ⟨hlow, hold⟩ := ht x e harm hd
      rw [hlead]
      refine ⟨hlow, ?_⟩
      rcases forgetNext_lead (TimerWheel.detachTimer s.base x) x with h0 | hN
      · unfold TimerWheel.release
        omega
      · rw [hlead, TimerWheel.release, hN]
        exact hold
  | tick hw => exact h.startTick hw (ha.2 rfl)
  | expire hy => exact h.detachTimer _
  | next hw => exact h.getNext hw

theorem Kept.step (h : Kept s.base) (hb : Watched s.base s.sinceNext) (ha : Admitted s a)
    (hi : Informed s a) (he : s.step false a = some s') : Kept s'.base := by
  cases step_does he with
  | nothing => exact h
  | release => exact h.release _
  | arm _ hp => exact h.arm hp
  | rearm =>
    refine (h.release _).arm ?_
    rw [TimerWheel.release, forgetNext_timers]
    simp [detachTimer]
  | tick hw => exact h.startTick hb (ha.2 rfl)
  | expire hy => exact h.expire (hb.placed _) hy
  | next hw =>
    intro _
    obtain ⟨x, hx, hexp⟩ := h.getNext_held hb hw hi
    have htimer := (unmoved_getNext false x s.base).timer
    refine ⟨x, ?_, ?_⟩
    · unfold Base.Expects
      rw [htimer]
      exact hx
    · rw [htimer]
      exact hexp

theorem watched_run (hr : Run (fun s a => Admitted s a ∧ Timely s a)
    (System.step false) (System.init jiffies deferrable) es s) : Watched s.base s.sinceNext := by
  have hinv := hr.invariant
    (fun {s : System} {_ _} (h : Watched s.base s.sinceNext) ha he => h.step ha.1 ha.2 he)
    (Watched.init jiffies deferrable)
  exact hinv

theorem kept_run (hr : Run (fun s a => Admitted s a ∧ Timely s a ∧ Informed s a)
    (System.step false) (System.init jiffies deferrable) es s) :
    Watched s.base s.sinceNext ∧ Kept s.base := by
  have hinv := hr.invariant
    (fun {s : System} {_ _} (h : Watched s.base s.sinceNext ∧ Kept s.base) ha he =>
      ⟨h.1.step ha.1 ha.2.1 he, h.2.step h.1 ha.1 ha.2.2 he⟩)
    ⟨Watched.init jiffies deferrable, fun hpos => absurd (lead_self jiffies) (Int.ne_of_gt hpos)⟩
  exact hinv

theorem Placed.run (h : Placed s.base x) (hx : s.base.Expects x) (hw : s.base.workList = [])
    (hr : Run (fun _ a => a.touches x = false) (System.step false) s es s')
    (hmem : (x, tick) ∈ s'.ran.drop s.ran.length) :
    tick = dueAt s.base.timerJiffies (s.base.timers x).expires := by
  cases h with
  | idle hp =>
    rw [hx.1] at hp
    cases hp
  | drained hp hon =>
    have := hon.work
    rw [hw] at this
    cases this
  | waiting hp hon hfit =>
    have hfate : Fate false x _ _ 0 s [] := .waiting hon hfit rfl rfl
    obtain ⟨log, hran, hend⟩ := hfate.run hr
    rw [hran, drop_left] at hmem
    have hruns : (x, tick) ∈ runsOf x log := mem_filter.mpr ⟨hmem, by simp⟩
    rw [nil_append] at hend
    cases hend with
    | waiting _ _ _ hlog =>
      rw [hlog] at hruns
      cases hruns
    | drained _ _ _ hlog =>
      rw [hlog] at hruns
      cases hruns
    | fired _ _ hlog =>
      rw [hlog] at hruns
      exact (Prod.mk.inj (mem_singleton.mp hruns)).2

theorem lead_dueAt (b : Base) (x : Nat) :
    b.lead (dueAt b.timerJiffies (b.timers x).expires) = b.due x := by
  refine lead_of_ahead ?_
  unfold dueAt
  split
  next h => exact h
  next =>
    rw [ahead_self]
    decide

theorem getNext_eq (small : Bool) (b : Base) : getNextTimerInterrupt small b =
    { b with nextTimer := (getNextTimerInterrupt small b).nextTimer } := by
  unfold getNextTimerInterrupt
  split <;> rfl

theorem step_getNext (he : s.step false .getNextTimerInterrupt = some s') :
    s.base.workList = [] ∧ ∃ b next n, b = s.base ∧
      next = (getNextTimerInterrupt false b).nextTimer ∧
      s' = ⟨{ b with nextTimer := next }, s.ran, n⟩ := by
  simp only [System.step] at he
  split at he
  next hw =>
    obtain rfl := Option.some.inj he
    rw [getNext_eq]
    exact ⟨hw, _, _, _, rfl, rfl, rfl⟩
  next => cases he

/-- The cached time is not later than the tick of any pending timer that is not deferrable, and is
the least of their expiries if none is in the past. -/
theorem get_next_timer_interrupt_not_late (jiffies : Time) (deferrable : Nat → Bool) :
    (∀ es s s', Run (fun s a => Admitted s a ∧ Timely s a) (System.step false)
        (System.init jiffies deferrable) es s →
      s.step false .getNextTimerInterrupt = some s' →
      ∀ x es' s'' tick, s'.base.Expects x →
        Run (fun _ a => a.touches x = false) (System.step false) s' es' s'' →
        (x, tick) ∈ s''.ran.drop s'.ran.length →
        lead s'.base.timerJiffies s'.base.nextTimer ≤ lead s'.base.timerJiffies tick) ∧
    (∀ es s s', Run (fun s a => Admitted s a ∧ Timely s a ∧ Informed s a) (System.step false)
        (System.init jiffies deferrable) es s →
      Informed s .getNextTimerInterrupt → s.step false .getNextTimerInterrupt = some s' →
      (∀ x, s'.base.Expects x → 0 ≤ lead s'.base.timerJiffies (s'.base.timers x).expires) →
      (∃ x, s'.base.Expects x ∧ (s'.base.timers x).expires = s'.base.nextTimer) ∧
      ∀ x, s'.base.Expects x → lead s'.base.timerJiffies s'.base.nextTimer ≤
        lead s'.base.timerJiffies (s'.base.timers x).expires) := by
  constructor
  · intro es s s' hr he x es' s'' tick hx hr' hmem
    have hwatch := watched_run hr
    obtain ⟨hw, b, next, n, rfl, hnext, rfl⟩ := step_getNext he
    have hplaced : Placed { s.base with nextTimer := next } x :=
      (hwatch.placed x).of_unmoved ⟨rfl, rfl, fun h => h.of_lists rfl rfl⟩
    obtain rfl := hplaced.run hx hw hr' hmem
    have hle := hwatch.getNext_le hw (x := x) hx
    rw [← hnext, ← lead_dueAt] at hle
    exact hle
  · intro es s s' hr hi he hall
    obtain ⟨hwatch, hkept⟩ := kept_run hr
    obtain ⟨hw, b, next, n, rfl, hnext, rfl⟩ := step_getNext he
    refine ⟨?_, fun x hx => ?_⟩
    · have hheld := hkept.getNext_held hwatch hw hi
      rwa [← hnext] at hheld
    · have hle := hwatch.getNext_le hw (x := x) hx
      rw [← hnext] at hle
      rcases due_cases s.base x with ⟨-, hdue⟩ | ⟨hlate, -⟩
      · exact Int.le_trans hle (Int.le_of_eq hdue)
      · exact absurd hlate (Int.not_lt.mpr (hall x hx))

def nextBase : Base := modTimer false (System.init 0 fun _ => false).base 3 1

theorem nextBase_ok : Admitted (System.init 0 fun _ => false) (.addTimer 3 1) ∧
    Timely (System.init 0 fun _ => false) (.addTimer 3 1) := by
  refine ⟨⟨?_, nofun⟩, ?_⟩
  · rintro _ _ ⟨rfl, rfl⟩
    decide
  · rintro _ _ ⟨rfl, rfl⟩ -
    decide

theorem get_next_timer_interrupt_not_late_next :
    lead 0 (getNextTimerInterrupt false nextBase).nextTimer ≤ lead 0 1 ∧
      ∃ x, (getNextTimerInterrupt false nextBase).Expects x ∧
        ((getNextTimerInterrupt false nextBase).timers x).expires =
          (getNextTimerInterrupt false nextBase).nextTimer := by
  obtain ⟨h₁, h₂⟩ := get_next_timer_interrupt_not_late 0 fun _ => false
  have hrun : Run (fun _ a => a.touches 3 = false) (System.step false)
      ⟨getNextTimerInterrupt false nextBase, [], 0⟩ [.tick 1, .tick 1, .expire] _ :=
    .cons rfl rfl (.cons rfl rfl (.cons rfl rfl (.nil _)))
  have hall : ∀ x, (getNextTimerInterrupt false nextBase).Expects x →
      0 ≤ lead 0 ((getNextTimerInterrupt false nextBase).timers x).expires := by
    intro x hx
    by_cases hx3 : x = 3
    · subst hx3
      decide
    · have htimers : (getNextTimerInterrupt false nextBase).timers =
          update (fun _ => ⟨0, false, false⟩) 3 ⟨1, false, true⟩ := rfl
      have hp := hx.1
      rw [htimers, update_of_ne hx3] at hp
      cases hp
  refine ⟨?_, ?_⟩
  · exact h₁ [.addTimer 3 1] ⟨nextBase, [], 0⟩ _ (.cons nextBase_ok rfl (.nil _)) rfl 3 _ _ 1
      ⟨rfl, rfl⟩ hrun (by decide)
  · exact (h₂ [.addTimer 3 1] ⟨nextBase, [], 0⟩ _
      (.cons ⟨nextBase_ok.1, nextBase_ok.2, trivial⟩ rfl (.nil _)) ⟨3, rfl, rfl⟩ rfl hall).1

theorem cascade_empty (h : b.vec level index = []) : cascade small b level index = b := by
  have hrow : update (b.vec level) index [] = b.vec level := by
    rw [← h, update_eq_self]
  simp [cascade, h, hrow]

theorem startTick_empty (hv : b.vec = fun _ _ => []) (hw : b.workList = []) :
    startTick small b = { b with timerJiffies := b.timerJiffies + 1 } := by
  have hempty : ∀ level i, b.vec level i = [] := fun _ _ => by rw [hv]
  have hcascades : cascades small b = b := by simp [cascades, cascade_empty, hempty]
  simp [startTick, hcascades, hempty, hw]

theorem vec_of_on (h : ∀ x, On b x none w) : b.vec = fun _ _ => [] := by
  funext level i
  refine eq_nil_iff_forall_not_mem.mpr fun x hx => ?_
  have hcount := (h x).wheel level i
  exact count_eq_zero.mp hcount hx

def Close (s : System) (a : Event) : Prop :=
  Admitted s a ∧ ∀ x e, s.base.Arms x e a → -2 ^ 30 < s.base.lead e

theorem close_tick (h : s.sinceNext < 2 ^ 30) : Close s (.tick jiffies) :=
  ⟨⟨fun _ _ h => h.elim, fun _ => h⟩, fun _ _ h => h.elim⟩

theorem close_modTimer (h : Near s.base.timerJiffies e) : Close s (.modTimer x e) := by
  refine ⟨⟨?_, fun h => by cases h⟩, ?_⟩
  · rintro _ _ ⟨rfl, rfl, -⟩
    exact h.2
  · rintro _ _ ⟨rfl, rfl, -⟩
    exact h.1

theorem idle_ticks (n : Nat) (hv : s.base.vec = fun _ _ => []) (hw : s.base.workList = [])
    (hn : s.sinceNext + n ≤ 2 ^ 30) : ∃ es, Run Close (System.step false) s es
      ⟨{ s.base with timerJiffies := s.base.timerJiffies + BitVec.ofNat 32 n }, s.ran,
        s.sinceNext + n⟩ := by
  induction n generalizing s with
  | zero => exact ⟨[], by simpa using Run.nil s⟩
  | succ n ih =>
    have hstep : s.step false (.tick s.base.timerJiffies) = some
        ⟨{ s.base with timerJiffies := s.base.timerJiffies + 1 }, s.ran, s.sinceNext + 1⟩ := by
      have hself : beforeEq s.base.timerJiffies s.base.timerJiffies = true := by simp [beforeEq]
      simp [System.step, hw, hself, startTick_empty hv hw]
    obtain ⟨es, hr⟩ := ih (s := ⟨{ s.base with timerJiffies := s.base.timerJiffies + 1 }, s.ran,
      s.sinceNext + 1⟩) hv hw (by simp only; omega)
    have htime : s.base.timerJiffies + 1 + BitVec.ofNat 32 n =
        s.base.timerJiffies + BitVec.ofNat 32 (n + 1) := by bv_omega
    simp only [htime, Nat.add_assoc, Nat.add_comm 1 n] at hr
    exact ⟨_, .cons (close_tick (by omega)) hstep hr⟩

def stale : Time := 3221225473

def lagging (t : Time) (n : Nat) : System :=
  ⟨⟨t, stale, fun _ _ => [], update (fun _ => ⟨0, false, false⟩) 0 ⟨stale, false, false⟩,
    []⟩, [(0, 0)], n⟩

def staleBase : Base := arm false (System.init 0 fun _ => false).base 0 stale

theorem expire_lagging :
    System.step false ⟨startTick false staleBase, [], 1⟩ .expire = some (lagging 1 1) := by
  have hon : ∀ x, On (detachTimer (startTick false staleBase) 0) x none 0 := by
    intro x
    by_cases hx : 0 = x
    · subst hx
      exact .of_detachTimer _ 0
    · have harm : On staleBase x none 0 :=
        (unmoved_arm hx _).on (flagged_init 0 (fun _ => false) x rfl)
      exact (unmoved_detachTimer hx _).on (harm.startTick_none false)
  have hv := vec_of_on hon
  obtain ⟨ht, htm, hN⟩ := startTick_same false staleBase
  have hwork : (startTick false staleBase).workList = [0] := rfl
  simp only [System.step]
  simp only [detachTimer] at hv
  simp only [detachTimer, hv, htm, hwork, lagging]
  simp [staleBase, arm, internalAddTimer, System.init]
  decide

theorem lagging_run : ∃ es, Run Close (System.step false) (System.init 0 fun _ => false) es
    (lagging 1073741822 1073741822) := by
  obtain ⟨es, hr⟩ := idle_ticks (s := lagging 1 1) 1073741821 rfl rfl (by decide)
  refine ⟨.modTimer 0 stale :: .tick 0 :: .expire :: es, ?_⟩
  refine .cons (close_modTimer (by unfold Near; decide)) rfl ?_
  refine .cons (close_tick (by decide)) rfl ?_
  exact .cons ⟨⟨fun _ _ h => h.elim, nofun⟩, fun _ _ h => h.elim⟩ expire_lagging hr

def lateBase : Base :=
  modTimer false (modTimer false (lagging 1073741822 1073741822).base 1 1073741824) 2 2147483645

theorem lateBase_run : ∃ es, Run Close (System.step false) (System.init 0 fun _ => false) es
    ⟨lateBase, [(0, 0)], 1073741822⟩ := by
  obtain ⟨es, hr⟩ := lagging_run
  have harm : Run Close (System.step false) (lagging 1073741822 1073741822)
      [.modTimer 1 1073741824, .modTimer 2 2147483645] ⟨lateBase, [(0, 0)], 1073741822⟩ :=
    .cons (close_modTimer (by unfold Near; decide)) rfl
      (.cons (close_modTimer (by unfold Near; decide)) rfl (.nil _))
  exact ⟨_, hr.trans harm⟩

def loneBase : Base :=
  modTimer false (startTick false (getNextTimerInterrupt false
    (System.init 0 fun _ => false).base)) 1 1073741824

theorem loneBase_run : Run (fun s a => Close s a ∧ Timely s a) (System.step false)
    (System.init 0 fun _ => false) [.getNextTimerInterrupt, .tick 0, .modTimer 1 1073741824]
    ⟨loneBase, [], 1⟩ := by
  refine .cons ⟨⟨⟨fun _ _ h => h.elim, nofun⟩, fun _ _ h => h.elim⟩, fun _ _ h => h.elim⟩ rfl ?_
  refine .cons ⟨close_tick (by decide), fun _ _ h => h.elim⟩ rfl ?_
  refine .cons ⟨close_modTimer (by unfold Near; decide +kernel), ?_⟩ rfl (.nil _)
  rintro _ _ ⟨rfl, rfl, -⟩ -
  decide +kernel

theorem loneBase_timers : (getNextTimerInterrupt false loneBase).timers =
    update (fun _ => ⟨0, false, false⟩) 1 ⟨1073741824, false, true⟩ := rfl

/-- A timer whose expiry is taken for earlier than the cached time is armed beside one two ticks
ahead; and a lookup without any timer leaves a time that stays. -/
theorem get_next_timer_interrupt_late :
    (∃ es s s' x es' s'' tick, Run Close (System.step false) (System.init 0 fun _ => false) es s ∧
      s.step false .getNextTimerInterrupt = some s' ∧ s'.base.Expects x ∧
      Run (fun _ a => a.touches x = false) (System.step false) s' es' s'' ∧
      (x, tick) ∈ s''.ran.drop s'.ran.length ∧
      lead s'.base.timerJiffies tick < lead s'.base.timerJiffies s'.base.nextTimer) ∧
    (∃ es s s', Run (fun s a => Close s a ∧ Timely s a) (System.step false)
        (System.init 0 fun _ => false) es s ∧
      s.step false .getNextTimerInterrupt = some s' ∧ (∃ x, s'.base.Expects x) ∧
      (∀ x, s'.base.Expects x → 0 ≤ lead s'.base.timerJiffies (s'.base.timers x).expires) ∧
      ∀ x, s'.base.Expects x → (s'.base.timers x).expires ≠ s'.base.nextTimer) := by
  constructor
  · obtain ⟨es, hr⟩ := lateBase_run
    have hrun : Run (fun _ a => a.touches 1 = false) (System.step false)
        ⟨getNextTimerInterrupt false lateBase, [(0, 0)], 0⟩
        [.tick 1073741822, .tick 1073741823, .tick 1073741824, .expire] _ :=
      .cons rfl rfl (.cons rfl rfl (.cons rfl rfl (.cons rfl rfl (.nil _))))
    exact ⟨es, _, _, 1, _, _, 1073741824, hr, rfl, ⟨rfl, rfl⟩, hrun, by decide, by decide⟩
  · have hone : ∀ x, (getNextTimerInterrupt false loneBase).Expects x → x = 1 := by
      intro x hx
      by_contra hne
      have hp := hx.1
      rw [loneBase_timers, update_of_ne hne] at hp
      cases hp
    refine ⟨_, _, ⟨getNextTimerInterrupt false loneBase, [], 0⟩, loneBase_run, rfl, ⟨1, rfl, rfl⟩,
      fun x hx => ?_, fun x hx => ?_⟩
    · obtain rfl := hone x hx
      decide +kernel
    · obtain rfl := hone x hx
      decide +kernel

end SpicaKernel.TimerWheel
