import Mathlib.Algebra.Order.Floor.Div
import Mathlib.Data.Nat.ModEq
import SpicaKernel.TimerWheel

namespace SpicaKernel.TimerWheel
set_option autoImplicit true

open Time List

/-- The number of the first block of a level that starts at a time or later. -/
def block (t : Time) (level : Nat) : Nat := t.toNat ⌈/⌉ 2 ^ shift false level

theorem block_zero (t : Time) : block t 0 = t.toNat := by
  rw [block, shift, Nat.pow_zero, Nat.ceilDiv_eq_add_pred_div, Nat.div_one, Nat.add_sub_cancel]

theorem two_pow_shift_succ (level : Nat) :
    2 ^ shift false (level + 1) = 2 ^ shift false level * 2 ^ bits false level := by
  rw [shift_succ, Nat.pow_add]

theorem ceilDiv_ceilDiv (n : Nat) (ha : 0 < a) (hb : 0 < b) : n ⌈/⌉ a ⌈/⌉ b = n ⌈/⌉ (a * b) := by
  refine eq_of_forall_ge_iff fun c => ?_
  rw [ceilDiv_le_iff_le_mul hb, ceilDiv_le_iff_le_mul ha, ceilDiv_le_iff_le_mul (Nat.mul_pos ha hb),
    Nat.mul_assoc]

theorem block_succ (t : Time) (level : Nat) :
    block t (level + 1) = block t level ⌈/⌉ 2 ^ bits false level := by
  rw [block, two_pow_shift_succ, block, ceilDiv_ceilDiv _ (Nat.two_pow_pos _) (Nat.two_pow_pos _)]

theorem ceilDiv_of_mod_ne (hn : 0 < n) (h : j % n ≠ 0) : j ⌈/⌉ n = j / n + 1 := by
  have hdiv := Nat.div_add_mod j n
  have hlt := Nat.mod_lt j hn
  refine Nat.le_antisymm ((ceilDiv_le_iff_le_mul hn).mpr ?_) ?_
  · rw [Nat.mul_add]
    omega
  · refine Nat.succ_le_of_lt (Nat.not_le.mp fun hle => ?_)
    have := (ceilDiv_le_iff_le_mul hn).mp hle
    omega

theorem exists_offset {t a u n : Nat} (hu : 0 < u) (h₁ : (t + a) % u ≤ a) (h₂ : a < u * n) :
    ∃ o < n, (t + a) / u = t ⌈/⌉ u + o := by
  have hdiv := Nat.div_add_mod (t + a) u
  have hle : t ⌈/⌉ u ≤ (t + a) / u := (ceilDiv_le_iff_le_mul hu).mpr (by omega)
  have hceil : t ≤ u * (t ⌈/⌉ u) := le_smul_ceilDiv hu
  have hlt : (t + a) / u < t ⌈/⌉ u + n := by
    refine (Nat.div_lt_iff_lt_mul hu).mpr ?_
    rw [Nat.mul_comm, Nat.mul_add]
    omega
  exact ⟨(t + a) / u - t ⌈/⌉ u, by omega, by omega⟩

theorem block_round (t : Time) (ho : o < 2 ^ bits false level) :
    2 ^ shift false level * (block t level + o + 1) ≤
      2 ^ shift false (level + 1) * (block t (level + 1) + 1) := by
  rw [two_pow_shift_succ, block_succ, Nat.mul_assoc]
  refine Nat.mul_le_mul_left _ ?_
  have hle : block t level ≤ 2 ^ bits false level * (block t level ⌈/⌉ 2 ^ bits false level) :=
    le_smul_ceilDiv (Nat.two_pow_pos _)
  rw [Nat.mul_add]
  omega

theorem block_end (t : Time) (hne : block t level % 2 ^ bits false level ≠ 0)
    (hle : block t level % 2 ^ bits false level ≤ (block t level + o) % 2 ^ bits false level)
    (ho : o < 2 ^ bits false level) :
    2 ^ shift false level * (block t level + o + 1) ≤
      2 ^ shift false (level + 1) * block t (level + 1) := by
  rw [two_pow_shift_succ, block_succ, Nat.mul_assoc]
  refine Nat.mul_le_mul_left _ ?_
  have hpos := Nat.two_pow_pos (bits false level)
  generalize 2 ^ bits false level = n at *
  generalize block t level = B at *
  have hmod := Nat.div_add_mod B n
  have hsum : B % n + o < n := by
    by_contra hge
    have hwrap : (B + o) % n = B % n + o - n := by
      rw [← Nat.mod_add_mod, Nat.mod_eq_sub_mod (by omega), Nat.mod_eq_of_lt]
      have := Nat.mod_lt B hpos
      omega
    omega
  rw [ceilDiv_of_mod_ne hpos hne, Nat.mul_add]
  omega

theorem block_mono (t : Time) (h : m ≤ n) :
    2 ^ shift false m * block t m ≤ 2 ^ shift false n * block t n := by
  induction n with
  | zero =>
    obtain rfl := Nat.le_zero.mp h
    exact Nat.le_refl _
  | succ n ih =>
    rcases Nat.le_or_eq_of_le_succ h with hle | rfl
    · refine Nat.le_trans (ih hle) ?_
      rw [two_pow_shift_succ, block_succ, Nat.mul_assoc]
      exact Nat.mul_le_mul_left _ (le_smul_ceilDiv (Nat.two_pow_pos _))
    · exact Nat.le_refl _

def Base.Waits (b : Base) (level i x : Nat) : Prop := x ∈ b.vec level i ∧ b.counts x = true

def Near (t e : Time) : Prop := -2 ^ 30 < lead t e ∧ lead t e < 2 ^ 30

theorem Near.before_iff (ha : Near t a) (hb : Near t b) :
    before a b = true ↔ lead t a < lead t b := by
  obtain ⟨ha₁, ha₂⟩ := ha
  obtain ⟨hb₁, hb₂⟩ := hb
  exact Time.before_iff t (by omega) (by omega)

abbrev Base.due (b : Base) (x : Nat) : Nat :=
  ahead b.timerJiffies (dueAt b.timerJiffies (b.timers x).expires)

abbrev Base.lead (b : Base) (e : Time) : Int := Time.lead b.timerJiffies e

structure Base.Ready (b : Base) : Prop where
  fits : ∀ {level i x}, b.Waits level i x → Fits false b.timerJiffies
    (dueAt b.timerJiffies (b.timers x).expires) (b.timers x).expires (level, i)
  near : ∀ {level i x}, b.Waits level i x → Near b.timerJiffies (b.timers x).expires

theorem lead_le_due (b : Base) (x : Nat) : b.lead (b.timers x).expires ≤ b.due x := by
  unfold Base.lead Base.due dueAt
  split
  next h => rw [lead_of_ahead h]
  next h =>
    have := lead_neg.mpr (Nat.not_lt.mp h)
    omega

structure Stands (b : Base) (level i x o : Nat) : Prop where
  top : level ≤ 4
  offset : o < 2 ^ bits false level
  slot : i = (block b.timerJiffies level + o) % 2 ^ bits false level
  reached : 2 ^ shift false level * (block b.timerJiffies level + o) ≤
    b.timerJiffies.toNat + b.due x
  within : b.timerJiffies.toNat + b.lead (b.timers x).expires <
    (2 ^ shift false level * (block b.timerJiffies level + o + 1) : Nat)

theorem mod_two_pow_div_mod (n : Nat) (h : i + k ≤ m) :
    n % 2 ^ m / 2 ^ i % 2 ^ k = n / 2 ^ i % 2 ^ k := by
  obtain ⟨d, rfl⟩ := Nat.exists_eq_add_of_le h
  rw [Nat.add_assoc, Nat.pow_add, Nat.mod_mul_right_div_self,
    Nat.mod_mod_of_dvd _ (Nat.pow_dvd_pow 2 (by omega))]

theorem shift_add_bits_le (h : level ≤ 4) : shift false level + bits false level ≤ 32 := by
  rw [← shift_succ]
  exact shift_mono (n := 5) (by omega)

theorem slot_ahead (t e : Time) (h : level ≤ 4) :
    slot false level e = (t.toNat + ahead t e) / 2 ^ shift false level % 2 ^ bits false level := by
  rw [slot_eq, ← ahead_add (t := t), mod_two_pow_div_mod _ (shift_add_bits_le h)]

theorem mod_ahead (t e : Time) (h : level ≤ 4) :
    e.toNat % 2 ^ shift false level = (t.toNat + ahead t e) % 2 ^ shift false level := by
  have hle := shift_add_bits_le h
  rw [← ahead_add (t := t), Nat.mod_mod_of_dvd _ (Nat.pow_dvd_pow 2 (by omega))]

theorem Base.Ready.stands (hb : b.Ready) (hw : b.Waits level i x) : ∃ o, Stands b level i x o := by
  have hlead := lead_le_due b x
  rcases hb.fits hw with ⟨hp, hlt⟩ | ⟨h₁, h₂, hp, he, hlt, hle⟩
  · obtain ⟨rfl, rfl⟩ := Prod.mk.inj hp
    refine ⟨b.due x, ⟨by omega, hlt, ?_, ?_, ?_⟩⟩
    · rw [slot_ahead b.timerJiffies _ (by omega), block_zero, shift, Nat.pow_zero, Nat.div_one]
    · rw [block_zero, shift, Nat.pow_zero, Nat.one_mul]
    · rw [block_zero, shift, Nat.pow_zero]
      omega
  · -- the start of the timer's block is still to come, less than a round of the level away
    have hround : b.due x < 2 ^ shift false level * 2 ^ bits false level := by
      rw [← two_pow_shift_succ]
      rcases Nat.lt_or_eq_of_le h₂ with h4 | h4
      · exact hlt.2 h4
      · have h4 : level = 4 := h4
        subst h4
        exact ahead_lt _ _
    have hstart : (b.timerJiffies.toNat + b.due x) % 2 ^ shift false level ≤ b.due x := by
      rw [← mod_ahead _ _ h₂]
      exact hle
    obtain ⟨o, ho, hdiv⟩ := exists_offset (Nat.two_pow_pos _) hstart hround
    have hdiv : (b.timerJiffies.toNat + b.due x) / 2 ^ shift false level =
        block b.timerJiffies level + o := hdiv
    refine ⟨o, ⟨h₂, ho, ?_, ?_, ?_⟩⟩
    · rw [← hdiv, ← slot_ahead _ _ h₂]
      exact hp
    · rw [← hdiv]
      exact Nat.mul_div_le _ _
    · have hlast := Nat.lt_mul_div_succ (b.timerJiffies.toNat + b.due x)
        (Nat.two_pow_pos (shift false level))
      rw [← hdiv]
      omega

section Loops

variable {b : Base} {r r' : Search} {l : List Nat}

theorem lookAt_found : (lookAt b r x).found = true ↔ r.found = true ∨ b.counts x = true := by
  unfold lookAt
  split
  next h => simp [h]
  next h => simp [h]

theorem foldl_lookAt_found : (l.foldl (lookAt b) r).found = true ↔
    r.found = true ∨ ∃ x ∈ l, b.counts x = true := by
  induction l generalizing r with
  | nil => simp
  | cons x l ih =>
    rw [foldl_cons, ih, lookAt_found, or_assoc]
    simp

theorem foldl_lookAt_none (h : ∀ x ∈ l, ¬ b.counts x = true) : l.foldl (lookAt b) r = r := by
  induction l with
  | nil => rfl
  | cons x l ih =>
    rw [foldl_cons, lookAt, if_neg (h x mem_cons_self)]
    exact ih fun y hy => h y (mem_cons_of_mem x hy)

structure Takes (b : Base) (l : List Nat) (r r' : Search) : Prop where
  le : b.lead r'.expires ≤ b.lead r.expires
  least : ∀ x ∈ l, b.counts x = true → b.lead r'.expires ≤ b.lead (b.timers x).expires
  held : r'.expires = r.expires ∨ ∃ x ∈ l, b.counts x = true ∧ (b.timers x).expires = r'.expires

theorem takes_lookAt (hr : Near b.timerJiffies r.expires)
    (hx : b.counts x = true → Near b.timerJiffies (b.timers x).expires) :
    Takes b [x] r (lookAt b r x) := by
  unfold lookAt
  split
  next hc =>
    have hiff := (hx hc).before_iff hr
    split
    next hb =>
      exact ⟨Int.le_of_lt (hiff.mp hb), by simp, .inr ⟨x, by simp, hc, rfl⟩⟩
    next hb =>
      have hle : b.lead r.expires ≤ b.lead (b.timers x).expires :=
        Int.not_lt.mp fun hlt => hb (hiff.mpr hlt)
      exact ⟨Int.le_refl _, by simpa using fun _ => hle, .inl rfl⟩
  next hc => exact ⟨Int.le_refl _, by simp [hc], .inl rfl⟩

theorem takes_foldl (hr : Near b.timerJiffies r.expires)
    (hl : ∀ x ∈ l, b.counts x = true → Near b.timerJiffies (b.timers x).expires) :
    Takes b l r (l.foldl (lookAt b) r) := by
  induction l generalizing r with
  | nil => exact ⟨Int.le_refl _, by simp, .inl rfl⟩
  | cons x l ih =>
    obtain ⟨hle, hleast, hheld⟩ := takes_lookAt hr (hl x mem_cons_self)
    have hr' : Near b.timerJiffies (lookAt b r x).expires := by
      rcases hheld with he | ⟨y, hy, hc, he⟩
      · rw [he]
        exact hr
      · rw [← he]
        obtain rfl := mem_singleton.mp hy
        exact hl y mem_cons_self hc
    obtain ⟨hle', hleast', hheld'⟩ := ih hr' fun y hy => hl y (mem_cons_of_mem x hy)
    refine ⟨Int.le_trans hle' hle, fun y hy hc => ?_, ?_⟩
    · rcases mem_cons.mp hy with rfl | hy
      · exact Int.le_trans hle' (hleast y (by simp) hc)
      · exact hleast' y hy hc
    · rcases hheld' with he' | ⟨y, hy, hc, he'⟩
      · rw [foldl_cons, he']
        rcases hheld with he | ⟨y, hy, hc, he⟩
        · exact .inl he
        · obtain rfl := mem_singleton.mp hy
          exact .inr ⟨y, by simp, hc, he⟩
      · exact .inr ⟨y, mem_cons_of_mem x hy, hc, he'⟩

theorem slots_succ (B o n : Nat) : (B % n + 1 + o) % n = (B + (o + 1)) % n := by
  rw [Nat.add_assoc, Nat.mod_add_mod, Nat.add_comm 1 o]

theorem slots_cons (P : Nat → Prop) (hfirst : P (B % n))
    (h : ∀ o < m, P ((B % n + 1 + o) % n)) : ∀ o < m + 1, P ((B + o) % n) := by
  intro o ho
  cases o with
  | zero => exact hfirst
  | succ o =>
    rw [← slots_succ]
    exact h o (by omega)

theorem searchTv1_spec (small : Bool) (b : Base) (B n : Nat) :
    (searchTv1 small b n (B % 2 ^ tvrBits small) = none ∧
      ∀ o < n, ∀ x, ¬ b.Waits 0 ((B + o) % 2 ^ tvrBits small) x) ∨
    ∃ o < n, ∃ x, searchTv1 small b n (B % 2 ^ tvrBits small) =
        some ((B + o) % 2 ^ tvrBits small, x) ∧ b.Waits 0 ((B + o) % 2 ^ tvrBits small) x ∧
      ∀ o' < o, ∀ x, ¬ b.Waits 0 ((B + o') % 2 ^ tvrBits small) x := by
  induction n generalizing B with
  | zero => exact .inl ⟨rfl, nofun⟩
  | succ n ih =>
    cases hfind : (b.vec 0 (B % 2 ^ tvrBits small)).find? b.counts with
    | some x =>
      refine .inr ⟨0, by omega, x, by simp [searchTv1, hfind], ?_, by omega⟩
      exact ⟨mem_of_find?_eq_some hfind, find?_some hfind⟩
    | none =>
      have hfirst : ∀ x, ¬ b.Waits 0 (B % 2 ^ tvrBits small) x :=
        fun x hx => find?_eq_none.mp hfind x hx.1 hx.2
      have hstep : searchTv1 small b (n + 1) (B % 2 ^ tvrBits small) =
          searchTv1 small b n ((B % 2 ^ tvrBits small + 1) % 2 ^ tvrBits small) := by
        simp [searchTv1, hfind]
      rw [hstep]
      rcases ih (B % 2 ^ tvrBits small + 1) with ⟨he, h⟩ | ⟨o, ho, x, he, hx, h⟩
      · exact .inl ⟨he, slots_cons (fun i => ∀ x, ¬ b.Waits 0 i x) hfirst h⟩
      · rw [slots_succ] at he hx
        exact .inr ⟨o + 1, by omega, x, he, hx, slots_cons (fun i => ∀ x, ¬ b.Waits 0 i x) hfirst h⟩

theorem searchSlots_spec (small : Bool) (b : Base) (level B n : Nat) (r : Search) :
    (searchSlots small b level n (B % 2 ^ tvnBits small) r = (r, none) ∧
      ∀ o < n, r.found = false ∧ ∀ x, ¬ b.Waits level ((B + o) % 2 ^ tvnBits small) x) ∨
    ∃ o < n, searchSlots small b level n (B % 2 ^ tvnBits small) r =
        ((b.vec level ((B + o) % 2 ^ tvnBits small)).foldl (lookAt b) r,
          some ((B + o) % 2 ^ tvnBits small)) ∧
      (r.found = true ∨ ∃ x, b.Waits level ((B + o) % 2 ^ tvnBits small) x) ∧
      ∀ o' < o, r.found = false ∧ ∀ x, ¬ b.Waits level ((B + o') % 2 ^ tvnBits small) x := by
  induction n generalizing B with
  | zero => exact .inl ⟨rfl, nofun⟩
  | succ n ih =>
    by_cases hfound : ((b.vec level (B % 2 ^ tvnBits small)).foldl (lookAt b) r).found = true
    · refine .inr ⟨0, by omega, by simp [searchSlots, hfound], ?_, by omega⟩
      exact foldl_lookAt_found.mp hfound
    · let P := fun i => r.found = false ∧ ∀ x, ¬ b.Waits level i x
      have hfirst : P (B % 2 ^ tvnBits small) := by
        rw [foldl_lookAt_found, not_or] at hfound
        exact ⟨by simpa using hfound.1, fun x hx => hfound.2 ⟨x, hx⟩⟩
      have hstep : searchSlots small b level (n + 1) (B % 2 ^ tvnBits small) r =
          searchSlots small b level n ((B % 2 ^ tvnBits small + 1) % 2 ^ tvnBits small) r := by
        have hsame : (b.vec level (B % 2 ^ tvnBits small)).foldl (lookAt b) r = r :=
          foldl_lookAt_none fun x hx hc => hfirst.2 x ⟨hx, hc⟩
        simp [searchSlots, hsame, hfirst.1]
      rw [hstep]
      rcases ih (B % 2 ^ tvnBits small + 1) with ⟨he, h⟩ | ⟨o, ho, he, hx, h⟩
      · exact .inl ⟨he, slots_cons P hfirst h⟩
      · rw [slots_succ] at he hx
        exact .inr ⟨o + 1, by omega, he, hx, slots_cons P hfirst h⟩

end Loops

structure Best (b : Base) (k : Nat) (e : Time) : Prop where
  held : ∃ level i x, b.Waits level i x ∧ (b.timers x).expires = e
  least : ∀ {level i x}, level < k → b.Waits level i x → b.lead e ≤ b.due x

section Search

variable {b : Base} {r r' : Search}

theorem Best.level (hb : b.Ready) (held : ∃ level i x, b.Waits level i x ∧ (b.timers x).expires = e)
    (hlow : ∀ {level i x}, level < k → b.Waits level i x → b.lead e ≤ b.due x)
    (hslot : ∀ x, b.Waits k ((block b.timerJiffies k + o) % 2 ^ bits false k) x →
      b.lead e ≤ b.due x)
    (hnone : ∀ o' < o, ∀ x, ¬ b.Waits k ((block b.timerJiffies k + o') % 2 ^ bits false k) x)
    (hlt : b.timerJiffies.toNat + b.lead e <
      (2 ^ shift false k * (block b.timerJiffies k + o + 1) : Nat)) : Best b (k + 1) e := by
  refine ⟨held, fun {level i x} hl hw => ?_⟩
  rcases Nat.lt_or_eq_of_le (Nat.le_of_lt_succ hl) with hl | rfl
  · exact hlow hl hw
  · obtain ⟨o', hs⟩ := hb.stands hw
    rw [hs.slot] at hw
    rcases Nat.lt_trichotomy o' o with ho | rfl | ho
    · exact absurd hw (hnone o' ho x)
    · exact hslot x hw
    · have hle := Nat.mul_le_mul_left (2 ^ shift false level)
        (show block b.timerJiffies level + o + 1 ≤ block b.timerJiffies level + o' by omega)
      have hreached := hs.reached
      omega

theorem Best.stop (hb : b.Ready) (h : Best b (k + 1) e) (ho : o < 2 ^ bits false k)
    (hne : block b.timerJiffies k % 2 ^ bits false k ≠ 0)
    (hle : block b.timerJiffies k % 2 ^ bits false k ≤
      (block b.timerJiffies k + o) % 2 ^ bits false k)
    (hlt : b.timerJiffies.toNat + b.lead e <
      (2 ^ shift false k * (block b.timerJiffies k + o + 1) : Nat)) : Best b 5 e := by
  refine ⟨h.held, fun {level i x} _ hw => ?_⟩
  by_cases hl : level < k + 1
  · exact h.least hl hw
  · obtain ⟨o', hs⟩ := hb.stands hw
    have hend := block_end b.timerJiffies hne hle ho
    have hmono := block_mono b.timerJiffies (Nat.not_lt.mp hl)
    have hreached := hs.reached
    rw [Nat.mul_add] at hreached
    omega

inductive Entered (b : Base) (k : Nat) : Search → Prop where
  | fresh (hnone : ∀ {level i x}, level < k → ¬ b.Waits level i x) :
      Entered b k ⟨b.timerJiffies + BitVec.ofNat 32 NEXT_TIMER_MAX_DELTA, false⟩
  | found (hbest : Best b k e) (hlt : b.timerJiffies.toNat + b.lead e <
      (2 ^ shift false k * (block b.timerJiffies k + 1) : Nat)) : Entered b k ⟨e, true⟩

theorem Entered.near (hb : b.Ready) (h : Entered b k r) : Near b.timerJiffies r.expires := by
  cases h with
  | fresh =>
    have hmax := lead_add b.timerJiffies (n := NEXT_TIMER_MAX_DELTA) (by decide)
    unfold Near
    rw [hmax]
    decide
  | found hbest =>
    obtain ⟨level, i, x, hw, rfl⟩ := hbest.held
    exact hb.near hw

structure Left (b : Base) (k o : Nat) (r : Search) : Prop where
  offset : o < 2 ^ bits false k
  found : r.found = true
  best : Best b (k + 1) r.expires
  lt : b.timerJiffies.toNat + b.lead r.expires <
    (2 ^ shift false k * (block b.timerJiffies k + o + 1) : Nat)

theorem offset_unique {B n : Nat} (ho : o < n) (ho' : o' < n) (h : (B + o) % n = (B + o') % n) :
    o = o' :=
  (Nat.ModEq.add_left_cancel' B h).eq_of_lt_of_lt ho ho'

theorem Entered.pass (hb : b.Ready) (h : Entered b k r) (hr : r.found = false)
    (hnone : ∀ o < 2 ^ bits false k, ∀ x,
      ¬ b.Waits k ((block b.timerJiffies k + o) % 2 ^ bits false k) x) : Entered b (k + 1) r := by
  cases h with
  | found => cases hr
  | fresh hlow =>
    refine .fresh fun {level i x} hl hw => ?_
    rcases Nat.lt_or_eq_of_le (Nat.le_of_lt_succ hl) with hl | rfl
    · exact hlow hl hw
    · obtain ⟨o, hs⟩ := hb.stands hw
      rw [hs.slot] at hw
      exact hnone o hs.offset x hw

theorem Entered.held (hb : b.Ready) (h : Entered b k r) (ht : Takes b (b.vec k i) r r')
    (hwhy : r.found = true ∨ ∃ x, b.Waits k i x) :
    ∃ level i x, b.Waits level i x ∧ (b.timers x).expires = r'.expires := by
  rcases ht.held with he | ⟨x, hx, hc, he⟩
  · cases h with
    | found hbest => exact he ▸ hbest.held
    | fresh =>
      -- the time of a timer that is no earlier than the limit is the limit
      obtain ⟨x, hw⟩ := hwhy.resolve_left (by simp)
      have hmax := lead_add b.timerJiffies (n := NEXT_TIMER_MAX_DELTA) (by decide)
      have hle := ht.least x hw.1 hw.2
      refine ⟨_, _, x, hw, lead_inj (t := b.timerJiffies) (Int.le_antisymm ?_ hle)⟩
      rw [he, hmax]
      exact Int.le_sub_one_of_lt (hb.near hw).2
  · exact ⟨_, _, x, ⟨hx, hc⟩, he⟩

theorem Entered.within (hb : b.Ready) (h : Entered b k r) (ht : Takes b (b.vec k i) r r')
    (hi : (block b.timerJiffies k + o) % 2 ^ bits false k = i) (ho : o < 2 ^ bits false k)
    (hwhy : r.found = true ∧ o = 0 ∨ ∃ x, b.Waits k i x) :
    b.timerJiffies.toNat + b.lead r'.expires <
      (2 ^ shift false k * (block b.timerJiffies k + o + 1) : Nat) := by
  rcases hwhy with ⟨hr, rfl⟩ | ⟨x, hw⟩
  · cases h with
    | fresh => cases hr
    | @found e hbest hlt =>
      have hle : b.lead r'.expires ≤ b.lead e := ht.le
      simp only [Nat.add_zero]
      omega
  · obtain ⟨o', hs⟩ := hb.stands hw
    obtain rfl : o = o' := offset_unique ho hs.offset (hi.trans hs.slot)
    have hle := ht.least x hw.1 hw.2
    have hwithin := hs.within
    omega

theorem Entered.slots (hb : b.Ready) (h : Entered b (k + 1) r)
    (hj : j % 2 ^ tvnBits false = block b.timerJiffies (k + 1) % 2 ^ tvnBits false)
    (hp : searchSlots false b (k + 1) (2 ^ tvnBits false) (j % 2 ^ tvnBits false) r = p) :
    (p.2 = none ∧ Entered b (k + 2) p.1) ∨
      ∃ o, p.2 = some ((block b.timerJiffies (k + 1) + o) % 2 ^ tvnBits false) ∧
        Left b (k + 1) o p.1 := by
  rw [hj] at hp
  rcases searchSlots_spec false b (k + 1) (block b.timerJiffies (k + 1)) (2 ^ tvnBits false) r with
    ⟨he, hnone⟩ | ⟨o, ho, he, hwhy, hnone⟩
  · obtain rfl := he.symm.trans hp
    have hr := (hnone 0 (Nat.two_pow_pos _)).1
    exact .inl ⟨rfl, h.pass hb hr fun o ho => (hnone o ho).2⟩
  · obtain rfl := he.symm.trans hp
    refine .inr ⟨o, rfl, ?_⟩
    generalize hi : (block b.timerJiffies (k + 1) + o) % 2 ^ tvnBits false = i at *
    have htakes : Takes b (b.vec (k + 1) i) r _ :=
      takes_foldl (h.near hb) fun x hx hc => hb.near ⟨hx, hc⟩
    have hfound := foldl_lookAt_found.mpr hwhy
    have hfirst : r.found = true → o = 0 := by
      intro hr
      by_contra hne
      rw [(hnone 0 (by omega)).1] at hr
      cases hr
    have hlt := h.within hb htakes hi ho (hwhy.imp_left fun hr => ⟨hr, hfirst hr⟩)
    refine ⟨ho, hfound, .level hb (h.held hb htakes hwhy) ?_ ?_
      (fun o' ho' => (hnone o' ho').2) hlt, hlt⟩
    · intro level i x hl hw
      cases h with
      | fresh hlow => exact absurd hw (hlow hl)
      | found hbest => exact Int.le_trans htakes.le (hbest.least hl hw)
    · intro x hw
      rw [show (block b.timerJiffies (k + 1) + o) % 2 ^ bits false (k + 1) = i from hi] at hw
      exact Int.le_trans (htakes.least x hw.1 hw.2) (lead_le_due b x)

theorem Left.enter (h : Left b k o r) : Entered b (k + 1) r := by
  obtain ⟨ho, hfound, hbest, hlt⟩ := h
  have hround := block_round b.timerJiffies ho
  cases r with
  | mk e found =>
    obtain rfl : found = true := hfound
    exact .found hbest (by simp only at hlt; omega)

def Answer (b : Base) (e : Time) : Prop :=
  Best b 5 e ∨ (∀ level i x, ¬ b.Waits level i x) ∧
    e = b.timerJiffies + BitVec.ofNat 32 NEXT_TIMER_MAX_DELTA

def Aligned (t : Time) (k j : Nat) : Prop :=
  j % 2 ^ (32 - shift false k) = block t k % 2 ^ (32 - shift false k)

theorem Aligned.index (h : Aligned t k j) (hk : k ≤ 4) :
    j % 2 ^ bits false k = block t k % 2 ^ bits false k := by
  have hle := shift_add_bits_le hk
  have hdvd : 2 ^ bits false k ∣ 2 ^ (32 - shift false k) := Nat.pow_dvd_pow 2 (by omega)
  rw [← Nat.mod_mod_of_dvd j hdvd, h, Nat.mod_mod_of_dvd _ hdvd]

theorem Aligned.next (h : Aligned t k j) (hk : k ≤ 4) (hj' : j' = j ⌈/⌉ 2 ^ bits false k) :
    Aligned t (k + 1) j' := by
  have hle := shift_add_bits_le hk
  have hsplit : 2 ^ (32 - shift false k) = 2 ^ bits false k * 2 ^ (32 - shift false (k + 1)) := by
    rw [← Nat.pow_add, shift_succ]
    congr 1
    omega
  unfold Aligned at *
  rw [hsplit] at h
  rw [hj', block_succ, Nat.ceilDiv_eq_add_pred_div, Nat.ceilDiv_eq_add_pred_div,
    ← Nat.mod_mul_right_div_self, ← Nat.mod_mul_right_div_self,
    Nat.add_sub_assoc (Nat.two_pow_pos _), Nat.add_sub_assoc (Nat.two_pow_pos _)]
  exact congrArg (· / _) (Nat.ModEq.add_right _ h)

theorem round_up_div (hn : 0 < n) : (if j % n = 0 then j else j + (n - j % n)) / n = j ⌈/⌉ n := by
  have hdiv := Nat.div_add_mod j n
  have hlt := Nat.mod_lt j hn
  split
  next h =>
    have hfloor : j ⌊/⌋ n ≤ j ⌈/⌉ n := floorDiv_le_ceilDiv
    refine Nat.le_antisymm hfloor ((ceilDiv_le_iff_le_mul hn).mpr ?_)
    omega
  next h =>
    have hup : j + (n - j % n) = n * (j / n + 1) := by
      rw [Nat.mul_add]
      omega
    rw [ceilDiv_of_mod_ne hn h, hup, Nat.mul_div_cancel_left _ hn]

theorem Entered.arrays (hb : b.Ready) (n : Nat) (hk : k + 1 + n = 5) (h : Entered b (k + 1) r)
    (hj : Aligned b.timerJiffies (k + 1) j) :
    Answer b (searchArrays false b (range' (k + 1) n) j r) := by
  induction n generalizing k j r with
  | zero =>
    obtain rfl : k = 4 := by omega
    cases h with
    | fresh hnone =>
      refine .inr ⟨fun level i x hw => ?_, rfl⟩
      obtain ⟨o, hs⟩ := hb.stands hw
      exact hnone (Nat.lt_succ_of_le hs.top) hw
    | found hbest => exact .inl hbest
  | succ n ih =>
    have hk4 : k + 1 ≤ 4 := by omega
    have hnext : Aligned b.timerJiffies (k + 2) _ := hj.next hk4 rfl
    have hindex : j % 2 ^ tvnBits false = _ := hj.index hk4
    rw [range'_succ]
    simp only [searchArrays]
    rw [round_up_div (Nat.two_pow_pos _)]
    generalize hp : searchSlots false b (k + 1) (2 ^ tvnBits false) (j % 2 ^ tvnBits false) r = p
    rcases h.slots hb hindex hp with ⟨hnone, henter⟩ | ⟨o, hsome, hleft⟩
    · rw [hnone]
      exact ih (by omega) henter hnext
    · rw [hsome]
      split
      next hstop =>
        simp only [Option.any_some, Bool.and_eq_true, bne_iff_ne, decide_eq_true_eq] at hstop
        rw [hindex] at hstop
        exact .inl (hleft.best.stop hb hleft.offset hstop.1 hstop.2 hleft.lt)
      next => exact ih (by omega) hleft.enter hnext

theorem left_tv1 (hb : b.Ready) (ho : o < 2 ^ tvrBits false)
    (hw : b.Waits 0 ((block b.timerJiffies 0 + o) % 2 ^ tvrBits false) x)
    (hnone : ∀ o' < o, ∀ x, ¬ b.Waits 0 ((block b.timerJiffies 0 + o') % 2 ^ tvrBits false) x) :
    Left b 0 o ⟨(b.timers x).expires, true⟩ := by
  have hstands : ∀ y, b.Waits 0 ((block b.timerJiffies 0 + o) % 2 ^ tvrBits false) y →
      Stands b 0 ((block b.timerJiffies 0 + o) % 2 ^ tvrBits false) y o := by
    intro y hy
    obtain ⟨o', hs⟩ := hb.stands hy
    obtain rfl : o = o' := offset_unique ho hs.offset hs.slot
    exact hs
  have hlt := (hstands x hw).within
  refine ⟨ho, rfl, .level hb ⟨0, _, x, hw, rfl⟩ (fun hl => absurd hl (Nat.not_lt_zero _))
    (fun y hy => ?_) hnone hlt, hlt⟩
  have hreached := (hstands y hy).reached
  simp only [shift] at hreached hlt ⊢
  omega

theorem aligned_tv2 (t : Time) : Aligned t 1 ((if slot false 0 t = 0 then t
    else t + BitVec.ofNat 32 (2 ^ tvrBits false - slot false 0 t)) >>> tvrBits false).toNat := by
  have hslot : slot false 0 t = t.toNat % 256 := by
    rfl
  have hblock : block t 1 = (t.toNat + 255) / 256 := rfl
  have hbits : tvrBits false = 8 ∧ shift false 1 = 8 := ⟨rfl, rfl⟩
  unfold Aligned
  rw [hblock, BitVec.toNat_ushiftRight, hbits.1, hbits.2]
  split <;> bv_omega

theorem nextTimerInterrupt_spec (hb : b.Ready) : Answer b (nextTimerInterrupt false b) := by
  have hindex : slot false 0 b.timerJiffies = block b.timerJiffies 0 % 2 ^ tvrBits false := by
    rw [slot_eq, block_zero, shift, Nat.pow_zero, Nat.div_one]
    rfl
  have halign := aligned_tv2 b.timerJiffies
  have harrays : ∀ r, Entered b 1 r → Answer b (searchArrays false b [1, 2, 3, 4] _ r) :=
    fun r h => h.arrays hb 4 rfl halign
  simp only [nextTimerInterrupt]
  rw [hindex] at *
  rcases searchTv1_spec false b (block b.timerJiffies 0) (2 ^ tvrBits false) with
    ⟨he, hnone⟩ | ⟨o, ho, x, he, hw, hnone⟩
  · rw [he]
    refine harrays _ (.fresh fun {level i x} hl hw => ?_)
    obtain rfl : level = 0 := by omega
    obtain ⟨o, hs⟩ := hb.stands hw
    rw [hs.slot] at hw
    exact hnone o hs.offset x hw
  · have hleft := left_tv1 hb ho hw hnone
    rw [he]
    simp only
    split
    next => exact harrays _ hleft.enter
    next hstop =>
      rw [not_or, Nat.not_lt] at hstop
      exact .inl (hleft.best.stop hb ho hstop.1 hstop.2 hleft.lt)

end Search

end SpicaKernel.TimerWheel
