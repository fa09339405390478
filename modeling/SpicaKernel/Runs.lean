import Mathlib.Data.List.Basic

namespace SpicaKernel
set_option autoImplicit true

inductive Run (Ok : σ → α → Prop) (step : σ → α → Option σ) : σ → List α → σ → Prop where
  | nil (s : σ) : Run Ok step s [] s
  | cons : Ok s a → step s a = some s' → Run Ok step s' as s'' → Run Ok step s (a :: as) s''

theorem Run.invariant {Inv : σ → Prop}
    (hstep : ∀ {s a s'}, Inv s → Ok s a → step s a = some s' → Inv s')
    (h : Run Ok step s as s') (hs : Inv s) : Inv s' := by
  induction h with
  | nil => exact hs
  | cons hg he hr ih => exact ih (hstep hs hg he)

theorem Run.trans (h : Run Ok step s as s') (h' : Run Ok step s' bs s'') :
    Run Ok step s (as ++ bs) s'' := by
  induction h with
  | nil => exact h'
  | cons hg he _ ih => exact .cons hg he (ih h')

theorem Run.of_stages (stage : Nat → σ) (op : Nat → α)
    (h : ∀ k < n, Ok (stage k) (op k) ∧ step (stage k) (op k) = some (stage (k + 1))) :
    Run Ok step (stage 0) ((List.range n).map op) (stage n) := by
  induction n generalizing stage op with
  | zero => exact .nil _
  | succ n ih =>
    rw [List.range_succ_eq_map, List.map_cons, List.map_map]
    have hrest := ih (fun k => stage (k + 1)) (fun k => op (k + 1)) fun k hk =>
      h (k + 1) (by omega)
    exact .cons (h 0 (by omega)).1 (h 0 (by omega)).2 hrest

theorem foldlM_invariant {Inv : σ → Prop} {P : α → Prop} {as : List α}
    (hstep : ∀ {s a}, Inv s → P a → ∃ s', step s a = some s' ∧ Inv s')
    (hs : Inv s) (hP : ∀ a ∈ as, P a) : ∃ s', as.foldlM step s = some s' ∧ Inv s' := by
  induction as generalizing s with
  | nil => exact ⟨s, rfl, hs⟩
  | cons a as ih =>
    obtain ⟨s₁, he, hs₁⟩ := hstep hs (hP a (by simp))
    obtain ⟨s', hr, hs'⟩ := ih hs₁ (fun b hb => hP b (by simp [hb]))
    refine ⟨s', ?_, hs'⟩
    rw [List.foldlM_cons, he]
    exact hr

theorem ok_bind (a : α) (f : α → Except ε β) : Except.ok a >>= f = f a := rfl

theorem after_ok {f : α → Except ε β} (hx : x = .ok a) (h : x >>= f = r) : f a = r := by
  rwa [hx] at h

theorem bind_eq_ok {f : α → Except ε β} : x >>= f = .ok b ↔ ∃ a, x = .ok a ∧ f a = .ok b := by
  cases x with
  | error e => exact ⟨nofun, nofun⟩
  | ok a => exact ⟨fun h => ⟨a, rfl, h⟩, fun ⟨_, rfl, h⟩ => h⟩

/-- What holds of every result, and of every error. -/
def Ends (Q : α → Prop) (E : ε → Prop) : Except ε α → Prop
  | .ok a => Q a
  | .error e => E e

theorem Ends.bind {f : α → Except ε β} (h : Ends P E x) (hf : ∀ a, P a → Ends Q E (f a)) :
    Ends Q E (x >>= f) := by
  cases x with
  | error e => exact h
  | ok a => exact hf a h

theorem Ends.imp (h : Ends P E x) (hPQ : ∀ a, P a → Q a) : Ends Q E x := by
  cases x with
  | error e => exact h
  | ok a => exact hPQ a h

theorem map_eq_ok {x : Except ε α} : x.map f = .ok b ↔ ∃ a, x = .ok a ∧ f a = b := by
  cases x with
  | error e => exact ⟨nofun, nofun⟩
  | ok a => exact ⟨fun h => ⟨a, rfl, Except.ok.inj h⟩, fun ⟨_, rfl, h⟩ => congrArg Except.ok h⟩

theorem map_eq_error {x : Except ε α} : x.map f = .error e ↔ x = .error e := by
  cases x <;> simp [Except.map]

theorem foldlM_ok_invariant {step : σ → α → Except ε σ} (Inv : List α → σ → Prop)
    (hstep : ∀ {a as s s'}, Inv (a :: as) s → step s a = .ok s' → Inv as s')
    (hs : Inv as s) (h : as.foldlM step s = .ok s') : Inv [] s' := by
  induction as generalizing s with
  | nil => exact Except.ok.inj h ▸ hs
  | cons a as ih =>
    obtain ⟨s₁, hs₁, hr⟩ := bind_eq_ok.mp h
    exact ih (hstep hs hs₁) hr

theorem ok_ne_error : Except.ok a ≠ .error e := nofun

theorem ite_ne_error [Decidable c] {x y : Except ε α} (hx : c → x ≠ .error e)
    (hy : ¬ c → y ≠ .error e) : (if c then x else y) ≠ .error e := by
  split
  next hc => exact hx hc
  next hc => exact hy hc

theorem unless_ne_error [Decidable c] {y : Except ε α} (h : ¬ c → y ≠ .error e) :
    (if c then .ok a else y) ≠ .error e :=
  ite_ne_error (fun _ => ok_ne_error) h

theorem ite_ok_ne_error [Decidable c] : (if c then .ok a else .ok b : Except ε α) ≠ .error e :=
  unless_ne_error fun _ => ok_ne_error

theorem bind_ne_error {f : α → Except ε β} (hx : x ≠ .error e)
    (hf : ∀ a, x = .ok a → f a ≠ .error e) : x >>= f ≠ .error e := by
  cases x with
  | error e' => exact fun h => hx (congrArg Except.error (Except.error.inj h))
  | ok a => exact hf a rfl

theorem map_ne_error {x : Except ε α} (hx : x ≠ .error e) : x.map f ≠ .error e := by
  cases x with
  | error e' => exact fun h => hx (congrArg Except.error (Except.error.inj h))
  | ok a => exact nofun

theorem foldlM_ne_error {step : σ → α → Except ε σ} (Inv : List α → σ → Prop)
    (hstep : ∀ {a as s s'}, Inv (a :: as) s → step s a = .ok s' → Inv as s')
    (hne : ∀ {a as s}, Inv (a :: as) s → step s a ≠ .error e) (hs : Inv as s) :
    as.foldlM step s ≠ .error e := by
  induction as generalizing s with
  | nil => exact nofun
  | cons a as ih =>
    exact bind_ne_error (hne hs) fun s' hs' => ih (hstep hs hs')

section PartialMaps

variable {f : ι → Option α} {i j : ι}

theorem ne_of_none (hi : f i = none) (hj : f j = some v) : j ≠ i := by
  rintro rfl
  rw [hi] at hj
  cases hj

variable [DecidableEq ι]

theorem update_some_iff : Function.update f i (some v) j = some w ↔
    j = i ∧ w = v ∨ j ≠ i ∧ f j = some w := by
  by_cases h : j = i
  · simp [h, eq_comm]
  · simp [h]

theorem update_none_iff : Function.update f i none j = some w ↔ j ≠ i ∧ f j = some w := by
  by_cases h : j = i
  · simp [h]
  · simp [h]

theorem exists_update_iff (h : f i = some u) :
    (∃ w, Function.update f i (some v) j = some w) ↔ ∃ w, f j = some w := by
  by_cases hj : j = i
  · simp [hj, h]
  · simp [hj]

theorem none_of_old {f : Nat → Option α} {g : Nat → Option β} (hf : ∀ i, n ≤ i → f i = none)
    (hold : ∀ i w, g i = some w → ∃ v, f i = some v) (hn : n ≤ n') :
    ∀ i, n' ≤ i → g i = none := by
  intro i hi
  cases hg : g i with
  | none => rfl
  | some w =>
    obtain ⟨v, hv⟩ := hold i w hg
    rw [hf i (Nat.le_trans hn hi)] at hv
    cases hv

end PartialMaps

/-- What one step of a machine does: go on in a new state, or stop with a result. -/
inductive Turn (σ ρ : Type) where
  | next (s : σ)
  | stop (r : ρ)
  deriving DecidableEq

/-- The result of a machine that is given at most so many steps. -/
def runFor (step : σ → Turn σ ρ) : Nat → σ → Option ρ
  | 0, _ => none
  | n + 1, s =>
    match step s with
    | .next s' => runFor step n s'
    | .stop r => some r

inductive Reached (step : σ → Turn σ ρ) (s₀ : σ) : Nat → σ → Prop where
  | start : Reached step s₀ 0 s₀
  | next : Reached step s₀ n s → step s = .next s' → Reached step s₀ (n + 1) s'

theorem Reached.invariant {step : σ → Turn σ ρ} (Inv : Nat → σ → Prop)
    (hstep : ∀ {n s s'}, Inv n s → step s = .next s' → Inv (n + 1) s')
    (hs : Inv 0 s₀) (h : Reached step s₀ n s) : Inv n s := by
  induction h with
  | start => exact hs
  | next hr he ih => exact hstep ih he

theorem Reached.before {step : σ → Turn σ ρ} (h : Reached step s n t) (hm : m ≤ n) :
    ∃ u, Reached step s m u := by
  induction h with
  | start => exact ⟨s, Nat.le_zero.mp hm ▸ .start⟩
  | @next n _ t hr he ih =>
    rcases Nat.le_succ_iff.mp hm with hle | rfl
    · exact ih hle
    · exact ⟨t, hr.next he⟩

theorem Reached.unique {step : σ → Turn σ ρ} (h : Reached step s n t) (h' : Reached step s n t') :
    t = t' := by
  induction h generalizing t' with
  | start => cases h' with | start => rfl
  | next _ he ih =>
    cases h' with
    | next hr he' =>
      obtain rfl := ih hr
      exact Turn.next.inj (he.symm.trans he')

theorem Reached.first {step : σ → Turn σ ρ} (he : step s = .next s') (h : Reached step s' n t) :
    Reached step s (n + 1) t := by
  induction h with
  | start => exact .next .start he
  | next _ he ih => exact ih.next he

theorem Reached.runFor {step : σ → Turn σ ρ} (h : Reached step s m t) (n : Nat) :
    runFor step (m + n) s = runFor step n t := by
  induction h generalizing n with
  | start => rw [Nat.zero_add]
  | next _ he ih => rw [Nat.add_right_comm, Nat.add_assoc, ih, SpicaKernel.runFor, he]

theorem Reached.stops {step : σ → Turn σ ρ} (h : Reached step s m t) (hr : step t = .stop r)
    (hn : m < n) : SpicaKernel.runFor step n s = some r := by
  obtain ⟨k, rfl⟩ : ∃ k, n = m + (k + 1) := ⟨n - m - 1, by omega⟩
  rw [h.runFor, SpicaKernel.runFor, hr]

theorem runFor_reached {step : σ → Turn σ ρ} (h : runFor step n s = some r) :
    ∃ m t, m < n ∧ Reached step s m t ∧ step t = .stop r := by
  induction n generalizing s with
  | zero => cases h
  | succ n ih =>
    rw [runFor] at h
    cases he : step s with
    | next s' =>
      rw [he] at h
      obtain ⟨m, t, hm, hr, hstop⟩ := ih h
      exact ⟨m + 1, t, Nat.succ_lt_succ hm, .first he hr, hstop⟩
    | stop r' =>
      rw [he] at h
      exact ⟨0, s, Nat.zero_lt_succ n, .start, he.trans (congrArg Turn.stop (Option.some.inj h))⟩

theorem runFor_stops (Inv : σ → Prop) (rank : σ → Nat) {Good : ρ → Prop}
    (hnext : ∀ {s s'}, Inv s → step s = .next s' → Inv s' ∧ rank s' < rank s)
    (hstop : ∀ {s r}, Inv s → step s = .stop r → Good r)
    (hs : Inv s) (hn : rank s < n) : ∃ r, runFor step n s = some r ∧ Good r := by
  induction n generalizing s with
  | zero => exact absurd hn (Nat.not_lt_zero _)
  | succ n ih =>
    cases hm : step s with
    | next s' =>
      obtain ⟨hs', hlt⟩ := hnext hs hm
      simpa only [runFor, hm] using ih hs' (Nat.lt_of_lt_of_le hlt (Nat.le_of_lt_succ hn))
    | stop r => exact ⟨r, by simp only [runFor, hm], hstop hs hm⟩

theorem runFor_stops_within (Inv : Nat → σ → Prop) {Good : ρ → Prop} (hstep : ∀ {k s}, Inv k s →
      (∃ k' s', step s = .next s' ∧ k' < k ∧ Inv k' s') ∨ ∃ r, step s = .stop r ∧ Good r)
    (hs : Inv k s) (hn : k < n) : ∃ r, runFor step n s = some r ∧ Good r := by
  induction n generalizing k s with
  | zero => exact absurd hn (Nat.not_lt_zero _)
  | succ n ih =>
    rcases hstep hs with ⟨k', s', he, hlt, hs'⟩ | ⟨r, he, hr⟩
    · simpa only [runFor, he] using ih hs' (Nat.lt_of_lt_of_le hlt (Nat.le_of_lt_succ hn))
    · exact ⟨r, by simp only [runFor, he], hr⟩

theorem runFor_mono (h : runFor step n s = some r) (hn : n ≤ m) : runFor step m s = some r := by
  induction n generalizing s m with
  | zero => cases h
  | succ n ih =>
    obtain ⟨m, rfl⟩ : ∃ k, m = k + 1 := ⟨m - 1, by omega⟩
    rw [runFor] at h ⊢
    cases hm : step s with
    | next s' =>
      rw [hm] at h
      exact ih h (by omega)
    | stop r' =>
      rw [hm] at h
      exact h

end SpicaKernel
