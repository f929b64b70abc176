import MollerFirmware.Clocked.Windows

/-!
# Reload counters

A reload counter counts the pulses of a signal down to zero. The pulse that
finds it at zero is kept and reloads it, with a value that may be another one
in every clock; all other pulses are dropped. `Kept` says which pulses these
are without speaking of the counter, and `keeps_iff_kept` is the law of the
counter.
-/

namespace MollerFirmware
namespace Clocked

section ReloadCounters

/-- Pulses of `p` that a thinning keeps from clock `e` on, when `gap t` pulses
are dropped after the pulse of clock `t` was kept. -/
inductive Kept (p : Nat → Bool) (gap : Nat → Nat) (e : Nat) : Nat → Prop
  | first {t : Nat}
      (ht : e ≤ t)
      (hp : p t = true)
      (hfirst : pulsesIn p e t = 0) :
      Kept p gap e t
  | next {u t : Nat}
      (hu : Kept p gap e u)
      (hut : u < t)
      (hp : p t = true)
      (hcount : pulsesIn p (u + 1) (t + 1) = gap u + 1) :
      Kept p gap e t

/-- In `[e, f)` the pulses of `p` run the counter `c` down from zero, and the
pulse of clock `t` that finds it at zero reloads it with `gap t`. -/
structure Reloads (p : Nat → Bool) (gap c : Nat → Nat) (e f : Nat) : Prop where
  start : c e = 0
  next : ∀ t, e ≤ t → t < f →
    c (t + 1) =
      if p t then (if c t = 0 then gap t else c t - 1) else c t

variable {p : Nat → Bool} {gap c : Nat → Nat} {e f : Nat}

theorem Kept.le {t : Nat} (h : Kept p gap e t) : e ≤ t := by
  induction h with
  | first ht _ _ => exact ht
  | next _ hut _ _ ih => omega

theorem Kept.pulse {t : Nat} (h : Kept p gap e t) : p t = true := by
  cases h with
  | first _ hp _ => exact hp
  | next _ _ hp _ => exact hp

/-- As long as the counter has not run out, what it still holds and the pulses
since a clock `a` together are what it held then. -/
theorem Reloads.run_down (h : Reloads p gap c e f)
    {a t : Nat} (hea : e ≤ a) (hat : a ≤ t) (htf : t ≤ f)
    (hle : pulsesIn p a t ≤ c a) :
    c t + pulsesIn p a t = c a := by
  induction t, hat using Nat.le_induction with
  | base =>
      simp
  | succ t hat ih =>
      rw [pulsesIn_succ p hat] at hle ⊢
      have ih' := ih (by omega) (by omega)
      have hnext := h.next t (by omega) (by omega)
      cases hp : p t with
      | false =>
          simp only [hp, Bool.false_eq_true, if_false] at hnext ⊢
          omega
      | true =>
          simp only [hp, if_true] at hnext hle ⊢
          rw [if_neg (by omega)] at hnext
          omega

/-- A kept pulse finds the counter at zero. -/
theorem Reloads.zero_of_kept (h : Reloads p gap c e f)
    {t : Nat} (hk : Kept p gap e t) (htf : t < f) :
    c t = 0 := by
  induction hk with
  | first ht _ hfirst =>
      have := h.run_down (le_refl e) ht htf.le (by omega)
      have := h.start
      omega
  | @next u t hu hut hp hcount ih =>
      have hzero := ih (by omega)
      have hload : c (u + 1) = gap u := by
        rw [h.next u hu.le (by omega), hu.pulse, hzero]
        rfl
      rw [pulsesIn_succ p (by omega), hp, if_pos rfl] at hcount
      have := h.run_down (a := u + 1) (t := t)
        (by have := hu.le; omega) (by omega) (by omega) (by omega)
      omega

/-- What the counter holds in terms of the pulse that was kept last. -/
theorem Reloads.since_kept (h : Reloads p gap c e f)
    {t : Nat} (het : e ≤ t) (htf : t ≤ f) :
    (c t = 0 ∧ pulsesIn p e t = 0) ∨
      ∃ u, Kept p gap e u ∧ u < t ∧ c t + pulsesIn p (u + 1) t = gap u := by
  induction t, het using Nat.le_induction with
  | base =>
      exact Or.inl ⟨h.start, by simp⟩
  | succ t het ih =>
      have hnext := h.next t het (by omega)
      cases hp : p t with
      | false =>
          simp only [hp, Bool.false_eq_true, if_false] at hnext
          rcases ih (by omega) with ⟨hc, hnone⟩ | ⟨u, hu, hut, hsum⟩
          · exact Or.inl ⟨by omega, by simp [pulsesIn_succ p het, hnone, hp]⟩
          · refine Or.inr ⟨u, hu, by omega, ?_⟩
            rw [pulsesIn_succ p (by omega), hp, hnext]
            simpa using hsum
      | true =>
          simp only [hp, if_true] at hnext
          rcases ih (by omega) with ⟨hc, hnone⟩ | ⟨u, hu, hut, hsum⟩
          · -- the first pulse of all is kept
            refine Or.inr ⟨t, Kept.first het hp hnone, by omega, ?_⟩
            rw [hnext, if_pos hc, pulsesIn_self, Nat.add_zero]
          · have hsucc : pulsesIn p (u + 1) (t + 1) =
                pulsesIn p (u + 1) t + 1 := by
              rw [pulsesIn_succ p (by omega), hp, if_pos rfl]
            by_cases hc : c t = 0
            · refine Or.inr ⟨t, Kept.next hu hut hp (by omega), by omega, ?_⟩
              rw [hnext, if_pos hc, pulsesIn_self, Nat.add_zero]
            · refine Or.inr ⟨u, hu, by omega, ?_⟩
              rw [hnext, if_neg hc]
              omega

/-- **Law of the reload counter.** The pulses that find it at zero are the kept
ones. -/
theorem Reloads.keeps_iff_kept (h : Reloads p gap c e f)
    {t : Nat} (het : e ≤ t) (htf : t < f) :
    (p t = true ∧ c t = 0) ↔ Kept p gap e t := by
  constructor
  · rintro ⟨hp, hc⟩
    rcases h.since_kept het htf.le with ⟨_, hnone⟩ | ⟨u, hu, hut, hsum⟩
    · exact Kept.first het hp hnone
    · refine Kept.next hu hut hp ?_
      rw [pulsesIn_succ p (by omega), hp, if_pos rfl]
      omega
  · intro hk
    exact ⟨hk.pulse, h.zero_of_kept hk htf⟩

/-- With a constant reload value the pulses and the counter together make whole
periods. -/
theorem Reloads.periods (h : Reloads p gap c e f) {g : Nat}
    (hgap : ∀ t, e ≤ t → t < f → gap t = g)
    {t : Nat} (het : e ≤ t) (htf : t ≤ f) :
    c t ≤ g ∧ (g + 1) ∣ pulsesIn p e t + c t := by
  induction t, het using Nat.le_induction with
  | base =>
      simp [h.start]
  | succ t het ih =>
      obtain ⟨hle, hdvd⟩ := ih (by omega)
      rw [h.next t het (by omega), pulsesIn_succ p het,
        hgap t het (by omega)]
      cases hp : p t with
      | false =>
          simpa using ⟨hle, hdvd⟩
      | true =>
          simp only [if_true]
          split_ifs with hc
          · rw [hc, Nat.add_zero] at hdvd
            refine ⟨le_refl g, ?_⟩
            rw [Nat.add_assoc, Nat.add_comm 1 g]
            exact Nat.dvd_add hdvd (dvd_refl _)
          · refine ⟨by omega, ?_⟩
            rwa [show pulsesIn p e t + 1 + (c t - 1) =
              pulsesIn p e t + c t by omega]

/-- With a constant reload value every `g + 1`-st pulse is kept. -/
theorem Reloads.kept_iff_dvd (h : Reloads p gap c e f) {g : Nat}
    (hgap : ∀ t, e ≤ t → t < f → gap t = g)
    {t : Nat} (het : e ≤ t) (htf : t < f) :
    Kept p gap e t ↔ p t = true ∧ (g + 1) ∣ pulsesIn p e t := by
  rw [← h.keeps_iff_kept het htf]
  obtain ⟨hle, hdvd⟩ := h.periods hgap het htf.le
  refine and_congr_right (fun _ => ?_)
  constructor
  · intro hc
    rwa [hc, Nat.add_zero] at hdvd
  · intro hpulses
    exact Nat.eq_zero_of_dvd_of_lt ((Nat.dvd_add_right hpulses).mp hdvd)
      (by omega)

end ReloadCounters

end Clocked
end MollerFirmware
