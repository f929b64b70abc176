import Mathlib.Data.List.Basic
import Mathlib.Algebra.BigOperators.Intervals
import Mathlib.Tactic

/-!
# Clocked machines and their signals

A synchronous circuit with one clock is a step function on its registers. A
run applies the step once at every clock edge to the inputs of that clock, so
every register and every wire of the circuit becomes a signal: a function of
the clock number.

The module collects what later files need about such runs:

* the invariant rule for runs;
* `eventsBefore`, the words that a signal has emitted before a given clock,
  with the conservation law of a lossless buffer;
* `pulsesIn` and `Spaced`, for counting pulses and for their minimum distance.
-/

namespace MollerFirmware
namespace Clocked

universe u v w

section Runs

variable {σ : Type u} {ι : Type v} {γ : Type w}

/-- Registers of a clocked machine just before clock edge number `t`. -/
def run (step : σ → ι → σ) (s₀ : σ) (inp : Nat → ι) : Nat → σ
  | 0 => s₀
  | t + 1 => step (run step s₀ inp t) (inp t)

@[simp] theorem run_zero
    (step : σ → ι → σ) (s₀ : σ) (inp : Nat → ι) :
    run step s₀ inp 0 = s₀ := by
  rfl

theorem run_succ
    (step : σ → ι → σ) (s₀ : σ) (inp : Nat → ι) (t : Nat) :
    run step s₀ inp (t + 1) =
      step (run step s₀ inp t) (inp t) := by
  rfl

/-- An observer that is updated at every clock edge from what it sees of the
machine, without acting on it. -/
def observe (step : σ → ι → σ) (watch : γ → σ → ι → γ)
    (s₀ : σ) (g₀ : γ) (inp : Nat → ι) : Nat → γ
  | 0 => g₀
  | t + 1 =>
      watch (observe step watch s₀ g₀ inp t)
        (run step s₀ inp t) (inp t)

@[simp] theorem observe_zero
    (step : σ → ι → σ) (watch : γ → σ → ι → γ)
    (s₀ : σ) (g₀ : γ) (inp : Nat → ι) :
    observe step watch s₀ g₀ inp 0 = g₀ := by
  rfl

/-- Invariant rule for a machine together with its observer: what holds after
reset and is kept by every clock edge whose inputs are admissible holds in
every clock of every admissible run. -/
theorem run_observe_invariant
    {step : σ → ι → σ} {watch : γ → σ → ι → γ}
    {s₀ : σ} {g₀ : γ} {inp : Nat → ι}
    (Inv : σ → γ → Prop)
    (Ok : σ → ι → Prop)
    (hinit : Inv s₀ g₀)
    (hstep : ∀ s g i, Inv s g → Ok s i → Inv (step s i) (watch g s i))
    (hok : ∀ t, Ok (run step s₀ inp t) (inp t))
    (t : Nat) :
    Inv (run step s₀ inp t) (observe step watch s₀ g₀ inp t) := by
  induction t with
  | zero =>
      exact hinit
  | succ t ih =>
      exact hstep _ _ _ ih (hok t)

/-- Invariant rule for a machine alone. -/
theorem run_invariant
    {step : σ → ι → σ} {s₀ : σ} {inp : Nat → ι}
    (Inv : σ → Prop)
    (hinit : Inv s₀)
    (hstep : ∀ s i, Inv s → Inv (step s i))
    (t : Nat) :
    Inv (run step s₀ inp t) := by
  induction t with
  | zero =>
      exact hinit
  | succ t ih =>
      exact hstep _ _ ih

end Runs

section Events

variable {α : Type u}

/-- Everything a signal of events has emitted before clock `t`, in order. -/
def eventsBefore (e : Nat → List α) : Nat → List α
  | 0 => []
  | t + 1 => eventsBefore e t ++ e t

@[simp] theorem eventsBefore_zero
    (e : Nat → List α) :
    eventsBefore e 0 = [] := by
  rfl

theorem eventsBefore_succ
    (e : Nat → List α) (t : Nat) :
    eventsBefore e (t + 1) = eventsBefore e t ++ e t := by
  rfl

/-- Events that stand for several others each. -/
theorem eventsBefore_flatMap
    {β : Type v} (f : α → List β) (e : Nat → List α) (t : Nat) :
    (eventsBefore e t).flatMap f =
      eventsBefore (fun u => (e u).flatMap f) t := by
  induction t with
  | zero =>
      rfl
  | succ t ih =>
      rw [eventsBefore_succ, eventsBefore_succ, List.flatMap_append, ih]

/-- Clocks without an event add nothing. -/
theorem eventsBefore_of_quiet
    {e : Nat → List α} {a b : Nat} (hab : a ≤ b)
    (hquiet : ∀ t, a ≤ t → t < b → e t = []) :
    eventsBefore e b = eventsBefore e a := by
  induction b, hab using Nat.le_induction with
  | base =>
      rfl
  | succ b hab ih =>
      rw [eventsBefore_succ, hquiet b hab (by omega), List.append_nil]
      exact ih (fun t hat htb => hquiet t hat (by omega))

/-- What has been emitted stays. -/
theorem eventsBefore_prefix
    (e : Nat → List α) {a b : Nat} (hab : a ≤ b) :
    eventsBefore e a <+: eventsBefore e b := by
  induction b, hab using Nat.le_induction with
  | base => exact List.prefix_refl _
  | succ b hab ih => exact ih.trans (List.prefix_append _ _)

/-- **Conservation law of a lossless buffer.** If in every clock the words
leaving the buffer followed by the words it then still holds are the words it
held followed by the words entering it, then over any run the words that left
and the words still held are exactly the words that entered, in order. -/
theorem eventsBefore_conservation
    {out acc : Nat → List α} (pend : Nat → List α)
    (hclock : ∀ t, out t ++ pend (t + 1) = pend t ++ acc t)
    (hempty : pend 0 = [])
    (t : Nat) :
    eventsBefore out t ++ pend t = eventsBefore acc t := by
  induction t with
  | zero =>
      simpa using hempty
  | succ t ih =>
      calc
        eventsBefore out (t + 1) ++ pend (t + 1)
            = eventsBefore out t ++ (out t ++ pend (t + 1)) := by
              rw [eventsBefore_succ, List.append_assoc]
        _ = eventsBefore out t ++ pend t ++ acc t := by
              rw [hclock t, List.append_assoc]
        _ = eventsBefore acc (t + 1) := by
              rw [ih, eventsBefore_succ]

end Events

section Pulses

/-- Number of clocks in `[a, b)` in which a signal is high. -/
def pulsesIn (p : Nat → Bool) (a b : Nat) : Nat :=
  ∑ t ∈ Finset.Ico a b, if p t then 1 else 0

@[simp] theorem pulsesIn_self
    (p : Nat → Bool) (a : Nat) :
    pulsesIn p a a = 0 := by
  simp [pulsesIn]

theorem pulsesIn_succ
    (p : Nat → Bool) {a b : Nat} (hab : a ≤ b) :
    pulsesIn p a (b + 1) =
      pulsesIn p a b + if p b then 1 else 0 := by
  unfold pulsesIn
  exact Finset.sum_Ico_succ_top hab _

/-- The pulses of two adjoining intervals. -/
theorem pulsesIn_add
    (p : Nat → Bool) {a b c : Nat} (hab : a ≤ b) (hbc : b ≤ c) :
    pulsesIn p a c = pulsesIn p a b + pulsesIn p b c := by
  unfold pulsesIn
  exact (Finset.sum_Ico_consecutive _ hab hbc).symm

/-- The pulses of a signal are those of its delayed copy one clock later. -/
theorem pulsesIn_delay
    {p q : Nat → Bool} (hdelay : ∀ t, q (t + 1) = p t) (a b : Nat) :
    pulsesIn q (a + 1) (b + 1) = pulsesIn p a b := by
  unfold pulsesIn
  rw [← Finset.sum_Ico_add']
  simp only [hdelay]

/-- Successive pulses of a signal are at least `k` clocks apart. -/
def Spaced (k : Nat) (p : Nat → Bool) : Prop :=
  ∀ t u, t < u → p t = true → p u = true → t + k ≤ u

theorem Spaced.mono
    {j k : Nat} {p : Nat → Bool} (hp : Spaced k p) (hjk : j ≤ k) :
    Spaced j p := by
  intro t u htu ht hu
  have hle := hp t u htu ht hu
  omega

/-- After a pulse the signal is low until the minimum distance has passed. -/
theorem Spaced.low_after
    {k : Nat} {p : Nat → Bool}
    (hp : Spaced k p) {t : Nat} (ht : p t = true)
    {j : Nat} (hj : 0 < j) (hjk : j < k) :
    p (t + j) = false := by
  by_contra hhigh
  have hle :=
    hp t (t + j) (by omega) ht (by simpa using hhigh)
  omega

end Pulses

end Clocked
end MollerFirmware
