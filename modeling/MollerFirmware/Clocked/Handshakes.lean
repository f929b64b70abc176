import MollerFirmware.Clocked.Signals

/-!
# Channels with a handshake

A channel carries a word in every clock in which its sender shows `valid` and
its receiver shows `ready`. The rule of such channels is that an offer is not
withdrawn: once `valid` is high it stays high, with the same word, until the
word has been taken.

The module also has sequential services: requests that are served one after
another, each with an answer. They say what a circuit with separate channels
for requests and answers is to do.
-/

namespace MollerFirmware
namespace Clocked

universe u v w

section Channels

variable {α : Type u}

/-- Words a channel has carried before clock `t`. -/
def transfers (valid ready : Nat → Bool) (word : Nat → α) : Nat → List α :=
  eventsBefore fun t => if valid t && ready t then [word t] else []

@[simp] theorem transfers_zero
    (valid ready : Nat → Bool) (word : Nat → α) :
    transfers valid ready word 0 = [] := by
  rfl

variable {valid ready : Nat → Bool} {word : Nat → α} {t : Nat}

theorem transfers_taken
    (hvalid : valid t = true) (hready : ready t = true) :
    transfers valid ready word (t + 1) =
      transfers valid ready word t ++ [word t] := by
  simp [transfers, eventsBefore_succ, hvalid, hready]

theorem transfers_notReady
    (hready : ready t = false) :
    transfers valid ready word (t + 1) = transfers valid ready word t := by
  simp [transfers, eventsBefore_succ, hready]

theorem transfers_notValid
    (hvalid : valid t = false) :
    transfers valid ready word (t + 1) = transfers valid ready word t := by
  simp [transfers, eventsBefore_succ, hvalid]

/-- Events seen through a function. -/
theorem eventsBefore_map
    {β : Type v} (f : α → β) (e : Nat → List α) (t : Nat) :
    (eventsBefore e t).map f = eventsBefore (fun u => (e u).map f) t := by
  induction t with
  | zero =>
      rfl
  | succ t ih =>
      rw [eventsBefore_succ, eventsBefore_succ, List.map_append, ih]

/-- An offer stays until it is taken. -/
def Persistent (valid ready : Nat → Bool) (word : Nat → α) : Prop :=
  ∀ t, valid t = true → ready t = false →
    valid (t + 1) = true ∧ word (t + 1) = word t

end Channels

section Services

/-- A service that is used by one request after another. -/
structure Service (σ : Type u) (ρ : Type v) (β : Type w) where
  apply : σ → ρ → σ
  answer : σ → ρ → β

namespace Service

variable {σ : Type u} {ρ : Type v} {β : Type w}
variable (S : Service σ ρ β)

/-- The state after some requests. -/
def after (s : σ) (qs : List ρ) : σ :=
  qs.foldl S.apply s

/-- The answers to some requests. -/
def answers (s : σ) : List ρ → List β
  | [] => []
  | q :: qs => S.answer s q :: answers (S.apply s q) qs

@[simp] theorem after_nil (s : σ) :
    S.after s [] = s := by
  rfl

theorem after_append (s : σ) (ps qs : List ρ) :
    S.after s (ps ++ qs) = S.after (S.after s ps) qs := by
  simp [after]

@[simp] theorem length_answers (s : σ) (qs : List ρ) :
    (S.answers s qs).length = qs.length := by
  induction qs generalizing s with
  | nil =>
      rfl
  | cons q qs ih =>
      simp [answers, ih]

end Service

end Services

end Clocked
end MollerFirmware
