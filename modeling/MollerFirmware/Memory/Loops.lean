import Mathlib.Tactic

/-!
# Counting loops that may fail

`forLoop body n s` is `for (k = 0; k < n; k++)` around a body that changes a state
and may fail. The rule for such a loop asks for an invariant that holds before
each turn; it says at once that the loop does not fail and what holds at its
end.
-/

namespace MollerFirmware
namespace Memory

universe u

variable {σ : Type u} {body : Nat → σ → Option σ} {n : Nat} {s : σ}

/-- The turns of a loop for the first `n` values of its counter. -/
def forLoop (body : Nat → σ → Option σ) : Nat → σ → Option σ
  | 0, s => some s
  | n + 1, s => (forLoop body n s).bind (body n)

theorem forLoop_succ (body : Nat → σ → Option σ) (n : Nat) (s : σ) :
    forLoop body (n + 1) s = (forLoop body n s).bind (body n) := by
  rfl

/-- **The rule for counting loops.** -/
theorem forLoop_spec {I : Nat → σ → Prop} (hstart : I 0 s)
    (hturn : ∀ k < n, ∀ t, I k t → ∃ t', body k t = some t' ∧ I (k + 1) t') :
    ∃ s', forLoop body n s = some s' ∧ I n s' := by
  induction n with
  | zero =>
      exact ⟨s, rfl, hstart⟩
  | succ n ih =>
      obtain ⟨t, ht, hI⟩ := ih fun k hk => hturn k (by omega)
      obtain ⟨s', hs', hI'⟩ := hturn n (by omega) t hI
      exact ⟨s', by rw [forLoop_succ, ht]; exact hs', hI'⟩

end Memory
end MollerFirmware
