import MollerFirmware.Clocked.Signals
import Mathlib.Data.BitVec
import Mathlib.Data.Nat.Log

/-!
# Shift registers and counters

Two ways in which a circuit remembers for how long something has been going on,
and the register of a counter as a number.

A shift register of `w` places takes `k` new values in every clock: `x t b` for
`b < k` go to the first `k` places, and what was there moves up by `k`. A down
counter is loaded in the clocks of a signal and otherwise falls to zero.

The rules hold up to a clock `T` until which the circuit is known to work
without being reset.
-/

namespace MollerFirmware
namespace Clocked

universe u

section ShiftRegisters

variable {α : Type u} {w k T : Nat} {reg x : Nat → Nat → α}

/-- A register of `w` places into which `k` values are shifted in every clock
before `T`. -/
def ShiftsIn (w k T : Nat) (reg x : Nat → Nat → α) : Prop :=
  ∀ t, t < T → ∀ b, b < w →
    reg (t + 1) b = if b < k then x t b else reg t (b - k)

/-- What was shifted in is found further up in later clocks. -/
theorem ShiftsIn.read
    (h : ShiftsIn w k T reg x) {t j b : Nat}
    (hb : b < k) (hw : b + k * j < w) (hT : t + j < T) :
    reg (t + 1 + j) (b + k * j) = x t b := by
  induction j with
  | zero =>
      rw [Nat.add_zero, h t (by omega) _ hw, Nat.mul_zero, Nat.add_zero,
        if_pos hb]
  | succ j ih =>
      rw [Nat.mul_succ] at hw ⊢
      rw [← Nat.add_assoc, h _ (by omega) _ hw, if_neg (by omega),
        show b + (k * j + k) - k = b + k * j by omega]
      exact ih (by omega) (by omega)

/-- Until a place is reached by the values shifted in, it holds what was in
the register. -/
theorem ShiftsIn.read_initial
    (h : ShiftsIn w k T reg x) {t b : Nat}
    (hw : b + k * t < w) (hT : t ≤ T) :
    reg t (b + k * t) = reg 0 b := by
  induction t with
  | zero =>
      simp
  | succ t ih =>
      rw [Nat.mul_succ] at hw ⊢
      rw [h t (by omega) _ hw, if_neg (by omega),
        show b + (k * t + k) - k = b + k * t by omega]
      exact ih (by omega) (by omega)

end ShiftRegisters

section CounterRegisters

variable {w : Nat} {x : BitVec w}

theorem toNat_succ_of_lt (hfit : x.toNat + 1 < 2 ^ w) :
    (x + 1).toNat = x.toNat + 1 := by
  have hbase : 1 < 2 ^ w := by omega
  have hone : (1 : BitVec w).toNat = 1 := Nat.mod_eq_of_lt hbase
  rw [BitVec.toNat_add, hone]
  exact Nat.mod_eq_of_lt hfit

theorem toNat_pred (hx : x ≠ 0) :
    (x - 1).toNat = x.toNat - 1 := by
  have hpos : 0 < x.toNat := by
    rcases Nat.eq_zero_or_pos x.toNat with hzero | hpos
    · exact absurd (BitVec.eq_of_toNat_eq (by simpa using hzero)) hx
    · exact hpos
  have hfit : 1 < 2 ^ w := lt_of_le_of_lt hpos x.isLt
  have hone : (1 : BitVec w).toNat = 1 := Nat.mod_eq_of_lt hfit
  rw [BitVec.toNat_sub_of_le (by rw [BitVec.le_def, hone]; exact hpos), hone]

/-- A register `[$clog2(n+1):0]` can count one past `n`. -/
theorem succ_lt_two_pow_clog {n k : Nat} (hk : k ≤ n) :
    k + 1 < 2 ^ (Nat.clog 2 (n + 1) + 1) := by
  have hclog : n + 1 ≤ 2 ^ Nat.clog 2 (n + 1) :=
    Nat.le_pow_clog (by omega) _
  rw [pow_succ]
  omega

end CounterRegisters

section DownCounters

variable {T : Nat} {cnt v : Nat → Nat} {load : Nat → Bool}

/-- A counter that is loaded with `v` and else counts down, before clock `T`. -/
def CountsDown (T : Nat) (cnt v : Nat → Nat) (load : Nat → Bool) : Prop :=
  ∀ t, t < T → cnt (t + 1) = if load t then v t else cnt t - 1

/-- The counter falls by one in every clock until it is loaded again. -/
theorem CountsDown.after_load
    (h : CountsDown T cnt v load) {t k : Nat} (hload : load t = true)
    (hT : t + k < T)
    (hnone : ∀ u, t < u → u ≤ t + k → load u = false) :
    cnt (t + 1 + k) = v t - k := by
  induction k with
  | zero =>
      rw [Nat.add_zero, h t (by omega), if_pos hload, Nat.sub_zero]
  | succ k ih =>
      have hlow := hnone (t + 1 + k) (by omega) (by omega)
      rw [← Nat.add_assoc, h _ (by omega), if_neg (by simp [hlow]),
        ih (by omega) (fun u htu huk => hnone u htu (by omega))]
      omega

/-- A counter that starts at zero and is not zero was loaded, and its value
tells when. -/
theorem CountsDown.load_of_pos
    (h : CountsDown T cnt v load) (hzero : cnt 0 = 0) {u : Nat}
    (hT : u ≤ T) (hpos : 0 < cnt u) :
    ∃ t, t < u ∧ load t = true ∧ cnt u + u = v t + t + 1 := by
  induction u with
  | zero =>
      omega
  | succ u ih =>
      rw [h u (by omega)] at hpos ⊢
      cases hload : load u with
      | true =>
          exact ⟨u, by omega, hload, by rw [if_pos rfl]; omega⟩
      | false =>
          rw [hload, if_neg (by simp)] at hpos
          obtain ⟨t, htu, ht, hv⟩ := ih (by omega) (by omega)
          exact ⟨t, by omega, ht, by rw [if_neg (by simp)]; omega⟩

/-- A counter that is loaded only when it is zero is not loaded for as long as
it has been told to count. -/
theorem CountsDown.next_load
    (h : CountsDown T cnt v load)
    (hidle : ∀ t, load t = true → cnt t = 0)
    {t u : Nat} (htu : t < u) (hT : u ≤ T)
    (ht : load t = true) (hu : load u = true) :
    t + 1 + v t ≤ u := by
  by_contra hearly
  -- the first load after `t` comes too early as well
  obtain ⟨k, hk⟩ : ∃ k, u = t + 1 + k := ⟨u - t - 1, by omega⟩
  have hnone : ∀ j, j ≤ k → ∀ s, t < s → s < t + 1 + j → load s = false := by
    intro j
    induction j with
    | zero =>
        intro _ s hts hs
        omega
    | succ j ih =>
        intro hj s hts hs
        by_cases hlast : s = t + 1 + j
        · subst hlast
          by_contra hload
          have hcnt := h.after_load ht (k := j) (by omega)
            (fun s' hts' hs' => ih (by omega) s' hts' (by omega))
          have hzero := hidle (t + 1 + j) (by simpa using hload)
          omega
        · exact ih (by omega) s hts (by omega)
  have hcnt := h.after_load ht (k := k) (by omega)
    (fun s hts hs => hnone k (le_refl k) s hts (by omega))
  have hzero := hidle u hu
  rw [hk] at hzero
  omega

end DownCounters

end Clocked
end MollerFirmware
