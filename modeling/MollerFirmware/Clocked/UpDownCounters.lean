import MollerFirmware.Clocked.Delays
import MollerFirmware.Clocked.Windows

/-!
# Counters of what is outstanding

A counter goes up with one signal and down with another, stays when both come
together, and is not taken below zero. If nothing is taken back that was not
counted before, it is the difference of the two numbers of pulses. In general it
is the largest difference over a stretch of time that ends now, so that what was
taken back too early is forgotten.
-/

namespace MollerFirmware
namespace Clocked

variable {w : Nat} {up down : Nat → Bool} {reg : Nat → BitVec w}

/-- Next value of the counter, by its enable and its direction. -/
def upDown (up down : Bool) (x : BitVec w) : BitVec w :=
  if (down ^^ up) && (up || down && x != 0) then
    if up then x + 1 else x - 1
  else x

theorem toNat_upDown {up down : Bool} {x : BitVec w}
    (hroom : up = true → down = false → x.toNat + 1 < 2 ^ w) :
    (upDown up down x).toNat =
      if up then if down then x.toNat else x.toNat + 1
      else if down then x.toNat - 1 else x.toNat := by
  cases up <;> cases down
  · simp [upDown]
  · by_cases hx : x = 0
    · simp [upDown, hx]
    · have hne : (x != 0) = true := by simpa using hx
      rw [upDown, hne, if_pos (by rfl), if_neg Bool.false_ne_true,
        toNat_pred hx]
      rfl
  · rw [upDown, if_pos (by rfl), if_pos rfl, toNat_succ_of_lt (hroom rfl rfl)]
    rfl
  · simp [upDown]

/-- A register that counts from zero on. -/
structure Counts (up down : Nat → Bool) (reg : Nat → BitVec w) : Prop where
  init : reg 0 = 0
  succ : ∀ t, reg (t + 1) = upDown (up t) (down t) (reg t)

namespace Counts

/-- The counter stays the difference of the pulses in a clock that does not
pass its ends. -/
theorem ledger_succ (h : Counts up down reg) {t : Nat}
    (hledger : pulsesIn up 0 t = pulsesIn down 0 t + (reg t).toNat)
    (htaken : down t = true → reg t ≠ 0)
    (hroom : pulsesIn up 0 (t + 1) < pulsesIn down 0 (t + 1) + 2 ^ w) :
    pulsesIn up 0 (t + 1) =
      pulsesIn down 0 (t + 1) + (reg (t + 1)).toNat := by
  rw [pulsesIn_succ up (Nat.zero_le t),
    pulsesIn_succ down (Nat.zero_le t)] at hroom ⊢
  rw [h.succ, toNat_upDown fun hup hdown => by
    rw [hup, hdown, if_pos rfl, if_neg Bool.false_ne_true] at hroom
    omega]
  have hpos : down t = true → (reg t).toNat ≠ 0 := fun hdown hzero =>
    htaken hdown (BitVec.eq_of_toNat_eq (by simpa using hzero))
  cases up t <;> cases hdown : down t <;> simp
  · exact hledger
  · have hne := hpos hdown
    omega
  · omega
  · omega

/-- The largest excess of a stretch of time. -/
theorem le_iff_excess (h : Counts up down reg)
    (hroom : ∀ u t, u ≤ t → pulsesIn up u t < pulsesIn down u t + 2 ^ w)
    (t n : Nat) :
    n ≤ (reg t).toNat ↔ ∃ u, u ≤ t ∧ pulsesIn down u t + n ≤ pulsesIn up u t := by
  induction t generalizing n with
  | zero =>
      rw [h.init]
      constructor
      · intro hn
        exact ⟨0, le_refl 0, by simpa using hn⟩
      · rintro ⟨u, hu, hle⟩
        obtain rfl : u = 0 := by omega
        simpa using hle
  | succ t ih =>
      have hfits : up t = true → down t = false →
          (reg t).toNat + 1 < 2 ^ w := by
        intro hup hdown
        obtain ⟨u, hu, hle⟩ := (ih (reg t).toNat).mp (le_refl _)
        have hnext := hroom u (t + 1) (by omega)
        rw [pulsesIn_succ up hu, pulsesIn_succ down hu, hup, hdown,
          if_pos rfl, if_neg Bool.false_ne_true] at hnext
        omega
      -- a stretch that ends one clock later, or the empty one
      have hsplit : (∃ u, u ≤ t + 1 ∧
            pulsesIn down u (t + 1) + n ≤ pulsesIn up u (t + 1)) ↔
          n = 0 ∨ ∃ u, u ≤ t ∧
            pulsesIn down u t + (if down t then 1 else 0) + n ≤
              pulsesIn up u t + if up t then 1 else 0 := by
        constructor
        · rintro ⟨u, hu, hle⟩
          rcases Nat.lt_or_ge t u with hlt | hge
          · obtain rfl : u = t + 1 := by omega
            rw [pulsesIn_self, pulsesIn_self] at hle
            exact Or.inl (by omega)
          · rw [pulsesIn_succ up hge, pulsesIn_succ down hge] at hle
            exact Or.inr ⟨u, hge, hle⟩
        · rintro (rfl | ⟨u, hu, hle⟩)
          · exact ⟨t + 1, le_refl _, by simp⟩
          · refine ⟨u, by omega, ?_⟩
            rw [pulsesIn_succ up hu, pulsesIn_succ down hu]
            exact hle
      rw [hsplit, h.succ, toNat_upDown hfits]
      have hzero := ih 0
      cases up t <;> cases down t
      · simp only [Bool.false_eq_true, if_false, Nat.add_zero, ← ih n]
        omega
      · have hone := ih (n + 1)
        simp only [Bool.false_eq_true, if_false, if_true, Nat.add_zero]
        rw [show (∃ u, u ≤ t ∧ pulsesIn down u t + 1 + n ≤ pulsesIn up u t) ↔
          n + 1 ≤ (reg t).toNat by
            rw [hone]
            simp only [Nat.add_assoc, Nat.add_comm 1]]
        omega
      · have hless := ih (n - 1)
        simp only [Bool.false_eq_true, if_false, if_true, Nat.add_zero]
        rcases Nat.eq_zero_or_pos n with rfl | hpos
        · simp
        · rw [show (∃ u, u ≤ t ∧ pulsesIn down u t + n ≤ pulsesIn up u t + 1) ↔
            n - 1 ≤ (reg t).toNat by
              rw [hless]
              refine exists_congr fun u => and_congr_right fun _ => ?_
              omega]
          omega
      · simp only [if_true]
        rw [show (∃ u, u ≤ t ∧
            pulsesIn down u t + 1 + n ≤ pulsesIn up u t + 1) ↔
          n ≤ (reg t).toNat by
            rw [ih n]
            refine exists_congr fun u => and_congr_right fun _ => ?_
            omega]
        omega

end Counts

end Clocked
end MollerFirmware
