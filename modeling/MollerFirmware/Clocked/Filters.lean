import MollerFirmware.Clocked.Delays

/-!
# Filters for levels

A signal is shifted into a register, and counts as high only if all the bits of
the register are set: it has then been high for as many clocks as the register
has bits.
-/

namespace MollerFirmware
namespace Clocked

variable {w : Nat} {reg : Nat → BitVec (w + 1)} {x : Nat → Bool}

/-- `{reg[w-1:0], x}` -/
def shiftLevel (reg : BitVec (w + 1)) (x : Bool) : BitVec (w + 1) :=
  reg.setWidth w ++ BitVec.ofBool x

/-- The register takes the signal in every clock. -/
def Filters (reg : Nat → BitVec (w + 1)) (x : Nat → Bool) : Prop :=
  ∀ t, reg (t + 1) = shiftLevel (reg t) (x t)

theorem Filters.shiftsIn (h : Filters reg x) (T : Nat) :
    ShiftsIn (w + 1) 1 T (fun t b => (reg t).getLsbD b) (fun t _ => x t) := by
  intro t _ b hb
  simp only [h t]
  rw [shiftLevel, BitVec.getLsbD_append, BitVec.getLsbD_setWidth]
  by_cases hfirst : b < 1
  · obtain rfl : b = 0 := by omega
    simp
  · rw [if_neg hfirst, if_neg hfirst]
    simp
    omega

/-- A low level stays in the register until it is shifted out. -/
theorem Filters.not_all (h : Filters reg x) {t u : Nat} (hlow : x t = false)
    (htu : t < u) (hu : u ≤ t + (w + 1)) :
    reg u ≠ BitVec.allOnes (w + 1) := by
  intro hall
  have hbit := (h.shiftsIn u).read (t := t) (j := u - t - 1) (b := 0)
    (by omega) (by omega) (by omega)
  rw [show t + 1 + (u - t - 1) = u by omega, hall, hlow] at hbit
  rw [BitVec.getLsbD_allOnes, decide_eq_false_iff_not] at hbit
  omega

theorem Filters.all_iff (h : Filters reg x) (t : Nat) :
    reg (t + (w + 1)) = BitVec.allOnes (w + 1) ↔
      ∀ u, t ≤ u → u < t + (w + 1) → x u = true := by
  constructor
  · intro hall u htu hu
    by_contra hlow
    exact h.not_all (by simpa using hlow) (by omega) (by omega) hall
  · intro hhigh
    refine BitVec.eq_of_getLsbD_eq fun b hb => ?_
    have hbit := (h.shiftsIn (t + (w + 1))).read (t := t + (w - b)) (j := b)
      (b := 0) (by omega) (by omega) (by omega)
    rw [show t + (w - b) + 1 + b = t + (w + 1) by omega, Nat.zero_add,
      Nat.one_mul, hhigh _ (by omega) (by omega)] at hbit
    rw [hbit, BitVec.getLsbD_allOnes, decide_eq_true hb]

end Clocked
end MollerFirmware
