import MollerFirmware.Clocked.SerialFrames

/-!
# SigDelay: a delay of up to 256 clocks

Eight shift registers of 32 places in a row and a register behind them. Each of
the eight has an output at the place `DelayVal[4:0]` and one at its end, which
feeds the next. `DelayVal[7:5]` selects the register that is read.
-/

namespace MollerFirmware
namespace SigDelay

open Clocked

/-- The primitive `SRLC32E`, always enabled and cleared at power-up, with the
address on `A`. -/
structure Srlc32e where
  q : (Nat → BitVec 5) → (Nat → Bool) → Nat → Bool
  q31 : (Nat → Bool) → Nat → Bool
  q_eq : ∀ a d t, q a d t = delayed ((a t).toNat + 1) d t
  q31_eq : ∀ d, q31 d = delayed 32 d

section Module

variable (srl : Srlc32e) (delayVal : Nat → BitVec 8) (sigIn : Nat → Bool)

/-- Input of a register of the row. -/
def cascade : Nat → Nat → Bool
  | 0 => sigIn
  | k + 1 => srl.q31 (cascade k)

/-- `DelayOut(k)` -/
def delayOut (k : Nat) : Nat → Bool :=
  srl.q (fun t => (delayVal t).extractLsb 4 0) (cascade srl sigIn k)

/-- `SigOutMax` -/
def sigOutMax : Nat → Bool :=
  cascade srl sigIn 8

/-- `SigOut` -/
def sigOut : Nat → Bool
  | 0 => false
  | t + 1 =>
      delayOut srl delayVal sigIn ((delayVal t).extractLsb 7 5).toNat t

theorem cascade_eq (k : Nat) :
    cascade srl sigIn k = delayed (32 * k) sigIn := by
  induction k with
  | zero =>
      funext t
      simp [cascade, delayed]
  | succ k ih =>
      rw [cascade, srl.q31_eq, ih, delayed_delayed,
        show 32 + 32 * k = 32 * (k + 1) by omega]

theorem sigOutMax_eq :
    sigOutMax srl sigIn = delayed 256 sigIn :=
  cascade_eq srl sigIn 8

/-- Also while `DelayVal` changes. -/
theorem sigOut_succ (t : Nat) :
    sigOut srl delayVal sigIn (t + 1) =
      delayed ((delayVal t).toNat + 1) sigIn t := by
  have hval : ((delayVal t).extractLsb 4 0).toNat + 1 +
      32 * ((delayVal t).extractLsb 7 5).toNat = (delayVal t).toNat + 1 := by
    have hlt := (delayVal t).isLt
    simp only [BitVec.extractLsb_toNat, Nat.shiftRight_eq_div_pow]
    omega
  rw [sigOut, delayOut, srl.q_eq, cascade_eq, ← hval]
  exact congrFun (delayed_delayed _ _ sigIn) t

/-- A constant setting delays by two clocks more than its value. -/
theorem sigOut_eq (v : BitVec 8) :
    sigOut srl (fun _ => v) sigIn = delayed (v.toNat + 2) sigIn := by
  rw [show v.toNat + 2 = 1 + (v.toNat + 1) by omega, ← delayed_delayed]
  exact delayed_one_of_succ rfl fun t => sigOut_succ srl (fun _ => v) sigIn t

end Module

end SigDelay
end MollerFirmware
