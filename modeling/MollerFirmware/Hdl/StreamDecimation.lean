import MollerFirmware.Clocked.Delays
import MollerFirmware.Clocked.ReloadCounter
import MollerFirmware.Hdl.StreamFrames

/-!
# The decimator of subsystem_stream_all

The decimator is a reload counter on the valid conversions: `div` counts them
down, the conversion that finds it at zero is selected and reloads it with
`scaled_div`, the mantissa times a power of four. `ena` low holds the counter
at zero, so that every session begins with a selected conversion.
-/

namespace MollerFirmware
namespace SubsystemStream

open Clocked

/-- `rate_div[3:0]` -/
def mantissa (rateDiv : BitVec 7) : Nat :=
  (rateDiv.extractLsb' 0 4).toNat

/-- `rate_div[6:4]` -/
def exponent (rateDiv : BitVec 7) : Nat :=
  (rateDiv.extractLsb' 4 3).toNat

/-- Conversions that are dropped after a selected one. -/
def dropped (rateDiv : BitVec 7) : Nat :=
  mantissa rateDiv * 4 ^ exponent rateDiv

theorem toNat_extended {w : Nat} (a : Nat) (x : BitVec w) :
    (0#a ++ x).toNat = x.toNat := by
  simp [BitVec.toNat_append]

/-- Zeros on both sides of a word multiply it by a power of two. -/
theorem toNat_padded {w : Nat} (a b : Nat) (x : BitVec w) :
    (0#a ++ x ++ 0#b).toNat = x.toNat * 2 ^ b := by
  simp [BitVec.toNat_append, Nat.shiftLeft_eq]

/-- The eight concatenations are one multiplication. -/
theorem scaledDiv_toNat (rateDiv : BitVec 7) :
    (scaledDiv rateDiv).toNat = dropped rateDiv := by
  have hlt : exponent rateDiv < 8 := (rateDiv.extractLsb' 4 3).isLt
  unfold scaledDiv dropped mantissa
  generalize rateDiv.extractLsb' 0 4 = m
  rw [← exponent]
  generalize exponent rateDiv = k at hlt ⊢
  interval_cases k
  · exact (toNat_extended 16 m).trans (Nat.mul_one _).symm
  · exact toNat_padded 14 2 m
  · exact toNat_padded 12 4 m
  · exact toNat_padded 10 6 m
  · exact toNat_padded 8 8 m
  · exact toNat_padded 6 10 m
  · exact toNat_padded 4 12 m
  · exact toNat_padded 2 14 m

namespace Run

/-- `ena` is high in `[e, f)` and low in the clock before. -/
structure EnaSession (r : Run) (e f : Nat) : Prop where
  before : ∀ t, t + 1 = e → (r.input t).ena = false
  high : ∀ t, e ≤ t → t < f → (r.input t).ena = true

variable {r : Run} {e f : Nat}

/-- `valid` as a signal. -/
def valid (r : Run) (t : Nat) : Bool :=
  (r.input t).valid

/-- Conversions that the decimation is to select in a session that begins in
clock `e`. -/
def SelectedPulse (r : Run) (e : Nat) : Nat → Prop :=
  Kept r.valid (fun t => dropped (r.input t).rateDiv) e

/-- A session begins with an empty divider. -/
theorem EnaSession.div_start (h : EnaSession r e f) :
    r.divAt e = 0 := by
  cases e with
  | zero => rfl
  | succ e => simp [divAt, divNext, h.before e rfl]

theorem EnaSession.inTvalid_start (h : EnaSession r e f) :
    r.inTvalid e = false := by
  cases e with
  | zero => rfl
  | succ e =>
      rw [inTvalid_succ, selected, selects, h.before e rfl]
      rfl

/-- In a session the divider is a reload counter on the valid conversions. -/
theorem EnaSession.reloads (h : EnaSession r e f) :
    Reloads r.valid (fun t => dropped (r.input t).rateDiv)
      (fun t => (r.divAt t).toNat) e f := by
  refine ⟨by rw [h.div_start]; rfl, fun t het htf => ?_⟩
  have hnext : r.divAt (t + 1) =
      if r.valid t then
        if r.divAt t ≠ 0 then r.divAt t - 1 else scaledDiv (r.input t).rateDiv
      else r.divAt t := by
    simp only [divAt, divNext, h.high t het htf]
    rfl
  rw [hnext]
  cases r.valid t with
  | false => rfl
  | true =>
      simp only [if_true]
      by_cases hdiv : r.divAt t = 0
      · simp [hdiv, scaledDiv_toNat]
      · have hpos : (r.divAt t).toNat ≠ 0 := by
          intro hzero
          exact hdiv (BitVec.eq_of_toNat_eq (by simpa using hzero))
        rw [if_pos hdiv, if_neg hpos]
        exact toNat_pred hdiv

theorem EnaSession.selected_iff (h : EnaSession r e f)
    {t : Nat} (het : e ≤ t) (htf : t < f) :
    r.selected t = true ↔ r.valid t = true ∧ (r.divAt t).toNat = 0 := by
  have hsel : r.selected t =
      if r.valid t then decide (r.divAt t = 0) else false := by
    simp only [selected, selects, h.high t het htf]
    rfl
  rw [hsel]
  cases r.valid t with
  | false => simp
  | true => simp [← BitVec.toNat_inj]

theorem EnaSession.selected_iff_pulse (h : EnaSession r e f)
    {t : Nat} (het : e ≤ t) (htf : t < f) :
    r.selected t = true ↔ r.SelectedPulse e t :=
  (h.selected_iff het htf).trans (h.reloads.keeps_iff_kept het htf)

/-- In a session `in_tvalid` is high exactly in the clocks after the selected
conversions: the first valid one and, after one that was selected with a
certain `rate_div`, the next one but as many as this is to drop. -/
theorem decimation_law (h : EnaSession r e f) :
    (∀ t, e ≤ t → t ≤ f →
      (r.inTvalid t = true ↔ ∃ u, t = u + 1 ∧ r.SelectedPulse e u)) ∧
    ∀ rateDiv, (∀ t, e ≤ t → t < f → (r.input t).rateDiv = rateDiv) →
      ∀ t, e ≤ t → t < f →
        (r.inTvalid (t + 1) = true ↔
          r.valid t = true ∧
            (mantissa rateDiv * 4 ^ exponent rateDiv + 1) ∣
              pulsesIn r.valid e t) := by
  constructor
  · intro t het htf
    constructor
    · intro hin
      obtain rfl | het := Nat.eq_or_lt_of_le het
      · rw [h.inTvalid_start] at hin
        exact absurd hin (by simp)
      · obtain ⟨u, rfl⟩ : ∃ u, t = u + 1 := ⟨t - 1, by omega⟩
        rw [inTvalid_succ] at hin
        exact ⟨u, rfl, (h.selected_iff_pulse (by omega) (by omega)).mp hin⟩
    · rintro ⟨u, rfl, hu⟩
      rw [inTvalid_succ]
      exact (h.selected_iff_pulse hu.le (by omega)).mpr hu
  · intro rateDiv hrate t het htf
    rw [inTvalid_succ, h.selected_iff_pulse het htf]
    exact h.reloads.kept_iff_dvd
      (fun t het htf => by rw [hrate t het htf]; rfl) het htf

/-- A conversion in every clock; `rate_div` changes during the session. -/
def thinnedRun : Run where
  before := powerUp
  resetInput := periodicInput 8 0
  input t :=
    { periodicInput 8 t with
      valid := true
      rateDiv := if t < 9 then 0x11 else 0x02 }

theorem decimation_law_thinned :
    EnaSession thinnedRun 6 20 ∧
      (thinnedRun.inTvalid 12 = true ↔
        ∃ u, 12 = u + 1 ∧ thinnedRun.SelectedPulse 6 u) := by
  have h : EnaSession thinnedRun 6 20 := by
    refine ⟨fun t ht => ?_, fun t ht _ => decide_eq_true ht⟩
    obtain rfl : t = 5 := by omega
    rfl
  exact ⟨h, (decimation_law h).1 12 (by decide) (by decide)⟩

end Run

end SubsystemStream
end MollerFirmware
