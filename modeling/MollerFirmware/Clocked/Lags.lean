import MollerFirmware.Clocked.SerialFrames
import MollerFirmware.Clocked.Windows

/-!
# Pulses that follow others with a lag

A signal lags another by `d` clocks if its pulses can be charged to earlier
pulses of the other, each at least `d` clocks back. Lags add up along a chain of
registers, also of registers that are enabled in some clocks only.

A gate that lets a pulse through only while fewer than `k` of the earlier ones
are answered for lets no more than `k` through in any stretch of time in which
none of the answers can arrive.
-/

namespace MollerFirmware
namespace Clocked

section Lag

/-- The `n`-th pulse of `y` is at least `d` clocks after the `n`-th of `x`. -/
def Lags (d : Nat) (x y : Nat → Bool) : Prop :=
  ∀ t, pulsesIn y 0 (t + d) ≤ pulsesIn x 0 t

theorem Lags.trans {d e : Nat} {x y z : Nat → Bool}
    (hxy : Lags d x y) (hyz : Lags e y z) :
    Lags (d + e) x z := by
  intro t
  calc
    pulsesIn z 0 (t + (d + e)) = pulsesIn z 0 (t + d + e) := by
      rw [Nat.add_assoc]
    _ ≤ pulsesIn y 0 (t + d) := hyz (t + d)
    _ ≤ pulsesIn x 0 t := hxy t

theorem Lags.le_before {d : Nat} {x y : Nat → Bool}
    (h : Lags d x y) {t u : Nat} (htu : t ≤ u + d) :
    pulsesIn y 0 t ≤ pulsesIn x 0 u :=
  (pulsesIn_mono y (Nat.zero_le t) htu).trans (h u)

theorem pulsesIn_delayed (d : Nat) (x : Nat → Bool) (t : Nat) :
    pulsesIn (delayed d x) 0 t = pulsesIn x 0 (t - d) := by
  have hlow : ∀ n, n ≤ d → pulsesIn (delayed d x) 0 n = 0 := by
    intro n hn
    refine (pulsesIn_eq_zero_iff _ _ _).mpr fun u _ hu => ?_
    simp only [delayed, Bool.and_eq_false_iff, decide_eq_false_iff_not]
    exact Or.inl (by omega)
  rcases Nat.le_total t d with hle | hle
  · rw [hlow t hle, Nat.sub_eq_zero_of_le hle, pulsesIn_self]
  · obtain ⟨n, rfl⟩ := Nat.exists_eq_add_of_le hle
    rw [Nat.add_sub_cancel_left]
    induction n with
    | zero =>
        rw [Nat.add_zero, hlow d (le_refl d), pulsesIn_self]
    | succ n ih =>
        rw [← Nat.add_assoc, pulsesIn_succ _ (Nat.zero_le (d + n)),
          ih (Nat.le_add_right d n), pulsesIn_succ _ (Nat.zero_le n),
          Nat.add_comm d n, delayed_add]

/-- A register that is set by a pulse only. -/
theorem Lags.of_next {x y : Nat → Bool} (hinit : y 0 = false)
    (hnext : ∀ t, y (t + 1) = true → x t = true) :
    Lags 1 x y := by
  intro t
  induction t with
  | zero =>
      rw [Nat.zero_add, pulsesIn_succ _ (le_refl 0), hinit]
      simp
  | succ t ih =>
      rw [pulsesIn_succ y (Nat.zero_le (t + 1)),
        pulsesIn_succ x (Nat.zero_le t)]
      refine Nat.add_le_add ih ?_
      cases hy : y (t + 1) with
      | false =>
          exact Nat.zero_le _
      | true =>
          rw [hnext t hy]

/-- No more than `k` pulses in `d + 1` clocks. -/
theorem Lags.pulsesIn_le_of_gate {d k : Nat} {grant done : Nat → Bool}
    (hlag : Lags d grant done)
    (hgate : ∀ t, grant t = true →
      pulsesIn grant 0 t < pulsesIn done 0 t + k) (u : Nat) :
    pulsesIn grant u (u + (d + 1)) ≤ k := by
  -- over the clocks of the stretch: none of them sees an answer to the others
  have hup : ∀ n, n ≤ d + 1 → pulsesIn grant u (u + n) ≤ k := by
    intro n hn
    induction n with
    | zero =>
        rw [Nat.add_zero, pulsesIn_self]
        exact Nat.zero_le k
    | succ n ih =>
        have hbefore := ih (by omega)
        rw [← Nat.add_assoc, pulsesIn_succ grant (Nat.le_add_right u n)]
        cases hpulse : grant (u + n) with
        | false =>
            simpa using hbefore
        | true =>
            have hopen := hgate (u + n) hpulse
            have hdone := hlag.le_before (t := u + n) (u := u) (by omega)
            have hsplit := pulsesIn_add grant (Nat.zero_le u)
              (Nat.le_add_right u n)
            rw [if_pos rfl]
            omega
  exact hup (d + 1) (le_refl _)

end Lag

section Enables

variable {ce x reg : Nat → Bool}

/-- A stretch of `k` clocks holds at most one of the pulses of a spaced
signal. -/
theorem Spaced.pulsesIn_le_one {k : Nat} {p : Nat → Bool} (hp : Spaced k p)
    {a b : Nat} (hab : b ≤ a + k) :
    pulsesIn p a b ≤ 1 := by
  unfold pulsesIn
  rw [← Finset.card_filter]
  refine Finset.card_le_one.mpr fun t ht u hu => ?_
  obtain ⟨ht, hpt⟩ := Finset.mem_filter.mp ht
  obtain ⟨hu, hpu⟩ := Finset.mem_filter.mp hu
  rw [Finset.mem_Ico] at ht hu
  by_contra hne
  rcases Nat.lt_or_gt_of_ne hne with hlt | hlt
  · have := hp t u hlt hpt hpu
    omega
  · have := hp u t hlt hpu hpt
    omega

/-- What is taken of a signal in the enabled clocks. -/
def sampled (ce x : Nat → Bool) (t : Nat) : Bool :=
  ce t && x t

/-- A register that powers up low and takes a signal in the enabled clocks. -/
structure Takes (ce x reg : Nat → Bool) : Prop where
  init : reg 0 = false
  succ : ∀ t, reg (t + 1) = if ce t then x t else reg t

namespace Takes

/-- What was taken has been passed on or is in the register. -/
theorem ledger (h : Takes ce x reg) (t : Nat) :
    pulsesIn (sampled ce reg) 0 t + (if reg t then 1 else 0) =
      pulsesIn (sampled ce x) 0 t := by
  induction t with
  | zero =>
      simp [h.init]
  | succ t ih =>
      rw [pulsesIn_succ _ (Nat.zero_le t), pulsesIn_succ _ (Nat.zero_le t),
        h.succ, ← ih]
      cases hon : ce t <;> simp [sampled, hon]

/-- The register keeps its value until the next enabled clock. -/
theorem keeps (h : Takes ce x reg) {t n : Nat}
    (hoff : ∀ j, j < n → ce (t + j) = false) :
    reg (t + n) = reg t := by
  induction n with
  | zero =>
      rfl
  | succ n ih =>
      rw [← Nat.add_assoc, h.succ, hoff n (Nat.lt_succ_self n),
        if_neg Bool.false_ne_true]
      exact ih fun j hj => hoff j (by omega)

theorem lags (h : Takes ce x reg) {c : Nat} (hce : Spaced c ce) :
    Lags c (sampled ce x) (sampled ce reg) := by
  intro t
  have hspaced : Spaced c (sampled ce reg) := fun a b hab ha hb =>
    hce a b hab (Bool.and_elim_left ha) (Bool.and_elim_left hb)
  have hone := hspaced.pulsesIn_le_one (le_refl (t + c))
  have hledger := h.ledger t
  rw [pulsesIn_add _ (Nat.zero_le t) (Nat.le_add_right t c), ← hledger]
  refine Nat.add_le_add_left ?_ _
  rcases Nat.eq_zero_or_pos (pulsesIn (sampled ce reg) t (t + c))
    with hzero | hpos
  · rw [hzero]
    exact Nat.zero_le _
  · -- the one that is passed on in these clocks was there before
    obtain ⟨e, hte, hec, hpulse, hfirst⟩ :=
      exists_pulse (sampled ce reg) (n := 1) Nat.one_pos hpos
    obtain ⟨n, rfl⟩ := Nat.exists_eq_add_of_le hte
    have hnow : reg (t + n) = reg t := by
      refine h.keeps fun j hj => ?_
      by_contra hon
      have := hce (t + j) (t + n) (by omega) (by simpa using hon)
        (Bool.and_elim_left hpulse)
      omega
    rw [← hnow, Bool.and_elim_right hpulse, if_pos rfl]
    exact hone

end Takes

end Enables

end Clocked
end MollerFirmware
