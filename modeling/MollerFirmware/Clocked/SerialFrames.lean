import MollerFirmware.Clocked.Filters

/-!
# Frames on a serial line

A line that idles high carries frames: a low start bit and the `n` bits of a
code, the most significant bit first. The receiver has no clock of its own for
the frames and nothing that tells it where one begins. It shifts the line into a
register and takes as a frame whatever is `n` ones, a zero, any `n` bits and `n`
ones.

This finds each frame once and nothing else, if a frame is `n` clocks away from
the next one. Before the first level of the line arrives the receiver sees
zeros.
-/

namespace MollerFirmware
namespace Clocked

section DelayLines

/-- A signal `d` clocks later, behind registers that power up low. -/
def delayed (d : Nat) (x : Nat → Bool) (t : Nat) : Bool :=
  decide (d ≤ t) && x (t - d)

theorem delayed_add (d : Nat) (x : Nat → Bool) (t : Nat) :
    delayed d x (t + d) = x t := by
  simp [delayed]

@[simp] theorem delayed_zero (x : Nat → Bool) :
    delayed 0 x = x := by
  funext t
  simp [delayed]

theorem delayed_succ (d : Nat) (x : Nat → Bool) (t : Nat) :
    delayed (d + 1) x (t + 1) = delayed d x t := by
  simp [delayed]

theorem delayed_eq_true_iff {d : Nat} {x : Nat → Bool} {t : Nat} :
    delayed d x t = true ↔ d ≤ t ∧ x (t - d) = true := by
  simp [delayed]

/-- Two delays in a row. -/
theorem delayed_delayed (d e : Nat) (x : Nat → Bool) :
    delayed d (delayed e x) = delayed (d + e) x := by
  funext t
  rw [Bool.eq_iff_iff, delayed_eq_true_iff, delayed_eq_true_iff,
    delayed_eq_true_iff, Nat.sub_sub]
  constructor
  · rintro ⟨hd, he, hx⟩
    exact ⟨by omega, hx⟩
  · rintro ⟨hde, hx⟩
    exact ⟨by omega, by omega, hx⟩

/-- A register that powers up low and takes the signal in every clock. -/
theorem delayed_one_of_succ {reg x : Nat → Bool} (hinit : reg 0 = false)
    (hreg : ∀ t, reg (t + 1) = x t) :
    reg = delayed 1 x := by
  funext t
  cases t with
  | zero =>
      simpa [delayed] using hinit
  | succ t =>
      rw [hreg, delayed_add]

/-- The places of a shift register that powers up low. -/
theorem Filters.getLsbD_eq {w : Nat} {reg : Nat → BitVec (w + 1)}
    {x : Nat → Bool} (h : Filters reg x) (hinit : reg 0 = 0) (t : Nat)
    {b : Nat} (hb : b ≤ w) :
    (reg t).getLsbD b = delayed (b + 1) x t := by
  by_cases hbt : b + 1 ≤ t
  · obtain ⟨u, rfl⟩ : ∃ u, t = u + (b + 1) := ⟨t - (b + 1), by omega⟩
    have hread := (h.shiftsIn (u + (b + 1))).read (t := u) (j := b) (b := 0)
      (by omega) (by omega) (by omega)
    rw [show u + 1 + b = u + (b + 1) by omega, Nat.zero_add, Nat.one_mul]
      at hread
    rw [hread, delayed_add]
  · have hread := (h.shiftsIn t).read_initial (t := t) (b := b - t)
      (by omega) (by omega)
    rw [show b - t + 1 * t = b by omega, hinit] at hread
    rw [hread]
    simp [delayed, hbt]

end DelayLines

section Frames

variable {n : Nat} {start line : Nat → Bool} {code : Nat → BitVec n}

/-- A line on which the frame of `code s` begins at every `s` with `start`. -/
structure Frames (n : Nat) (start : Nat → Bool) (code : Nat → BitVec n)
    (line : Nat → Bool) : Prop where
  startBit : ∀ s, start s = true → line s = false
  codeBit : ∀ s, start s = true → ∀ i, i < n →
    line (s + 1 + i) = (code s).getMsbD i
  idle : ∀ t, (∀ s, start s = true → s ≤ t → s + n < t) → line t = true

/-- What the receiver takes for a frame that begins at `s`. -/
def Framed (n : Nat) (line : Nat → Bool) (s : Nat) : Prop :=
  n ≤ s ∧ line s = false ∧ ∀ i, i < n →
    line (s - n + i) = true ∧ line (s + n + 1 + i) = true

/-- The frames, and nothing else, are taken for frames. -/
theorem Frames.found_iff (h : Frames n start code line)
    (hspaced : Spaced (2 * n + 1) start) (hfirst : ∀ s, start s = true → n ≤ s)
    (s : Nat) :
    Framed n line s ↔ start s = true := by
  constructor
  · rintro ⟨-, hlow, hones⟩
    -- a zero that is no start bit lies in a frame, whose start bit is among
    -- the `n` levels before
    by_contra hstart
    have hidle := h.idle s fun u hu hus => by
      by_contra hin
      have hne : u ≠ s := by
        rintro rfl
        exact hstart hu
      have hone := (hones (u - (s - n)) (by omega)).1
      rw [show s - n + (u - (s - n)) = u by omega, h.startBit u hu] at hone
      exact Bool.noConfusion hone
    rw [hlow] at hidle
    exact Bool.noConfusion hidle
  · intro hs
    have hns := hfirst s hs
    refine ⟨hns, h.startBit s hs, fun i hi => ⟨?_, ?_⟩⟩
    · refine h.idle _ fun u hu hle => ?_
      have hdist := hspaced u s (by omega) hu hs
      omega
    · refine h.idle _ fun u hu hle => ?_
      rcases Nat.lt_trichotomy u s with hus | rfl | hsu
      · have hdist := hspaced u s hus hu hs
        omega
      · omega
      · have hdist := hspaced s u hsu hs hu
        omega

/-- A late receiver sees the same frames. -/
theorem framed_delayed_iff (hn : 1 ≤ n) (d t : Nat) :
    Framed n (delayed d line) t ↔ d ≤ t ∧ Framed n line (t - d) := by
  constructor
  · rintro ⟨hnt, hlow, hones⟩
    have hfirst := (hones 0 (by omega)).1
    rw [Nat.add_zero, delayed_eq_true_iff] at hfirst
    refine ⟨by omega, by omega, ?_, fun i hi => ?_⟩
    · rw [← hlow]
      simp [delayed, show d ≤ t by omega]
    · obtain ⟨hbefore, hafter⟩ := hones i hi
      rw [delayed_eq_true_iff] at hbefore hafter
      rw [show t - d - n + i = t - n + i - d by omega,
        show t - d + n + 1 + i = t + n + 1 + i - d by omega]
      exact ⟨hbefore.2, hafter.2⟩
  · rintro ⟨hdt, hnt, hlow, hones⟩
    refine ⟨by omega, ?_, fun i hi => ?_⟩
    · simp [delayed, hlow]
    · obtain ⟨hbefore, hafter⟩ := hones i hi
      rw [delayed_eq_true_iff, delayed_eq_true_iff,
        show t - n + i - d = t - d - n + i by omega,
        show t + n + 1 + i - d = t - d + n + 1 + i by omega]
      exact ⟨⟨by omega, hbefore⟩, by omega, hafter⟩

end Frames

end Clocked
end MollerFirmware
