import MollerFirmware.Clocked.Signals

/-!
# Words that cross to a slower clock

A buffer between two clock domains: the words written in the domain of a fast
clock come out in that of a slow one, which has one clock for every `k` of the
fast one. Each of them comes out once, after a latency that varies by `jitter`
from word to word. All times are those of the fast clock but the arrivals.

Words that are written far enough apart cannot overtake each other, and come out
apart.

A single event needs no buffer: a flag waits until the slower clock has seen it.
-/

namespace MollerFirmware
namespace Clocked

universe u

/-- Words `din` written with `wr` that come out as `dout` with `valid`. -/
structure Crossing {α : Type u} (k latency jitter : Nat) (wr : Nat → Bool)
    (din : Nat → α) (valid : Nat → Bool) (dout : Nat → α) where
  arrival : Nat → Nat
  early : ∀ v, wr v = true → v + latency ≤ k * arrival v
  late : ∀ v, wr v = true → k * arrival v ≤ v + latency + jitter
  valid_iff : ∀ u, valid u = true ↔ ∃ v, wr v = true ∧ arrival v = u
  dout_eq : ∀ v, wr v = true → dout (arrival v) = din v

namespace Crossing

variable {α : Type u} {k latency jitter d m : Nat} {wr : Nat → Bool}
  {din : Nat → α} {valid : Nat → Bool} {dout : Nat → α}

/-- Words that are written `d` clocks apart come out in order, and `m` clocks
apart. -/
theorem apart (x : Crossing k latency jitter wr din valid dout)
    (hspaced : Spaced d wr) (hjitter : k * m + jitter < d + k)
    {v w : Nat} (hvw : v < w) (hv : wr v = true) (hw : wr w = true) :
    x.arrival v + m ≤ x.arrival w := by
  by_contra hclose
  have hdist := hspaced v w hvw hv hw
  have hlate := x.late v hv
  have hearly := x.early w hw
  have hmul : k * (x.arrival w + 1) ≤ k * (x.arrival v + m) :=
    Nat.mul_le_mul_left k (by omega)
  rw [Nat.mul_add, Nat.mul_add, Nat.mul_one] at hmul
  omega

theorem spaced (x : Crossing k latency jitter wr din valid dout)
    (hspaced : Spaced d wr) (hjitter : k * m + jitter < d + k) :
    Spaced m valid := by
  intro t u htu ht hu
  obtain ⟨v, hv, rfl⟩ := (x.valid_iff t).mp ht
  obtain ⟨w, hw, rfl⟩ := (x.valid_iff u).mp hu
  rcases Nat.lt_trichotomy v w with hvw | rfl | hwv
  · exact x.apart hspaced hjitter hvw hv hw
  · omega
  · have hback := x.apart hspaced hjitter hwv hw hv
    omega

/-- What came out first was written first. -/
theorem written_before (x : Crossing k latency jitter wr din valid dout)
    (hspaced : Spaced d wr) (hjitter : jitter < d) {v w : Nat}
    (hv : wr v = true) (hw : wr w = true)
    (harrival : x.arrival v < x.arrival w) :
    v < w := by
  rcases Nat.lt_trichotomy v w with hvw | rfl | hwv
  · exact hvw
  · omega
  · have hdist := hspaced w v hwv hw hv
    have hlate := x.late w hw
    have hearly := x.early v hv
    have hmul : k * x.arrival v ≤ k * x.arrival w :=
      Nat.mul_le_mul_left k (by omega)
    omega

end Crossing

section Flags

variable {m φ : Nat} {slow ev flag out : Nat → Bool}

/-- A clock that has one edge in every `m`, the first one at `φ`. -/
structure Divided (m φ : Nat) (slow : Nat → Bool) : Prop where
  early : ∀ t, t < φ → slow t = false
  edge : ∀ k, slow (φ + m * k) = true
  between : ∀ k j, 0 < j → j < m → slow (φ + m * k + j) = false

/-- A flag that an event sets, and the register of the slower clock that takes
it and clears it. -/
structure FlagCrossing (slow ev flag out : Nat → Bool) : Prop where
  flag_zero : flag 0 = false
  flag_succ : ∀ t, flag (t + 1) = (!out t && (ev t || flag t))
  out_zero : out 0 = false
  out_succ : ∀ t, out (t + 1) = if slow t then flag t else out t

/-- An event of period `k`. -/
def EventIn (m φ : Nat) (ev : Nat → Bool) (k : Nat) : Prop :=
  ∃ j, j < m ∧ ev (φ + m * k + j) = true

/-- A register of the slower clock stays for a period. -/
theorem Divided.held (hslow : Divided m φ slow) (reg : Nat → Bool)
    {next : Nat → Bool}
    (hreg : ∀ t, reg (t + 1) = if slow t then next t else reg t) (k : Nat)
    {j : Nat} (hj : j < m) :
    reg (φ + m * k + j + 1) = next (φ + m * k) := by
  induction j with
  | zero =>
      rw [Nat.add_zero, hreg, hslow.edge, if_pos rfl]
  | succ j ih =>
      rw [hreg, hslow.between k (j + 1) (by omega) hj,
        if_neg Bool.false_ne_true]
      exact ih (by omega)

/-- Before the first edge it is as at power-up. -/
theorem Divided.held_before (hslow : Divided m φ slow) (reg : Nat → Bool)
    {next : Nat → Bool}
    (hreg : ∀ t, reg (t + 1) = if slow t then next t else reg t) {t : Nat}
    (ht : t ≤ φ) :
    reg t = reg 0 := by
  induction t with
  | zero =>
      rfl
  | succ t ih =>
      rw [hreg, hslow.early t ht, if_neg Bool.false_ne_true]
      exact ih (by omega)

namespace FlagCrossing

/-- The output stays for a period. -/
theorem out_period (x : FlagCrossing slow ev flag out)
    (hslow : Divided m φ slow) (k : Nat) {j : Nat} (hj : j < m) :
    out (φ + m * k + j + 1) = flag (φ + m * k) :=
  hslow.held out x.out_succ k hj

theorem out_next (x : FlagCrossing slow ev flag out)
    (hslow : Divided m φ slow) (hm : 2 ≤ m) (k : Nat) :
    out (φ + m * (k + 1)) = flag (φ + m * k) := by
  rw [← x.out_period hslow k (j := m - 1) (by omega), Nat.mul_succ]
  congr 1
  omega

/-- A flag that has been seen is cleared. -/
theorem flag_next_of_set (x : FlagCrossing slow ev flag out)
    (hslow : Divided m φ slow) (hm : 2 ≤ m) {k : Nat}
    (hset : flag (φ + m * k) = true) :
    flag (φ + m * (k + 1)) = false := by
  have hout := x.out_period hslow k (j := m - 2) (by omega)
  rw [Nat.mul_succ, show φ + (m * k + m) = φ + m * k + (m - 2) + 1 + 1 by omega,
    x.flag_succ, hout, hset]
  rfl

/-- A flag that waits is set by the events of the period. -/
theorem flag_next_of_clear (x : FlagCrossing slow ev flag out)
    (hslow : Divided m φ slow) (hm : 2 ≤ m) {k : Nat}
    (hclear : flag (φ + m * k) = false)
    (hready : out (φ + m * k) = true → ev (φ + m * k) = false) :
    flag (φ + m * (k + 1)) = true ↔ EventIn m φ ev k := by
  have hfirst : flag (φ + m * k + 1) = ev (φ + m * k) := by
    rw [x.flag_succ, hclear, Bool.or_false]
    cases hout : out (φ + m * k) with
    | false =>
        rfl
    | true =>
        rw [hready hout]
        rfl
  have hrun : ∀ j, j < m → (flag (φ + m * k + j + 1) = true ↔
      ∃ i, i ≤ j ∧ ev (φ + m * k + i) = true) := by
    intro j
    induction j with
    | zero =>
        intro _
        rw [Nat.add_zero, hfirst]
        constructor
        · intro hev
          exact ⟨0, le_refl 0, hev⟩
        · rintro ⟨i, hi, hev⟩
          obtain rfl : i = 0 := by omega
          exact hev
    | succ j ih =>
        intro hj
        rw [x.flag_succ, ← Nat.add_assoc, x.out_period hslow k (by omega),
          hclear, Bool.not_false, Bool.true_and, Bool.or_eq_true,
          ih (by omega)]
        constructor
        · rintro (hev | ⟨i, hi, hev⟩)
          · exact ⟨j + 1, le_refl _, hev⟩
          · exact ⟨i, by omega, hev⟩
        · rintro ⟨i, hi, hev⟩
          rcases Nat.lt_or_ge j i with hlt | hle
          · obtain rfl : i = j + 1 := by omega
            exact Or.inl hev
          · exact Or.inr ⟨i, hle, hev⟩
  have hlast := hrun (m - 1) (by omega)
  rw [Nat.mul_succ, show φ + (m * k + m) = φ + m * k + (m - 1) + 1 by omega,
    hlast]
  constructor
  · rintro ⟨i, hi, hev⟩
    exact ⟨i, by omega, hev⟩
  · rintro ⟨i, hi, hev⟩
    exact ⟨i, by omega, hev⟩

theorem flag_first (x : FlagCrossing slow ev flag out)
    (hslow : Divided m φ slow) (hlate : ∀ t, ev t = true → φ ≤ t) {t : Nat}
    (ht : t ≤ φ) :
    flag t = false ∧ out t = false := by
  induction t with
  | zero =>
      exact ⟨x.flag_zero, x.out_zero⟩
  | succ t ih =>
      obtain ⟨hflag, hout⟩ := ih (by omega)
      have hev : ev t = false := by
        by_contra hev
        have hle := hlate t (by simpa using hev)
        omega
      rw [x.flag_succ, x.out_succ, hslow.early t (by omega), hflag, hout, hev]
      exact ⟨rfl, rfl⟩

/-- At each of its edges the slower clock finds in the flag the events of the
period before. -/
theorem flag_iff (x : FlagCrossing slow ev flag out) (hslow : Divided m φ slow)
    (hm : 2 ≤ m) (hspaced : Spaced (2 * m + 1) ev)
    (hlate : ∀ t, ev t = true → φ ≤ t) (k : Nat) :
    flag (φ + m * k) = true ↔ ∃ l, k = l + 1 ∧ EventIn m φ ev l := by
  -- the flag of one period decides whether the next one can set it
  induction k using Nat.strong_induction_on with
  | _ k ih =>
      cases k with
      | zero =>
          rw [Nat.mul_zero, Nat.add_zero,
            (x.flag_first hslow hlate (le_refl φ)).1]
          constructor
          · intro h
            exact Bool.noConfusion h
          · rintro ⟨l, hl, -⟩
            omega
      | succ k =>
          have hiff : (∃ l, k + 1 = l + 1 ∧ EventIn m φ ev l) ↔
              EventIn m φ ev k := by
            constructor
            · rintro ⟨l, hl, hev⟩
              obtain rfl : k = l := by omega
              exact hev
            · intro hev
              exact ⟨k, rfl, hev⟩
          rw [hiff]
          cases hset : flag (φ + m * k) with
          | true =>
              obtain ⟨l, rfl, i, hi, hevi⟩ := (ih k (by omega)).mp hset
              rw [x.flag_next_of_set hslow hm hset]
              constructor
              · intro h
                exact Bool.noConfusion h
              · rintro ⟨j, hj, hevj⟩
                rw [Nat.mul_succ] at hevj
                have hdist := hspaced _ _ (by omega) hevi hevj
                omega
          | false =>
              refine x.flag_next_of_clear hslow hm hset fun hout => ?_
              cases k with
              | zero =>
                  rw [Nat.mul_zero, Nat.add_zero,
                    (x.flag_first hslow hlate (le_refl φ)).2] at hout
                  exact Bool.noConfusion hout
              | succ k =>
                  rw [x.out_next hslow hm, ih k (by omega)] at hout
                  obtain ⟨l, rfl, i, hi, hevi⟩ := hout
                  by_contra hev
                  rw [Bool.not_eq_false, Nat.mul_succ, Nat.mul_succ] at hev
                  have hdist := hspaced _ _ (by omega) hevi hev
                  omega

/-- An event is seen by the slower clock as a pulse of one of its periods, two
periods after its own. -/
theorem out_iff (x : FlagCrossing slow ev flag out) (hslow : Divided m φ slow)
    (hm : 2 ≤ m) (hspaced : Spaced (2 * m + 1) ev)
    (hlate : ∀ t, ev t = true → φ ≤ t) (k : Nat) :
    out (φ + m * (k + 2)) = true ↔ EventIn m φ ev k := by
  rw [show k + 2 = k + 1 + 1 by omega, x.out_next hslow hm,
    x.flag_iff hslow hm hspaced hlate]
  constructor
  · rintro ⟨l, hl, hev⟩
    obtain rfl : k = l := by omega
    exact hev
  · intro hev
    exact ⟨k, rfl, hev⟩

end FlagCrossing

end Flags

end Clocked
end MollerFirmware
