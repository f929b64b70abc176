import MollerFirmware.Clocked.SerialFrames

/-!
# One-shots

A register that is set by a signal and cleared by its own output, which comes
back some clocks later. If what clears it is the rising edge of the delayed
output, it can be set again as soon as it is low. If it is the level, it stays
low for as long as it was high. In both cases every pulse has the same length,
however often it is fired.
-/

namespace MollerFirmware
namespace Clocked

section Feedback

universe u v

variable {σ : Type u} {ι : Type v}
variable (step : σ → Bool → ι → σ) (out : σ → Bool)
  (line : (Nat → Bool) → Nat → Bool) (s₀ : σ) (inp : Nat → ι)

/-- What comes out of a line does not depend on clocks to come. -/
def Causal (line : (Nat → Bool) → Nat → Bool) : Prop :=
  ∀ x y t, (∀ u, u ≤ t → x u = y u) → line x t = line y t

/-- A machine that takes one of its outputs again through a line, with what this
output was up to now. -/
def fedBack : Nat → σ × (Nat → Bool)
  | 0 => (s₀, fun _ => out s₀)
  | t + 1 =>
      let before := fedBack t
      let s := step before.1 (line before.2 t) (inp t)
      (s, fun u => if u ≤ t then before.2 u else out s)

theorem fedBack_wave {t u : Nat} (hut : u ≤ t) :
    (fedBack step out line s₀ inp t).2 u =
      out (fedBack step out line s₀ inp u).1 := by
  induction t with
  | zero =>
      obtain rfl : u = 0 := by omega
      rfl
  | succ t ih =>
      by_cases hlast : u ≤ t
      · rw [fedBack]
        simp only [hlast, if_true]
        exact ih hlast
      · obtain rfl : u = t + 1 := by omega
        rw [fedBack]
        simp only [hlast, if_false]

theorem fedBack_succ {line : (Nat → Bool) → Nat → Bool} (hline : Causal line)
    (t : Nat) :
    (fedBack step out line s₀ inp (t + 1)).1 =
      step (fedBack step out line s₀ inp t).1
        (line (fun u => out (fedBack step out line s₀ inp u).1) t)
        (inp t) := by
  have hwave := hline (fedBack step out line s₀ inp t).2
    (fun u => out (fedBack step out line s₀ inp u).1) t
    fun u hu => fedBack_wave step out line s₀ inp hu
  rw [fedBack, hwave]

theorem causal_delayed (d : Nat) : Causal (delayed d) := by
  intro x y t hxy
  rw [delayed, delayed, hxy (t - d) (Nat.sub_le t d)]

end Feedback

section OneShots

variable {d : Nat} {fire clear out : Nat → Bool}

/-- Clocks after which the signal has risen. -/
def rises (x : Nat → Bool) (t : Nat) : Bool :=
  !x t && x (t + 1)

/-- A register that is set by `fire` and cleared by `clear`. -/
structure OneShot (fire clear out : Nat → Bool) : Prop where
  low : out 0 = false
  next : ∀ t, out (t + 1) = (!clear t && (out t || fire t))

/-- Clocks in which a pulse is started. -/
def opens (fire clear out : Nat → Bool) (t : Nat) : Bool :=
  fire t && !clear t && !out t

theorem opens_eq_true_iff {t : Nat} :
    opens fire clear out t = true ↔
      fire t = true ∧ clear t = false ∧ out t = false := by
  simp [opens, and_assoc]

namespace OneShot

theorem opens_of_rise (h : OneShot fire clear out) {t : Nat}
    (hlow : out t = false) (hhigh : out (t + 1) = true) :
    opens fire clear out t = true := by
  rw [h.next, hlow, Bool.false_or, Bool.and_eq_true, Bool.not_eq_true']
    at hhigh
  exact opens_eq_true_iff.mpr ⟨hhigh.2, hhigh.1, hlow⟩

theorem opens_eq_rises (h : OneShot fire clear out) :
    opens fire clear out = rises out := by
  funext t
  rw [opens, rises, h.next]
  cases out t <;> cases clear t <;> cases fire t <;> rfl

/-- High since the pulse was started. -/
theorem opened (h : OneShot fire clear out) {t : Nat} (ht : out t = true) :
    ∃ s, opens fire clear out s = true ∧ s < t ∧
      ∀ u, s < u → u ≤ t → out u = true := by
  induction t with
  | zero =>
      rw [h.low] at ht
      exact Bool.noConfusion ht
  | succ t ih =>
      cases hbefore : out t with
      | false =>
          refine ⟨t, h.opens_of_rise hbefore ht, Nat.lt_succ_self t, ?_⟩
          intro u htu hut
          obtain rfl : u = t + 1 := by omega
          exact ht
      | true =>
          obtain ⟨s, hs, hst, hhigh⟩ := ih hbefore
          refine ⟨s, hs, by omega, fun u hsu hut => ?_⟩
          rcases Nat.lt_or_ge t u with hlast | hearlier
          · obtain rfl : u = t + 1 := by omega
            exact ht
          · exact hhigh u hsu hearlier

theorem high (h : OneShot fire clear out) {s : Nat}
    (hs : opens fire clear out s = true)
    (hquiet : ∀ i, i < d → clear (s + 1 + i) = false) {i : Nat} (hi : i ≤ d) :
    out (s + 1 + i) = true := by
  obtain ⟨hfire, hclear, -⟩ := opens_eq_true_iff.mp hs
  induction i with
  | zero =>
      rw [Nat.add_zero, h.next, hclear, hfire]
      simp
  | succ i ih =>
      rw [← Nat.add_assoc, h.next, hquiet i (by omega), ih (by omega)]
      rfl

/-- No pulse is longer, whatever else clears it. -/
theorem length_le (h : OneShot fire clear out)
    (hedge : ∀ t, delayed d out t = true → delayed (d + 1) out t = false →
      clear t = true)
    {a n : Nat} (hhigh : ∀ i, i < n → out (a + i) = true) :
    n ≤ d + 1 := by
  by_contra hlong
  have hfirst := hhigh 0 (by omega)
  obtain ⟨s, hs, hsa, hsince⟩ := h.opened hfirst
  have hlow := (opens_eq_true_iff.mp hs).2.2
  have hall : ∀ u, s < u → u < a + n → out u = true := by
    intro u hsu hu
    rcases Nat.lt_or_ge u a with hua | hau
    · exact hsince u hsu (by omega)
    · obtain ⟨i, rfl⟩ := Nat.exists_eq_add_of_le hau
      exact hhigh i (by omega)
  have hcleared : clear (s + 1 + d) = true := by
    refine hedge _ ?_ ?_
    · rw [delayed_add]
      exact hall (s + 1) (by omega) (by omega)
    · rw [show s + 1 + d = s + (d + 1) by omega, delayed_add, hlow]
  have hover : out (s + 1 + d + 1) = false := by
    rw [h.next, hcleared]
    rfl
  rw [hall (s + 1 + d + 1) (by omega) (by omega)] at hover
  exact Bool.noConfusion hover

end OneShot

/-- A one-shot that is cleared `d + 1` clocks after it was set, and never
before. -/
structure Timed (d : Nat) (fire clear out : Nat → Bool) : Prop
    extends OneShot fire clear out where
  quiet : ∀ s, opens fire clear out s = true →
    ∀ i, i < d → clear (s + 1 + i) = false
  ends : ∀ s, opens fire clear out s = true → clear (s + 1 + d) = true

namespace Timed

theorem high (h : Timed d fire clear out) {s : Nat}
    (hs : opens fire clear out s = true) {t : Nat} (hst : s < t)
    (hts : t ≤ s + (d + 1)) :
    out t = true := by
  obtain ⟨i, rfl⟩ := Nat.exists_eq_add_of_le hst
  exact h.toOneShot.high hs (h.quiet s hs) (by omega)

/-- Every pulse is `d + 1` clocks long. -/
theorem out_iff (h : Timed d fire clear out) (t : Nat) :
    out t = true ↔
      ∃ s, opens fire clear out s = true ∧ s < t ∧ t ≤ s + (d + 1) := by
  constructor
  · intro ht
    obtain ⟨s, hs, hst, hhigh⟩ := h.opened ht
    refine ⟨s, hs, hst, ?_⟩
    by_contra hlate
    have hlow : out (s + 1 + d + 1) = false := by
      rw [h.next, h.ends s hs]
      rfl
    rw [hhigh (s + 1 + d + 1) (by omega) (by omega)] at hlow
    exact Bool.noConfusion hlow
  · rintro ⟨s, hs, hst, hts⟩
    exact h.high hs hst hts

end Timed

section Edge

variable (h : OneShot fire clear out)
  (hclear : ∀ t, clear t = (delayed d out t && !delayed (d + 1) out t))
include h hclear

/-- A clear belongs to the pulse that was started `d + 1` clocks before. -/
theorem OneShot.opened_of_clear {t : Nat} (ht : clear t = true) :
    ∃ s, t = s + 1 + d ∧ opens fire clear out s = true := by
  rw [hclear, Bool.and_eq_true, Bool.not_eq_true', delayed_eq_true_iff] at ht
  obtain ⟨⟨hdt, hnow⟩, hbefore⟩ := ht
  obtain ⟨n, rfl⟩ := Nat.exists_eq_add_of_le hdt
  rw [Nat.add_sub_cancel_left] at hnow
  cases n with
  | zero =>
      rw [h.low] at hnow
      exact Bool.noConfusion hnow
  | succ s =>
      rw [show d + (s + 1) = s + (d + 1) by omega, delayed_add] at hbefore
      exact ⟨s, by omega, h.opens_of_rise hbefore hnow⟩

/-- What clears it is the rising edge of the delayed output. -/
theorem OneShot.timed_of_edge : Timed d fire clear out := by
  have hquiet : ∀ s, opens fire clear out s = true →
      ∀ i, i < d → clear (s + 1 + i) = false := by
    -- a clear that comes too early is that of an earlier pulse, which then
    -- still was high when this one began
    intro s
    induction s using Nat.strong_induction_on with
    | _ s ih =>
        intro hs i hi
        by_contra hset
        obtain ⟨v, hv, hopen⟩ :=
          h.opened_of_clear hclear (Bool.eq_true_of_not_eq_false hset)
        have hstill := h.high hopen (ih v (by omega) hopen)
          (i := s - (v + 1)) (by omega)
        rw [show v + 1 + (s - (v + 1)) = s by omega,
          (opens_eq_true_iff.mp hs).2.2] at hstill
        exact Bool.noConfusion hstill
  refine { toOneShot := h, quiet := hquiet, ends := fun s hs => ?_ }
  have hfirst := h.high hs (hquiet s hs) (Nat.zero_le d)
  rw [Nat.add_zero] at hfirst
  rw [hclear, delayed_add, hfirst, show s + 1 + d = s + (d + 1) by omega,
    delayed_add, (opens_eq_true_iff.mp hs).2.2]
  rfl

/-- It can be set again as soon as it is low. -/
theorem OneShot.opens_of_edge (t : Nat) :
    opens fire clear out t = true ↔ fire t = true ∧ out t = false := by
  rw [opens_eq_true_iff]
  refine ⟨fun ht => ⟨ht.1, ht.2.2⟩, fun ht => ⟨ht.1, ?_, ht.2⟩⟩
  by_contra hset
  obtain ⟨s, rfl, hs⟩ :=
    h.opened_of_clear hclear (Bool.eq_true_of_not_eq_false hset)
  have hstill := (h.timed_of_edge hclear).high hs
    (by omega : s < s + 1 + d) (by omega)
  rw [ht.2] at hstill
  exact Bool.noConfusion hstill

end Edge

section Level

variable (h : OneShot fire clear out)
  (hclear : ∀ t, clear t = delayed d out t)
include h hclear

/-- What clears it is the delayed output. -/
theorem OneShot.timed_of_level : Timed d fire clear out := by
  have hquiet : ∀ s, opens fire clear out s = true →
      ∀ i, i < d → clear (s + 1 + i) = false := by
    intro s
    induction s using Nat.strong_induction_on with
    | _ s ih =>
        intro hs i hi
        obtain ⟨-, hdead, hlow⟩ := opens_eq_true_iff.mp hs
        by_contra hset
        rw [hclear] at hset hdead
        obtain ⟨hdt, hback⟩ :=
          delayed_eq_true_iff.mp (Bool.eq_true_of_not_eq_false hset)
        obtain ⟨v, hv, hvt, hhigh⟩ := h.opened hback
        have hvs : v < s := by
          omega
        -- the earlier pulse was over, but the line still has it
        have hover : v + 1 + d < s := by
          by_contra hnot
          have hstill := h.high hv (ih v hvs hv) (i := s - (v + 1)) (by omega)
          rw [show v + 1 + (s - (v + 1)) = s by omega, hlow] at hstill
          exact Bool.noConfusion hstill
        have hline : delayed d out s = true :=
          delayed_eq_true_iff.mpr
            ⟨by omega, hhigh (s - d) (by omega) (by omega)⟩
        rw [hdead] at hline
        exact Bool.noConfusion hline
  refine { toOneShot := h, quiet := hquiet, ends := fun s hs => ?_ }
  have hfirst := h.high hs (hquiet s hs) (Nat.zero_le d)
  rw [Nat.add_zero] at hfirst
  rw [hclear, delayed_add, hfirst]

/-- It stays low for as long as it was high. -/
theorem OneShot.opens_of_level (t : Nat) :
    opens fire clear out t = true ↔ fire t = true ∧
      ∀ s, opens fire clear out s = true → s < t → s + 2 * (d + 1) ≤ t := by
  have htimed := h.timed_of_level hclear
  rw [opens_eq_true_iff]
  constructor
  · rintro ⟨hfire, hdead, hlow⟩
    refine ⟨hfire, fun s hs hst => ?_⟩
    have hpast : s + (d + 1) < t := by
      by_contra hhere
      rw [htimed.high hs hst (by omega)] at hlow
      exact Bool.noConfusion hlow
    by_contra hsoon
    rw [hclear] at hdead
    have hline : delayed d out t = true :=
      delayed_eq_true_iff.mpr
        ⟨by omega, htimed.high hs (by omega) (by omega)⟩
    rw [hdead] at hline
    exact Bool.noConfusion hline
  · rintro ⟨hfire, hapart⟩
    refine ⟨hfire, ?_, ?_⟩
    · by_contra hset
      rw [hclear] at hset
      obtain ⟨hdt, hback⟩ :=
        delayed_eq_true_iff.mp (Bool.eq_true_of_not_eq_false hset)
      obtain ⟨s, hs, hsn, hns⟩ := (htimed.out_iff _).mp hback
      have := hapart s hs (by omega)
      omega
    · by_contra hset
      obtain ⟨s, hs, hst, hts⟩ :=
        (htimed.out_iff t).mp (Bool.eq_true_of_not_eq_false hset)
      have := hapart s hs hst
      omega

end Level

end OneShots

end Clocked
end MollerFirmware
