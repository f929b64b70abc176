import MollerFirmware.Clocked.Signals
import Mathlib.Data.BitVec

/-!
# Periods of a signal and accumulators that are read out by pulses

A `Period` is a maximal run of clocks in which a signal is high. An accumulator
is a register that is read, and cleared, in the clocks of a second signal:
`collected` is what these clocks have read off it. The conservation laws say
that what was read and what is still in the register together are what was
added to it, in any commutative monoid and, for a counter that is wide enough,
in the natural numbers.
-/

namespace MollerFirmware
namespace Clocked

universe u

section Periods

/-- `[a, b]` is a maximal run of clocks in which `p` is high. -/
structure Period (p : Nat → Bool) (a b : Nat) : Prop where
  le : a ≤ b
  high : ∀ t, a ≤ t → t ≤ b → p t = true
  before : ∀ t, t + 1 = a → p t = false
  after : p (b + 1) = false

/-- Induction over the clocks of a period. -/
theorem Period.induction
    {p : Nat → Bool} {a b : Nat} (h : Period p a b)
    {motive : Nat → Prop}
    (first : motive a)
    (next : ∀ t, a ≤ t → t < b → p t = true → p (t + 1) = true →
      motive t → motive (t + 1))
    {t : Nat} (hat : a ≤ t) (htb : t ≤ b) :
    motive t := by
  induction t, hat using Nat.le_induction with
  | base =>
      exact first
  | succ t hat ih =>
      exact next t hat (by omega) (h.high t hat (by omega))
        (h.high (t + 1) (by omega) htb) (ih (by omega))

/-- Two signals that exclude one another split the pulses of a third. -/
theorem pulsesIn_split
    {p q r : Nat → Bool}
    (hsplit : ∀ t, (if p t then 1 else 0) =
      (if q t then 1 else 0) + (if r t then 1 else 0))
    (a b : Nat) :
    pulsesIn p a b = pulsesIn q a b + pulsesIn r a b := by
  unfold pulsesIn
  rw [← Finset.sum_add_distrib]
  exact Finset.sum_congr rfl (fun t _ => hsplit t)

/-- No pulses are counted exactly when the signal is low throughout. -/
theorem pulsesIn_eq_zero_iff
    (p : Nat → Bool) (a b : Nat) :
    pulsesIn p a b = 0 ↔ ∀ t, a ≤ t → t < b → p t = false := by
  unfold pulsesIn
  rw [Finset.sum_eq_zero_iff]
  constructor
  · intro h t hat htb
    have := h t (Finset.mem_Ico.mpr ⟨hat, htb⟩)
    simpa using this
  · intro h t ht
    obtain ⟨hat, htb⟩ := Finset.mem_Ico.mp ht
    simp [h t hat htb]

/-- A signal that is high in one clock only. -/
theorem pulsesIn_le_one
    {p : Nat → Bool} (honce : ∀ t u, p t = true → p u = true → t = u)
    (a b : Nat) :
    pulsesIn p a b ≤ 1 := by
  unfold pulsesIn
  rw [← Finset.card_filter]
  refine Finset.card_le_one.mpr fun t ht u hu => ?_
  exact honce t u (Finset.mem_filter.mp ht).2 (Finset.mem_filter.mp hu).2

theorem pulsesIn_mono
    (p : Nat → Bool) {a b c : Nat} (hab : a ≤ b) (hbc : b ≤ c) :
    pulsesIn p a b ≤ pulsesIn p a c := by
  rw [pulsesIn_add p hab hbc]
  exact Nat.le_add_right _ _

/-- Where there are `n` pulses there is an `n`-th one. -/
theorem exists_pulse
    (p : Nat → Bool) {a b n : Nat} (hn : 0 < n) (hle : n ≤ pulsesIn p a b) :
    ∃ t, a ≤ t ∧ t < b ∧ p t = true ∧ pulsesIn p a t + 1 = n := by
  have hab : a ≤ b := by
    by_contra hlt
    have hnone := (pulsesIn_eq_zero_iff p a b).mpr
      (fun t hat htb => by omega)
    omega
  induction b, hab using Nat.le_induction with
  | base =>
      rw [pulsesIn_self] at hle
      omega
  | succ b hab ih =>
      by_cases hbefore : n ≤ pulsesIn p a b
      · obtain ⟨t, hat, htb, hp, hcount⟩ := ih hbefore
        exact ⟨t, hat, by omega, hp, hcount⟩
      · rw [pulsesIn_succ p hab] at hle
        cases hp : p b with
        | false =>
            simp [hp] at hle
            omega
        | true =>
            simp only [hp, if_true] at hle
            exact ⟨b, hab, by omega, hp, by omega⟩

end Periods

section Accumulators

variable {M : Type u} [AddCommMonoid M]

/-- What the pulses of `cap` in `[a, b)` have read off a register. -/
def collected (cap : Nat → Bool) (acc : Nat → M) (a b : Nat) : M :=
  ∑ t ∈ Finset.Ico a b, if cap t then acc t else 0

theorem collected_succ
    (cap : Nat → Bool) (acc : Nat → M) {a b : Nat} (hab : a ≤ b) :
    collected cap acc a (b + 1) =
      collected cap acc a b + if cap b then acc b else 0 := by
  unfold collected
  exact Finset.sum_Ico_succ_top hab _

/-- Reading a register one clock later reads the delayed register. -/
theorem collected_shift
    (cap : Nat → Bool) (acc : Nat → M) (a b : Nat) :
    collected cap acc (a + 1) (b + 1) =
      collected (fun t => cap (t + 1)) (fun t => acc (t + 1)) a b := by
  unfold collected
  exact (Finset.sum_Ico_add' (fun t => if cap t then acc t else 0) a b 1).symm

/-- **Conservation law of an accumulator.** What was read and what is left is
what was there and what was added. -/
theorem collected_add_rest
    (cap : Nat → Bool) (acc add : Nat → M) {a b : Nat} (hab : a ≤ b)
    (hclock : ∀ t, a ≤ t → t < b →
      acc (t + 1) = (if cap t then 0 else acc t) + add t) :
    collected cap acc a b + acc b =
      acc a + ∑ t ∈ Finset.Ico a b, add t := by
  induction b, hab using Nat.le_induction with
  | base =>
      simp [collected]
  | succ b hab ih =>
      have ih' := ih (fun t hat htb => hclock t hat (by omega))
      have hread : (if cap b then acc b else 0) +
          (if cap b then 0 else acc b) = acc b := by
        cases cap b <;> simp
      rw [collected_succ cap acc hab, hclock b hab (by omega),
        Finset.sum_Ico_succ_top hab, ← add_assoc, add_assoc (collected _ _ _ _),
        hread, ih', add_assoc]

/-- The same law for a counter register that starts empty: as long as the
total fits its width, nothing is lost to overflow. -/
theorem collected_toNat_add_rest
    {w : Nat} (cap : Nat → Bool) (acc : Nat → BitVec w) (add : Nat → Nat)
    {a b : Nat} (hab : a ≤ b)
    (hempty : acc a = 0)
    (hclock : ∀ t, a ≤ t → t < b →
      acc (t + 1) = (if cap t then 0 else acc t) + BitVec.ofNat w (add t))
    (hfit : ∑ t ∈ Finset.Ico a b, add t < 2 ^ w) :
    collected cap (fun t => (acc t).toNat) a b + (acc b).toNat =
      ∑ t ∈ Finset.Ico a b, add t := by
  induction b, hab using Nat.le_induction with
  | base =>
      simp [collected, hempty]
  | succ b hab ih =>
      rw [Finset.sum_Ico_succ_top hab] at hfit ⊢
      have ih' := ih (fun t hat htb => hclock t hat (by omega)) (by omega)
      rw [collected_succ cap _ hab, hclock b hab (by omega)]
      cases hc : cap b with
      | true =>
          rw [if_pos rfl, if_pos rfl, zero_add, BitVec.toNat_ofNat,
            Nat.mod_eq_of_lt (by omega)]
          omega
      | false =>
          simp only [Bool.false_eq_true, if_false]
          rw [BitVec.toNat_add, BitVec.toNat_ofNat, Nat.add_mod_mod,
            Nat.mod_eq_of_lt (by omega)]
          omega

end Accumulators

section Saturation

variable {α : Type u} {w : Nat}

/-- A counter that counts `p` and stops at its greatest value. -/
def countUp (p : Bool) (x : BitVec w) : BitVec w :=
  if p && decide (x < BitVec.allOnes w) then x + 1 else x

theorem toNat_countUp (p : Bool) (x : BitVec w) :
    (countUp p x).toNat = min (2 ^ w - 1) (x.toNat + p.toNat) := by
  have hx := x.isLt
  unfold countUp
  cases p with
  | false =>
      simp only [Bool.false_and, Bool.false_eq_true, if_false, Bool.toNat_false]
      omega
  | true =>
      by_cases hlt : x < BitVec.allOnes w
      · have hnat : x.toNat < 2 ^ w - 1 := by
          rwa [BitVec.lt_def, BitVec.toNat_allOnes] at hlt
        have hadd : (x + 1).toNat = x.toNat + 1 := by
          show (x + BitVec.ofNat w 1).toNat = _
          rw [BitVec.toNat_add, BitVec.toNat_ofNat, Nat.add_mod_mod,
            Nat.mod_eq_of_lt (by omega)]
        simp only [hlt, decide_true, Bool.and_true, if_true, hadd,
          Bool.toNat_true]
        omega
      · rw [BitVec.lt_def, BitVec.toNat_allOnes] at hlt
        simp only [BitVec.lt_def, BitVec.toNat_allOnes, hlt, decide_false,
          Bool.and_false, Bool.false_eq_true, if_false, Bool.toNat_true]
        omega

/-- What such a counter shows after some words: their number, unless there are
too many. -/
theorem toNat_foldl_countUp (p : α → Bool) (xs : List α) (x : BitVec w) :
    (xs.foldl (fun y a => countUp (p a) y) x).toNat =
      min (2 ^ w - 1) (x.toNat + xs.countP p) := by
  have hx := x.isLt
  induction xs generalizing x with
  | nil =>
      simp only [List.foldl_nil, List.countP_nil]
      omega
  | cons a xs ih =>
      have hy := (countUp (p a) x).isLt
      rw [List.foldl_cons, ih _ hy, toNat_countUp, List.countP_cons]
      cases p a <;> simp <;> omega

end Saturation

section Extrema

variable {α : Type u} [LinearOrder α] {top bot x : α} {xs ys : List α}

/-- A register that starts at `top` and keeps the least of what it sees. -/
def lowest (top : α) (xs : List α) : α :=
  xs.foldl min top

/-- A register that starts at `bot` and keeps the greatest of what it sees. -/
def highest (bot : α) (xs : List α) : α :=
  xs.foldl max bot

@[simp] theorem lowest_nil (top : α) : lowest top [] = top := by
  rfl

@[simp] theorem highest_nil (bot : α) : highest bot [] = bot := by
  rfl

theorem lowest_concat (top : α) (xs : List α) (x : α) :
    lowest top (xs ++ [x]) = min (lowest top xs) x := by
  simp [lowest]

theorem highest_concat (bot : α) (xs : List α) (x : α) :
    highest bot (xs ++ [x]) = max (highest bot xs) x := by
  simp [highest]

theorem lowest_le (hx : x ∈ xs) : lowest top xs ≤ x := by
  induction xs using List.reverseRecOn with
  | nil => simp at hx
  | append_singleton xs y ih =>
      rw [lowest_concat]
      rcases List.mem_append.mp hx with hx | hx
      · exact (min_le_left _ _).trans (ih hx)
      · rw [List.mem_singleton] at hx
        subst hx
        exact min_le_right _ _

theorem lowest_mem (hne : xs ≠ []) (htop : ∀ x ∈ xs, x < top) :
    lowest top xs ∈ xs := by
  induction xs using List.reverseRecOn with
  | nil => exact absurd rfl hne
  | append_singleton xs y ih =>
      rw [lowest_concat, List.mem_append, List.mem_singleton]
      have hy : y < top := htop y (by simp)
      rcases min_choice (lowest top xs) y with hmin | hmin
      · by_cases hxs : xs = []
        · subst hxs
          exact Or.inr (by rw [lowest_nil, min_eq_right hy.le])
        · rw [hmin]
          exact Or.inl (ih hxs (fun x hx => htop x (by simp [hx])))
      · exact Or.inr hmin

/-- A register that has seen some of the values holds the least of all of them
exactly when it has seen values as low as each. -/
theorem isLeast_lowest_iff
    (hne : xs ≠ []) (hsub : ys ⊆ xs) (htop : ∀ x ∈ xs, x < top) :
    IsLeast {x | x ∈ xs} (lowest top ys) ↔ ∀ x ∈ xs, ∃ y ∈ ys, y ≤ x := by
  have hmem : ys ≠ [] → lowest top ys ∈ ys :=
    fun hys => lowest_mem hys (fun y hy => htop y (hsub hy))
  constructor
  · rintro ⟨hin, hleast⟩ x hx
    have hys : ys ≠ [] := by
      rintro rfl
      exact absurd (htop _ hin) (by simp)
    exact ⟨_, hmem hys, hleast hx⟩
  · intro hall
    have hys : ys ≠ [] := by
      rintro rfl
      obtain ⟨x, hx⟩ := List.exists_mem_of_ne_nil xs hne
      simpa using hall x hx
    refine ⟨hsub (hmem hys), fun x hx => ?_⟩
    obtain ⟨y, hy, hyx⟩ := hall x hx
    exact (lowest_le hy).trans hyx

/-- The same for the greatest value. -/
theorem isGreatest_highest_iff
    (hne : xs ≠ []) (hsub : ys ⊆ xs) (hbot : ∀ x ∈ xs, bot < x) :
    IsGreatest {x | x ∈ xs} (highest bot ys) ↔ ∀ x ∈ xs, ∃ y ∈ ys, x ≤ y :=
  isLeast_lowest_iff (α := αᵒᵈ) hne hsub hbot

end Extrema

section SignedSums

variable {ι : Type u}

/-- A sum of bounded terms is bounded by their number. -/
theorem abs_sum_le_card_mul
    (s : Finset ι) (f : ι → Int) {b : Int}
    (hf : ∀ i ∈ s, |f i| ≤ b) :
    |∑ i ∈ s, f i| ≤ s.card * b := by
  calc
    |∑ i ∈ s, f i| ≤ ∑ i ∈ s, |f i| := Finset.abs_sum_le_sum_abs f s
    _ ≤ s.card • b := Finset.sum_le_card_nsmul s _ b hf
    _ = s.card * b := nsmul_eq_mul _ _

/-- A register that has added bounded terms modulo its width holds their sum,
as long as there are not too many of them. -/
theorem toInt_ofInt_sum
    {w : Nat} (s : Finset ι) (f : ι → Int) {b : Int}
    (hf : ∀ i ∈ s, |f i| ≤ b)
    (hfit : s.card * b < 2 ^ w) :
    (BitVec.ofInt (w + 1) (∑ i ∈ s, f i)).toInt = ∑ i ∈ s, f i := by
  have hle := abs_le.mp (abs_sum_le_card_mul s f hf)
  refine BitVec.toInt_ofInt_eq_self (by omega) ?_ ?_ <;>
    rw [Nat.add_sub_cancel] <;> omega

end SignedSums

end Clocked
end MollerFirmware
