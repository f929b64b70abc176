import Mathlib.Data.BitVec
import Mathlib.Tactic

/-!
# Gray codes

The reflected Gray code of words of any width. A word is found again from its
code by a recursion from the top bit; the codes of two successive words, the
last and the first one included, differ in one place only. A register that
captures a code while it changes therefore holds one of the two codes.
-/

namespace MollerFirmware
namespace Clocked

variable {w : Nat}

/-- The reflected Gray code. -/
def toGray (x : BitVec w) : BitVec w :=
  x ^^^ (x >>> 1)

theorem getLsbD_toGray (x : BitVec w) (i : Nat) :
    (toGray x).getLsbD i = (x.getLsbD i ^^ x.getLsbD (i + 1)) := by
  rw [toGray, BitVec.getLsbD_xor, BitVec.getLsbD_ushiftRight, Nat.add_comm]

/-- The word `x` is what the recursion from the top bit makes of `g`: every bit
is that of `g`, inverted if the bit above is set. -/
def Ungrays (g x : BitVec w) : Prop :=
  ∀ i, i < w → x.getLsbD i = (g.getLsbD i ^^ x.getLsbD (i + 1))

/-- The recursion from the top bit decodes. -/
theorem Ungrays.eq_toGray {g x : BitVec w} (h : Ungrays g x) :
    g = toGray x := by
  apply BitVec.eq_of_getLsbD_eq
  intro i hi
  rw [getLsbD_toGray, h i hi, Bool.xor_assoc, Bool.xor_self, Bool.xor_false]

/-- Two words with one code agree, from the top bit down. -/
theorem toGray_injective :
    Function.Injective (toGray : BitVec w → BitVec w) := by
  intro x y hxy
  have hbit : ∀ k i, i + k = w → x.getLsbD i = y.getLsbD i := by
    intro k
    induction k with
    | zero =>
        intro i hi
        rw [BitVec.getLsbD_of_ge x i (by omega),
          BitVec.getLsbD_of_ge y i (by omega)]
    | succ k ih =>
        intro i hi
        have hcode : (toGray x).getLsbD i = (toGray y).getLsbD i := by
          rw [hxy]
        rw [getLsbD_toGray, getLsbD_toGray, ih (i + 1) (by omega)] at hcode
        simpa using hcode
  apply BitVec.eq_of_getLsbD_eq
  intro i hi
  exact hbit (w - i) i (by omega)

/-- The words `a` and `b` differ in the place `p` and in no other. -/
def DifferAt (a b : BitVec w) (p : Nat) : Prop :=
  ∀ i, a.getLsbD i ≠ b.getLsbD i ↔ i = p

/-- The carry of an increment reaches a place if all bits below it are set. -/
def carried (x : BitVec w) (i : Nat) : Prop :=
  i < w ∧ ∀ j, j < i → x.getLsbD j = true

instance (x : BitVec w) (i : Nat) : Decidable (carried x i) :=
  inferInstanceAs (Decidable (_ ∧ ∀ j, j < i → _))

/-- An increment inverts the bits its carry reaches. -/
theorem getLsbD_succ (x : BitVec w) (i : Nat) :
    (x + 1).getLsbD i = (x.getLsbD i ^^ decide (carried x i)) := by
  by_cases hi : i < w
  · have hcarry : decide (carried x i) =
        ((1#w).getLsbD i ^^ BitVec.carry i x (1#w) false) := by
      cases i with
      | zero =>
          simp [carried, hi]
      | succ i =>
          rw [BitVec.carry_succ_one i x (by omega)]
          simp [carried, hi]
    rw [hcarry]
    exact BitVec.getLsbD_add hi x 1
  · have hnot : ¬ carried x i := fun h => hi h.1
    rw [BitVec.getLsbD_of_ge _ _ (by omega),
      BitVec.getLsbD_of_ge _ _ (by omega), decide_eq_false hnot]
    rfl

/-- The codes of a word and its successor differ where the carry reaches one of
two neighbouring places only. -/
theorem getLsbD_toGray_succ_ne (x : BitVec w) (i : Nat) :
    (toGray x).getLsbD i ≠ (toGray (x + 1)).getLsbD i ↔
      ¬ (carried x i ↔ carried x (i + 1)) := by
  rw [getLsbD_toGray, getLsbD_toGray, getLsbD_succ, getLsbD_succ]
  by_cases hi : carried x i <;> by_cases hs : carried x (i + 1) <;>
    cases x.getLsbD i <;> cases x.getLsbD (i + 1) <;> simp [hi, hs]

/-- **Neighbours in the code.** The codes of successive words differ in the
place of the lowest clear bit, or in the top place if there is none below. -/
theorem exists_differAt_toGray_succ (hw : 0 < w) (x : BitVec w) :
    ∃ p, p < w ∧ DifferAt (toGray x) (toGray (x + 1)) p := by
  have hex : ∃ p, p + 1 = w ∨ x.getLsbD p = false :=
    ⟨w - 1, .inl (by omega)⟩
  have hend := Nat.find_spec hex
  have hmin := fun j => Nat.find_min hex (m := j)
  generalize Nat.find hex = p at hend hmin
  have hset : ∀ j, j < p → x.getLsbD j = true := by
    intro j hj
    have hnot := hmin j hj
    rw [not_or] at hnot
    simpa using hnot.2
  have hpw : p < w := by
    by_contra hge
    exact hmin (w - 1) (by omega) (.inl (by omega))
  refine ⟨p, hpw, fun i => ?_⟩
  rw [getLsbD_toGray_succ_ne]
  have hreach : ∀ j, carried x j ↔ j ≤ p := by
    intro j
    refine ⟨fun h => ?_, fun h => ⟨by omega, fun k hk => hset k (by omega)⟩⟩
    by_contra hj
    -- a place above `p` is not reached: `p` is the top place or a clear one
    rcases hend with htop | hclear
    · exact absurd h.1 (by omega)
    · rw [h.2 p (by omega)] at hclear
      exact absurd hclear (by simp)
  rw [hreach, hreach]
  omega

/-- Every bit of `c` is that of `a` or that of `b`. -/
def IsMix (a b c : BitVec w) : Prop :=
  ∀ i, i < w → c.getLsbD i = a.getLsbD i ∨ c.getLsbD i = b.getLsbD i

theorem isMix_left (a b : BitVec w) : IsMix a b a := by
  intro i _
  exact .inl rfl

theorem isMix_right (a b : BitVec w) : IsMix a b b := by
  intro i _
  exact .inr rfl

/-- A mix of two words that differ in one place is one of them. -/
theorem IsMix.eq_or_eq {a b c : BitVec w} {p : Nat}
    (h : IsMix a b c) (hp : p < w) (hdiff : DifferAt a b p) :
    c = a ∨ c = b := by
  have hsame : ∀ i, i ≠ p → a.getLsbD i = b.getLsbD i := by
    intro i hi
    by_contra hne
    exact hi ((hdiff i).mp hne)
  rcases h p hp with hpa | hpb
  · left
    apply BitVec.eq_of_getLsbD_eq
    intro i hi
    by_cases hip : i = p
    · rw [hip, hpa]
    · rcases h i hi with heq | heq
      · exact heq
      · rw [heq, hsame i hip]
  · right
    apply BitVec.eq_of_getLsbD_eq
    intro i hi
    by_cases hip : i = p
    · rw [hip, hpb]
    · rcases h i hi with heq | heq
      · rw [heq, hsame i hip]
      · exact heq

/-- A code captured while it changes to the next one is one of the two. -/
theorem IsMix.toGray_succ {x c : BitVec w}
    (h : IsMix (toGray x) (toGray (x + 1)) c) :
    c = toGray x ∨ c = toGray (x + 1) := by
  rcases Nat.eq_zero_or_pos w with rfl | hw
  · exact .inl (BitVec.eq_of_getLsbD_eq fun i hi => absurd hi (by omega))
  · obtain ⟨p, hp, hdiff⟩ := exists_differAt_toGray_succ hw x
    exact h.eq_or_eq hp hdiff

end Clocked
end MollerFirmware
