import Mathlib.Data.BitVec
import Mathlib.Tactic

/-!
# Words with byte strobes

A bus that can write single bytes of a word sends one strobe for each byte. A
field of a register takes the bits of the bytes it lies in whose strobes are
set; the other bits stay. The lemmas say that the fields of a register behave
together like one word.

A bank compares an address with that of every register in turn and acts on
those that match. If the addresses are different it acts on one at most.
-/

namespace MollerFirmware
namespace Memory

section Bits

/-- The word of width `n` with the bits `f`. -/
def ofBits (n : Nat) (f : Nat → Bool) : BitVec n :=
  (BitVec.iunfoldr (fun i (_ : Unit) => ((), f i)) ()).2

theorem getLsbD_ofBits (n : Nat) (f : Nat → Bool) (i : Nat) :
    (ofBits n f).getLsbD i = (decide (i < n) && f i) := by
  by_cases hi : i < n
  · have hbit := BitVec.iunfoldr_getLsbD
      (f := fun (j : Fin n) (_ : Unit) => ((), f j)) (fun _ => ()) ⟨i, hi⟩
      (fun _ => rfl)
    simpa [ofBits, hi] using hbit
  · rw [BitVec.getLsbD_of_ge (ofBits n f) i (by omega)]
    simp [hi]

end Bits

section Strobes

variable {w k n m : Nat}

/-- A field from bit `lo` of a register on, after a write of `data` with the
strobes `strb`. -/
def strobed (data : BitVec w) (strb : BitVec k) (lo : Nat)
    (field : BitVec n) : BitVec n :=
  ofBits n fun i =>
    if strb.getLsbD ((lo + i) / 8) then data.getLsbD (lo + i)
    else field.getLsbD i

theorem getLsbD_strobed
    (data : BitVec w) (strb : BitVec k) (lo : Nat) (field : BitVec n)
    (i : Nat) :
    (strobed data strb lo field).getLsbD i =
      (decide (i < n) &&
        if strb.getLsbD ((lo + i) / 8) then data.getLsbD (lo + i)
        else field.getLsbD i) := by
  exact getLsbD_ofBits n _ i

/-- Neighbouring fields are written like one field. -/
theorem strobed_append
    (data : BitVec w) (strb : BitVec k) (lo : Nat)
    (high : BitVec n) (low : BitVec m) :
    strobed data strb (lo + m) high ++ strobed data strb lo low =
      strobed data strb lo (high ++ low) := by
  refine BitVec.eq_of_getLsbD_eq fun i hi => ?_
  rw [BitVec.getLsbD_append, getLsbD_strobed, getLsbD_strobed,
    getLsbD_strobed, BitVec.getLsbD_append]
  by_cases him : i < m
  · simp [him, hi]
  · have hlo : lo + m + (i - m) = lo + i := by omega
    have hn : i - m < n := by omega
    simp [him, hi, hn, hlo]

/-- With all strobes set the field is the part of the data that it covers. -/
theorem strobed_allOnes
    (data : BitVec w) {lo : Nat} (field : BitVec n)
    (hin : lo + n ≤ 8 * k) :
    strobed data (BitVec.allOnes k) lo field = data.extractLsb' lo n := by
  refine BitVec.eq_of_getLsbD_eq fun i hi => ?_
  have hstrobe : (lo + i) / 8 < k := by omega
  rw [getLsbD_strobed, BitVec.getLsbD_extractLsb', BitVec.getLsbD_allOnes]
  simp [hi, hstrobe]

end Strobes

section Selection

universe u v

variable {α : Type u} {σ : Type v} {l : List α} {p : α → Bool}

theorem foldl_select_none
    (hnone : ∀ b ∈ l, p b = false) (act : σ → α → σ) (s : σ) :
    l.foldl (fun s b => if p b then act s b else s) s = s := by
  induction l with
  | nil =>
      rfl
  | cons b l ih =>
      rw [List.foldl_cons, hnone b (by simp)]
      exact ih fun c hc => hnone c (by simp [hc])

/-- Of all that are looked at only the selected one acts. -/
theorem foldl_select
    (hnodup : l.Nodup) {a : α} (ha : a ∈ l) (hp : p a = true)
    (honly : ∀ b ∈ l, p b = true → b = a)
    (act : σ → α → σ) (s : σ) :
    l.foldl (fun s b => if p b then act s b else s) s = act s a := by
  induction l with
  | nil =>
      exact absurd ha (by simp)
  | cons b l ih =>
      obtain ⟨hb, hnodup⟩ := List.nodup_cons.mp hnodup
      rw [List.foldl_cons]
      rcases List.mem_cons.mp ha with rfl | hal
      · rw [hp]
        refine foldl_select_none (fun c hc => ?_) act _
        by_contra hpc
        have hca := honly c (by simp [hc]) (by simpa using hpc)
        exact hb (hca ▸ hc)
      · have hpb : p b = false := by
          by_contra hpb
          exact hb (honly b (by simp) (by simpa using hpb) ▸ hal)
        rw [hpb]
        exact ih hnodup hal fun c hc => honly c (by simp [hc])

end Selection

end Memory
end MollerFirmware
