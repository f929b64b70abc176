import MollerFirmware.Clocked.Delays
import MollerFirmware.Clocked.GrayCode

/-!
# synchronizer_counter

A counter crosses from its own clock `d_clk` to `clk`: it is encoded by
`bin2gray` into a register of `d_clk`, taken over by the `NUM_SYNC` registers
of a `synchronizer` and decoded by `gray2bin` into a register of `clk`.

The two clocks have nothing to do with each other, so that the first register
of the synchronizer may take every bit either before or after a step of the
encoded counter. The captured word is therefore an input of the `clk` side.
-/

namespace MollerFirmware
namespace SynchronizerCounter

open Clocked

variable {szData : Nat}

/-- The word loaded by `bin2gray`, `bin ^ {1'b0, bin[SZ_DATA-1:1]}`. -/
def bin2gray (bin : BitVec szData) : BitVec szData :=
  bin ^^^ (bin.extractLsb' 1 (szData - 1)).setWidth szData

/-- `w_bin[SZ_DATA-1-n]` of `gray2bin`: its wires from the top one down. -/
def wBin (gray : BitVec szData) : Nat → Bool
  | 0 => gray.getLsbD (szData - 1)
  | n + 1 => gray.getLsbD (szData - 1 - (n + 1)) ^^ wBin gray n

/-- The word loaded by `gray2bin`, from its top bit down. -/
def gray2bin (gray : BitVec szData) : BitVec szData :=
  (BitVec.ofBoolListBE (List.ofFn fun n : Fin szData => wBin gray n)).cast
    (List.length_ofFn)

theorem getLsbD_gray2bin (gray : BitVec szData) {i : Nat} (hi : i < szData) :
    (gray2bin gray).getLsbD i = wBin gray (szData - 1 - i) := by
  have htop : szData - 1 - i < szData := by omega
  rw [gray2bin, BitVec.getLsbD_cast, BitVec.getLsbD_ofBoolListBE,
    List.length_ofFn]
  simp [hi, htop]

theorem bin2gray_eq (bin : BitVec szData) :
    bin2gray bin = toGray bin := by
  apply BitVec.eq_of_getLsbD_eq
  intro i hi
  rw [getLsbD_toGray, bin2gray, BitVec.getLsbD_xor, BitVec.getLsbD_setWidth,
    BitVec.getLsbD_extractLsb', Nat.add_comm 1 i]
  by_cases hlast : i < szData - 1
  · simp [hi, hlast]
  · rw [BitVec.getLsbD_of_ge bin (i + 1) (by omega)]
    simp

/-- The wires of the decoder are the recursion from the top bit. -/
theorem ungrays_gray2bin (gray : BitVec szData) :
    Ungrays gray (gray2bin gray) := by
  intro i hi
  rw [getLsbD_gray2bin gray hi]
  by_cases hnext : i + 1 < szData
  · obtain ⟨n, hn⟩ : ∃ n, szData - 1 - i = n + 1 := ⟨szData - 2 - i, by omega⟩
    rw [getLsbD_gray2bin gray hnext, hn, wBin,
      show szData - 1 - (n + 1) = i by omega,
      show szData - 1 - (i + 1) = n by omega]
  · rw [BitVec.getLsbD_of_ge (gray2bin gray) (i + 1) (by omega),
      Bool.xor_false,
      show szData - 1 - i = 0 by omega, wBin, show szData - 1 = i by omega]

theorem gray2bin_bin2gray (bin : BitVec szData) :
    gray2bin (bin2gray bin) = bin := by
  have hcode := (ungrays_gray2bin (bin2gray bin)).eq_toGray
  rw [bin2gray_eq] at hcode ⊢
  exact (toGray_injective hcode).symm

/-- What is captured while the counter steps from `x` to `x + 1` is decoded as
one of the two. -/
theorem gray2bin_mix {x c : BitVec szData}
    (h : IsMix (bin2gray x) (bin2gray (x + 1)) c) :
    gray2bin c = x ∨ gray2bin c = x + 1 := by
  rw [bin2gray_eq, bin2gray_eq] at h
  rcases h.toGray_succ with rfl | rfl
  · left
    rw [← bin2gray_eq, gray2bin_bin2gray]
  · right
    rw [← bin2gray_eq, gray2bin_bin2gray]

/-! ## The clk side -/

/-- Registers in the `clk` domain: those of the synchronizer and the one of
`gray2bin`. -/
structure State (numSync szWidth : Nat) where
  syncReg : Fin numSync → BitVec szWidth
  rBin : BitVec szWidth

variable {numSync szWidth : Nat}

/-- The wires `sync[0]` to `sync[NUM_SYNC]` of the synchronizer. -/
def sync (s : State numSync szWidth) (d : BitVec szWidth) :
    Fin (numSync + 1) → BitVec szWidth :=
  Fin.cons d s.syncReg

/-- The registers while `rst` is high. -/
def reset : State numSync szWidth :=
  { syncReg := fun _ => 0
    rBin := 0 }

/-- A clock edge of `clk` with `rst` low at which the first register takes
`d`. -/
def step (s : State numSync szWidth) (d : BitVec szWidth) :
    State numSync szWidth :=
  { syncReg := fun n => sync s d n.castSucc
    rBin := gray2bin (sync s d (Fin.last numSync)) }

/-- Register `n` of the synchronizer, counted from the one that captures. -/
def stage (s : State numSync szWidth) (n : Nat) : BitVec szWidth :=
  if h : n < numSync then s.syncReg ⟨n, h⟩ else 0

theorem stage_step (s : State numSync szWidth) (d : BitVec szWidth)
    {n : Nat} (hn : n < numSync) :
    stage (step s d) n = if n < 1 then d else stage s (n - 1) := by
  unfold stage
  rw [dif_pos hn, step]
  cases n with
  | zero => rfl
  | succ n =>
      rw [if_neg (by omega), Nat.add_sub_cancel, dif_pos (by omega)]
      rfl

/-- The decoder reads the last register of the synchronizer. -/
theorem rBin_step (s : State (numSync + 1) szWidth) (d : BitVec szWidth) :
    (step s d).rBin = gray2bin (stage s numSync) := by
  rw [stage, dif_pos (Nat.lt_succ_self numSync)]
  rfl

/-- Without synchronizer it reads the word itself. -/
theorem rBin_step_zero (s : State 0 szWidth) (d : BitVec szWidth) :
    (step s d).rBin = gray2bin d := by
  rfl

/-! ## Crossing -/

/-- The registers before edge `t` of `clk`, when the words `d` are captured
after reset. -/
def stateAt (numSync : Nat) (d : Nat → BitVec szWidth) (t : Nat) :
    State numSync szWidth :=
  run step reset d t

/-- `q` -/
def q (numSync : Nat) (d : Nat → BitVec szWidth) (t : Nat) : BitVec szWidth :=
  (stateAt numSync d t).rBin

/-- Clocks from a capture to the output. -/
def latency (numSync : Nat) : Nat :=
  numSync + 1

theorem stage_shiftsIn (numSync : Nat) (d : Nat → BitVec szWidth) (T : Nat) :
    ShiftsIn numSync 1 T (fun t n => stage (stateAt numSync d t) n)
      (fun t _ => d t) := by
  intro t _ n hn
  exact stage_step (stateAt numSync d t) (d t) hn

/-- The output is what was captured `latency` clocks ago, decoded. -/
theorem q_eq (numSync : Nat) (d : Nat → BitVec szWidth) (t : Nat) :
    q numSync d (t + latency numSync) = gray2bin (d t) := by
  cases numSync with
  | zero =>
      exact rBin_step_zero (stateAt 0 d t) (d t)
  | succ n =>
      have hread :=
        (stage_shiftsIn (n + 1) d (t + n + 1)).read (t := t) (j := n) (b := 0)
          (by omega) (by omega) (by omega)
      rw [Nat.zero_add, Nat.one_mul] at hread
      have hlast := rBin_step (stateAt (n + 1) d (t + 1 + n)) (d (t + 1 + n))
      rw [hread] at hlast
      rw [← hlast, latency, show t + (n + 1 + 1) = t + 1 + n + 1 by omega]
      rfl

theorem gray2bin_zero : gray2bin (0 : BitVec szWidth) = 0 := by
  have hcode : bin2gray (0 : BitVec szWidth) = 0 := by
    simp [bin2gray]
  calc
    gray2bin 0 = gray2bin (bin2gray (0 : BitVec szWidth)) := by
      rw [hcode]
    _ = 0 := gray2bin_bin2gray 0

/-- Until the registers are filled the output is zero. -/
theorem q_filling (numSync : Nat) (d : Nat → BitVec szWidth) {t : Nat}
    (ht : t < latency numSync) :
    q numSync d t = 0 := by
  rw [latency] at ht
  cases t with
  | zero =>
      rfl
  | succ t =>
      cases numSync with
      | zero =>
          omega
      | succ n =>
          have hread := (stage_shiftsIn (n + 1) d t).read_initial (t := t)
            (b := n - t) (by omega) (by omega)
          rw [show n - t + 1 * t = n by omega] at hread
          have hlast := rBin_step (stateAt (n + 1) d t) (d t)
          have hzero : stage (stateAt (n + 1) d 0) (n - t) =
              (0 : BitVec szWidth) := by
            rw [stage]
            split_ifs <;> rfl
          rw [hread, hzero, gray2bin_zero] at hlast
          exact hlast

/-- **A counter crosses safely.** The decoder inverts the encoder, the codes of
successive counts, also of the last and the first one, differ in exactly one
bit, and what is captured between two counts is decoded as one of them; so the
output is always the count of `NUM_SYNC + 1` clocks ago or the one after it. -/
theorem crossing_safe {w : Nat} (hw : 2 ≤ w) :
    (∀ x : BitVec w, gray2bin (bin2gray x) = x) ∧
    (∀ x : BitVec w, ∃! p : Fin w,
      (bin2gray x).getLsbD p ≠ (bin2gray (x + 1)).getLsbD p) ∧
    (∀ x c : BitVec w, IsMix (bin2gray x) (bin2gray (x + 1)) c →
      gray2bin c = x ∨ gray2bin c = x + 1) ∧
    ∀ (numSync : Nat) (x captured : Nat → BitVec w),
      (∀ t, IsMix (bin2gray (x t)) (bin2gray (x t + 1)) (captured t)) →
      ∀ t, numSync + 1 ≤ t →
        q numSync captured t = x (t - (numSync + 1)) ∨
        q numSync captured t = x (t - (numSync + 1)) + 1 := by
  refine ⟨gray2bin_bin2gray, fun x => ?_, fun x c h => gray2bin_mix h,
    fun numSync x captured hmix t ht => ?_⟩
  · obtain ⟨p, hp, hdiff⟩ := exists_differAt_toGray_succ (by omega) x
    refine ⟨⟨p, hp⟩, ?_, fun y hy => ?_⟩
    · rw [bin2gray_eq, bin2gray_eq]
      exact (hdiff p).mpr rfl
    · rw [bin2gray_eq, bin2gray_eq] at hy
      exact Fin.ext ((hdiff y).mp hy)
  · obtain ⟨u, rfl⟩ := Nat.exists_eq_add_of_le' ht
    rw [Nat.add_sub_cancel]
    have hq := q_eq numSync captured u
    rw [latency] at hq
    rw [hq]
    exact gray2bin_mix (hmix u)

/-- Captures of a counter of four bits that steps in every clock: every second
one is made before, the others after the step. -/
def everySecondEarly (t : Nat) : BitVec 4 :=
  if t % 2 = 0 then bin2gray (BitVec.ofNat 4 t)
  else bin2gray (BitVec.ofNat 4 t + 1)

theorem crossing_safe_everySecondEarly :
    2 ≤ 4 ∧ ∀ t, 3 ≤ t →
      q 2 everySecondEarly t = BitVec.ofNat 4 (t - 3) ∨
      q 2 everySecondEarly t = BitVec.ofNat 4 (t - 3) + 1 := by
  refine ⟨by decide,
    (crossing_safe (by decide)).2.2.2 2 (BitVec.ofNat 4) _ fun t => ?_⟩
  unfold everySecondEarly
  split_ifs
  · exact isMix_left _ _
  · exact isMix_right _ _

end SynchronizerCounter
end MollerFirmware
