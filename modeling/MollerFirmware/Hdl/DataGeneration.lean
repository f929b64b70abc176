import MollerFirmware.Clocked.UpDownCounters

/-!
# DataGeneration: the acknowledgements of the readout controllers

Up to eight controllers (ROCs) read the blocks. Each acknowledges the blocks it
has read, and some are ahead of others. `ROCAckBuf` counts what one of them has
acknowledged over what was passed on, and `DataGeneration` passes one on when
every enabled controller has one waiting.

An edge of `ROCiAckIn` is kept until the end of the clock, when `ROCiAck` takes
and clears it. While `ROCiAck` is high another edge is not seen.
-/

namespace MollerFirmware
namespace DataGeneration

open Clocked

/-- Registers of a `ROCAckBuf`. -/
structure ROCAckBuf where
  rociAck : Bool
  rocAckCnt : BitVec 8

/-- `ROCiReady` -/
def ROCAckBuf.ready (s : ROCAckBuf) : Bool :=
  s.rocAckCnt != 0

def ROCAckBuf.step (s : ROCAckBuf) (ackEdge reset rocAckd : Bool) : ROCAckBuf where
  rociAck := ackEdge && !(reset || s.rociAck)
  rocAckCnt := if reset then 0 else upDown s.rociAck rocAckd s.rocAckCnt

structure Input where
  reset : Bool
  rocEn : BitVec 8
  ackEdge : Fin 8 → Bool

structure State where
  bufs : Fin 8 → ROCAckBuf
  rocAckInt : Bool

def initial : State where
  bufs := fun _ => ⟨false, 0⟩
  rocAckInt := false

/-- An edge of `ClkUsr`. -/
def step (s : State) (i : Input) : State where
  bufs := fun n => (s.bufs n).step (i.ackEdge n) i.reset s.rocAckInt
  rocAckInt :=
    !s.rocAckInt &&
      decide (∀ n : Fin 8, ((s.bufs n).ready || !i.rocEn.getLsbD n) = true)

/-- A run after a reset with constant enables. -/
structure Run where
  rocEn : BitVec 8
  ackEdge : Nat → Fin 8 → Bool

namespace Run

variable (r : Run)

def state (t : Nat) : State :=
  run step initial (fun u => ⟨false, r.rocEn, r.ackEdge u⟩) t

/-- Edges of the acknowledgement of a controller. -/
def edges (n : Fin 8) (t : Nat) : Bool :=
  r.ackEdge t n

/-- `ROCiAck` -/
def rociAck (n : Fin 8) (t : Nat) : Bool :=
  ((r.state t).bufs n).rociAck

/-- `ROCack` -/
def rocAck (t : Nat) : Bool :=
  (r.state t).rocAckInt

/-- `ROCAckCnt` -/
def cnt (n : Fin 8) (t : Nat) : BitVec 8 :=
  ((r.state t).bufs n).rocAckCnt

def Enabled (n : Fin 8) : Prop :=
  r.rocEn.getLsbD n = true

instance (n : Fin 8) : Decidable (r.Enabled n) :=
  inferInstanceAs (Decidable (_ = true))

theorem counts (n : Fin 8) :
    Counts (r.rociAck n) r.rocAck (r.cnt n) where
  init := rfl
  succ := fun _ => rfl

theorem rociAck_succ {n : Fin 8} (hspaced : Spaced 2 (r.edges n)) (t : Nat) :
    r.rociAck n (t + 1) = r.edges n t := by
  have hnext : ∀ u, r.rociAck n (u + 1) =
      (r.edges n u && !(false || r.rociAck n u)) := fun _ => rfl
  rw [hnext]
  cases t with
  | zero =>
      exact Bool.and_true _
  | succ t =>
      cases hedge : r.edges n (t + 1) with
      | false =>
          rfl
      | true =>
          have hbefore : r.edges n t = false := by
            by_contra h
            have hdist := hspaced t (t + 1) (by omega) (by simpa using h) hedge
            omega
          rw [hnext, hbefore]
          rfl

/-- Every edge is counted. -/
theorem rociAck_pulses {n : Fin 8} (hspaced : Spaced 2 (r.edges n)) (t : Nat) :
    pulsesIn (r.rociAck n) 0 (t + 1) = pulsesIn (r.edges n) 0 t := by
  have hfirst : pulsesIn (r.rociAck n) 0 1 = 0 := rfl
  rw [pulsesIn_add _ (Nat.zero_le 1) (Nat.le_add_left 1 t), hfirst,
    Nat.zero_add]
  exact pulsesIn_delay (r.rociAck_succ hspaced) 0 t

theorem rocAck_succ_iff (t : Nat) :
    r.rocAck (t + 1) = true ↔
      r.rocAck t = false ∧ ∀ n, r.Enabled n → r.cnt n t ≠ 0 := by
  have hnext : r.rocAck (t + 1) =
      (!r.rocAck t && decide (∀ n : Fin 8,
        ((r.cnt n t != 0) || !r.rocEn.getLsbD n) = true)) := rfl
  rw [hnext, Bool.and_eq_true, Bool.not_eq_true', decide_eq_true_eq]
  refine and_congr_right fun _ => forall_congr' fun n => ?_
  rw [Bool.or_eq_true, bne_iff_ne, Bool.not_eq_true', Enabled]
  constructor
  · rintro (h | h) hen
    · exact h
    · rw [hen] at h
      exact Bool.noConfusion h
  · intro h
    cases hen : r.rocEn.getLsbD n with
    | true => exact Or.inl (h hen)
    | false => exact Or.inr rfl

variable {r}

/-- The counter of an enabled controller holds what is not passed on yet, and
what is passed on was waiting. -/
theorem cnt_ledger {n : Fin 8} (hen : r.Enabled n)
    (hroom : ∀ t, pulsesIn (r.rociAck n) 0 t < pulsesIn r.rocAck 0 t + 256)
    (t : Nat) :
    pulsesIn (r.rociAck n) 0 t =
        pulsesIn r.rocAck 0 t + (r.cnt n t).toNat ∧
      (r.rocAck t = true → r.cnt n t ≠ 0) := by
  induction t with
  | zero =>
      exact ⟨rfl, fun h => Bool.noConfusion h⟩
  | succ t ih =>
      obtain ⟨hledger, htaken⟩ := ih
      have hnext := (r.counts n).ledger_succ hledger htaken (hroom (t + 1))
      refine ⟨hnext, fun hack hzero => ?_⟩
      obtain ⟨hlow, hwaiting⟩ := (r.rocAck_succ_iff t).mp hack
      have hpos : (r.cnt n t).toNat ≠ 0 := fun h =>
        hwaiting n hen (BitVec.eq_of_toNat_eq (by simpa using h))
      have hzero' : (r.cnt n (t + 1)).toNat = 0 := by
        rw [hzero]
        rfl
      rw [pulsesIn_succ _ (Nat.zero_le t),
        pulsesIn_succ r.rocAck (Nat.zero_le t), hlow, hzero',
        if_neg Bool.false_ne_true] at hnext
      split_ifs at hnext <;> omega

/-- No block is acknowledged that an enabled controller has not acknowledged,
and a block that all of them have acknowledged is within two clocks. -/
theorem rocAck_barrier (r : Run)
    (hspaced : ∀ n, r.Enabled n → Spaced 2 (r.edges n))
    (hroom : ∀ n, r.Enabled n → ∀ t,
      pulsesIn (r.edges n) 0 t < pulsesIn r.rocAck 0 (t + 1) + 256) (t : Nat) :
    (∀ n, r.Enabled n →
        pulsesIn r.rocAck 0 (t + 1) ≤ pulsesIn (r.edges n) 0 t) ∧
      ((∀ n, r.Enabled n →
          pulsesIn r.rocAck 0 (t + 1) < pulsesIn (r.edges n) 0 t) →
        r.rocAck (t + 1) = true ∨ r.rocAck (t + 2) = true) := by
  have hledger : ∀ n, r.Enabled n → pulsesIn (r.edges n) 0 t =
      pulsesIn r.rocAck 0 (t + 1) + (r.cnt n (t + 1)).toNat := by
    intro n hen
    have hroom' : ∀ u,
        pulsesIn (r.rociAck n) 0 u < pulsesIn r.rocAck 0 u + 256 := by
      intro u
      cases u with
      | zero =>
          simp
      | succ u =>
          rw [r.rociAck_pulses (hspaced n hen)]
          exact hroom n hen u
    rw [← r.rociAck_pulses (hspaced n hen)]
    exact (cnt_ledger hen hroom' (t + 1)).1
  constructor
  · intro n hen
    rw [hledger n hen]
    exact Nat.le_add_right _ _
  · intro hahead
    cases hnow : r.rocAck (t + 1) with
    | true =>
        exact Or.inl rfl
    | false =>
        refine Or.inr ((r.rocAck_succ_iff (t + 1)).mpr ⟨hnow, ?_⟩)
        intro n hen hzero
        have hlt := hahead n hen
        rw [hledger n hen, hzero] at hlt
        simp at hlt

/-- Two controllers, of which one acknowledges in clock 0 and the other in
clock 3. -/
def twoRocs : Run where
  rocEn := 0b11
  ackEdge := fun t n => decide (t = 0 ∧ n = 0 ∨ t = 3 ∧ n = 1)

theorem rocAck_barrier_twoRocs :
    twoRocs.rocAck 5 = true ∨ twoRocs.rocAck 6 = true := by
  have honce : ∀ n t u, twoRocs.edges n t = true →
      twoRocs.edges n u = true → t = u := by
    intro n t u ht hu
    have ht' := of_decide_eq_true ht
    have hu' := of_decide_eq_true hu
    rcases ht' with ⟨rfl, rfl⟩ | ⟨rfl, rfl⟩ <;>
      rcases hu' with ⟨rfl, h⟩ | ⟨rfl, h⟩ <;> first | rfl | cases h
  refine (rocAck_barrier twoRocs (fun n _ t u htu ht hu => ?_)
    (fun n _ t => ?_) 4).2 ?_
  · have heq := honce n t u ht hu
    omega
  · have hle := pulsesIn_le_one (honce n) 0 t
    omega
  · decide

end Run

end DataGeneration
end MollerFirmware
