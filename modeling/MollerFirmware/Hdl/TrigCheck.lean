import MollerFirmware.Clocked.UpDownCounters

/-!
# TrigCheck: the blocks of a trigger interface that are under way

`SentCount` counts the blocks that were sent and not acknowledged, `DiffCount`
those not received yet, and `BusyTrigC` the triggers. When `SentCount` reaches
the threshold the interface is busy. An acknowledgement for which there is no
block is dropped and reported.
-/

namespace MollerFirmware
namespace TrigCheck

open Clocked

structure Input where
  newBlock : Bool
  blkRcvd : Bool
  blkAckd : Bool
  trigRcvd : Bool
  pulseTrig : Bool
  reset : Bool
  busyTh : BitVec 8

structure State where
  diffCount : BitVec 8
  sentCount : BitVec 8
  busyTrigC : BitVec 8
  busyBlk : Bool
  tooManyAck : Bool

def initial : State where
  diffCount := 0
  sentCount := 0
  busyTrigC := 0
  busyBlk := false
  tooManyAck := false

/-- `BusyTrig` -/
def State.busyTrig (s : State) : Bool :=
  s.busyTrigC.getLsbD 0 || s.busyTrigC.getLsbD 1

/-- The counter of triggers; it counts down only while `BusyTrig` is high. -/
def State.nextBusyTrigC (s : State) (i : Input) : BitVec 8 :=
  if i.pulseTrig ^^ (i.trigRcvd && s.busyTrig) then
    if i.pulseTrig then s.busyTrigC + 1 else s.busyTrigC - 1
  else s.busyTrigC

def step (s : State) (i : Input) : State where
  diffCount := if i.reset then 0 else upDown i.newBlock i.blkRcvd s.diffCount
  sentCount := if i.reset then 0 else upDown i.newBlock i.blkAckd s.sentCount
  busyTrigC := if i.reset then 0 else s.nextBusyTrigC i
  busyBlk := decide (i.busyTh ≤ s.sentCount)
  tooManyAck := i.blkAckd && s.sentCount == 0

section Runs

variable (inp : Nat → Input)

def state (t : Nat) : State :=
  run step initial inp t

def newBlock (t : Nat) : Bool :=
  (inp t).newBlock

def blkAckd (t : Nat) : Bool :=
  (inp t).blkAckd

/-- The number of blocks by which what was sent exceeds what was acknowledged,
in some stretch of time that ends at `t`, is at least `n`. -/
def Outstanding (t n : Nat) : Prop :=
  ∃ u, u ≤ t ∧
    pulsesIn (blkAckd inp) u t + n ≤ pulsesIn (newBlock inp) u t

variable {inp}

theorem sentCount_counts (hreset : ∀ t, (inp t).reset = false) :
    Counts (newBlock inp) (blkAckd inp)
      (fun t => (state inp t).sentCount) where
  init := rfl
  succ := by
    intro t
    show (if (inp t).reset then 0 else _) = _
    rw [hreset t]
    rfl

/-- Without reset and with fewer than 256 blocks outstanding, whatever
acknowledgements come, the interface is busy when at least the threshold is
outstanding, and reports those for which nothing is. -/
theorem busyBlk_iff (hreset : ∀ t, (inp t).reset = false)
    (hroom : ∀ t, ¬ Outstanding inp t 256) (t : Nat) :
    ((state inp (t + 1)).busyBlk = true ↔
        Outstanding inp t (inp t).busyTh.toNat) ∧
      ((state inp (t + 1)).tooManyAck = true ↔
        (inp t).blkAckd = true ∧ ¬ Outstanding inp t 1) := by
  have hexcess : ∀ n, n ≤ (state inp t).sentCount.toNat ↔
      Outstanding inp t n :=
    (sentCount_counts hreset).le_iff_excess
      (fun u v huv => by
        by_contra hfull
        exact hroom v ⟨u, huv, by omega⟩) t
  have hbusy : (state inp (t + 1)).busyBlk =
      decide ((inp t).busyTh ≤ (state inp t).sentCount) := rfl
  have hmany : (state inp (t + 1)).tooManyAck =
      ((inp t).blkAckd && (state inp t).sentCount == 0) := rfl
  rw [hbusy, hmany, decide_eq_true_eq, BitVec.le_def, hexcess,
    Bool.and_eq_true, beq_iff_eq, ← hexcess 1]
  refine ⟨Iff.rfl, and_congr_right fun _ => ?_⟩
  constructor
  · intro hzero
    rw [hzero]
    simp
  · intro hnone
    exact BitVec.eq_of_toNat_eq (by simpa using hnone)

/-- A block, and an acknowledgement in every clock. -/
def oneBlock (t : Nat) : Input where
  newBlock := decide (t = 0)
  blkRcvd := false
  blkAckd := decide (0 < t)
  trigRcvd := false
  pulseTrig := false
  reset := false
  busyTh := 1

theorem busyBlk_iff_oneBlock :
    (state oneBlock 2).busyBlk = true ∧
      (state oneBlock 3).tooManyAck = true := by
  have hone := pulsesIn_le_one (p := newBlock oneBlock) fun t u ht hu =>
    (of_decide_eq_true ht).trans (of_decide_eq_true hu).symm
  have hroom : ∀ t, ¬ Outstanding oneBlock t 256 := by
    rintro t ⟨u, -, hle⟩
    have hle' := hone u t
    omega
  refine ⟨(busyBlk_iff (fun _ => rfl) hroom 1).1.mpr ⟨0, by omega, by decide⟩,
    (busyBlk_iff (fun _ => rfl) hroom 2).2.mpr ⟨rfl, ?_⟩⟩
  rintro ⟨u, hu, hle⟩
  have hcases : u = 0 ∨ u = 1 ∨ u = 2 := by omega
  rcases hcases with rfl | rfl | rfl <;> revert hle <;> decide

end Runs

end TrigCheck
end MollerFirmware
