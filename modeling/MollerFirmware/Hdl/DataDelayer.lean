import MollerFirmware.Clocked.Delays
import MollerFirmware.Clocked.RingMemory

/-!
# data_delayer

A delay of up to `DEPTH` clocks, `DEPTH` being a power of two. The words go into
a ring that is read `delay` places behind; because the read of
`dual_one_clock_wr_first` is registered and does not see the word written at
the same edge, delays of zero and one clock are taken from the input and from a
register instead. `valid` is low until the ring has been filled far enough.
-/

namespace MollerFirmware
namespace DataDelayer

open Clocked

/-- Width of `cnt`, `[$clog2(DEPTH+1):0]`. -/
def cntWidth (depthBits : Nat) : Nat :=
  Nat.clog 2 (2 ^ depthBits + 1) + 1

/-- Registers and RAM of the module and of its memory. -/
structure State (depthBits width : Nat) where
  intDelay : BitVec (depthBits + 1)
  cnt : BitVec (cntWidth depthBits)
  wrPos : BitVec depthBits
  rdPos : BitVec depthBits
  lastD : BitVec width
  valid : Bool
  ram : BitVec depthBits → BitVec width
  intQ : BitVec width

variable {depthBits width : Nat}

/-- `rd_pos - int_delay`, cut to the width of the address. -/
def rdAddr (s : State depthBits width) : BitVec depthBits :=
  (s.rdPos.setWidth (depthBits + 1) - s.intDelay).setWidth depthBits

/-- `(delay > DEPTH) ? DEPTH : delay` -/
def clampDelay (delay : BitVec (depthBits + 1)) : BitVec (depthBits + 1) :=
  if 2 ^ depthBits < delay.toNat then BitVec.ofNat _ (2 ^ depthBits) else delay

/-- A clock edge with `rst` high. The memory goes on writing. -/
def reset (s : State depthBits width) (delay : BitVec (depthBits + 1))
    (d : BitVec width) : State depthBits width :=
  { s with
    wrPos := 0
    rdPos := 1
    cnt := 1
    valid := false
    intDelay := delay
    ram := Function.update s.ram s.wrPos d
    intQ := s.ram (rdAddr s) }

/-- A clock edge with `rst` low. -/
def step (s : State depthBits width) (delay : BitVec (depthBits + 1))
    (d : BitVec width) : State depthBits width :=
  { intDelay := clampDelay delay
    wrPos := s.wrPos + 1
    rdPos := s.rdPos + 1
    cnt := if s.cnt.toNat < 2 ^ depthBits then s.cnt + 1 else s.cnt
    valid := decide (s.intDelay.toNat ≤ s.cnt.toNat)
    lastD := d
    ram := Function.update s.ram s.wrPos d
    intQ := s.ram (rdAddr s) }

/-- `q` -/
def output (s : State depthBits width) (d : BitVec width) : BitVec width :=
  if s.intDelay.toNat = 0 then d
  else if s.intDelay.toNat = 1 then s.lastD
  else s.intQ

/-- The address is `delay` places behind the next one to be written. -/
theorem rdAddr_eq {s : State depthBits width} {u v : Nat}
    (hrd : s.rdPos = BitVec.ofNat _ v) (hdelay : u + s.intDelay.toNat = v) :
    rdAddr s = BitVec.ofNat _ u := by
  have hadd : rdAddr s + s.intDelay.setWidth depthBits =
      (s.rdPos.setWidth (depthBits + 1)).setWidth depthBits := by
    rw [rdAddr, ← BitVec.setWidth_add _ _ (Nat.le_succ depthBits),
      BitVec.sub_add_cancel]
  have hcut : s.intDelay.setWidth depthBits =
      BitVec.ofNat _ s.intDelay.toNat :=
    (BitVec.ofNat_toNat _ _).symm
  rw [BitVec.setWidth_setWidth_of_le _ (Nat.le_succ depthBits),
    BitVec.setWidth_eq, hrd, ← hdelay, BitVec.ofNat_add, hcut] at hadd
  exact add_right_cancel hadd

/-- A run with a constant delay after reset. -/
structure Run (depthBits width : Nat) where
  delay : BitVec (depthBits + 1)
  le_depth : delay.toNat ≤ 2 ^ depthBits
  before : State depthBits width
  resetD : BitVec width
  d : Nat → BitVec width

namespace Run

variable (r : Run depthBits width)

/-- Registers before clock edge `t`. -/
def state (t : Nat) : State depthBits width :=
  run (fun s d => step s r.delay d) (reset r.before r.delay r.resetD) r.d t

/-- `q` -/
def q (t : Nat) : BitVec width :=
  output (r.state t) (r.d t)

/-- `valid` -/
def valid (t : Nat) : Bool :=
  (r.state t).valid

/-- What the registers hold before clock edge `t`: the ring has the last
`DEPTH` words. -/
structure Filled (t : Nat) : Prop where
  intDelay : (r.state t).intDelay = r.delay
  wrPos : (r.state t).wrPos = BitVec.ofNat _ t
  rdPos : (r.state t).rdPos = BitVec.ofNat _ (t + 1)
  cnt : (r.state t).cnt.toNat = min (t + 1) (2 ^ depthBits)
  ram : ∀ u, u < t → t ≤ u + 2 ^ depthBits →
    (r.state t).ram (BitVec.ofNat _ u) = r.d u

theorem clampDelay_eq : clampDelay r.delay = r.delay :=
  if_neg (Nat.not_lt.mpr r.le_depth)

theorem filled (t : Nat) : r.Filled t := by
  induction t with
  | zero =>
      have hone : (1 : BitVec (cntWidth depthBits)).toNat = 1 :=
        Nat.mod_eq_of_lt (Nat.one_lt_two_pow (Nat.succ_ne_zero _))
      refine ⟨rfl, rfl, rfl, hone.trans ?_, fun u hu => absurd hu (by omega)⟩
      have hdepth := Nat.two_pow_pos depthBits
      omega
  | succ t ih =>
      refine ⟨r.clampDelay_eq, ?_, ?_, ?_, fun u hut hturn => ?_⟩
      · show (r.state t).wrPos + 1 = _
        rw [ih.wrPos]
        exact ofNat_add_ofNat _ t 1
      · show (r.state t).rdPos + 1 = _
        rw [ih.rdPos]
        exact ofNat_add_ofNat _ (t + 1) 1
      · show (if (r.state t).cnt.toNat < 2 ^ depthBits
          then (r.state t).cnt + 1 else (r.state t).cnt).toNat = _
        have hcnt := ih.cnt
        split_ifs with hless
        · have hfit : (r.state t).cnt.toNat + 1 < 2 ^ cntWidth depthBits :=
            succ_lt_two_pow_clog hless.le
          rw [toNat_succ_of_lt hfit]
          omega
        · omega
      · show Function.update (r.state t).ram (r.state t).wrPos (r.d t) _ = _
        rw [ih.wrPos]
        rcases Nat.lt_succ_iff_lt_or_eq.mp hut with hold | rfl
        · rw [Function.update_of_ne (ofNat_ne_ofNat hold (by omega))]
          exact ih.ram u hold (by omega)
        · exact Function.update_self _ _ _

/-- `valid` rises as soon as a word of `delay` clocks ago can be given, but not
in the first clock. -/
theorem valid_iff (t : Nat) :
    r.valid t = true ↔ 1 ≤ t ∧ r.delay.toNat ≤ t := by
  cases t with
  | zero =>
      simp [valid, state, reset]
  | succ t =>
      have h := r.filled t
      have hle := r.le_depth
      have hcnt := h.cnt
      show decide ((r.state t).intDelay.toNat ≤ (r.state t).cnt.toNat) = true ↔ _
      rw [decide_eq_true_iff, h.intDelay]
      omega

/-- The word read from the ring. -/
theorem intQ_eq {u t : Nat} (hu : u + r.delay.toNat = t + 1)
    (hlong : 2 ≤ r.delay.toNat) :
    (r.state (t + 1)).intQ = r.d u := by
  have h := r.filled t
  have hle := r.le_depth
  show (r.state t).ram (rdAddr (r.state t)) = r.d u
  rw [rdAddr_eq h.rdPos (u := u) (by rw [h.intDelay]; exact hu)]
  exact h.ram u (by omega) (by omega)

/-- The output in a clock that is late enough. -/
theorem q_eq {u t : Nat} (hu : u + r.delay.toNat = t) :
    r.q t = r.d u := by
  have h := r.filled t
  unfold q output
  rw [h.intDelay]
  split_ifs with hzero hone
  · rw [show t = u by omega]
  · obtain rfl : t = u + 1 := by omega
    rfl
  · cases t with
    | zero => omega
    | succ t => exact r.intQ_eq hu (by omega)

/-- **The delay is exact**: while `valid` is high, which it is from clock
`delay` on, the output is the input of `delay` clocks ago. The bypasses and the
ring take over from each other without a seam: one clock more of delay is the
same output one clock later. -/
theorem delays_exactly :
    (∀ t, r.valid t = true ↔ 1 ≤ t ∧ r.delay.toNat ≤ t) ∧
    (∀ t, r.valid t = true → r.q t = r.d (t - r.delay.toNat)) ∧
    ∀ r' : Run depthBits width,
      r'.d = r.d → r'.delay.toNat = r.delay.toNat + 1 →
      ∀ t, r.valid t = true →
        r'.valid (t + 1) = true ∧ r'.q (t + 1) = r.q t := by
  refine ⟨r.valid_iff, fun t hvalid => ?_, fun r' hd hdelay t hvalid => ?_⟩
  · have hle := ((r.valid_iff t).mp hvalid).2
    exact r.q_eq (Nat.sub_add_cancel hle)
  · have hle := ((r.valid_iff t).mp hvalid).2
    refine ⟨(r'.valid_iff (t + 1)).mpr ⟨by omega, by omega⟩, ?_⟩
    rw [r.q_eq (Nat.sub_add_cancel hle),
      r'.q_eq (u := t - r.delay.toNat) (by omega), hd]

/-- Three clocks of delay in a ring of four words. -/
def threeOfFour : Run 2 8 :=
  { delay := 3
    le_depth := by decide
    before := ⟨4, 2, 1, 3, 77, true, fun _ => 99, 98⟩
    resetD := 55
    d := fun t => BitVec.ofNat 8 (10 + t) }

theorem delays_exactly_threeOfFour :
    threeOfFour.valid 9 = true ∧ threeOfFour.q 9 = 16 := by
  have hall := threeOfFour.delays_exactly
  have hvalid := (hall.1 9).mpr (by decide)
  exact ⟨hvalid, hall.2.1 9 hvalid⟩

end Run

end DataDelayer
end MollerFirmware
