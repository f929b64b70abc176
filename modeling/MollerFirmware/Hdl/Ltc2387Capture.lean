import MollerFirmware.Clocked.Delays
import Mathlib.Data.BitVec

/-!
# ltc2387_deserializer: capture

The part of the deserializer in the domain of `clk`. In every clock each
channel gets two half-periods of its three lines from the DDR inputs, the
earlier one in the `_r` inputs. `dco` remembers the last ten half-periods of
the data clock and `data` the last ten pairs of data bits. A burst of five
pulses moves through `dco` two places a clock, and the pattern that marks the
end of the word depends on the half of the pair the burst began in.

A run starts with arbitrary registers: what was captured before does not
matter.
-/

namespace MollerFirmware
namespace Ltc2387
namespace Capture

open Clocked

/-- The DDR inputs of a channel in one clock. -/
structure Pair where
  dcoR : Bool
  dcoF : Bool
  daR : Bool
  daF : Bool
  dbR : Bool
  dbF : Bool

/-- Registers of a channel. -/
structure Channel where
  data : BitVec 20
  dco : BitVec 10
  qChValid : Bool
  qData : BitVec 18

/-- Registers of the domain. -/
structure State (numAdc : Nat) where
  qCount : BitVec 4
  qTs : BitVec 64
  qValid : Bool
  ts : BitVec 64
  ch : Fin numAdc → Channel

/-- Inputs in one clock; `tsValid` and `tsD` come from the time stamp
buffer. -/
structure Input (numAdc : Nat) where
  tsValid : Bool
  tsD : BitVec 64
  ddr : Fin numAdc → Pair

variable {numAdc : Nat}

/-- A clock edge of a channel with `rst` low. -/
def channelStep (qValid : Bool) (c : Channel) (i : Pair) : Channel :=
  { data :=
      c.data.setWidth 16 ++ BitVec.ofBool i.daR ++ BitVec.ofBool i.dbR ++
        BitVec.ofBool i.daF ++ BitVec.ofBool i.dbF
    dco := c.dco.setWidth 8 ++ BitVec.ofBool i.dcoR ++ BitVec.ofBool i.dcoF
    qChValid :=
      if qValid then false
      else if c.dco = 0x0AA then true
      else if c.dco = 0x155 then true
      else c.qChValid
    qData :=
      if qValid then 0
      else if c.dco = 0x0AA then c.data.extractLsb' 0 18
      else if c.dco = 0x155 then c.data.extractLsb' 2 18
      else c.qData }

/-- A clock edge with `rst` low. -/
def step (s : State numAdc) (i : Input numAdc) : State numAdc :=
  { qCount :=
      if i.tsValid then 3
      else if s.qCount ≠ 0 then s.qCount - 1
      else 0
    qValid := if i.tsValid then false else decide (s.qCount = 1)
    qTs := if i.tsValid then 0 else if s.qCount = 1 then s.ts else 0
    ts := if i.tsValid then i.tsD else s.ts
    ch := fun n => channelStep s.qValid (s.ch n) (i.ddr n) }

/-- A run from any registers. -/
structure Run (numAdc : Nat) where
  before : State numAdc
  input : Nat → Input numAdc

/-- A line over half-periods, of which every clock sees two. -/
def halves (first second : Nat → Bool) (i : Nat) : Bool :=
  if i % 2 = 0 then first (i / 2) else second (i / 2)

namespace Run

variable (r : Run numAdc) (n : Fin numAdc)

/-- Registers before clock edge `t`. -/
def state (t : Nat) : State numAdc :=
  run step r.before r.input t

/-- Registers of a channel. -/
def ch (t : Nat) : Channel :=
  (r.state t).ch n

/-- `q_valid` -/
def qValid (t : Nat) : Bool :=
  (r.state t).qValid

/-- DCO -/
def dcoLine : Nat → Bool :=
  halves (fun t => ((r.input t).ddr n).dcoR) (fun t => ((r.input t).ddr n).dcoF)

/-- DA -/
def daLine : Nat → Bool :=
  halves (fun t => ((r.input t).ddr n).daR) (fun t => ((r.input t).ddr n).daF)

/-- DB -/
def dbLine : Nat → Bool :=
  halves (fun t => ((r.input t).ddr n).dbR) (fun t => ((r.input t).ddr n).dbF)

/-- The lines of a channel up to clock `T` as the converter drives them for
the word `w`: after at least two low pairs, five pulses of DCO from half-period
`p` on, and the word on DA and DB, two bits a half-period, from the half-period
before. -/
structure Burst (T p : Nat) (w : BitVec 18) : Prop where
  low : 4 ≤ p
  fits : p + 10 ≤ 2 * T
  dco : ∀ i, i < 2 * T →
    r.dcoLine n i = decide (p ≤ i ∧ i < p + 10 ∧ (i - p) % 2 = 0)
  da : ∀ j, j < 9 → r.daLine n (p - 1 + j) = w.getLsbD (17 - 2 * j)
  db : ∀ j, j < 9 → r.dbLine n (p - 1 + j) = w.getLsbD (16 - 2 * j)

variable {r n}

theorem ch_succ (t : Nat) :
    r.ch n (t + 1) =
      channelStep (r.qValid t) (r.ch n t) ((r.input t).ddr n) := by
  rfl

theorem halves_even (f g : Nat → Bool) (t : Nat) :
    halves f g (2 * t) = f t := by
  unfold halves
  rw [if_pos (by omega), show 2 * t / 2 = t by omega]

theorem halves_odd (f g : Nat → Bool) (t : Nat) :
    halves f g (2 * t + 1) = g t := by
  unfold halves
  rw [if_neg (by omega), show (2 * t + 1) / 2 = t by omega]

/-- Two half-periods of DCO are shifted in with every clock. -/
theorem dco_shiftsIn (r : Run numAdc) (n : Fin numAdc) (T : Nat) :
    ShiftsIn 10 2 T (fun t b => (r.ch n t).dco.getLsbD b)
      (fun t b => r.dcoLine n (2 * t + 1 - b)) := by
  intro t _ b hb
  have hnext : (r.ch n (t + 1)).dco =
      (r.ch n t).dco.setWidth 8 ++
        BitVec.ofBool ((r.input t).ddr n).dcoR ++
        BitVec.ofBool ((r.input t).ddr n).dcoF := by
    rfl
  simp only [hnext]
  rw [BitVec.getLsbD_append, BitVec.getLsbD_append, BitVec.getLsbD_setWidth]
  unfold dcoLine
  rcases (by omega : b = 0 ∨ b = 1 ∨ 2 ≤ b) with rfl | rfl | hold
  · simp [halves_odd]
  · simp [halves_even]
  · rw [if_neg (by omega), if_neg (by omega), if_neg (by omega),
      show b - 1 - 1 = b - 2 by omega]
    simp
    omega

/-- Two bits of each data line are shifted in with every clock. -/
theorem data_shiftsIn (r : Run numAdc) (n : Fin numAdc) (T : Nat) :
    ShiftsIn 20 4 T (fun t b => (r.ch n t).data.getLsbD b)
      (fun t b =>
        if b % 2 = 1 then r.daLine n (2 * t + 1 - b / 2)
        else r.dbLine n (2 * t + 1 - b / 2)) := by
  intro t _ b hb
  have hnext : (r.ch n (t + 1)).data =
      (r.ch n t).data.setWidth 16 ++
        BitVec.ofBool ((r.input t).ddr n).daR ++
        BitVec.ofBool ((r.input t).ddr n).dbR ++
        BitVec.ofBool ((r.input t).ddr n).daF ++
        BitVec.ofBool ((r.input t).ddr n).dbF := by
    rfl
  simp only [hnext]
  rw [BitVec.getLsbD_append, BitVec.getLsbD_append, BitVec.getLsbD_append,
    BitVec.getLsbD_append, BitVec.getLsbD_setWidth]
  unfold daLine dbLine
  rcases (by omega : b = 0 ∨ b = 1 ∨ b = 2 ∨ b = 3 ∨ 4 ≤ b) with
    rfl | rfl | rfl | rfl | hold
  · simp [halves_odd]
  · simp [halves_odd]
  · simp [halves_even]
  · simp [halves_even]
  · rw [if_neg (by omega), if_neg (by omega), if_neg (by omega),
      if_neg (by omega), if_neg (by omega),
      show b - 1 - 1 - 1 - 1 = b - 4 by omega]
    simp
    omega

/-- Bit `c` of the DCO register is the half-period `c` half-periods ago. -/
theorem dco_getLsbD {s c : Nat} (hc : c < 10) (hs : c / 2 < s) :
    (r.ch n s).dco.getLsbD c = r.dcoLine n (2 * s - 1 - c) := by
  have hread := (dco_shiftsIn r n s).read (t := s - 1 - c / 2) (j := c / 2)
    (b := c % 2) (by omega) (by omega) (by omega)
  rw [show s - 1 - c / 2 + 1 + c / 2 = s by omega,
    show c % 2 + 2 * (c / 2) = c by omega] at hread
  rw [hread]
  congr 1
  omega

/-- Bits `2 c` and `2 c + 1` of the data register are the bits of DB and DA
`c` half-periods ago. -/
theorem data_getLsbD {s c : Nat} (hc : c < 20) (hs : c / 4 < s) :
    (r.ch n s).data.getLsbD c =
      if c % 2 = 1 then r.daLine n (2 * s - 1 - c / 2)
      else r.dbLine n (2 * s - 1 - c / 2) := by
  have hread := (data_shiftsIn r n s).read (t := s - 1 - c / 4) (j := c / 4)
    (b := c % 4) (by omega) (by omega) (by omega)
  rw [show s - 1 - c / 4 + 1 + c / 4 = s by omega,
    show c % 4 + 4 * (c / 4) = c by omega,
    show c % 4 % 2 = c % 2 by omega,
    show 2 * (s - 1 - c / 4) + 1 - c % 4 / 2 = 2 * s - 1 - c / 2 by omega]
    at hread
  exact hread

/-! ## The two patterns -/

theorem pattern0AA_getLsbD {c : Nat} (hc : c < 10) :
    (0x0AA : BitVec 10).getLsbD c = decide (c % 2 = 1 ∧ c < 8) := by
  interval_cases c <;> rfl

theorem pattern155_getLsbD {c : Nat} (hc : c < 10) :
    (0x155 : BitVec 10).getLsbD c = decide (c % 2 = 0) := by
  interval_cases c <;> rfl

variable {T p : Nat} {w : BitVec 18}

/-- A high bit of the DCO register is a pulse of the burst. -/
theorem Burst.pulse (hb : Burst r n T p w) {s c : Nat}
    (hc : c < 10) (hs : c / 2 < s) (hT : s ≤ T)
    (hhigh : (r.ch n s).dco.getLsbD c = true) :
    p + c + 1 ≤ 2 * s ∧ 2 * s < p + c + 11 ∧ (2 * s - 1 - c - p) % 2 = 0 := by
  rw [dco_getLsbD hc hs, hb.dco _ (by omega), decide_eq_true_eq] at hhigh
  omega

/-- A low bit of the DCO register is not. -/
theorem Burst.no_pulse (hb : Burst r n T p w) {s c : Nat}
    (hc : c < 10) (hs : c / 2 < s) (hT : s ≤ T)
    (hlow : (r.ch n s).dco.getLsbD c = false) :
    ¬ (p + c + 1 ≤ 2 * s ∧ 2 * s < p + c + 11 ∧
      (2 * s - 1 - c - p) % 2 = 0) := by
  rw [dco_getLsbD hc hs, hb.dco _ (by omega), decide_eq_false_iff_not] at hlow
  omega

/-- The first pattern shows when the burst began in the first half of a pair
and four pairs of it have been seen. -/
theorem Burst.pattern0AA_iff (hb : Burst r n T p w) {s : Nat}
    (hs : 1 ≤ s) (hT : s ≤ T) :
    (r.ch n s).dco = 0x0AA ↔ 2 * s = p + 8 := by
  have hlow := hb.low
  constructor
  · intro hdco
    have hbit : ∀ c, c < 10 →
        (r.ch n s).dco.getLsbD c = decide (c % 2 = 1 ∧ c < 8) := by
      intro c hc
      rw [hdco, pattern0AA_getLsbD hc]
    -- the newest pulses show that enough pairs have been shifted in
    have h1 := hb.pulse (c := 1) (by omega) (by omega) hT (hbit 1 (by omega))
    have h3 := hb.pulse (c := 3) (by omega) (by omega) hT (hbit 3 (by omega))
    have h5 := hb.pulse (c := 5) (by omega) (by omega) hT (hbit 5 (by omega))
    have h7 := hb.pulse (c := 7) (by omega) (by omega) hT (hbit 7 (by omega))
    have h9 := hb.no_pulse (c := 9) (by omega) (by omega) hT (hbit 9 (by omega))
    omega
  · intro hmatch
    apply BitVec.eq_of_getLsbD_eq
    intro c hc
    rw [dco_getLsbD hc (by omega), hb.dco _ (by omega),
      pattern0AA_getLsbD hc, decide_eq_decide]
    omega

/-- The second pattern shows when the burst began in the second half of a pair
and all of it has been seen. -/
theorem Burst.pattern155_iff (hb : Burst r n T p w) {s : Nat}
    (hs : 1 ≤ s) (hT : s ≤ T) :
    (r.ch n s).dco = 0x155 ↔ 2 * s = p + 9 := by
  have hlow := hb.low
  constructor
  · intro hdco
    have hbit : ∀ c, c < 10 →
        (r.ch n s).dco.getLsbD c = decide (c % 2 = 0) := by
      intro c hc
      rw [hdco, pattern155_getLsbD hc]
    have h0 := hb.pulse (c := 0) (by omega) (by omega) hT (hbit 0 (by omega))
    have h2 := hb.pulse (c := 2) (by omega) (by omega) hT (hbit 2 (by omega))
    have h4 := hb.pulse (c := 4) (by omega) (by omega) hT (hbit 4 (by omega))
    have h8 := hb.pulse (c := 8) (by omega) (by omega) hT (hbit 8 (by omega))
    omega
  · intro hmatch
    apply BitVec.eq_of_getLsbD_eq
    intro c hc
    rw [dco_getLsbD hc (by omega), hb.dco _ (by omega),
      pattern155_getLsbD hc, decide_eq_decide]
    omega

/-- The clock in which the pattern shows. -/
def matchClock (p : Nat) : Nat :=
  (p + 9) / 2

/-- Exactly one clock shows a pattern, in either phase. -/
theorem Burst.pattern_iff (hb : Burst r n T p w) {s : Nat}
    (hs : 1 ≤ s) (hT : s ≤ T) :
    ((r.ch n s).dco = 0x0AA ∨ (r.ch n s).dco = 0x155) ↔ s = matchClock p := by
  rw [hb.pattern0AA_iff hs hT, hb.pattern155_iff hs hT]
  unfold matchClock
  omega

/-- The data register then holds the word, in the slice that belongs to the
pattern. -/
theorem Burst.data_at_match (hb : Burst r n T p w) {c : Nat} (hc : c < 18)
    {s o : Nat} (ho : o ≤ 2) (hmatch : 2 * s = p + 8 + o / 2)
    (hpair : o % 2 = 0) :
    (r.ch n s).data.getLsbD (o + c) = w.getLsbD c := by
  have hlow := hb.low
  have hda := hb.da (8 - c / 2) (by omega)
  have hdb := hb.db (8 - c / 2) (by omega)
  have hhalf : 2 * s - 1 - (o + c) / 2 = p - 1 + (8 - c / 2) := by omega
  rw [data_getLsbD (by omega) (by omega), hhalf]
  split_ifs with hodd
  · rw [hda]
    congr 1
    omega
  · rw [hdb]
    congr 1
    omega

/-- What the capture register takes in the clock of the pattern. -/
theorem Burst.capture (hb : Burst r n T p w)
    (hq : r.qValid (matchClock p) = false) :
    (r.ch n (matchClock p + 1)).qChValid = true ∧
      (r.ch n (matchClock p + 1)).qData = w := by
  have hlow := hb.low
  have hfits := hb.fits
  have h0AA := hb.pattern0AA_iff (s := matchClock p)
    (by unfold matchClock; omega) (by unfold matchClock; omega)
  have h155 := hb.pattern155_iff (s := matchClock p)
    (by unfold matchClock; omega) (by unfold matchClock; omega)
  rw [ch_succ]
  unfold channelStep
  rw [hq]
  simp only [Bool.false_eq_true, if_false]
  by_cases hfirst : 2 * matchClock p = p + 8
  · rw [if_pos (h0AA.mpr hfirst), if_pos (h0AA.mpr hfirst)]
    refine ⟨rfl, BitVec.eq_of_getLsbD_eq (fun c hc => ?_)⟩
    have hdata := hb.data_at_match hc (s := matchClock p) (o := 0)
      (by omega) hfirst (by omega)
    rw [BitVec.getLsbD_extractLsb', hdata]
    simp [hc]
  · have hsecond : 2 * matchClock p = p + 9 := by
      unfold matchClock at hfirst ⊢
      omega
    rw [if_neg (fun h => hfirst (h0AA.mp h)), if_neg (fun h => hfirst (h0AA.mp h)),
      if_pos (h155.mpr hsecond), if_pos (h155.mpr hsecond)]
    refine ⟨rfl, BitVec.eq_of_getLsbD_eq (fun c hc => ?_)⟩
    have hdata := hb.data_at_match hc (s := matchClock p) (o := 2)
      (by omega) hsecond (by omega)
    rw [BitVec.getLsbD_extractLsb', hdata]
    simp [hc]

/-- A captured sample stays until `q_valid`. -/
theorem Burst.held (hb : Burst r n T p w) {u : Nat}
    (hu : matchClock p < u) (hT : u ≤ T + 1)
    (hq : ∀ v, matchClock p ≤ v → v < u → r.qValid v = false) :
    (r.ch n u).qChValid = true ∧ (r.ch n u).qData = w := by
  induction u, hu using Nat.le_induction with
  | base =>
      exact hb.capture (hq _ (le_refl _) (by omega))
  | succ u hu ih =>
      obtain ⟨hvalid, hdata⟩ := ih (by omega)
        (fun v hv hvu => hq v hv (by omega))
      have hnone : ¬ ((r.ch n u).dco = 0x0AA ∨ (r.ch n u).dco = 0x155) := by
        rw [hb.pattern_iff (by omega) (by omega)]
        omega
      rw [not_or] at hnone
      rw [ch_succ]
      unfold channelStep
      rw [hq u (by omega) (by omega)]
      simp only [Bool.false_eq_true, if_false]
      rw [if_neg hnone.1, if_neg hnone.2, if_neg hnone.1, if_neg hnone.2]
      exact ⟨hvalid, hdata⟩

/-- **Every sample is recovered in both clock phases.** One clock shows one of
the patterns; in the next one the word is out, and it stays until `q_valid`. -/
theorem recovers_sample (r : Run numAdc) (n : Fin numAdc)
    (T p : Nat) (w : BitVec 18) (hb : Burst r n T p w)
    (hq : r.qValid (matchClock p) = false) :
    (∀ t, 1 ≤ t → t ≤ T →
      (((r.ch n t).dco = 0x0AA ∨ (r.ch n t).dco = 0x155) ↔
        t = matchClock p)) ∧
    ((r.ch n (matchClock p + 1)).qChValid = true ∧
      (r.ch n (matchClock p + 1)).qData = w) ∧
    ∀ u, matchClock p < u → u ≤ T + 1 →
      (∀ v, matchClock p ≤ v → v < u → r.qValid v = false) →
      (r.ch n u).qChValid = true ∧ (r.ch n u).qData = w := by
  refine ⟨fun t ht hT => hb.pattern_iff ht hT, hb.capture hq,
    fun u hu hT hlow => hb.held hu hT hlow⟩

/-- A line given over half-periods. -/
theorem halves_self (f : Nat → Bool) (i : Nat) :
    halves (fun t => f (2 * t)) (fun t => f (2 * t + 1)) i = f i := by
  unfold halves
  split_ifs with heven
  · exact congrArg f (by omega)
  · exact congrArg f (by omega)

/-- The pulses of DCO from half-period `p` on. -/
def burstDco (p i : Nat) : Bool :=
  decide (p ≤ i ∧ i < p + 10 ∧ (i - p) % 2 = 0)

/-- A data line that carries the bits `o`, `o - 2`, ... of a word. -/
def burstData (p o : Nat) (w : BitVec 18) (i : Nat) : Bool :=
  w.getLsbD (o - 2 * (i + 1 - p))

/-- One channel, driven with the word `w` from half-period `p` on. -/
def drivenRun (p : Nat) (w : BitVec 18) : Run 1 :=
  { before := ⟨0, 0, false, 0, fun _ => ⟨0, 0x2AA, false, 0⟩⟩
    input := fun t =>
      { tsValid := false
        tsD := 0
        ddr := fun _ =>
          { dcoR := burstDco p (2 * t)
            dcoF := burstDco p (2 * t + 1)
            daR := burstData p 17 w (2 * t)
            daF := burstData p 17 w (2 * t + 1)
            dbR := burstData p 16 w (2 * t)
            dbF := burstData p 16 w (2 * t + 1) } } }

theorem drivenRun_burst {T p : Nat} (w : BitVec 18)
    (hp : 4 ≤ p) (hT : p + 10 ≤ 2 * T) :
    Burst (drivenRun p w) 0 T p w := by
  refine ⟨hp, hT, fun i _ => halves_self (burstDco p) i, fun j _ => ?_,
    fun j _ => ?_⟩
  · refine (halves_self (burstData p 17 w) (p - 1 + j)).trans ?_
    unfold burstData
    rw [show p - 1 + j + 1 - p = j by omega]
  · refine (halves_self (burstData p 16 w) (p - 1 + j)).trans ?_
    unfold burstData
    rw [show p - 1 + j + 1 - p = j by omega]

/-- A burst that begins in the second half of a pair. -/
theorem recovers_sample_secondHalf :
    ((drivenRun 5 0x2A5C3).ch 0 8).qChValid = true ∧
      ((drivenRun 5 0x2A5C3).ch 0 8).qData = 0x2A5C3 :=
  (recovers_sample (drivenRun 5 0x2A5C3) 0 10 5 0x2A5C3
    (drivenRun_burst _ (by omega) (by omega)) (by decide +kernel)).2.1

end Run
end Capture
end Ltc2387
end MollerFirmware
