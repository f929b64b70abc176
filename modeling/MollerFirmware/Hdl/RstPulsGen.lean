import MollerFirmware.Clocked.OneShots
import MollerFirmware.Hdl.TCSsyncNode

/-!
# RstPulsGen: resets of a set width

A reset code opens a pulse that is cleared when it comes back through a
`SigDelay`. Other codes give a short reset, one of about four microseconds, and
one that stays until it is taken back. The internal reset is the first three of
them.

In `TCSsyncNode` the codes come from the receivers of the sync link.
-/

namespace MollerFirmware
namespace RstPulsGen

open Clocked

/-- `clkSlow` are the clocks with an edge of `ClkSlow`, and `longW` is what
comes back through the delay on this clock. -/
structure Input where
  clkSlow : Bool
  tsTdRst : Bool
  subRst : Bool
  tsRst : Bool
  syncSrcEn : BitVec 8
  syncRst : BitVec 4 → Bool
  sToutEn : Bool
  longW : Bool

/-- `PreRst(0)` -/
def Input.preRst0 (i : Input) : Bool :=
  (i.tsTdRst && i.syncSrcEn.getLsbD 1) || (i.subRst && i.syncSrcEn.getLsbD 2) ||
    (i.tsRst && i.syncSrcEn.getLsbD 4)

structure State where
  preRst1 : Bool
  preRst2 : Bool
  preRst3 : Bool
  preRst4 : Bool
  preRst6 : Bool
  preRst7 : Bool
  rstEnd : Bool
  cnt4us : BitVec 8
  tc4us : Bool

def initial : State where
  preRst1 := false
  preRst2 := false
  preRst3 := false
  preRst4 := false
  preRst6 := false
  preRst7 := false
  rstEnd := false
  cnt4us := 0
  tc4us := false

def step (widthSet : BitVec 8) (s : State) (shortW : Bool) (i : Input) :
    State where
  preRst1 :=
    if s.rstEnd then false else if i.preRst0 then true else s.preRst1
  preRst2 :=
    if s.preRst7 then false
    else if i.syncSrcEn.getLsbD 7 && i.syncRst 12 then true else s.preRst2
  preRst3 :=
    if s.tc4us then false else if i.syncRst 14 then true else s.preRst3
  preRst4 :=
    if i.syncRst 12 || !i.syncSrcEn.getLsbD 7 then false
    else if i.syncRst 9 && i.syncSrcEn.getLsbD 7 then true else s.preRst4
  preRst6 := (s.preRst4 || s.preRst3) && i.sToutEn
  preRst7 := s.preRst1 || s.preRst2 || s.preRst3
  rstEnd := if widthSet.getLsbD 7 then i.longW else shortW
  cnt4us :=
    if i.clkSlow then if s.preRst3 then s.cnt4us + 1 else 0 else s.cnt4us
  tc4us :=
    if i.clkSlow then s.cnt4us == BitVec.allOnes 8 else s.tc4us

/-- `DelayVal` of `ShortRange`. -/
def shortDelay (widthSet : BitVec 8) : BitVec 8 :=
  (widthSet.extractLsb' 0 7).setWidth 8

/-- A run from power-up with the width in the short range. -/
structure Run where
  srl : SigDelay.Srlc32e
  widthSet : BitVec 8
  inp : Nat → Input
  short : widthSet.getLsbD 7 = false

namespace Run

variable (r : Run)

def state (t : Nat) : State :=
  (fedBack (step r.widthSet) State.preRst1
    (SigDelay.sigOut r.srl fun _ => shortDelay r.widthSet) initial r.inp t).1

def preRst1 (t : Nat) : Bool :=
  (r.state t).preRst1

def preRst0 (t : Nat) : Bool :=
  (r.inp t).preRst0

/-- `Reset` -/
def reset (t : Nat) : Bool :=
  (r.state t).preRst7

/-- `ShortW` -/
def shortW : Nat → Bool :=
  SigDelay.sigOut r.srl (fun _ => shortDelay r.widthSet) r.preRst1

/-- Clocks of a pulse. -/
def width : Nat :=
  r.widthSet.toNat + 4

theorem state_succ (t : Nat) :
    r.state (t + 1) =
      step r.widthSet (r.state t) (r.shortW t) (r.inp t) := by
  refine fedBack_succ (step r.widthSet) State.preRst1 initial r.inp ?_ t
  intro x y u hxy
  rw [SigDelay.sigOut_eq, SigDelay.sigOut_eq]
  exact causal_delayed _ x y u hxy

theorem toNat_shortDelay :
    (shortDelay r.widthSet).toNat = r.widthSet.toNat := by
  have hshort := r.short
  have hlt := r.widthSet.isLt
  rw [BitVec.getLsbD, Nat.testBit_eq_decide_div_mod_eq,
    decide_eq_false_iff_not] at hshort
  simp only [shortDelay, BitVec.toNat_setWidth, BitVec.extractLsb'_toNat,
    Nat.shiftRight_zero]
  omega

theorem rstEnd_eq (t : Nat) :
    (r.state t).rstEnd = delayed (r.widthSet.toNat + 3) r.preRst1 t := by
  have hnext : (fun u => (r.state u).rstEnd) = delayed 1 r.shortW :=
    delayed_one_of_succ rfl fun u => by
      rw [state_succ]
      simp only [step, r.short, Bool.false_eq_true, if_false]
  rw [shortW, SigDelay.sigOut_eq, toNat_shortDelay, delayed_delayed] at hnext
  rw [show r.widthSet.toNat + 3 = 1 + (r.widthSet.toNat + 2) by omega]
  exact congrFun hnext t

theorem oneShot :
    OneShot r.preRst0 (fun t => (r.state t).rstEnd) r.preRst1 where
  low := rfl
  next := by
    intro t
    rw [preRst1, state_succ, preRst1, preRst0]
    simp only [step]
    cases (r.state t).rstEnd <;> cases (r.inp t).preRst0 <;>
      cases (r.state t).preRst1 <;> rfl

theorem preRst1_iff (t : Nat) :
    r.preRst1 t = true ↔
      ∃ s, rises r.preRst1 s = true ∧ s < t ∧ t ≤ s + r.width := by
  rw [← r.oneShot.opens_eq_rises]
  exact (r.oneShot.timed_of_level r.rstEnd_eq).out_iff t

/-- A code in the time of two pulses after one that was taken is lost. -/
theorem rises_preRst1_iff (t : Nat) :
    rises r.preRst1 t = true ↔ r.preRst0 t = true ∧
      ∀ s, rises r.preRst1 s = true → s < t → s + 2 * r.width ≤ t := by
  rw [← r.oneShot.opens_eq_rises]
  exact r.oneShot.opens_of_level r.rstEnd_eq t

/-- The other resets stay off as long as their codes do. -/
theorem reset_succ (hoff : ∀ t, (r.inp t).syncSrcEn.getLsbD 7 = false)
    (hlong : ∀ t, (r.inp t).syncRst 14 = false) (t : Nat) :
    r.reset (t + 1) = r.preRst1 t := by
  have hlow : ∀ u, (r.state u).preRst2 = false ∧
      (r.state u).preRst3 = false := by
    intro u
    induction u with
    | zero =>
        exact ⟨rfl, rfl⟩
    | succ u ih =>
        rw [state_succ]
        simp only [step, hoff, hlong, ih.1, ih.2, Bool.false_and,
          Bool.false_eq_true, if_false, ite_self, and_self]
  rw [reset, state_succ]
  simp only [step, (hlow t).1, (hlow t).2, Bool.or_false]
  rfl

end Run

end RstPulsGen

namespace TCSsyncNode

open Clocked

/-- A node and what its resets are made with. -/
structure ResetNode where
  node : Node
  resetWidth : BitVec 8
  trgSyncOutEn : Nat → Bool
  longW : Nat → Bool
  short : resetWidth.getLsbD 7 = false

namespace ResetNode

variable (m : ResetNode)

/-- `PulseRstG` -/
def pulseRstG : Nat → Bool :=
  SyncDecode.reset m.node.srl m.node.clkSlow (fun _ => m.node.globalDelay)
    m.node.alignedSyncG

/-- `ResetPulseGeneration`; `PulseRstS` has no driver. -/
def pulses : RstPulsGen.Run where
  srl := m.node.srl
  widthSet := m.resetWidth
  inp := fun t =>
    { clkSlow := m.node.clkSlow t
      tsTdRst := m.pulseRstG t
      subRst := false
      tsRst := m.node.pulseRstL t
      syncSrcEn := m.node.syncSrcEn t
      syncRst := fun c => m.node.sReset c t
      sToutEn := m.trgSyncOutEn t
      longW := m.longW t }
  short := m.short

/-- `Reset` -/
def reset : Nat → Bool :=
  m.pulses.reset

/-- Clocks from a code in the generator to the reset. -/
def resetClocks : Nat :=
  m.node.loopbackClocks + 3

/-- Clocks in which the generator takes a reset code that opens a pulse. -/
def taken (s : Nat) : Bool :=
  rises m.pulses.preRst1 (s + (m.node.loopbackClocks + 1))

/-- Only the codes of the node itself, and not `0xCC`. -/
structure LoopbackOnly : Prop where
  master : m.node.masterMode.getLsbD 2 = false
  loopback : ∀ t, (m.node.syncSrcEn t).getLsbD 4 = true
  noGlobal : ∀ t, (m.node.syncSrcEn t).getLsbD 1 = false
  noForced : ∀ t, (m.node.syncSrcEn t).getLsbD 7 = false

variable {m}

theorem preRst0_eq (h : LoopbackOnly m) :
    m.pulses.preRst0 =
      delayed (m.node.loopbackClocks + 1) (m.node.sent 13) := by
  funext t
  rw [← m.node.pulseRstL_eq h.master, RstPulsGen.Run.preRst0,
    RstPulsGen.Input.preRst0]
  simp only [pulses, h.loopback, h.noGlobal, Bool.and_false, Bool.false_and,
    Bool.false_or, Bool.and_true]

theorem sent_of_rises (h : LoopbackOnly m) {t : Nat}
    (ht : rises m.pulses.preRst1 t = true) :
    ∃ s, t = s + (m.node.loopbackClocks + 1) ∧ m.taken s = true := by
  have hcode := ((m.pulses.rises_preRst1_iff t).mp ht).1
  rw [preRst0_eq h, delayed_eq_true_iff] at hcode
  obtain ⟨s, rfl⟩ := Nat.exists_eq_add_of_le' hcode.1
  exact ⟨s, rfl, ht⟩

theorem taken_iff (h : LoopbackOnly m) (s : Nat) :
    m.taken s = true ↔ m.node.sent 13 s = true ∧
      ∀ u, m.taken u = true → u < s → u + 2 * m.pulses.width ≤ s := by
  rw [taken, m.pulses.rises_preRst1_iff, preRst0_eq h, delayed_add]
  refine and_congr_right fun _ => ?_
  constructor
  · intro hapart u hu hus
    have := hapart _ hu (by omega)
    omega
  · intro hapart t ht hts
    obtain ⟨u, rfl, hu⟩ := sent_of_rises h ht
    have := hapart u hu (by omega)
    omega

theorem reset_iff (h : LoopbackOnly m)
    (hlong : ∀ s, m.node.sent 14 s = false) (t : Nat) :
    m.reset t = true ↔ ∃ s, m.taken s = true ∧ s + m.resetClocks ≤ t ∧
      t < s + m.resetClocks + m.pulses.width := by
  have hoff : ∀ u, (m.pulses.inp u).syncRst 14 = false := by
    intro u
    cases u with
    | zero =>
        rfl
    | succ u =>
        have hcode : m.node.lSyncRst 14 u = false := by
          rw [m.node.lSyncRst_eq h.master (by decide), delayed, hlong,
            Bool.and_false]
        simp only [pulses, Node.sReset, hcode, h.noGlobal, Bool.and_false,
          Bool.false_and, Bool.or_false]
  cases t with
  | zero =>
      refine iff_of_false Bool.false_ne_true ?_
      rintro ⟨s, -, hle, -⟩
      rw [resetClocks] at hle
      omega
  | succ t =>
      rw [reset, m.pulses.reset_succ h.noForced hoff, m.pulses.preRst1_iff,
        resetClocks]
      constructor
      · rintro ⟨v, hv, hvt, htv⟩
        obtain ⟨s, rfl, hs⟩ := sent_of_rises h hv
        exact ⟨s, hs, by omega, by omega⟩
      · rintro ⟨s, hs, hst, hts⟩
        exact ⟨_, hs, by omega, by omega⟩

/-- A node is reset by its own reset codes for exactly the set time each, and
a code in the time of two pulses after one that was taken is lost. -/
theorem resets_exact (m : ResetNode) (h : LoopbackOnly m)
    (hlong : ∀ s, m.node.sent 14 s = false) :
    (∀ t, m.reset t = true ↔ ∃ s, m.taken s = true ∧
      s + m.resetClocks ≤ t ∧ t < s + m.resetClocks + m.pulses.width) ∧
    ∀ s, m.taken s = true ↔ m.node.sent 13 s = true ∧
      ∀ u, m.taken u = true → u < s → u + 2 * m.pulses.width ≤ s :=
  ⟨reset_iff h hlong, taken_iff h⟩

/-- The node with a write of the reset code in the first clock. -/
def oneReset : ResetNode where
  node :=
    { Node.oneWrite with
      gen :=
        { Node.oneWrite.gen with
          inp := fun t =>
            { Node.oneWrite.gen.inp t with syncCode := 0xDD } } }
  resetWidth := 5
  trgSyncOutEn := fun _ => false
  longW := fun _ => false
  short := rfl

theorem loopbackOnly_oneReset : LoopbackOnly oneReset where
  master := rfl
  loopback := fun _ => (by decide : (0x10 : BitVec 8).getLsbD 4 = true)
  noGlobal := fun _ => (by decide : (0x10 : BitVec 8).getLsbD 1 = false)
  noForced := fun _ => (by decide : (0x10 : BitVec 8).getLsbD 7 = false)

theorem sent_oneReset (s : Nat) :
    oneReset.node.sent 14 s = false := by
  by_contra hset
  rw [Bool.not_eq_false, Node.sent, Bool.and_eq_true, beq_iff_eq] at hset
  have hmanual : oneReset.node.gen.Manual := fun _ => rfl
  obtain ⟨w, -, hcode⟩ := hmanual.holds_of_syncValid hset.1
  have hwritten : oneReset.node.gen.written w = 13 :=
    (by decide : (0xDD : BitVec 8).extractLsb' 0 4 = 13)
  rw [hset.2, hwritten] at hcode
  exact absurd hcode (by decide)

theorem resets_exact_oneReset :
    oneReset.reset 32 = true := by
  obtain ⟨hreset, htaken⟩ :=
    resets_exact oneReset loopbackOnly_oneReset sent_oneReset
  have hfirst : ∀ u, u < 14 → oneReset.node.sent 13 u = false := by
    decide
  have hopen : oneReset.taken 14 = true := by
    refine (htaken 14).mpr ⟨by decide, fun u hu hlt => ?_⟩
    have hearly := ((htaken u).mp hu).1
    rw [hfirst u hlt] at hearly
    exact Bool.noConfusion hearly
  exact (hreset 32).mpr ⟨14, hopen, by decide, by decide⟩

end ResetNode

end TCSsyncNode
end MollerFirmware
