import MollerFirmware.Clocked.Crossings
import MollerFirmware.Hdl.SigDelay

/-!
# SyncDecode: the receiver of the sync codes

The line is delayed and shifted into `ParSync`. A code is valid when the
register holds four ones, a zero, the code and four ones. Most codes make a
pulse of one clock; the codes 5 and 7 set a flag each, which waits for
`ClkSlow`.
-/

namespace MollerFirmware
namespace SyncDecode

open Clocked

structure Input where
  clkSlow : Bool
  sigDelayed : Bool

structure State where
  parSync : BitVec 16
  syncMon : BitVec 4
  syncRst : BitVec 4 → Bool
  reset : Bool
  readStartReg : Bool
  readStartInt : Bool
  writeStartReg : Bool
  writeStartInt : Bool

def initial : State where
  parSync := 0
  syncMon := 0
  syncRst := fun _ => false
  reset := false
  readStartReg := false
  readStartInt := false
  writeStartReg := false
  writeStartInt := false

/-- `ValidInt` -/
def State.validInt (s : State) : Bool :=
  s.parSync.getLsbD 12 && s.parSync.getLsbD 11 && s.parSync.getLsbD 10 &&
    s.parSync.getLsbD 9 && !s.parSync.getLsbD 8 && s.parSync.getLsbD 3 &&
    s.parSync.getLsbD 2 && s.parSync.getLsbD 1 && s.parSync.getLsbD 0

/-- `ParSync(7 downto 4)` -/
def State.code (s : State) : BitVec 4 :=
  s.parSync.extractLsb' 4 4

def State.valid (s : State) (c : BitVec 4) : Bool :=
  s.validInt && s.code == c

/-- The codes that have a bit of `SyncRst`; the other bits have no driver. -/
def resetCodes : List (BitVec 4) :=
  [1, 2, 3, 4, 6, 8, 9, 10, 11, 12, 14]

def step (s : State) (i : Input) : State where
  parSync := shiftLevel (w := 15) s.parSync i.sigDelayed
  syncMon := if s.validInt then s.code else s.syncMon
  syncRst := fun c => resetCodes.contains c && s.valid c
  reset := s.valid 13
  readStartReg := !s.readStartInt && (s.valid 5 || s.readStartReg)
  readStartInt := if i.clkSlow then s.readStartReg else s.readStartInt
  writeStartReg := !s.writeStartInt && (s.valid 7 || s.writeStartReg)
  writeStartInt := if i.clkSlow then s.writeStartReg else s.writeStartInt

section Receiver

variable (srl : SigDelay.Srlc32e) (clkSlow : Nat → Bool)
  (syncDly : Nat → BitVec 8) (syncIn : Nat → Bool)

/-- Registers before clock edge `t`. -/
def state (t : Nat) : State :=
  run step initial
    (fun u => ⟨clkSlow u, SigDelay.sigOut srl syncDly syncIn u⟩) t

theorem state_succ (t : Nat) :
    state srl clkSlow syncDly syncIn (t + 1) =
      step (state srl clkSlow syncDly syncIn t)
        ⟨clkSlow t, SigDelay.sigOut srl syncDly syncIn t⟩ := by
  rfl

/-- `ValidCode` -/
def validCode (t : Nat) : Bool :=
  (state srl clkSlow syncDly syncIn t).validInt

/-- Clocks in which the code `c` is valid. -/
def valid (c : BitVec 4) (t : Nat) : Bool :=
  (state srl clkSlow syncDly syncIn t).valid c

/-- `SyncRst(c)` -/
def syncRst (c : BitVec 4) (t : Nat) : Bool :=
  (state srl clkSlow syncDly syncIn t).syncRst c

/-- `Reset` -/
def reset (t : Nat) : Bool :=
  (state srl clkSlow syncDly syncIn t).reset

/-- `ReadStart` -/
def readStart (t : Nat) : Bool :=
  (state srl clkSlow syncDly syncIn t).readStartInt

/-- `WriteStart` -/
def writeStart (t : Nat) : Bool :=
  (state srl clkSlow syncDly syncIn t).writeStartInt

/-! ## What is in the shift register -/

theorem parSync_getLsbD (t : Nat) {b : Nat} (hb : b ≤ 15) :
    (state srl clkSlow syncDly syncIn t).parSync.getLsbD b =
      delayed (b + 1) (SigDelay.sigOut srl syncDly syncIn) t := by
  have hfilters : Filters (w := 15)
      (fun u => (state srl clkSlow syncDly syncIn u).parSync)
      (SigDelay.sigOut srl syncDly syncIn) := fun _ => rfl
  exact hfilters.getLsbD_eq rfl t hb

/-- A word is valid when it ends a frame. -/
theorem validCode_iff (t : Nat) :
    validCode srl clkSlow syncDly syncIn t = true ↔
      9 ≤ t ∧ Framed 4 (SigDelay.sigOut srl syncDly syncIn) (t - 9) := by
  have hbit := fun b hb =>
    parSync_getLsbD srl clkSlow syncDly syncIn t (b := b) hb
  rw [validCode, State.validInt, hbit 12 (by omega), hbit 11 (by omega),
    hbit 10 (by omega), hbit 9 (by omega), hbit 8 (by omega),
    hbit 3 (by omega), hbit 2 (by omega), hbit 1 (by omega),
    hbit 0 (by omega)]
  generalize SigDelay.sigOut srl syncDly syncIn = sig
  by_cases ht : 13 ≤ t
  · obtain ⟨u, rfl⟩ : ∃ u, t = u + 13 := ⟨t - 13, by omega⟩
    have hlevel : ∀ k, k ≤ 13 →
        delayed (13 - k) sig (u + 13) = sig (u + k) := by
      intro k hk
      rw [show u + 13 = u + k + (13 - k) by omega, delayed_add]
    rw [hlevel 0 (by omega), hlevel 1 (by omega), hlevel 2 (by omega),
      hlevel 3 (by omega), hlevel 4 (by omega), hlevel 9 (by omega),
      hlevel 10 (by omega), hlevel 11 (by omega), hlevel 12 (by omega)]
    simp only [Bool.and_eq_true, Bool.not_eq_true']
    constructor
    · rintro ⟨⟨⟨⟨⟨⟨⟨⟨h0, h1⟩, h2⟩, h3⟩, h4⟩, h9⟩, h10⟩, h11⟩, h12⟩
      refine ⟨by omega, by omega, h4, fun i hi => ?_⟩
      have hcases : i = 0 ∨ i = 1 ∨ i = 2 ∨ i = 3 := by omega
      rcases hcases with rfl | rfl | rfl | rfl
      · exact ⟨h0, h9⟩
      · exact ⟨h1, h10⟩
      · exact ⟨h2, h11⟩
      · exact ⟨h3, h12⟩
    · rintro ⟨-, -, h4, hones⟩
      have h0 := hones 0 (by omega)
      have h1 := hones 1 (by omega)
      have h2 := hones 2 (by omega)
      have h3 := hones 3 (by omega)
      exact ⟨⟨⟨⟨⟨⟨⟨⟨h0.1, h1.1⟩, h2.1⟩, h3.1⟩, h4⟩, h0.2⟩, h1.2⟩, h2.2⟩, h3.2⟩
  · have hlow : delayed 13 sig t = false := by
      simp [delayed, ht]
    rw [hlow]
    constructor
    · intro h
      simp at h
    · rintro ⟨hle, hframe, -⟩
      omega

theorem code_getMsbD (t : Nat) {i : Nat} (hi : i < 4) :
    (state srl clkSlow syncDly syncIn t).code.getMsbD i =
      delayed (8 - i) (SigDelay.sigOut srl syncDly syncIn) t := by
  rw [State.code, BitVec.getMsbD_eq_getLsbD, BitVec.getLsbD_extractLsb',
    decide_eq_true hi, decide_eq_true (by omega), Bool.true_and, Bool.true_and,
    parSync_getLsbD _ _ _ _ _ (by omega)]
  congr 1
  omega

/-! ## What is received of a line of frames -/

variable {srl clkSlow syncDly syncIn} {d : Nat} {start line : Nat → Bool}
  {frameCode : Nat → BitVec 4}

/-- The valid words are the frames of the line, each of them once. -/
theorem validCode_eq (h : Frames 4 start frameCode line)
    (hspaced : Spaced 9 start) (hfirst : ∀ s, start s = true → 4 ≤ s)
    (hline : SigDelay.sigOut srl syncDly syncIn = delayed d line) :
    validCode srl clkSlow syncDly syncIn = delayed (d + 9) start := by
  funext t
  rw [Bool.eq_iff_iff, validCode_iff, hline, framed_delayed_iff (by omega),
    h.found_iff hspaced hfirst, delayed_eq_true_iff,
    show t - 9 - d = t - (d + 9) by omega]
  constructor
  · rintro ⟨h9, hd, hstart⟩
    exact ⟨by omega, hstart⟩
  · rintro ⟨hle, hstart⟩
    exact ⟨by omega, by omega, hstart⟩

/-- The code of a frame is found where it is valid. -/
theorem code_eq (h : Frames 4 start frameCode line)
    (hline : SigDelay.sigOut srl syncDly syncIn = delayed d line) {s : Nat}
    (hs : start s = true) :
    (state srl clkSlow syncDly syncIn (s + (d + 9))).code = frameCode s := by
  refine BitVec.eq_of_getMsbD_eq fun i hi => ?_
  rw [code_getMsbD _ _ _ _ _ hi, hline, delayed_delayed,
    show s + (d + 9) = s + 1 + i + (8 - i + d) by omega, delayed_add,
    h.codeBit s hs i hi]

theorem valid_eq (h : Frames 4 start frameCode line)
    (hspaced : Spaced 9 start) (hfirst : ∀ s, start s = true → 4 ≤ s)
    (hline : SigDelay.sigOut srl syncDly syncIn = delayed d line)
    (c : BitVec 4) :
    valid srl clkSlow syncDly syncIn c =
      delayed (d + 9) (fun s => start s && frameCode s == c) := by
  funext t
  have hvalid : (state srl clkSlow syncDly syncIn t).validInt =
      delayed (d + 9) start t :=
    congrFun (validCode_eq h hspaced hfirst hline) t
  rw [valid, State.valid, hvalid, delayed, delayed]
  by_cases hle : d + 9 ≤ t
  · obtain ⟨s, rfl⟩ : ∃ s, t = s + (d + 9) := ⟨t - (d + 9), by omega⟩
    rw [Nat.add_sub_cancel, decide_eq_true (by omega), Bool.true_and,
      Bool.true_and]
    cases hs : start s with
    | false =>
        rfl
    | true =>
        rw [code_eq h hline hs]
  · simp [hle]

theorem syncRst_eq {c : BitVec 4} (hc : c ∈ resetCodes) :
    syncRst srl clkSlow syncDly syncIn c =
      delayed 1 (valid srl clkSlow syncDly syncIn c) := by
  refine delayed_one_of_succ rfl fun t => ?_
  show (resetCodes.contains c && _) = _
  rw [List.contains_iff_mem.mpr hc, Bool.true_and]
  rfl

theorem reset_eq :
    reset srl clkSlow syncDly syncIn =
      delayed 1 (valid srl clkSlow syncDly syncIn 13) :=
  delayed_one_of_succ rfl fun _ => rfl

/-! ## The two flags -/

variable (srl clkSlow syncDly syncIn) in
theorem readStart_crossing :
    FlagCrossing clkSlow (valid srl clkSlow syncDly syncIn 5)
      (fun t => (state srl clkSlow syncDly syncIn t).readStartReg)
      (readStart srl clkSlow syncDly syncIn) where
  flag_zero := rfl
  flag_succ := fun _ => rfl
  out_zero := rfl
  out_succ := fun _ => rfl

variable (srl clkSlow syncDly syncIn) in
theorem writeStart_crossing :
    FlagCrossing clkSlow (valid srl clkSlow syncDly syncIn 7)
      (fun t => (state srl clkSlow syncDly syncIn t).writeStartReg)
      (writeStart srl clkSlow syncDly syncIn) where
  flag_zero := rfl
  flag_succ := fun _ => rfl
  out_zero := rfl
  out_succ := fun _ => rfl

end Receiver

end SyncDecode
end MollerFirmware
