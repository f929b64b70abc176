import MollerFirmware.Hdl.SigDelay

/-!
# SyncSGen: the generator of the sync codes

A code comes from a register write (`VSCode`, two equal halves) or from the
automatic sync request. Every 24 clocks there is a slot at which a waiting code
sets `VSBitEn(7)`, and from there a single one runs through `VSBitEn(6)`,
`(4)`, `(3)`, …, `(0)`, `(5)`: it loads `TSCodes`, puts the start bit and the
four bits of the code on the line, and clears what it has used on its way.

Three clocks drive the registers. `ClkSlow` is a quarter of `Clock`, and the
edges of `ClkCode` come at any time; all of them are given by the clocks of
`Clock` at whose end they fall. An asynchronous clear holds a register for as
long as its source is high, in the clock before an edge or in the one after it.
Registers without an initial value power up low.
-/

namespace MollerFirmware
namespace SyncSGen

open Clocked

structure Input where
  clkSlow : Bool
  clkCode : Bool
  syncCode : BitVec 8
  syncCodeEn : Bool
  tiBusy : BitVec 9
  sRespTI : BitVec 9
  sReqSet : Bool
  busySrcEn : BitVec 16
  reset : Bool
  autoSyncEn : Bool

structure State where
  syncGenEn1 : Bool
  syncGenEn2 : Bool
  syncGenEn3 : Bool
  syncGenEn7 : Bool
  vsCodeHigh : BitVec 4
  vsCodeLow : BitVec 4
  scValid : Bool
  sreqAuto1 : Bool
  sreqAuto2 : Bool
  sreqAuto3 : Bool
  sreqAuto5 : Bool
  sreqAuto6 : Bool
  sreqAuto7 : Bool
  vsBitEn7 : Bool
  vsBitEn6 : Bool
  vsBitEn5 : Bool
  vsBitEn4 : Bool
  vsBitEn3 : Bool
  vsBitEn2 : Bool
  vsBitEn1 : Bool
  vsBitEn0 : Bool
  tsCodes : BitVec 4
  trgSendEnInt : Bool
  trgSendEn : Bool

def initial : State where
  syncGenEn1 := false
  syncGenEn2 := false
  syncGenEn3 := false
  syncGenEn7 := false
  vsCodeHigh := 0
  vsCodeLow := 0
  scValid := false
  sreqAuto1 := false
  sreqAuto2 := false
  sreqAuto3 := false
  sreqAuto5 := false
  sreqAuto6 := false
  sreqAuto7 := false
  vsBitEn7 := false
  vsBitEn6 := false
  vsBitEn5 := false
  vsBitEn4 := false
  vsBitEn3 := false
  vsBitEn2 := false
  vsBitEn1 := false
  vsBitEn0 := false
  tsCodes := 0
  trgSendEnInt := false
  trgSendEn := false

/-- `SyncCode Valid check`: equal halves, neither 0 nor F. -/
def State.codeChecked (s : State) : Bool :=
  s.vsCodeHigh != 0b1111#4 && s.vsCodeHigh == s.vsCodeLow &&
    s.vsCodeHigh != 0#4

/-- `SreqAuto(0)` -/
def Input.sreqAuto0 (i : Input) : Bool :=
  (i.sRespTI ||| ~~~i.tiBusy ||| ~~~(i.busySrcEn.extractLsb' 7 9)) ==
      BitVec.allOnes 9 &&
    i.sReqSet && i.autoSyncEn

/-- A write of `SyncCode`. -/
def Input.writes (i : Input) : Bool :=
  i.clkCode && i.syncCodeEn

/-- The code that `TSCodes` takes. -/
def State.codeSent (s : State) : BitVec 4 :=
  if s.sreqAuto7 then 0b1110#4 else s.vsCodeLow

/-- `SyncDlyIn`: the line, before the delay. -/
def State.syncDlyIn (s : State) : Bool :=
  !(s.vsBitEn0 && !s.tsCodes.getLsbD 0) &&
    !(s.vsBitEn1 && !s.tsCodes.getLsbD 1) &&
    !(s.vsBitEn2 && !s.tsCodes.getLsbD 2) &&
    !(s.vsBitEn3 && !s.tsCodes.getLsbD 3) && !s.vsBitEn4

/-- `SyncValid` -/
def State.syncValid (s : State) : Bool :=
  s.vsBitEn6

/-- What a register takes that is cleared while `clear` is high; `clear` and
`clear'` are its values before and after the edge. -/
def unlessCleared {w : Nat} (clear clear' : Bool) (x : BitVec w) : BitVec w :=
  if clear || clear' then 0 else x

/-- An edge of `Clock`, with those of the other clocks that fall on it. -/
def step (s : State) (i : Input) : State where
  syncGenEn1 := if i.clkSlow then !s.syncGenEn3 else s.syncGenEn1
  syncGenEn2 := if i.clkSlow then s.syncGenEn1 else s.syncGenEn2
  syncGenEn3 := if i.clkSlow then s.syncGenEn2 else s.syncGenEn3
  syncGenEn7 :=
    if i.clkSlow then s.syncGenEn2 && !s.syncGenEn3 else s.syncGenEn7
  vsCodeHigh :=
    unlessCleared s.vsBitEn5 s.vsBitEn0
      (if i.writes then i.syncCode.extractLsb' 4 4 else s.vsCodeHigh)
  vsCodeLow :=
    unlessCleared s.vsBitEn4 s.vsBitEn6
      (if i.writes then i.syncCode.extractLsb' 0 4 else s.vsCodeLow)
  scValid :=
    !(s.vsBitEn4 || s.vsBitEn6) &&
      if i.clkCode then s.codeChecked else s.scValid
  sreqAuto1 :=
    if i.clkSlow then !i.reset && (i.sreqAuto0 || s.sreqAuto1)
    else s.sreqAuto1
  sreqAuto2 := if i.clkSlow then !i.reset && s.sreqAuto1 else s.sreqAuto2
  sreqAuto3 :=
    if i.clkSlow && !i.reset then s.sreqAuto1 && !s.sreqAuto2
    else s.sreqAuto3
  sreqAuto5 :=
    if i.clkSlow then !s.sreqAuto6 && (s.sreqAuto3 || s.sreqAuto5)
    else s.sreqAuto5
  sreqAuto6 := if i.clkSlow && s.syncGenEn7 then s.sreqAuto5 else s.sreqAuto6
  sreqAuto7 := if i.clkSlow then s.sreqAuto6 else s.sreqAuto7
  vsBitEn7 :=
    !(s.vsBitEn4 || s.vsBitEn6) &&
      if i.clkSlow && s.syncGenEn7 then s.sreqAuto6 || s.scValid
      else s.vsBitEn7
  vsBitEn6 := !s.vsBitEn6 && s.vsBitEn7
  vsBitEn4 := s.vsBitEn6
  vsBitEn3 := s.vsBitEn4
  vsBitEn2 := s.vsBitEn3
  vsBitEn1 := s.vsBitEn2
  vsBitEn0 := s.vsBitEn1
  vsBitEn5 := s.vsBitEn0
  tsCodes :=
    unlessCleared s.vsBitEn5 s.vsBitEn0
      (if s.vsBitEn6 then s.codeSent else s.tsCodes)
  trgSendEnInt :=
    if s.vsBitEn4 && s.tsCodes == 0b0111#4 then false
    else if s.vsBitEn4 && s.tsCodes == 0b0101#4 then true
    else s.trgSendEnInt
  trgSendEn := if i.clkSlow then s.trgSendEnInt else s.trgSendEn

/-- A run from power-up; every fourth edge of `Clock` is one of `ClkSlow`. -/
structure Run where
  inp : Nat → Input
  phase : Nat
  phase_lt : phase < 4
  clkSlow : ∀ t, (inp t).clkSlow = decide (t % 4 = phase)

namespace Run

variable (r : Run)

def state (t : Nat) : State :=
  run step initial r.inp t

theorem state_succ (t : Nat) :
    r.state (t + 1) = step (r.state t) (r.inp t) := by
  rfl

/-- `SyncValid` -/
def syncValid (t : Nat) : Bool :=
  (r.state t).syncValid

/-- `VSBitEn(4)`: the start bit is on the line. -/
def startBit (t : Nat) : Bool :=
  (r.state t).vsBitEn4

/-- `SyncDlyIn` -/
def line (t : Nat) : Bool :=
  (r.state t).syncDlyIn

/-! ## The slots -/

/-- Edges of `ClkSlow` before clock `t`. -/
def slowEdges (t : Nat) : Nat :=
  (t + 3 - r.phase) / 4

/-- The ring `SyncGenEn`, by the number of edges of `ClkSlow`. -/
structure Ring (s : State) (k : Nat) : Prop where
  en1 : s.syncGenEn1 = decide (1 ≤ k ∧ k ≤ 3)
  en2 : s.syncGenEn2 = decide (2 ≤ k ∧ k ≤ 4)
  en3 : s.syncGenEn3 = decide (3 ≤ k ∧ k ≤ 5)
  en7 : s.syncGenEn7 = decide (k = 3)

theorem Ring.step {s : State} {k : Nat} (h : Ring s k) (hk : k < 6) {i : Input}
    (hslow : i.clkSlow = true) :
    Ring (SyncSGen.step s i) ((k + 1) % 6) := by
  have hcases : k = 0 ∨ k = 1 ∨ k = 2 ∨ k = 3 ∨ k = 4 ∨ k = 5 := by
    omega
  rcases hcases with rfl | rfl | rfl | rfl | rfl | rfl <;>
    constructor <;> simp [SyncSGen.step, hslow, h.en1, h.en2, h.en3]

theorem ring (t : Nat) :
    Ring (r.state t) (r.slowEdges t % 6) := by
  have hphase := r.phase_lt
  induction t with
  | zero =>
      rw [slowEdges, show (0 + 3 - r.phase) / 4 % 6 = 0 by omega]
      constructor <;> rfl
  | succ t ih =>
      have hclk := r.clkSlow t
      by_cases hslow : t % 4 = r.phase
      · rw [decide_eq_true hslow] at hclk
        rw [slowEdges, show (t + 1 + 3 - r.phase) / 4 % 6 =
          ((t + 3 - r.phase) / 4 % 6 + 1) % 6 by omega]
        exact ih.step (Nat.mod_lt _ (by omega)) hclk
      · rw [decide_eq_false hslow] at hclk
        rw [slowEdges, show (t + 1 + 3 - r.phase) / 4 =
          (t + 3 - r.phase) / 4 by omega]
        constructor <;> simp only [state_succ, SyncSGen.step, hclk]
        · exact ih.en1
        · exact ih.en2
        · exact ih.en3
        · exact ih.en7

/-- The slot: an edge of `ClkSlow` with `SyncGenEn(7)`. -/
theorem slot_iff (t : Nat) :
    ((r.inp t).clkSlow && (r.state t).syncGenEn7) = true ↔
      t % 24 = r.phase + 12 := by
  have hphase := r.phase_lt
  rw [r.clkSlow, (r.ring t).en7, slowEdges]
  simp only [Bool.and_eq_true, decide_eq_true_eq]
  omega

/-- A slot at which a code waits. -/
def taken (t : Nat) : Bool :=
  (r.inp t).clkSlow && (r.state t).syncGenEn7 &&
    ((r.state t).sreqAuto6 || (r.state t).scValid)

theorem mod_of_taken {t : Nat} (ht : r.taken t = true) :
    t % 24 = r.phase + 12 := by
  rw [taken, Bool.and_eq_true, r.slot_iff] at ht
  exact ht.1

theorem taken_of_slot {t : Nat} (ht : t % 24 = r.phase + 12) :
    r.taken t = ((r.state t).sreqAuto6 || (r.state t).scValid) := by
  rw [taken, (r.slot_iff t).mpr ht, Bool.true_and]

theorem taken_spaced :
    Spaced 24 r.taken := by
  intro t u htu ht hu
  have htmod := r.mod_of_taken ht
  have humod := r.mod_of_taken hu
  omega

/-! ## The one that runs through VSBitEn -/

/-- At most one of the copies of `taken` within 24 clocks is high. -/
theorem delayed_taken_exclusive {d e t : Nat} (hde : d ≠ e) (hd : d < 24)
    (he : e < 24) (ht : delayed d r.taken t = true) :
    delayed e r.taken t = false := by
  by_contra hother
  rw [Bool.not_eq_false, delayed_eq_true_iff] at hother
  rw [delayed_eq_true_iff] at ht
  have hmod := r.mod_of_taken ht.2
  have hmod' := r.mod_of_taken hother.2
  have hphase := r.phase_lt
  omega

theorem delayed_taken_of_slot {d t : Nat} (hpos : 0 < d) (hd : d < 24)
    (ht : t % 24 = r.phase + 12) :
    delayed d r.taken t = false := by
  by_contra hother
  rw [Bool.not_eq_false, delayed_eq_true_iff] at hother
  have hmod := r.mod_of_taken hother.2
  omega

/-- A code that is taken is in `VSBitEn(7)` for two clocks. -/
theorem vsBitEn764 (t : Nat) :
    (r.state t).vsBitEn7 = (delayed 1 r.taken t || delayed 2 r.taken t) ∧
      (r.state t).vsBitEn6 = delayed 2 r.taken t ∧
      (r.state t).vsBitEn4 = delayed 3 r.taken t := by
  induction t with
  | zero =>
      exact ⟨rfl, rfl, rfl⟩
  | succ t ih =>
      obtain ⟨h7, h6, h4⟩ := ih
      have hsucc := fun d => delayed_succ d r.taken t
      rw [hsucc, hsucc, hsucc]
      simp only [state_succ, SyncSGen.step, h7, h6, h4]
      refine ⟨?_, ?_, trivial⟩
      · cases hslot : (r.inp t).clkSlow && (r.state t).syncGenEn7 with
        | true =>
            have hlow := fun d h h' => r.delayed_taken_of_slot (d := d) h h'
              ((r.slot_iff t).mp hslot)
            rw [delayed_zero, taken, hslot]
            simp [hlow]
        | false =>
            rw [delayed_zero, taken, hslot]
            cases h1 : delayed 1 r.taken t with
            | true =>
                simp [r.delayed_taken_exclusive (e := 2) _ _ _ h1,
                  r.delayed_taken_exclusive (e := 3) _ _ _ h1]
            | false =>
                cases delayed 2 r.taken t <;> simp
      · cases h1 : delayed 1 r.taken t with
        | true =>
            simp [r.delayed_taken_exclusive (e := 2) _ _ _ h1]
        | false =>
            cases delayed 2 r.taken t <;> simp

theorem syncValid_eq :
    r.syncValid = delayed 2 r.taken := by
  funext t
  exact (r.vsBitEn764 t).2.1

theorem startBit_eq :
    r.startBit = delayed 1 r.syncValid :=
  delayed_one_of_succ rfl fun _ => rfl

theorem startBit_spaced :
    Spaced 24 r.startBit := by
  rw [startBit_eq, syncValid_eq, delayed_delayed]
  intro t u htu ht hu
  rw [delayed_eq_true_iff] at ht hu
  have hdist := r.taken_spaced _ _ (by omega) ht.2 hu.2
  omega

/-- The first slot is the fourth edge of `ClkSlow`. -/
theorem startBit_late {t : Nat} (ht : r.startBit t = true) :
    15 ≤ t := by
  rw [startBit_eq, syncValid_eq, delayed_delayed, delayed_eq_true_iff] at ht
  have hmod := r.mod_of_taken ht.2
  omega

theorem vsBitEn3_eq :
    (fun t => (r.state t).vsBitEn3) = delayed 1 r.startBit :=
  delayed_one_of_succ rfl fun _ => rfl

theorem vsBitEn2_eq :
    (fun t => (r.state t).vsBitEn2) = delayed 2 r.startBit := by
  rw [← delayed_delayed 1 1, ← vsBitEn3_eq]
  exact delayed_one_of_succ rfl fun _ => rfl

theorem vsBitEn1_eq :
    (fun t => (r.state t).vsBitEn1) = delayed 3 r.startBit := by
  rw [← delayed_delayed 1 2, ← vsBitEn2_eq]
  exact delayed_one_of_succ rfl fun _ => rfl

theorem vsBitEn0_eq :
    (fun t => (r.state t).vsBitEn0) = delayed 4 r.startBit := by
  rw [← delayed_delayed 1 3, ← vsBitEn1_eq]
  exact delayed_one_of_succ rfl fun _ => rfl

theorem vsBitEn5_eq :
    (fun t => (r.state t).vsBitEn5) = delayed 5 r.startBit := by
  rw [← delayed_delayed 1 4, ← vsBitEn0_eq]
  exact delayed_one_of_succ rfl fun _ => rfl

/-! ## The frames on the line -/

/-- The code of the frame that begins at clock `s`. -/
def frameCode (s : Nat) : BitVec 4 :=
  (r.state s).tsCodes

theorem delayed_startBit {s d k : Nat} (hs : r.startBit s = true) (hk : k < 24)
    (hd : d < 24) :
    delayed d r.startBit (s + k) = decide (d = k) := by
  rw [Bool.eq_iff_iff, delayed_eq_true_iff, decide_eq_true_eq]
  constructor
  · rintro ⟨hle, hstart⟩
    rcases Nat.lt_trichotomy s (s + k - d) with hlt | heq | hgt
    · have hdist := r.startBit_spaced _ _ hlt hs hstart
      omega
    · omega
    · have hdist := r.startBit_spaced _ _ hgt hstart hs
      omega
  · rintro rfl
    exact ⟨by omega, by simpa using hs⟩

theorem delayed_startBit_before {s d : Nat} (hs : r.startBit (s + 1) = true)
    (hd : d < 23) :
    delayed d r.startBit s = false := by
  by_contra hstart
  rw [Bool.not_eq_false, delayed_eq_true_iff] at hstart
  have hdist := r.startBit_spaced _ _ (by omega) hstart.2 hs
  omega

theorem frameCode_eq {s : Nat} (hs : r.syncValid s = true) :
    r.frameCode (s + 1) = (r.state s).codeSent := by
  have hlow := fun d => r.delayed_startBit_before (s := s) (d := d) hs
  have h5 : (r.state s).vsBitEn5 = false :=
    (congrFun r.vsBitEn5_eq s).trans (hlow 5 (by omega))
  have h0 : (r.state s).vsBitEn0 = false :=
    (congrFun r.vsBitEn0_eq s).trans (hlow 4 (by omega))
  have h6 : (r.state s).vsBitEn6 = true := hs
  simp [frameCode, state_succ, step, unlessCleared, h5, h0, h6]

/-- `TSCodes` keeps the code while its bits are on the line. -/
theorem frameCode_held {s : Nat} (hs : r.startBit s = true) {k : Nat}
    (hk : k ≤ 4) :
    (r.state (s + k)).tsCodes = r.frameCode s := by
  induction k with
  | zero =>
      rfl
  | succ k ih =>
      have h5 : (r.state (s + k)).vsBitEn5 = decide (5 = k) :=
        (congrFun r.vsBitEn5_eq _).trans
          (r.delayed_startBit hs (by omega) (by omega))
      have h0 : (r.state (s + k)).vsBitEn0 = decide (4 = k) :=
        (congrFun r.vsBitEn0_eq _).trans
          (r.delayed_startBit hs (by omega) (by omega))
      have h6 : (r.state (s + k)).vsBitEn6 = decide (0 = k + 1) :=
        (congrFun (delayed_zero r.startBit) (s + (k + 1))).symm.trans
          (r.delayed_startBit hs (by omega) (by omega))
      rw [decide_eq_false (by omega)] at h5 h0 h6
      rw [← Nat.add_assoc, state_succ]
      simp only [step, unlessCleared, h5, h0, h6, Bool.or_self,
        Bool.false_eq_true, if_false]
      exact ih (by omega)

theorem line_eq (t : Nat) :
    r.line t =
      (!(delayed 4 r.startBit t && !(r.state t).tsCodes.getLsbD 0) &&
        !(delayed 3 r.startBit t && !(r.state t).tsCodes.getLsbD 1) &&
        !(delayed 2 r.startBit t && !(r.state t).tsCodes.getLsbD 2) &&
        !(delayed 1 r.startBit t && !(r.state t).tsCodes.getLsbD 3) &&
        !r.startBit t) := by
  rw [← vsBitEn0_eq, ← vsBitEn1_eq, ← vsBitEn2_eq, ← vsBitEn3_eq]
  rfl

/-- What the generator puts on the line. -/
theorem frames :
    Frames 4 r.startBit r.frameCode r.line where
  startBit := by
    intro s hs
    rw [line_eq, hs]
    simp
  codeBit := by
    intro s hs i hi
    have hcode := r.frameCode_held hs (k := 1 + i) (by omega)
    have hbit := fun d => r.delayed_startBit hs (k := 1 + i) (d := d) (by omega)
    have hstart := (congrFun (delayed_zero r.startBit) _).symm.trans
      (hbit 0 (by omega))
    rw [line_eq, Nat.add_assoc, hcode, hbit 1 (by omega), hbit 2 (by omega),
      hbit 3 (by omega), hbit 4 (by omega), hstart]
    have hcases : i = 0 ∨ i = 1 ∨ i = 2 ∨ i = 3 := by omega
    rcases hcases with rfl | rfl | rfl | rfl <;> simp [BitVec.getMsbD]
  idle := by
    intro t hquiet
    have hlow : ∀ d, d ≤ 4 → delayed d r.startBit t = false := by
      intro d hd
      by_contra hstart
      rw [Bool.not_eq_false, delayed_eq_true_iff] at hstart
      have hover := hquiet (t - d) hstart.2 (by omega)
      omega
    have hstart := (congrFun (delayed_zero r.startBit) t).symm.trans
      (hlow 0 (by omega))
    rw [line_eq, hstart, hlow 1 (by omega), hlow 2 (by omega),
      hlow 3 (by omega), hlow 4 (by omega)]
    simp

end Run

/-! ## The output -/

section Output

variable (srl : SigDelay.Srlc32e) (r : Run) (syncMode syncRegFP : Nat → Bool)
  (syncDelay : Nat → BitVec 8)

/-- `TSsyncOut` -/
def tsSyncOut : Nat → Bool :=
  SigDelay.sigOut srl syncDelay r.line

/-- `DlySyncFP`: three registers of 32 places. -/
def dlySyncFP : Nat → Bool :=
  SigDelay.sigOut srl (fun _ => 0b01011111) syncRegFP

/-- `SyncOut` -/
def syncOut : Nat → Bool
  | 0 => false
  | t + 1 =>
      if syncMode t then dlySyncFP srl syncRegFP t
      else tsSyncOut srl r syncDelay t

/-- A generator of its own sends its line. -/
theorem syncOut_eq (v : BitVec 8) :
    syncOut srl r (fun _ => false) syncRegFP (fun _ => v) =
      delayed (v.toNat + 3) r.line := by
  rw [show v.toNat + 3 = 1 + (v.toNat + 2) by omega, ← delayed_delayed,
    ← SigDelay.sigOut_eq srl]
  exact delayed_one_of_succ rfl fun _ => rfl

end Output

end SyncSGen
end MollerFirmware
