import MollerFirmware.Hdl.TriggerRules

/-!
# TSTrigGen: blocks of triggers and the end of a run

The triggers that pass the rules are counted into blocks. After a set number of
blocks a sync event is due, for which triggers are held back, and after a set
number of blocks in all the run ends.

What asks for triggers and what makes the node busy are inputs here.
-/

namespace MollerFirmware
namespace TSTrigGen

open Clocked

/-- What a counter has counted: `CE` counts and `SCLR` clears. -/
def plainCount (inp : Nat → Bool × Bool) : Nat → BitVec 48
  | 0 => 0
  | t + 1 =>
      if (inp t).2 then 0
      else if (inp t).1 then plainCount inp t + 1 else plainCount inp t

/-- The generated counter `Count48DSP`, which shows its count after one or two
clocks. -/
structure Count48DSP where
  State : Type
  init : State
  step : State → Bool × Bool → State
  q : State → BitVec 48
  q_init : q init = 0
  shows : ∀ inp t,
    q (run step init inp (t + 1)) = plainCount inp (t + 1) ∨
      q (run step init inp (t + 1)) = plainCount inp t

/-- A counter that shows its count after two clocks. -/
def slowCounter : Count48DSP where
  State := BitVec 48 × BitVec 48
  init := (0, 0)
  step := fun s i =>
    (if i.2 then 0 else if i.1 then s.1 + 1 else s.1, s.1)
  q := fun s => s.2
  q_init := rfl
  shows := by
    intro inp t
    refine Or.inr ?_
    induction t with
    | zero =>
        rfl
    | succ t ih =>
        rw [plainCount, ← ih, run_succ]
        rfl

variable {fifo : TriggerClock.TrigDelayFifo} {srl : TriggerRule.Srlc32e}
  {dsp : Count48DSP}

structure Config where
  periodA : BitVec 32
  blockSize : BitVec 8
  syncEvtGen : BitVec 32
  endOfRunBlk : BitVec 32

/-- `forceSyncEvt` is a rising edge of `ForceSyncEvt` in the clock. -/
structure Input where
  grsTsTrg : Bool
  busy : Bool
  sReqSet : Bool
  reset : Bool
  forceSyncEvt : Bool
  trigGiga : Fin 4 → Bool
  minWidthB : Bool
  minWidthC : Bool
  minWidthD : Bool

structure State (fifo : TriggerClock.TrigDelayFifo)
    (srl : TriggerRule.Srlc32e) (dsp : Count48DSP) where
  rules : TriggerRules.State fifo srl
  totBlk : dsp.State
  blk : dsp.State
  numTrg : BitVec 8
  newBlock : Bool
  dlyNewBlk : Bool
  periodSEvt : Bool
  pre2ForcedEvt : Bool
  preForcedEvt : Bool
  forcedSEvt : Bool
  tempBusyInt : Bool
  tempBusyCnt : BitVec 8

def initial (fifo : TriggerClock.TrigDelayFifo) (srl : TriggerRule.Srlc32e)
    (dsp : Count48DSP) : State fifo srl dsp where
  rules := TriggerRules.initial fifo srl
  totBlk := dsp.init
  blk := dsp.init
  numTrg := 0
  newBlock := false
  dlyNewBlk := false
  periodSEvt := false
  pre2ForcedEvt := false
  preForcedEvt := false
  forcedSEvt := false
  tempBusyInt := false
  tempBusyCnt := 0

/-- `PreBlock` -/
def State.preBlock (s : State fifo srl dsp) (c : Config) : Bool :=
  s.numTrg == c.blockSize

/-- `BlkCnt` -/
def State.blkCnt (s : State fifo srl dsp) : BitVec 20 :=
  (dsp.q s.blk).extractLsb' 0 20

/-- `TotBlkCnt` -/
def State.totBlkCnt (s : State fifo srl dsp) : BitVec 32 :=
  (dsp.q s.totBlk).extractLsb' 0 32

/-- `PrePSEvt` -/
def State.prePSEvt (s : State fifo srl dsp) (c : Config) : Bool :=
  s.blkCnt == c.syncEvtGen.extractLsb' 0 20 &&
    decide (c.syncEvtGen.extractLsb' 0 20 > 0)

/-- `EndOfRunInt` -/
def State.endOfRunInt (s : State fifo srl dsp) (c : Config) : Bool :=
  decide (c.endOfRunBlk > 0) && decide (s.totBlkCnt ≥ c.endOfRunBlk)

/-- `SyncBlkEndInt` -/
def State.syncBlkEndInt (s : State fifo srl dsp) : Bool :=
  s.periodSEvt || s.forcedSEvt || (s.dlyNewBlk && !s.tempBusyInt)

/-- Ports of `TriggerRulesMod`. -/
def State.rulesInput (s : State fifo srl dsp) (c : Config) (i : Input) :
    TriggerRules.Input where
  trigIn := i.grsTsTrg
  busy := s.tempBusyInt || i.busy || i.sReqSet
  endOfRun := s.endOfRunInt c
  reset := i.reset
  trigGiga := i.trigGiga
  minWidthB := i.minWidthB
  minWidthC := i.minWidthC
  minWidthD := i.minWidthD

/-- `Pre2ForcedEvt` at the end of the clock. -/
def State.forceSeen (s : State fifo srl dsp) (i : Input) : Bool :=
  !s.forcedSEvt && (s.pre2ForcedEvt || i.forceSyncEvt)

def step (c : Config) (s : State fifo srl dsp) (i : Input) :
    State fifo srl dsp where
  rules := TriggerRules.step c.periodA s.rules (s.rulesInput c i)
  totBlk := dsp.step s.totBlk (s.preBlock c, i.reset)
  blk := dsp.step s.blk (s.preBlock c, s.prePSEvt c || i.reset)
  numTrg :=
    if i.reset || s.preBlock c || s.syncBlkEndInt then 0
    else if s.rules.trigOutInt then s.numTrg + 1 else s.numTrg
  newBlock := s.preBlock c
  dlyNewBlk := s.newBlock
  periodSEvt := s.prePSEvt c
  pre2ForcedEvt := !s.preForcedEvt && s.forceSeen i
  preForcedEvt := s.forceSeen i
  forcedSEvt := s.preForcedEvt
  tempBusyInt :=
    if s.tempBusyCnt ≥ 252 then false
    else s.prePSEvt c || s.forcedSEvt || s.tempBusyInt
  tempBusyCnt :=
    if s.tempBusyCnt ≥ 252 then 0
    else if s.tempBusyInt then s.tempBusyCnt + 1 else s.tempBusyCnt

/-- A run of triggers from power-up, without a reset and without forced sync
events. -/
structure Run (fifo : TriggerClock.TrigDelayFifo)
    (srl : TriggerRule.Srlc32e) (dsp : Count48DSP) where
  config : Config
  inp : Nat → Input
  reset : ∀ t, (inp t).reset = false
  forceSyncEvt : ∀ t, (inp t).forceSyncEvt = false

namespace Run

variable (r : Run fifo srl dsp)

def state (t : Nat) : State fifo srl dsp :=
  run (step r.config) (initial fifo srl dsp) r.inp t

theorem state_succ (t : Nat) :
    r.state (t + 1) = step r.config (r.state t) (r.inp t) :=
  run_succ _ _ _ t

/-- The rules under what this module gives them. -/
def rules : TriggerRules.Run fifo srl where
  periodA := r.config.periodA
  inp := fun t => (r.state t).rulesInput r.config (r.inp t)
  reset := r.reset

theorem rules_state (t : Nat) :
    r.rules.state t = (r.state t).rules := by
  induction t with
  | zero =>
      rfl
  | succ t ih =>
      rw [TriggerRules.Run.state_succ, state_succ, ih]
      rfl

/-- `TrigedInt` -/
def triged (t : Nat) : Bool :=
  r.rules.trigOut t

def preBlock (t : Nat) : Bool :=
  (r.state t).preBlock r.config

def numTrg (t : Nat) : BitVec 8 :=
  (r.state t).numTrg

def endOfRunInt (t : Nat) : Bool :=
  (r.state t).endOfRunInt r.config

def prePSEvt (t : Nat) : Bool :=
  (r.state t).prePSEvt r.config

/-- The first rule keeps the triggers so far apart that a block is closed before
the next trigger; with sync events one more clock is needed. -/
structure Apart : Prop where
  fast : r.rules.Fast 0
  setting : 1 ≤ r.rules.setting 0
  sync : r.config.syncEvtGen.extractLsb' 0 20 = 0 ∨ 2 ≤ r.rules.setting 0
  blockSize : r.config.blockSize ≠ 0

variable {r}

theorem Apart.spaced (h : Apart r) : Spaced 4 r.triged :=
  (r.rules.spaced_of_first_rule h.fast).mono (Nat.add_le_add_right h.setting 3)

/-- The last trigger of a block is the one before. -/
theorem triged_of_preBlock (h : Apart r) {t : Nat} (ht : r.preBlock t = true) :
    ∃ u, t = u + 1 ∧ r.triged u = true := by
  have hfull : (r.state t).numTrg = r.config.blockSize := eq_of_beq ht
  cases t with
  | zero =>
      exact absurd hfull.symm h.blockSize
  | succ t =>
      refine ⟨t, rfl, ?_⟩
      by_contra hlow
      have hnone : (r.state t).rules.trigOutInt = false := by
        rw [← rules_state]
        exact Bool.eq_false_of_not_eq_true hlow
      rw [state_succ] at hfull
      simp only [step, hnone, Bool.false_eq_true, if_false] at hfull
      split_ifs at hfull with hclear
      · exact h.blockSize hfull.symm
      · -- a full block is not kept
        refine hclear ?_
        have hkept : (r.state t).preBlock r.config = true := by
          rw [State.preBlock, hfull]
          exact beq_self_eq_true _
        rw [hkept, Bool.or_true, Bool.true_or]

theorem forcedSEvt_eq (t : Nat) :
    (r.state t).forcedSEvt = false := by
  have hquiet : ∀ u, (r.state u).pre2ForcedEvt = false ∧
      (r.state u).preForcedEvt = false ∧ (r.state u).forcedSEvt = false := by
    intro u
    induction u with
    | zero =>
        exact ⟨rfl, rfl, rfl⟩
    | succ u ih =>
        rw [state_succ]
        simp [step, State.forceSeen, ih.1, ih.2.1, r.forceSyncEvt]
  exact (hquiet t).2.2

section Blocks

theorem Apart.quiet (h : Apart r) {u : Nat} (hu : r.preBlock u = true) {j : Nat}
    (hj : j < r.rules.setting 0 + 2) :
    r.triged (u + j) = false := by
  obtain ⟨t, rfl, ht⟩ := triged_of_preBlock h hu
  rw [Nat.add_assoc]
  exact (r.rules.spaced_of_first_rule h.fast).low_after ht (by omega)
    (by omega)

theorem Apart.spaced_preBlock (h : Apart r) : Spaced 4 r.preBlock := by
  intro t u htu ht hu
  obtain ⟨t', rfl, ht'⟩ := triged_of_preBlock h ht
  obtain ⟨u', rfl, hu'⟩ := triged_of_preBlock h hu
  have := h.spaced t' u' (by omega) ht' hu'
  omega

/-- After a block the count stays at zero until the next trigger. -/
theorem numTrg_after_block {u : Nat} (hu : r.preBlock u = true) {j : Nat}
    (hquiet : ∀ i, i ≤ j → r.triged (u + i) = false) :
    r.numTrg (u + j + 1) = 0 := by
  have hnext : ∀ t, r.triged t = false → r.numTrg t = 0 ∨ r.preBlock t = true →
      r.numTrg (t + 1) = 0 := by
    intro t hlow hzero
    rw [triged, TriggerRules.Run.trigOut, rules_state] at hlow
    rw [numTrg, preBlock] at hzero
    rw [numTrg, state_succ]
    simp only [step, hlow, Bool.false_eq_true, if_false]
    split_ifs with hclear
    · rfl
    · refine hzero.resolve_right fun hblock => hclear ?_
      rw [hblock, Bool.or_true, Bool.true_or]
  induction j with
  | zero =>
      exact hnext u (hquiet 0 (le_refl 0)) (Or.inr hu)
  | succ j ih =>
      exact hnext (u + (j + 1)) (hquiet (j + 1) (le_refl _))
        (Or.inl (ih fun i hi => hquiet i (by omega)))

end Blocks

section SyncEvents

/-- `BlkCnt` before it is shown. -/
def counted (r : Run fifo srl dsp) : Nat → BitVec 48 :=
  plainCount fun u => (r.preBlock u, r.prePSEvt u)

/-- The count at which a sync event is due. -/
def Due (r : Run fifo srl dsp) (x : BitVec 48) : Prop :=
  x.extractLsb' 0 20 = r.config.syncEvtGen.extractLsb' 0 20 ∧
    r.config.syncEvtGen.extractLsb' 0 20 ≠ 0

theorem prePSEvt_iff (t : Nat) :
    r.prePSEvt t = true ↔ r.Due (dsp.q (r.state t).blk) := by
  rw [prePSEvt, State.prePSEvt, State.blkCnt, Due, Bool.and_eq_true, beq_iff_eq,
    decide_eq_true_eq]
  refine and_congr_right fun _ => ?_
  rw [gt_iff_lt, BitVec.lt_def, Ne, ← BitVec.toNat_inj]
  exact Nat.pos_iff_ne_zero

theorem not_due_zero : ¬ r.Due 0 := by
  rintro ⟨hzero, hne⟩
  exact hne (hzero ▸ by decide)

theorem blk_eq (t : Nat) :
    (r.state t).blk =
      run dsp.step dsp.init (fun u => (r.preBlock u, r.prePSEvt u)) t := by
  induction t with
  | zero =>
      rfl
  | succ t ih =>
      rw [run_succ, ← ih, state_succ]
      simp only [step, r.reset, Bool.or_false]
      rfl

theorem counted_succ (t : Nat) :
    r.counted (t + 1) =
      if r.prePSEvt t then 0
      else if r.preBlock t then r.counted t + 1 else r.counted t :=
  rfl

theorem blk_shows (t : Nat) :
    dsp.q (r.state (t + 1)).blk = r.counted (t + 1) ∨
      dsp.q (r.state (t + 1)).blk = r.counted t := by
  rw [blk_eq]
  exact dsp.shows _ t

/-- A due count is cleared within two clocks. -/
theorem block_of_due (h : Apart r) (t : Nat) (hdue : r.Due (r.counted t)) :
    ∃ u, r.preBlock u = true ∧ u < t ∧ t ≤ u + 2 := by
  induction t with
  | zero =>
      exact absurd hdue not_due_zero
  | succ t ih =>
      rw [counted_succ] at hdue
      cases hclear : r.prePSEvt t with
      | true =>
          rw [hclear, if_pos rfl] at hdue
          exact absurd hdue not_due_zero
      | false =>
          rw [hclear, if_neg Bool.false_ne_true] at hdue
          cases hblock : r.preBlock t with
          | true =>
              exact ⟨t, hblock, Nat.lt_succ_self t, by omega⟩
          | false =>
              rw [hblock, if_neg Bool.false_ne_true] at hdue
              obtain ⟨u, hu, hut, htu⟩ := ih hdue
              refine ⟨u, hu, by omega, ?_⟩
              by_contra hlate
              -- both counts that can be shown are due
              obtain rfl : t = u + 1 + 1 := by omega
              have hbefore : r.Due (r.counted (u + 1)) := by
                rw [counted_succ] at hdue
                split_ifs at hdue with hfirst hsecond
                · exact absurd hdue not_due_zero
                · have := h.spaced_preBlock u (u + 1) (Nat.lt_succ_self u) hu
                    hsecond
                  omega
                · exact hdue
              have hnow : r.prePSEvt (u + 1 + 1) = true := by
                rw [prePSEvt_iff]
                rcases r.blk_shows (u + 1) with heq | heq <;> rw [heq]
                · exact hdue
                · exact hbefore
              rw [hclear] at hnow
              exact Bool.noConfusion hnow

theorem block_of_prePSEvt (h : Apart r) {t : Nat} (ht : r.prePSEvt t = true) :
    ∃ u, r.preBlock u = true ∧ u < t ∧ t ≤ u + 3 := by
  rw [prePSEvt_iff] at ht
  cases t with
  | zero =>
      rw [show (r.state 0).blk = dsp.init by rfl, dsp.q_init] at ht
      exact absurd ht not_due_zero
  | succ t =>
      rcases r.blk_shows t with heq | heq <;> rw [heq] at ht
      · obtain ⟨u, hu, hut, htu⟩ := block_of_due h (t + 1) ht
        exact ⟨u, hu, hut, by omega⟩
      · obtain ⟨u, hu, hut, htu⟩ := block_of_due h t ht
        exact ⟨u, hu, by omega, by omega⟩

/-- A sync event that is shown late was shown in the clock before as well. -/
theorem prePSEvt_before (h : Apart r) {u : Nat} (hu : r.preBlock u = true)
    (hlate : r.prePSEvt (u + 3) = true) :
    r.prePSEvt (u + 2) = true := by
  have hnot : ¬ r.Due (r.counted (u + 3)) := by
    intro hdue
    obtain ⟨v, hv, hvt, htv⟩ := block_of_due h (u + 3) hdue
    have := h.spaced_preBlock u v (by omega) hu hv
    omega
  have hdue : r.Due (r.counted (u + 2)) := by
    rw [prePSEvt_iff] at hlate
    rcases r.blk_shows (u + 2) with heq | heq <;> rw [heq] at hlate
    · exact absurd hlate hnot
    · exact hlate
  by_contra hclear
  refine hnot ?_
  rw [counted_succ, if_neg hclear, if_neg]
  · exact hdue
  · intro hblock
    have := h.spaced_preBlock u (u + 2) (by omega) hu hblock
    omega

/-- The busy time of a sync event is counted from its start. -/
theorem tempBusyCnt_of_low (t : Nat) (hlow : (r.state t).tempBusyInt = false) :
    (r.state t).tempBusyCnt = 0 := by
  induction t with
  | zero =>
      rfl
  | succ t ih =>
      rw [state_succ] at hlow ⊢
      simp only [step] at hlow ⊢
      split_ifs at hlow ⊢ with hend hbusy
      · rfl
      · rw [hbusy, Bool.or_true] at hlow
        exact Bool.noConfusion hlow
      · exact ih (Bool.eq_false_of_not_eq_true hbusy)

theorem tempBusyCnt_le {t : Nat} (hlow : (r.state t).tempBusyInt = false)
    (n : Nat) (hn : n ≤ 200) :
    (r.state (t + n)).tempBusyCnt.toNat ≤ n := by
  induction n with
  | zero =>
      rw [Nat.add_zero, tempBusyCnt_of_low t hlow]
      exact le_refl 0
  | succ n ih =>
      have hbefore := ih (by omega)
      rw [← Nat.add_assoc, state_succ]
      simp only [step]
      split_ifs with hend hbusy
      · exact Nat.zero_le _
      · rw [toNat_succ_of_lt (by omega)]
        omega
      · omega

theorem tempBusyInt_before {t : Nat} (ht : r.triged (t + 1) = true) :
    (r.state t).tempBusyInt = false := by
  have hpre := ((r.rules.trigOut_succ_iff t).mp ht).1.1
  simp only [rules, TriggerRules.Input.preTrigD, State.rulesInput,
    Bool.and_eq_true, Bool.not_eq_true', Bool.or_eq_false_iff] at hpre
  exact hpre.1.2.1.1

/-- Triggers are held back before the end of a late sync event. -/
theorem triged_of_late (h : Apart r) {u : Nat} (hu : r.preBlock u = true)
    (hlate : r.prePSEvt (u + 3) = true) :
    r.triged (u + 4) = false := by
  by_contra hnext
  have hfree := tempBusyInt_before (t := u + 3) (by simpa using hnext)
  obtain ⟨t, rfl, ht⟩ := triged_of_preBlock h hu
  have hstart : (r.state (t + 3)).tempBusyCnt.toNat ≤ 252 - 1 := by
    cases t with
    | zero =>
        exact Bool.noConfusion ht
    | succ t =>
        have := tempBusyCnt_le (tempBusyInt_before ht) 4 (by omega)
        rw [show t + 1 + 3 = t + 4 by omega]
        omega
  have hset : (r.state (t + 3)).prePSEvt r.config = true :=
    prePSEvt_before h hu hlate
  rw [show t + 1 + 3 = t + 3 + 1 by omega, state_succ] at hfree
  simp only [step, hset, Bool.true_or] at hfree
  rw [if_neg] at hfree
  · exact Bool.noConfusion hfree
  · rw [ge_iff_le, BitVec.le_def, show (252 : BitVec 8).toNat = 252 by rfl]
    omega

end SyncEvents

section Ledger

/-- The end of a block finds nothing to clear. -/
theorem quiet_of_syncBlkEnd (h : Apart r) {t : Nat}
    (ht : (r.state t).syncBlkEndInt = true) :
    r.triged t = false ∧ r.numTrg t = 0 := by
  rw [State.syncBlkEndInt, forcedSEvt_eq, Bool.or_false, Bool.or_eq_true,
    Bool.and_eq_true] at ht
  rcases ht with hsync | ⟨hblock, -⟩
  · -- a sync event, up to four clocks after the block
    cases t with
    | zero =>
        exact Bool.noConfusion hsync
    | succ t =>
        have hpre : r.prePSEvt t = true := by
          rw [state_succ] at hsync
          exact hsync
        have hsetting : 2 ≤ r.rules.setting 0 :=
          h.sync.resolve_left ((prePSEvt_iff t).mp hpre).2
        obtain ⟨u, hu, hut, htu⟩ := block_of_prePSEvt h hpre
        obtain ⟨k, rfl⟩ := Nat.exists_eq_add_of_lt hut
        refine ⟨?_, numTrg_after_block (j := k + 1) hu
          fun i hi => h.quiet hu (by omega)⟩
        rcases Nat.lt_or_ge k 2 with hk | hk
        · exact h.quiet (j := k + 2) hu (by omega)
        · obtain rfl : k = 2 := by omega
          exact triged_of_late h hu hpre
  · -- the block itself, two clocks ago
    have hsetting := h.setting
    match t with
    | 0 => exact Bool.noConfusion hblock
    | 1 => exact Bool.noConfusion hblock
    | t + 2 =>
        have hu : r.preBlock t = true := by
          rw [state_succ] at hblock
          simp only [step] at hblock
          rw [state_succ] at hblock
          exact hblock
        exact ⟨h.quiet hu (by omega),
          numTrg_after_block (j := 1) hu fun i hi => h.quiet hu (by omega)⟩

theorem numTrg_succ (h : Apart r) (t : Nat) :
    r.numTrg (t + 1) =
      if r.preBlock t then 0
      else if r.triged t then r.numTrg t + 1 else r.numTrg t := by
  have htrig : (r.state t).rules.trigOutInt = r.triged t := by
    rw [← rules_state]
    rfl
  have hnext : r.numTrg (t + 1) =
      if (r.inp t).reset || r.preBlock t || (r.state t).syncBlkEndInt then 0
      else if r.triged t then r.numTrg t + 1 else r.numTrg t := by
    rw [numTrg, state_succ, ← htrig]
    rfl
  rw [hnext, r.reset, Bool.false_or]
  cases hend : (r.state t).syncBlkEndInt with
  | false =>
      rw [Bool.or_false]
  | true =>
      obtain ⟨hlow, hzero⟩ := quiet_of_syncBlkEnd h hend
      rw [Bool.or_true, if_pos rfl, hlow, if_neg Bool.false_ne_true, hzero,
        ite_self]

theorem numTrg_ledger (h : Apart r) (t : Nat) :
    pulsesIn r.triged 0 t =
        r.config.blockSize.toNat * pulsesIn r.preBlock 0 t +
          (r.numTrg t).toNat ∧
      (r.numTrg t).toNat ≤ r.config.blockSize.toNat := by
  induction t with
  | zero =>
      exact ⟨rfl, Nat.zero_le _⟩
  | succ t ih =>
      obtain ⟨hledger, hle⟩ := ih
      rw [numTrg_succ h, pulsesIn_succ _ (Nat.zero_le t),
        pulsesIn_succ _ (Nat.zero_le t)]
      cases hblock : r.preBlock t with
      | true =>
          have hfull : r.numTrg t = r.config.blockSize := eq_of_beq hblock
          have hquiet : r.triged t = false :=
            h.quiet (j := 0) hblock (by omega)
          rw [hquiet, if_neg Bool.false_ne_true, if_pos rfl, if_pos rfl,
            Nat.mul_succ, hledger, hfull]
          exact ⟨rfl, Nat.zero_le _⟩
      | false =>
          have hlt : (r.numTrg t).toNat < r.config.blockSize.toNat := by
            refine lt_of_le_of_ne hle fun heq => ?_
            rw [preBlock, State.preBlock, beq_eq_false_iff_ne] at hblock
            exact hblock (BitVec.eq_of_toNat_eq heq)
          have hbound := r.config.blockSize.isLt
          cases r.triged t with
          | false =>
              simp only [Bool.false_eq_true, if_false, Nat.add_zero]
              exact ⟨hledger, hle⟩
          | true =>
              simp only [Bool.false_eq_true, if_false, if_true, Nat.add_zero]
              rw [toNat_succ_of_lt (by omega)]
              omega

/-- The counter of all blocks, one clock behind at most. -/
theorem totBlk_shows (t : Nat) :
    ∃ u, u ≤ t ∧ t ≤ u + 1 ∧ dsp.q (r.state t).totBlk =
      BitVec.ofNat 48 (pulsesIn r.preBlock 0 u) := by
  have hcount : ∀ v, plainCount (fun u => (r.preBlock u, false)) v =
      BitVec.ofNat 48 (pulsesIn r.preBlock 0 v) := by
    intro v
    induction v with
    | zero =>
        rfl
    | succ v ih =>
        rw [plainCount, if_neg Bool.false_ne_true, ih,
          pulsesIn_succ _ (Nat.zero_le v)]
        cases r.preBlock v with
        | false => rfl
        | true => exact (BitVec.ofNat_add _ _).symm
  have hrun : ∀ v, (r.state v).totBlk =
      run dsp.step dsp.init (fun u => (r.preBlock u, false)) v := by
    intro v
    induction v with
    | zero =>
        rfl
    | succ v ih =>
        rw [run_succ, ← ih, state_succ]
        simp only [step, r.reset]
        rfl
  cases t with
  | zero =>
      exact ⟨0, le_refl 0, Nat.zero_le 1, dsp.q_init⟩
  | succ t =>
      rw [hrun]
      rcases dsp.shows (fun u => (r.preBlock u, false)) t with heq | heq
      · exact ⟨t + 1, le_refl _, Nat.le_succ _, heq.trans (hcount _)⟩
      · exact ⟨t, Nat.le_succ t, le_refl _, heq.trans (hcount _)⟩

theorem endOfRunInt_iff (hset : r.config.endOfRunBlk ≠ 0) {t u : Nat}
    (hblocks : pulsesIn r.preBlock 0 u ≤ r.config.endOfRunBlk.toNat)
    (hq : dsp.q (r.state t).totBlk =
      BitVec.ofNat 48 (pulsesIn r.preBlock 0 u)) :
    r.endOfRunInt t = true ↔
      r.config.endOfRunBlk.toNat ≤ pulsesIn r.preBlock 0 u := by
  have hbound := r.config.endOfRunBlk.isLt
  have hpos : r.config.endOfRunBlk > 0 := by
    rw [gt_iff_lt, BitVec.lt_def]
    exact Nat.pos_of_ne_zero fun h => hset (BitVec.eq_of_toNat_eq h)
  have hcnt : (r.state t).totBlkCnt.toNat = pulsesIn r.preBlock 0 u := by
    rw [State.totBlkCnt, hq, BitVec.extractLsb'_toNat, BitVec.toNat_ofNat,
      Nat.shiftRight_zero]
    omega
  rw [endOfRunInt, State.endOfRunInt, decide_eq_true hpos, Bool.true_and,
    decide_eq_true_eq, ge_iff_le, BitVec.le_def, hcnt]

/-- No trigger follows the last block of the run. -/
theorem triged_of_all_blocks (h : Apart r) (hset : r.config.endOfRunBlk ≠ 0)
    {t : Nat}
    (hall : pulsesIn r.preBlock 0 t = r.config.endOfRunBlk.toNat) :
    r.triged t = false := by
  by_contra htrig
  have hpos : 0 < r.config.endOfRunBlk.toNat :=
    Nat.pos_of_ne_zero fun hz => hset (BitVec.eq_of_toNat_eq hz)
  obtain ⟨u, -, hut, hu, hlast⟩ := exists_pulse r.preBlock hpos
    (Nat.le_of_eq hall.symm)
  have hfar : u + 3 ≤ t := by
    by_contra hclose
    obtain ⟨j, rfl⟩ := Nat.exists_eq_add_of_lt hut
    have hsetting := h.setting
    exact htrig (h.quiet (j := j + 1) hu (by omega))
  -- the end of the run is shown in time
  obtain ⟨v, rfl⟩ : ∃ v, t = v + 1 := ⟨t - 1, by omega⟩
  obtain ⟨w, hwv, hvw, hq⟩ := totBlk_shows (r := r) v
  have hshown : pulsesIn r.preBlock 0 w = r.config.endOfRunBlk.toNat := by
    have hlow := pulsesIn_mono r.preBlock (Nat.zero_le (u + 1))
      (by omega : u + 1 ≤ w)
    have hhigh := pulsesIn_mono r.preBlock (Nat.zero_le w)
      (by omega : w ≤ v + 1)
    rw [pulsesIn_succ _ (Nat.zero_le u), hu, if_pos rfl] at hlow
    omega
  have hend := (endOfRunInt_iff hset (Nat.le_of_eq hshown) hq).mpr
    (Nat.le_of_eq hshown.symm)
  have hpre := ((r.rules.trigOut_succ_iff v).mp
    (Bool.eq_true_of_not_eq_false htrig)).1.1
  simp only [rules, TriggerRules.Input.preTrigD, State.rulesInput,
    Bool.and_eq_true, Bool.not_eq_true'] at hpre
  rw [endOfRunInt, hpre.2] at hend
  exact Bool.noConfusion hend

theorem triged_le (h : Apart r) (hset : r.config.endOfRunBlk ≠ 0) (t : Nat) :
    pulsesIn r.triged 0 t ≤
      r.config.blockSize.toNat * r.config.endOfRunBlk.toNat := by
  induction t with
  | zero =>
      exact Nat.zero_le _
  | succ t ih =>
      rw [pulsesIn_succ _ (Nat.zero_le t)]
      cases htrig : r.triged t with
      | false =>
          exact ih
      | true =>
          rw [if_pos rfl]
          by_contra hmore
          obtain ⟨hledger, hle⟩ := numTrg_ledger h t
          have hopen : (r.numTrg t).toNat ≠ r.config.blockSize.toNat := by
            intro heq
            have hblock : r.preBlock t = true := by
              rw [preBlock, State.preBlock, beq_iff_eq]
              exact BitVec.eq_of_toNat_eq heq
            have hlow := h.quiet (j := 0) hblock (by omega)
            rw [Nat.add_zero, htrig] at hlow
            exact Bool.noConfusion hlow
          have hall : pulsesIn r.preBlock 0 t =
              r.config.endOfRunBlk.toNat := by
            rcases Nat.lt_trichotomy (pulsesIn r.preBlock 0 t)
              r.config.endOfRunBlk.toNat with hlt | heq | hgt
            · have := Nat.mul_le_mul_left r.config.blockSize.toNat hlt
              rw [Nat.mul_succ] at this
              omega
            · exact heq
            · have := Nat.mul_le_mul_left r.config.blockSize.toNat hgt
              rw [Nat.mul_succ] at this
              omega
          rw [triged_of_all_blocks h hset hall] at htrig
          exact Bool.noConfusion htrig

theorem blocks_le (h : Apart r) (hset : r.config.endOfRunBlk ≠ 0) (t : Nat) :
    pulsesIn r.preBlock 0 t ≤ r.config.endOfRunBlk.toNat := by
  have hle := triged_le h hset t
  have hledger := (numTrg_ledger h t).1
  have hsize : 0 < r.config.blockSize.toNat :=
    Nat.pos_of_ne_zero fun hz => h.blockSize (BitVec.eq_of_toNat_eq hz)
  exact Nat.le_of_mul_le_mul_left (by omega) hsize

end Ledger

/-- Every trigger is in exactly one block: the blocks that are closed are full,
and the count of the open one is right. -/
theorem blocks_exact (r : Run fifo srl dsp) (h : Apart r) (t : Nat) :
    pulsesIn r.triged 0 t =
      r.config.blockSize.toNat * pulsesIn r.preBlock 0 t +
        (r.numTrg t).toNat :=
  (numTrg_ledger h t).1

/-- A trigger is asked for in every clock: ten blocks of three, a sync event
after every five, and the first rule at its least setting for this. -/
def tenBlocks :
    Run TriggerRules.countingFifo TriggerRules.bitRow slowCounter where
  config :=
    { periodA := 0x02
      blockSize := 3
      syncEvtGen := 5
      endOfRunBlk := 10 }
  inp := fun _ =>
    { grsTsTrg := true
      busy := false
      sReqSet := false
      reset := false
      forceSyncEvt := false
      trigGiga := fun _ => false
      minWidthB := false
      minWidthC := false
      minWidthD := false }
  reset := fun _ => rfl
  forceSyncEvt := fun _ => rfl

theorem apart_tenBlocks : Apart tenBlocks where
  fast := by decide
  setting := by decide
  sync := Or.inr (by decide)
  blockSize := by decide

theorem blocks_exact_tenBlocks :
    pulsesIn tenBlocks.triged 0 100 =
      3 * pulsesIn tenBlocks.preBlock 0 100 +
        (tenBlocks.numTrg 100).toNat := by
  have hexact := blocks_exact tenBlocks apart_tenBlocks 100
  rw [show tenBlocks.config.blockSize.toNat = 3 by decide] at hexact
  exact hexact

/-- Without reset and forced sync events, with triggers that the first rule keeps
apart, a run with a set number of blocks takes exactly the triggers of these
blocks: never more, and all of them when it has ended. -/
theorem end_of_run_exact (r : Run fifo srl dsp) (h : Apart r)
    (hset : r.config.endOfRunBlk ≠ 0) (t : Nat) :
    pulsesIn r.triged 0 t ≤
        r.config.blockSize.toNat * r.config.endOfRunBlk.toNat ∧
      (r.endOfRunInt t = true → pulsesIn r.triged 0 t =
        r.config.blockSize.toNat * r.config.endOfRunBlk.toNat) := by
  have hle := triged_le h hset t
  refine ⟨hle, fun hend => ?_⟩
  obtain ⟨u, hut, -, hq⟩ := totBlk_shows (r := r) t
  have hblocks := blocks_le h hset u
  have hshown := (endOfRunInt_iff hset hblocks hq).mp hend
  have hmono := pulsesIn_mono r.preBlock (Nat.zero_le u) hut
  have hledger := (numTrg_ledger h t).1
  have hfull := Nat.mul_le_mul_left r.config.blockSize.toNat
    (hshown.trans hmono)
  omega

/-- Two blocks of two triggers, without sync events. -/
def twoBlocks :
    Run TriggerRules.countingFifo TriggerRules.bitRow slowCounter :=
  { tenBlocks with
    config :=
      { periodA := 0x02
        blockSize := 2
        syncEvtGen := 0
        endOfRunBlk := 2 } }

set_option maxRecDepth 1000 in
theorem end_of_run_exact_twoBlocks :
    twoBlocks.endOfRunInt 19 = true ∧
      pulsesIn twoBlocks.triged 0 19 = 2 * 2 := by
  have hapart : Apart twoBlocks :=
    { fast := by decide
      setting := by decide
      sync := Or.inl (by decide)
      blockSize := by decide }
  have hend : twoBlocks.endOfRunInt 19 = true := by decide
  exact ⟨hend, (end_of_run_exact twoBlocks hapart (by decide) 19).2 hend⟩

end Run

end TSTrigGen
end MollerFirmware
