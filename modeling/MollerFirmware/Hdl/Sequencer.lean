import MollerFirmware.Clocked.Delays

/-!
# sequencer

Units are started one after another. The sequencer waits until the unit at its
position is ready, starts it and waits until it is done, each for
`CYCLES_TO_TIMEOUT + 1` clocks at most; then it goes on to the next position.
The position is a one-hot register of `NUM_SEQ` bits.

A unit that is not ready in time is passed over only at the last position. At
any other one the timer is loaded again and the sequencer stays, see `hangs`.
-/

namespace MollerFirmware
namespace Sequencer

open Clocked

/-- Parameters of an instance. -/
structure Params where
  numSeq : Nat
  cyclesToTimeout : Nat

/-- `ST_START`, `ST_WAIT` and `ST_FINISHED`. The other values of `state`, which
the source treats as `ST_FINISHED`, do not occur after a reset. -/
inductive SeqState where
  | start
  | wait
  | finished
deriving DecidableEq

/-- Registers of the module. -/
structure State (P : Params) where
  state : SeqState
  timedOut : BitVec 32
  seqPos : BitVec P.numSeq
  seqStart : BitVec P.numSeq
  done : Bool

/-- Inputs in one clock. -/
structure Input (P : Params) where
  seqRdy : BitVec P.numSeq
  seqDone : BitVec P.numSeq

/-- `CYCLES_TO_TIMEOUT` as it is loaded into `timed_out`. -/
def Params.timeout (P : Params) : BitVec 32 :=
  BitVec.ofNat 32 P.cyclesToTimeout

variable {P : Params}

/-- `seq_pos[NUM_SEQ-1]` -/
def atLast (s : State P) : Bool :=
  s.seqPos.getLsbD (P.numSeq - 1)

/-- A clock edge with `rst` high. -/
def reset (P : Params) : State P :=
  { state := .start
    timedOut := P.timeout
    seqPos := 1
    seqStart := 0
    done := false }

/-- `ST_WAIT` when the unit is done or has timed out. -/
def advance (s : State P) : State P :=
  if atLast s then
    { s with
      done := false
      state := .finished
      timedOut := P.timeout }
  else
    { s with
      done := false
      state := .start
      seqPos := s.seqPos <<< 1
      timedOut := P.timeout }

/-- A clock edge with `rst` low. -/
def step (s : State P) (i : Input P) : State P :=
  match s.state with
  | .start =>
      if s.seqPos &&& i.seqRdy ≠ 0 then
        { s with
          done := false
          state := .wait
          seqStart := s.seqPos
          timedOut := P.timeout }
      else if s.timedOut = 0 then
        { s with
          done := false
          timedOut := P.timeout
          seqStart := 0
          state := if atLast s then .finished else .start }
      else
        { s with
          done := false
          seqStart := 0
          timedOut := s.timedOut - 1 }
  | .wait =>
      if s.seqPos &&& i.seqDone ≠ 0 then advance s
      else if s.timedOut = 0 then advance s
      else
        { s with
          done := false
          timedOut := s.timedOut - 1 }
  | .finished =>
      { s with
        done := true
        timedOut := P.timeout
        seqStart := 0 }

/-! ## Positions -/

/-- The sequencer stands at the unit `i`. -/
structure At (s : State P) (i : Nat) : Prop where
  lt : i < P.numSeq
  seqPos : s.seqPos = BitVec.twoPow P.numSeq i
  timer : s.timedOut.toNat ≤ P.timeout.toNat

/-- A unit is ready or done if its bit is set. -/
theorem twoPow_and_ne_zero {n i : Nat} (hi : i < n) (x : BitVec n) :
    BitVec.twoPow n i &&& x ≠ 0 ↔ x.getLsbD i = true := by
  rw [BitVec.and_comm, BitVec.and_twoPow]
  cases x.getLsbD i with
  | true =>
      have hne : BitVec.twoPow n i ≠ 0 := by
        intro heq
        have hbit := congrArg (fun y => y.getLsbD i) heq
        simp [hi] at hbit
      simpa using hne
  | false => simp

theorem At.atLast_iff {s : State P} {i : Nat} (h : At s i) :
    atLast s = true ↔ i + 1 = P.numSeq := by
  have hlt := h.lt
  rw [atLast, h.seqPos, BitVec.getLsbD_twoPow]
  simp
  omega

theorem twoPow_shiftLeft_one (n i : Nat) :
    BitVec.twoPow n i <<< 1 = BitVec.twoPow n (i + 1) := by
  rw [BitVec.twoPow_eq, BitVec.twoPow_eq, BitVec.shiftLeft_add]

theorem pred_add_one {w : Nat} {x : BitVec w} (hx : x ≠ 0) :
    (x - 1).toNat + 1 = x.toNat := by
  have hpred := toNat_pred hx
  have hpos : x.toNat ≠ 0 := fun hzero =>
    hx (BitVec.eq_of_toNat_eq (by simpa using hzero))
  omega

/-! ## What a clock does -/

/-- The unit at the position is not ready when the timer has run down, and it
is not the last one. -/
structure Stuck (s : State P) (x : Input P) : Prop where
  state : s.state = .start
  timer : s.timedOut = 0
  notReady : s.seqPos &&& x.seqRdy = 0
  notLast : atLast s = false

/-- The unit at the position is passed over because it was not ready in
time. -/
structure TimesOut (s : State P) (x : Input P) : Prop where
  state : s.state = .start
  timer : s.timedOut = 0
  notReady : s.seqPos &&& x.seqRdy = 0
  last : atLast s = true

/-- A clock with the timer running. -/
structure Waits (s s' : State P) : Prop where
  state : s'.state = s.state
  seqPos : s'.seqPos = s.seqPos
  timer : s'.timedOut.toNat + 1 = s.timedOut.toNat
  seqStart : s.state = .wait → s'.seqStart = s.seqStart

/-- The unit at the position is started. -/
structure Starts (s s' : State P) : Prop where
  before : s.state = .start
  state : s'.state = .wait
  seqPos : s'.seqPos = s.seqPos
  timer : s'.timedOut = P.timeout
  seqStart : s'.seqStart = s.seqPos

/-- The next position is taken up. -/
structure MovesOn (s s' : State P) : Prop where
  before : s.state = .wait
  notLast : atLast s = false
  state : s'.state = .start
  seqPos : s'.seqPos = s.seqPos <<< 1
  timer : s'.timedOut = P.timeout

/-- The last position has been dealt with. -/
structure Finishes (s : State P) (x : Input P) (s' : State P) : Prop where
  last : atLast s = true
  state : s'.state = .finished
  seqPos : s'.seqPos = s.seqPos
  timer : s'.timedOut = P.timeout
  cause : s.state = .wait ∨ TimesOut s x

theorem advance_cases {s : State P} (hwait : s.state = .wait) (x : Input P) :
    MovesOn s (advance s) ∨ Finishes s x (advance s) := by
  unfold advance
  cases hlast : atLast s with
  | true => exact .inr ⟨hlast, rfl, rfl, rfl, .inl hwait⟩
  | false => exact .inl ⟨hwait, hlast, rfl, rfl, rfl⟩

/-- What a clock can do before the end, unless the sequencer is stuck. -/
theorem step_cases {s : State P} (hgo : s.state ≠ .finished) (x : Input P)
    (hfree : ¬ Stuck s x) :
    Waits s (step s x) ∨ Starts s (step s x) ∨ MovesOn s (step s x) ∨
      Finishes s x (step s x) := by
  cases hstate : s.state with
  | finished => exact absurd hstate hgo
  | start =>
      unfold step
      rw [hstate]
      by_cases hrdy : s.seqPos &&& x.seqRdy = 0
      · by_cases htimer : s.timedOut = 0
        · have hlast : atLast s = true := by
            by_contra hlast
            exact hfree ⟨hstate, htimer, hrdy, by simpa using hlast⟩
          simp only [hrdy, htimer, hlast, ne_eq, not_true, if_false, if_true]
          exact .inr (.inr (.inr ⟨hlast, rfl, rfl, rfl,
            .inr ⟨hstate, htimer, hrdy, hlast⟩⟩))
        · simp only [hrdy, htimer, ne_eq, not_true, if_false]
          exact .inl ⟨hstate.symm, rfl, pred_add_one htimer, by simp [hstate]⟩
      · simp only [hrdy, ne_eq, not_false_eq_true, if_true]
        exact .inr (.inl ⟨hstate, rfl, rfl, rfl, rfl⟩)
  | wait =>
      have hadvance := advance_cases hstate x
      unfold step
      rw [hstate]
      by_cases hdone : s.seqPos &&& x.seqDone = 0
      · by_cases htimer : s.timedOut = 0
        · simp only [hdone, htimer, ne_eq, not_true, if_false, if_true]
          exact .inr (.inr hadvance)
        · simp only [hdone, htimer, ne_eq, not_true, if_false]
          exact .inl ⟨hstate.symm, rfl, pred_add_one htimer, fun _ => rfl⟩
      · simp only [hdone, ne_eq, not_false_eq_true, if_true]
        exact .inr (.inr hadvance)

/-! ## Progress -/

/-- Clocks that one waiting state takes at most. -/
def Params.patience (P : Params) : Nat :=
  P.timeout.toNat + 1

/-- A bound on the clocks to the end from position `i`. -/
def remaining (s : State P) (i : Nat) : Nat :=
  match s.state with
  | .start =>
      (P.numSeq - 1 - i) * (2 * P.patience) + P.patience + s.timedOut.toNat + 1
  | .wait => (P.numSeq - 1 - i) * (2 * P.patience) + s.timedOut.toNat + 1
  | .finished => 0

theorem remaining_start {s : State P} (h : s.state = .start) (i : Nat) :
    remaining s i = (P.numSeq - 1 - i) * (2 * P.patience) + P.patience +
      s.timedOut.toNat + 1 := by
  simp only [remaining, h]

theorem remaining_wait {s : State P} (h : s.state = .wait) (i : Nat) :
    remaining s i =
      (P.numSeq - 1 - i) * (2 * P.patience) + s.timedOut.toNat + 1 := by
  simp only [remaining, h]

theorem remaining_pos {s : State P} (h : s.state ≠ .finished) (i : Nat) :
    0 < remaining s i := by
  cases hstate : s.state with
  | start =>
      rw [remaining_start hstate]
      omega
  | wait =>
      rw [remaining_wait hstate]
      omega
  | finished => exact absurd hstate h

theorem At.waits {s s' : State P} {i : Nat} (h : At s i) (hw : Waits s s')
    (hgo : s.state ≠ .finished) :
    At s' i ∧ remaining s' i < remaining s i := by
  have htimer := hw.timer
  refine ⟨⟨h.lt, hw.seqPos.trans h.seqPos, by have := h.timer; omega⟩, ?_⟩
  cases hstate : s.state with
  | start =>
      rw [remaining_start hstate, remaining_start (hw.state.trans hstate)]
      omega
  | wait =>
      rw [remaining_wait hstate, remaining_wait (hw.state.trans hstate)]
      omega
  | finished => exact absurd hstate hgo

theorem At.starts {s s' : State P} {i : Nat} (h : At s i) (hs : Starts s s') :
    At s' i ∧ remaining s' i < remaining s i := by
  refine ⟨⟨h.lt, hs.seqPos.trans h.seqPos, hs.timer ▸ le_refl _⟩, ?_⟩
  rw [remaining_start hs.before, remaining_wait hs.state, hs.timer,
    Params.patience]
  omega

theorem At.movesOn {s s' : State P} {i : Nat} (h : At s i)
    (hm : MovesOn s s') :
    At s' (i + 1) ∧ remaining s' (i + 1) < remaining s i := by
  have hlt : i + 1 < P.numSeq := by
    have hlast := h.atLast_iff
    rw [hm.notLast] at hlast
    have hi := h.lt
    have hne : i + 1 ≠ P.numSeq := fun heq => by simpa using hlast.mpr heq
    omega
  refine ⟨⟨hlt, ?_, hm.timer ▸ le_refl _⟩, ?_⟩
  · rw [hm.seqPos, h.seqPos, twoPow_shiftLeft_one]
  · have hpatience : P.patience = P.timeout.toNat + 1 := rfl
    rw [remaining_wait hm.before, remaining_start hm.state, hm.timer,
      show P.numSeq - 1 - i = P.numSeq - 1 - (i + 1) + 1 by omega,
      Nat.succ_mul _ (2 * P.patience)]
    omega

theorem At.finishes {s s' : State P} {x : Input P} {i : Nat} (h : At s i)
    (hf : Finishes s x s') :
    At s' i ∧ i + 1 = P.numSeq :=
  ⟨⟨h.lt, hf.seqPos.trans h.seqPos, hf.timer ▸ le_refl _⟩,
    h.atLast_iff.mp hf.last⟩

/-! ## Runs -/

/-- A run after reset: how the units behave. -/
structure Run (P : Params) where
  input : Nat → Input P

namespace Run

variable (r : Run P)

/-- Registers before clock edge `t`. -/
def state (t : Nat) : State P :=
  run step (reset P) r.input t

/-- `done` -/
def done (t : Nat) : Bool :=
  (r.state t).done

/-- The unit at position `k` has been started, or passed over after a
timeout. -/
def Served (k t : Nat) : Prop :=
  (∃ u, u ≤ t ∧ (r.state u).seqStart.getLsbD k = true) ∨
    ∃ u, u < t ∧ At (r.state u) k ∧ TimesOut (r.state u) (r.input u)

theorem Served.mono {r : Run P} {k t t' : Nat} (h : r.Served k t)
    (htt' : t ≤ t') :
    r.Served k t' := by
  rcases h with ⟨u, hu, hbit⟩ | ⟨u, hu, hrest⟩
  · exact .inl ⟨u, by omega, hbit⟩
  · exact .inr ⟨u, by omega, hrest⟩

/-- Where the sequencer stands in clock `t`, and what it has done. -/
structure Course (t i : Nat) : Prop where
  position : At (r.state t) i
  before : ∀ k, k < i → r.Served k t
  started : (r.state t).state = .wait →
    (r.state t).seqStart.getLsbD i = true
  finished : (r.state t).state = .finished →
    i + 1 = P.numSeq ∧ r.Served i t
  time : (r.state t).state ≠ .finished →
    remaining (r.state t) i + t ≤ P.numSeq * (2 * P.patience)

theorem course_zero (hN : 1 ≤ P.numSeq) : r.Course 0 0 := by
  have hone : (1 : BitVec P.numSeq) = BitVec.twoPow P.numSeq 0 := by
    rw [BitVec.twoPow_eq, BitVec.shiftLeft_zero]
    rfl
  refine ⟨⟨hN, hone, le_refl _⟩, fun k hk => absurd hk (by omega),
    fun h => ?_, fun h => ?_, fun _ => ?_⟩
  · exact absurd h (by simp [state, reset])
  · exact absurd h (by simp [state, reset])
  · rw [remaining_start rfl]
    show _ + P.patience + P.timeout.toNat + 1 + 0 ≤ _
    have hpatience : P.patience = P.timeout.toNat + 1 := rfl
    obtain ⟨n, hn⟩ := Nat.exists_eq_add_of_le' hN
    rw [hn, Nat.succ_mul _ (2 * P.patience), Nat.add_sub_cancel, Nat.sub_zero]
    omega

theorem Course.before_next {r : Run P} {t i : Nat} (h : r.Course t i) :
    ∀ k, k < i → r.Served k (t + 1) :=
  fun k hk => (h.before k hk).mono (Nat.le_succ t)

/-- A clock that brings the bound down keeps the time. -/
theorem Course.time_next {r : Run P} {t i j : Nat} (h : r.Course t i)
    (hgo : (r.state t).state ≠ .finished)
    (hless : remaining (step (r.state t) (r.input t)) j <
      remaining (r.state t) i) :
    remaining (r.state (t + 1)) j + (t + 1) ≤
      P.numSeq * (2 * P.patience) := by
  have htime := h.time hgo
  show remaining (step (r.state t) (r.input t)) j + (t + 1) ≤ _
  omega

/-- At the end nothing changes any more. -/
theorem Course.stays {r : Run P} {t i : Nat} (h : r.Course t i)
    (hend : (r.state t).state = .finished) :
    r.Course (t + 1) i := by
  have hnext : r.state (t + 1) = step (r.state t) (r.input t) := rfl
  have hstate : (r.state (t + 1)).state = .finished := by
    rw [hnext, step, hend]
  have hpos : (r.state (t + 1)).seqPos = (r.state t).seqPos := by
    rw [hnext, step, hend]
  have htimer : (r.state (t + 1)).timedOut = P.timeout := by
    rw [hnext, step, hend]
  obtain ⟨hlast, hserved⟩ := h.finished hend
  refine ⟨⟨h.position.lt, hpos.trans h.position.seqPos, htimer ▸ le_refl _⟩,
    h.before_next, fun hw => ?_,
    fun _ => ⟨hlast, hserved.mono (Nat.le_succ t)⟩,
    fun hgo => absurd hstate hgo⟩
  rw [hstate] at hw
  exact absurd hw (by simp)

theorem Course.waits {r : Run P} {t i : Nat} (h : r.Course t i)
    (hgo : (r.state t).state ≠ .finished)
    (hw : Waits (r.state t) (step (r.state t) (r.input t))) :
    r.Course (t + 1) i := by
  obtain ⟨hat, hless⟩ := h.position.waits hw hgo
  refine ⟨hat, h.before_next, fun hst => ?_, fun hst => ?_,
    fun _ => h.time_next hgo hless⟩
  · have hbit := h.started (hw.state ▸ hst)
    rw [← hw.seqStart (hw.state ▸ hst)] at hbit
    exact hbit
  · exact absurd (hw.state ▸ hst) hgo

theorem Course.starts {r : Run P} {t i : Nat} (h : r.Course t i)
    (hgo : (r.state t).state ≠ .finished)
    (hs : Starts (r.state t) (step (r.state t) (r.input t))) :
    r.Course (t + 1) i := by
  obtain ⟨hat, hless⟩ := h.position.starts hs
  refine ⟨hat, h.before_next, fun _ => ?_, fun hst => ?_,
    fun _ => h.time_next hgo hless⟩
  · show (step (r.state t) (r.input t)).seqStart.getLsbD i = true
    rw [hs.seqStart, h.position.seqPos, BitVec.getLsbD_twoPow]
    simpa using h.position.lt
  · exact absurd (hs.state.symm.trans hst) (by simp)

theorem Course.movesOn {r : Run P} {t i : Nat} (h : r.Course t i)
    (hgo : (r.state t).state ≠ .finished)
    (hm : MovesOn (r.state t) (step (r.state t) (r.input t))) :
    r.Course (t + 1) (i + 1) := by
  obtain ⟨hat, hless⟩ := h.position.movesOn hm
  refine ⟨hat, fun k hk => ?_, fun hst => ?_, fun hst => ?_,
    fun _ => h.time_next hgo hless⟩
  · rcases Nat.lt_succ_iff_lt_or_eq.mp hk with hki | rfl
    · exact h.before_next k hki
    · exact .inl ⟨t, Nat.le_succ t, h.started hm.before⟩
  · exact absurd (hm.state.symm.trans hst) (by simp)
  · exact absurd (hm.state.symm.trans hst) (by simp)

theorem Course.finishes {r : Run P} {t i : Nat} (h : r.Course t i)
    (hf : Finishes (r.state t) (r.input t)
      (step (r.state t) (r.input t))) :
    r.Course (t + 1) i := by
  obtain ⟨hat, hlast⟩ := h.position.finishes hf
  refine ⟨hat, h.before_next, fun hst => ?_, fun _ => ⟨hlast, ?_⟩,
    fun hgo => absurd hf.state hgo⟩
  · exact absurd (hf.state.symm.trans hst) (by simp)
  · rcases hf.cause with hwait | htimeout
    · exact .inl ⟨t, Nat.le_succ t, h.started hwait⟩
    · exact .inr ⟨t, Nat.lt_succ_self t, h.position, htimeout⟩

/-- Under a step that is not stuck the course goes on, and the clocks left
become fewer. -/
theorem Course.next {r : Run P} {t i : Nat} (h : r.Course t i)
    (hfree : ¬ Stuck (r.state t) (r.input t)) :
    ∃ j, r.Course (t + 1) j := by
  by_cases hend : (r.state t).state = .finished
  · exact ⟨i, h.stays hend⟩
  · rcases step_cases hend (r.input t) hfree with hw | hs | hm | hf
    · exact ⟨i, h.waits hend hw⟩
    · exact ⟨i, h.starts hend hs⟩
    · exact ⟨i + 1, h.movesOn hend hm⟩
    · exact ⟨i, h.finishes hf⟩

theorem exists_course (hN : 1 ≤ P.numSeq)
    (hfree : ∀ t, ¬ Stuck (r.state t) (r.input t)) (t : Nat) :
    ∃ i, r.Course t i := by
  induction t with
  | zero => exact ⟨0, r.course_zero hN⟩
  | succ t ih =>
      obtain ⟨i, hi⟩ := ih
      exact hi.next (hfree t)

/-- **The sequencer gets done**, unless it is stuck in some clock: from the
clock of the bound on `done` is high, and every unit has been started or was
passed over after a timeout. -/
theorem done_of_not_stuck (hN : 1 ≤ P.numSeq)
    (hfree : ∀ t, ¬ Stuck (r.state t) (r.input t)) (t : Nat)
    (ht : 2 * P.numSeq * (P.cyclesToTimeout + 2) + 2 ≤ t) :
    r.done t = true ∧ ∀ k, k < P.numSeq → r.Served k t := by
  have hpatience : P.patience ≤ P.cyclesToTimeout + 2 := by
    have hle : P.timeout.toNat ≤ P.cyclesToTimeout := Nat.mod_le _ _
    rw [Params.patience]
    omega
  have htotal : P.numSeq * (2 * P.patience) ≤
      2 * P.numSeq * (P.cyclesToTimeout + 2) := by
    rw [← Nat.mul_assoc, Nat.mul_comm P.numSeq 2]
    exact Nat.mul_le_mul_left _ hpatience
  obtain ⟨u, rfl⟩ : ∃ u, t = u + 1 := ⟨t - 1, by omega⟩
  obtain ⟨i, hcourse⟩ := r.exists_course hN hfree u
  have hend : (r.state u).state = .finished := by
    by_contra hgo
    have htime := hcourse.time hgo
    have hpos := remaining_pos hgo i
    omega
  obtain ⟨hlast, hserved⟩ := hcourse.finished hend
  refine ⟨?_, fun k hk => ?_⟩
  · show (step (r.state u) (r.input u)).done = true
    rw [step, hend]
  · rcases Nat.lt_or_ge k i with hki | hik
    · exact (hcourse.before k hki).mono (Nat.le_succ u)
    · rw [show k = i by omega]
      exact hserved.mono (Nat.le_succ u)

/-- Units that are always ready leave no clock stuck. -/
theorem not_stuck_of_ready (hN : 1 ≤ P.numSeq)
    (hrdy : ∀ t k, k < P.numSeq → (r.input t).seqRdy.getLsbD k = true)
    (t : Nat) :
    ¬ Stuck (r.state t) (r.input t) := by
  have hfree : ∀ u i, r.Course u i → ¬ Stuck (r.state u) (r.input u) := by
    intro u i hcourse hstuck
    have hpos := hcourse.position
    have hne := (twoPow_and_ne_zero hpos.lt _).mpr (hrdy u i hpos.lt)
    rw [← hpos.seqPos] at hne
    exact hne hstuck.notReady
  have hcourse : ∃ i, r.Course t i := by
    induction t with
    | zero => exact ⟨0, r.course_zero hN⟩
    | succ t ih =>
        obtain ⟨i, hi⟩ := ih
        exact hi.next (hfree t i hi)
  obtain ⟨i, hi⟩ := hcourse
  exact hfree t i hi

/-- Two units that are always ready and never done. -/
def neverDone : Run ⟨2, 1⟩ :=
  { input := fun _ => ⟨3, 0⟩ }

theorem done_of_not_stuck_neverDone : neverDone.done 14 = true := by
  have hready : ∀ k, k < 2 → (3 : BitVec 2).getLsbD k = true := by decide
  exact (neverDone.done_of_not_stuck (by decide)
    (neverDone.not_stuck_of_ready (by decide) fun _ k hk => hready k hk)
    14 (by decide)).1

/-- A unit before the last one that is never ready holds the sequencer for
ever: every timeout leaves it where it is. -/
theorem hangs {u i : Nat} (hat : At (r.state u) i)
    (hstate : (r.state u).state = .start) (hlast : i + 1 < P.numSeq)
    (hnever : ∀ t, u ≤ t → (r.input t).seqRdy.getLsbD i = false)
    (t : Nat) (hut : u ≤ t) :
    r.done (t + 1) = false := by
  suffices hstay : At (r.state t) i ∧ (r.state t).state = .start by
    show (step (r.state t) (r.input t)).done = false
    rw [step, hstay.2]
    dsimp only
    split_ifs <;> rfl
  induction t, hut using Nat.le_induction with
  | base => exact ⟨hat, hstate⟩
  | succ t hut ih =>
      obtain ⟨hpos, hstart⟩ := ih
      have hrdy : (r.state t).seqPos &&& (r.input t).seqRdy = 0 := by
        by_contra hne
        rw [hpos.seqPos] at hne
        have hready := (twoPow_and_ne_zero hpos.lt _).mp hne
        rw [hnever t hut] at hready
        exact absurd hready (by simp)
      have hmore : atLast (r.state t) = false := by
        by_contra hend
        have heq := hpos.atLast_iff.mp (by simpa using hend)
        omega
      show At (step (r.state t) (r.input t)) i ∧
        (step (r.state t) (r.input t)).state = .start
      rw [step, hstart]
      by_cases htimer : (r.state t).timedOut = 0
      · simp only [hrdy, htimer, hmore, ne_eq, not_true, if_false, if_true]
        exact ⟨⟨hpos.lt, hpos.seqPos, le_refl _⟩, rfl⟩
      · have hpred := pred_add_one htimer
        have hle := hpos.timer
        simp only [hrdy, htimer, ne_eq, not_true, if_false]
        exact ⟨⟨hpos.lt, hpos.seqPos, by dsimp only; omega⟩, trivial⟩

/-- Two units of which none is ever ready. -/
def neverReady : Run ⟨2, 1⟩ :=
  { input := fun _ => ⟨0, 0⟩ }

theorem never_done_neverReady :
    ¬ ∃ t, t ≤ 2 * 2 * (1 + 2) + 2 ∧ neverReady.done t = true := by
  rintro ⟨t, -, hdone⟩
  have hat : At (neverReady.state 0) 0 := ⟨by decide, rfl, le_refl _⟩
  have hlow : (0 : BitVec 2).getLsbD 0 = false := by decide
  cases t with
  | zero => exact absurd hdone (by decide)
  | succ t =>
      have hnot := neverReady.hangs hat rfl (by decide) (fun _ _ => hlow) t
        (Nat.zero_le t)
      rw [hdone] at hnot
      exact absurd hnot (by simp)

end Run

end Sequencer
end MollerFirmware
