import MollerFirmware.Clocked.Crossings

/-!
# SyncHistRead: a history of the sync codes

A valid code of one of four receivers sets a flag. The next edge of the slow
clock sees the flags, the one after it offers a record of the flags and the last
codes to a FIFO, and the flags are cleared in the period after that. Codes from
the record on until the flags are cleared are lost.

The FIFO is a macro, whose write port is taken here: a record that is offered to
a full FIFO is dropped there.
-/

namespace MollerFirmware
namespace SyncHistRead

open Clocked

/-- Where a code comes from: `ValidTSTD`, `ValidSub`, `ValidTS` and
`SCValid`. -/
inductive Source where
  | tstd
  | sub
  | ts
  | sc
  deriving DecidableEq

/-- Place of the flag in a record. -/
def Source.flagBit : Source → Nat
  | tstd => 4
  | sub => 9
  | ts => 14
  | sc => 19

theorem Source.exists_iff {p : Source → Prop} :
    (∃ n, p n) ↔ ((p tstd ∨ p sub) ∨ p ts) ∨ p sc := by
  constructor
  · rintro ⟨n, hn⟩
    cases n with
    | tstd => exact Or.inl (Or.inl (Or.inl hn))
    | sub => exact Or.inl (Or.inl (Or.inr hn))
    | ts => exact Or.inl (Or.inr hn)
    | sc => exact Or.inr hn
  · rintro (((hn | hn) | hn) | hn)
    · exact ⟨tstd, hn⟩
    · exact ⟨sub, hn⟩
    · exact ⟨ts, hn⟩
    · exact ⟨sc, hn⟩

structure Input where
  clkSlow : Bool
  valid : Source → Bool
  syncMonitor : BitVec 16

structure State where
  syncSaveEn : Source → Bool
  clearOver : Bool
  clearBuf : Bool
  fifoDataIn20 : Bool
  syncTimer : BitVec 25

def initial : State where
  syncSaveEn := fun _ => false
  clearOver := false
  clearBuf := false
  fifoDataIn20 := false
  syncTimer := 0

/-- The four flags together. -/
def State.anySave (s : State) : Bool :=
  s.syncSaveEn .tstd || s.syncSaveEn .sub || s.syncSaveEn .ts ||
    s.syncSaveEn .sc

theorem State.anySave_iff (s : State) :
    s.anySave = true ↔ ∃ n, s.syncSaveEn n = true := by
  rw [State.anySave, Source.exists_iff, Bool.or_eq_true, Bool.or_eq_true,
    Bool.or_eq_true]

def step (s : State) (i : Input) : State where
  syncSaveEn := fun n =>
    if s.clearBuf then false else i.valid n || s.syncSaveEn n
  clearOver :=
    if i.clkSlow then if s.clearOver then false else s.anySave
    else s.clearOver
  clearBuf := if i.clkSlow then s.clearOver else s.clearBuf
  fifoDataIn20 :=
    if i.clkSlow then
      if s.clearOver then false else s.syncTimer.getLsbD 23 || s.fifoDataIn20
    else s.fifoDataIn20
  syncTimer := if i.clkSlow then s.syncTimer + 1 else s.syncTimer

/-- `FifoDataIn` -/
def State.fifoDataIn (s : State) (syncMonitor : BitVec 16) : BitVec 36 :=
  s.syncTimer.extractLsb' 8 15 ++ BitVec.ofBool s.fifoDataIn20 ++
    BitVec.ofBool (s.syncSaveEn .sc) ++ syncMonitor.extractLsb' 12 4 ++
    BitVec.ofBool (s.syncSaveEn .ts) ++ syncMonitor.extractLsb' 8 4 ++
    BitVec.ofBool (s.syncSaveEn .sub) ++ syncMonitor.extractLsb' 4 4 ++
    BitVec.ofBool (s.syncSaveEn .tstd) ++ syncMonitor.extractLsb' 0 4

/-- A run from power-up. No code is valid before the first edge of `ClkSlow`. -/
structure Run where
  phase : Nat
  inp : Nat → Input
  clkSlow : Divided 4 phase fun t => (inp t).clkSlow
  late : ∀ n t, (inp t).valid n = true → phase ≤ t

namespace Run

variable (r : Run)

def state (t : Nat) : State :=
  run step initial r.inp t

theorem state_succ (t : Nat) :
    r.state (t + 1) = step (r.state t) (r.inp t) :=
  run_succ _ _ _ t

def valid (n : Source) (t : Nat) : Bool :=
  (r.inp t).valid n

/-- Edge `k` of `ClkSlow`. -/
def edge (k : Nat) : Nat :=
  r.phase + 4 * k

/-- A record is written with edge `k`. -/
def written (k : Nat) : Bool :=
  (r.state (r.edge k)).clearOver

/-- The word that is written with edge `k`. -/
def record (k : Nat) : BitVec 36 :=
  (r.state (r.edge k)).fifoDataIn (r.inp (r.edge k)).syncMonitor

def flag (n : Source) (k : Nat) : Bool :=
  (r.state (r.edge k)).syncSaveEn n

/-- A code in period `k` that the clearing after an earlier record does not
reach. -/
def Kept (n : Source) (k : Nat) : Prop :=
  ∃ j, j < 4 ∧ r.valid n (r.edge k + j) = true ∧
    (j = 0 → (r.state (r.edge k)).clearBuf = false)

/-- The clocks from the writing of a record to the end of the clearing after it:
a code that comes with the edge that writes the record is too late for it, and
its flag is cleared in the next clock. -/
def Lost (t : Nat) : Prop :=
  ∃ k, r.written k = true ∧ r.edge k ≤ t ∧ t ≤ r.edge (k + 1)

/-- A record is written with edge `k + 2`, and clock `t` is in one of the two
periods before. -/
def InRecord (t k : Nat) : Prop :=
  r.written (k + 2) = true ∧ r.edge k ≤ t ∧ t < r.edge (k + 2)

/-- A code of any receiver. -/
def anyValid (t : Nat) : Bool :=
  r.valid .tstd t || r.valid .sub t || r.valid .ts t || r.valid .sc t

/-! ## The registers of the slow clock -/

theorem clearOver_succ (t : Nat) :
    (r.state (t + 1)).clearOver =
      if (r.inp t).clkSlow then !(r.state t).clearOver && (r.state t).anySave
      else (r.state t).clearOver := by
  rw [state_succ]
  simp only [step]
  cases (r.state t).clearOver <;> rfl

theorem clearBuf_succ (t : Nat) :
    (r.state (t + 1)).clearBuf =
      if (r.inp t).clkSlow then (r.state t).clearOver
      else (r.state t).clearBuf := by
  rw [state_succ]
  rfl

theorem syncSaveEn_succ (n : Source) (t : Nat) :
    (r.state (t + 1)).syncSaveEn n =
      (!(r.state t).clearBuf && (r.valid n t || (r.state t).syncSaveEn n)) := by
  rw [state_succ]
  simp only [step, valid]
  cases (r.state t).clearBuf <;> rfl

theorem edge_succ (k : Nat) : r.edge (k + 1) = r.edge k + 3 + 1 := by
  rw [edge, edge]
  omega

theorem written_succ (k : Nat) :
    r.written (k + 1) =
      (!r.written k && (r.state (r.edge k)).anySave) := by
  rw [written, edge_succ]
  exact r.clkSlow.held (fun t => (r.state t).clearOver)
    r.clearOver_succ k (by omega)

/-- The clearing of a period is the record before. -/
theorem clearBuf_period (k : Nat) {j : Nat} (hj : j < 4) :
    (r.state (r.edge k + j + 1)).clearBuf = r.written k :=
  r.clkSlow.held (fun t => (r.state t).clearBuf) r.clearBuf_succ k hj

theorem clearBuf_edge_succ (k : Nat) :
    (r.state (r.edge (k + 1))).clearBuf = r.written k := by
  rw [edge_succ]
  exact r.clearBuf_period k (by omega)

theorem clearBuf_edge_iff (k : Nat) :
    (r.state (r.edge k)).clearBuf = true ↔
      ∃ m, k = m + 1 ∧ r.written m = true := by
  cases k with
  | zero =>
      have hlow : (r.state (r.edge 0)).clearBuf = false :=
        r.clkSlow.held_before (fun t => (r.state t).clearBuf)
          r.clearBuf_succ (le_refl r.phase)
      rw [hlow]
      exact ⟨fun h => Bool.noConfusion h, fun ⟨m, hm, _⟩ => by omega⟩
  | succ k =>
      rw [clearBuf_edge_succ]
      constructor
      · intro hk
        exact ⟨k, rfl, hk⟩
      · rintro ⟨m, hm, hwritten⟩
        obtain rfl : k = m := by omega
        exact hwritten

theorem written_succ_iff (k : Nat) :
    r.written (k + 1) = true ↔
      r.written k = false ∧ ∃ n, r.flag n k = true := by
  rw [written_succ, Bool.and_eq_true, Bool.not_eq_true', State.anySave_iff]
  rfl

/-! ## The flags -/

theorem flag_succ_of_written (n : Source) {k : Nat}
    (hk : r.written k = true) :
    r.flag n (k + 1) = false := by
  rw [flag, edge_succ, syncSaveEn_succ,
    r.clearBuf_period k (j := 2) (by omega), hk]
  rfl

theorem flag_succ_iff (n : Source) {k : Nat} (hk : r.written k = false) :
    r.flag n (k + 1) = true ↔ r.Kept n k ∨
      (r.flag n k = true ∧ (r.state (r.edge k)).clearBuf = false) := by
  have hrun : ∀ j, j < 4 →
      ((r.state (r.edge k + j + 1)).syncSaveEn n = true ↔
        (∃ i, i ≤ j ∧ r.valid n (r.edge k + i) = true ∧
          (i = 0 → (r.state (r.edge k)).clearBuf = false)) ∨
        (r.flag n k = true ∧ (r.state (r.edge k)).clearBuf = false)) := by
    intro j hj
    induction j with
    | zero =>
        rw [Nat.add_zero, syncSaveEn_succ, Bool.and_eq_true,
          Bool.not_eq_true', Bool.or_eq_true]
        constructor
        · rintro ⟨hbuf, hcode | hbefore⟩
          · exact Or.inl ⟨0, le_refl 0, hcode, fun _ => hbuf⟩
          · exact Or.inr ⟨hbefore, hbuf⟩
        · rintro (⟨i, hi, hcode, hbuf⟩ | ⟨hbefore, hbuf⟩)
          · obtain rfl : i = 0 := by omega
            exact ⟨hbuf rfl, Or.inl hcode⟩
          · exact ⟨hbuf, Or.inr hbefore⟩
    | succ j ih =>
        rw [syncSaveEn_succ, ← Nat.add_assoc,
          r.clearBuf_period k (by omega : j < 4), hk, Bool.not_false,
          Bool.true_and, Bool.or_eq_true, ih (by omega)]
        constructor
        · rintro (hcode | ⟨i, hi, hcode⟩ | hbefore)
          · exact Or.inl ⟨j + 1, le_refl _, hcode, fun h => by omega⟩
          · exact Or.inl ⟨i, by omega, hcode⟩
          · exact Or.inr hbefore
        · rintro (⟨i, hi, hcode, hbuf⟩ | hbefore)
          · rcases Nat.lt_or_ge j i with hlast | hearlier
            · obtain rfl : i = j + 1 := by omega
              exact Or.inl hcode
            · exact Or.inr (Or.inl ⟨i, hearlier, hcode, hbuf⟩)
          · exact Or.inr (Or.inr hbefore)
  rw [flag, edge_succ, hrun 3 (by omega), Kept]
  simp only [Nat.lt_succ_iff]

/-- A code is kept unless it comes with the end of a clearing. -/
theorem kept_succ_iff (n : Source) {k : Nat} (hk : r.written k = false) :
    r.Kept n (k + 1) ↔ EventIn 4 r.phase (r.valid n) (k + 1) := by
  constructor
  · rintro ⟨j, hj, hcode, -⟩
    exact ⟨j, hj, hcode⟩
  · rintro ⟨j, hj, hcode⟩
    refine ⟨j, hj, hcode, fun _ => ?_⟩
    rw [clearBuf_edge_succ, hk]

theorem no_flag (n : Source) {k : Nat} (hk : r.written k = false)
    (hnext : r.written (k + 1) = false) :
    r.flag n k = false := by
  by_contra hset
  have hrecord := (r.written_succ_iff k).mpr
    ⟨hk, n, Bool.eq_true_of_not_eq_false hset⟩
  rw [hnext] at hrecord
  exact Bool.noConfusion hrecord

/-! ## The records -/

/-- A record is opened by a code that is kept, in any three periods at most
one. -/
theorem written_iff (k : Nat) :
    r.written (k + 2) = true ↔
      r.written k = false ∧ r.written (k + 1) = false ∧ ∃ n, r.Kept n k := by
  rw [written_succ_iff]
  cases hk : r.written k with
  | true =>
      simp [r.flag_succ_of_written _ hk]
  | false =>
      rw [and_iff_right rfl]
      refine and_congr_right fun hnext => exists_congr fun n => ?_
      rw [r.flag_succ_iff n hk, r.no_flag n hk hnext]
      simp

/-- The flags of a record. -/
theorem flag_of_written {k : Nat} (hrecord : r.written (k + 2) = true)
    (n : Source) :
    r.flag n (k + 2) = true ↔
      r.Kept n k ∨ EventIn 4 r.phase (r.valid n) (k + 1) := by
  obtain ⟨hk, hnext, -⟩ := (r.written_iff k).mp hrecord
  rw [r.flag_succ_iff n hnext, r.kept_succ_iff n hk, clearBuf_edge_succ,
    r.flag_succ_iff n hk, r.no_flag n hk hnext, hk]
  simp [or_comm]

theorem getLsbD_record (n : Source) (k : Nat) :
    (r.record k).getLsbD n.flagBit = r.flag n k := by
  rw [record, flag, State.fifoDataIn]
  cases n <;> simp only [Source.flagBit, BitVec.getLsbD_append] <;> simp

theorem anyValid_iff (t : Nat) :
    r.anyValid t = true ↔ ∃ n, r.valid n t = true := by
  rw [anyValid, Source.exists_iff, Bool.or_eq_true, Bool.or_eq_true,
    Bool.or_eq_true]

theorem written_zero : r.written 0 = false :=
  r.clkSlow.held_before (fun t => (r.state t).clearOver)
    r.clearOver_succ (le_refl r.phase)

/-- Without a code there is no flag. -/
theorem flag_zero (n : Source) : r.flag n 0 = false := by
  have hquiet : ∀ t, t ≤ r.phase → (r.state t).syncSaveEn n = false := by
    intro t ht
    induction t with
    | zero =>
        rfl
    | succ t ih =>
        have hnone : r.valid n t = false := by
          by_contra hset
          have := r.late n t (Bool.eq_true_of_not_eq_false hset)
          omega
        rw [syncSaveEn_succ, ih (by omega), hnone]
        simp
  exact hquiet _ (le_refl r.phase)

theorem written_one : r.written 1 = false := by
  by_contra hset
  obtain ⟨-, n, hn⟩ :=
    (r.written_succ_iff 0).mp (Bool.eq_true_of_not_eq_false hset)
  rw [r.flag_zero n] at hn
  exact Bool.noConfusion hn

/-- Every record has a code two periods before. -/
theorem code_of_written {k : Nat} (hk : r.written k = true) :
    ∃ m j, k = m + 2 ∧ j < 4 ∧ r.anyValid (r.edge m + j) = true := by
  rcases k with _ | _ | m
  · rw [written_zero] at hk
    exact Bool.noConfusion hk
  · rw [written_one] at hk
    exact Bool.noConfusion hk
  · obtain ⟨-, -, n, j, hj, hcode, -⟩ := (r.written_iff m).mp hk
    exact ⟨m, j, rfl, hj, (r.anyValid_iff _).mpr ⟨n, hcode⟩⟩

/-- Codes that are far enough apart are recorded once each. -/
theorem written_iff_of_spaced (h : Spaced 13 r.anyValid) (k : Nat) :
    r.written (k + 2) = true ↔ EventIn 4 r.phase r.anyValid k := by
  rw [written_iff]
  constructor
  · rintro ⟨-, -, n, j, hj, hcode, -⟩
    exact ⟨j, hj, (r.anyValid_iff _).mpr ⟨n, hcode⟩⟩
  · rintro ⟨j, hj, hcode⟩
    have hnone : ∀ m, m < k + 2 → k ≤ m + 1 → (m + 1 = k → j = 0) →
        r.written m = false := by
      intro m hm hkm hfirst
      by_contra hset
      obtain ⟨l, i, rfl, hi, hother⟩ :=
        r.code_of_written (Bool.eq_true_of_not_eq_false hset)
      rw [edge] at hother
      have := h _ _ (by omega) hother hcode
      omega
    obtain ⟨n, hn⟩ := (r.anyValid_iff _).mp hcode
    refine ⟨hnone k (by omega) (by omega) (by omega),
      hnone (k + 1) (by omega) (by omega) (by omega), n, j, hj, hn,
      fun hj0 => ?_⟩
    by_contra hset
    obtain ⟨m, rfl, hm⟩ :=
      (r.clearBuf_edge_iff k).mp (Bool.eq_true_of_not_eq_false hset)
    rw [hnone m (by omega) (by omega) fun _ => hj0] at hm
    exact Bool.noConfusion hm

/-! ## Lost codes -/

/-- Lost are the clocks of the period that a record begins, and the first one
of the next period. -/
theorem lost_iff {k j : Nat} (hj : j < 4) :
    r.Lost (r.edge k + j) ↔ r.written k = true ∨
      (j = 0 ∧ (r.state (r.edge k)).clearBuf = true) := by
  rw [clearBuf_edge_iff, Lost]
  simp only [edge]
  constructor
  · rintro ⟨m, hm, hle, hlt⟩
    have hcases : m = k ∨ (j = 0 ∧ k = m + 1) := by omega
    rcases hcases with rfl | ⟨hj0, hk⟩
    · exact Or.inl hm
    · exact Or.inr ⟨hj0, m, hk, hm⟩
  · rintro (hk | ⟨rfl, m, rfl, hm⟩)
    · exact ⟨k, hk, by omega, by omega⟩
    · exact ⟨m, hm, by omega, by omega⟩

/-- If the period does not begin with a record its codes are kept unless they
are lost. -/
theorem kept_iff (n : Source) {k : Nat} (hk : r.written k = false) :
    r.Kept n k ↔ ∃ t, r.edge k ≤ t ∧ t < r.edge (k + 1) ∧
      r.valid n t = true ∧ ¬ r.Lost t := by
  constructor
  · rintro ⟨j, hj, hcode, hbuf⟩
    refine ⟨r.edge k + j, by omega, by rw [edge_succ]; omega, hcode, ?_⟩
    rw [r.lost_iff hj, hk]
    rintro (hwritten | ⟨hj0, hset⟩)
    · exact Bool.noConfusion hwritten
    · rw [hbuf hj0] at hset
      exact Bool.noConfusion hset
  · rintro ⟨t, hle, hlt, hcode, hlost⟩
    obtain ⟨j, rfl⟩ := Nat.exists_eq_add_of_le hle
    rw [edge_succ] at hlt
    have hj : j < 4 := by omega
    refine ⟨j, hj, hcode, fun hj0 => ?_⟩
    rw [r.lost_iff hj] at hlost
    exact Bool.eq_false_of_not_eq_true fun hset => hlost (Or.inr ⟨hj0, hset⟩)

/-- A record is opened by a code that is not lost, in any three periods at most
one. -/
theorem written_iff_code (k : Nat) :
    r.written (k + 2) = true ↔
      r.written k = false ∧ r.written (k + 1) = false ∧
        ∃ n t, r.edge k ≤ t ∧ t < r.edge (k + 1) ∧ r.valid n t = true ∧
          ¬ r.Lost t := by
  rw [written_iff]
  refine and_congr_right fun hk => and_congr_right fun _ => ?_
  exact exists_congr fun n => r.kept_iff n hk

/-- The flags of a record are those of the codes in its two periods that are not
lost. -/
theorem flag_iff_code {k : Nat} (hrecord : r.written (k + 2) = true)
    (n : Source) :
    r.flag n (k + 2) = true ↔
      ∃ t, r.InRecord t k ∧ r.valid n t = true ∧ ¬ r.Lost t := by
  obtain ⟨hk, hnext, -⟩ := (r.written_iff k).mp hrecord
  have hlen : r.edge (k + 2) = r.edge (k + 1) + 4 := r.edge_succ (k + 1)
  have hlen' : r.edge (k + 1) = r.edge k + 4 := r.edge_succ k
  rw [r.flag_of_written hrecord, ← r.kept_succ_iff n hk, r.kept_iff n hk,
    r.kept_iff n hnext]
  constructor
  · rintro (⟨t, hle, hlt, hcode⟩ | ⟨t, hle, hlt, hcode⟩)
    · exact ⟨t, ⟨hrecord, hle, by omega⟩, hcode⟩
    · exact ⟨t, ⟨hrecord, by omega, hlt⟩, hcode⟩
  · rintro ⟨t, ⟨-, hle, hlt⟩, hcode⟩
    rcases Nat.lt_or_ge t (r.edge (k + 1)) with hfirst | hsecond
    · exact Or.inl ⟨t, hle, hfirst, hcode⟩
    · exact Or.inr ⟨t, hsecond, hlt, hcode⟩

/-- A code that is not lost is in a record. -/
theorem inRecord_of_not_lost {n : Source} {t : Nat}
    (hcode : r.valid n t = true) (hlost : ¬ r.Lost t) :
    ∃ k, r.InRecord t k := by
  have hphase := r.late n t hcode
  obtain ⟨k, j, hj, rfl⟩ : ∃ k j, j < 4 ∧ t = r.edge k + j :=
    ⟨(t - r.phase) / 4, (t - r.phase) % 4, by omega, by rw [edge]; omega⟩
  have hk : r.written k = false := by
    rw [r.lost_iff hj] at hlost
    exact Bool.eq_false_of_not_eq_true fun hset => hlost (Or.inl hset)
  have hlen : r.edge (k + 2) = r.edge k + 8 := by
    rw [edge, edge]
    omega
  cases hnext : r.written (k + 1) with
  | false =>
      have hrecord := (r.written_iff_code k).mpr ⟨hk, hnext, n, r.edge k + j,
        by omega, by rw [edge_succ]; omega, hcode, hlost⟩
      exact ⟨k, hrecord, by omega, by omega⟩
  | true =>
      -- the code is in the second period of a record that is already open
      cases k with
      | zero =>
          rw [Nat.zero_add, written_one] at hnext
          exact Bool.noConfusion hnext
      | succ m =>
          have hlen' : r.edge (m + 1) = r.edge m + 4 := r.edge_succ m
          have hlen'' : r.edge (m + 2) = r.edge (m + 1) + 4 :=
            r.edge_succ (m + 1)
          exact ⟨m, hnext, by omega, by omega⟩

/-- No clock is in two records. -/
theorem inRecord_unique {t k l : Nat} (hk : r.InRecord t k)
    (hl : r.InRecord t l) : k = l := by
  obtain ⟨hwritten, hle, hlt⟩ := hk
  obtain ⟨hwritten', hle', hlt'⟩ := hl
  have hdist : ∀ m, r.written (m + 2) = true → r.written (m + 3) = false := by
    intro m hm
    by_contra hset
    have hnone := ((r.written_iff (m + 1)).mp
      (Bool.eq_true_of_not_eq_false hset)).2.1
    rw [hm] at hnone
    exact Bool.noConfusion hnone
  rw [edge] at hle hlt hle' hlt'
  have hcases : k = l ∨ l = k + 1 ∨ k = l + 1 := by omega
  rcases hcases with hsame | rfl | rfl
  · exact hsame
  · rw [hdist k hwritten] at hwritten'
    exact Bool.noConfusion hwritten'
  · rw [hdist l hwritten'] at hwritten
    exact Bool.noConfusion hwritten

/-- A record is opened by a code that is not lost, in any three periods at most
one, and its flags are those of the codes in its two periods that are not lost.
Every code that is not lost is in exactly one record. Codes that are 13 clocks
apart are recorded once each. -/
theorem records_exact (r : Run) :
    (∀ k, r.written (k + 2) = true ↔
      r.written k = false ∧ r.written (k + 1) = false ∧
        ∃ n t, r.edge k ≤ t ∧ t < r.edge (k + 1) ∧ r.valid n t = true ∧
          ¬ r.Lost t) ∧
    (∀ k, r.written (k + 2) = true → ∀ n,
      ((r.record (k + 2)).getLsbD n.flagBit = true ↔
        ∃ t, r.InRecord t k ∧ r.valid n t = true ∧ ¬ r.Lost t)) ∧
    (∀ n t, r.valid n t = true → ¬ r.Lost t → ∃! k, r.InRecord t k) ∧
    (Spaced 13 r.anyValid → ∀ k, r.written (k + 2) = true ↔
      EventIn 4 r.phase r.anyValid k) := by
  refine ⟨r.written_iff_code, fun k hk n => ?_, fun n t hcode hlost => ?_,
    r.written_iff_of_spaced⟩
  · rw [getLsbD_record]
    exact r.flag_iff_code hk n
  · obtain ⟨k, hk⟩ := r.inRecord_of_not_lost hcode hlost
    exact ⟨k, hk, fun l hl => r.inRecord_unique hl hk⟩

/-- One code of the loopback receiver. -/
def oneCode : Run where
  phase := 0
  inp := fun t =>
    { clkSlow := decide (t % 4 = 0)
      valid := fun n => decide (n = .ts ∧ t = 6)
      syncMonitor := 0x0500 }
  clkSlow :=
    { early := fun t ht => absurd ht (Nat.not_lt_zero t)
      edge := fun k => decide_eq_true (by omega)
      between := fun k j hpos hj => decide_eq_false (by omega) }
  late := fun _ t _ => Nat.zero_le t

theorem valid_oneCode {t : Nat} (ht : oneCode.anyValid t = true) :
    t = 6 := by
  obtain ⟨n, hn⟩ := (oneCode.anyValid_iff t).mp ht
  exact (of_decide_eq_true hn).2

theorem records_exact_oneCode :
    oneCode.written 3 = true := by
  refine ((records_exact oneCode).2.2.2 (fun t u htu ht hu => ?_) 1).mpr ?_
  · have hfirst := valid_oneCode ht
    have hsecond := valid_oneCode hu
    omega
  · exact ⟨2, by decide, by decide⟩

end Run

end SyncHistRead
end MollerFirmware
