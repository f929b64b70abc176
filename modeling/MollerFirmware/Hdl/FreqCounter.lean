import MollerFirmware.Hdl.SynchronizerCounter

/-!
# freq_counter

The frequency of `clk_freq`, measured with `clk`. A counter runs freely with
`clk_freq` and crosses over to `clk`; at the end of every window of `REF_FREQ`
clocks the difference of the crossed count to that of the window before is
published.

In a run after reset, any number of `clk_freq` edges falls between two edges of
`clk`, and at an edge of `clk` the first register of the synchronizer may see
the Gray code as it is or, if a `clk_freq` edge follows, as it will be after
that edge, every bit for itself.
-/

namespace MollerFirmware
namespace FreqCounter

open Clocked SynchronizerCounter

/-- Parameters of an instance. -/
structure Params where
  refFreq : Nat
  numSync : Nat
  width : Nat

/-- `SZ_COUNT` -/
def Params.szCount (P : Params) : Nat :=
  Nat.clog 2 (P.refFreq + 1)

/-- Registers in the `clk_freq` domain: the counter and the one of
`bin2gray`. -/
structure Source (width : Nat) where
  freqCnt : BitVec width
  gray : BitVec width

/-- Registers of the module. -/
structure State (P : Params) where
  source : Source P.width
  syncCount : SynchronizerCounter.State P.numSync P.width
  refCnt : BitVec P.szCount
  lastCnt : BitVec P.width
  q : BitVec P.width

/-- What happens up to an edge of `clk`: the `clk_freq` edges since the edge
before, and the word captured by the synchronizer. -/
structure Input (P : Params) where
  freqEdges : Nat
  captured : BitVec P.width

variable {P : Params}

/-- An edge of `clk_freq`. -/
def Source.tick {width : Nat} (s : Source width) : Source width :=
  { freqCnt := s.freqCnt + 1
    gray := bin2gray s.freqCnt }

/-- `synced_cnt` -/
def syncedCnt (s : State P) : BitVec P.width :=
  s.syncCount.rBin

/-- The registers when `rst` is released; `freq_cnt` has no reset. -/
def reset (P : Params) (freqCnt : BitVec P.width) : State P :=
  { source := ⟨freqCnt, 0⟩
    syncCount := SynchronizerCounter.reset
    refCnt := 0
    lastCnt := 0
    q := 0 }

/-- The `clk_freq` edges up to an edge of `clk`, and that edge, with `rst`
low. -/
def step (s : State P) (i : Input P) : State P :=
  { source := Source.tick^[i.freqEdges] s.source
    syncCount := SynchronizerCounter.step s.syncCount i.captured
    refCnt := if s.refCnt.toNat = P.refFreq - 1 then 0 else s.refCnt + 1
    lastCnt :=
      if s.refCnt.toNat = P.refFreq - 1 then syncedCnt s else s.lastCnt
    q :=
      if s.refCnt.toNat = P.refFreq - 1 then syncedCnt s - s.lastCnt
      else s.q }

/-- Edges in the clocks from `a` on and before `b`, with `n u` in clock `u`. -/
def edgesIn (n : Nat → Nat) (a b : Nat) : Nat :=
  ∑ u ∈ Finset.Ico a b, n u

theorem edgesIn_add (n : Nat → Nat) {a b c : Nat} (hab : a ≤ b) (hbc : b ≤ c) :
    edgesIn n a c = edgesIn n a b + edgesIn n b c := by
  unfold edgesIn
  exact (Finset.sum_Ico_consecutive _ hab hbc).symm

/-- A run after reset. -/
structure Run (P : Params) where
  freqCnt : BitVec P.width
  freqEdges : Nat → Nat
  captured : Nat → BitVec P.width
  /-- What is captured are bits of the code before and after the next edge. -/
  captures : ∀ t,
    IsMix (Source.tick^[edgesIn freqEdges 0 (t + 1)] ⟨freqCnt, 0⟩).gray
      (Source.tick^[edgesIn freqEdges 0 (t + 1) + 1] ⟨freqCnt, 0⟩).gray
      (captured t)
  /-- A code that does not change is captured as it is. -/
  stable : ∀ t, freqEdges (t + 1) = 0 →
    captured t = (Source.tick^[edgesIn freqEdges 0 (t + 1)] ⟨freqCnt, 0⟩).gray

/-- The counter and its code after the first edge. -/
theorem tick_iterate {width : Nat} (x : BitVec width) (n : Nat) :
    Source.tick^[n + 1] ⟨x, 0⟩ =
      ⟨x + BitVec.ofNat width n + 1, bin2gray (x + BitVec.ofNat width n)⟩ := by
  induction n with
  | zero =>
      simp [Source.tick]
  | succ n ih =>
      rw [Function.iterate_succ_apply', ih, BitVec.ofNat_add, ← BitVec.add_assoc]
      rfl

/-- The registers of the window: `ref_cnt` counts its clocks. -/
theorem refCnt_step {s : State P} (hR : 0 < P.refFreq)
    (hs : s.refCnt.toNat < P.refFreq) (i : Input P) :
    (step s i).refCnt.toNat = (s.refCnt.toNat + 1) % P.refFreq := by
  simp only [step]
  by_cases hend : s.refCnt.toNat = P.refFreq - 1
  · rw [if_pos hend, hend, Nat.sub_add_cancel hR, Nat.mod_self]
    rfl
  · have hfit : P.refFreq + 1 ≤ 2 ^ P.szCount := Nat.le_pow_clog (by omega) _
    rw [if_neg hend, toNat_succ_of_lt (by omega), Nat.mod_eq_of_lt (by omega)]

namespace Run

variable (r : Run P)

/-- Registers before edge `t` of `clk`. -/
def state (t : Nat) : State P :=
  run step (reset P r.freqCnt)
    (fun u => ⟨r.freqEdges u, r.captured u⟩) t

/-- The value loaded into `q` at the end of window `m`. -/
def published (m : Nat) : BitVec P.width :=
  (r.state ((m + 1) * P.refFreq)).q

/-- The synchronized counter before edge `t` of `clk`. -/
def synced (t : Nat) : BitVec P.width :=
  syncedCnt (r.state t)

theorem synced_eq_q (t : Nat) :
    r.synced t = SynchronizerCounter.q P.numSync r.captured t := by
  have hsync : ∀ t, (r.state t).syncCount =
      stateAt P.numSync r.captured t := by
    intro t
    induction t with
    | zero => rfl
    | succ t ih =>
        show SynchronizerCounter.step (r.state t).syncCount (r.captured t) = _
        rw [ih]
        rfl
  unfold synced syncedCnt
  rw [hsync]
  rfl

theorem refCnt_eq (hR : 0 < P.refFreq) (t : Nat) :
    (r.state t).refCnt.toNat = t % P.refFreq := by
  induction t with
  | zero => simp [state, reset]
  | succ t ih =>
      have hlt : (r.state t).refCnt.toNat < P.refFreq := by
        rw [ih]
        exact Nat.mod_lt _ hR
      have hstep := refCnt_step hR hlt ⟨r.freqEdges t, r.captured t⟩
      rw [ih, Nat.mod_add_mod] at hstep
      exact hstep

theorem refCnt_in_window {m j : Nat} (hj : j < P.refFreq) :
    (r.state (m * P.refFreq + j)).refCnt.toNat = j := by
  rw [r.refCnt_eq (by omega), Nat.mul_comm, Nat.mul_add_mod,
    Nat.mod_eq_of_lt hj]

/-- Within a window `last_cnt` holds. -/
theorem lastCnt_in_window {m j : Nat} (hj : j < P.refFreq) :
    (r.state (m * P.refFreq + j)).lastCnt =
      (r.state (m * P.refFreq)).lastCnt := by
  induction j with
  | zero => rfl
  | succ j ih =>
      have hcnt := r.refCnt_in_window (m := m) (j := j) (by omega)
      have hmore : (r.state (m * P.refFreq + j)).refCnt.toNat ≠
          P.refFreq - 1 := by
        omega
      exact (if_neg hmore).trans (ih (by omega))

/-- Its last clock publishes the advance since the value held. -/
theorem window_end (hR : 0 < P.refFreq) (m : Nat) :
    r.published m = r.synced ((m + 1) * P.refFreq - 1) -
        (r.state (m * P.refFreq)).lastCnt ∧
      (r.state ((m + 1) * P.refFreq)).lastCnt =
        r.synced ((m + 1) * P.refFreq - 1) := by
  have hlast : P.refFreq - 1 < P.refFreq := by omega
  have hcnt := r.refCnt_in_window (m := m) hlast
  have hend : (m + 1) * P.refFreq = m * P.refFreq + (P.refFreq - 1) + 1 := by
    rw [Nat.succ_mul]
    omega
  rw [← r.lastCnt_in_window (m := m) hlast, published, hend,
    Nat.add_sub_cancel]
  exact ⟨if_pos hcnt, if_pos hcnt⟩

/-- The value held is that of the synchronized counter at the end of the window
before; in the first window it is zero. -/
theorem published_eq (hR : 0 < P.refFreq) (m : Nat) :
    r.published m = r.synced ((m + 1) * P.refFreq - 1) -
      r.synced (m * P.refFreq - 1) := by
  rw [(r.window_end hR m).1]
  cases m with
  | zero =>
      rw [Nat.zero_mul]
      rfl
  | succ m =>
      rw [(r.window_end hR m).2]

end Run

/-- A count modulo the width of the register, up to one. -/
def WithinOne {width : Nat} (x : BitVec width) (n : Nat) : Prop :=
  x = BitVec.ofNat width n ∨ x = BitVec.ofNat width n + 1 ∨
    x = BitVec.ofNat width n - 1

namespace Run

variable (r : Run P)

/-- First clock whose edges count for window `m`. What is captured needs
`latency` clocks, so that the window looks back by these. -/
def spanStart (P : Params) (m : Nat) : Nat :=
  m * P.refFreq - latency P.numSync

/-- Edges of `clk_freq` in the `REF_FREQ` clocks of window `m`. -/
def spanEdges (m : Nat) : Nat :=
  edgesIn r.freqEdges (spanStart P m) (spanStart P m + P.refFreq)

/-- What is published at the end of window `m` is a true count: the advance of
the synchronized counter over the window, and up to one the number of edges of
`clk_freq` in its clocks. -/
structure TrueCount (m : Nat) : Prop where
  advance : r.published m = r.synced ((m + 1) * P.refFreq - 1) -
    r.synced (m * P.refFreq - 1)
  edges : WithinOne (r.published m) (r.spanEdges m)

/-! ## The counts at the ends of a window -/

/-- Edges of `clk_freq` that came before the count at the start of window `m`
was captured. -/
def edgesBy (m : Nat) : Nat :=
  edgesIn r.freqEdges 0 (spanStart P m)

/-- The word that was captured for the start of window `m`; the registers are
cleared while the pipeline is filled. -/
def word (m : Nat) : BitVec P.width :=
  if m * P.refFreq ≤ latency P.numSync then 0
  else r.captured (m * P.refFreq - latency P.numSync - 1)

/-- The capture for the start of window `m` shows the edge that follows. -/
def early (m : Nat) : Nat :=
  if r.word m = bin2gray (r.freqCnt + BitVec.ofNat _ (r.edgesBy m)) then 1
  else 0

theorem early_cases (m : Nat) :
    r.early m = 0 ∨ r.early m = 1 := by
  rw [early]
  split_ifs
  · exact Or.inr rfl
  · exact Or.inl rfl

theorem synced_word (m : Nat) :
    r.synced (m * P.refFreq - 1) = gray2bin (r.word m) := by
  rw [synced_eq_q, word]
  split_ifs with hfilling
  · rw [gray2bin_zero]
    refine q_filling P.numSync r.captured ?_
    have hpos : 0 < latency P.numSync := Nat.succ_pos _
    omega
  · rw [show m * P.refFreq - 1 =
      m * P.refFreq - latency P.numSync - 1 + latency P.numSync by omega, q_eq]

theorem published_eq_words (hR : 0 < P.refFreq) (m : Nat) :
    r.published m = gray2bin (r.word (m + 1)) - gray2bin (r.word m) := by
  rw [r.published_eq hR, synced_word, synced_word]

theorem trueCount_iff_withinOne (hR : 0 < P.refFreq) (m : Nat) :
    r.TrueCount m ↔
      WithinOne (gray2bin (r.word (m + 1)) - gray2bin (r.word m))
        (r.spanEdges m) := by
  rw [← r.published_eq_words hR]
  exact ⟨fun h => h.edges, fun h => ⟨r.published_eq hR m, h⟩⟩

/-- A word that was captured after an edge shows the count before the last edge,
or the next. -/
theorem gray2bin_word {m n : Nat} (hn : r.edgesBy m = n + 1) :
    gray2bin (r.word m) = r.freqCnt + BitVec.ofNat _ (n + r.early m) := by
  have hlong : latency P.numSync < m * P.refFreq := by
    by_contra hshort
    rw [edgesBy, spanStart, Nat.sub_eq_zero_of_le (by omega)] at hn
    exact absurd hn (by simp [edgesIn])
  obtain ⟨t, ht⟩ : ∃ t, m * P.refFreq = t + 1 + latency P.numSync :=
    ⟨m * P.refFreq - latency P.numSync - 1, by omega⟩
  have hword : r.word m = r.captured t := by
    rw [word, if_neg (by omega), ht, Nat.add_sub_cancel, Nat.add_sub_cancel]
  have hedges : edgesIn r.freqEdges 0 (t + 1) = n + 1 := by
    rw [← hn, edgesBy, spanStart, ht, Nat.add_sub_cancel]
  have hmix := r.captures t
  rw [hedges, tick_iterate, tick_iterate, ← hword] at hmix
  rw [early, hn]
  split_ifs with hnext
  · rw [hnext, gray2bin_bin2gray]
  · rw [Nat.add_zero]
    rw [bin2gray_eq, bin2gray_eq, BitVec.ofNat_add, ← BitVec.add_assoc] at hmix
    rcases hmix.toGray_succ with hcode | hcode
    · rw [hcode, ← bin2gray_eq, gray2bin_bin2gray]
    · refine absurd ?_ hnext
      rw [hcode, bin2gray_eq, BitVec.ofNat_add, ← BitVec.add_assoc]
      rfl

/-- Before the first edge nothing is captured. -/
theorem word_eq_zero (hR : 0 < P.refFreq) {m : Nat}
    (hnone : r.edgesBy (m + 1) = 0) :
    r.word m = 0 := by
  rw [word]
  split_ifs with hfilling
  · rfl
  · rw [edgesBy, edgesIn] at hnone
    have hquiet : ∀ u, u < spanStart P (m + 1) → r.freqEdges u = 0 := by
      intro u hu
      exact Finset.sum_eq_zero_iff.mp hnone u
        (Finset.mem_Ico.mpr ⟨Nat.zero_le u, hu⟩)
    have hlater : spanStart P (m + 1) =
        m * P.refFreq - latency P.numSync + P.refFreq := by
      rw [spanStart, Nat.succ_mul]
      omega
    have hlast : m * P.refFreq - latency P.numSync - 1 + 1 =
        m * P.refFreq - latency P.numSync := by
      omega
    have hzero : edgesIn r.freqEdges 0
        (m * P.refFreq - latency P.numSync) = 0 := by
      refine Finset.sum_eq_zero fun u hu => hquiet u ?_
      have := (Finset.mem_Ico.mp hu).2
      omega
    rw [r.stable _ (hquiet _ (by omega)), hlast, hzero]
    rfl

/-! ## When a window is right -/

/-- The start count of the window is a count. -/
def Started (m : Nat) : Prop :=
  0 < r.edgesBy m

/-- Nothing has come through by the end of the window: what it publishes is the
word captured there, which is zero unless the first edge follows at once. -/
def Silent (m : Nat) : Prop :=
  r.edgesBy (m + 1) = 0 ∧
    WithinOne (gray2bin (r.word (m + 1))) (r.spanEdges m)

/-- The first edge came through during the window, and `freq_cnt` had, modulo
its width and up to one, no more than the edges of the window that have not come
through. -/
def Compensated (m : Nat) : Prop :=
  r.edgesBy m = 0 ∧ 0 < r.edgesBy (m + 1) ∧
    WithinOne (r.freqCnt +
      BitVec.ofNat _ (r.edgesBy (m + 1) - 1 + r.early (m + 1)) -
        gray2bin (r.word m)) (r.spanEdges m)

theorem trueCount_of_started (hR : 0 < P.refFreq) {m : Nat}
    (hstart : r.Started m) :
    r.TrueCount m := by
  rw [r.trueCount_iff_withinOne hR]
  have hlong : latency P.numSync < m * P.refFreq := by
    by_contra hshort
    rw [Started, edgesBy, spanStart, Nat.sub_eq_zero_of_le (by omega)] at hstart
    exact absurd hstart (by simp [edgesIn])
  have hnext : spanStart P (m + 1) = spanStart P m + P.refFreq := by
    rw [spanStart, spanStart, Nat.succ_mul]
    omega
  obtain ⟨n, hn⟩ := Nat.exists_eq_add_of_le' hstart
  have htotal : r.edgesBy (m + 1) = n + r.spanEdges m + 1 := by
    rw [edgesBy, hnext, edgesIn_add r.freqEdges (Nat.zero_le (spanStart P m))
      (Nat.le_add_right _ _), ← edgesBy, hn, spanEdges]
    omega
  rw [r.gray2bin_word hn, r.gray2bin_word htotal, WithinOne,
    BitVec.ofNat_add, BitVec.ofNat_add, BitVec.ofNat_add]
  have hone : BitVec.ofNat P.width 1 = 1 := rfl
  have hzero : BitVec.ofNat P.width 0 = 0 := rfl
  rcases r.early_cases m with hstart | hstart <;>
    rcases r.early_cases (m + 1) with hend | hend <;> rw [hstart, hend]
  · exact .inl (by ring)
  · rw [hone, hzero]
    exact .inr (.inl (by ring))
  · rw [hone, hzero]
    exact .inr (.inr (by ring))
  · exact .inl (by ring)

/-- **Which published values are true counts**: exactly those of the windows
whose start count was captured after an edge, of the windows in which nothing
has come through, and of those in which `freq_cnt` happens to fit. -/
theorem trueCount_iff (r : Run P) (hR : 2 ≤ P.refFreq) (m : Nat) :
    r.TrueCount m ↔ r.Started m ∨ r.Silent m ∨ r.Compensated m := by
  have hpos : 0 < P.refFreq := by omega
  by_cases hstart : r.Started m
  · exact iff_of_true (r.trueCount_of_started hpos hstart) (Or.inl hstart)
  · have hnone : r.edgesBy m = 0 := Nat.eq_zero_of_not_pos hstart
    rw [r.trueCount_iff_withinOne hpos, or_iff_right hstart]
    rcases Nat.eq_zero_or_pos (r.edgesBy (m + 1)) with hend | hend
    · rw [r.word_eq_zero hpos hend, gray2bin_zero, sub_zero]
      constructor
      · exact fun h => Or.inl ⟨hend, h⟩
      · rintro (h | h)
        · exact h.2
        · exact absurd hend h.2.1.ne'
    · obtain ⟨n, hn⟩ := Nat.exists_eq_add_of_le' hend
      have hword := r.gray2bin_word hn
      rw [← show r.edgesBy (m + 1) - 1 = n by omega] at hword
      rw [hword]
      constructor
      · exact fun h => Or.inr ⟨hnone, hend, h⟩
      · rintro (h | h)
        · exact absurd h.1 hend.ne'
        · exact h.2.2

/-- The first window publishes the free-running count itself, because nothing
is subtracted from it. -/
theorem published_first (hR : 0 < P.refFreq) {n : Nat}
    (hn : r.edgesBy 1 = n + 1) :
    r.published 0 = r.freqCnt + BitVec.ofNat _ n ∨
      r.published 0 = r.freqCnt + BitVec.ofNat _ n + 1 := by
  have hfirst : r.word 0 = 0 := by
    rw [word, Nat.zero_mul, if_pos (Nat.zero_le _)]
  rw [r.published_eq_words hR, hfirst, gray2bin_zero, sub_zero,
    r.gray2bin_word hn]
  rcases r.early_cases 1 with hearly | hearly <;> rw [hearly]
  · exact Or.inl rfl
  · right
    rw [BitVec.ofNat_add, ← BitVec.add_assoc]
    rfl

/-- A run in which no capture falls into a step of the code. -/
def settled (freqCnt : BitVec P.width) (freqEdges : Nat → Nat) : Run P :=
  { freqCnt := freqCnt
    freqEdges := freqEdges
    captured := fun t =>
      (Source.tick^[edgesIn freqEdges 0 (t + 1)] ⟨freqCnt, 0⟩).gray
    captures := fun _ => isMix_left _ _
    stable := fun _ _ => rfl }

/-- A clock as fast as the reference, whose counter stands at 1000 when the
reset is released. -/
def fromThousand : Run ⟨10, 3, 16⟩ :=
  settled 1000 (fun _ => 1)

theorem edgesIn_one (a n : Nat) : edgesIn (fun _ => 1) a (a + n) = n := by
  simp [edgesIn]

theorem edgesIn_zero (a b : Nat) : edgesIn (fun _ => 0) a b = 0 := by
  simp [edgesIn]

/-- A clock that stands still, with the counter at 1000. -/
def standing : Run ⟨10, 3, 16⟩ :=
  settled 1000 (fun _ => 0)

/-- The second window of the running clock is right, and the first one of the
standing clock. -/
theorem trueCount_iff_fromThousand :
    fromThousand.TrueCount 1 ∧ standing.TrueCount 0 := by
  constructor
  · refine (trueCount_iff fromThousand (by decide) 1).mpr (Or.inl ?_)
    have hsix : fromThousand.edgesBy 1 = 6 := edgesIn_one 0 6
    rw [Started, hsix]
    exact Nat.succ_pos 5
  · refine (trueCount_iff standing (by decide) 0).mpr (Or.inr (Or.inl ?_))
    have hquiet : ∀ k, standing.edgesBy k = 0 := fun k => edgesIn_zero 0 _
    have hnone : standing.spanEdges 0 = 0 := edgesIn_zero _ _
    refine ⟨hquiet 1, Or.inl ?_⟩
    rw [standing.word_eq_zero (by decide) (hquiet 2), gray2bin_zero, hnone]
    rfl

/-- The first window after reset publishes about 1000 instead of 10. -/
theorem not_trueCount_fromThousand : ¬ fromThousand.TrueCount 0 := by
  rintro ⟨-, hedges⟩
  have hpub := fromThousand.published_first (n := 5) (by decide)
    (edgesIn_one 0 6)
  have hten : fromThousand.spanEdges 0 = 10 :=
    edgesIn_one 0 10
  rw [WithinOne, hten] at hedges
  rcases hpub with hpub | hpub <;> rw [hpub] at hedges <;>
    exact absurd hedges (by decide)

end Run

end FreqCounter
end MollerFirmware
