import MollerFirmware.Hdl.StreamFrames

/-!
# Decoding all-channel frames

The framer spreads the sixteen samples of a conversion over the five words of a
frame: three samples in the lower 54 bits of each word, and the last channel in
three pieces above them. The receiver finds the first word of a frame by its
two upper bits and puts the samples together again.

`frames_conservation` says that the words presented are whole frames, one for
every selected conversion, and `decode_frames` that the receiver undoes the
packing. The framer is followed from any registers in which it is idle, and the
conversions may come as fast as the five words allow.
-/

namespace MollerFirmware
namespace SubsystemStream

open Clocked

/-- The error word of the framer. -/
def errorWord : BitVec 64 :=
  0xffffffffffffffff

/-- The words of a frame from the one that follows `beat` on. -/
def wordsFrom (d : Fin numCh → BitVec 18) (block : BitVec 3) (beat : Nat) :
    List (BitVec 64) :=
  (List.range' beat (5 - beat)).map fun k => nextWord d block (BitVec.ofNat 4 k)

/-- The five words of a frame. -/
def frameWords (d : Fin numCh → BitVec 18) (block : BitVec 3) :
    List (BitVec 64) :=
  startWord d :: wordsFrom d block 1

theorem wordsFrom_cons
    (d : Fin numCh → BitVec 18) (block : BitVec 3) {k : Nat} (hk : k < 5) :
    wordsFrom d block k =
      nextWord d block (BitVec.ofNat 4 k) :: wordsFrom d block (k + 1) := by
  unfold wordsFrom
  rw [show 5 - k = 5 - (k + 1) + 1 by omega, List.range'_succ, List.map_cons]

theorem wordsFrom_five
    (d : Fin numCh → BitVec 18) (block : BitVec 3) :
    wordsFrom d block 5 = [] := by
  rfl

/-- Only the last word of a frame carries the block number. -/
theorem nextWord_block
    (d : Fin numCh → BitVec 18) (block block' : BitVec 3) {beat : BitVec 4}
    (hbeat : beat = 1 ∨ beat = 2 ∨ beat = 3) :
    nextWord d block beat = nextWord d block' beat := by
  rcases hbeat with rfl | rfl | rfl <;> simp [nextWord]

/-! ## The receiver -/

/-- The receiver's test for the first word of a frame. -/
def isFrameStart (w : BitVec 64) : Bool :=
  w.getLsbD 63 && !w.getLsbD 62

/-- A sample of a frame of five words: channels `3k`, `3k + 1` and `3k + 2` are
in word `k`, and channel 15 is in three pieces in words 0, 1 and 2. -/
def frameSample (w₀ w₁ w₂ w₃ w₄ : BitVec 64) (ch : Fin numCh) : BitVec 18 :=
  if ch.val = 15 then
    w₂.extractLsb' 54 2 ++ w₁.extractLsb' 54 8 ++ w₀.extractLsb' 54 8
  else
    let w := [w₀, w₁, w₂, w₃, w₄].getD (ch.val / 3) 0
    w.extractLsb' (18 * (ch.val % 3)) 18

/-- The samples of all whole frames in a sequence of words; a word that cannot
begin a frame is skipped. -/
def decode : List (BitVec 64) → List (Fin numCh → BitVec 18)
  | w₀ :: w₁ :: w₂ :: w₃ :: w₄ :: ws =>
      if isFrameStart w₀ then frameSample w₀ w₁ w₂ w₃ w₄ :: decode ws
      else decode (w₁ :: w₂ :: w₃ :: w₄ :: ws)
  | _ => []

/-- A word of a frame: ten bits above three samples. -/
def packWord (top : BitVec 10) (c b a : BitVec 18) : BitVec 64 :=
  top ++ c ++ b ++ a

@[simp] theorem packWord_low
    (top : BitVec 10) (c b a : BitVec 18) :
    (packWord top c b a).extractLsb' 0 18 = a :=
  BitVec.extractLsb'_append_eq_right

@[simp] theorem packWord_mid
    (top : BitVec 10) (c b a : BitVec 18) :
    (packWord top c b a).extractLsb' 18 18 = b := by
  unfold packWord
  rw [BitVec.extractLsb'_append_eq_of_le (by decide)]
  exact BitVec.extractLsb'_append_eq_right

@[simp] theorem packWord_high
    (top : BitVec 10) (c b a : BitVec 18) :
    (packWord top c b a).extractLsb' 36 18 = c := by
  unfold packWord
  rw [BitVec.extractLsb'_append_eq_of_le (by decide),
    BitVec.extractLsb'_append_eq_of_le (by decide)]
  exact BitVec.extractLsb'_append_eq_right

theorem packWord_top
    (top : BitVec 10) (c b a : BitVec 18) (n : Nat) :
    (packWord top c b a).extractLsb' 54 n = top.extractLsb' 0 n := by
  unfold packWord
  rw [BitVec.extractLsb'_append_eq_of_le (by decide),
    BitVec.extractLsb'_append_eq_of_le (by decide),
    BitVec.extractLsb'_append_eq_of_le (by decide)]

theorem startWord_eq (d : Fin numCh → BitVec 18) :
    startWord d =
      packWord (2#2 ++ (d 15).extractLsb' 0 8) (d 2) (d 1) (d 0) := by
  rfl

theorem nextWord_eq (d : Fin numCh → BitVec 18) (block : BitVec 3) :
    nextWord d block 1 =
        packWord (0#2 ++ (d 15).extractLsb' 8 8) (d 5) (d 4) (d 3) ∧
      nextWord d block 2 =
        packWord (0#8 ++ (d 15).extractLsb' 16 2) (d 8) (d 7) (d 6) ∧
      nextWord d block 3 = packWord 0#10 (d 11) (d 10) (d 9) ∧
      nextWord d block 4 = packWord (0#7 ++ block) (d 14) (d 13) (d 12) := by
  refine ⟨?_, ?_, ?_, ?_⟩ <;> simp [nextWord, packWord]

/-- **The receiver undoes the packing** of one frame. -/
theorem frameSample_frame
    (d : Fin numCh → BitVec 18) (block : BitVec 3) (ch : Fin numCh) :
    frameSample (startWord d) (nextWord d block 1) (nextWord d block 2)
      (nextWord d block 3) (nextWord d block 4) ch = d ch := by
  obtain ⟨h1, h2, h3, h4⟩ := nextWord_eq d block
  rw [startWord_eq, h1, h2, h3, h4]
  by_cases hlast : ch.val = 15
  · obtain rfl : ch = 15 := Fin.ext hlast
    unfold frameSample
    rw [if_pos hlast, packWord_top, packWord_top, packWord_top]
    have hlow : ∀ {m n : Nat} (hi : BitVec m) (lo : BitVec n),
        (hi ++ lo).extractLsb' 0 n = lo :=
      fun hi lo => BitVec.extractLsb'_append_eq_right
    rw [hlow 2#2, hlow 0#2, hlow 0#8]
    rw [BitVec.extractLsb'_append_extractLsb'_eq_extractLsb' (by decide),
      BitVec.extractLsb'_append_extractLsb'_eq_extractLsb' (by decide)]
    exact BitVec.extractLsb'_eq_self
  · unfold frameSample
    rw [if_neg hlast]
    fin_cases ch
    all_goals first
      | exact absurd rfl hlast
      | simp
    all_goals rfl

theorem isFrameStart_startWord (d : Fin numCh → BitVec 18) :
    isFrameStart (startWord d) = true := by
  obtain ⟨h63, h62⟩ := Run.frameStart_startWord d
  unfold isFrameStart
  rw [h63, h62]
  rfl

/-- The error word is not taken for the beginning of a frame. -/
theorem startWord_ne_errorWord (d : Fin numCh → BitVec 18) :
    startWord d ≠ errorWord := by
  intro heq
  have hstart := isFrameStart_startWord d
  rw [heq] at hstart
  exact absurd hstart (by decide)

theorem frameWords_eq (d : Fin numCh → BitVec 18) (block : BitVec 3) :
    frameWords d block =
      [startWord d, nextWord d block 1, nextWord d block 2,
        nextWord d block 3, nextWord d block 4] := by
  rfl

/-- The receiver takes a frame off the front of its input. -/
theorem decode_frame
    (d : Fin numCh → BitVec 18) (block : BitVec 3) (ws : List (BitVec 64)) :
    decode (frameWords d block ++ ws) = d :: decode ws := by
  have hsamples : frameSample (startWord d) (nextWord d block 1)
      (nextWord d block 2) (nextWord d block 3) (nextWord d block 4) = d :=
    funext (frameSample_frame d block)
  rw [frameWords_eq]
  simp only [List.cons_append, List.nil_append, decode,
    isFrameStart_startWord, if_true, hsamples]

/-- The beginning of a frame gives no samples yet. -/
theorem decode_short {ws : List (BitVec 64)} (hlen : ws.length < 5) :
    decode ws = [] := by
  match ws with
  | [] | [_] | [_, _] | [_, _, _] | [_, _, _, _] => rfl
  | _ :: _ :: _ :: _ :: _ :: _ => simp at hlen; omega

/-! ## The words of a run -/

/-- A run of the module from any registers. -/
structure Course where
  start : State
  input : Nat → Input

namespace Course

variable (f : Course)

/-- Registers before clock edge `t`. -/
def state (t : Nat) : State :=
  run step f.start f.input t

/-- `in_tvalid` -/
def inTvalid (t : Nat) : Bool :=
  (f.state t).inTvalid

/-- `stream_in_tvalid` -/
def streamInTvalid (t : Nat) : Bool :=
  (f.state t).framer.streamInTvalid

/-- `stream_in_tdata` -/
def streamInTdata (t : Nat) : BitVec 64 :=
  (f.state t).framer.streamInTdata

/-- `stream_in_beat` -/
def streamInBeat (t : Nat) : BitVec 4 :=
  (f.state t).framer.streamInBeat

/-- The word that clock edge `t` puts on the output, if any; it is presented in
clock `t + 1`. -/
def word (t : Nat) : List (BitVec 64) :=
  if f.streamInTvalid (t + 1) then [f.streamInTdata (t + 1)] else []

/-- The words presented in clocks `1` to `t`, in order. A word that is still on
the output in clock 0 belongs to an earlier frame. -/
def presented (t : Nat) : List (BitVec 64) :=
  eventsBefore f.word t

/-- The conversion that raises `in_tvalid` in clock `t`, if any: it was on the
inputs in the clock before. -/
def conversion (t : Nat) : List (Fin numCh → BitVec 18) :=
  if f.inTvalid t then [(f.input (t - 1)).data] else []

/-- The frame of the conversion that raises `in_tvalid` in clock `t`, if any.
The block number in its last word is that of the clock of this word. -/
def frame (t : Nat) : List (BitVec 64) :=
  (f.conversion t).flatMap fun d => frameWords d (f.input (t + 4)).block

/-- The frames of all pulses of `in_tvalid` before clock `t`, in order. -/
def frames (t : Nat) : List (BitVec 64) :=
  eventsBefore f.frame t

/-- An all-channel run from an idle framer, with conversions at least five
clocks apart. -/
structure AllChannel (f : Course) : Prop where
  allChan : ∀ t, (f.input t).allChan = true
  spaced : Spaced 5 fun t => (f.input t).valid
  beat : f.start.framer.streamInBeat = 5
  quiet : f.start.inTvalid = false

variable {f}

theorem state_succ (t : Nat) :
    f.state (t + 1) = step (f.state t) (f.input t) := by
  rfl

/-- A pulse of `in_tvalid` comes one clock after a conversion. -/
theorem AllChannel.of_inTvalid (h : f.AllChannel) {t : Nat}
    (hc : f.inTvalid t = true) :
    ∃ v, t = v + 1 ∧ (f.input v).valid = true := by
  cases t with
  | zero =>
      have hquiet : f.inTvalid 0 = false := h.quiet
      rw [hquiet] at hc
      exact absurd hc (by simp)
  | succ v =>
      refine ⟨v, rfl, ?_⟩
      have hsel : selects (f.state v).div (f.input v) = true := hc
      unfold selects at hsel
      split_ifs at hsel with _ hv
      exact hv

/-- Selected conversions are as far apart as the valid ones. -/
theorem AllChannel.conversion_spaced (h : f.AllChannel) {t u : Nat}
    (htu : t < u) (ht : f.inTvalid t = true) (hu : f.inTvalid u = true) :
    t + 5 ≤ u := by
  obtain ⟨v, rfl, hv⟩ := h.of_inTvalid ht
  obtain ⟨w, rfl, hw⟩ := h.of_inTvalid hu
  have hle := h.spaced v w (by omega) hv hw
  omega

theorem AllChannel.quiet_after (h : f.AllChannel) {u j : Nat}
    (hu : f.inTvalid u = true) (hj : 0 < j) (hj5 : j < 5) :
    f.inTvalid (u + j) = false := by
  by_contra hc
  have hle := h.conversion_spaced (t := u) (u := u + j) (by omega) hu
    (by simpa using hc)
  omega

/-- `data_reg` holds a conversion for five clocks. -/
theorem AllChannel.dataReg_kept (h : f.AllChannel) {u k : Nat}
    (hu : f.inTvalid u = true) (hk : k < 4) :
    (f.state (u + k + 1)).dataReg = (f.state (u + k)).dataReg := by
  obtain ⟨v, rfl, hv⟩ := h.of_inTvalid hu
  have hlow := h.spaced.low_after hv (j := k + 1) (by omega) (by omega)
  have hlow' : (f.input (v + 1 + k)).valid = false := by
    rw [show v + 1 + k = v + (k + 1) by omega]
    exact hlow
  rw [state_succ]
  simp [step, hlow']

theorem AllChannel.framer_conversion (h : f.AllChannel) {t : Nat}
    (hc : f.inTvalid t = true) :
    f.streamInBeat (t + 1) = 1 ∧ f.streamInTvalid (t + 1) = true ∧
      (f.streamInBeat t = 5 →
        f.streamInTdata (t + 1) = startWord (f.state t).dataReg) :=
  step_framer_conversion (f.state t) (h.allChan t) hc

theorem AllChannel.framer_quiet (h : f.AllChannel) {t : Nat}
    (hc : f.inTvalid t = false) :
    f.streamInBeat (t + 1) =
        (if f.streamInBeat t = 5 then 5 else f.streamInBeat t + 1) ∧
      f.streamInTvalid (t + 1) = decide (f.streamInBeat t ≠ 5) ∧
      f.streamInTdata (t + 1) =
        nextWord (f.state t).dataReg (f.input t).block (f.streamInBeat t) :=
  step_framer_quiet (f.state t) (h.allChan t) hc

/-- The framer is idle or `k` clocks into the frame of a conversion. -/
def InFrame (f : Course) (t : Nat) : Prop :=
  f.streamInBeat t = 5 ∨
    ∃ u k, t = u + k ∧ 1 ≤ k ∧ k ≤ 4 ∧
      f.streamInBeat t = BitVec.ofNat 4 k ∧ f.inTvalid u = true

/-- The framer is idle when a conversion comes. -/
theorem AllChannel.beat_of_conversion (h : f.AllChannel) {t : Nat}
    (hin : f.InFrame t) (hc : f.inTvalid t = true) :
    f.streamInBeat t = 5 := by
  rcases hin with hidle | ⟨u, k, rfl, hk1, hk4, _, hu⟩
  · exact hidle
  · rw [h.quiet_after hu hk1 (by omega)] at hc
    exact absurd hc (by simp)

/-- The numbers of the words inside a frame. -/
theorem ofNat_beat {k : Nat} (hk : k ≤ 4) :
    BitVec.ofNat 4 k ≠ 5 ∧
      BitVec.ofNat 4 k + 1 = BitVec.ofNat 4 (k + 1) := by
  have hall : ∀ k, k ≤ 4 → BitVec.ofNat 4 k ≠ 5 ∧
      BitVec.ofNat 4 k + 1 = BitVec.ofNat 4 (k + 1) := by
    decide
  exact hall k hk

theorem AllChannel.inFrame (h : f.AllChannel) (t : Nat) :
    f.InFrame t := by
  induction t with
  | zero =>
      exact .inl h.beat
  | succ t ih =>
      cases hc : f.inTvalid t with
      | true =>
          exact .inr ⟨t, 1, rfl, le_refl _, by omega,
            (h.framer_conversion hc).1, hc⟩
      | false =>
          have hnext := (h.framer_quiet hc).1
          rcases ih with hidle | ⟨u, k, rfl, hk1, hk4, hbeat, hu⟩
          · left
            rw [hnext, if_pos hidle]
          · obtain ⟨hne, hsucc⟩ := ofNat_beat hk4
            rw [hbeat, if_neg hne, hsucc] at hnext
            by_cases hlast : k = 4
            · left
              rw [hnext, hlast]
              rfl
            · exact .inr ⟨u, k + 1, by omega, by omega, by omega, hnext, hu⟩

/-- Words of the current frame that are still to come. -/
def rest (f : Course) (t : Nat) : List (BitVec 64) :=
  wordsFrom (f.state t).dataReg
    (f.input (t + 4 - (f.streamInBeat t).toNat)).block
    (f.streamInBeat t).toNat

theorem rest_idle {t : Nat} (hbeat : f.streamInBeat t = 5) :
    f.rest t = [] := by
  unfold rest
  rw [hbeat]
  exact wordsFrom_five _ _

theorem rest_of_beat {t k : Nat} (hk : k ≤ 5)
    (hbeat : f.streamInBeat t = BitVec.ofNat 4 k) :
    f.rest t = wordsFrom (f.state t).dataReg (f.input (t + 4 - k)).block k := by
  have hnat : (f.streamInBeat t).toNat = k := by
    rw [hbeat, BitVec.toNat_ofNat, Nat.mod_eq_of_lt (by omega)]
  unfold rest
  rw [hnat]

theorem frame_of_quiet {t : Nat} (hc : f.inTvalid t = false) :
    f.frame t = [] := by
  simp [frame, conversion, hc]

theorem AllChannel.frame_of_conversion (h : f.AllChannel) {t : Nat}
    (hc : f.inTvalid t = true) :
    f.frame t = frameWords (f.state t).dataReg (f.input (t + 4)).block := by
  obtain ⟨v, rfl, hv⟩ := h.of_inTvalid hc
  have hdata : (f.state (v + 1)).dataReg = (f.input v).data := by
    rw [state_succ]
    simp [step, hv]
  simp [frame, conversion, hc, hdata]

/-- In a clock with a conversion the first word of its frame goes out. -/
theorem AllChannel.clock_conversion (h : f.AllChannel) {t : Nat}
    (hc : f.inTvalid t = true) :
    f.word t ++ f.rest (t + 1) = f.rest t ++ f.frame t := by
  have hbeat := h.beat_of_conversion (h.inFrame t) hc
  obtain ⟨hnext, hvalid, hdata⟩ := h.framer_conversion hc
  have hreg := h.dataReg_kept hc (k := 0) (by omega)
  rw [rest_idle hbeat, rest_of_beat (k := 1) (by omega) hnext,
    h.frame_of_conversion hc]
  unfold word frameWords
  rw [if_pos hvalid, hdata hbeat, show t + 1 + 4 - 1 = t + 4 by omega]
  rw [Nat.add_zero] at hreg
  rw [hreg]
  rfl

/-- In a clock inside a frame its next word goes out. -/
theorem AllChannel.clock_inside (h : f.AllChannel) {u k : Nat}
    (hk1 : 1 ≤ k) (hk4 : k ≤ 4)
    (hbeat : f.streamInBeat (u + k) = BitVec.ofNat 4 k)
    (hu : f.inTvalid u = true) :
    f.word (u + k) ++ f.rest (u + k + 1) = f.rest (u + k) := by
  obtain ⟨hne, hsucc⟩ := ofNat_beat hk4
  have hquiet := h.quiet_after hu hk1 (by omega)
  obtain ⟨hnext, hvalid, hdata⟩ := h.framer_quiet hquiet
  rw [hbeat, if_neg hne, hsucc] at hnext
  rw [hbeat, decide_eq_true hne] at hvalid
  rw [rest_of_beat (k := k) (by omega) hbeat,
    rest_of_beat (k := k + 1) (by omega) hnext,
    wordsFrom_cons _ _ (show k < 5 by omega),
    show u + k + 1 + 4 - (k + 1) = u + k + 4 - k by omega]
  unfold word
  rw [if_pos hvalid, hdata, hbeat]
  by_cases hlast : k = 4
  · subst hlast
    rfl
  · -- the block number is not yet in the word, and the samples are still there
    have hbeat' : BitVec.ofNat 4 k = 1 ∨ BitVec.ofNat 4 k = 2 ∨
        BitVec.ofNat 4 k = 3 := by
      obtain rfl | rfl | rfl : k = 1 ∨ k = 2 ∨ k = 3 := by omega
      · exact .inl rfl
      · exact .inr (.inl rfl)
      · exact .inr (.inr rfl)
    rw [h.dataReg_kept hu (by omega),
      nextWord_block _ (f.input (u + k)).block (f.input (u + k + 4 - k)).block
        hbeat']
    rfl

/-- **Conservation of frames.** The words presented and those still to come are
the frames of the conversions so far. -/
theorem AllChannel.frames_conservation (h : f.AllChannel) (t : Nat) :
    f.presented t ++ f.rest t = f.frames t := by
  refine eventsBefore_conservation f.rest (fun t => ?_) (rest_idle h.beat) t
  cases hc : f.inTvalid t with
  | true => exact h.clock_conversion hc
  | false =>
      rw [frame_of_quiet hc, List.append_nil]
      rcases h.inFrame t with hidle | ⟨u, k, rfl, hk1, hk4, hbeat, hu⟩
      · obtain ⟨hnext, hvalid, _⟩ := h.framer_quiet hc
        rw [if_pos hidle] at hnext
        rw [rest_idle hidle, rest_idle hnext]
        simp [word, hvalid, hidle]
      · exact h.clock_inside hk1 hk4 hbeat hu

/-! ## What the receiver gets -/

/-- The receiver takes whole frames off the front of its input. -/
theorem decode_frames (f : Course) (t : Nat) (ws : List (BitVec 64)) :
    decode (f.frames t ++ ws) = eventsBefore f.conversion t ++ decode ws := by
  induction t generalizing ws with
  | zero =>
      rfl
  | succ t ih =>
      unfold frames at ih ⊢
      rw [eventsBefore_succ, eventsBefore_succ, List.append_assoc, ih,
        List.append_assoc]
      congr 1
      cases hc : f.inTvalid t with
      | true => simp [frame, conversion, hc, decode_frame]
      | false => simp [frame, conversion, hc]

/-- No more than one word is presented in a clock. -/
theorem presented_add (f : Course) (u k : Nat) :
    ∃ ws, f.presented (u + k) = f.presented u ++ ws ∧ ws.length ≤ k := by
  induction k with
  | zero =>
      exact ⟨[], by simp, le_refl _⟩
  | succ k ih =>
      obtain ⟨ws, heq, hlen⟩ := ih
      have hword : (f.word (u + k)).length ≤ 1 := by
        unfold word
        split_ifs <;> simp
      refine ⟨ws ++ f.word (u + k), ?_, ?_⟩
      · unfold presented at heq ⊢
        rw [← Nat.add_assoc, eventsBefore_succ, heq, List.append_assoc]
      · rw [List.length_append]
        omega

/-- While the framer works on a frame its number counts the clocks. -/
theorem AllChannel.beat_after_conversion (h : f.AllChannel) {u k : Nat}
    (hu : f.inTvalid u = true) (hk : k < 4) :
    f.streamInBeat (u + k + 1) = BitVec.ofNat 4 (k + 1) := by
  induction k with
  | zero =>
      exact (h.framer_conversion hu).1
  | succ k ih =>
      have hquiet := h.quiet_after hu (j := k + 1) (by omega) (by omega)
      obtain ⟨hne, hsucc⟩ := ofNat_beat (k := k + 1) (by omega)
      have hbeat : f.streamInBeat (u + (k + 1)) = BitVec.ofNat 4 (k + 1) :=
        ih (by omega)
      have hnext := (h.framer_quiet hquiet).1
      rw [hbeat, if_neg hne, hsucc] at hnext
      exact hnext

/-- An idle framer has not seen a conversion for four clocks. -/
theorem AllChannel.quiet_of_idle (h : f.AllChannel) {t w : Nat}
    (hidle : f.streamInBeat t = 5) (hlow : t - 4 ≤ w) (hlt : w < t) :
    f.inTvalid w = false := by
  by_contra hc
  have hbeat := h.beat_after_conversion (u := w) (k := t - w - 1)
    (by simpa using hc) (by omega)
  rw [show w + (t - w - 1) + 1 = t by omega, hidle] at hbeat
  exact (ofNat_beat (k := t - w - 1 + 1) (by omega)).1 hbeat.symm

/-- The receiver has the samples of every conversion whose frame is complete. -/
theorem AllChannel.decode_presented (h : f.AllChannel) (t : Nat) :
    decode (f.presented t) = eventsBefore f.conversion (t - 4) := by
  have hnone : ∀ w, f.inTvalid w = false → f.conversion w = [] := by
    intro w hw
    simp [conversion, hw]
  rcases h.inFrame t with hidle | ⟨u, k, rfl, hk1, hk4, _, hu⟩
  · have hframes := h.frames_conservation t
    rw [rest_idle hidle, List.append_nil] at hframes
    have hdecode := decode_frames f t []
    rw [List.append_nil, ← hframes] at hdecode
    rw [hdecode, eventsBefore_of_quiet (Nat.sub_le t 4)
      (fun w hlow hlt => hnone w (h.quiet_of_idle hidle hlow hlt))]
    simp [decode]
  · obtain ⟨ws, heq, hlen⟩ := f.presented_add u k
    have hidle := h.beat_of_conversion (h.inFrame u) hu
    have hframes := h.frames_conservation u
    rw [rest_idle hidle, List.append_nil] at hframes
    have hquiet : ∀ w, u + k - 4 ≤ w → w < u → f.conversion w = [] := by
      intro w hlow hlt
      refine hnone w ?_
      by_contra hc
      have := h.conversion_spaced hlt (by simpa using hc) hu
      omega
    rw [heq, hframes, decode_frames, decode_short (by omega), List.append_nil,
      eventsBefore_of_quiet (a := u + k - 4) (by omega) hquiet]

/-- **All-channel framing is lossless and decodable.** The words presented are
the frames of the selected conversions, in order and each complete before the
framer is idle again; a frame begins with a marked word, never with the error
word; and the receiver gets all samples of every conversion from its frame. -/
theorem framing_decodable (f : Course) (h : f.AllChannel) :
    (∀ t, f.presented t <+: f.frames t ∧
      (f.streamInBeat t = 5 → f.presented t = f.frames t)) ∧
    (∀ t, f.inTvalid t = true →
      f.streamInTvalid (t + 1) = true ∧
        isFrameStart (f.streamInTdata (t + 1)) = true ∧
        f.streamInTdata (t + 1) ≠ errorWord) ∧
    (∀ t, decode (f.presented t) = eventsBefore f.conversion (t - 4)) := by
  refine ⟨fun t => ⟨⟨_, h.frames_conservation t⟩, fun hidle => ?_⟩,
    fun t hc => ?_, h.decode_presented⟩
  · have hframes := h.frames_conservation t
    rw [rest_idle hidle, List.append_nil] at hframes
    exact hframes
  · have hbeat := h.beat_of_conversion (h.inFrame t) hc
    obtain ⟨_, hvalid, hdata⟩ := h.framer_conversion hc
    rw [hdata hbeat]
    exact ⟨hvalid, isFrameStart_startWord _, startWord_ne_errorWord _⟩

/-- The samples of clock `t` of a test pattern. -/
def pattern (t : Nat) (ch : Fin numCh) : BitVec 18 :=
  BitVec.ofNat 18 (1000 * t + 16383 * ch.val)

/-- An idle framer, and a conversion in every fifth clock. -/
def everyFifth : Course where
  start := { Run.powerUp with framer := ⟨false, 0, 5⟩ }
  input t :=
    { Run.periodicInput 5 t with
      data := pattern t
      valid := decide (t % 5 = 0)
      ena := true }

theorem everyFifth_allChannel : everyFifth.AllChannel := by
  refine ⟨fun _ => rfl, fun t u htu ht hu => ?_, rfl, rfl⟩
  have ht' : t % 5 = 0 := of_decide_eq_true ht
  have hu' : u % 5 = 0 := of_decide_eq_true hu
  omega

theorem framing_decodable_everyFifth :
    decode (everyFifth.presented 11) = [pattern 0, pattern 5] :=
  ((framing_decodable everyFifth everyFifth_allChannel).2.2 11).trans rfl

end Course

end SubsystemStream
end MollerFirmware
