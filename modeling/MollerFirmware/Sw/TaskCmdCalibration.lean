import MollerFirmware.Hdl.SubsystemAdc
import MollerFirmware.Memory.Loops
import MollerFirmware.Sw.TaskCmd
import MollerFirmware.Sw.TaskCmdServer

/-!
# task_cmd: start of the firmware

Before it serves requests the command thread calibrates the input delays of the
converters (`adc_init`) and starts the streamer (`data_init`). The board is what
the thread sees of the firmware: the registers of the bank and the error
counters, connected as in `system_top`. Between two accesses of the thread the
firmware runs for a number of clocks with samples that depend on anything at
all; the waits of the thread show in nothing but these clocks.
-/

namespace MollerFirmware
namespace TaskCmd

open Clocked Memory MollerRegs SubsystemAdc

/-! ## The board -/

/-- Registers and counters, and the number of accesses to them so far. -/
structure Board where
  regs : Regs
  counters : SubsystemAdc.State 16
  accesses : Nat

/-- What comes from outside: the samples in the clocks between an access and the
next one, and what else the bank shows at an access. -/
structure World where
  samples : Nat → List (Samples 16)
  status : Nat → Status

/-- The inputs of `subsystem_adc` in a clock without reset. -/
def adcInput (regs : Regs) (d : Samples 16) : Input 16 :=
  { rst := false
    resetCounters := regs.adcCtrlClearCounters == 1
    adcTestpat := regs.adcCtrlTestpattern == 1
    samples := d }

/-- The clocks up to the next access. -/
def Board.elapse (w : World) (b : Board) : Board :=
  { b with
    counters := (w.samples b.accesses).foldl
      (fun s d => SubsystemAdc.step s (adcInput b.regs d)) b.counters
    accesses := b.accesses + 1 }

/-- What the bank shows at an access. -/
def Board.status (w : World) (b : Board) : Status :=
  { w.status b.accesses with
    adcTestDataBadPatternCounter := b.counters.badDataCounter
    adcTestDataBadDcoCounter := b.counters.badDcoCounter }

/-- `moller_regmap[addr] = data` -/
def poke (w : World) (addr : Nat) (data : BitVec 32) (b : Board) :
    Option Board := do
  let regs ← busWrite b.regs addr data
  some ({ b with regs := regs }.elapse w)

/-- `moller_regmap[addr]` and the board after this access. -/
def peek (w : World) (addr : Nat) (b : Board) :
    Option (BitVec 32 × Board) := do
  let x ← busRead b.regs (b.status w) addr
  some (x, b.elapse w)

/-! ## Calibration -/

/-- The board and `error_counters`. -/
structure Calibration where
  board : Board
  errorCounters : Nat → Nat → BitVec 32

/-- `error_counters[ch][n] = x` -/
def Calibration.store (c : Calibration) (ch n : Nat) (x : BitVec 32) :
    Nat → Nat → BitVec 32 :=
  Function.update c.errorCounters ch
    (Function.update (c.errorCounters ch) n x)

/-- The loop that sets the delay of every channel. -/
def setDelays (w : World) (delay : Nat → BitVec 32) : Board → Option Board :=
  forLoop (fun ch => poke w (0x60 / 4 + ch) (delay ch)) 16

/-- The counters of one channel are read and stored. -/
def storeCounter (w : World) (n ch : Nat) (c : Calibration) :
    Option Calibration := do
  let p ← peek w (0x00 / 4 + ch) c.board
  some
    { board := p.2
      errorCounters := c.store ch n p.1 }

/-- The loop that stores the counters of every channel. -/
def storeCounters (w : World) (n : Nat) : Calibration → Option Calibration :=
  forLoop (storeCounter w n) 16

/-- One of the 512 delays. -/
def tryDelay (w : World) (n : Nat) (c : Calibration) : Option Calibration := do
  let b ← setDelays w (fun _ => BitVec.ofNat 32 n) c.board
  let b ← poke w (0x48 / 4) 0xD0000000 b
  let b ← poke w (0x48 / 4) 0xC0000000 b
  storeCounters w n { c with board := b }

def adcInit (w : World) (c : Calibration) : Option Board := do
  let c ← forLoop (tryDelay w) 512 c
  let b ← setDelays w
    (fun ch => BitVec.ofNat 32 (findMidOfLongestRun (c.errorCounters ch) 512))
    c.board
  let b ← poke w (0x48 / 4) 0x90000000 b
  poke w (0x48 / 4) 0x80000000 b

def dataInit (w : World) (b : Board) : Option Board :=
  poke w (0x44 / 4) 0x80002000 b

/-- What the thread does before its loop; `error_counters` has some contents at
first. -/
def init (w : World) (c : Calibration) : Option Board := do
  let b ← adcInit w c
  dataInit w b

/-! ## Single accesses -/

@[simp] theorem Board.elapse_regs (w : World) (b : Board) :
    (b.elapse w).regs = b.regs := by
  rfl

@[simp] theorem Board.elapse_accesses (w : World) (b : Board) :
    (b.elapse w).accesses = b.accesses + 1 := by
  rfl

theorem poke_of_word (w : World) (data : BitVec 32) (b : Board)
    {r : Register} (hw : r.writable = true) :
    poke w r.word data b =
      some ({ b with regs := b.regs.write data (BitVec.allOnes 4) r }.elapse
        w) := by
  rw [poke, busWrite_of_word, if_pos hw]
  rfl

theorem peek_of_word (w : World) (b : Board) (r : Register) :
    peek w r.word b =
      some (content b.regs (b.status w) r, b.elapse w) := by
  rw [peek, busRead_of_word]
  rfl

/-- Registers that agree but for the delays and `adc_ctrl`. -/
def SameElsewhere (regs regs' : Regs) : Prop :=
  ∀ r s, r ≠ .adcCtrl → (∀ i, r ≠ .adcDelayIn i) →
    content regs' s r = content regs s r

theorem SameElsewhere.trans {a b c : Regs}
    (hab : SameElsewhere a b) (hbc : SameElsewhere b c) :
    SameElsewhere a c :=
  fun r s hctrl hdelay => (hbc r s hctrl hdelay).trans (hab r s hctrl hdelay)

theorem sameElsewhere_write_adcDelayIn (regs : Regs) (data : BitVec 32)
    (i : Fin 16) :
    SameElsewhere regs
      (regs.write data (BitVec.allOnes 4) (.adcDelayIn i)) :=
  fun _ s _ hdelay => content_write_of_ne regs s data _ (hdelay i)

/-! ## The loops -/

/-- The first `ch` delays have been set since `b₀`. -/
structure DelaysSet (delay : Nat → BitVec 32) (b₀ : Board) (ch : Nat)
    (b : Board) : Prop where
  accesses : b.accesses = b₀.accesses + ch
  delays : ∀ i : Fin 16, i.val < ch →
    b.regs.adcDelayInValue i = (delay i).extractLsb' 0 9
  same : SameElsewhere b₀.regs b.regs

theorem DelaysSet.next {w : World} {delay : Nat → BitVec 32} {b₀ b : Board}
    {ch : Nat} (hch : ch < 16) (h : DelaysSet delay b₀ ch b) :
    ∃ b', poke w (0x60 / 4 + ch) (delay ch) b = some b' ∧
      DelaysSet delay b₀ (ch + 1) b' := by
  refine ⟨_, poke_of_word w (delay ch) b (r := .adcDelayIn ⟨ch, hch⟩) rfl,
    ?_, fun i hi => ?_, h.same.trans (sameElsewhere_write_adcDelayIn _ _ _)⟩
  · rw [Board.elapse_accesses, h.accesses, Nat.add_assoc]
  · rw [Board.elapse_regs]
    simp only [Regs.write]
    rcases Nat.lt_succ_iff_lt_or_eq.mp hi with hlt | heq
    · have hne : i ≠ ⟨ch, hch⟩ := by
        rintro rfl
        exact absurd hlt (Nat.lt_irrefl ch)
      rw [Function.update_of_ne hne]
      exact h.delays i hlt
    · have hi : i = ⟨ch, hch⟩ := Fin.ext heq
      subst hi
      rw [Function.update_self, strobed_allOnes _ _ (by decide)]

theorem setDelays_spec (w : World) (delay : Nat → BitVec 32) (b : Board) :
    ∃ b', setDelays w delay b = some b' ∧ DelaysSet delay b 16 b' :=
  forLoop_spec
    ⟨rfl, fun _ hi => absurd hi (Nat.not_lt_zero _), fun _ _ _ _ => rfl⟩
    (fun _ hch _ h => h.next hch)

/-- The samples after access `a` and the `ch` ones that followed it. -/
def World.since (w : World) (a ch : Nat) : List (Samples 16) :=
  (List.range (ch + 1)).flatMap fun j => w.samples (a + j)

theorem World.since_zero (w : World) (a : Nat) :
    w.since a 0 = w.samples a := by
  simp [World.since]

theorem World.since_succ (w : World) (a ch : Nat) :
    w.since a (ch + 1) = w.since a ch ++ w.samples (a + (ch + 1)) := by
  simp [World.since, List.range_succ]

/-- Counters that run. -/
theorem elapse_counted {w : World} {b : Board} {ds : List (Samples 16)}
    (hcontrols : ∀ d, adcInput b.regs d = testing d)
    (hcounters : b.counters = counted ds) :
    (b.elapse w).counters = counted (ds ++ w.samples b.accesses) := by
  simp only [Board.elapse, hcontrols, hcounters, counted, List.foldl_append]

/-- Counters that are held clear. -/
theorem elapse_cleared {w : World} {b : Board}
    (hcontrols : ∀ d, (adcInput b.regs d).resetCounters = true)
    (hclocks : w.samples b.accesses ≠ []) :
    (b.elapse w).counters = cleared := by
  obtain ⟨ds, d, hds⟩ := List.eq_nil_or_concat' _ |>.resolve_left hclocks
  simp only [Board.elapse, hds, List.foldl_append, List.foldl_cons,
    List.foldl_nil]
  exact step_clears _ (hcontrols d)

/-- The register of a channel after some samples. -/
def shown (ds : List (Samples 16)) (i : Fin 16) : BitVec 32 :=
  (counted ds).badDcoCounter i ++ (counted ds).badDataCounter i

/-- The counters of the first `ch` channels have been stored since `c₀`; they
have run since access `a`. -/
structure CountersStored (w : World) (n a : Nat) (c₀ : Calibration) (ch : Nat)
    (c : Calibration) : Prop where
  accesses : c.board.accesses = a + 1 + ch
  regs : c.board.regs = c₀.board.regs
  counters : c.board.counters = counted (w.since a ch)
  stored : ∀ i : Fin 16, i.val < ch →
    c.errorCounters i n = shown (w.since a i) i
  kept : ∀ i m, m ≠ n → c.errorCounters i m = c₀.errorCounters i m

theorem storeCounter_of_word (w : World) (n : Nat) (c : Calibration) {ch : Nat}
    (hch : ch < 16) :
    storeCounter w n ch c = some
      { board := c.board.elapse w
        errorCounters := c.store ch n
          (content c.board.regs (c.board.status w)
            (.adcTestData ⟨ch, hch⟩)) } := by
  have hpeek := peek_of_word w c.board (.adcTestData ⟨ch, hch⟩)
  have hword : (Register.adcTestData ⟨ch, hch⟩).word = 0x00 / 4 + ch := rfl
  rw [hword] at hpeek
  rw [storeCounter, hpeek]
  rfl

theorem CountersStored.next {w : World} {n a : Nat} {c₀ c : Calibration}
    {ch : Nat} (hcontrols : ∀ d, adcInput c₀.board.regs d = testing d)
    (hch : ch < 16) (h : CountersStored w n a c₀ ch c) :
    ∃ c', storeCounter w n ch c = some c' ∧
      CountersStored w n a c₀ (ch + 1) c' := by
  refine ⟨_, storeCounter_of_word w n c hch, ?_, h.regs, ?_, fun i hi => ?_,
    fun i m hm => ?_⟩
  · rw [Board.elapse_accesses, h.accesses, Nat.add_assoc]
  · have hat : a + (ch + 1) = c.board.accesses := by
      rw [h.accesses]
      omega
    rw [World.since_succ, hat]
    exact elapse_counted (fun d => h.regs ▸ hcontrols d) h.counters
  · simp only [Calibration.store]
    rcases Nat.lt_succ_iff_lt_or_eq.mp hi with hlt | heq
    · rw [Function.update_of_ne (by omega)]
      exact h.stored i hlt
    · have hi : i = ⟨ch, hch⟩ := Fin.ext heq
      subst hi
      rw [Function.update_self, Function.update_self]
      simp only [content, Board.status, h.counters, shown]
  · simp only [Calibration.store]
    by_cases heq : i = ch
    · rw [heq, Function.update_self, Function.update_of_ne hm]
      exact h.kept ch m hm
    · rw [Function.update_of_ne heq]
      exact h.kept i m hm

theorem storeCounters_spec {w : World} (n : Nat) {c : Calibration} {a : Nat}
    (hcontrols : ∀ d, adcInput c.board.regs d = testing d)
    (haccesses : c.board.accesses = a + 1)
    (hcounters : c.board.counters = counted (w.samples a)) :
    ∃ c', storeCounters w n c = some c' ∧ CountersStored w n a c 16 c' :=
  forLoop_spec
    ⟨haccesses, rfl, by rw [World.since_zero, hcounters],
      fun _ hi => absurd hi (Nat.not_lt_zero _), fun _ _ _ => rfl⟩
    (fun _ hch _ h => h.next hcontrols hch)

/-! ## The control register -/

/-- The board after a write to `adc_ctrl`. -/
def Board.control (w : World) (data : BitVec 32) (b : Board) : Board :=
  { b with regs := b.regs.write data (BitVec.allOnes 4) .adcCtrl }.elapse w

theorem poke_adcCtrl (w : World) (data : BitVec 32) (b : Board) :
    poke w (0x48 / 4) data b = some (b.control w data) :=
  poke_of_word w data b (r := .adcCtrl) rfl

theorem control_adcInput (w : World) (data : BitVec 32) (b : Board)
    (d : Samples 16) :
    adcInput (b.control w data).regs d =
      { rst := false
        resetCounters := data.extractLsb' 28 1 == 1
        adcTestpat := data.extractLsb' 30 1 == 1
        samples := d } := by
  simp only [Board.control, Board.elapse_regs, adcInput, Regs.write]
  rw [strobed_allOnes _ _ (by decide), strobed_allOnes _ _ (by decide)]

theorem control_testing (w : World) (b : Board) (d : Samples 16) :
    adcInput (b.control w 0xC0000000).regs d = testing d := by
  rw [control_adcInput]
  rfl

/-- The counters are cleared by the first of the two writes and run from the
second one on. -/
theorem control_counters {w : World} {b : Board}
    (hclear : w.samples b.accesses ≠ []) :
    ((b.control w 0xD0000000).control w 0xC0000000).counters =
      counted (w.samples (b.accesses + 1)) := by
  have hcleared : (b.control w 0xD0000000).counters = counted [] := by
    refine elapse_cleared (fun d => ?_) hclear
    have hcontrols := control_adcInput w 0xD0000000 b d
    rw [Board.control, Board.elapse_regs] at hcontrols
    rw [hcontrols]
    rfl
  exact elapse_counted
    (b := { b.control w 0xD0000000 with
      regs := (b.control w 0xD0000000).regs.write 0xC0000000
        (BitVec.allOnes 4) .adcCtrl })
    (control_testing w (b.control w 0xD0000000)) hcleared

theorem control_same (w : World) (data : BitVec 32) (b : Board) :
    SameElsewhere b.regs (b.control w data).regs :=
  fun _ s hctrl _ => content_write_of_ne b.regs s data _ hctrl

/-! ## Calibration -/

/-- At delay `n` channel `i` had no bad sample while its counters ran; the
thread had made `k` accesses when it started. -/
def Good (w : World) (k : Nat) (i : Fin 16) (n : Nat) : Prop :=
  ∀ d ∈ w.since (k + 34 * n + 17) i, badDco i d = false ∧ badData i d = false

/-- The first `n` delays have been tried since `c₀`. -/
structure Tried (w : World) (c₀ : Calibration) (n : Nat) (c : Calibration) :
    Prop where
  accesses : c.board.accesses = c₀.board.accesses + 34 * n
  tested : ∀ (i : Fin 16), ∀ m < n,
    c.errorCounters i m = 0 ↔ Good w c₀.board.accesses i m
  same : SameElsewhere c₀.board.regs c.board.regs

theorem Tried.next {w : World} {c₀ c : Calibration} {n : Nat}
    (hclear : w.samples (c₀.board.accesses + 34 * n + 16) ≠ [])
    (h : Tried w c₀ n c) :
    ∃ c', tryDelay w n c = some c' ∧ Tried w c₀ (n + 1) c' := by
  obtain ⟨b, hb, hset⟩ :=
    setDelays_spec w (fun _ => BitVec.ofNat 32 n) c.board
  have hat : b.accesses = c₀.board.accesses + 34 * n + 16 := by
    rw [hset.accesses, h.accesses]
  obtain ⟨c', hc', hstored⟩ := storeCounters_spec n (w := w)
    (c := { c with
      board := (b.control w 0xD0000000).control w 0xC0000000 })
    (a := b.accesses + 1) (control_testing w _) rfl (control_counters (hat ▸ hclear))
  refine ⟨c', ?_, ?_, fun i m hm => ?_, ?_⟩
  · rw [tryDelay, hb]
    simp only [Option.bind_eq_bind, Option.bind_some, poke_adcCtrl, hc']
  · rw [hstored.accesses]
    omega
  · rcases Nat.lt_succ_iff_lt_or_eq.mp hm with hlt | rfl
    · rw [hstored.kept i m (by omega)]
      exact h.tested i m hlt
    · rw [hstored.stored i i.isLt, hat]
      exact counted_eq_zero_iff _ i
  · rw [hstored.regs]
    exact h.same.trans (hset.same.trans
      ((control_same w _ b).trans (control_same w _ _)))

/-- All delays tried. -/
theorem tried_all {w : World} {c : Calibration}
    (hclear : ∀ n < 512, w.samples (c.board.accesses + 34 * n + 16) ≠ []) :
    ∃ c', forLoop (tryDelay w) 512 c = some c' ∧ Tried w c 512 c' :=
  forLoop_spec
    ⟨rfl, fun _ _ hm => absurd hm (Nat.not_lt_zero _), fun _ _ _ _ => rfl⟩
    (fun n hn _ h => h.next (hclear n hn))

/-- The board after `data_init`. -/
def Board.stream (w : World) (b : Board) : Board :=
  { b with regs :=
      b.regs.write 0x80002000 (BitVec.allOnes 4) .streamCtrl }.elapse w

theorem dataInit_eq (w : World) (b : Board) :
    dataInit w b = some (b.stream w) :=
  poke_of_word w 0x80002000 b (r := .streamCtrl) rfl

theorem stream_content_of_ne (w : World) (b : Board) (s : Status)
    {r : Register} (hne : r ≠ .streamCtrl) :
    content (b.stream w).regs s r = content b.regs s r :=
  content_write_of_ne b.regs s 0x80002000 _ hne

/-- The register of a channel that was set to a place of the 512. -/
theorem toNat_extract_ofNat {n : Nat} (hn : n < 512) :
    ((BitVec.ofNat 32 n).extractLsb' 0 9).toNat = n := by
  rw [BitVec.extractLsb'_toNat, BitVec.toNat_ofNat, Nat.shiftRight_zero]
  omega

/-- **Calibration.** As long as there is a clock in each of the times in which
the counters are held clear, the start of the firmware does not fail, and each
channel gets the middle of the first among the longest runs of delays at which
it had no bad sample; so it had none at the delay that it gets, if it had none
at any. Then the counters run, without test pattern, the streamer is on, and
the other registers are as before. -/
theorem init_calibrates (w : World) (c : Calibration)
    (hclear : ∀ n < 512, w.samples (c.board.accesses + 34 * n + 16) ≠ []) :
    ∃ b, init w c = some b ∧
      (∀ i : Fin 16, ∃ start len,
        Best (IsRun (Good w c.board.accesses i) 512) start len ∧
        (b.regs.adcDelayInValue i).toNat = start + len / 2 ∧
        ((∃ n < 512, Good w c.board.accesses i n) →
          Good w c.board.accesses i (b.regs.adcDelayInValue i).toNat)) ∧
      ∀ s, content b.regs s .adcCtrl = 0x80000000 ∧
        content b.regs s .streamCtrl = 0x80002000 ∧
        ∀ r, r ≠ .adcCtrl → r ≠ .streamCtrl → (∀ i, r ≠ .adcDelayIn i) →
          content b.regs s r = content c.board.regs s r := by
  obtain ⟨c', hc', htried⟩ := tried_all hclear
  obtain ⟨b, hb, hset⟩ := setDelays_spec w
    (fun ch => BitVec.ofNat 32 (findMidOfLongestRun (c'.errorCounters ch) 512))
    c'.board
  refine ⟨((b.control w 0x90000000).control w 0x80000000).stream w, ?_,
    fun i => ?_, fun s => ⟨?_, ?_, fun r hctrl hstream hdelay => ?_⟩⟩
  · rw [init, adcInit, hc']
    simp only [Option.bind_eq_bind, Option.bind_some, hb, poke_adcCtrl,
      dataInit_eq]
  · have hbest := (best_closeRun (c'.errorCounters i) 512).congr
      (isRun_congr fun m hm => htried.tested i m hm)
    have hvalue : (b.regs.adcDelayInValue i).toNat =
        findMidOfLongestRun (c'.errorCounters i) 512 := by
      rw [hset.delays i i.isLt]
      exact toNat_extract_ofNat (hbest.mid_lt (by decide))
    refine ⟨_, _, hbest, hvalue, ?_⟩
    rintro ⟨n, hn, hgood⟩
    exact hvalue ▸ hbest.good_mid hn hgood
  · rw [stream_content_of_ne w _ s (by decide)]
    exact content_write_full _ s 0x80000000 (r := .adcCtrl) rfl
  · exact content_write_full _ s 0x80002000 (r := .streamCtrl) rfl
  · rw [stream_content_of_ne w _ s hstream]
    exact (htried.same.trans (hset.same.trans
      ((control_same w _ b).trans (control_same w _ _)))) r s hctrl hdelay

/-- Converters that send their pattern at every delay, one sample between two
accesses. -/
def faultless : World :=
  { samples := fun _ =>
      [{ adcValid := true
         adcChValid := fun _ => true
         adcData := fun _ => testPattern }]
    status := fun _ => Run.noStatus }

/-- The board after reset. -/
def uncalibrated : Calibration :=
  { board :=
      { regs := Regs.reset
        counters := cleared
        accesses := 0 }
    errorCounters := fun _ _ => 0 }

theorem faultless_good (i : Fin 16) (n : Nat) :
    Good faultless uncalibrated.board.accesses i n := by
  intro d hd
  obtain ⟨j, -, hj⟩ := List.mem_flatMap.mp hd
  rw [List.mem_singleton.mp hj]
  exact ⟨rfl, rfl⟩

/-- They get the delay in the middle. -/
theorem init_calibrates_faultless :
    ∃ b, init faultless uncalibrated = some b ∧
      ∀ i, (b.regs.adcDelayInValue i).toNat = 256 := by
  obtain ⟨b, hb, hdelays, -⟩ :=
    init_calibrates faultless uncalibrated
      (fun n _ => List.cons_ne_nil _ [])
  refine ⟨b, hb, fun i => ?_⟩
  obtain ⟨start, len, hbest, hvalue, -⟩ := hdelays i
  have hall : IsRun (Good faultless uncalibrated.board.accesses i) 512 0 512 :=
    { pos := by decide
      inside := fun m _ _ => faultless_good i m
      left := fun _ hm => absurd hm (by omega)
      le := by decide
      right := fun hlt => absurd hlt (by decide) }
  have hfirst := hbest.first 0 512 hall
  have hle := (hbest.mem (by omega)).le
  omega

end TaskCmd
end MollerFirmware
