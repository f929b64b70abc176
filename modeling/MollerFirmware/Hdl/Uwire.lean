import MollerFirmware.Clocked.Signals
import Mathlib.Data.BitVec
import Mathlib.Data.Nat.Log

/-!
# uwire_lmk04816 and uwire_loader

The programming of the clock chip. `uwire_lmk04816` serialises a word of 32
bits, most significant bit first, on the three lines of the chip's interface;
`uwire_loader` hands it the configured words, the last one first, and is done
when none is left. The two are connected as in `subsystem_clock`.

The chip itself is a `Receiver`: an observer that shifts in the data line on
every rising edge of the clock line and latches the last 32 bits on every
rising edge of the latch line.
-/

namespace MollerFirmware
namespace Uwire

open Clocked

namespace Lmk04816

/-- `LAST_BIT_CNT` -/
abbrev lastBitCnt : Nat :=
  66

/-- `MIN_TIMING` -/
abbrev minTiming : Nat :=
  50

/-- `CYCLES_PER_STATE` -/
def cyclesPerState (clkPeriod : Nat) : Nat :=
  if minTiming ≤ clkPeriod then 1 else minTiming / clkPeriod

/-- Width of `st_cnt`, `[$clog2(CYCLES_PER_STATE+1):0]`. -/
def stWidth (clkPeriod : Nat) : Nat :=
  Nat.clog 2 (cyclesPerState clkPeriod + 1) + 1

/-- Width of `bit_cnt`, `[$clog2(72):0]`. -/
abbrev bitWidth : Nat :=
  8

/-- Registers of the module. -/
structure State (clkPeriod : Nat) where
  started : Bool
  stCnt : BitVec (stWidth clkPeriod)
  bitCnt : BitVec bitWidth
  dShift : BitVec 32
  dataUWire : Bool
  clkUWire : Bool
  leUWire : Bool
  ready : Bool

variable {clkPeriod : Nat}

/-- `{x[30:0], 1'b0}` -/
def shiftOut (x : BitVec 32) : BitVec 32 :=
  x.setWidth 31 ++ 0#1

/-- A clock edge with `rst` high. -/
def reset (_ : State clkPeriod) (d : BitVec 32) : State clkPeriod :=
  { started := false
    ready := false
    clkUWire := false
    leUWire := false
    dataUWire := false
    dShift := d
    stCnt := 0
    bitCnt := 0 }

/-- A clock edge with `rst` low while a word is being sent. -/
def sendStep (s : State clkPeriod) : State clkPeriod :=
  { stCnt :=
      if s.stCnt.toNat < cyclesPerState clkPeriod - 1 then s.stCnt + 1 else 0
    bitCnt :=
      if s.stCnt.toNat < cyclesPerState clkPeriod - 1 then s.bitCnt
      else s.bitCnt + 1
    leUWire := decide (s.bitCnt.toNat = lastBitCnt - 1)
    ready := decide (s.bitCnt.toNat = lastBitCnt + 1)
    started := !decide (s.bitCnt.toNat = lastBitCnt + 1)
    clkUWire :=
      if s.stCnt = 0 then
        if s.bitCnt.toNat < lastBitCnt - 1 then !s.clkUWire else false
      else s.clkUWire
    dataUWire :=
      if s.stCnt = 0 && !s.bitCnt.getLsbD 0 then s.dShift.getLsbD 31
      else s.dataUWire
    dShift :=
      if s.stCnt = 0 && !s.bitCnt.getLsbD 0 then shiftOut s.dShift
      else s.dShift }

/-- A clock edge with `rst` low. -/
def step (s : State clkPeriod) (start : Bool) (d : BitVec 32) :
    State clkPeriod :=
  if !s.started && start then
    { s with
      started := true
      ready := false
      stCnt := 1
      bitCnt := 0
      dShift := shiftOut d
      clkUWire := false
      dataUWire := d.getLsbD 31 }
  else if s.started then sendStep s
  else
    { started := false
      ready := true
      clkUWire := false
      leUWire := false
      dataUWire := false
      dShift := 0
      stCnt := 0
      bitCnt := 0 }

end Lmk04816

namespace Loader

/-- Width of `words_left`, `[$clog2(NUM_WORDS+1):0]`. -/
def leftWidth (numWords : Nat) : Nat :=
  Nat.clog 2 (numWords + 1) + 1

/-- Registers of the module. -/
structure State (numWords : Nat) where
  q : BitVec 32
  start : Bool
  done : Bool
  wordsLeft : BitVec (leftWidth numWords)

variable {numWords : Nat}

/-- `d[i]`; no word is selected past the last index. -/
def wordAt (d : Fin numWords → BitVec 32) (i : Nat) : BitVec 32 :=
  if h : i < numWords then d ⟨i, h⟩ else 0

/-- A clock edge with `rst` high; `q` has no reset. -/
def reset (s : State numWords) : State numWords :=
  { s with
    start := false
    done := false
    wordsLeft := BitVec.ofNat _ numWords }

/-- A clock edge with `rst` low. -/
def step (s : State numWords) (d : Fin numWords → BitVec 32) (ready : Bool) :
    State numWords :=
  if ready && !s.start then
    if 0 < s.wordsLeft.toNat then
      { q := wordAt d (s.wordsLeft - 1).toNat
        wordsLeft := s.wordsLeft - 1
        start := true
        done := false }
    else
      { q := 0
        wordsLeft := 0
        start := false
        done := ready }
  else
    { s with
      start := false
      done := false }

end Loader

/-- Registers of the two modules as `subsystem_clock` connects them. -/
structure State (clkPeriod numWords : Nat) where
  chip : Lmk04816.State clkPeriod
  loader : Loader.State numWords

variable {clkPeriod numWords : Nat}

/-- A clock edge with `rst` low. -/
def step (s : State clkPeriod numWords) (d : Fin numWords → BitVec 32) :
    State clkPeriod numWords :=
  { chip := Lmk04816.step s.chip s.loader.start s.loader.q
    loader := Loader.step s.loader d s.chip.ready }

/-- A clock edge with `rst` high. -/
def reset (s : State clkPeriod numWords) : State clkPeriod numWords :=
  { chip := Lmk04816.reset s.chip s.loader.q
    loader := Loader.reset s.loader }

/-- What the programmed chip has seen: its shift register, the number of rising
clock edges since it latched a word, and the words it latched, each with the
number of clock edges before it. -/
structure Receiver where
  shift : BitVec 32
  edges : Nat
  latched : List (Nat × BitVec 32)
deriving DecidableEq

/-- The receiver between two states of the lines. -/
def receive (g : Receiver) (before after : Lmk04816.State clkPeriod) :
    Receiver :=
  let g' : Receiver :=
    if !before.clkUWire && after.clkUWire then
      { g with
        shift := g.shift.setWidth 31 ++ BitVec.ofBool after.dataUWire
        edges := g.edges + 1 }
    else g
  if !before.leUWire && after.leUWire then
    { g' with
      edges := 0
      latched := g'.latched ++ [(g'.edges, g'.shift)] }
  else g'

/-- A run with constant words after reset. -/
structure Run (clkPeriod numWords : Nat) where
  before : State clkPeriod numWords
  words : Fin numWords → BitVec 32

namespace Run

variable (r : Run clkPeriod numWords)

/-- Registers before clock edge `t`. -/
def state (t : Nat) : State clkPeriod numWords :=
  run step (reset r.before) (fun _ => r.words) t

/-- The receiver before clock edge `t`; what is in its shift register at first
does not matter. -/
def receiver (x : BitVec 32) (t : Nat) : Receiver :=
  observe step (fun g s d => receive g s.chip (step s d).chip)
    (reset r.before) ⟨x, 0, []⟩ (fun _ => r.words) t

/-- `done` -/
def done (t : Nat) : Bool :=
  (r.state t).loader.done

/-- The clock line. -/
def clkLine (t : Nat) : Bool :=
  (r.state t).chip.clkUWire

/-- The data line. -/
def dataLine (t : Nat) : Bool :=
  (r.state t).chip.dataUWire

/-- The latch line. -/
def leLine (t : Nat) : Bool :=
  (r.state t).chip.leUWire

end Run

end Uwire
end MollerFirmware
