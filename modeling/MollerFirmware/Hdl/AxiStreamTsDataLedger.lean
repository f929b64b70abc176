import MollerFirmware.Hdl.AxiStreamTsData

/-!
# axi_stream_ts_data: packets and the ledger of a run

What the packet buffer is for, in its own terms: words are accepted one by one,
the words accepted for one packet are closed and committed together, and the
committed packets are sent in order. The ledger is an observer that keeps these
books for a run of the module. It follows the handshakes and the state of the
write machine and never acts on the module.

How the registers and the RAM relate to the ledger is the subject of
`AxiStreamTsDataInvariant`.
-/

namespace MollerFirmware
namespace AxiStreamTsData

open Clocked

/-- A committed packet. Every payload word is kept together with the value of
`in_timestamp` in the clock in which it was accepted. -/
structure Packet where
  seq : BitVec 32
  len : BitVec 16
  words : List (BitVec 64 × BitVec 64)
deriving DecidableEq

/-- Payload of a packet. -/
def Packet.payload (p : Packet) : List (BitVec 64) :=
  p.words.map Prod.fst

/-- Timestamp of the clock in which the first word was accepted. -/
def firstTimestamp : List (BitVec 64 × BitVec 64) → BitVec 64
  | [] => 0
  | w :: _ => w.2

/-- One word on the output stream. -/
structure Beat where
  tfirst : Bool
  tlast : Bool
  tdata : BitVec 64
deriving DecidableEq

/-- RAM word that holds a beat. -/
def Beat.ram (b : Beat) : BitVec 65 :=
  ramWord b.tlast b.tdata

/-- Payload words on the stream, `tlast` on the last of them only. -/
def payloadBeats : List (BitVec 64) → List Beat
  | [] => []
  | [w] => [⟨false, true, w⟩]
  | w :: v :: ws => ⟨false, false, w⟩ :: payloadBeats (v :: ws)

@[simp] theorem payloadBeats_length
    (ws : List (BitVec 64)) :
    (payloadBeats ws).length = ws.length := by
  induction ws with
  | nil =>
      rfl
  | cons w ws ih =>
      cases ws with
      | nil => rfl
      | cons v ws => simp [payloadBeats, ih]

theorem payloadBeats_snoc
    (ws : List (BitVec 64)) (w : BitVec 64) :
    payloadBeats (ws ++ [w]) =
      ws.map (fun v => ⟨false, false, v⟩) ++ [⟨false, true, w⟩] := by
  induction ws with
  | nil =>
      rfl
  | cons v ws ih =>
      cases ws with
      | nil => rfl
      | cons u ws => simpa [payloadBeats] using ih

/-- A packet on the stream: header, timestamp, payload. -/
def Packet.beats (P : Params) (p : Packet) : List Beat :=
  ⟨true, false, headerWord P p.seq p.len⟩ ::
    ⟨false, false, firstTimestamp p.words⟩ ::
    payloadBeats p.payload

@[simp] theorem Packet.beats_length
    (P : Params) (p : Packet) :
    (p.beats P).length = p.words.length + 2 := by
  simp [Packet.beats, Packet.payload]

/-- Beats up to the end of a packet: `tlast` on the last one only. -/
def Closing : List Beat → Prop
  | [] => False
  | [b] => b.tlast = true
  | b :: c :: bs => b.tlast = false ∧ Closing (c :: bs)

theorem closing_payloadBeats
    {ws : List (BitVec 64)} (hne : ws ≠ []) :
    Closing (payloadBeats ws) := by
  induction ws with
  | nil =>
      exact absurd rfl hne
  | cons w ws ih =>
      cases ws with
      | nil =>
          rfl
      | cons v ws =>
          have htail := ih (by simp)
          cases ws with
          | nil => exact ⟨rfl, htail⟩
          | cons u ws => exact ⟨rfl, htail⟩

theorem Closing.cons
    {b : Beat} {bs : List Beat}
    (h : Closing bs) (hb : b.tlast = false) :
    Closing (b :: bs) := by
  cases bs with
  | nil => exact h.elim
  | cons c bs => exact ⟨hb, h⟩

theorem Closing.tail_of_not_last
    {b : Beat} {bs : List Beat}
    (h : Closing (b :: bs)) (hb : b.tlast = false) :
    Closing bs := by
  cases bs with
  | nil =>
      have hlast : b.tlast = true := h
      simp [hb] at hlast
  | cons c bs =>
      exact h.2

theorem Closing.tail_of_last
    {b : Beat} {bs : List Beat}
    (h : Closing (b :: bs)) (hb : b.tlast = true) :
    bs = [] := by
  cases bs with
  | nil => rfl
  | cons c bs => exact absurd h.1 (by simp [hb])

theorem Packet.closing_beats
    (P : Params) {p : Packet} (hne : p.words ≠ []) :
    Closing (p.beats P) := by
  have hpay : p.payload ≠ [] := by
    simpa [Packet.payload] using hne
  exact ((closing_payloadBeats hpay).cons rfl).cons rfl

theorem payloadBeats_tfirst
    (ws : List (BitVec 64)) :
    ∀ b ∈ payloadBeats ws, b.tfirst = false := by
  induction ws with
  | nil =>
      simp [payloadBeats]
  | cons w ws ih =>
      cases ws with
      | nil => simp [payloadBeats]
      | cons v ws => simpa [payloadBeats] using ih

/-- The books of a run. -/
structure Ledger where
  /-- words accepted for the packet that is being written -/
  building : List (BitVec 64 × BitVec 64)
  /-- enable went low between two words of the packet that is being written -/
  dropped : Bool
  /-- every packet committed so far -/
  committed : List Packet
  /-- committed packets of which the read side has loaded nothing -/
  queue : List Packet
  /-- beats of the packet on the output that are still in the RAM -/
  sending : List Beat
  /-- number of RAM words the read side has loaded -/
  loaded : Nat

/-- The books just after reset. -/
def Ledger.empty : Ledger :=
  ⟨[], false, [], [], [], 0⟩

/-- The packet that a commit adds. -/
def Ledger.nextPacket (g : Ledger) : Packet where
  seq := BitVec.ofNat 32 (g.committed.length + 1)
  len := BitVec.ofNat 16 (g.building.length + 1 + if g.dropped then 1 else 0)
  words := g.building

/-- Beats that are committed and not yet loaded by the read side. -/
def Ledger.unread (P : Params) (g : Ledger) : List Beat :=
  g.sending ++ g.queue.flatMap (Packet.beats P)

/-- Position just behind the last committed word. -/
def Ledger.commitPos (P : Params) (g : Ledger) : Nat :=
  g.loaded + (g.unread P).length

variable {P : Params}

/-- A word of the current packet is accepted in this clock. -/
def accepts (s : State P) (i : Input) : Bool :=
  inCaptured s i &&
    (decide (s.wr.inState = .data) ||
      (decide (s.wr.inState = .idle) && i.ena))

/-- The packet is closed because enable is low while no word is accepted. -/
def drops (s : State P) (i : Input) : Bool :=
  decide (s.wr.inState = .data) && !inCaptured s i && !i.ena

/-- The words accepted in a clock. -/
def acceptedWords (s : State P) (i : Input) : List (BitVec 64 × BitVec 64) :=
  if accepts s i then [(i.inTdata, i.inTimestamp)] else []

/-- Bookkeeping of the read side. -/
def Ledger.read (g : Ledger) (s : State P) (i : Input) : Ledger :=
  if s.rd.outTvalid then
    if i.outTready && !s.rd.outTlast then
      { g with loaded := g.loaded + 1, sending := g.sending.tail }
    else g
  else
    match g.queue with
    | [] => g
    | p :: q =>
        { g with
          loaded := g.loaded + 1
          sending := (p.beats P).tail
          queue := q }

/-- Bookkeeping of the write side. -/
def Ledger.write (g : Ledger) (s : State P) (i : Input) : Ledger :=
  if s.wr.inState = .wrUpdate then
    { g with
      building := []
      dropped := false
      committed := g.committed ++ [g.nextPacket]
      queue := g.queue ++ [g.nextPacket] }
  else
    { g with
      building := g.building ++ acceptedWords s i
      dropped := g.dropped || drops s i }

/-- One clock of bookkeeping. -/
def watch (g : Ledger) (s : State P) (i : Input) : Ledger :=
  (g.read s i).write s i

section Runs

variable (s : State P) (inp : Nat → Input)

/-- Registers in clock `t` of a run after reset. -/
def stateAt (t : Nat) : State P :=
  run step (reset s) inp t

/-- Ledger in clock `t` of a run after reset. -/
def ledgerAt (t : Nat) : Ledger :=
  observe step watch (reset s) Ledger.empty inp t

theorem stateAt_succ (t : Nat) :
    stateAt s inp (t + 1) = step (stateAt s inp t) (inp t) := by
  rfl

theorem wr_succ (t : Nat) :
    (stateAt s inp (t + 1)).wr = writeNext (stateAt s inp t) (inp t) := by
  rfl

theorem ledgerAt_succ (t : Nat) :
    ledgerAt s inp (t + 1) =
      watch (ledgerAt s inp t) (stateAt s inp t) (inp t) := by
  rfl

/-- The beat on the output. -/
def outBeat (s : State P) : Beat :=
  ⟨s.rd.outTfirst, s.rd.outTlast, s.rd.outTdata⟩

/-- The word transferred in a clock, if any. -/
def transfer (s : State P) (i : Input) : List Beat :=
  if s.rd.outTvalid && i.outTready then [outBeat s] else []

/-- Words transferred on the output before clock `t`. -/
def transferred (t : Nat) : List Beat :=
  eventsBefore (fun u => transfer (stateAt s inp u) (inp u)) t

/-- Words accepted on the input before clock `t`, with the timestamps of their
clocks. -/
def accepted (t : Nat) : List (BitVec 64 × BitVec 64) :=
  eventsBefore (fun u => acceptedWords (stateAt s inp u) (inp u)) t

end Runs

/-- The packet committed in a clock, if any. -/
def commits (s : State P) (g : Ledger) : List Packet :=
  if s.wr.inState = .wrUpdate then [g.nextPacket] else []

@[simp] theorem read_building (g : Ledger) (s : State P) (i : Input) :
    (g.read s i).building = g.building := by
  unfold Ledger.read
  split_ifs <;> first | rfl | (split <;> rfl)

@[simp] theorem read_dropped (g : Ledger) (s : State P) (i : Input) :
    (g.read s i).dropped = g.dropped := by
  unfold Ledger.read
  split_ifs <;> first | rfl | (split <;> rfl)

@[simp] theorem read_committed (g : Ledger) (s : State P) (i : Input) :
    (g.read s i).committed = g.committed := by
  unfold Ledger.read
  split_ifs <;> first | rfl | (split <;> rfl)

@[simp] theorem read_nextPacket (g : Ledger) (s : State P) (i : Input) :
    (g.read s i).nextPacket = g.nextPacket := by
  simp [Ledger.nextPacket]

@[simp] theorem write_loaded (g : Ledger) (s : State P) (i : Input) :
    (g.write s i).loaded = g.loaded := by
  unfold Ledger.write
  split_ifs <;> rfl

@[simp] theorem write_sending (g : Ledger) (s : State P) (i : Input) :
    (g.write s i).sending = g.sending := by
  unfold Ledger.write
  split_ifs <;> rfl

theorem write_queue (g : Ledger) (s : State P) (i : Input) :
    (g.write s i).queue = g.queue ++ commits s g := by
  unfold Ledger.write commits
  split_ifs <;> simp

theorem write_unread (g : Ledger) (s : State P) (i : Input) :
    (g.write s i).unread P =
      g.unread P ++ (commits s g).flatMap (Packet.beats P) := by
  simp [Ledger.unread, write_queue, List.flatMap_append]

/-- A commit appends to the list of committed packets. -/
theorem watch_committed (g : Ledger) (s : State P) (i : Input) :
    (watch g s i).committed = g.committed ++ commits s g := by
  unfold watch Ledger.write commits
  split_ifs <;> simp

/-- Outside a commit the accepted word is added to the packet being written. -/
theorem watch_building_of_ne
    (g : Ledger) {s : State P} (i : Input)
    (hs : s.wr.inState ≠ .wrUpdate) :
    (watch g s i).building = g.building ++ acceptedWords s i := by
  simp [watch, Ledger.write, hs]

theorem watch_dropped_of_ne
    (g : Ledger) {s : State P} (i : Input)
    (hs : s.wr.inState ≠ .wrUpdate) :
    (watch g s i).dropped = (g.dropped || drops s i) := by
  simp [watch, Ledger.write, hs]

theorem watch_building_of_wrUpdate
    (g : Ledger) {s : State P} (i : Input)
    (hs : s.wr.inState = .wrUpdate) :
    (watch g s i).building = [] := by
  simp [watch, Ledger.write, hs]

theorem watch_dropped_of_wrUpdate
    (g : Ledger) {s : State P} (i : Input)
    (hs : s.wr.inState = .wrUpdate) :
    (watch g s i).dropped = false := by
  simp [watch, Ledger.write, hs]

end AxiStreamTsData
end MollerFirmware
