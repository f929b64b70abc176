import MollerFirmware.Memory.Buffers
import MollerFirmware.Sw.TaskDma

/-!
# dma-proxy and the DMA thread

Each `ioctl(XFER)` of the DMA thread makes the driver `dma-proxy` submit a
descriptor for the one buffer that it shares with the thread, and wait for up to
three seconds. What the driver reports depends on two things: whether a callback
came in time, no matter from which descriptor, and whether its own descriptor is
complete. A descriptor is never taken back.

The DMA engine belongs to the kernel. It completes descriptors in the order in
which they were submitted, takes nothing from the stream while none is
outstanding, and calls back once for each completed descriptor, at any time
afterwards.
-/

namespace MollerFirmware
namespace DmaProxy

open Memory TaskDma

/-! ## The driver -/

/-- A packet of the stream: its 64-bit words. -/
abbrev Packet :=
  List (BitVec 64)

/-- What the engine can do: complete the oldest outstanding descriptor with a
packet, and call back. -/
inductive EngineEvent where
  | complete (p : Packet)
  | callback
deriving DecidableEq

/-- The receive channel: what the driver keeps for its only buffer, and the
engine. `cookie` and `done` are those of `bdtable[0]`; `written` are the packets
of the completed descriptors. -/
structure Channel where
  cookie : Int
  done : Nat
  buffer : List (BitVec 64)
  status : ProxyStatus
  submitted : Nat
  written : List Packet
  called : Nat

/-- `BUFFER_SIZE / sizeof(uint64_t)` -/
def bufferWords : Nat :=
  bufferSize / 8

/-- The engine completes its oldest outstanding descriptor. -/
def Channel.complete (c : Channel) (p : Packet) : Channel :=
  if c.written.length < c.submitted then
    { c with
      written := c.written ++ [p]
      buffer := overwrite c.buffer 0 (p.take bufferWords) }
  else c

/-- `sync_callback` -/
def Channel.syncCallback (c : Channel) : Channel :=
  if c.called < c.written.length then
    { c with
      called := c.called + 1
      done := c.done + 1 }
  else c

def Channel.event (c : Channel) : EngineEvent → Channel
  | .complete p => c.complete p
  | .callback => c.syncCallback

/-- How the start of a transfer ends: `device_prep_slave_sg` has no descriptor,
`dmaengine_submit` returns an error (`-(code + 1)`) in place of a cookie, or the
descriptor is in the queue of the engine. -/
inductive Start where
  | noDescriptor
  | submitError (code : Nat)
  | queued
deriving DecidableEq

/-- What happens around a call: how its transfer starts, and the events until the
wait is over, until the status is read, and until the next call. -/
structure Turn where
  start : Start
  waiting : List EngineEvent
  waking : List EngineEvent
  idle : List EngineEvent

def startTransfer (how : Start) (c : Channel) : Channel :=
  match how with
  | .noDescriptor => c
  | .submitError code =>
    -- the completion is reset and the error is kept as the cookie, which
    -- `dma_async_is_tx_complete` takes for a completed one
    { c with
      done := 0
      cookie := .negSucc code }
  | .queued =>
    { c with
      done := 0
      submitted := c.submitted + 1
      cookie := c.submitted + 1 }

/-- `wait_for_completion_timeout` -/
def waitForCompletion (c : Channel) : Channel :=
  { c with done := c.done - 1 }

/-- `dma_async_is_tx_complete` says `DMA_COMPLETE`. -/
def txComplete (c : Channel) : Bool :=
  decide (c.cookie ≤ c.written.length)

def waitForTransfer (t : Turn) (c : Channel) : Channel :=
  let c := t.waiting.foldl Channel.event { c with status := .busy }
  let timeout := c.done
  let c := t.waking.foldl Channel.event (waitForCompletion c)
  { c with
    status :=
      if timeout = 0 then .timeout
      else if !txComplete c then .error
      else .noError }

/-- `ioctl` with `XFER` and the index of the only buffer. -/
def xfer (t : Turn) (c : Channel) : Channel :=
  waitForTransfer t (startTransfer t.start c)

/-! ## The thread -/

/-- The channel, the counters, and what was published: topics and words. -/
structure Thread where
  channel : Channel
  counters : Counters
  published : List (String × Packet)

/-- A turn of the loop. The thread looks at the buffer at any time before its
next call. -/
def Thread.turn (s : Thread) (t : Turn) : Thread :=
  let c := t.idle.foldl Channel.event (xfer t s.channel)
  let r := onTransfer s.counters c.status (c.buffer.headD 0)
  { channel := c
    counters := r.1
    published := s.published ++
      (r.2.map fun m => (m.topic, c.buffer.take (m.bytes / 8))).toList }

def Thread.run (s : Thread) (ts : List Turn) : Thread :=
  ts.foldl Thread.turn s

/-- What the driver reported in each turn. -/
def Thread.outcomes (s : Thread) : List Turn → List ProxyStatus
  | [] => []
  | t :: ts => (s.turn t).channel.status :: outcomes (s.turn t) ts

/-! ## Events of the engine -/

/-- Nothing was submitted, and what was written stays. -/
structure Evolves (c c' : Channel) : Prop where
  cookie : c'.cookie = c.cookie
  submitted : c'.submitted = c.submitted
  written : c.written <+: c'.written

theorem Evolves.refl (c : Channel) : Evolves c c :=
  ⟨rfl, rfl, List.prefix_rfl⟩

theorem Evolves.trans {a b c : Channel} (hab : Evolves a b)
    (hbc : Evolves b c) : Evolves a c :=
  ⟨hbc.cookie.trans hab.cookie, hbc.submitted.trans hab.submitted,
    hab.written.trans hbc.written⟩

theorem evolves_event (c : Channel) (e : EngineEvent) :
    Evolves c (c.event e) := by
  cases e with
  | complete p =>
      show Evolves c (c.complete p)
      unfold Channel.complete
      split_ifs
      · exact ⟨rfl, rfl, List.prefix_append _ _⟩
      · exact .refl c
  | callback =>
      show Evolves c c.syncCallback
      unfold Channel.syncCallback
      split_ifs
      · exact ⟨rfl, rfl, List.prefix_rfl⟩
      · exact .refl c

theorem evolves_events (c : Channel) (es : List EngineEvent) :
    Evolves c (es.foldl Channel.event c) := by
  induction es generalizing c with
  | nil => exact .refl c
  | cons e es ih => exact (evolves_event c e).trans (ih _)

/-- What holds of the channel at any time: no more is complete than was
submitted, and the buffer starts with the packet written last. -/
structure Sound (c : Channel) : Prop where
  le : c.written.length ≤ c.submitted
  shows : ∀ p, c.written.getLast? = some p → p.take bufferWords <+: c.buffer

theorem Sound.event {c : Channel} (h : Sound c) (e : EngineEvent) :
    Sound (c.event e) := by
  cases e with
  | complete p =>
      show Sound (c.complete p)
      unfold Channel.complete
      split_ifs with hout
      · refine ⟨by simpa using hout, fun q hq => ?_⟩
        have hqp : p = q := by simpa using hq
        subst hqp
        exact List.prefix_append _ _
      · exact h
  | callback =>
      show Sound c.syncCallback
      unfold Channel.syncCallback
      split_ifs
      · exact ⟨h.le, h.shows⟩
      · exact h

theorem Sound.events {c : Channel} (h : Sound c) (es : List EngineEvent) :
    Sound (es.foldl Channel.event c) := by
  induction es generalizing c with
  | nil => exact h
  | cons e es ih => exact ih (h.event e)

/-- Nothing is outstanding. -/
def Settled (c : Channel) : Prop :=
  c.written.length = c.submitted

/-- Then the engine writes nothing. -/
theorem Settled.events {c : Channel} (h : Settled c) (es : List EngineEvent) :
    (es.foldl Channel.event c).written = c.written ∧
      (es.foldl Channel.event c).buffer = c.buffer := by
  induction es generalizing c with
  | nil => exact ⟨rfl, rfl⟩
  | cons e es ih =>
      have hone : (c.event e).written = c.written ∧
          (c.event e).buffer = c.buffer := by
        cases e with
        | complete p =>
            have hnone : ¬ c.written.length < c.submitted := by
              rw [h]
              exact Nat.lt_irrefl _
            have hsame : c.event (.complete p) = c := if_neg hnone
            rw [hsame]
            exact ⟨rfl, rfl⟩
        | callback =>
            show c.syncCallback.written = _ ∧ c.syncCallback.buffer = _
            unfold Channel.syncCallback
            split_ifs <;> exact ⟨rfl, rfl⟩
      have hsettled : Settled (c.event e) := by
        rw [Settled, hone.1, (evolves_event c e).submitted]
        exact h
      rw [List.foldl_cons, (ih hsettled).1, (ih hsettled).2]
      exact hone

/-- Whether an event takes a packet from the stream. -/
def EngineEvent.isComplete : EngineEvent → Bool
  | .complete _ => true
  | .callback => false

theorem length_written_events (c : Channel) (es : List EngineEvent) :
    (es.foldl Channel.event c).written.length ≤
      c.written.length + es.countP EngineEvent.isComplete := by
  induction es generalizing c with
  | nil => simp
  | cons e es ih =>
      have hone : (c.event e).written.length ≤
          c.written.length + if e.isComplete then 1 else 0 := by
        cases e with
        | complete p =>
            show (c.complete p).written.length ≤ c.written.length + 1
            unfold Channel.complete
            split_ifs <;> simp
        | callback =>
            show c.syncCallback.written.length ≤ c.written.length + 0
            unfold Channel.syncCallback
            split_ifs <;> exact Nat.le_refl _
      rw [List.foldl_cons, List.countP_cons]
      have hrest := ih (c.event e)
      omega

theorem status_events (c : Channel) (es : List EngineEvent) :
    (es.foldl Channel.event c).status = c.status := by
  induction es generalizing c with
  | nil => rfl
  | cons e es ih =>
      rw [List.foldl_cons, ih]
      cases e with
      | complete p =>
          show (c.complete p).status = c.status
          unfold Channel.complete
          split_ifs <;> rfl
      | callback =>
          show c.syncCallback.status = c.status
          unfold Channel.syncCallback
          split_ifs <;> rfl

/-! ## One turn -/

theorem waitForTransfer_evolves (t : Turn) (c : Channel) :
    Evolves c (waitForTransfer t c) := by
  obtain ⟨hcookie, hsubmitted, hwritten⟩ :=
    evolves_events { c with status := .busy } t.waiting
  obtain ⟨hcookie', hsubmitted', hwritten'⟩ := evolves_events
    (waitForCompletion
      (t.waiting.foldl Channel.event { c with status := .busy })) t.waking
  exact ⟨hcookie'.trans hcookie, hsubmitted'.trans hsubmitted,
    hwritten.trans hwritten'⟩

theorem Sound.waitForTransfer {c : Channel} (h : Sound c) (t : Turn) :
    Sound (waitForTransfer t c) := by
  have hbusy : Sound { c with status := .busy } := ⟨h.le, h.shows⟩
  have hwaited := hbusy.events t.waiting
  have hwoken := Sound.events
    (c := waitForCompletion
      (t.waiting.foldl Channel.event { c with status := .busy }))
    ⟨hwaited.le, hwaited.shows⟩ t.waking
  exact ⟨hwoken.le, hwoken.shows⟩

/-- What the driver reports. -/
theorem waitForTransfer_status (t : Turn) (c : Channel) :
    (waitForTransfer t c).status = .timeout ∨
      (waitForTransfer t c).status = .error ∨
      (waitForTransfer t c).status = .noError ∧
        txComplete (waitForTransfer t c) = true := by
  unfold waitForTransfer
  dsimp only
  split_ifs with htimeout herror
  · exact .inl rfl
  · exact .inr (.inl rfl)
  · exact .inr (.inr ⟨rfl, by simpa [txComplete] using herror⟩)

/-- Packets that the engine may take in a turn. -/
def Turn.packets (t : Turn) : Nat :=
  (t.waiting ++ t.waking ++ t.idle).countP EngineEvent.isComplete

theorem waitForTransfer_length (t : Turn) (c : Channel) :
    (waitForTransfer t c).written.length ≤
      c.written.length + t.waiting.countP EngineEvent.isComplete +
        t.waking.countP EngineEvent.isComplete := by
  have hwaited :=
    length_written_events { c with status := .busy } t.waiting
  have hwoken := length_written_events
    (waitForCompletion
      (t.waiting.foldl Channel.event { c with status := .busy })) t.waking
  exact hwoken.trans (Nat.add_le_add_right hwaited _)

/-- A call whose transfer is queued and that is successful leaves nothing
outstanding. -/
theorem settled_of_noError {c : Channel} {t : Turn} (hsound : Sound c)
    (hstatus : (waitForTransfer t (startTransfer .queued c)).status = .noError) :
    Settled (waitForTransfer t (startTransfer .queued c)) := by
  have hstart : Sound (startTransfer .queued c) :=
    ⟨Nat.le_succ_of_le hsound.le, hsound.shows⟩
  have hwait := waitForTransfer_evolves t (startTransfer .queued c)
  have hcomplete : txComplete (waitForTransfer t (startTransfer .queued c)) =
      true := by
    rcases waitForTransfer_status t (startTransfer .queued c) with h | h | h
    · exact absurd (hstatus.symm.trans h) (by decide)
    · exact absurd (hstatus.symm.trans h) (by decide)
    · exact h.2
  have hcookie : (waitForTransfer t (startTransfer .queued c)).cookie =
      (waitForTransfer t (startTransfer .queued c)).submitted := by
    rw [hwait.cookie, hwait.submitted]
    rfl
  refine Nat.le_antisymm (hstart.waitForTransfer t).le ?_
  have hle : (waitForTransfer t (startTransfer .queued c)).cookie ≤
      (waitForTransfer t (startTransfer .queued c)).written.length := by
    simpa [txComplete] using hcomplete
  omega

theorem Thread.turn_channel {s : Thread} {t : Turn}
    (hqueued : t.start = .queued) :
    (s.turn t).channel = t.idle.foldl Channel.event
      (waitForTransfer t (startTransfer .queued s.channel)) := by
  rw [← hqueued]
  rfl

/-- While the thread looks at a packet the engine does not write. -/
theorem Thread.buffer_stable {s : Thread} {t : Turn}
    (hsound : Sound s.channel) (hqueued : t.start = .queued)
    (hstatus : (s.turn t).channel.status = .noError) :
    ∀ n, (s.turn { t with idle := t.idle.take n }).channel.buffer =
      (s.turn t).channel.buffer := by
  intro n
  rw [Thread.turn_channel hqueued, status_events] at hstatus
  have hsettled := settled_of_noError hsound hstatus
  rw [Thread.turn_channel (t := { t with idle := t.idle.take n }) hqueued,
    Thread.turn_channel hqueued, (hsettled.events t.idle).2]
  exact (hsettled.events (t.idle.take n)).2

/-- What a turn whose transfer is queued does to the channel. -/
structure Turned (c : Channel) (t : Turn) (c' : Channel) : Prop where
  submitted : c'.submitted = c.submitted + 1
  written : c.written <+: c'.written
  length : c'.written.length ≤ c.written.length + t.packets
  sound : Sound c'
  status : c'.status = .timeout ∨ c'.status = .error ∨
    c'.status = .noError ∧ Settled c'

theorem Thread.turned {s : Thread} {t : Turn} (hsound : Sound s.channel)
    (hqueued : t.start = .queued) :
    Turned s.channel t (s.turn t).channel := by
  rw [Thread.turn_channel hqueued]
  have hstart : Sound (startTransfer .queued s.channel) :=
    ⟨Nat.le_succ_of_le hsound.le, hsound.shows⟩
  have hsound' := hstart.waitForTransfer t
  have hwait :=
    waitForTransfer_evolves t (startTransfer .queued s.channel)
  have hlength : _ ≤ s.channel.written.length + _ + _ :=
    waitForTransfer_length t (startTransfer .queued s.channel)
  have hstatus := waitForTransfer_status t (startTransfer .queued s.channel)
  have hsettled := settled_of_noError (t := t) hsound
  generalize waitForTransfer t (startTransfer .queued s.channel) = c at *
  have hidle := evolves_events c t.idle
  have hlength' := length_written_events c t.idle
  refine ⟨hidle.submitted.trans hwait.submitted,
    hwait.written.trans hidle.written, ?_, hsound'.events t.idle, ?_⟩
  · rw [Turn.packets, List.countP_append, List.countP_append]
    omega
  · rw [status_events]
    refine hstatus.imp_right (Or.imp_right fun h => ⟨h.1, ?_⟩)
    have hdone := hsettled h.1
    rw [Settled, (hdone.events t.idle).1, hidle.submitted]
    exact hdone

/-! ## Packets and messages -/

/-- The length field of the first word counts the words after it. -/
def WellFormed (p : Packet) : Prop :=
  p.length = (headerLen (p.headD 0)).toNat + 1

/-- The topic for packets that start with `header`. -/
def topic (header : BitVec 64) : Option String :=
  if header = 0 then none
  else if headerId header = 0xAA then some "AVG"
  else if headerId header = 0xDD then some "ADC"
  else none

/-- What is to be published for a packet. -/
def publication (p : Packet) : Option (String × Packet) :=
  (topic (p.headD 0)).map fun name => (name, p)

theorem receive_message (c : Counters) (header : BitVec 64) :
    (receive c header).2 =
      (topic header).map fun name => ⟨name, messageBytes header⟩ := by
  unfold receive topic
  by_cases hzero : header = 0
  · rw [if_pos hzero, if_pos hzero]
    rfl
  · rw [if_neg hzero, if_neg hzero, if_pos (headerLen_lt_bufferSize header)]
    dsimp only
    split_ifs <;> rfl

theorem WellFormed.ne_nil {p : Packet} (h : WellFormed p) : p ≠ [] := by
  rintro rfl
  exact absurd h (by simp [WellFormed])

theorem WellFormed.le_bufferWords {p : Packet} (h : WellFormed p) :
    p.length ≤ bufferWords := by
  have hlen := headerLen_lt_bufferSize (p.headD 0)
  rw [h]
  exact hlen

/-- A packet in the buffer is published as it is. -/
theorem onTransfer_packet {p : Packet} (h : WellFormed p) (c : Counters)
    {buffer : List (BitVec 64)} (hbuffer : p <+: buffer) :
    ((onTransfer c .noError (buffer.headD 0)).2.map fun m =>
      (m.topic, buffer.take (m.bytes / 8))) = publication p := by
  obtain ⟨rest, rfl⟩ := hbuffer
  have hhead : (p ++ rest).headD 0 = p.headD 0 := by
    cases p with
    | nil => exact absurd rfl h.ne_nil
    | cons w p => rfl
  have htake : (p ++ rest).take (messageBytes (p.headD 0) / 8) = p := by
    refine List.take_left' ?_
    rw [messageBytes, h]
    omega
  show ((receive c ((p ++ rest).headD 0)).2.map _) = _
  rw [hhead, receive_message, publication, Option.map_map]
  refine congrArg (fun f => Option.map f _) (funext fun name => ?_)
  exact congrArg (Prod.mk name) htake

theorem Thread.turn_published_of_failure {s : Thread} {t : Turn}
    (h : (s.turn t).channel.status = .timeout ∨
      (s.turn t).channel.status = .error) :
    (s.turn t).published = s.published := by
  have hpublished : (s.turn t).published = s.published ++
      ((onTransfer s.counters (s.turn t).channel.status
        ((s.turn t).channel.buffer.headD 0)).2.map fun m =>
          (m.topic, (s.turn t).channel.buffer.take (m.bytes / 8))).toList :=
    rfl
  rw [hpublished]
  rcases h with h | h <;> rw [h] <;> exact List.append_nil _

theorem Thread.turn_published_of_success {s : Thread} {t : Turn}
    (hsound : Sound (s.turn t).channel)
    (hstatus : (s.turn t).channel.status = .noError) {p : Packet}
    (hlast : (s.turn t).channel.written.getLast? = some p)
    (hp : WellFormed p) :
    (s.turn t).published = s.published ++ (publication p).toList := by
  have hpublished : (s.turn t).published = s.published ++
      ((onTransfer s.counters (s.turn t).channel.status
        ((s.turn t).channel.buffer.headD 0)).2.map fun m =>
          (m.topic, (s.turn t).channel.buffer.take (m.bytes / 8))).toList :=
    rfl
  have hbuffer := hsound.shows p hlast
  rw [List.take_of_length_le hp.le_bufferWords] at hbuffer
  rw [hpublished, hstatus, onTransfer_packet hp s.counters hbuffer]

/-! ## Runs -/

theorem Thread.run_concat (s : Thread) (ts : List Turn) (t : Turn) :
    s.run (ts ++ [t]) = (s.run ts).turn t := by
  simp [Thread.run]

theorem Thread.outcomes_concat (s : Thread) (ts : List Turn) (t : Turn) :
    s.outcomes (ts ++ [t]) =
      s.outcomes ts ++ [((s.run ts).turn t).channel.status] := by
  induction ts generalizing s with
  | nil => rfl
  | cons u ts ih =>
      show _ :: (s.turn u).outcomes (ts ++ [t]) = _
      rw [ih]
      rfl

@[simp] theorem Thread.length_outcomes (s : Thread) (ts : List Turn) :
    (s.outcomes ts).length = ts.length := by
  induction ts generalizing s with
  | nil => rfl
  | cons t ts ih => simp [Thread.outcomes, ih]

/-- The driver starts without outstanding descriptors. -/
structure Fresh (c : Channel) : Prop where
  submitted : c.submitted = 0
  written : c.written = []

theorem Fresh.sound {c : Channel} (h : Fresh c) : Sound c where
  le := by simp [h.written]
  shows := by simp [h.written]

theorem Sound.run {s : Thread} (h : Sound s.channel) {ts : List Turn}
    (hqueued : ∀ t ∈ ts, t.start = .queued) :
    Sound (s.run ts).channel := by
  induction ts generalizing s with
  | nil => exact h
  | cons t ts ih =>
      exact ih (Thread.turned h (hqueued t (by simp))).sound
        fun u hu => hqueued u (by simp [hu])

/-- What holds after some turns of a thread that started afresh. -/
structure Delivered (s : Thread) (ts : List Turn) : Prop where
  submitted : (s.run ts).channel.submitted = ts.length
  sound : Sound (s.run ts).channel
  success : ∀ k, (s.outcomes ts)[k]? = some .noError →
    k < (s.run ts).channel.written.length
  published : (s.run ts).published = s.published ++
    (List.range ts.length).filterMap fun k =>
      if (s.outcomes ts)[k]? = some .noError then
        (s.run ts).channel.written[k]?.bind publication
      else none

theorem Delivered.start {s : Thread} (h : Fresh s.channel) :
    Delivered s [] where
  submitted := h.submitted
  sound := h.sound
  success := by simp [Thread.outcomes]
  published := by simp [Thread.run]

theorem filterMap_one {α β : Type} (f : α → Option β) (a : α) :
    [a].filterMap f = (f a).toList := by
  cases h : f a <;> simp [h]

section Next

variable {s : Thread} {ts : List Turn} {t : Turn}

theorem Thread.outcomes_last :
    (s.outcomes (ts ++ [t]))[ts.length]? =
      some ((s.run ts).turn t).channel.status := by
  rw [s.outcomes_concat, List.getElem?_append_right (by simp)]
  simp

theorem Thread.outcomes_before {k : Nat} (hk : k < ts.length) :
    (s.outcomes (ts ++ [t]))[k]? = (s.outcomes ts)[k]? := by
  rw [s.outcomes_concat, List.getElem?_append_left (by simpa using hk)]

/-- If the next call is successful it has the packet of its number. -/
theorem Delivered.length_of_success (h : Delivered s ts)
    (hqueued : t.start = .queued)
    (hstatus : ((s.run ts).turn t).channel.status = .noError) :
    ((s.run ts).turn t).channel.written.length = ts.length + 1 := by
  have hturned := Thread.turned h.sound hqueued
  rcases hturned.status with hfail | hfail | ⟨-, hsettled⟩
  · exact absurd (hfail.symm.trans hstatus) (by decide)
  · exact absurd (hfail.symm.trans hstatus) (by decide)
  · rw [hsettled, hturned.submitted, h.submitted]

theorem Delivered.next_success (h : Delivered s ts)
    (hqueued : t.start = .queued) {k : Nat}
    (hk : (s.outcomes (ts ++ [t]))[k]? = some .noError) :
    k < ((s.run ts).turn t).channel.written.length := by
  rcases Nat.lt_or_ge k ts.length with hlt | hge
  · rw [Thread.outcomes_before hlt] at hk
    exact (h.success k hk).trans_le
      (Thread.turned h.sound hqueued).written.length_le
  · have hbound : k < ts.length + 1 := by
      simpa using (List.getElem?_eq_some_iff.mp hk).1
    have hkn : k = ts.length := by omega
    rw [hkn, Thread.outcomes_last] at hk
    rw [hkn, h.length_of_success hqueued (Option.some.inj hk)]
    exact Nat.lt_succ_self _

/-- What the last of some turns adds to what is published. -/
theorem Delivered.next_published (h : Delivered s ts)
    (hqueued : t.start = .queued)
    (hframed : ∀ p ∈ ((s.run ts).turn t).channel.written, WellFormed p) :
    ((s.run ts).turn t).published = (s.run ts).published ++
      (if ((s.run ts).turn t).channel.status = .noError then
        ((s.run ts).turn t).channel.written[ts.length]?.bind publication
      else none).toList := by
  have hturned := Thread.turned h.sound hqueued
  rcases hturned.status with hfail | hfail | ⟨hstatus, -⟩
  · rw [Thread.turn_published_of_failure (.inl hfail), hfail]
    simp
  · rw [Thread.turn_published_of_failure (.inr hfail), hfail]
    simp
  · have hlength := h.length_of_success hqueued hstatus
    obtain ⟨p, hp⟩ : ∃ p,
        ((s.run ts).turn t).channel.written[ts.length]? = some p :=
      ⟨_, List.getElem?_eq_getElem (by omega)⟩
    have hlast : ((s.run ts).turn t).channel.written.getLast? = some p := by
      rw [List.getLast?_eq_getElem?, hlength]
      exact hp
    rw [Thread.turn_published_of_success hturned.sound hstatus hlast
      (hframed p (List.mem_of_getElem? hp)), if_pos hstatus, hp]
    rfl

theorem Delivered.next (h : Delivered s ts) (hqueued : t.start = .queued)
    (hframed : ∀ p ∈ ((s.run ts).turn t).channel.written, WellFormed p) :
    Delivered s (ts ++ [t]) := by
  have hturned := Thread.turned h.sound hqueued
  refine ⟨?_, ?_, fun k hk => ?_, ?_⟩
  · rw [s.run_concat, hturned.submitted, h.submitted]
    simp
  · rw [s.run_concat]
    exact hturned.sound
  · rw [s.run_concat]
    exact h.next_success hqueued hk
  · have hsame : (List.range ts.length).filterMap (fun k =>
        if (s.outcomes (ts ++ [t]))[k]? = some .noError then
          ((s.run ts).turn t).channel.written[k]?.bind publication
        else none) =
        (List.range ts.length).filterMap (fun k =>
          if (s.outcomes ts)[k]? = some .noError then
            (s.run ts).channel.written[k]?.bind publication
          else none) := by
      refine List.filterMap_congr fun k hk => ?_
      rw [Thread.outcomes_before (List.mem_range.mp hk)]
      split_ifs with hk
      · obtain ⟨more, hmore⟩ := hturned.written
        rw [← hmore, List.getElem?_append_left (h.success k hk)]
      · rfl
    rw [s.run_concat, h.next_published hqueued hframed, h.published,
      List.length_append, List.length_singleton, List.range_succ,
      List.filterMap_append, hsame, List.append_assoc, filterMap_one,
      Thread.outcomes_last]
    simp only [Option.some.injEq]

end Next

theorem Thread.delivered {s : Thread} (hfresh : Fresh s.channel)
    {ts : List Turn} (hqueued : ∀ t ∈ ts, t.start = .queued)
    (hframed : ∀ p ∈ (s.run ts).channel.written, WellFormed p) :
    Delivered s ts := by
  induction ts using List.reverseRecOn with
  | nil => exact .start hfresh
  | append_singleton ts t ih =>
      have hbefore : ∀ u ∈ ts, u.start = .queued :=
        fun u hu => hqueued u (by simp [hu])
      have hlast : t.start = .queued := hqueued t (by simp)
      rw [s.run_concat] at hframed
      have hsound : Sound (s.run ts).channel := hfresh.sound.run hbefore
      have hgrows := (Thread.turned hsound hlast).written
      exact (ih hbefore fun p hp =>
        hframed p (hgrows.subset hp)).next hlast hframed

/-- **What is published.** As long as every transfer is queued and the length
fields of the packets are right, call number `k` is successful only if packet
number `k` is in the buffer, whatever the engine does when: so the packets of
the successful calls are published, each once, in order and as they are, and
those of the other calls are lost. -/
theorem Thread.published_exact {s : Thread} (hfresh : Fresh s.channel)
    {ts : List Turn} (hqueued : ∀ t ∈ ts, t.start = .queued)
    (hframed : ∀ p ∈ (s.run ts).channel.written, WellFormed p) :
    (∀ k, (s.outcomes ts)[k]? = some .noError →
        k < (s.run ts).channel.written.length) ∧
      (s.run ts).published = s.published ++
        (List.range ts.length).filterMap fun k =>
          if (s.outcomes ts)[k]? = some .noError then
            (s.run ts).channel.written[k]?.bind publication
          else none :=
  have h := Thread.delivered hfresh hqueued hframed
  ⟨h.success, h.published⟩

/-- A packet that comes in time. -/
def onTime (p : Packet) : Turn :=
  { start := .queued
    waiting := [.complete p, .callback]
    waking := []
    idle := [] }

/-- The thread when it starts. -/
def started : Thread :=
  { channel :=
      { cookie := 0
        done := 0
        buffer := []
        status := .noError
        submitted := 0
        written := []
        called := 0 }
    counters := ⟨0, 0, 0, 0, 0, 0, 0, 0, 0⟩
    published := [] }

/-- A packet of the streamer with one word behind its header. -/
def adcPacket : Packet :=
  [0xDD00000000000001, 0x2A]

theorem published_exact_onTime :
    (started.run [onTime adcPacket]).published = [("ADC", adcPacket)] := by
  have hwritten : (started.run [onTime adcPacket]).channel.written =
      [adcPacket] := by
    rfl
  have hqueued : ∀ t ∈ [onTime adcPacket], t.start = .queued := by
    simp [onTime]
  have h := Thread.published_exact (s := started) ⟨rfl, rfl⟩ hqueued (by
    intro p hp
    rw [hwritten, List.mem_singleton] at hp
    rw [hp]
    rfl)
  rw [h.2]
  rfl

/-- A call without a descriptor takes a completion that is left over for its
own, and the packet is published again. -/
example :
    (started.run
      [⟨.queued, [], [], []⟩,
        ⟨.queued, [.complete [0xDD00000000000000], .complete adcPacket,
          .callback, .callback], [], []⟩,
        ⟨.noDescriptor, [], [], []⟩]).published =
      [("ADC", adcPacket), ("ADC", adcPacket)] := by
  rfl

/-! ## After a pause -/

/-- A descriptor is outstanding. -/
structure Lagging (c : Channel) : Prop where
  sound : Sound c
  lt : c.written.length < c.submitted

/-- With one packet in a turn at most the channel does not catch up, and the
call fails. -/
theorem Lagging.turn {s : Thread} {t : Turn} (h : Lagging s.channel)
    (hqueued : t.start = .queued) (hslow : t.packets ≤ 1) :
    Lagging (s.turn t).channel ∧
      ((s.turn t).channel.status = .timeout ∨
        (s.turn t).channel.status = .error) := by
  have hturned := Thread.turned h.sound hqueued
  have hlength := hturned.length
  have hsubmitted := hturned.submitted
  have hlt := h.lt
  refine ⟨⟨hturned.sound, by omega⟩, ?_⟩
  rcases hturned.status with hfail | hfail | ⟨-, hsettled⟩
  · exact .inl hfail
  · exact .inr hfail
  · rw [Settled] at hsettled
    omega

/-- Nothing came of some turns but `n` more errors and timeouts. -/
structure Failed (s s' : Thread) (n : Nat) : Prop where
  published : s'.published = s.published
  others : { s'.counters with
      numErrors := s.counters.numErrors
      numTimeouts := s.counters.numTimeouts } = s.counters
  counted : s'.counters.numErrors + s'.counters.numTimeouts =
    s.counters.numErrors + s.counters.numTimeouts + BitVec.ofNat 32 n

theorem Failed.refl (s : Thread) : Failed s s 0 :=
  ⟨rfl, rfl, (BitVec.add_zero _).symm⟩

theorem Failed.trans {a b c : Thread} {m n : Nat} (hab : Failed a b m)
    (hbc : Failed b c n) : Failed a c (m + n) where
  published := hbc.published.trans hab.published
  others := by
    obtain ⟨-, hothers, -⟩ := hbc
    rw [← hab.others, ← hothers]
  counted := by
    rw [hbc.counted, hab.counted, BitVec.ofNat_add, BitVec.add_assoc]

theorem failed_turn {s : Thread} {t : Turn}
    (h : (s.turn t).channel.status = .timeout ∨
      (s.turn t).channel.status = .error) :
    Failed s (s.turn t) 1 := by
  have hcounters : (s.turn t).counters =
      (onTransfer s.counters (s.turn t).channel.status
        ((s.turn t).channel.buffer.headD 0)).1 := rfl
  refine ⟨Thread.turn_published_of_failure h, ?_, ?_⟩
  · rw [hcounters]
    rcases h with h | h <;> rw [h] <;> rfl
  · rw [hcounters]
    rcases h with h | h <;> rw [h] <;> simp only [onTransfer]
    · exact (BitVec.add_assoc _ _ _).symm
    · rw [BitVec.add_assoc, BitVec.add_comm 1, ← BitVec.add_assoc]
      rfl

theorem Lagging.run {s : Thread} (h : Lagging s.channel) {ts : List Turn}
    (hqueued : ∀ t ∈ ts, t.start = .queued)
    (hslow : ∀ t ∈ ts, t.packets ≤ 1) :
    Failed s (s.run ts) ts.length := by
  induction ts generalizing s with
  | nil => exact .refl s
  | cons t ts ih =>
      obtain ⟨hlag, hfail⟩ :=
        h.turn (hqueued t (by simp)) (hslow t (by simp))
      have hrest := ih hlag (fun u hu => hqueued u (by simp [hu]))
        (fun u hu => hslow u (by simp [hu]))
      rw [List.length_cons, Nat.add_comm]
      exact (failed_turn hfail).trans hrest

/-- **A pause is final.** Let every transfer be queued. If no packet comes during
a call and not more than one during each later call, then every later call fails,
although the packets come: each of them only completes the descriptor of a call
that has already failed. Nothing is published any more, and all that counts up
are the errors and timeouts. -/
theorem Thread.silent_after_pause {s : Thread} (hfresh : Fresh s.channel)
    {earlier later : List Turn} {pause : Turn}
    (hqueued : ∀ t ∈ earlier ++ pause :: later, t.start = .queued)
    (hpause : pause.packets = 0) (hslow : ∀ t ∈ later, t.packets ≤ 1) :
    Failed (s.run earlier) (s.run (earlier ++ pause :: later))
      (later.length + 1) := by
  have hsound : Sound (s.run earlier).channel :=
    hfresh.sound.run fun t ht => hqueued t (by simp [ht])
  have hturned := Thread.turned hsound (hqueued pause (by simp))
  have hlag : Lagging ((s.run earlier).turn pause).channel := by
    have hlength := hturned.length
    have hsubmitted := hturned.submitted
    have hle := hsound.le
    exact ⟨hturned.sound, by omega⟩
  have hfail : ((s.run earlier).turn pause).channel.status = .timeout ∨
      ((s.run earlier).turn pause).channel.status = .error := by
    rcases hturned.status with h | h | ⟨-, hsettled⟩
    · exact .inl h
    · exact .inr h
    · exact absurd hsettled hlag.lt.ne
  have hrest := hlag.run (fun t ht => hqueued t (by simp [ht])) hslow
  have hrun : s.run (earlier ++ pause :: later) =
      ((s.run earlier).turn pause).run later := by
    simp [Thread.run]
  rw [hrun, Nat.add_comm]
  exact (failed_turn hfail).trans hrest

/-- A call during which nothing happens, and then a packet. -/
theorem silent_after_pause_onTime :
    (started.run
      ([] ++ ⟨.queued, [], [], []⟩ :: [onTime adcPacket])).published = [] :=
  (Thread.silent_after_pause (s := started) ⟨rfl, rfl⟩ (by simp [onTime]) rfl
    (by
      intro t ht
      rw [List.mem_singleton.mp ht]
      decide)).published

end DmaProxy
end MollerFirmware
