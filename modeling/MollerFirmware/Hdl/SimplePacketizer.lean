import MollerFirmware.Clocked.Delays

/-!
# simple_packetizer

The packetizer takes a snapshot of its inputs in a clock in which `capture` is
high and it is idle, and sends it as one AXI stream packet: the header word
`{ID, NUM_INPUTS}` and then the captured words in index order, with `tlast` on
the last of them.

The registered outputs run one step ahead of `count` and `active`: while a word
is on the output, `count` is the index of the word that follows it, and `active`
says whether there is one. `pending` reads the words still owed off these
registers, and the conservation law of `Clocked.Signals` turns the one-clock
equation `transfer_pending` into the statement about whole runs.
-/

namespace MollerFirmware
namespace SimplePacketizer

open Clocked

/-- Parameters of an instance; a packet has at least one input word. -/
structure Params where
  numInputs : Nat
  width : Nat
  id : BitVec 8
  endianSwap : Bool
  numInputs_pos : 0 < numInputs

/-- One transferred word of the AXI stream. -/
structure Beat (w : Nat) where
  tdata : BitVec w
  tlast : Bool
deriving DecidableEq

variable {P : Params}

/-- Width of the register `count`, `[$clog2(NUM_INPUTS+1):0]`. -/
def Params.countWidth (P : Params) : Nat :=
  Nat.clog 2 (P.numInputs + 1) + 1

/-- The streaming operator `{<<8{x}}`: the bytes of `x` in reverse order, where
the leftmost byte keeps the bits that are left when the width is no multiple of
eight. -/
def byteReverse {w : Nat} (x : BitVec w) : BitVec w :=
  (BitVec.ofBoolListLE (List.ofFn fun i : Fin w =>
    if i.val < w % 8 then
      x.getLsbD (w - w % 8 + i.val)
    else
      x.getLsbD
        (8 * (w / 8 - 1 - (i.val - w % 8) / 8) + (i.val - w % 8) % 8))).setWidth w

example : byteReverse 0xabcdef#24 = 0xefcdab#24 := by decide

/-- What the capture registers take from an input word. -/
def Params.captureWord (P : Params) (x : BitVec P.width) : BitVec P.width :=
  if P.endianSwap then byteReverse x else x

/-- The header word `{ ID[7:0], num_words[WIDTH-9:0] }`. -/
def Params.header (P : Params) : BitVec P.width :=
  (P.id ++ (BitVec.ofNat P.width P.numInputs).setWidth (P.width - 8)).setWidth
    P.width

/-- Registers of the module. -/
structure State (P : Params) where
  tdata : BitVec P.width
  tvalid : Bool
  tlast : Bool
  capturedD : Fin P.numInputs → BitVec P.width
  count : BitVec P.countWidth
  active : Bool

/-- Inputs in one clock. -/
structure Input (P : Params) where
  capture : Bool
  d : Fin P.numInputs → BitVec P.width
  tready : Bool

/-- `ready_for_capture`: the module is idle. -/
def State.readyForCapture (s : State P) : Bool :=
  !s.active && !s.tvalid

/-- `captured_d[count]`; no register is selected past the last index. -/
def State.capturedAt (s : State P) (k : Nat) : BitVec P.width :=
  if h : k < P.numInputs then s.capturedD ⟨k, h⟩ else 0

/-- A clock edge with `rst` high; the capture registers have no reset. -/
def reset (s : State P) : State P :=
  { s with
    count := 0
    active := false
    tlast := false
    tvalid := false
    tdata := 0 }

/-- The generated capture registers. -/
def captureNext (s : State P) (i : Input P) : Fin P.numInputs → BitVec P.width :=
  fun n =>
    if s.readyForCapture && i.capture then P.captureWord (i.d n)
    else s.capturedD n

/-- A clock edge with `rst` low. -/
def step (s : State P) (i : Input P) : State P :=
  if s.tvalid then
    if i.tready then
      { capturedD := captureNext s i
        active := if s.count.toNat < P.numInputs - 1 then s.active else false
        count := if s.active then s.count + 1 else 0
        tvalid := if s.active then true else false
        tdata := if s.active then s.capturedAt s.count.toNat else 0
        tlast := s.active && decide (s.count.toNat = P.numInputs - 1) }
    else
      { s with capturedD := captureNext s i }
  else if !s.active && i.capture then
    { capturedD := captureNext s i
      active := true
      count := 0
      tvalid := true
      tdata := P.header
      tlast := false }
  else
    { capturedD := captureNext s i
      active := false
      count := 0
      tvalid := false
      tdata := 0
      tlast := false }

/-- The packet made of a snapshot. -/
def packet (P : Params) (d : Fin P.numInputs → BitVec P.width) :
    List (Beat P.width) :=
  ⟨P.header, false⟩ ::
    List.ofFn fun n => ⟨d n, decide (n.val = P.numInputs - 1)⟩

/-- Where a word of the snapshot is in the packet. -/
theorem packet_getElem?
    (d : Fin P.numInputs → BitVec P.width) (n : Fin P.numInputs) :
    (packet P d)[n.val + 1]? =
      some ⟨d n, decide (n.val = P.numInputs - 1)⟩ := by
  simp [packet]

/-- The word transferred in a clock, if any. -/
def transfer (s : State P) (i : Input P) : List (Beat P.width) :=
  if s.tvalid && i.tready then [⟨s.tdata, s.tlast⟩] else []

/-- The packet accepted in a clock, if any. -/
def accept (s : State P) (i : Input P) : List (Beat P.width) :=
  if s.readyForCapture && i.capture then
    packet P fun n => P.captureWord (i.d n)
  else []

/-- Captured words from index `k` on, as they will appear on the output. -/
def capturedFrom (s : State P) (k : Nat) : List (Beat P.width) :=
  (List.ofFn fun n => (⟨s.capturedD n, decide (n.val = P.numInputs - 1)⟩ :
    Beat P.width)).drop k

/-- Words still owed: the one on the output and the captured words after it. -/
def pending (s : State P) : List (Beat P.width) :=
  if s.tvalid then
    ⟨s.tdata, s.tlast⟩ ::
      if s.active then capturedFrom s s.count.toNat else []
  else []

/-- An idle output has nothing left to send, and while a packet is being sent
the index of the next word is in range. -/
structure Inv (s : State P) : Prop where
  idle : s.tvalid = false → s.active = false
  count_lt : s.active = true → s.count.toNat < P.numInputs

theorem reset_inv (s : State P) : Inv (reset s) :=
  ⟨fun _ => rfl, fun h => by simp [reset] at h⟩

/-- The counter is wide enough to count one past every index. -/
theorem count_succ_toNat
    (c : BitVec P.countWidth) (hc : c.toNat < P.numInputs) :
    (c + 1).toNat = c.toNat + 1 :=
  toNat_succ_of_lt (succ_lt_two_pow_clog (Nat.le_of_lt hc))

/-- The next captured word and the ones behind it. -/
theorem capturedFrom_cons
    (s : State P) {k : Nat} (hk : k < P.numInputs) :
    capturedFrom s k =
      ⟨s.capturedAt k, decide (k = P.numInputs - 1)⟩ ::
        capturedFrom s (k + 1) := by
  unfold capturedFrom
  rw [List.drop_eq_getElem_cons (by simpa using hk)]
  simp [State.capturedAt, hk]

theorem capturedFrom_end
    (s : State P) {k : Nat} (hk : P.numInputs ≤ k) :
    capturedFrom s k = [] := by
  unfold capturedFrom
  exact List.drop_eq_nil_of_le (by simpa using hk)

/-- While a packet is on its way the capture registers keep their words. -/
theorem captureNext_of_busy
    {s : State P} (hbusy : s.readyForCapture = false) (i : Input P) :
    captureNext s i = s.capturedD := by
  funext n
  simp [captureNext, hbusy]

theorem busy_of_tvalid
    {s : State P} (hv : s.tvalid = true) :
    s.readyForCapture = false := by
  simp [State.readyForCapture, hv]

/-- A stalled clock changes no register. -/
theorem step_stalled
    {s : State P} {i : Input P}
    (hv : s.tvalid = true) (hr : i.tready = false) :
    step s i = s := by
  have hkeep := captureNext_of_busy (busy_of_tvalid hv) i
  unfold step
  rw [if_pos hv, hr, hkeep]
  rfl

theorem step_inv
    {s : State P} (hs : Inv s) (i : Input P) :
    Inv (step s i) := by
  cases hv : s.tvalid with
  | false =>
      have hidle := hs.idle hv
      cases hc : i.capture with
      | false =>
          exact ⟨fun _ => by simp [step, hv, hidle, hc],
            fun h => by simp [step, hv, hidle, hc] at h⟩
      | true =>
          exact ⟨fun h => by simp [step, hv, hidle, hc] at h,
            fun _ => by simp [step, hv, hidle, hc, P.numInputs_pos]⟩
  | true =>
      cases hr : i.tready with
      | false =>
          rw [step_stalled hv hr]
          exact hs
      | true =>
          cases ha : s.active with
          | false =>
              exact ⟨fun _ => by simp [step, hv, hr, ha],
                fun h => by simp [step, hv, hr, ha] at h⟩
          | true =>
              have hlt := hs.count_lt ha
              refine ⟨fun h => by simp [step, hv, hr, ha] at h, fun h => ?_⟩
              have hmore : s.count.toNat < P.numInputs - 1 := by
                simpa [step, hv, hr, ha] using h
              have hcount : (step s i).count = s.count + 1 := by
                simp [step, hv, hr, ha]
              rw [hcount, count_succ_toNat s.count hlt]
              omega

/-- While words of the packet are left, one of them goes to the output when the
one there is taken, and the others stay. -/
theorem pending_step_of_active
    {s : State P} (hs : Inv s) (i : Input P)
    (hv : s.tvalid = true) (hr : i.tready = true) (ha : s.active = true) :
    pending (step s i) = capturedFrom s s.count.toNat := by
  have hlt := hs.count_lt ha
  have hcons := capturedFrom_cons s hlt
  have hkeep := captureNext_of_busy (busy_of_tvalid hv) i
  by_cases hmore : s.count.toNat < P.numInputs - 1
  · -- another captured word follows the one put on the output
    have hnext : (step s i).count.toNat = s.count.toNat + 1 := by
      simp only [step, hv, hr, ha, if_true]
      exact count_succ_toNat s.count hlt
    have hrest :
        capturedFrom (step s i) (s.count.toNat + 1) =
          capturedFrom s (s.count.toNat + 1) := by
      simp [capturedFrom, step, hv, hr, ha, hkeep]
    have hout :
        pending (step s i) =
          ⟨s.capturedAt s.count.toNat,
            decide (s.count.toNat = P.numInputs - 1)⟩ ::
            capturedFrom (step s i) (step s i).count.toNat := by
      simp [pending, step, hv, hr, ha, hmore]
    rw [hout, hnext, hrest, ← hcons]
  · -- the word put on the output is the last one
    have hend := capturedFrom_end s
      (k := s.count.toNat + 1) (by omega)
    simp [pending, step, hv, hr, ha, hmore, hcons, hend]

/-- One clock transfers exactly what the words owed before it, those accepted
in it and those owed after it leave open. -/
theorem transfer_pending
    {s : State P} (hs : Inv s) (i : Input P) :
    transfer s i ++ pending (step s i) = pending s ++ accept s i := by
  cases hv : s.tvalid with
  | false =>
      have hidle := hs.idle hv
      cases hc : i.capture with
      | false =>
          simp [transfer, pending, accept, step, hv, hidle, hc]
      | true =>
          have hready : s.readyForCapture = true := by
            simp [State.readyForCapture, hv, hidle]
          simp [transfer, pending, accept, step, hv, hidle, hc, hready,
            packet, capturedFrom, captureNext]
  | true =>
      have hbusy := busy_of_tvalid hv
      cases hr : i.tready with
      | false =>
          rw [step_stalled hv hr]
          simp [transfer, accept, hv, hr, hbusy]
      | true =>
          cases ha : s.active with
          | false =>
              simp [transfer, pending, accept, step, hv, hr, ha, hbusy]
          | true =>
              rw [pending_step_of_active hs i hv hr ha]
              simp [transfer, pending, accept, hv, hr, ha, hbusy]

section Runs

variable (s : State P) (inp : Nat → Input P)

/-- Words transferred before clock `t` of a run after reset. -/
def transferred (t : Nat) : List (Beat P.width) :=
  eventsBefore (fun u => transfer (run step (reset s) inp u) (inp u)) t

/-- Packets accepted before clock `t` of a run after reset, concatenated. -/
def accepted (t : Nat) : List (Beat P.width) :=
  eventsBefore (fun u => accept (run step (reset s) inp u) (inp u)) t

theorem run_inv (t : Nat) : Inv (run step (reset s) inp t) :=
  run_invariant Inv (reset_inv s) (fun _ i hs => step_inv hs i) t

/-- Over a run the words transferred and those still owed are the packets
accepted, in order. -/
theorem transferred_append_pending (t : Nat) :
    transferred s inp t ++ pending (run step (reset s) inp t) =
      accepted s inp t := by
  refine eventsBefore_conservation
    (fun u => pending (run step (reset s) inp u)) ?_ ?_ t
  · intro u
    exact transfer_pending (run_inv s inp u) (inp u)
  · simp [pending, reset]

end Runs

/-- Outside the idle clocks neither `capture` nor `d` reaches a register. -/
theorem step_ignores_capture
    {s : State P} (hbusy : s.readyForCapture = false)
    {i j : Input P} (hready : i.tready = j.tready) (hs : Inv s) :
    step s i = step s j := by
  have hv : s.tvalid = true := by
    cases hv : s.tvalid with
    | true => rfl
    | false =>
        simp [State.readyForCapture, hv, hs.idle hv] at hbusy
  simp [step, hv, hready, captureNext_of_busy hbusy]

/-- In an idle clock only an accepted capture looks at the input words. -/
theorem step_congr_idle
    {s : State P} (hidle : s.readyForCapture = true)
    {i j : Input P} (hcap : i.capture = j.capture)
    (hd : i.capture = true → i.d = j.d) :
    step s i = step s j := by
  have hv : s.tvalid = false := by
    cases hv : s.tvalid with
    | false => rfl
    | true => simp [State.readyForCapture, hv] at hidle
  have hnext : captureNext s i = captureNext s j := by
    funext n
    cases hc : i.capture with
    | false => simp [captureNext, ← hcap, hc]
    | true => simp [captureNext, ← hcap, hc, hd hc]
  simp [step, hv, ← hcap, hnext]

/-- Two runs whose inputs differ only in the captures of busy clocks, and in
the data of clocks without an accepted capture, are the same run. -/
theorem run_congr_captures
    (s : State P) {inp inp' : Nat → Input P}
    (hready : ∀ t, (inp t).tready = (inp' t).tready)
    (hcap : ∀ t, (run step (reset s) inp t).readyForCapture = true →
      (inp t).capture = (inp' t).capture ∧
      ((inp t).capture = true → (inp t).d = (inp' t).d))
    (t : Nat) :
    run step (reset s) inp' t = run step (reset s) inp t := by
  induction t with
  | zero =>
      rfl
  | succ t ih =>
      rw [run_succ, run_succ, ih]
      cases hidle : (run step (reset s) inp t).readyForCapture with
      | true =>
          obtain ⟨hc, hd⟩ := hcap t hidle
          exact (step_congr_idle hidle hc hd).symm
      | false =>
          exact (step_ignores_capture hidle (hready t) (run_inv s inp t)).symm

/-- Packets that the captures of a run ask for: one for every clock in which
`capture` is high while the module is idle, made of the inputs of that clock. -/
def requested (s : State P) (inp : Nat → Input P) (t : Nat) :
    List (Beat P.width) :=
  eventsBefore
    (fun u =>
      if (run step (reset s) inp u).readyForCapture && (inp u).capture then
        packet P (inp u).d
      else []) t

/-- **Every accepted capture is delivered exactly once and unchanged.** -/
theorem delivers_captures
    (hswap : P.endianSwap = false)
    (s : State P) (inp : Nat → Input P) (t : Nat) :
    (transferred s inp t <+: requested s inp t ∧
      ((run step (reset s) inp t).tvalid = false →
        transferred s inp t = requested s inp t)) ∧
    ((run step (reset s) inp t).tvalid = true → (inp t).tready = false →
      (run step (reset s) inp (t + 1)).tdata =
          (run step (reset s) inp t).tdata ∧
        (run step (reset s) inp (t + 1)).tvalid =
          (run step (reset s) inp t).tvalid ∧
        (run step (reset s) inp (t + 1)).tlast =
          (run step (reset s) inp t).tlast) ∧
    (∀ inp' : Nat → Input P,
      (∀ u, (inp u).tready = (inp' u).tready) →
      (∀ u, (run step (reset s) inp u).readyForCapture = true →
        (inp u).capture = (inp' u).capture ∧
        ((inp u).capture = true → (inp u).d = (inp' u).d)) →
      transferred s inp' t = transferred s inp t) := by
  have hreq : accepted s inp t = requested s inp t := by
    have hword : ∀ x : BitVec P.width, P.captureWord x = x := by
      intro x
      simp [Params.captureWord, hswap]
    simp only [accepted, requested, accept, hword]
  have hflow := transferred_append_pending s inp t
  rw [hreq] at hflow
  refine ⟨⟨⟨_, hflow⟩, ?_⟩, ?_, ?_⟩
  · intro hv
    simpa [pending, hv] using hflow
  · intro hv hr
    rw [run_succ, step_stalled hv hr]
    exact ⟨rfl, rfl, rfl⟩
  · intro inp' hready hcap
    unfold transferred
    congr 1
    funext u
    rw [run_congr_captures s hready hcap u]
    simp [transfer, hready u]

/-- An instance with two input words of sixteen bits. -/
def twoWords : Params where
  numInputs := 2
  width := 16
  id := 0xAA
  endianSwap := false
  numInputs_pos := by decide

/-- Both inputs change in every clock, `capture` is high in clocks 0 and 1 and
the receiver stalls in clock 2. -/
def twoWordsInput (t : Nat) : Input twoWords where
  capture := decide (t < 2)
  d := fun n => BitVec.ofNat 16 (16 * t + n.val)
  tready := decide (t ≠ 2)

/-- Registers after power-up. -/
def twoWordsState : State twoWords :=
  ⟨0, false, false, fun _ => 0, 0, false⟩

/-- The second capture falls into a busy clock and leaves no word. -/
theorem delivers_captures_twoWords :
    transferred twoWordsState twoWordsInput 5 =
      [⟨0xAA02#16, false⟩, ⟨0#16, false⟩, ⟨1#16, true⟩] :=
  ((delivers_captures (P := twoWords) rfl twoWordsState twoWordsInput 5).1.2
    rfl).trans rfl

end SimplePacketizer
end MollerFirmware
