import MollerFirmware.Hdl.AxiStreamTsDataStep

/-!
# axi_stream_ts_data with a receiver that is always ready

If `out_tready` is never low, the read side is never far behind. `backlog` is
the number of clocks it still needs for everything that is committed; every
clock reduces it by one. `progress` bounds from below the number of clocks the
write machine has spent on its current packet. A packet of `n` words takes at
least as many clocks to write as to send, so the sum of the two is bounded
(`backlog_add_progress_le`), and in a RAM with room for two packets of maximal
length the free space check never fails (`spaceCheck_of_ready`).
-/

namespace MollerFirmware
namespace AxiStreamTsData

open Clocked

variable {P : Params}

/-- Clocks that an always ready receiver takes for a list of packets. -/
def sendTime (P : Params) (ps : List Packet) : Nat :=
  (ps.map fun p => (p.beats P).length + 1).sum

/-- Clocks until the read side has sent everything that is committed. -/
def backlog (s : State P) (g : Ledger) : Nat :=
  (if s.rd.outTvalid then g.sending.length + 1 else 0) + sendTime P g.queue

/-- Clocks that the current packet has taken so far, at least. -/
def progress (s : State P) (g : Ledger) : Nat :=
  match s.wr.inState with
  | .idle => if s.wr.inTready then 1 else 0
  | .data => g.building.length + 1
  | .wrLen => g.building.length + 1
  | .wrTs => g.building.length + 2
  | .wrUpdate => g.building.length + 3

/-- RAM words that a packet of maximal length takes. -/
def Params.packetWords (P : Params) : Nat :=
  max P.intMaxPktLen 4

theorem sendTime_cons (p : Packet) (ps : List Packet) :
    sendTime P (p :: ps) = (p.beats P).length + 1 + sendTime P ps := by
  simp [sendTime]

theorem sendTime_append (ps qs : List Packet) :
    sendTime P (ps ++ qs) = sendTime P ps + sendTime P qs := by
  simp [sendTime]

theorem flatMap_beats_length_le (ps : List Packet) :
    (ps.flatMap (Packet.beats P)).length ≤ sendTime P ps := by
  induction ps with
  | nil =>
      simp [sendTime]
  | cons p ps ih =>
      rw [List.flatMap_cons, List.length_append, sendTime_cons]
      omega

/-- Every unread word is still to be sent. -/
theorem unread_le_backlog
    {s : State P} {g : Ledger} (h : ReadInv s g) :
    (g.unread P).length ≤ backlog s g := by
  have hqueue := flatMap_beats_length_le (P := P) g.queue
  unfold Ledger.unread backlog
  rw [List.length_append]
  cases hv : s.rd.outTvalid with
  | false =>
      rw [h.idle hv]
      simpa using hqueue
  | true =>
      rw [if_pos rfl]
      omega

/-- One clock of the read side takes one clock off the backlog. -/
theorem backlog_read
    {s : State P} {g : Ledger} (h : ReadInv s g)
    (hfits : (g.unread P).length ≤ 2 ^ P.depthBits)
    {i : Input} (hready : i.outTready = true) :
    backlog (step s i) (g.read s i) = backlog s g - 1 := by
  have hrd : (step s i).rd = readNext s i := rfl
  unfold backlog
  rw [hrd]
  cases hv : s.rd.outTvalid with
  | true =>
      cases hl : s.rd.outTlast with
      | true =>
          have hbooks : g.read s i = g := by
            simp [Ledger.read, hv, hready, hl]
          rw [hbooks, (h.busy hv).tail_of_last hl]
          simp [readNext, hv, hready, hl]
      | false =>
          have hclosing := (h.busy hv).tail_of_not_last hl
          obtain ⟨b, bs, hsend⟩ : ∃ b bs, g.sending = b :: bs := by
            cases hs : g.sending with
            | nil => rw [hs] at hclosing; exact hclosing.elim
            | cons b bs => exact ⟨b, bs, rfl⟩
          simp [readNext, Ledger.read, hv, hready, hl, hsend]
  | false =>
      have hempty := bufNotEmpty_iff h hfits hv
      cases hq : g.queue with
      | nil =>
          have hbuf : bufNotEmpty s = false := by
            simpa [hq] using hempty
          simp [readNext, Ledger.read, hv, hq, hbuf, sendTime]
      | cons p q =>
          have hbuf : bufNotEmpty s = true := by
            simpa [hq] using hempty
          rw [sendTime_cons]
          simp [readNext, Ledger.read, hv, hq, hbuf, Packet.beats]

/-- A commit adds the time of its packet to the backlog. -/
theorem backlog_step
    {s : State P} {g : Ledger} (h : ReadInv s g)
    (hfits : (g.unread P).length ≤ 2 ^ P.depthBits)
    {i : Input} (hready : i.outTready = true) :
    backlog (step s i) (watch g s i) =
      backlog s g - 1 +
        if s.wr.inState = .wrUpdate then g.building.length + 3 else 0 := by
  rw [← backlog_read h hfits hready]
  have hadded : sendTime P (commits s g) =
      if s.wr.inState = .wrUpdate then g.building.length + 3 else 0 := by
    unfold commits
    split_ifs <;> simp [sendTime, Ledger.nextPacket]
  unfold backlog watch
  rw [write_sending, write_queue, sendTime_append, commits_read, hadded,
    Nat.add_assoc]

/-- One clock is at most one clock of progress, and a commit starts over. -/
theorem progress_step
    {s : State P} {g : Ledger} (h : Inv s g) (i : Input) :
    progress (step s i) (watch g s i) ≤
      if s.wr.inState = .wrUpdate then 0 else progress s g + 1 := by
  have hw := h.write
  have hwr : (step s i).wr = writeNext s i := rfl
  unfold progress
  rw [hwr]
  cases hst : s.wr.inState with
  | idle =>
      simp only [WriteInv, hst] at hw
      rw [watch_building_of_ne g i (by simp [hst]), hw.empty]
      rcases idle_cases i hst with ⟨hacc, hnext⟩ | ⟨_, hnext⟩
      · have hready : s.wr.inTready = true := by
          simp only [inCaptured, Bool.and_eq_true] at hacc
          exact hacc.1.2
        simp [hnext, hready, acceptedWords]
        split_ifs <;> simp
      · simp only [hnext, reduceCtorEq, if_false]
        split_ifs <;> omega
  | data =>
      rw [watch_building_of_ne g i (by simp [hst])]
      have hone : (acceptedWords s i).length ≤ 1 := by
        unfold acceptedWords
        split_ifs <;> simp
      rcases data_cases i hst with ⟨_, hnext⟩ | ⟨hcap, _, hnext⟩ | ⟨_, _, hnext⟩
      · cases hcl : closing s i <;> simp [hnext, hcl] <;> omega
      · simp [hnext]
        omega
      · simp [hnext]
        omega
  | wrLen =>
      rw [watch_building_of_ne g i (by simp [hst]),
        acceptedWords_eq_nil i (by simp [hst]) (by simp [hst])]
      simp [writeNext, hst]
  | wrTs =>
      rw [watch_building_of_ne g i (by simp [hst]),
        acceptedWords_eq_nil i (by simp [hst]) (by simp [hst])]
      simp [writeNext, hst]
  | wrUpdate =>
      simp [writeNext, hst]

theorem progress_le
    {s : State P} {g : Ledger} (h : Inv s g) :
    progress s g ≤ P.packetWords + 1 := by
  have hw := h.write
  unfold progress Params.packetWords
  cases hst : s.wr.inState with
  | idle =>
      dsimp only
      split_ifs <;> omega
  | data =>
      simp only [WriteInv, hst] at hw
      have hsize := hw.size
      dsimp only
      omega
  | wrLen =>
      simp only [WriteInv, hst] at hw
      have hsize := hw.size
      dsimp only
      omega
  | wrTs =>
      simp only [WriteInv, hst] at hw
      have hsize := hw.size
      dsimp only
      omega
  | wrUpdate =>
      simp only [WriteInv, hst] at hw
      have hsize := hw.size
      dsimp only
      omega

section Runs

variable {s : State P} {inp : Nat → Input}

/-- **The read side keeps up with the write side.** -/
theorem backlog_add_progress_le
    (h3 : 3 ≤ P.maxPktLen)
    (hok : ∀ t, FirstWordOk (stateAt s inp t) (inp t))
    (hready : ∀ t, (inp t).outTready = true) (t : Nat) :
    backlog (stateAt s inp t) (ledgerAt s inp t) +
        progress (stateAt s inp t) (ledgerAt s inp t) ≤
      P.packetWords + 1 := by
  induction t with
  | zero =>
      simp [backlog, progress, sendTime, stateAt, ledgerAt, reset, Ledger.empty]
  | succ t ih =>
      have h := run_inv h3 s inp hok t
      have hle := progress_le (run_inv h3 s inp hok (t + 1))
      have hback := backlog_step h.read h.unread_le (hready t)
      have hprog := progress_step h (inp t)
      rw [stateAt_succ, ledgerAt_succ] at hle ⊢
      rw [hback]
      split_ifs at hprog ⊢ with hst
      · have hnow : progress (stateAt s inp t) (ledgerAt s inp t) =
            (ledgerAt s inp t).building.length + 3 := by
          simp [progress, hst]
        omega
      · omega

/-- The words in the RAM, the packet that is being committed included. -/
theorem startPos_le_of_ready
    (h3 : 3 ≤ P.maxPktLen)
    (hok : ∀ t, FirstWordOk (stateAt s inp t) (inp t))
    (hready : ∀ t, (inp t).outTready = true) (t : Nat) :
    startPos (stateAt s inp t) (ledgerAt s inp t) ≤
      (ledgerAt s inp t).loaded + (P.packetWords + 1) := by
  have h := run_inv h3 s inp hok t
  have hsum := backlog_add_progress_le h3 hok hready t
  have hunread := unread_le_backlog h.read
  unfold progress at hsum
  unfold startPos Ledger.commitPos
  cases hst : (stateAt s inp t).wr.inState <;> simp only [hst] at hsum ⊢ <;>
    omega

/-- With room for two packets the free space check succeeds, from the second
clock after reset on. -/
theorem spaceCheck_of_ready
    (h3 : 3 ≤ P.maxPktLen)
    (hdeep : P.maxPktLen + P.packetWords + 1 < 2 ^ P.depthBits)
    (hok : ∀ t, FirstWordOk (stateAt s inp t) (inp t))
    (hready : ∀ t, (inp t).outTready = true) (t : Nat) :
    (stateAt s inp (t + 2)).chk.spaceCheck = true := by
  have h := run_inv h3 s inp hok t
  have hpos := startPos_le_of_ready h3 hok hready t
  have hused : (stateAt s inp (t + 1)).chk.used.toNat ≤ P.packetWords + 1 := by
    rw [stateAt_succ, h.used_step]
    omega
  have hcheck : (stateAt s inp (t + 2)).chk.spaceCheck =
      decide (P.maxPktLen <
        (BitVec.ofNat P.spaceWidth P.depth -
          (stateAt s inp (t + 1)).chk.used.setWidth P.spaceWidth).toNat) := rfl
  rw [hcheck, free_toNat (by omega), decide_eq_true_eq]
  omega

end Runs

end AxiStreamTsData
end MollerFirmware
