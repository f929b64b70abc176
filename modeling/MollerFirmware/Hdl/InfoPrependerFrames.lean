import MollerFirmware.Hdl.InfoPrependerInvariant

/-!
# Frames of one-word packets

Whether the RAM has room depends on how many packets the module lets in. It
counts them with `in_pkts` and `out_pkts` and admits `NUM_PACKETS` of them, but
its RAM has been given one word for each packet besides the payload, where the
frame has three. From a `MAX_PKT_LEN` of four words on this makes no difference
to packets of one word.
-/

namespace MollerFirmware
namespace InfoPrepender

open Clocked

variable {P : Params}

section Gate

variable {s : State P} {i : Input} {out : List (Bool × BitVec 32)}
variable {ws : List Accepted} {n : Nat}

/-- At most `NUM_PACKETS` of the `k` accepted packets are in the module. -/
structure Gate (s : State P) (k n : Nat) : Prop where
  le : k ≤ framesDone s n + P.numPackets
  ready : s.wr.inTready = true → k < framesDone s n + P.numPackets

theorem Params.numPackets_lt (P : Params) : P.numPackets < 2 ^ P.szPkts :=
  Nat.le_pow_clog (by omega) _

/-- The difference of two counters that are `d` apart, in a wider register, is
not below `d`. When only one of them has wrapped it is too large. -/
theorem le_setWidth_sub {v w f d : Nat} (hvw : v ≤ w) (hd : d < 2 ^ v) :
    d ≤ ((BitVec.ofNat v (f + d)).setWidth w -
      (BitVec.ofNat v f).setWidth w).toNat := by
  have hpow : 2 ^ v ≤ 2 ^ w := Nat.pow_le_pow_right (by omega) hvw
  have hf : f % 2 ^ v < 2 ^ v := Nat.mod_lt _ (by omega)
  have hsum : (f + d) % 2 ^ v =
      if f % 2 ^ v + d < 2 ^ v then f % 2 ^ v + d
      else f % 2 ^ v + d - 2 ^ v := by
    rw [Nat.add_mod, Nat.mod_eq_of_lt hd]
    split_ifs with hlt
    · exact Nat.mod_eq_of_lt hlt
    · rw [Nat.mod_eq_sub_mod (by omega), Nat.mod_eq_of_lt (by omega)]
  rw [BitVec.toNat_sub, BitVec.toNat_setWidth, BitVec.toNat_setWidth,
    BitVec.toNat_ofNat, BitVec.toNat_ofNat, hsum,
    Nat.mod_eq_of_lt (hf.trans_le hpow)]
  split_ifs with hlt
  · rw [Nat.mod_eq_of_lt (hlt.trans_le hpow),
      show 2 ^ w - f % 2 ^ v + (f % 2 ^ v + d) = d + 2 ^ w by omega,
      Nat.add_mod_right, Nat.mod_eq_of_lt (hd.trans_le hpow)]
  · rw [Nat.mod_eq_of_lt (by omega : f % 2 ^ v + d - 2 ^ v < 2 ^ w),
      Nat.mod_eq_of_lt (by omega)]
    omega

/-- `in_tready` is only raised when another packet is allowed. -/
theorem lt_of_pktsBelowMax {k f : Nat}
    (hin : s.wr.inPkts = BitVec.ofNat P.szPkts k)
    (hout : s.rd.outPkts = BitVec.ofNat P.szPkts f)
    (hle : k ≤ f + P.numPackets) (hbelow : pktsBelowMax s = true) :
    k < f + P.numPackets := by
  refine lt_of_le_of_ne hle fun heq => ?_
  have hlt := of_decide_eq_true hbelow
  rw [hin, hout, heq] at hlt
  exact absurd hlt
    (Nat.not_lt.mpr (le_setWidth_sub (Nat.le_max_right _ _) P.numPackets_lt))

theorem Gate.next (h : Gate s ws.length n) (hinv : Inv s out ws n)
    (hone : inCaptured s i = true → i.inTlast = true)
    (hena : i.enable = true) {m : Nat}
    (hdone : framesDone s n ≤ framesDone (step s i) m) :
    Gate (step s i) (ws ++ takenIn s i).length m := by
  have hle := h.le
  cases hinv with
  | idle reader writer =>
      have hwr : (step s i).wr = idleNext s i := by
        simp [step, writeNext, writer.inState]
      cases hcap : inCaptured s i with
      | true =>
          have hlt := h.ready (inTready_of_captured hcap)
          have hlow : (step s i).wr.inTready = false := by
            rw [hwr, idleNext, hcap, hena, hone hcap]
            rfl
          constructor
          · rw [takenIn, hcap, if_pos rfl, List.length_append]
            simp only [List.length_cons, List.length_nil]
            omega
          · exact fun hready => absurd (hlow.symm.trans hready) (by simp)
      | false =>
          rw [takenIn, hcap, if_neg (by simp), List.append_nil]
          refine ⟨by omega, fun hready => ?_⟩
          rw [hwr, idleNext, hcap, Bool.false_and, if_neg (by simp)] at hready
          have hbelow : pktsBelowMax s = true := by
            simpa using hready
          have hlt := lt_of_pktsBelowMax writer.inPkts reader.outPkts hle hbelow
          omega
  | busy old w heq reader writer stage =>
      have hnone : takenIn s i = [] := by
        simp [takenIn, inCaptured, writer.inTready]
      have hlow : (step s i).wr.inTready = false := by
        cases stage with
        | wrLen hstate => simp [step, writeNext, hstate]
        | wrData1 hstate => simp [step, writeNext, hstate]
        | wrData2 hstate => simp [step, writeNext, hstate]
      rw [hnone, List.append_nil]
      exact ⟨by omega,
        fun hready => absurd (hlow.symm.trans hready) (by simp)⟩

/-- While a frame is written `wr_pos` is one of its slots. -/
theorem Stage.exists_wrPos {k : Nat} {w : Accepted} (h : Stage s k w) :
    ∃ a, a < 4 ∧ s.wr.wrPos = BitVec.ofNat P.depthBits (4 * k + a) := by
  cases h with
  | wrLen _ hpos => exact ⟨3, by omega, hpos⟩
  | wrData1 _ hpos => exact ⟨0, by omega, hpos⟩
  | wrData2 _ hpos => exact ⟨1, by omega, hpos⟩

/-- A RAM with room for one frame more than the module may hold has always
room. -/
theorem Inv.hasRoom (h : Inv s out ws n) (hgate : Gate s ws.length n)
    (hbig : 4 * P.numPackets + 4 ≤ P.depth) (i : Input) :
    HasRoom s i ws.length n := by
  have hdone := four_mul_framesDone_le s n
  have hle := hgate.le
  constructor
  · intro hcap
    have hlt := hgate.ready (inTready_of_captured hcap)
    omega
  · intro hloads
    cases h with
    | idle reader writer =>
        have hlt := reader.lt_of_loads writer.inPkts hloads
        rw [reader.rdPos]
        rcases writer.wrPos with rfl | hpos | ⟨hfresh, hpos⟩
        · exact absurd hlt (Nat.not_lt_zero _)
        · rw [hpos]
          refine (ofNat_ne_ofNat (by omega) ?_).symm
          change _ < n + P.depth
          omega
        · rw [hpos]
          refine (ofNat_ne_ofNat (by omega) ?_).symm
          change _ < n + P.depth
          omega
    | busy old w heq reader writer stage =>
        have hlt := reader.lt_of_loads writer.inPkts hloads
        rw [heq, List.length_append] at hle
        simp only [List.length_cons, List.length_nil] at hle
        obtain ⟨a, ha, hpos⟩ := stage.exists_wrPos
        rw [reader.rdPos, hpos]
        refine (ofNat_ne_ofNat (by omega) ?_).symm
        change _ < n + P.depth
        omega

/-- The size of the RAM is computed for one word more than the payload. That is
enough for frames of four words when a packet may have four words itself. -/
theorem Params.four_mul_numPackets_le (P : Params) (h4 : 4 ≤ P.maxPktLen) :
    4 * P.numPackets + 4 ≤ P.depth := by
  have hone := P.one_le_numPackets
  have hfit : (P.maxPktLen + 1) * P.numPackets ≤ P.depth :=
    Nat.le_pow_clog (by omega) _
  have hfive : 5 * P.numPackets ≤ (P.maxPktLen + 1) * P.numPackets :=
    Nat.mul_le_mul_right _ (by omega)
  obtain ⟨m, hm⟩ : ∃ m, P.depthBits = m + 2 := by
    refine Nat.exists_eq_add_of_le' (Nat.le_of_not_lt fun hlt => ?_)
    have hsmall : P.depth ≤ 2 ^ 1 :=
      Nat.pow_le_pow_right (by omega) (by omega)
    omega
  have hdepth : P.depth = 4 * 2 ^ m := by
    unfold Params.depth
    rw [hm, Nat.pow_add, Nat.mul_comm]
  omega

end Gate

namespace Run

variable (r : Run P)

/-- Words that the reader has fetched before clock `t`. -/
def loaded (t : Nat) : Nat :=
  pulsesIn (fun u => loads (r.state u) (r.input u)) 0 t

/-- Every input packet has one word. -/
def OneWordPackets : Prop :=
  ∀ t, r.captured t = true → (r.input t).inTlast = true

/-- In clock `t` the RAM has room for the frame of a packet that is accepted,
and the reader does not fetch the word at `wr_pos`. -/
def RoomNow (t : Nat) : Prop :=
  HasRoom (r.state t) (r.input t) (r.accepted t).complete.length (r.loaded t)

theorem loaded_succ (t : Nat) :
    r.loaded (t + 1) =
      r.loaded t + if loads (r.state t) (r.input t) then 1 else 0 :=
  pulsesIn_succ _ (Nat.zero_le t)

theorem sent_succ (t : Nat) :
    r.sent (t + 1) = r.sent t ++ taken (r.state t) (r.input t) := by
  rfl

variable {r}

/-- One-word packets are complete when they are accepted. -/
theorem accepted_succ_of_oneWord {t : Nat} {ws : List Accepted}
    (hone : r.OneWordPackets)
    (h : r.accepted t = ⟨ws.map fun w => [w], []⟩) :
    r.accepted (t + 1) =
      ⟨(ws ++ takenIn (r.state t) (r.input t)).map fun w => [w], []⟩ := by
  change watchInput (r.accepted t) (r.state t) (r.input t) = _
  unfold watchInput takenIn
  cases hcap : inCaptured (r.state t) (r.input t) with
  | true =>
      rw [if_pos rfl, if_pos rfl, hone t hcap, h, Packets.take_true,
        List.map_append]
      rfl
  | false =>
      rw [if_neg (by simp), if_neg (by simp), List.append_nil]
      exact h

/-- In every clock of a run of one-word packets. -/
theorem inv (hswap : P.endianSwap = false) (hone : r.OneWordPackets)
    (hroom : 4 ≤ P.maxPktLen ∨ ∀ t, r.RoomNow t) (t : Nat) :
    ∃ ws, r.accepted t = ⟨ws.map fun w => [w], []⟩ ∧
      Inv (r.state t) (r.sent t) ws (r.loaded t) ∧
      Gate (r.state t) ws.length (r.loaded t) := by
  induction t with
  | zero =>
      refine ⟨[], rfl, .idle ?_ ?_, ?_⟩
      · exact ⟨Nat.zero_le _, rfl, rfl,
          fun hvalid => absurd hvalid (by simp [state, reset]), fun _ => rfl,
          by simp [state, reset, framesDone, loaded]⟩
      · exact ⟨rfl, rfl, rfl, .inl rfl, holds_nil _ _⟩
      · exact ⟨Nat.zero_le _, fun hready => absurd hready (by simp [state, reset])⟩
  | succ t ih =>
      obtain ⟨ws, hacc, hinv, hgate⟩ := ih
      have hnow : HasRoom (r.state t) (r.input t) ws.length (r.loaded t) := by
        rcases hroom with h4 | hroom
        · exact hinv.hasRoom hgate (P.four_mul_numPackets_le h4) _
        · have hlen := hroom t
          rw [RoomNow, hacc, List.length_map] at hlen
          exact hlen
      obtain ⟨hnext, hdone⟩ := hinv.next hswap (r.enable t) (hone t) hnow
      refine ⟨_, accepted_succ_of_oneWord hone hacc, ?_, ?_⟩
      · rw [loaded_succ, sent_succ]
        exact hnext
      · rw [loaded_succ]
        exact hgate.next hinv (hone t) (r.enable t) hdone

/-- **One-word packets are framed correctly**, whenever the RAM has room for
them, as it always has when `MAX_PKT_LEN` is at least four. -/
theorem framed_of_oneWord (hswap : P.endianSwap = false)
    (hone : r.OneWordPackets)
    (hroom : 4 ≤ P.maxPktLen ∨ ∀ t, r.RoomNow t) (t : Nat) :
    r.Framed t := by
  obtain ⟨ws, hacc, hinv, hgate⟩ := r.inv hswap hone hroom t
  have hframes : r.frames t = oneWordFrames P ws := by
    unfold frames oneWordFrames
    rw [hacc, List.flatMap_map]
  have hprefix : r.sent t <+: oneWordFrames P ws := by
    cases hinv with
    | idle reader writer => exact reader.sent_prefix
    | busy old w heq reader writer stage =>
        rw [heq, oneWordFrames_snoc]
        exact reader.sent_prefix.trans (List.prefix_append _ _)
  refine ⟨hframes ▸ hprefix, fun hdrained => ?_⟩
  rw [hframes]
  cases hinv with
  | idle reader writer =>
      have hle := reader.le
      rw [length_oneWordFrames] at hle
      have hfour := reader.between hdrained.outTvalid
      have hout := reader.outPkts
      have hpkts := hgate.le
      have hmax := P.numPackets_lt
      rw [framesDone, hdrained.outTvalid, if_neg (by simp)] at hout hpkts
      -- the counters are equal and less than one turn apart
      have hall : r.loaded t / 4 = ws.length := by
        by_contra hne
        have hdiff := ofNat_ne_ofNat
          (by omega : r.loaded t / 4 < ws.length)
          (by omega : ws.length < r.loaded t / 4 + 2 ^ P.szPkts)
        rw [← hout, ← writer.inPkts] at hdiff
        exact absurd hdrained.empty (by simp [bufNotEmpty, hdiff.symm])
      have hshown := reader.shown
      rw [offered, hdrained.outTvalid, if_neg (by simp), List.append_nil] at hshown
      rw [hshown]
      exact List.take_of_length_le (by rw [length_oneWordFrames]; omega)
  | busy old w heq reader writer stage =>
      have hidle := hdrained.inState
      cases stage with
      | wrLen hstate => exact absurd (hstate.symm.trans hidle) (by simp)
      | wrData1 hstate => exact absurd (hstate.symm.trans hidle) (by simp)
      | wrData2 hstate => exact absurd (hstate.symm.trans hidle) (by simp)

/-- A run after power up with a reader that is always ready. The information
words are 8 and 9. -/
def fromPowerUp (inTvalid inTlast : Nat → Bool) (inTdata : Nat → BitVec 32) :
    Run ⟨7, false, 4, 1, by decide, by decide⟩ :=
  { before :=
      { rData := fun _ => 0
        rd := ⟨0, 0, false, false, 0⟩
        wr := ⟨false, 0, false, ⟨0, 0⟩, 0, 0, 0, 0, .idle⟩ }
    input := fun t =>
      { info := ⟨8, 9⟩
        enable := true
        forceEnd := false
        inTlast := inTlast t
        inTdata := inTdata t
        inTvalid := inTvalid t
        outTready := true }
    enable := fun _ => rfl
    forceEnd := fun _ => rfl }

/-- The number of the clock as a packet of its own, in every clock. -/
def clockNumbers : Run ⟨7, false, 4, 1, by decide, by decide⟩ :=
  fromPowerUp (fun _ => true) (fun _ => true) fun t => BitVec.ofNat 32 t

theorem framed_of_oneWord_clockNumbers :
    clockNumbers.Framed 11 ∧
      clockNumbers.sent 11 =
        [(false, 0x07000001), (false, 8), (false, 9), (true, 1)] :=
  ⟨framed_of_oneWord rfl (fun _ _ => rfl) (.inl (by decide)) 11,
    by decide +kernel⟩

/-- The words 1 and 2 as one packet. -/
def twoWordPacket : Run ⟨7, false, 4, 1, by decide, by decide⟩ :=
  fromPowerUp (fun t => decide (t ≤ 2)) (fun t => decide (2 ≤ t)) fun t =>
    if t ≤ 1 then 1 else 2

/-- The second word is sent as a copy of the first one, and not as the last of
its packet. -/
theorem not_framed_twoWordPacket :
    twoWordPacket.PacketsFit ∧
      (twoWordPacket.accepted 3).complete = [[⟨1, ⟨8, 9⟩⟩, ⟨2, ⟨8, 9⟩⟩]] ∧
      twoWordPacket.sent 12 =
        [(false, 0x07000002), (false, 8), (false, 9), (false, 1), (false, 1)] ∧
      ¬ ∀ t, twoWordPacket.Framed t := by
  refine ⟨fun t => ?_, by decide +kernel, by decide +kernel, fun hall => ?_⟩
  · by_cases hearly : t ≤ 2
    · interval_cases t <;> decide +kernel
    · intro hcap
      simp [captured, inCaptured, twoWordPacket, fromPowerUp, hearly] at hcap
  · exact absurd (hall 12).inOrder (by decide +kernel)

end Run

end InfoPrepender
end MollerFirmware
