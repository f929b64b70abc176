import MollerFirmware.Clocked.Delays

/-!
# axi_stream_packet_combiner

Input packets are strung together into longer ones: `in_tlast` is passed on to
the length prepender behind only once so many words have been collected that
another packet of maximal length might not fit any more.

The permission is a register that follows the word counter by a clock. The
packet that ends in the very clock in which the counter has reached the
threshold is therefore not the last one of the combined packet, unless the
permission was given already; `combined_le_iff` says when this makes the
combined packet too long. The length prepender is not part of the sources, and
its `in_tready` is an input here.
-/

namespace MollerFirmware
namespace PacketCombiner

open Clocked

/-- Parameters of an instance. -/
structure Params where
  maxPktLen : Nat
  maxCombinedLen : Nat

/-- `MAX_COMBINED_LEN - MAX_PKT_LEN` -/
def Params.threshold (P : Params) : Nat :=
  P.maxCombinedLen - P.maxPktLen

/-- Width of `cnt`, `[$clog2(MAX_COMBINED_LEN+1):0]`. -/
def Params.cntWidth (P : Params) : Nat :=
  Nat.clog 2 (P.maxCombinedLen + 1) + 1

/-- Registers of the module. -/
structure State (P : Params) where
  inTlastAllowed : Bool
  cnt : BitVec P.cntWidth

/-- Inputs in one clock. The data go to the prepender unchanged. -/
structure Input where
  forceTransmit : Bool
  inTlast : Bool
  inTvalid : Bool
  inTready : Bool

variable {P : Params}

/-- `in_tlast_int` -/
def inTlastInt (s : State P) (i : Input) : Bool :=
  i.inTvalid && i.inTlast && s.inTlastAllowed

/-- A clock edge with `rst` high. -/
def reset (P : Params) : State P :=
  { inTlastAllowed := false
    cnt := 0 }

/-- A clock edge with `rst` low. -/
def step (s : State P) (i : Input) : State P :=
  if inTlastInt s i && i.inTready then
    { cnt := 0
      inTlastAllowed := false }
  else
    { cnt := if i.inTvalid && i.inTready then s.cnt + 1 else s.cnt
      inTlastAllowed :=
        if P.threshold ≤ s.cnt.toNat ∨ i.forceTransmit = true then true
        else s.inTlastAllowed }

/-- Words accepted of an input packet that has not ended. -/
def watchPacket (g : Nat) (_ : State P) (i : Input) : Nat :=
  if i.inTvalid && i.inTready then (if i.inTlast then 0 else g + 1) else g

/-- A run after reset. -/
structure Run (P : Params) where
  input : Nat → Input

namespace Run

variable (r : Run P)

/-- Registers before clock edge `t`. -/
def state (t : Nat) : State P :=
  run step (reset P) r.input t

/-- A word is accepted. -/
def accepted (t : Nat) : Bool :=
  (r.input t).inTvalid && (r.input t).inTready

/-- `in_tlast_int` -/
def tlastInt (t : Nat) : Bool :=
  inTlastInt (r.state t) (r.input t)

/-- The last word of an input packet is accepted. -/
def packetEnds (t : Nat) : Bool :=
  r.accepted t && (r.input t).inTlast

/-- The last word of a combined packet is accepted. -/
def combinedEnds (t : Nat) : Bool :=
  r.tlastInt t && (r.input t).inTready

/-- Words accepted before clock `t` of the input packet that has not ended. -/
def pktWords (t : Nat) : Nat :=
  observe step watchPacket (reset P) 0 r.input t

/-- The input packets have at most `MAX_PKT_LEN` words. -/
def PacketsFit : Prop :=
  ∀ t, r.accepted t = true → (r.input t).inTlast = false →
    r.pktWords t + 1 < P.maxPktLen

/-- In clock `t` a combined packet is collected that begins in clock `a`, after
reset or after the end of another one. -/
structure Collects (a t : Nat) : Prop where
  le : a ≤ t
  first : a = 0 ∨ ∃ u, a = u + 1 ∧ r.combinedEnds u = true
  more : ∀ u, a ≤ u → u < t → r.combinedEnds u = false

/-- The last word of an input packet is accepted in the clock in which the
counter has just reached the threshold and the permission to end the combined
packet has not been given yet. -/
structure Missed (t : Nat) : Prop where
  ends : r.packetEnds t = true
  reached : (r.state t).cnt.toNat = P.threshold
  notAllowed : (r.state t).inTlastAllowed = false

/-- The input packet before the one that is going on in clock `t` was missed. -/
def MissedBefore (t : Nat) : Prop :=
  ∃ u, u < t ∧ r.Missed u ∧ ∀ v, u < v → v < t → r.packetEnds v = false

theorem combinedEnds_eq (t : Nat) :
    r.combinedEnds t = (r.packetEnds t && (r.state t).inTlastAllowed) := by
  unfold combinedEnds tlastInt inTlastInt packetEnds accepted
  cases (r.input t).inTvalid <;> cases (r.input t).inTlast <;>
    cases (r.input t).inTready <;> cases (r.state t).inTlastAllowed <;> rfl

theorem pktWords_succ (t : Nat) :
    r.pktWords (t + 1) =
      if r.accepted t then (if (r.input t).inTlast then 0 else r.pktWords t + 1)
      else r.pktWords t := by
  rfl

/-- The registers after a clock. -/
theorem state_succ (t : Nat) :
    r.state (t + 1) =
      if r.combinedEnds t then ⟨false, 0⟩
      else
        ⟨if P.threshold ≤ (r.state t).cnt.toNat ∨
              (r.input t).forceTransmit = true then true
            else (r.state t).inTlastAllowed,
          if r.accepted t then (r.state t).cnt + 1 else (r.state t).cnt⟩ := by
  rfl

variable {r}

theorem pktWords_lt (h1 : 1 ≤ P.maxPktLen) (hfit : r.PacketsFit) (t : Nat) :
    r.pktWords t < P.maxPktLen := by
  induction t with
  | zero => exact h1
  | succ t ih =>
      rw [pktWords_succ]
      cases hacc : r.accepted t with
      | false => exact ih
      | true =>
          cases hlast : (r.input t).inTlast with
          | true => exact h1
          | false => exact hfit t hacc hlast

/-- What a clock does to the packet going on. -/
theorem missedBefore_succ_iff (t : Nat) :
    r.MissedBefore (t + 1) ↔
      if r.packetEnds t then r.Missed t else r.MissedBefore t := by
  cases hends : r.packetEnds t with
  | true =>
      rw [if_pos rfl]
      constructor
      · rintro ⟨u, hu, hmissed, hnone⟩
        rcases Nat.lt_succ_iff_lt_or_eq.mp hu with hlt | rfl
        · have hlow := hnone t hlt (Nat.lt_succ_self t)
          rw [hends] at hlow
          exact absurd hlow (by simp)
        · exact hmissed
      · intro hmissed
        exact ⟨t, Nat.lt_succ_self t, hmissed, fun v hv hvt => by omega⟩
  | false =>
      rw [if_neg (by simp)]
      constructor
      · rintro ⟨u, hu, hmissed, hnone⟩
        rcases Nat.lt_succ_iff_lt_or_eq.mp hu with hlt | rfl
        · exact ⟨u, hlt, hmissed, fun v hv hvt => hnone v hv (by omega)⟩
        · exact absurd (hmissed.ends.symm.trans hends) (by simp)
      · rintro ⟨u, hu, hmissed, hnone⟩
        refine ⟨u, by omega, hmissed, fun v hv hvt => ?_⟩
        rcases Nat.lt_succ_iff_lt_or_eq.mp hvt with hlt | rfl
        · exact hnone v hv hlt
        · exact hends

variable (r)

/-- The words of the packets that have ended do not pass the threshold, or by
one word if a packet was missed. -/
def Bounded (t : Nat) : Prop :=
  (¬ r.MissedBefore t ∧
      (r.state t).cnt.toNat ≤ P.threshold + r.pktWords t) ∨
    (r.MissedBefore t ∧
      (r.state t).cnt.toNat = P.threshold + r.pktWords t + 1)

/-- What the counter says in clock `t`. -/
structure Counted (t : Nat) : Prop where
  /-- Without the permission the threshold has not been passed. -/
  low : (r.state t).inTlastAllowed = false →
    (r.state t).cnt.toNat ≤ P.threshold
  bound : r.Bounded t

variable {r}

/-- The counter does not overflow. -/
theorem Counted.succ_lt {t : Nat} (h : r.Counted t)
    (hle : P.maxPktLen ≤ P.maxCombinedLen)
    (hpkt : r.pktWords t < P.maxPktLen) :
    (r.state t).cnt.toNat + 1 < 2 ^ P.cntWidth := by
  have hcnt : (r.state t).cnt.toNat ≤ P.maxCombinedLen := by
    have hsum : P.threshold + P.maxPktLen = P.maxCombinedLen :=
      Nat.sub_add_cancel hle
    rcases h.bound with ⟨_, hb⟩ | ⟨_, hb⟩ <;> omega
  exact succ_lt_two_pow_clog hcnt

/-- The registers after a clock that does not end the combined packet: the
permission is given as soon as the threshold is reached. -/
theorem state_succ_of_not_ended {t : Nat} (hnot : r.combinedEnds t = false)
    (hfit : (r.state t).cnt.toNat + 1 < 2 ^ P.cntWidth) :
    ((r.state (t + 1)).inTlastAllowed = false →
      (r.state t).cnt.toNat < P.threshold) ∧
    (r.state (t + 1)).cnt.toNat =
      (r.state t).cnt.toNat + if r.accepted t then 1 else 0 := by
  rw [state_succ, hnot, if_neg (by simp)]
  dsimp only
  constructor
  · intro hlow
    split_ifs at hlow with hreach
    rw [not_or] at hreach
    omega
  · cases r.accepted t with
    | true => exact toNat_succ_of_lt hfit
    | false => rfl

/-- The last word of a combined packet clears the counter. -/
theorem counted_of_combined {t : Nat} (hcomb : r.combinedEnds t = true) :
    r.Counted (t + 1) := by
  have hboth := r.combinedEnds_eq t
  rw [hcomb, eq_comm, Bool.and_eq_true] at hboth
  have hmissed := missedBefore_succ_iff (r := r) t
  rw [hboth.1, if_pos rfl] at hmissed
  have hnot : ¬ r.MissedBefore (t + 1) := fun hm =>
    absurd ((hmissed.mp hm).notAllowed.symm.trans hboth.2) (by simp)
  have hzero : (r.state (t + 1)).cnt.toNat = 0 := by
    rw [state_succ, hcomb]
    rfl
  exact ⟨fun _ => by omega, .inl ⟨hnot, by omega⟩⟩

/-- A clock in which no input packet ends. -/
theorem Counted.bound_of_quiet {t : Nat} (h : r.Counted t)
    (hquiet : r.packetEnds t = false)
    (hcnt : (r.state (t + 1)).cnt.toNat =
      (r.state t).cnt.toNat + if r.accepted t then 1 else 0) :
    r.Bounded (t + 1) := by
  have hmissed := missedBefore_succ_iff (r := r) t
  rw [hquiet, if_neg (by simp)] at hmissed
  have hwords : r.pktWords (t + 1) =
      r.pktWords t + if r.accepted t then 1 else 0 := by
    rw [pktWords_succ]
    cases hacc : r.accepted t with
    | false => rfl
    | true =>
        have hlast : (r.input t).inTlast = false := by
          rw [packetEnds, hacc, Bool.true_and] at hquiet
          exact hquiet
        rw [hlast]
        rfl
  rw [Bounded, hmissed, hwords, hcnt]
  rcases h.bound with ⟨hm, hb⟩ | ⟨hm, hb⟩
  · exact .inl ⟨hm, by omega⟩
  · exact .inr ⟨hm, by omega⟩

/-- A clock in which an input packet ends in the middle of the combined one. -/
theorem Counted.bound_of_end {t : Nat} (h : r.Counted t)
    (hend : r.packetEnds t = true)
    (hno : (r.state t).inTlastAllowed = false)
    (hcnt : (r.state (t + 1)).cnt.toNat =
      (r.state t).cnt.toNat + if r.accepted t then 1 else 0) :
    r.Bounded (t + 1) := by
  have hmissed := missedBefore_succ_iff (r := r) t
  rw [hend, if_pos rfl] at hmissed
  have hboth : r.accepted t = true ∧ (r.input t).inTlast = true := by
    rw [packetEnds, Bool.and_eq_true] at hend
    exact hend
  have hwords : r.pktWords (t + 1) = 0 := by
    rw [pktWords_succ, hboth.1, hboth.2]
    rfl
  rw [hboth.1, if_pos rfl] at hcnt
  rw [Bounded, hmissed, hwords, hcnt]
  have hle := h.low hno
  by_cases hreached : (r.state t).cnt.toNat = P.threshold
  · exact .inr ⟨⟨hend, hreached, hno⟩, by omega⟩
  · exact .inl ⟨fun hm => hreached hm.reached, by omega⟩

theorem Counted.next {t : Nat} (h : r.Counted t)
    (hle : P.maxPktLen ≤ P.maxCombinedLen)
    (hpkt : r.pktWords t < P.maxPktLen) :
    r.Counted (t + 1) := by
  cases hcomb : r.combinedEnds t with
  | true => exact counted_of_combined hcomb
  | false =>
      obtain ⟨hallowed, hcnt⟩ :=
        state_succ_of_not_ended hcomb (h.succ_lt hle hpkt)
      have hlow : (r.state (t + 1)).inTlastAllowed = false →
          (r.state (t + 1)).cnt.toNat ≤ P.threshold := by
        intro hno
        have hless := hallowed hno
        rw [hcnt]
        split_ifs <;> omega
      refine ⟨hlow, ?_⟩
      cases hends : r.packetEnds t with
      | false => exact h.bound_of_quiet hends hcnt
      | true =>
          have hno : (r.state t).inTlastAllowed = false := by
            rw [combinedEnds_eq, hends, Bool.true_and] at hcomb
            exact hcomb
          exact h.bound_of_end hends hno hcnt

theorem counted (h1 : 1 ≤ P.maxPktLen) (hle : P.maxPktLen ≤ P.maxCombinedLen)
    (hfit : r.PacketsFit) (t : Nat) :
    r.Counted t := by
  induction t with
  | zero =>
      refine ⟨fun _ => Nat.zero_le _, .inl ⟨?_, Nat.zero_le _⟩⟩
      rintro ⟨u, hu, _⟩
      omega
  | succ t ih => exact ih.next hle (pktWords_lt h1 hfit t)

/-- The counter counts the words of the combined packet that is collected. -/
theorem cnt_eq (h1 : 1 ≤ P.maxPktLen) (hle : P.maxPktLen ≤ P.maxCombinedLen)
    (hfit : r.PacketsFit) {a t : Nat} (h : r.Collects a t) :
    (r.state t).cnt.toNat = pulsesIn r.accepted a t := by
  obtain ⟨hat, hfirst, hmore⟩ := h
  induction t, hat using Nat.le_induction with
  | base =>
      rw [pulsesIn_self]
      rcases hfirst with rfl | ⟨u, rfl, hu⟩
      · rfl
      · rw [state_succ, hu]
        rfl
  | succ t hat ih =>
      have hcnt := ih fun u hau hut => hmore u hau (by omega)
      have hlow := hmore t hat (Nat.lt_succ_self t)
      rw [pulsesIn_succ _ hat, ← hcnt]
      exact (state_succ_of_not_ended hlow
        ((counted h1 hle hfit t).succ_lt hle (pktWords_lt h1 hfit t))).2

/-- **Combined packets are not too long**, except when a packet was missed at
the threshold and the one after it has maximal length; and only the last word
of an input packet can be the last one of a combined packet. -/
theorem combined_le_iff (h1 : 1 ≤ P.maxPktLen)
    (hle : P.maxPktLen ≤ P.maxCombinedLen) (hfit : r.PacketsFit) :
    (∀ t, r.tlastInt t = true →
      (r.input t).inTvalid = true ∧ (r.input t).inTlast = true) ∧
    ∀ a t, r.Collects a t → r.combinedEnds t = true →
      (pulsesIn r.accepted a (t + 1) ≤ P.maxCombinedLen ↔
        ¬ (r.MissedBefore t ∧ r.pktWords t + 1 = P.maxPktLen)) := by
  refine ⟨fun t ht => ?_, fun a t hcoll hend => ?_⟩
  · unfold tlastInt inTlastInt at ht
    rw [Bool.and_eq_true, Bool.and_eq_true] at ht
    exact ht.1
  · have hacc : r.accepted t = true := by
      rw [combinedEnds_eq, packetEnds, Bool.and_eq_true,
        Bool.and_eq_true] at hend
      exact hend.1.1
    have hsum : P.threshold + P.maxPktLen = P.maxCombinedLen :=
      Nat.sub_add_cancel hle
    have hpkt := pktWords_lt h1 hfit t
    rw [pulsesIn_succ _ hcoll.le, ← cnt_eq h1 hle hfit hcoll, hacc, if_pos rfl]
    rcases (counted h1 hle hfit t).bound with ⟨hm, hb⟩ | ⟨hm, hb⟩
    · exact ⟨fun _ h => hm h.1, fun _ => by omega⟩
    · constructor
      · rintro hlen ⟨_, hfull⟩
        omega
      · intro hnot
        have hshort : r.pktWords t + 1 ≠ P.maxPktLen := fun hfull =>
          hnot ⟨hm, hfull⟩
        omega

/-- Packets of one word, which may be combined in pairs. -/
def singleWords (inTvalid : Nat → Bool) : Run ⟨1, 2⟩ :=
  { input := fun t => ⟨false, true, inTvalid t, true⟩ }

theorem packetsFit_singleWords (inTvalid : Nat → Bool) :
    (singleWords inTvalid).PacketsFit := by
  intro t _ hlast
  exact absurd hlast (by simp [singleWords])

/-- A word in every second clock: the permission comes in time. -/
theorem combined_le_iff_singleWords :
    pulsesIn (singleWords fun t => decide (t % 2 = 0)).accepted 0 3 ≤ 2 := by
  have hcoll : (singleWords fun t => decide (t % 2 = 0)).Collects 0 2 :=
    ⟨by decide, .inl rfl, fun u _ hu => by interval_cases u <;> decide⟩
  refine ((combined_le_iff (by decide) (by decide)
    (packetsFit_singleWords _)).2 0 2 hcoll (by decide)).mpr ?_
  rintro ⟨⟨u, hu, hmissed, _⟩, _⟩
  have hends := hmissed.ends
  have hreached := hmissed.reached
  interval_cases u
  · exact absurd hreached (by decide)
  · exact absurd hends (by decide)

/-- A word in every clock: the pair that follows the first combined packet has
become a triple. -/
theorem not_combined_le_singleWords :
    (singleWords fun _ => true).PacketsFit ∧
      ¬ ∀ a t, (singleWords fun _ => true).Collects a t →
        (singleWords fun _ => true).combinedEnds t = true →
        pulsesIn (singleWords fun _ => true).accepted a (t + 1) ≤ 2 := by
  refine ⟨packetsFit_singleWords _, fun hall => ?_⟩
  have hcoll : (singleWords fun _ => true).Collects 3 5 :=
    ⟨by decide, .inr ⟨2, rfl, by decide⟩,
      fun u hu hlt => by interval_cases u <;> decide⟩
  exact absurd (hall 3 5 hcoll (by decide)) (by decide)

end Run

end PacketCombiner
end MollerFirmware
