import MollerFirmware.Hdl.SyncDecode
import MollerFirmware.Hdl.SyncSGenWrites

/-!
# TCSsyncNode: the sync link in loopback

A master generates the sync codes with `SyncSGen` and receives its own line with
the loopback `SyncDecode`. A second receiver listens to the global line, which a
phase aligner outside of this module brings in. The resets of the two receivers
are combined under the enables of `SyncSrcEn`; the receiver of a subsystem is
tied to zero.
-/

namespace MollerFirmware
namespace TCSsyncNode

open Clocked

/-- The settings are constant, but for `SyncSrcEn`. -/
structure Node where
  srl : SigDelay.Srlc32e
  gen : SyncSGen.Run
  syncGenDly : BitVec 8
  syncDelay : BitVec 32
  masterMode : BitVec 3
  syncSrcEn : Nat → BitVec 8
  alignedSyncG : Nat → Bool

namespace Node

variable (n : Node)

def clkSlow (t : Nat) : Bool :=
  (n.gen.inp t).clkSlow

/-- `AlignedSyncL`; `MasterMode` has the bits 3 to 1. -/
def alignedSyncL : Nat → Bool :=
  SyncSGen.syncOut n.srl n.gen (fun _ => n.masterMode.getLsbD 2)
    n.alignedSyncG (fun _ => n.syncGenDly)

/-- `SyncDelay(23 downto 16)` -/
def loopbackDelay : BitVec 8 :=
  n.syncDelay.extractLsb' 16 8

/-- `SyncDelay(15 downto 8)` -/
def globalDelay : BitVec 8 :=
  n.syncDelay.extractLsb' 8 8

/-- `ValidGenCode` -/
def validGenCode : Nat → Bool :=
  n.gen.syncValid

/-- `ValidLCode` -/
def validLCode : Nat → Bool :=
  SyncDecode.validCode n.srl n.clkSlow (fun _ => n.loopbackDelay)
    n.alignedSyncL

/-- Clocks in which the loopback receiver has the code `c`. -/
def received : BitVec 4 → Nat → Bool :=
  SyncDecode.valid n.srl n.clkSlow (fun _ => n.loopbackDelay) n.alignedSyncL

/-- `LSyncRst` -/
def lSyncRst : BitVec 4 → Nat → Bool :=
  SyncDecode.syncRst n.srl n.clkSlow (fun _ => n.loopbackDelay) n.alignedSyncL

/-- `PulseRstL` -/
def pulseRstL : Nat → Bool :=
  SyncDecode.reset n.srl n.clkSlow (fun _ => n.loopbackDelay) n.alignedSyncL

/-- `TSRdStart` -/
def tsRdStart : Nat → Bool :=
  SyncDecode.readStart n.srl n.clkSlow (fun _ => n.loopbackDelay)
    n.alignedSyncL

/-- `TSWrStart` -/
def tsWrStart : Nat → Bool :=
  SyncDecode.writeStart n.srl n.clkSlow (fun _ => n.loopbackDelay)
    n.alignedSyncL

/-- `GSyncRst` -/
def gSyncRst : BitVec 4 → Nat → Bool :=
  SyncDecode.syncRst n.srl n.clkSlow (fun _ => n.globalDelay) n.alignedSyncG

/-- `SReset`, of which `(0)` and `(15)` are tied to zero. -/
def sReset (c : BitVec 4) : Nat → Bool
  | 0 => false
  | t + 1 =>
      c != 0 && c != 15 &&
        (n.gSyncRst c t && (n.syncSrcEn t).getLsbD 1 ||
          n.lSyncRst c t && (n.syncSrcEn t).getLsbD 4)

/-- Clocks in which the generator takes the code `c`. -/
def sent (c : BitVec 4) (s : Nat) : Bool :=
  n.validGenCode s && (n.gen.state s).codeSent == c

/-- Clocks from `SyncValid` to `ValidCode`. -/
def loopbackClocks : Nat :=
  n.syncGenDly.toNat + n.loopbackDelay.toNat + 15

/-- A master with a write of code 5 in the first clock. -/
def oneWrite : Node where
  srl :=
    { q := fun a d t => delayed ((a t).toNat + 1) d t
      q31 := fun d => delayed 32 d
      q_eq := fun _ _ _ => rfl
      q31_eq := fun _ => rfl }
  gen :=
    { inp := fun t =>
        { clkSlow := decide (t % 4 = 0)
          clkCode := true
          syncCode := 0x55
          syncCodeEn := decide (t = 0)
          tiBusy := 0
          sRespTI := 0
          sReqSet := false
          busySrcEn := 0
          reset := false
          autoSyncEn := false }
      phase := 0
      phase_lt := by decide
      clkSlow := fun _ => rfl }
  syncGenDly := 0
  syncDelay := 0
  masterMode := 0
  syncSrcEn := fun _ => 0x10
  alignedSyncG := fun _ => true

theorem oneWrite_sent : oneWrite.sent 5 14 = true := by
  decide

/-! ## The line -/

theorem sigDelayed_eq (hmode : n.masterMode.getLsbD 2 = false) :
    SigDelay.sigOut n.srl (fun _ => n.loopbackDelay) n.alignedSyncL =
      delayed (n.syncGenDly.toNat + n.loopbackDelay.toNat + 5) n.gen.line := by
  rw [SigDelay.sigOut_eq, alignedSyncL, hmode, SyncSGen.syncOut_eq,
    delayed_delayed]
  congr 1
  omega

theorem frame_eq_sent (c : BitVec 4) :
    (fun s => n.gen.startBit s && n.gen.frameCode s == c) =
      delayed 1 (n.sent c) := by
  funext s
  cases s with
  | zero =>
      rfl
  | succ s =>
      rw [delayed_add, sent, validGenCode]
      show (n.gen.syncValid s && _) = _
      cases hs : n.gen.syncValid s with
      | false =>
          rfl
      | true =>
          rw [n.gen.frameCode_eq hs]

theorem startBit_first {s : Nat} (hs : n.gen.startBit s = true) :
    4 ≤ s := by
  have hlate := n.gen.startBit_late hs
  omega

theorem startBit_spaced :
    Spaced 9 n.gen.startBit :=
  n.gen.startBit_spaced.mono (by omega)

/-- The receiver finds the codes of the generator. -/
theorem received_eq (hmode : n.masterMode.getLsbD 2 = false) (c : BitVec 4) :
    n.received c = delayed n.loopbackClocks (n.sent c) := by
  rw [received, SyncDecode.valid_eq n.gen.frames n.startBit_spaced
    (fun _ => n.startBit_first) (n.sigDelayed_eq hmode), frame_eq_sent,
    delayed_delayed]
  rfl

theorem validLCode_eq (hmode : n.masterMode.getLsbD 2 = false) :
    n.validLCode = delayed n.loopbackClocks n.validGenCode := by
  rw [validLCode, SyncDecode.validCode_eq n.gen.frames n.startBit_spaced
    (fun _ => n.startBit_first) (n.sigDelayed_eq hmode),
    SyncSGen.Run.startBit_eq, delayed_delayed]
  rfl

theorem lSyncRst_eq (hmode : n.masterMode.getLsbD 2 = false) {c : BitVec 4}
    (hc : c ∈ SyncDecode.resetCodes) :
    n.lSyncRst c = delayed (n.loopbackClocks + 1) (n.sent c) := by
  rw [lSyncRst, SyncDecode.syncRst_eq hc, Nat.add_comm, ← delayed_delayed,
    ← n.received_eq hmode]
  rfl

theorem pulseRstL_eq (hmode : n.masterMode.getLsbD 2 = false) :
    n.pulseRstL = delayed (n.loopbackClocks + 1) (n.sent 13) := by
  rw [pulseRstL, SyncDecode.reset_eq, Nat.add_comm, ← delayed_delayed,
    ← n.received_eq hmode]
  rfl

/-- With `MasterMode(3)` low the loopback receiver finds every code that the
generator sends, once, as it is and after a fixed time, and no other. The resets
of the node follow. -/
theorem loopback_exact (hmode : n.masterMode.getLsbD 2 = false) :
    n.validLCode = delayed n.loopbackClocks n.validGenCode ∧
      (∀ c, n.received c = delayed n.loopbackClocks (n.sent c)) ∧
      n.pulseRstL = delayed (n.loopbackClocks + 1) (n.sent 13) ∧
      ∀ c, c ∈ SyncDecode.resetCodes → ∀ t, n.sReset c (t + 1) =
        (n.gSyncRst c t && (n.syncSrcEn t).getLsbD 1 ||
          delayed (n.loopbackClocks + 1) (n.sent c) t &&
            (n.syncSrcEn t).getLsbD 4) := by
  refine ⟨n.validLCode_eq hmode, n.received_eq hmode, n.pulseRstL_eq hmode,
    fun c hc t => ?_⟩
  have hne : ∀ a, a ∈ SyncDecode.resetCodes → (a != 0 && a != 15) = true := by
    decide
  rw [sReset, hne c hc, Bool.true_and, n.lSyncRst_eq hmode hc]

theorem loopback_exact_oneWrite :
    oneWrite.validLCode 29 = oneWrite.validGenCode 14 ∧
      oneWrite.received 5 29 = true := by
  obtain ⟨hvalid, hreceived, -⟩ := loopback_exact oneWrite rfl
  rw [hvalid, hreceived]
  exact ⟨rfl, oneWrite_sent⟩

/-! ## The starts of reading and writing -/

theorem divided_clkSlow :
    Divided 4 n.gen.phase n.clkSlow where
  early := by
    intro t ht
    have hphase := n.gen.phase_lt
    rw [clkSlow, n.gen.clkSlow, decide_eq_false_iff_not]
    omega
  edge := by
    intro k
    have hphase := n.gen.phase_lt
    rw [clkSlow, n.gen.clkSlow, decide_eq_true_eq]
    omega
  between := by
    intro k j hpos hj
    have hphase := n.gen.phase_lt
    rw [clkSlow, n.gen.clkSlow, decide_eq_false_iff_not]
    omega

theorem sent_spaced (c : BitVec 4) :
    Spaced 9 (n.sent c) := by
  intro t u htu ht hu
  rw [sent, Bool.and_eq_true] at ht hu
  have hdist := n.startBit_spaced (t + 1) (u + 1) (by omega) ht.1 hu.1
  omega

theorem received_spaced (hmode : n.masterMode.getLsbD 2 = false)
    (c : BitVec 4) :
    Spaced (2 * 4 + 1) (n.received c) := by
  rw [n.received_eq hmode]
  intro t u htu ht hu
  rw [delayed_eq_true_iff] at ht hu
  have hdist := n.sent_spaced c _ _ (by omega) ht.2 hu.2
  omega

theorem received_late (hmode : n.masterMode.getLsbD 2 = false) (c : BitVec 4)
    {t : Nat} (ht : n.received c t = true) :
    n.gen.phase ≤ t := by
  have hphase := n.gen.phase_lt
  rw [n.received_eq hmode, delayed_eq_true_iff, loopbackClocks] at ht
  omega

/-- With `MasterMode(3)` low a code 5 of the generator starts the reading, and a
code 7 the writing, for one clock of `ClkSlow`, in the second period after the
one in which it is received; nothing else does. -/
theorem starts_exact (hmode : n.masterMode.getLsbD 2 = false) (k : Nat) :
    (n.tsRdStart (n.gen.phase + 4 * (k + 2)) = true ↔
        EventIn 4 n.gen.phase (delayed n.loopbackClocks (n.sent 5)) k) ∧
      (n.tsWrStart (n.gen.phase + 4 * (k + 2)) = true ↔
        EventIn 4 n.gen.phase (delayed n.loopbackClocks (n.sent 7)) k) := by
  rw [← n.received_eq hmode, ← n.received_eq hmode]
  constructor
  · exact (SyncDecode.readStart_crossing _ _ _ _).out_iff n.divided_clkSlow
      (by omega) (n.received_spaced hmode 5)
      (fun _ => n.received_late hmode 5) k
  · exact (SyncDecode.writeStart_crossing _ _ _ _).out_iff n.divided_clkSlow
      (by omega) (n.received_spaced hmode 7)
      (fun _ => n.received_late hmode 7) k

theorem starts_exact_oneWrite :
    oneWrite.tsRdStart 36 = true :=
  (starts_exact oneWrite rfl 7).1.mpr ⟨1, by decide, oneWrite_sent⟩

/-! ## From a write to the receiver -/

/-- With `MasterMode(3)` low and without automatic requests a received word is
the last code that was written when it was sent, and that write was not received
before. -/
theorem received_was_written (hmode : n.masterMode.getLsbD 2 = false)
    (hmanual : n.gen.Manual) {t : Nat} (ht : n.validLCode t = true) :
    ∃ w s, w < s ∧ t = s + n.loopbackClocks ∧ n.gen.writes w = true ∧
      n.received (n.gen.written w) t = true ∧
      (∀ u, w < u → u < s → n.gen.writes u = false) ∧
      ∀ u, w + n.loopbackClocks ≤ u → u < t → n.validLCode u = false := by
  rw [n.validLCode_eq hmode, delayed_eq_true_iff] at ht
  obtain ⟨hle, hs⟩ := ht
  obtain ⟨s, rfl⟩ : ∃ s, t = s + n.loopbackClocks :=
    ⟨t - n.loopbackClocks, by omega⟩
  rw [Nat.add_sub_cancel] at hs
  obtain ⟨w, hheld, hcode⟩ := hmanual.holds_of_syncValid hs
  refine ⟨w, s, hheld.before, rfl, hheld.writes, ?_, hheld.last, ?_⟩
  · rw [n.received_eq hmode, delayed_add, sent, hs, hcode, beq_self_eq_true]
    rfl
  · intro u hu hu'
    rw [n.validLCode_eq hmode]
    obtain ⟨v, rfl⟩ : ∃ v, u = v + n.loopbackClocks :=
      ⟨u - n.loopbackClocks, by omega⟩
    rw [delayed_add]
    exact hheld.unsent v (by omega) (by omega)

theorem received_was_written_oneWrite :
    ∃ w s, w < s ∧ 29 = s + oneWrite.loopbackClocks ∧
      oneWrite.gen.writes w = true := by
  have hvalid : oneWrite.validLCode 29 = true := by
    rw [oneWrite.validLCode_eq rfl]
    decide
  obtain ⟨w, s, hws, ht, hw, -⟩ :=
    received_was_written oneWrite rfl (fun _ => rfl) hvalid
  exact ⟨w, s, hws, ht, hw⟩

/-- With `MasterMode(3)` low and without automatic requests a code that is
written while no other one is under way, and not written over, is received
exactly once, at the latest 26 clocks and the time on the line after the next
edge of `ClkCode`. -/
theorem written_is_received (hmode : n.masterMode.getLsbD 2 = false)
    (hmanual : n.gen.Manual) {w e : Nat} {c : BitVec 4}
    (hwrite : n.gen.WritesCode w c) (hidle : n.gen.Idle w) (hwe : w < e)
    (hclk : (n.gen.inp e).clkCode = true)
    (hlast : ∀ u, w < u → u < e + 26 → n.gen.writes u = false) :
    ∃ t, w + n.loopbackClocks < t ∧ t ≤ e + 26 + n.loopbackClocks ∧
      ∀ u, w + n.loopbackClocks < u → u ≤ e + 26 + n.loopbackClocks →
        ∀ a, n.received a u = true ↔ u = t ∧ a = c := by
  obtain ⟨s, hws, hse, hs⟩ := hwrite.sent hidle hwe hclk hlast
  obtain ⟨hcode, honce⟩ := hwrite.sent_once hmanual hlast hws hse hs
  refine ⟨s + n.loopbackClocks, by omega, by omega, fun u hu hu' a => ?_⟩
  obtain ⟨v, rfl⟩ : ∃ v, u = v + n.loopbackClocks :=
    ⟨u - n.loopbackClocks, by omega⟩
  rw [n.received_eq hmode, delayed_add, sent, Bool.and_eq_true, beq_iff_eq]
  constructor
  · rintro ⟨hvalid, rfl⟩
    obtain rfl := honce v (by omega) (by omega) hvalid
    exact ⟨rfl, hcode⟩
  · rintro ⟨hv, rfl⟩
    obtain rfl : v = s := by omega
    exact ⟨hs, hcode⟩

theorem written_is_received_oneWrite :
    ∃ t, 15 < t ∧ t ≤ 42 ∧ oneWrite.received 5 t = true := by
  have hwrite : oneWrite.gen.WritesCode 0 5 :=
    ⟨by decide, by decide, by decide, by decide, by decide⟩
  have hidle : oneWrite.gen.Idle 0 := by
    intro u hu _
    obtain rfl : u = 0 := by omega
    rfl
  obtain ⟨t, hlow, hhigh, hiff⟩ :=
    written_is_received oneWrite rfl (fun _ => rfl) hwrite hidle
      (e := 1) (by omega) rfl fun u hu _ => decide_eq_false (by omega)
  exact ⟨t, hlow, hhigh, (hiff t hlow hhigh 5).mpr ⟨rfl, rfl⟩⟩

end Node

end TCSsyncNode
end MollerFirmware
