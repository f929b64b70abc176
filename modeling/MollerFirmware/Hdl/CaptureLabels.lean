import MollerFirmware.Hdl.CaptureWindow

/-!
# Region labels of the packets

The field `cap_region` of a packet is no register of the integrator but a wire
from `region_cnt`, read two clocks after the last sample of the region. Inside
a cycle the counter rests in these clocks, since samples are far apart. After
the last region it rests only if no trigger comes in the clock behind
`all_end`: a trigger clears it, and the packet is labelled 0.
-/

namespace MollerFirmware
namespace CaptureSystem
namespace Run

open Clocked SubsystemCapture

variable {r : Run}

/-- A packet is captured: the packetizer is idle when `cap_reg` is high. -/
def emits (r : Run) (t : Nat) : Bool :=
  r.capReg t && (r.cap t).packetizer.readyForCapture

/-- The field `cap_region` of the packet that is captured in clock `t`. -/
def label (r : Run) (t : Nat) : BitVec 4 :=
  (packetWord (r.cap t) (r.capIn t) 1).extractLsb' 60 4

/-- The labels of the packets captured before clock `t`, in order. -/
def labels (r : Run) (t : Nat) : List Nat :=
  eventsBefore (fun u => if r.emits u then [(r.label u).toNat] else []) t

/-- `trig || tmp_trig` -/
def isTriggered (r : Run) (t : Nat) : Bool :=
  (r.ctrlIn t).trig || CaptureControl.tmpTrig (r.ctrl t) (r.ctrlIn t)

theorem labels_succ (t : Nat) :
    r.labels (t + 1) =
      r.labels t ++ if r.emits t then [(r.label t).toNat] else [] := by
  rfl

/-- The label is the region counter of the same clock. -/
theorem label_eq (t : Nat) :
    (r.label t).toNat = (r.ctrl t).regionCnt.toNat % 16 := by
  have hlabel : r.label t = (r.ctrl t).regionCnt.setWidth 4 := by
    unfold label
    change (CaptureControl.capRegion (r.ctrl t) ++
      (r.cap t).pktCounter.setWidth 60).extractLsb' 60 4 = _
    exact BitVec.extractLsb'_append_eq_left
  rw [hlabel, BitVec.toNat_setWidth]

theorem regions_lt (r : Run) : r.config.regions < 16 :=
  r.config.capRegions.isLt

/-- The packetizer is idle at every capture of the cycle `[a, b]`. -/
def IdleAtCaptures (r : Run) (a b : Nat) : Prop :=
  ∀ t, a < t → t < b + 3 → r.capReg t = true →
    (r.cap t).packetizer.readyForCapture = true

theorem labels_capture {a b t : Nat} (hidle : IdleAtCaptures r a b)
    (hat : a < t) (htb : t < b + 3) (hcap : r.capReg t = true) :
    r.labels (t + 1) = r.labels t ++ [(r.label t).toNat] := by
  have hemits : r.emits t = true := by
    unfold emits
    rw [hcap, hidle t hat htb hcap]
    rfl
  rw [labels_succ, hemits, if_pos rfl]

theorem labels_quiet {t : Nat} (hcap : r.capReg t = false) :
    r.labels (t + 1) = r.labels t := by
  rw [labels_succ]
  simp [emits, hcap]

/-- Inside a cycle the packet of a region is labelled by the number of regions
that have ended. -/
theorem label_inside (h : Usable r.config) (hs : Spaced 8 r.valid)
    {t : Nat} (hact : r.active t = true) (hre : r.regionEnd t = true)
    (hend : r.allEnd t = false) :
    (r.label (t + 2)).toNat = (r.ctrl t).regionCnt.toNat + 1 := by
  have hv := ((regionEnd_iff t).mp hre).1
  have hlow : r.valid (t + 1) = false :=
    hs.low_after hv (by decide) (by decide)
  have hnext := after_regionEnd h hact hre hend
  have hact' := active_after_sample h hact hend
  have hhold : (r.ctrl (t + 2)).regionCnt = (r.ctrl (t + 1)).regionCnt := by
    rw [ctrl_succ]
    exact (CaptureControl.step_hold hact' hlow).2.1
  have hregions := regions_lt r
  have hroom := (cycleInv h (t + 1)).region hact'
  rw [label_eq, hhold, hnext.1]
  rw [hnext.1] at hroom
  omega

/-- The packet of the last region has its label only if nothing triggers behind
the end of the cycle. -/
theorem label_last (h : Usable r.config)
    {t : Nat} (hact : r.active t = true) (hend : r.allEnd t = true) :
    (r.label (t + 2)).toNat =
      if r.isTriggered (t + 1) then 0 else r.config.regions := by
  obtain ⟨hre, hregion⟩ := (allEnd_iff h t).mp hend
  have hact' : CaptureControl.cycleActive r.config (r.ctrl t) = true := hact
  have hre' : CaptureControl.regionEnd r.config (r.ctrl t) (r.ctrlIn t) =
      true := hre
  have hregions := regions_lt r
  have hcount : (r.ctrl (t + 1)).regionCnt.toNat = r.config.regions := by
    rw [ctrl_succ]
    simp only [CaptureControl.step, hact', hre', if_true]
    rw [CaptureControl.toNat_succ (by omega), hregion]
  have hidle : CaptureControl.cycleActive r.config (r.ctrl (t + 1)) = false :=
    inactive_of_cycleCnt_zero (cycleCnt_after_allEnd hact hend)
  rw [label_eq, ctrl_succ]
  cases htrig : r.isTriggered (t + 1) with
  | true =>
      have htrig' : ((r.ctrlIn (t + 1)).trig ||
          CaptureControl.tmpTrig (r.ctrl (t + 1)) (r.ctrlIn (t + 1))) =
        true := htrig
      simp [CaptureControl.step, hidle, htrig']
  | false =>
      have htrig' : ((r.ctrlIn (t + 1)).trig ||
          CaptureControl.tmpTrig (r.ctrl (t + 1)) (r.ctrlIn (t + 1))) =
        false := htrig
      simp only [CaptureControl.step, hidle, htrig', Bool.false_eq_true,
        if_false]
      omega

/-- The labels of the regions that have ended so far. -/
theorem labels_so_far (h : Usable r.config) (hs : Spaced 8 r.valid)
    {a b : Nat} (hp : Period r.active a b) (hidle : IdleAtCaptures r a b)
    {t : Nat} (hat : a ≤ t) (htb : t ≤ b) :
    r.labels (t + 2) =
      r.labels (a + 1) ++ List.range' 1 (r.ctrl t).regionCnt.toNat := by
  refine hp.induction (motive := fun t => r.labels (t + 2) =
    r.labels (a + 1) ++ List.range' 1 (r.ctrl t).regionCnt.toNat) ?_ ?_ hat htb
  · obtain ⟨u, rfl, hinactive, _, _, hregion, _⟩ := period_start h hp
    have hquiet : r.capReg (u + 2) = false := by
      rw [capReg_succ, captured_succ h, hinactive]
      rfl
    rw [labels_quiet hquiet, hregion]
    simp
  · intro t hat htb hact _ ih
    have hcap : r.capReg (t + 2) = r.regionEnd t := by
      rw [capReg_succ, captured_succ h, hact, Bool.true_and]
    cases hre : r.regionEnd t with
    | true =>
        have hend := allEnd_inside_period hp hat htb
        rw [labels_capture hidle (by omega) (by omega) (hcap.trans hre), ih,
          label_inside h hs hact hre hend,
          (after_regionEnd h hact hre hend).1, List.range'_1_concat,
          List.append_assoc, Nat.add_comm 1]
    | false =>
        rw [labels_quiet (hcap.trans hre), ih,
          (after_noRegionEnd h hact hre).1]

/-- **The labels of a cycle** are the numbers of its regions in order exactly
when no trigger comes in the clock behind its end. -/
theorem labels_complete_iff (h : Usable r.config) (hs : Spaced 8 r.valid)
    {a b : Nat} (hp : Period r.active a b) (hidle : IdleAtCaptures r a b) :
    r.labels (b + 3) = r.labels (a + 1) ++ List.range' 1 r.config.regions ↔
      r.isTriggered (b + 1) = false := by
  have hact := hp.high b hp.le (le_refl b)
  have hend := allEnd_of_period h hp
  have hregion := ((allEnd_iff h b).mp hend).2
  have hle := hp.le
  have hlast : r.labels (b + 3) =
      r.labels (a + 1) ++ (List.range' 1 (r.ctrl b).regionCnt.toNat ++
        [if r.isTriggered (b + 1) then 0 else r.config.regions]) := by
    rw [labels_capture hidle (by omega) (by omega) (capReg_last h hp),
      labels_so_far h hs hp hidle hle (le_refl b), label_last h hact hend,
      List.append_assoc]
  rw [hlast, ← hregion, List.range'_1_concat, List.append_cancel_left_eq,
    List.append_cancel_left_eq, List.singleton_inj]
  have hpos := h.regions
  cases r.isTriggered (b + 1) with
  | true => simp; omega
  | false => simp; omega

theorem oneRegion_usable : Usable oneRegion :=
  ⟨by decide, by decide, by decide, by decide⟩

/-- No trigger comes behind the end of the cycle. -/
theorem labels_complete_oneRegion :
    (sampledRun oneRegion).labels 20 =
      (sampledRun oneRegion).labels 3 ++ List.range' 1 oneRegion.regions := by
  have hp : Period (sampledRun oneRegion).active 2 17 := by
    refine ⟨by decide, by decide +kernel, fun t ht => ?_, by decide +kernel⟩
    obtain rfl : t = 1 := by omega
    decide +kernel
  have hidle : IdleAtCaptures (sampledRun oneRegion) 2 17 := by
    have hready : ∀ t < 20, (sampledRun oneRegion).capReg t = true →
        ((sampledRun oneRegion).cap t).packetizer.readyForCapture = true := by
      decide +kernel
    exact fun t _ => hready t
  exact (labels_complete_iff oneRegion_usable (sampledRun_sampled _ 0).spaced
    hp hidle).mpr (by decide +kernel)

/-- A further trigger in clock 18, behind the end of the cycle. -/
def retriggeredRun : Run :=
  { sampledRun oneRegion with
    input := fun t =>
      { triggered everyEighth t with
        trig := decide (t = 0) || decide (t = 18) } }

/-- The only packet of that cycle is labelled 0. -/
theorem label_lost_retriggered :
    Usable oneRegion ∧ Spaced 8 retriggeredRun.valid ∧
      Period retriggeredRun.active 2 17 ∧
      IdleAtCaptures retriggeredRun 2 17 ∧
      retriggeredRun.labels 20 ≠
        retriggeredRun.labels 3 ++ List.range' 1 oneRegion.regions := by
  refine ⟨oneRegion_usable, (sampledRun_sampled oneRegion 0).spaced,
    ⟨by decide, by decide +kernel, fun t ht => ?_, by decide +kernel⟩, ?_,
    by decide +kernel⟩
  · obtain rfl : t = 1 := by omega
    decide +kernel
  · have hready : ∀ t < 20, retriggeredRun.capReg t = true →
        (retriggeredRun.cap t).packetizer.readyForCapture = true := by
      decide +kernel
    exact fun t _ => hready t

end Run
end CaptureSystem
end MollerFirmware
