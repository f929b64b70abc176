import MollerFirmware.Hdl.SyncSGen

/-!
# SyncSGen: from a write of SyncCode to the line

Without automatic requests only what is written is sent. `VSCode` takes a write
in two halves, and `SCvalid` looks at both at the next edge of `ClkCode`. The
start of a code clears the lower half and `SCvalid`, its end the upper half, so
that a write is sent once, and a write during the seven clocks of another code
can lose one of its halves.
-/

namespace MollerFirmware
namespace SyncSGen
namespace Run

open Clocked

variable (r : Run)

/-- A write of `SyncCode` in clock `t`. -/
def writes (t : Nat) : Bool :=
  (r.inp t).writes

/-- The lower half of what is written. -/
def written (t : Nat) : BitVec 4 :=
  (r.inp t).syncCode.extractLsb' 0 4

/-- The bits of `VSBitEn` that clear the registers, by the codes that were
taken. -/
theorem vsBitEn0_eq_syncValid (t : Nat) :
    (r.state t).vsBitEn0 = delayed 5 r.syncValid t := by
  have heq := congrFun r.vsBitEn0_eq t
  rw [startBit_eq, delayed_delayed] at heq
  exact heq

theorem vsBitEn5_eq_syncValid (t : Nat) :
    (r.state t).vsBitEn5 = delayed 6 r.syncValid t := by
  have heq := congrFun r.vsBitEn5_eq t
  rw [startBit_eq, delayed_delayed] at heq
  exact heq

theorem vsBitEn4_eq_syncValid (t : Nat) :
    (r.state t).vsBitEn4 = delayed 1 r.syncValid t :=
  congrFun r.startBit_eq t

/-! ## Nothing but writes -/

/-- No automatic requests. -/
def Manual : Prop :=
  ∀ t, (r.inp t).autoSyncEn = false

variable {r}

theorem Manual.sreqAuto (h : r.Manual) (t : Nat) :
    (r.state t).sreqAuto1 = false ∧ (r.state t).sreqAuto3 = false ∧
      (r.state t).sreqAuto5 = false ∧ (r.state t).sreqAuto6 = false ∧
      (r.state t).sreqAuto7 = false := by
  induction t with
  | zero =>
      exact ⟨rfl, rfl, rfl, rfl, rfl⟩
  | succ t ih =>
      obtain ⟨h1, h3, h5, h6, h7⟩ := ih
      simp [state_succ, step, Input.sreqAuto0, h t, h1, h3, h5, h6, h7]

theorem Manual.codeSent (h : r.Manual) (t : Nat) :
    (r.state t).codeSent = (r.state t).vsCodeLow := by
  rw [State.codeSent, (h.sreqAuto t).2.2.2.2, if_neg Bool.false_ne_true]

/-- What is sent was checked. -/
theorem Manual.scValid_of_syncValid (h : r.Manual) {s : Nat}
    (hs : r.syncValid s = true) :
    2 ≤ s ∧ (r.state (s - 2)).scValid = true := by
  rw [syncValid_eq, delayed_eq_true_iff] at hs
  have htaken := hs.2
  rw [taken_of_slot _ (r.mod_of_taken htaken), (h.sreqAuto _).2.2.2.1,
    Bool.false_or] at htaken
  exact ⟨hs.1, htaken⟩

/-- The write that `VSCode` holds, which has not been sent. -/
structure Holds (r : Run) (t w : Nat) : Prop where
  before : w < t
  writes : r.writes w = true
  low : (r.state t).vsCodeLow = r.written w
  last : ∀ u, w < u → u < t → r.writes u = false
  unsent : ∀ u, w ≤ u → u < t → r.syncValid u = false

/-- A code is held until it is sent. -/
theorem Holds.next {t w : Nat} (h : Holds r t w)
    (h4 : (r.state t).vsBitEn4 = false) (h6 : r.syncValid t = false) :
    ∃ w', Holds r (t + 1) w' := by
  have hlow : (r.state (t + 1)).vsCodeLow =
      if r.writes t then r.written t else (r.state t).vsCodeLow := by
    show unlessCleared (r.state t).vsBitEn4 (r.syncValid t) _ = _
    rw [h4, h6]
    rfl
  cases hw : r.writes t with
  | true =>
      refine ⟨t, by omega, hw, ?_, fun u hu hu' => ?_, fun u hu hu' => ?_⟩
      · rw [hlow, if_pos hw]
      · omega
      · obtain rfl : u = t := by omega
        exact h6
  | false =>
      refine ⟨w, Nat.lt_succ_of_lt h.before, h.writes, ?_, ?_, ?_⟩
      · rw [hlow, hw, if_neg Bool.false_ne_true, h.low]
      · intro u hu hu'
        rcases Nat.lt_succ_iff_lt_or_eq.mp hu' with hlt | rfl
        · exact h.last u hu hlt
        · exact hw
      · intro u hu hu'
        rcases Nat.lt_succ_iff_lt_or_eq.mp hu' with hlt | rfl
        · exact h.unsent u hu hlt
        · exact h6

/-- A write is held if no other code starts. -/
theorem holds_of_writes {t : Nat} (hw : r.writes t = true)
    (h4 : (r.state t).vsBitEn4 = false) (h6 : r.syncValid t = false) :
    Holds r (t + 1) t where
  before := by omega
  writes := hw
  low := by
    show unlessCleared (r.state t).vsBitEn4 (r.syncValid t)
      (if r.writes t then r.written t else _) = _
    rw [h4, h6, hw]
    rfl
  last := by
    intro u hu hu'
    omega
  unsent := by
    intro u hu hu'
    obtain rfl : u = t := by omega
    exact h6

/-- What is in `VSCode`, or was found valid, has been written since the last
code. -/
theorem exists_holds (t : Nat)
    (ht : (r.state t).scValid = true ∨ (r.state t).vsCodeLow ≠ 0) :
    ∃ w, Holds r t w := by
  induction t with
  | zero =>
      rcases ht with h | h
      · exact Bool.noConfusion h
      · exact absurd rfl h
  | succ t ih =>
      -- nothing is left after a clock in which a code starts
      have hclear : (r.state t).vsBitEn4 = false ∧ r.syncValid t = false := by
        rw [← Bool.or_eq_false_iff]
        by_contra hstart
        rw [Bool.not_eq_false] at hstart
        have hvalid : (r.state (t + 1)).scValid =
            (!((r.state t).vsBitEn4 || r.syncValid t) && _) := rfl
        have hlow : (r.state (t + 1)).vsCodeLow =
            unlessCleared (r.state t).vsBitEn4 (r.syncValid t) _ := rfl
        rw [hstart] at hvalid
        rw [unlessCleared, hstart] at hlow
        rcases ht with h | h
        · rw [hvalid] at h
          exact Bool.noConfusion h
        · exact h hlow
      obtain ⟨h4, h6⟩ := hclear
      cases hw : r.writes t with
      | true =>
          exact ⟨t, holds_of_writes hw h4 h6⟩
      | false =>
          suffices hbefore : (r.state t).scValid = true ∨
              (r.state t).vsCodeLow ≠ 0 by
            obtain ⟨w, hheld⟩ := ih hbefore
            exact hheld.next h4 h6
          rcases ht with h | h
          · have hvalid : (r.state (t + 1)).scValid =
                (!((r.state t).vsBitEn4 || r.syncValid t) &&
                  if (r.inp t).clkCode then (r.state t).codeChecked
                  else (r.state t).scValid) := rfl
            rw [hvalid, h4, h6, Bool.or_self, Bool.not_false, Bool.true_and] at h
            split at h
            · right
              intro hzero
              rw [State.codeChecked, hzero] at h
              simp at h
              exact h.2 h.1.2
            · exact Or.inl h
          · right
            intro hzero
            apply h
            show unlessCleared (r.state t).vsBitEn4 (r.syncValid t)
              (if r.writes t then _ else (r.state t).vsCodeLow) = 0
            rw [h4, h6, hw, hzero]
            rfl

/-- Every code that is sent is the one of the last write, and that write has
not been sent before. -/
theorem Manual.holds_of_syncValid (h : r.Manual) {s : Nat}
    (hs : r.syncValid s = true) :
    ∃ w, Holds r s w ∧ (r.state s).codeSent = r.written w := by
  obtain ⟨hle, hvalid⟩ := h.scValid_of_syncValid hs
  obtain ⟨u, rfl⟩ : ∃ u, s = u + 2 := ⟨s - 2, by omega⟩
  rw [Nat.add_sub_cancel] at hvalid
  -- no other code within 24 clocks
  have hquiet : ∀ v, v < u + 2 → u + 2 < v + 24 → r.syncValid v = false := by
    intro v hv hv'
    by_contra hother
    rw [Bool.not_eq_false] at hother
    have hdist := r.startBit_spaced (v + 1) (u + 2 + 1) (by omega) hother hs
    omega
  have hstart : ∀ v, v < u + 2 → u + 2 < v + 20 →
      (r.state v).vsBitEn4 = false := by
    intro v hv hv'
    cases v with
    | zero =>
        rfl
    | succ v =>
        exact hquiet v (by omega) (by omega)
  obtain ⟨w, hheld⟩ := exists_holds u (Or.inl hvalid)
  obtain ⟨w', hheld'⟩ := hheld.next (hstart u (by omega) (by omega))
    (hquiet u (by omega) (by omega))
  obtain ⟨w'', hheld''⟩ := hheld'.next (hstart (u + 1) (by omega) (by omega))
    (hquiet (u + 1) (by omega) (by omega))
  exact ⟨w'', hheld'', by rw [h.codeSent]; exact hheld''.low⟩

/-! ## Every write -/

/-- A write of a code that is sent: equal halves, neither 0 nor F. -/
structure WritesCode (r : Run) (w : Nat) (c : BitVec 4) : Prop where
  writes : r.writes w = true
  high : (r.inp w).syncCode.extractLsb' 4 4 = c
  low : r.written w = c
  ne_zero : c ≠ 0#4
  ne_ones : c ≠ 0b1111#4

/-- No code is under way: the clocks of `VSBitEn(6)` to `(5)`. -/
def Idle (r : Run) (w : Nat) : Prop :=
  ∀ u, u ≤ w → w ≤ u + 6 → r.syncValid u = false

theorem vsBitEn_low {t : Nat}
    (hquiet : ∀ u, u ≤ t → t ≤ u + 6 → r.syncValid u = false) :
    (r.state t).vsBitEn4 = false ∧ (r.state t).vsBitEn0 = false ∧
      (r.state t).vsBitEn5 = false := by
  have hlow : ∀ d, d ≤ 6 → delayed d r.syncValid t = false := by
    intro d hd
    by_contra hhigh
    rw [Bool.not_eq_false, delayed_eq_true_iff] at hhigh
    rw [hquiet (t - d) (by omega) (by omega)] at hhigh
    exact Bool.noConfusion hhigh.2
  rw [vsBitEn4_eq_syncValid, vsBitEn0_eq_syncValid, vsBitEn5_eq_syncValid]
  exact ⟨hlow 1 (by omega), hlow 5 (by omega), hlow 6 (by omega)⟩

/-- A code that is not sent stays in `VSCode`. -/
theorem WritesCode.kept {w e : Nat} {c : BitVec 4} (h : WritesCode r w c)
    (hlast : ∀ u, w < u → u < e → r.writes u = false)
    (hquiet : ∀ u, w ≤ u + 6 → u < e → r.syncValid u = false) {t : Nat}
    (hwt : w < t) (hte : t ≤ e) :
    (r.state t).vsCodeHigh = c ∧ (r.state t).vsCodeLow = c := by
  induction t with
  | zero =>
      omega
  | succ t ih =>
      obtain ⟨h4, h0, h5⟩ := vsBitEn_low (r := r) (t := t)
        fun u hu hu' => hquiet u (by omega) (by omega)
      have h6 : (r.state t).vsBitEn6 = false := hquiet t (by omega) (by omega)
      have hhigh : (r.state (t + 1)).vsCodeHigh =
          if r.writes t then (r.inp t).syncCode.extractLsb' 4 4
          else (r.state t).vsCodeHigh := by
        show unlessCleared (r.state t).vsBitEn5 (r.state t).vsBitEn0 _ = _
        rw [h5, h0]
        rfl
      have hlow : (r.state (t + 1)).vsCodeLow =
          if r.writes t then r.written t else (r.state t).vsCodeLow := by
        show unlessCleared (r.state t).vsBitEn4 (r.state t).vsBitEn6 _ = _
        rw [h4, h6]
        rfl
      rcases Nat.lt_succ_iff_lt_or_eq.mp hwt with hlt | rfl
      · rw [hhigh, hlow, hlast t hlt (by omega)]
        exact ih hlt (by omega)
      · rw [hhigh, hlow, h.writes, if_pos rfl, if_pos rfl]
        exact ⟨h.high, h.low⟩

/-- A code that is written while no other one is under way is sent, at the
latest 26 clocks after the next edge of `ClkCode`. -/
theorem WritesCode.sent {w e : Nat} {c : BitVec 4} (h : WritesCode r w c)
    (hidle : Idle r w) (hwe : w < e) (hclk : (r.inp e).clkCode = true)
    (hlast : ∀ u, w < u → u < e + 26 → r.writes u = false) :
    ∃ s, w < s ∧ s ≤ e + 26 ∧ r.syncValid s = true := by
  by_contra hnone
  have hquiet : ∀ u, w ≤ u + 6 → u ≤ e + 26 → r.syncValid u = false := by
    intro u hu hu'
    by_contra hsent
    rw [Bool.not_eq_false] at hsent
    rcases Nat.lt_or_ge w u with hlt | hle
    · exact hnone ⟨u, hlt, hu', hsent⟩
    · rw [hidle u hle hu] at hsent
      exact Bool.noConfusion hsent
  have hkept : ∀ t, w < t → t ≤ e + 26 →
      (r.state t).vsCodeHigh = c ∧ (r.state t).vsCodeLow = c :=
    fun t => h.kept (e := e + 26) hlast
      (fun u hu hu' => hquiet u hu (by omega))
  -- found valid at the edge, and from then on
  have hvalid : ∀ k, e + 1 + k ≤ e + 26 →
      (r.state (e + 1 + k)).scValid = true := by
    have hchecked : ∀ t, w < t → t ≤ e + 26 →
        (r.state t).codeChecked = true := by
      intro t hwt hte
      obtain ⟨hhigh, hlow⟩ := hkept t hwt hte
      rw [State.codeChecked, hhigh, hlow, bne_iff_ne.mpr h.ne_ones,
        bne_iff_ne.mpr h.ne_zero, beq_self_eq_true]
      rfl
    have hstep : ∀ t, w < t → t < e + 26 → (r.state (t + 1)).scValid =
        if (r.inp t).clkCode then true else (r.state t).scValid := by
      intro t hwt hte
      have h4 := (vsBitEn_low (r := r) (t := t)
        fun u hu hu' => hquiet u (by omega) (by omega)).1
      have h6 : (r.state t).vsBitEn6 = false :=
        hquiet t (by omega) (by omega)
      rw [state_succ]
      simp only [step, h4, h6, hchecked t hwt (by omega), Bool.or_self,
        Bool.not_false, Bool.true_and]
    intro k
    induction k with
    | zero =>
        intro _
        rw [Nat.add_zero, hstep e hwe (by omega), hclk, if_pos rfl]
    | succ k ih =>
        intro hk
        rw [← Nat.add_assoc, hstep _ (by omega) (by omega), ih (by omega),
          ite_self]
  -- the next slot
  have hphase := r.phase_lt
  obtain ⟨k, hk, hslot⟩ : ∃ k, k < 24 ∧
      (e + 1 + k) % 24 = r.phase + 12 :=
    ⟨(r.phase + 12 + 23 * (e + 1)) % 24, by omega, by omega⟩
  have htaken : r.taken (e + 1 + k) = true := by
    rw [r.taken_of_slot hslot, hvalid k (by omega), Bool.or_true]
  have hsent : r.syncValid (e + 1 + k + 2) = true := by
    rw [syncValid_eq, delayed_add, htaken]
  rw [hquiet (e + 1 + k + 2) (by omega) (by omega)] at hsent
  exact Bool.noConfusion hsent

/-- It is sent once, and as it was written. -/
theorem WritesCode.sent_once {w : Nat} {c : BitVec 4} (h : WritesCode r w c)
    (hmanual : r.Manual) {w' : Nat}
    (hlast : ∀ u, w < u → u < w' → r.writes u = false) {s : Nat}
    (hws : w < s) (hsw : s ≤ w') (hs : r.syncValid s = true) :
    (r.state s).codeSent = c ∧
      ∀ u, w < u → u ≤ w' → r.syncValid u = true → u = s := by
  have hown : ∀ u, w < u → u ≤ w' → r.syncValid u = true →
      Holds r u w ∧ (r.state u).codeSent = r.written w := by
    intro u hu hu' hvalid
    obtain ⟨v, hheld, hcode⟩ := hmanual.holds_of_syncValid hvalid
    rcases Nat.lt_trichotomy v w with hlt | rfl | hgt
    · have hnone := hheld.last w hlt hu
      rw [h.writes] at hnone
      exact Bool.noConfusion hnone
    · exact ⟨hheld, hcode⟩
    · have hnone := hlast v hgt (Nat.lt_of_lt_of_le hheld.before hu')
      rw [hheld.writes] at hnone
      exact Bool.noConfusion hnone
  refine ⟨(hown s hws hsw hs).2.trans h.low, fun u hu hu' hvalid => ?_⟩
  rcases Nat.lt_trichotomy u s with hlt | rfl | hgt
  · have hnone := (hown s hws hsw hs).1.unsent u (by omega) hlt
    rw [hvalid] at hnone
    exact Bool.noConfusion hnone
  · rfl
  · have hnone := (hown u hu hu' hvalid).1.unsent s (by omega) hgt
    rw [hs] at hnone
    exact Bool.noConfusion hnone

end Run
end SyncSGen
end MollerFirmware
