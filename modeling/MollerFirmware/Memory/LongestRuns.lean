import Mathlib.Tactic

/-!
# Longest runs of a sequence

A run of a property is a stretch of places that have it and that cannot be made
longer. Going through a sequence from the left, a run is closed by the first
place without the property; the run that is still open at the end is the tail.
`Best` is the first among the longest of some runs, and length zero if there are
none; it can be kept up to date with one comparison for every run that is closed
(`Best.insert`).
-/

namespace MollerFirmware
namespace Memory

variable {good : Nat → Prop}

/-- All places from `s` on are good, `l` of them, and the one before is not. -/
structure Stretch (good : Nat → Prop) (s l : Nat) : Prop where
  pos : 0 < l
  inside : ∀ i, s ≤ i → i < s + l → good i
  left : ∀ i, i + 1 = s → ¬ good i

/-- A run among the first `n` places. -/
structure IsRun (good : Nat → Prop) (n s l : Nat) : Prop extends
    Stretch good s l where
  le : s + l ≤ n
  right : s + l < n → ¬ good (s + l)

/-- A run that ends before the place `n`. -/
structure IsClosed (good : Nat → Prop) (n s l : Nat) : Prop extends
    Stretch good s l where
  lt : s + l < n
  right : ¬ good (s + l)

/-- The last `k` of the first `n` places are good, and the one before them is
not. -/
structure TailLength (good : Nat → Prop) (n k : Nat) : Prop where
  le : k ≤ n
  inside : ∀ i, n ≤ i + k → i < n → good i
  left : ∀ i, i + k + 1 = n → ¬ good i

theorem TailLength.zero : TailLength good 0 0 :=
  ⟨le_refl 0, fun _ _ hi => absurd hi (by omega),
    fun _ hi => absurd hi (by omega)⟩

/-- A good place makes the tail longer. -/
theorem TailLength.succ {n k : Nat} (h : TailLength good n k) (hn : good n) :
    TailLength good (n + 1) (k + 1) := by
  refine ⟨by have := h.le; omega, fun i hi hin => ?_,
    fun i hi => h.left i (by omega)⟩
  rcases Nat.lt_succ_iff_lt_or_eq.mp hin with hlt | rfl
  · exact h.inside i (by omega) hlt
  · exact hn

/-- Behind any other place it begins anew. -/
theorem TailLength.reset {n : Nat} (hn : ¬ good n) :
    TailLength good (n + 1) 0 := by
  refine ⟨Nat.zero_le _, fun i hi hin => absurd hin (by omega), fun i hi => ?_⟩
  rw [show i = n by omega]
  exact hn

/-- The tail is a stretch, if it is not empty. -/
theorem TailLength.stretch {n k : Nat} (h : TailLength good n k)
    (hk : 0 < k) :
    Stretch good (n - k) k := by
  have hle := h.le
  exact ⟨hk, fun i hi hik => h.inside i (by omega) (by omega),
    fun i hi => h.left i (by omega)⟩

/-- It is the only stretch that ends at the place `n`. -/
theorem TailLength.unique {n k s l : Nat} (h : TailLength good n k)
    (hs : Stretch good s l) (hn : s + l = n) :
    l = k ∧ s = n - k := by
  have hle := h.le
  have hpos := hs.pos
  have hlk : l ≤ k := by
    by_contra hmore
    exact h.left (n - k - 1) (by omega)
      (hs.inside (n - k - 1) (by omega) (by omega))
  have hkl : k ≤ l := by
    by_contra hmore
    exact hs.left (s - 1) (by omega) (h.inside (s - 1) (by omega) (by omega))
  omega

/-- A place that is not good closes the tail. -/
theorem isClosed_succ_of_not {n k : Nat} (h : TailLength good n k)
    (hn : ¬ good n) (s l : Nat) :
    IsClosed good (n + 1) s l ↔
      IsClosed good n s l ∨ (0 < k ∧ s = n - k ∧ l = k) := by
  constructor
  · intro hc
    rcases Nat.lt_succ_iff_lt_or_eq.mp hc.lt with hlt | heq
    · exact .inl ⟨hc.toStretch, hlt, hc.right⟩
    · obtain ⟨hl, hs⟩ := h.unique hc.toStretch heq
      exact .inr ⟨hl ▸ hc.pos, hs, hl⟩
  · rintro (hc | ⟨hk, rfl, rfl⟩)
    · exact ⟨hc.toStretch, Nat.lt_succ_of_lt hc.lt, hc.right⟩
    · have hle := h.le
      refine ⟨h.stretch hk, by omega, ?_⟩
      rw [Nat.sub_add_cancel hle]
      exact hn

/-- A good place closes nothing. -/
theorem isClosed_succ_of_good {n : Nat} (hn : good n) (s l : Nat) :
    IsClosed good (n + 1) s l ↔ IsClosed good n s l := by
  constructor
  · intro hc
    refine ⟨hc.toStretch, ?_, hc.right⟩
    rcases Nat.lt_succ_iff_lt_or_eq.mp hc.lt with hlt | heq
    · exact hlt
    · exact absurd (heq ▸ hn) hc.right
  · exact fun hc => ⟨hc.toStretch, Nat.lt_succ_of_lt hc.lt, hc.right⟩

/-- The runs are those that are closed, and the tail. -/
theorem isRun_iff {n k : Nat} (h : TailLength good n k) (s l : Nat) :
    IsRun good n s l ↔
      IsClosed good n s l ∨ (0 < k ∧ s = n - k ∧ l = k) := by
  constructor
  · intro hr
    rcases Nat.lt_or_eq_of_le hr.le with hlt | heq
    · exact .inl ⟨hr.toStretch, hlt, hr.right hlt⟩
    · obtain ⟨hl, hs⟩ := h.unique hr.toStretch heq
      exact .inr ⟨hl ▸ hr.pos, hs, hl⟩
  · rintro (hc | ⟨hk, rfl, rfl⟩)
    · exact ⟨hc.toStretch, hc.lt.le, fun _ => hc.right⟩
    · have hle := h.le
      exact ⟨h.stretch hk, by omega, fun hlt => absurd hlt (by omega)⟩

theorem exists_tailLength (good : Nat → Prop) (n : Nat) :
    ∃ k, TailLength good n k := by
  induction n with
  | zero => exact ⟨0, .zero⟩
  | succ n ih =>
      obtain ⟨k, hk⟩ := ih
      by_cases hn : good n
      · exact ⟨k + 1, hk.succ hn⟩
      · exact ⟨0, .reset hn⟩

/-- If a place is good there is a run. -/
theorem exists_isRun {n i : Nat} (hi : i < n) (hgood : good i) :
    ∃ s l, IsRun good n s l := by
  induction n with
  | zero => omega
  | succ n ih =>
      obtain ⟨k, hk⟩ := exists_tailLength good n
      by_cases hn : good n
      · exact ⟨_, _, (isRun_iff (hk.succ hn) _ _).mpr
          (.inr ⟨Nat.succ_pos k, rfl, rfl⟩)⟩
      · have hin : i ≠ n := by
          rintro rfl
          exact hn hgood
        obtain ⟨s, l, hr⟩ := ih (by omega)
        refine ⟨s, l, (isRun_iff (.reset hn) s l).mpr (.inl ?_)⟩
        exact (isClosed_succ_of_not hk hn s l).mpr ((isRun_iff hk s l).mp hr)

/-- Runs depend on the first `n` places only. -/
theorem isRun_congr {good' : Nat → Prop} {n : Nat}
    (hsame : ∀ i < n, good i ↔ good' i) (s l : Nat) :
    IsRun good n s l ↔ IsRun good' n s l := by
  have one {p q : Nat → Prop} (hpq : ∀ i < n, p i ↔ q i)
      (h : IsRun p n s l) : IsRun q n s l := by
    have hle := h.le
    have hpos := h.pos
    exact
      { pos := h.pos
        inside := fun i hi hil => (hpq i (by omega)).mp (h.inside i hi hil)
        left := fun i hi hq => h.left i hi ((hpq i (by omega)).mpr hq)
        le := h.le
        right := fun hlt hq => h.right hlt ((hpq _ hlt).mpr hq) }
  exact ⟨one hsame, one fun i hi => (hsame i hi).symm⟩

/-- The first among the longest of the runs `R`; `l` is zero if there are
none. -/
structure Best (R : Nat → Nat → Prop) (s l : Nat) : Prop where
  mem : 0 < l → R s l
  none : l = 0 → s = 0
  first : ∀ s' l', R s' l' → l' < l ∨ (l' = l ∧ s ≤ s')

theorem Best.congr {R R' : Nat → Nat → Prop} {s l : Nat} (h : Best R s l)
    (hR : ∀ s' l', R s' l' ↔ R' s' l') :
    Best R' s l :=
  ⟨fun hpos => (hR s l).mp (h.mem hpos), h.none,
    fun s' l' hr => h.first s' l' ((hR s' l').mpr hr)⟩

/-- The middle of the best run is one of the places. -/
theorem Best.mid_lt {n s l : Nat} (hn : 0 < n)
    (h : Best (IsRun good n) s l) :
    s + l / 2 < n := by
  rcases Nat.eq_zero_or_pos l with rfl | hpos
  · rw [h.none rfl]
    exact hn
  · have hle := (h.mem hpos).le
    omega

/-- It is a good one, if there is any. -/
theorem Best.good_mid {n s l i : Nat} (h : Best (IsRun good n) s l)
    (hi : i < n) (hgood : good i) :
    good (s + l / 2) := by
  obtain ⟨s', l', hr⟩ := exists_isRun hi hgood
  have hpos : 0 < l := by
    have hl := hr.pos
    rcases h.first s' l' hr with hlt | ⟨heq, _⟩ <;> omega
  exact (h.mem hpos).inside _ (by omega) (by omega)

/-- Keeping the best up to date: one more run, not before the best one, takes
its place if it is longer. -/
theorem Best.insert {R R' : Nat → Nat → Prop} {s l s₀ l₀ : Nat}
    (h : Best R s l) (hs : s ≤ s₀)
    (hR' : ∀ s' l', R' s' l' ↔ R s' l' ∨ (0 < l₀ ∧ s' = s₀ ∧ l' = l₀)) :
    Best R' (if l < l₀ then s₀ else s) (if l < l₀ then l₀ else l) := by
  by_cases hless : l < l₀
  · rw [if_pos hless, if_pos hless]
    refine ⟨fun hpos => (hR' _ _).mpr (.inr ⟨hpos, rfl, rfl⟩),
      fun hzero => absurd hzero (by omega), fun s' l' hr => ?_⟩
    rcases (hR' s' l').mp hr with hold | ⟨_, rfl, rfl⟩
    · rcases h.first s' l' hold with hlt | ⟨heq, _⟩
      · exact .inl (by omega)
      · exact .inl (by omega)
    · exact .inr ⟨rfl, le_refl _⟩
  · rw [if_neg hless, if_neg hless]
    refine ⟨fun hpos => (hR' _ _).mpr (.inl (h.mem hpos)), h.none,
      fun s' l' hr => ?_⟩
    rcases (hR' s' l').mp hr with hold | ⟨_, rfl, rfl⟩
    · exact h.first s' l' hold
    · rcases Nat.lt_or_eq_of_le (Nat.not_lt.mp hless) with hlt | heq
      · exact .inl hlt
      · exact .inr ⟨heq, hs⟩

end Memory
end MollerFirmware
