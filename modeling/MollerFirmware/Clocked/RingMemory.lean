import Mathlib.Data.BitVec
import Mathlib.Logic.Function.Basic
import Mathlib.Tactic

/-!
# Circular memories with extended-width pointers

A memory of `2 ^ D` words is used as a ring. Its pointers have `D + 1` bits:
the low `D` bits are the address and the extra bit tells a full ring from an
empty one. In the proofs a pointer is the residue of an unbounded position, so
that the order of two positions can be spoken about; the lemmas here translate
between positions and registers and say when a write leaves a stretch of the
ring unchanged.
-/

namespace MollerFirmware
namespace Clocked

universe u

variable {D : Nat} {α : Type u}

/-- Adding to a pointer moves the position. -/
theorem ofNat_add_ofNat (w x k : Nat) :
    BitVec.ofNat w x + BitVec.ofNat w k = BitVec.ofNat w (x + k) := by
  rw [BitVec.ofNat_add]

/-- The distance of two pointers is the distance of their positions as long as
it fits the register. -/
theorem ofNat_sub_ofNat_toNat
    {w a b : Nat} (hab : a ≤ b) (hlt : b < a + 2 ^ w) :
    (BitVec.ofNat w b - BitVec.ofNat w a).toNat = b - a := by
  obtain ⟨k, rfl⟩ := Nat.exists_eq_add_of_le hab
  rw [BitVec.ofNat_add, BitVec.add_comm, BitVec.add_sub_cancel,
    BitVec.toNat_ofNat, Nat.mod_eq_of_lt (by omega)]
  omega

/-- Two positions less than one turn apart have different addresses. -/
theorem ofNat_ne_ofNat
    {w a b : Nat} (hab : a < b) (hlt : b < a + 2 ^ w) :
    BitVec.ofNat w a ≠ BitVec.ofNat w b := by
  intro heq
  have hdist := ofNat_sub_ofNat_toNat (w := w) hab.le hlt
  rw [heq, BitVec.sub_self] at hdist
  simp at hdist
  omega

/-- The ring holds the words `ws` from position `pos` on. -/
def Holds (ram : BitVec D → α) (pos : Nat) (ws : List α) : Prop :=
  ∀ k (hk : k < ws.length), ram (BitVec.ofNat D (pos + k)) = ws[k]

@[simp] theorem holds_nil
    (ram : BitVec D → α) (pos : Nat) :
    Holds ram pos [] := by
  intro k hk
  simp at hk

/-- A stretch is its first word and the stretch behind it. -/
theorem holds_cons
    (ram : BitVec D → α) (pos : Nat) (w : α) (ws : List α) :
    Holds ram pos (w :: ws) ↔
      ram (BitVec.ofNat D pos) = w ∧ Holds ram (pos + 1) ws := by
  constructor
  · intro h
    refine ⟨h 0 (by simp), fun k hk => ?_⟩
    have hnext := h (k + 1) (by simpa using hk)
    rw [show pos + 1 + k = pos + (k + 1) by omega, hnext]
    rfl
  · rintro ⟨hhead, htail⟩ k hk
    cases k with
    | zero =>
        simpa using hhead
    | succ k =>
        have hnext := htail k (by simpa using hk)
        rw [show pos + (k + 1) = pos + 1 + k by omega, hnext]
        rfl

theorem holds_append
    (ram : BitVec D → α) (pos : Nat) (us vs : List α) :
    Holds ram pos (us ++ vs) ↔
      Holds ram pos us ∧ Holds ram (pos + us.length) vs := by
  induction us generalizing pos with
  | nil =>
      simp
  | cons u us ih =>
      rw [List.cons_append, holds_cons, holds_cons, ih (pos + 1),
        List.length_cons, and_assoc,
        show pos + 1 + us.length = pos + (us.length + 1) by omega]

/-- A write behind the stretch, less than one turn ahead of its start, leaves
it unchanged. -/
theorem Holds.update_after
    {ram : BitVec D → α} {pos : Nat} {ws : List α}
    (h : Holds ram pos ws) {x : Nat} {w : α}
    (hafter : pos + ws.length ≤ x) (hturn : x < pos + 2 ^ D) :
    Holds (Function.update ram (BitVec.ofNat D x) w) pos ws := by
  intro k hk
  rw [Function.update_of_ne (ofNat_ne_ofNat (by omega) (by omega))]
  exact h k hk

/-- A write before the stretch, whose end is less than one turn ahead of the
written position, leaves it unchanged. -/
theorem Holds.update_before
    {ram : BitVec D → α} {pos : Nat} {ws : List α}
    (h : Holds ram pos ws) {x : Nat} {w : α}
    (hbefore : x < pos) (hturn : pos + ws.length ≤ x + 2 ^ D) :
    Holds (Function.update ram (BitVec.ofNat D x) w) pos ws := by
  intro k hk
  rw [Function.update_of_ne (ofNat_ne_ofNat (by omega) (by omega)).symm]
  exact h k hk

/-- A write right behind the stretch makes it one word longer. -/
theorem Holds.update_snoc
    {ram : BitVec D → α} {pos : Nat} {ws : List α}
    (h : Holds ram pos ws) (w : α)
    (hturn : ws.length < 2 ^ D) :
    Holds (Function.update ram (BitVec.ofNat D (pos + ws.length)) w) pos
      (ws ++ [w]) := by
  rw [holds_append, holds_cons]
  exact ⟨h.update_after le_rfl (by omega), by simp, by simp⟩

/-- A write at the start of a stretch puts a word in front of it. -/
theorem Holds.update_cons
    {ram : BitVec D → α} {pos : Nat} {ws : List α}
    (h : Holds ram (pos + 1) ws) (w : α)
    (hturn : ws.length < 2 ^ D) :
    Holds (Function.update ram (BitVec.ofNat D pos) w) pos (w :: ws) := by
  rw [holds_cons]
  exact ⟨by simp, h.update_before (by omega) (by omega)⟩

end Clocked
end MollerFirmware
