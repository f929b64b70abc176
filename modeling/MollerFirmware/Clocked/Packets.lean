import Mathlib.Data.List.Basic
import Mathlib.Tactic

/-!
# Packets on a stream

The words of a stream belong to packets, and the last word of each packet is
marked. `Packets` collects the words that have been seen: the packets that are
complete and the words of the one that is not.
-/

namespace MollerFirmware
namespace Clocked

universe u

variable {α : Type u}

/-- Words seen on a stream. -/
structure Packets (α : Type u) where
  complete : List (List α)
  current : List α
deriving DecidableEq

namespace Packets

/-- Nothing has been seen. -/
def none : Packets α :=
  ⟨[], []⟩

/-- One more word. -/
def take (g : Packets α) (last : Bool) (w : α) : Packets α :=
  if last then ⟨g.complete ++ [g.current ++ [w]], []⟩
  else ⟨g.complete, g.current ++ [w]⟩

@[simp] theorem take_true (g : Packets α) (w : α) :
    g.take true w = ⟨g.complete ++ [g.current ++ [w]], []⟩ := by
  rfl

@[simp] theorem take_false (g : Packets α) (w : α) :
    g.take false w = ⟨g.complete, g.current ++ [w]⟩ := by
  rfl

/-- Complete packets stay. -/
theorem complete_prefix_take (g : Packets α) (last : Bool) (w : α) :
    g.complete <+: (g.take last w).complete := by
  cases last with
  | true => exact List.prefix_append _ _
  | false => exact List.prefix_refl _

end Packets

/-- A list with a first element keeps it when it grows. -/
theorem head?_of_prefix {ps qs : List α} {p : α}
    (hpre : ps <+: qs) (hp : ps.head? = some p) :
    qs.head? = some p := by
  obtain ⟨rest, rfl⟩ := hpre
  rw [List.head?_append, hp]
  rfl

/-- The words of a packet, each with its mark. -/
def marked : List α → List (Bool × α)
  | [] => []
  | [w] => [(true, w)]
  | v :: w :: ws => (false, v) :: marked (w :: ws)

end Clocked
end MollerFirmware
