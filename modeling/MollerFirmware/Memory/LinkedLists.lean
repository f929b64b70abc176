import Mathlib.Data.List.Basic
import Mathlib.Tactic

/-!
# Singly linked lists in a heap

The heap is the list of all nodes that were ever allocated, and the address of
a node is its index; a null pointer is `none`. `Chain h p as` says that
following the `next` pointers from `p` on visits the nodes `as` and then ends.
The nodes of a chain are determined by the heap and the first pointer, and are
different from one another, which is what makes the store of a link at the last
of them harmless to the others (`Chain.link`).
-/

namespace MollerFirmware
namespace Memory

universe u

/-- A list node with its payload. -/
structure Node (β : Type u) where
  value : β
  next : Option Nat
deriving DecidableEq

/-- All nodes, by address. -/
abbrev Heap (β : Type u) :=
  List (Node β)

variable {β : Type u} {h : Heap β} {p q : Option Nat} {as bs : List Nat}

/-- The nodes reached from a pointer on. -/
inductive Chain (h : Heap β) : Option Nat → List Nat → Prop
  | nil : Chain h none []
  | cons {a : Nat} {node : Node β} {as : List Nat}
      (hnode : h[a]? = some node) (hnext : Chain h node.next as) :
      Chain h (some a) (a :: as)

/-- Payloads of the nodes at some addresses. -/
def values (h : Heap β) (as : List Nat) : List β :=
  as.filterMap fun a => (h[a]?).map Node.value

/-- Store a pointer in the `next` field of a node. -/
def setNext (h : Heap β) (a : Nat) (p : Option Nat) : Heap β :=
  h.modify a fun node => { node with next := p }

@[simp] theorem chain_none : Chain h none as ↔ as = [] := by
  constructor
  · intro hc
    cases hc
    rfl
  · rintro rfl
    exact .nil

@[simp] theorem chain_nil : Chain h p [] ↔ p = none := by
  constructor
  · intro hc
    cases hc
    rfl
  · rintro rfl
    exact .nil

theorem chain_some {a : Nat} :
    Chain h (some a) as ↔
      ∃ node as', as = a :: as' ∧ h[a]? = some node ∧
        Chain h node.next as' := by
  constructor
  · intro hc
    cases hc with
    | cons hnode hnext => exact ⟨_, _, rfl, hnode, hnext⟩
  · rintro ⟨node, as', rfl, hnode, hnext⟩
    exact .cons hnode hnext

/-- A pointer has only one chain. -/
theorem Chain.unique
    (hc : Chain h p as) (hd : Chain h p bs) :
    as = bs := by
  induction hc generalizing bs with
  | nil =>
      exact (chain_none.mp hd).symm
  | cons hnode _ ih =>
      obtain ⟨node, bs', rfl, hnode', hnext'⟩ := chain_some.mp hd
      rw [hnode] at hnode'
      obtain rfl := Option.some.inj hnode'
      rw [ih hnext']

/-- The part of a chain that begins at one of its nodes. -/
theorem Chain.suffix
    {b : Nat} (hc : Chain h p (as ++ b :: bs)) :
    Chain h (some b) (b :: bs) := by
  induction as generalizing p with
  | nil =>
      cases hc with
      | cons hnode hnext => exact .cons hnode hnext
  | cons a as ih =>
      cases hc with
      | cons _ hnext => exact ih hnext

/-- No node occurs twice in a chain. -/
theorem Chain.nodup (hc : Chain h p as) : as.Nodup := by
  induction hc with
  | nil =>
      exact List.nodup_nil
  | @cons a node as hnode hnext ih =>
      refine List.nodup_cons.mpr ⟨fun hmem => ?_, ih⟩
      obtain ⟨s, t, rfl⟩ := List.append_of_mem hmem
      -- the chain from `a` would be a proper part of itself
      have heq := (Chain.cons hnode hnext).unique hnext.suffix
      have hlen := congrArg List.length heq
      simp at hlen
      omega

/-- The nodes of a chain are allocated. -/
theorem Chain.lt_length
    (hc : Chain h p as) {a : Nat} (ha : a ∈ as) :
    a < h.length := by
  obtain ⟨s, t, rfl⟩ := List.append_of_mem ha
  cases hc.suffix with
  | cons hnode _ => exact (List.getElem?_eq_some_iff.mp hnode).1

/-- Allocation changes no chain. -/
theorem Chain.alloc
    (hc : Chain h p as) (node : Node β) :
    Chain (h ++ [node]) p as := by
  induction hc with
  | nil =>
      exact .nil
  | cons hnode _ ih =>
      refine .cons ?_ ih
      rw [List.getElem?_append_left (List.getElem?_eq_some_iff.mp hnode).1]
      exact hnode

/-- A store to a node outside a chain does not change it. -/
theorem Chain.setNext_of_not_mem
    (hc : Chain h p as) {l : Nat} (hl : l ∉ as) (q : Option Nat) :
    Chain (setNext h l q) p as := by
  induction hc with
  | nil =>
      exact .nil
  | @cons a node as hnode _ ih =>
      rw [List.mem_cons, not_or] at hl
      refine .cons ?_ (ih hl.2)
      unfold setNext
      rw [List.getElem?_modify_ne _ _ hl.1]
      exact hnode

/-- A chain that is linked to the last node of another one continues it. -/
theorem Chain.link
    {l : Nat} (hc : Chain h p (as ++ [l]))
    (hd : Chain h q bs) (hl : l ∉ bs) :
    Chain (setNext h l q) p (as ++ l :: bs) := by
  induction as generalizing p with
  | nil =>
      cases hc with
      | @cons _ node _ hnode _ =>
          have hlast : (setNext h l q)[l]? = some { node with next := q } := by
            unfold setNext
            rw [List.getElem?_modify_eq, hnode]
            rfl
          exact .cons hlast (hd.setNext_of_not_mem hl q)
  | cons a as ih =>
      have hne : a ≠ l := by
        have hnodup := hc.nodup
        simp only [List.cons_append, List.nodup_cons] at hnodup
        rintro rfl
        simp at hnodup
      cases hc with
      | cons hnode hnext =>
          refine .cons ?_ (ih hnext)
          unfold setNext
          rw [List.getElem?_modify_ne _ _ (Ne.symm hne)]
          exact hnode

theorem values_append (h : Heap β) (as bs : List Nat) :
    values h (as ++ bs) = values h as ++ values h bs := by
  simp [values]

theorem values_cons_of_getElem?
    {a : Nat} {node : Node β} (hnode : h[a]? = some node) (as : List Nat) :
    values h (a :: as) = node.value :: values h as := by
  simp [values, hnode]

/-- Stores to `next` fields change no payload. -/
@[simp] theorem values_setNext (h : Heap β) (l : Nat) (q : Option Nat) :
    values (setNext h l q) as = values h as := by
  unfold values setNext
  congr 1
  funext a
  by_cases ha : l = a
  · subst ha
    rw [List.getElem?_modify_eq]
    cases h[l]? <;> rfl
  · rw [List.getElem?_modify_ne _ _ ha]

/-- Allocation changes no payload of a chain. -/
theorem Chain.values_alloc
    (hc : Chain h p as) (node : Node β) :
    values (h ++ [node]) as = values h as := by
  unfold values
  refine List.filterMap_congr (fun a ha => ?_)
  rw [List.getElem?_append_left (hc.lt_length ha)]

theorem Chain.length_values (hc : Chain h p as) :
    (values h as).length = as.length := by
  induction hc with
  | nil =>
      rfl
  | cons hnode _ ih =>
      rw [values_cons_of_getElem? hnode, List.length_cons, ih, List.length_cons]

/-! ## Freeing a list -/

/-- Free the nodes from a pointer on; `next` is read before its node is freed.
The result is `none` when a node is read that is not there or was freed before,
and when the loop has not ended after `fuel` nodes. -/
def freeAll (h : Heap β) : Nat → Option Nat → List Nat → Option (List Nat)
  | _, none, freed => some freed
  | 0, some _, _ => none
  | fuel + 1, some a, freed =>
      match h[a]? with
      | none => none
      | some node =>
          if a ∈ freed then none else freeAll h fuel node.next (freed ++ [a])

/-- The loop frees the nodes of a chain, each of them once. -/
theorem Chain.freeAll (hc : Chain h p as) {fuel : Nat}
    (hfuel : as.length ≤ fuel) {freed : List Nat}
    (hnew : ∀ a ∈ as, a ∉ freed) :
    freeAll h fuel p freed = some (freed ++ as) := by
  induction hc generalizing fuel freed with
  | nil =>
      cases fuel <;> simp [Memory.freeAll]
  | @cons a node as hnode hnext ih =>
      obtain ⟨fuel, rfl⟩ : ∃ k, fuel = k + 1 := by
        refine ⟨fuel - 1, ?_⟩
        rw [List.length_cons] at hfuel
        omega
      have hnodup := List.nodup_cons.mp (Chain.cons hnode hnext).nodup
      have hrest : Memory.freeAll h fuel node.next (freed ++ [a]) =
          some (freed ++ [a] ++ as) :=
        ih (by simpa using hfuel) fun b hb hmem => by
          rcases List.mem_append.mp hmem with hold | hlast
          · exact hnew b (List.mem_cons_of_mem a hb) hold
          · rw [List.mem_singleton.mp hlast] at hb
            exact hnodup.1 hb
      rw [Memory.freeAll, hnode]
      simp only [if_neg (hnew a List.mem_cons_self)]
      rw [hrest, List.append_assoc, List.singleton_append]

theorem Chain.length_le (hc : Chain h p as) :
    as.length ≤ h.length := by
  have hsub : as ⊆ List.range h.length := fun a ha =>
    List.mem_range.mpr (hc.lt_length ha)
  have hle := (List.subperm_of_subset hc.nodup hsub).length_le
  rwa [List.length_range] at hle

end Memory
end MollerFirmware
