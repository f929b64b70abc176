import MollerFirmware.Sw.DiscoveryServer

/-!
# The memory of the discovery server

`discovery_server_update` allocates a node for every beacon it accepts, and
`discovery_server_shutdown` frees the nodes that are in the list. No other
function frees anything: `discovery_server_get_next` takes a node out of the
list and keeps a copy of the beacon only.
-/

namespace MollerFirmware
namespace Discovery

open Clocked Memory

/-- The addresses that `discovery_server_shutdown` frees. A list has no more
nodes than there are. -/
def serverShutdown (ctx : ServerContext) : Option (List Nat × ServerContext) :=
  (freeAll ctx.heap ctx.heap.length ctx.responses []).map fun freed =>
    (freed, { ctx with responses := none })

/-- A beacon that is accepted is a new node; nothing else is allocated. -/
theorem length_heap_step (ctx : ServerContext) (c : ServerCall) :
    (serverStep ctx c).heap.length =
      ctx.heap.length + (acceptedBy ctx c).length := by
  obtain ⟨hstep, hacc, -⟩ | ⟨device, -, hstep, hacc, -⟩ |
    ⟨a, node, -, -, hstep, hacc, -⟩ := serverStep_cases ctx c
  · rw [hstep, hacc]
    rfl
  · rw [hstep, hacc, ServerContext.append]
    cases ctx.latestResponse <;> simp [setNext]
  · rw [hstep, hacc]
    rfl

/-- A list takes in one node for each accepted beacon at most, and loses one for
each that is returned. -/
theorem Linked.step_length {ctx : ServerContext} {as : List Nat}
    (h : Linked ctx as) (c : ServerCall) :
    ∃ as', Linked (serverStep ctx c) as' ∧
      as'.length + (returnedBy ctx c).length ≤
        as.length + (acceptedBy ctx c).length := by
  obtain ⟨hstep, hacc, hret⟩ | ⟨device, -, hstep, hacc, hret⟩ |
    ⟨a, node, hhead, hnode, hstep, hacc, hret⟩ := serverStep_cases ctx c
  · rw [hstep, hacc, hret]
    exact ⟨as, h, le_refl _⟩
  · rw [hstep, hacc, hret]
    by_cases hempty : Emptied ctx
    · exact ⟨[], .of_none (hempty.append device).1, by simp⟩
    · exact ⟨_, (h.append hempty device).1, by simp⟩
  · rw [hstep, hacc, hret]
    obtain ⟨as', rfl, hlinked⟩ := h.remove hhead hnode
    exact ⟨as', hlinked, by simp⟩

section Runs

variable (ctx₀ : ServerContext) (inp : Nat → ServerCall)

theorem length_heap (t : Nat) :
    (serverAt ctx₀ inp t).heap.length =
      ctx₀.heap.length + (accepted ctx₀ inp t).length := by
  induction t with
  | zero =>
      rfl
  | succ t ih =>
      have hacc : accepted ctx₀ inp (t + 1) = accepted ctx₀ inp t ++
          acceptedBy (serverAt ctx₀ inp t) (inp t) := rfl
      rw [serverAt_succ, length_heap_step, ih, hacc, List.length_append,
        Nat.add_assoc]

theorem linked_length (t : Nat) :
    ∃ as, Linked (serverAt ctx₀ inp t) as ∧
      as.length + (returned ctx₀ inp t).length ≤
        (accepted ctx₀ inp t).length := by
  induction t with
  | zero =>
      exact ⟨[], .of_none rfl, le_refl 0⟩
  | succ t ih =>
      obtain ⟨as, hlinked, hle⟩ := ih
      obtain ⟨as', hlinked', hle'⟩ := hlinked.step_length (inp t)
      refine ⟨as', hlinked', ?_⟩
      have hacc : accepted ctx₀ inp (t + 1) = accepted ctx₀ inp t ++
          acceptedBy (serverAt ctx₀ inp t) (inp t) := rfl
      have hret : returned ctx₀ inp (t + 1) = returned ctx₀ inp t ++
          returnedBy (serverAt ctx₀ inp t) (inp t) := rfl
      rw [hacc, hret, List.length_append, List.length_append]
      omega

/-- Shutdown ends after any calls. It frees nodes of the list, each once, and
leaves the others of the run allocated: at least one for each beacon that was
returned, and no more than these if no emptied queue was refilled. -/
theorem shutdown_leaks (t : Nat) :
    ∃ freed ctx, serverShutdown (serverAt ctx₀ inp t) = some (freed, ctx) ∧
      ctx.responses = none ∧ freed.Nodup ∧
      (∀ a ∈ freed, a < ctx.heap.length) ∧
      ctx₀.heap.length + (returned ctx₀ inp t).length + freed.length ≤
        ctx.heap.length ∧
      ((∀ u, ¬ RefillsEmptied ctx₀ inp u) →
        ctx₀.heap.length + (returned ctx₀ inp t).length + freed.length =
          ctx.heap.length) := by
  obtain ⟨as, hlinked, hle⟩ := linked_length ctx₀ inp t
  have hchain := hlinked.chain
  have hfreed : freeAll (serverAt ctx₀ inp t).heap
      (serverAt ctx₀ inp t).heap.length (serverAt ctx₀ inp t).responses [] =
        some as :=
    hchain.freeAll hchain.length_le fun a _ => List.not_mem_nil
  refine ⟨as, { serverAt ctx₀ inp t with responses := none }, ?_, rfl,
    hchain.nodup, fun a ha => hchain.lt_length ha, ?_, fun hok => ?_⟩
  · rw [serverShutdown, hfreed]
    rfl
  · show _ ≤ (serverAt ctx₀ inp t).heap.length
    rw [length_heap]
    omega
  · show _ = (serverAt ctx₀ inp t).heap.length
    obtain ⟨as', hinv⟩ := queueInv_run ctx₀ inp hok t
    obtain rfl := hchain.unique hinv.linked.chain
    have hcontents := congrArg List.length hinv.contents
    rw [List.length_append, hchain.length_values] at hcontents
    rw [length_heap]
    omega

end Runs

end Discovery
end MollerFirmware
