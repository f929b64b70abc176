import MollerFirmware.Clocked.Signals
import MollerFirmware.Sw.DiscoveryUdp

/-!
# The response queue of the discovery server

The application calls `discovery_server_update` and `discovery_server_get_next`
in any order. The queue is right as long as no beacon is accepted after
`get_next` has emptied it: from then on `latest_response` points to a node that
has left the list, later beacons are linked behind that node, and `responses`
stays null (`Emptied`). The number of responses goes on counting.
-/

namespace MollerFirmware
namespace Discovery

open Clocked Memory

/-- A call of the application. -/
inductive ServerCall where
  | update (rx : Option Datagram)
  | getNext

/-- The context after a call. -/
def serverStep (ctx : ServerContext) : ServerCall → ServerContext
  | .update rx => serverUpdate ctx rx
  | .getNext => (serverGetNext ctx).2

/-- The beacon that a call accepts. -/
def acceptedBy (ctx : ServerContext) : ServerCall → List ListItem
  | .update rx => (serverReceive ctx rx).toList
  | .getNext => []

/-- The beacon that a call returns. -/
def returnedBy (ctx : ServerContext) : ServerCall → List ListItem
  | .update _ => []
  | .getNext => (serverGetNext ctx).1.toList

theorem serverReceive_room
    {ctx : ServerContext} {rx : Option Datagram} {device : ListItem}
    (h : serverReceive ctx rx = some device) :
    ctx.numResponses < maxBeacons := by
  by_contra hfull
  simp [serverReceive, hfull] at h

/-- The count does not wrap: an accepted beacon finds fewer than the maximum. -/
theorem toNat_append_numResponses
    {ctx : ServerContext} {device : ListItem}
    (hroom : ctx.numResponses < maxBeacons) :
    (ctx.append device).numResponses.toNat = ctx.numResponses.toNat + 1 := by
  have hmax : ctx.numResponses.toNat < 253 := by
    simpa [maxBeacons] using BitVec.lt_def.mp hroom
  have hsucc : (ctx.append device).numResponses = ctx.numResponses + 1 := by
    unfold ServerContext.append
    cases ctx.latestResponse <;> rfl
  rw [hsucc]
  bv_omega

/-- What one call can do: nothing, accept a beacon, or return the first one. -/
theorem serverStep_cases (ctx : ServerContext) (c : ServerCall) :
    (serverStep ctx c = ctx ∧ acceptedBy ctx c = [] ∧
      returnedBy ctx c = []) ∨
    (∃ device, ctx.numResponses < maxBeacons ∧
      serverStep ctx c = ctx.append device ∧
      acceptedBy ctx c = [device] ∧ returnedBy ctx c = []) ∨
    (∃ a node, ctx.responses = some a ∧ ctx.heap[a]? = some node ∧
      serverStep ctx c = ctx.remove node ∧
      acceptedBy ctx c = [] ∧ returnedBy ctx c = [node.value]) := by
  cases c with
  | update rx =>
      simp only [serverStep, acceptedBy, returnedBy, serverUpdate]
      cases hrx : serverReceive ctx rx with
      | none =>
          left
          simp
      | some device =>
          right
          left
          refine ⟨device, serverReceive_room hrx, ?_⟩
          simp
  | getNext =>
      simp only [serverStep, acceptedBy, returnedBy, serverGetNext]
      cases hhead : ctx.responses with
      | none =>
          left
          simp
      | some a =>
          cases hnode : ctx.heap[a]? with
          | none =>
              left
              simp [hnode]
          | some node =>
              right
              right
              refine ⟨a, node, rfl, hnode, ?_⟩
              simp [hnode, ServerContext.remove]

section Links

variable {ctx : ServerContext} {as : List Nat}

/-- The nodes `as` form the list, and the last of them, if there is one, is the
latest response. -/
structure Linked (ctx : ServerContext) (as : List Nat) : Prop where
  chain : Chain ctx.heap ctx.responses as
  latest : ∀ a ∈ as.getLast?, ctx.latestResponse = some a

/-- The list is empty but has not always been: `latest_response` is left over
from a node that was removed. -/
def Emptied (ctx : ServerContext) : Prop :=
  ctx.responses = none ∧ ctx.latestResponse ≠ none

/-- A beacon that arrives in an emptied queue does not enter it. -/
theorem Emptied.append
    (hctx : Emptied ctx) (device : ListItem) :
    Emptied (ctx.append device) := by
  obtain ⟨hnone, hstale⟩ := hctx
  obtain ⟨latest, hlatest⟩ := Option.ne_none_iff_exists'.mp hstale
  constructor
  · simp [ServerContext.append, hlatest, hnone]
  · simp [ServerContext.append]

/-- No call gets an emptied queue going again. -/
theorem Emptied.step
    (hctx : Emptied ctx) (c : ServerCall) :
    Emptied (serverStep ctx c) ∧ returnedBy ctx c = [] := by
  obtain ⟨hstep, -, hret⟩ | ⟨device, -, hstep, -, hret⟩ |
    ⟨a, node, hhead, -, -, -, -⟩ := serverStep_cases ctx c
  · rw [hstep]
    exact ⟨hctx, hret⟩
  · rw [hstep]
    exact ⟨hctx.append device, hret⟩
  · rw [hctx.1] at hhead
    exact absurd hhead.symm (Option.some_ne_none a)

theorem Linked.of_none
    (hnone : ctx.responses = none) :
    Linked ctx [] where
  chain := by
    rw [hnone]
    exact .nil
  latest := by simp

/-- In a queue that was never emptied a beacon becomes the last node. -/
theorem Linked.append
    (hctx : Linked ctx as) (hfresh : ¬ Emptied ctx) (device : ListItem) :
    Linked (ctx.append device) (as ++ [ctx.heap.length]) ∧
      values (ctx.append device).heap (as ++ [ctx.heap.length]) =
        values ctx.heap as ++ [device] := by
  have hold := hctx.chain.alloc ⟨device, none⟩
  have hnew : (ctx.heap ++ [⟨device, none⟩])[ctx.heap.length]? =
      some ⟨device, none⟩ := by
    simp
  have hsingle : Chain (ctx.heap ++ [⟨device, none⟩]) (some ctx.heap.length)
      [ctx.heap.length] :=
    .cons hnew .nil
  have hvalues : values (ctx.heap ++ [⟨device, none⟩])
      (as ++ [ctx.heap.length]) = values ctx.heap as ++ [device] := by
    rw [values_append, hctx.chain.values_alloc, values_cons_of_getElem? hnew]
    rfl
  rcases List.eq_nil_or_concat' as with rfl | ⟨init, last, rfl⟩
  · -- the first node: both pointers are still null
    have hnone : ctx.responses = none := chain_nil.mp hctx.chain
    have hlatest : ctx.latestResponse = none := by
      by_contra hstale
      exact hfresh ⟨hnone, hstale⟩
    refine ⟨⟨?_, ?_⟩, ?_⟩
    · simpa [ServerContext.append, hlatest] using hsingle
    · simp [ServerContext.append]
    · simpa [ServerContext.append, hlatest] using hvalues
  · have hlatest : ctx.latestResponse = some last :=
      hctx.latest last (by simp)
    have hlast : last ∉ [ctx.heap.length] := by
      have := hctx.chain.lt_length (a := last) (by simp)
      simp
      omega
    refine ⟨⟨?_, ?_⟩, ?_⟩
    · simpa [ServerContext.append, hlatest] using hold.link hsingle hlast
    · simp [ServerContext.append]
    · simpa [ServerContext.append, hlatest] using hvalues

/-- The first node is removed. -/
theorem Linked.remove
    {a : Nat} {node : Node ListItem} (hctx : Linked ctx as)
    (hhead : ctx.responses = some a) (hnode : ctx.heap[a]? = some node) :
    ∃ as', as = a :: as' ∧ Linked (ctx.remove node) as' := by
  have hchain := hctx.chain
  rw [hhead] at hchain
  obtain ⟨node', as', rfl, hnode', hnext⟩ := chain_some.mp hchain
  rw [hnode] at hnode'
  obtain rfl := Option.some.inj hnode'
  refine ⟨as', rfl, hnext, fun b hb => hctx.latest b ?_⟩
  cases as' with
  | nil => simp at hb
  | cons b' as' => simpa using hb

/-- The pointers stay those of a linked list, emptied or not. -/
theorem Linked.step
    (hctx : Linked ctx as) (c : ServerCall) :
    ∃ as', Linked (serverStep ctx c) as' := by
  obtain ⟨hstep, -, -⟩ | ⟨device, -, hstep, -, -⟩ |
    ⟨a, node, hhead, hnode, hstep, -, -⟩ := serverStep_cases ctx c
  · rw [hstep]
    exact ⟨as, hctx⟩
  · rw [hstep]
    by_cases hempty : Emptied ctx
    · exact ⟨[], .of_none (hempty.append device).1⟩
    · exact ⟨_, (hctx.append hempty device).1⟩
  · rw [hstep]
    obtain ⟨as', -, hlinked⟩ := hctx.remove hhead hnode
    exact ⟨as', hlinked⟩

end Links

section Runs

variable (ctx₀ : ServerContext) (inp : Nat → ServerCall)

/-- The context after `t` calls. -/
def serverAt (t : Nat) : ServerContext :=
  run serverStep (serverInit ctx₀) inp t

/-- The beacons accepted by the first `t` calls. -/
def accepted (t : Nat) : List ListItem :=
  eventsBefore (fun t => acceptedBy (serverAt ctx₀ inp t) (inp t)) t

/-- The beacons returned by the first `t` calls. -/
def returned (t : Nat) : List ListItem :=
  eventsBefore (fun t => returnedBy (serverAt ctx₀ inp t) (inp t)) t

/-- Nothing is lost or repeated so far: the accepted beacons are those that
were returned and then those in the list, and the count is right. -/
def QueueOk (t : Nat) : Prop :=
  ∃ as,
    Chain (serverAt ctx₀ inp t).heap (serverAt ctx₀ inp t).responses as ∧
    accepted ctx₀ inp t =
      returned ctx₀ inp t ++ values (serverAt ctx₀ inp t).heap as ∧
    (serverGetNumResponses (serverAt ctx₀ inp t)).toNat = as.length

/-- Call number `t` accepts a beacon although the queue has been emptied. -/
def RefillsEmptied (t : Nat) : Prop :=
  Emptied (serverAt ctx₀ inp t) ∧
    acceptedBy (serverAt ctx₀ inp t) (inp t) ≠ []

/-- What holds of the queue until it is emptied and refilled. -/
structure QueueInv (ctx : ServerContext) (acc ret : List ListItem)
    (as : List Nat) : Prop where
  linked : Linked ctx as
  contents : acc = ret ++ values ctx.heap as
  count : ctx.numResponses.toNat = as.length

theorem serverAt_succ (t : Nat) :
    serverAt ctx₀ inp (t + 1) = serverStep (serverAt ctx₀ inp t) (inp t) := by
  rfl

theorem linked_run (t : Nat) : ∃ as, Linked (serverAt ctx₀ inp t) as := by
  induction t with
  | zero =>
      exact ⟨[], .of_none rfl⟩
  | succ t ih =>
      obtain ⟨as, hlinked⟩ := ih
      rw [serverAt_succ]
      exact hlinked.step (inp t)

theorem QueueInv.step
    {ctx : ServerContext} {acc ret : List ListItem} {as : List Nat}
    (h : QueueInv ctx acc ret as) (c : ServerCall)
    (hok : Emptied ctx → acceptedBy ctx c = []) :
    ∃ as', QueueInv (serverStep ctx c) (acc ++ acceptedBy ctx c)
      (ret ++ returnedBy ctx c) as' := by
  obtain ⟨hstep, hacc, hret⟩ | ⟨device, hroom, hstep, hacc, hret⟩ |
    ⟨a, node, hhead, hnode, hstep, hacc, hret⟩ := serverStep_cases ctx c
  · rw [hstep, hacc, hret]
    simpa using ⟨as, h⟩
  · have hfresh : ¬ Emptied ctx := by
      intro hempty
      simpa [hacc] using hok hempty
    obtain ⟨hlinked, hvalues⟩ := h.linked.append hfresh device
    rw [hstep, hacc, hret]
    refine ⟨_, hlinked, ?_, ?_⟩
    · rw [hvalues, h.contents]
      simp
    · rw [toNat_append_numResponses hroom, h.count]
      simp
  · obtain ⟨as', rfl, hlinked⟩ := h.linked.remove hhead hnode
    rw [hstep, hacc, hret]
    refine ⟨as', hlinked, ?_, ?_⟩
    · rw [h.contents, values_cons_of_getElem? hnode]
      simp [ServerContext.remove]
    · have hcount := h.count
      have hpred : (ctx.remove node).numResponses = ctx.numResponses - 1 := by
        rfl
      rw [List.length_cons] at hcount
      rw [hpred]
      bv_omega

/-- As long as no emptied queue is refilled the queue is right. -/
theorem queueInv_run
    (hok : ∀ t, ¬ RefillsEmptied ctx₀ inp t) (t : Nat) :
    ∃ as, QueueInv (serverAt ctx₀ inp t) (accepted ctx₀ inp t)
      (returned ctx₀ inp t) as := by
  induction t with
  | zero =>
      exact ⟨[], .of_none rfl, rfl, rfl⟩
  | succ t ih =>
      obtain ⟨as, hinv⟩ := ih
      refine hinv.step (inp t) (fun hempty => ?_)
      by_contra haccept
      exact hok t ⟨hempty, haccept⟩

/-- A refill of an emptied queue is counted but not linked. -/
theorem not_queueOk_of_refill
    {t : Nat} (hrefill : RefillsEmptied ctx₀ inp t)
    (hok : QueueOk ctx₀ inp t) :
    ¬ QueueOk ctx₀ inp (t + 1) := by
  obtain ⟨hempty, haccept⟩ := hrefill
  obtain ⟨as, hchain, -, hcount⟩ := hok
  rw [hempty.1] at hchain
  obtain rfl := chain_none.mp hchain
  rintro ⟨as', hchain', -, hcount'⟩
  rw [serverAt_succ] at hchain' hcount'
  obtain ⟨-, hacc, -⟩ | ⟨device, hroom, hstep, -, -⟩ |
    ⟨a, node, hhead, -, -, -, -⟩ :=
    serverStep_cases (serverAt ctx₀ inp t) (inp t)
  · exact haccept hacc
  · rw [hstep] at hchain' hcount'
    rw [(hempty.append device).1] at hchain'
    obtain rfl := chain_none.mp hchain'
    simp only [serverGetNumResponses] at hcount hcount'
    rw [toNat_append_numResponses hroom, hcount] at hcount'
    simp at hcount'
  · rw [hempty.1] at hhead
    exact Option.some_ne_none a hhead.symm

/-- **The response queue.** It loses and repeats nothing, in every state of a
run, if and only if no call of the run accepts a beacon after the queue has
been emptied. -/
theorem queue_ok_iff :
    (∀ t, QueueOk ctx₀ inp t) ↔ ∀ t, ¬ RefillsEmptied ctx₀ inp t := by
  constructor
  · intro hok t hrefill
    exact not_queueOk_of_refill ctx₀ inp hrefill (hok t) (hok (t + 1))
  · intro hok t
    obtain ⟨as, hinv⟩ := queueInv_run ctx₀ inp hok t
    exact ⟨as, hinv.linked.chain, hinv.contents, hinv.count⟩

/-- Once the queue has been emptied no beacon is returned any more. -/
theorem returned_of_emptied
    {t u : Nat} (hempty : Emptied (serverAt ctx₀ inp t)) (htu : t ≤ u) :
    Emptied (serverAt ctx₀ inp u) ∧
      returned ctx₀ inp u = returned ctx₀ inp t := by
  induction u, htu using Nat.le_induction with
  | base =>
      exact ⟨hempty, rfl⟩
  | succ u _ ih =>
      obtain ⟨hempty', hnone⟩ := ih.1.step (inp u)
      refine ⟨hempty', ?_⟩
      have hsucc : returned ctx₀ inp (u + 1) = returned ctx₀ inp u ++
          returnedBy (serverAt ctx₀ inp u) (inp u) := by
        rfl
      rw [hsucc, hnone, ih.2, List.append_nil]

end Runs

/-- A server context before its initialisation. -/
def blankServer : ServerContext where
  heap := []
  responses := none
  latestResponse := none
  numResponses := 0
  lastRxDevice :=
    { ip := 0
      info :=
        { isRequest := false
          uptime := 0
          deviceID := 0
          logicalID := 0
          hardwareRevision := []
          firmwareRevision := []
          vendorName := []
          productName := [] } }

/-- A beacon, a `get_next` that returns it, and the same beacon again. -/
def refillCalls : Nat → ServerCall
  | 0 => .update (some ⟨1, messageBytes beaconStr 0 mollerIdentity⟩)
  | 1 => .getNext
  | 2 => .update (some ⟨1, messageBytes beaconStr 9 mollerIdentity⟩)
  | _ => .getNext

/-- The second beacon is counted, but the list stays empty. -/
theorem not_queue_ok_refill : ¬ QueueOk blankServer refillCalls 3 := by
  have hlist : (serverAt blankServer refillCalls 3).responses = none := by
    decide +kernel
  have hnum : serverGetNumResponses (serverAt blankServer refillCalls 3) = 1 := by
    decide +kernel
  rintro ⟨as, hchain, -, hcount⟩
  rw [hlist] at hchain
  obtain rfl := chain_none.mp hchain
  rw [hnum] at hcount
  simp at hcount

end Discovery
end MollerFirmware
