import MollerFirmware.Clocked.RingMemory
import MollerFirmware.Hdl.InfoPrepender

/-!
# The prepender with packets of one word

A packet of one word does not pass through `ST_DATA`, so its word reaches the
RAM with its mark. Its frame has four words, and the position of a word in the
stream of all frames is enough to know the state of the reader.

`Inv` is the invariant of a clock in which the RAM has room for what is
accepted. `Inv.next` shows that it is kept.
-/

namespace MollerFirmware
namespace InfoPrepender

open Clocked

variable {P : Params}

section Frames

/-- An output word in the RAM. -/
def toRam (x : Bool × BitVec 32) : BitVec 33 :=
  ramWord x.1 x.2

/-- The frames of packets of one word. -/
def oneWordFrames (P : Params) (ws : List Accepted) :
    List (Bool × BitVec 32) :=
  ws.flatMap fun w => frame P [w]

theorem frame_one (P : Params) (w : Accepted) :
    frame P [w] =
      [(false, P.id ++ (1 : BitVec 24)), (false, w.info.word0),
        (false, w.info.word1), (true, w.tdata)] := by
  rfl

theorem oneWordFrames_cons (P : Params) (w : Accepted) (ws : List Accepted) :
    oneWordFrames P (w :: ws) = frame P [w] ++ oneWordFrames P ws := by
  rfl

theorem oneWordFrames_snoc (P : Params) (ws : List Accepted) (w : Accepted) :
    oneWordFrames P (ws ++ [w]) = oneWordFrames P ws ++ frame P [w] := by
  unfold oneWordFrames
  rw [List.flatMap_append, List.flatMap_singleton]

@[simp] theorem length_oneWordFrames (P : Params) (ws : List Accepted) :
    (oneWordFrames P ws).length = 4 * ws.length := by
  induction ws with
  | nil => rfl
  | cons w ws ih =>
      rw [oneWordFrames_cons, List.length_append, ih, frame_one]
      simp only [List.length_cons, List.length_nil]
      omega

/-- Every fourth word is marked. -/
theorem oneWordFrames_mark (P : Params) (ws : List Accepted) (k : Nat)
    (hk : k < (oneWordFrames P ws).length) :
    ((oneWordFrames P ws)[k]).1 = decide (k % 4 = 3) := by
  induction ws generalizing k with
  | nil => exact absurd hk (Nat.not_lt_zero _)
  | cons w ws ih =>
      simp only [oneWordFrames_cons, frame_one]
      match k with
      | 0 => rfl
      | 1 => rfl
      | 2 => rfl
      | 3 => rfl
      | k + 4 =>
          rw [length_oneWordFrames, List.length_cons] at hk
          have hmark := ih k (by rw [length_oneWordFrames]; omega)
          rw [Nat.add_mod_right]
          exact hmark

end Frames

section Reader

/-- The word on the output. -/
def offered (s : State P) : List (Bool × BitVec 32) :=
  if s.rd.outTvalid then [(s.rd.outTlast, s.rd.outTdata)] else []

/-- The word that leaves in this clock. -/
def taken (s : State P) (i : Input) : List (Bool × BitVec 32) :=
  if outCaptured s i then [(s.rd.outTlast, s.rd.outTdata)] else []

/-- The reader fetches a word from the RAM. -/
def loads (s : State P) (i : Input) : Bool :=
  if outCaptured s i then !s.rd.outTlast
  else !s.rd.outTvalid && bufNotEmpty s

/-- Frames that have left when `n` words have been fetched. -/
def framesDone (s : State P) (n : Nat) : Nat :=
  if s.rd.outTvalid then (n - 1) / 4 else n / 4

/-- The reader has fetched the first `n` words of `E`, of which `out` have
left. -/
structure Reader (s : State P) (out E : List (Bool × BitVec 32)) (n : Nat) :
    Prop where
  le : n ≤ E.length
  shown : out ++ offered s = E.take n
  rdPos : s.rd.rdPos = BitVec.ofNat P.depthBits n
  last : s.rd.outTvalid = true → 1 ≤ n ∧ s.rd.outTlast = decide (n % 4 = 0)
  between : s.rd.outTvalid = false → n % 4 = 0
  outPkts : s.rd.outPkts = BitVec.ofNat P.szPkts (framesDone s n)

variable {s : State P} {i : Input} {out : List (Bool × BitVec 32)}
variable {ws : List Accepted} {n : Nat}

theorem Reader.sent_prefix {E : List (Bool × BitVec 32)}
    (h : Reader s out E n) :
    out <+: E := by
  have htake := List.take_prefix n E
  rw [← h.shown] at htake
  exact (List.prefix_append _ _).trans htake

/-- Frames that come behind do not matter. -/
theorem Reader.append {E : List (Bool × BitVec 32)} (h : Reader s out E n)
    (F : List (Bool × BitVec 32)) :
    Reader s out (E ++ F) n := by
  refine ⟨?_, ?_, h.rdPos, h.last, h.between, h.outPkts⟩
  · rw [List.length_append]
    exact h.le.trans (Nat.le_add_right _ _)
  · rw [List.take_append_of_le_length h.le]
    exact h.shown

theorem four_mul_framesDone_le (s : State P) (n : Nat) :
    4 * framesDone s n ≤ n := by
  unfold framesDone
  split_ifs <;> omega

/-- There is a word to be fetched. -/
theorem Reader.lt_of_loads (h : Reader s out (oneWordFrames P ws) n)
    (hpkts : s.wr.inPkts = BitVec.ofNat P.szPkts ws.length)
    (hloads : loads s i = true) :
    n < 4 * ws.length := by
  have hle := h.le
  rw [length_oneWordFrames] at hle
  refine lt_of_le_of_ne hle fun heq => ?_
  unfold loads at hloads
  cases hvalid : s.rd.outTvalid with
  | true =>
      -- in the middle of a frame
      have hmark := (h.last hvalid).2
      rw [show n % 4 = 0 by omega] at hmark
      simp [outCaptured, hvalid, hmark] at hloads
  | false =>
      -- between two frames, and all of them have been fetched
      have hdone := h.outPkts
      rw [framesDone, hvalid, if_neg (by simp),
        show n / 4 = ws.length by omega] at hdone
      simp [outCaptured, hvalid, bufNotEmpty, hpkts, hdone] at hloads

/-- The fetched word takes the place of the one that leaves, if there is one. -/
theorem Reader.taken_of_loads (h : Reader s out (oneWordFrames P ws) n)
    (hloads : loads s i = true) :
    taken s i = offered s ∧ framesDone s n = n / 4 := by
  unfold loads at hloads
  unfold offered taken framesDone
  cases hvalid : s.rd.outTvalid with
  | true =>
      obtain ⟨hpos, hlast⟩ := h.last hvalid
      cases hready : i.outTready with
      | true =>
          simp only [outCaptured, hvalid, hready, Bool.and_self, if_true,
            Bool.not_eq_true'] at hloads ⊢
          rw [hlast, decide_eq_false_iff_not] at hloads
          exact ⟨trivial, by omega⟩
      | false => simp [outCaptured, hvalid, hready] at hloads
  | false => simp [outCaptured, hvalid]

/-- A word is fetched. -/
theorem Reader.fetch (h : Reader s out (oneWordFrames P ws) n)
    (hn : n < (oneWordFrames P ws).length) (hloads : loads s i = true)
    (hword : rdWord s = toRam (oneWordFrames P ws)[n]) :
    Reader (step s i) (out ++ taken s i) (oneWordFrames P ws) (n + 1) ∧
      framesDone s n ≤ framesDone (step s i) (n + 1) := by
  obtain ⟨htaken, hdone⟩ := h.taken_of_loads hloads
  have hmark := oneWordFrames_mark P ws n hn
  have hnext : (step s i).rd =
      { outPkts := s.rd.outPkts
        rdPos := s.rd.rdPos + 1
        outTvalid := true
        outTlast := (oneWordFrames P ws)[n].1
        outTdata := (oneWordFrames P ws)[n].2 } := by
    unfold loads at hloads
    simp only [step, readNext, hword, toRam, ramTlast_ramWord, ramTdata_ramWord]
    cases hcap : outCaptured s i with
    | true =>
        rw [hcap, if_pos rfl, Bool.not_eq_true'] at hloads
        simp [hloads]
    | false =>
        rw [hcap, if_neg (by simp), Bool.and_eq_true,
          Bool.not_eq_true'] at hloads
        simp [hloads.1, hloads.2]
  have hdone' : framesDone (step s i) (n + 1) = n / 4 := by
    rw [framesDone, hnext, if_pos rfl, Nat.add_sub_cancel]
  refine ⟨⟨hn, ?_, ?_, fun _ => ⟨by omega, ?_⟩, ?_, ?_⟩, by rw [hdone', hdone]⟩
  · rw [offered, hnext, if_pos rfl, htaken, h.shown]
    exact List.take_concat_get' _ _ hn
  · rw [hnext, h.rdPos]
    exact ofNat_add_ofNat _ n 1
  · rw [hnext, hmark]
    exact decide_eq_decide.mpr (by omega)
  · intro hvalid
    rw [hnext] at hvalid
    exact absurd hvalid (by simp)
  · rw [hdone', ← hdone, ← h.outPkts, hnext]

/-- The last word of a frame leaves. -/
theorem Reader.finish (h : Reader s out (oneWordFrames P ws) n)
    (hcap : outCaptured s i = true) (hlast : s.rd.outTlast = true) :
    Reader (step s i) (out ++ taken s i) (oneWordFrames P ws) n ∧
      framesDone s n ≤ framesDone (step s i) n := by
  have hvalid := outTvalid_of_captured hcap
  obtain ⟨hpos, hmark⟩ := h.last hvalid
  have hfour : n % 4 = 0 := of_decide_eq_true (hmark.symm.trans hlast)
  have hnext : (step s i).rd =
      { outPkts := s.rd.outPkts + 1
        rdPos := s.rd.rdPos
        outTvalid := false
        outTlast := false
        outTdata := 0 } := by
    simp [step, readNext, hcap, hlast]
  have hdone' : framesDone (step s i) n = framesDone s n + 1 := by
    rw [framesDone, framesDone, hnext, hvalid, if_pos rfl, if_neg (by simp)]
    omega
  refine ⟨⟨h.le, ?_, ?_, ?_, fun _ => hfour, ?_⟩, by omega⟩
  · have hshown := h.shown
    rw [offered, hvalid, if_pos rfl] at hshown
    rw [taken, hcap, if_pos rfl, hshown, offered, hnext]
    exact List.append_nil _
  · rw [hnext, h.rdPos]
  · intro hv
    rw [hnext] at hv
    exact absurd hv (by simp)
  · rw [hdone', hnext, h.outPkts]
    exact ofNat_add_ofNat _ _ 1

/-- A clock that keeps the word on the output, or its absence. -/
theorem Reader.keep (h : Reader s out (oneWordFrames P ws) n)
    (hcap : outCaptured s i = false)
    (hvalid : (step s i).rd.outTvalid = s.rd.outTvalid)
    (hoffered : offered (step s i) = offered s)
    (hlast : s.rd.outTvalid = true → (step s i).rd.outTlast = s.rd.outTlast)
    (hrdPos : (step s i).rd.rdPos = s.rd.rdPos)
    (houtPkts : (step s i).rd.outPkts = s.rd.outPkts) :
    Reader (step s i) (out ++ taken s i) (oneWordFrames P ws) n ∧
      framesDone s n ≤ framesDone (step s i) n := by
  have hnone : taken s i = [] := by
    simp [taken, hcap]
  have hdone' : framesDone (step s i) n = framesDone s n := by
    unfold framesDone
    rw [hvalid]
  rw [hnone, List.append_nil]
  refine ⟨⟨h.le, ?_, ?_, ?_, ?_, ?_⟩, hdone'.ge⟩
  · rw [hoffered, h.shown]
  · rw [hrdPos, h.rdPos]
  · intro hv
    rw [hvalid] at hv
    rw [hlast hv]
    exact h.last hv
  · rw [hvalid]
    exact h.between
  · rw [hdone', houtPkts, h.outPkts]

/-- The word on the output waits for the receiver. -/
theorem Reader.wait (h : Reader s out (oneWordFrames P ws) n)
    (hcap : outCaptured s i = false) (hvalid : s.rd.outTvalid = true) :
    Reader (step s i) (out ++ taken s i) (oneWordFrames P ws) n ∧
      framesDone s n ≤ framesDone (step s i) n := by
  have hnext : (step s i).rd = s.rd := by
    simp [step, readNext, hcap, hvalid]
  have hoffered : offered (step s i) = offered s := by
    unfold offered
    rw [hnext]
  refine h.keep hcap ?_ hoffered ?_ ?_ ?_
  · rw [hnext]
  · rw [hnext]
    exact fun _ => rfl
  · rw [hnext]
  · rw [hnext]

/-- There is no frame to send. -/
theorem Reader.rest (h : Reader s out (oneWordFrames P ws) n)
    (hvalid : s.rd.outTvalid = false) (hempty : bufNotEmpty s = false) :
    Reader (step s i) (out ++ taken s i) (oneWordFrames P ws) n ∧
      framesDone s n ≤ framesDone (step s i) n := by
  have hcap : outCaptured s i = false := by
    simp [outCaptured, hvalid]
  have hnext : (step s i).rd =
      { outPkts := s.rd.outPkts
        rdPos := s.rd.rdPos
        outTvalid := false
        outTlast := false
        outTdata := 0 } := by
    simp [step, readNext, hcap, hvalid, hempty]
  have hoffered : offered (step s i) = offered s := by
    unfold offered
    rw [hnext, hvalid]
    rfl
  refine h.keep hcap ?_ hoffered ?_ ?_ ?_
  · rw [hnext, hvalid]
  · exact fun hv => absurd (hvalid.symm.trans hv) (by simp)
  · rw [hnext]
  · rw [hnext]

/-- What a clock does to the reader if the RAM holds the word that it
fetches. -/
theorem Reader.next (h : Reader s out (oneWordFrames P ws) n)
    (hpkts : s.wr.inPkts = BitVec.ofNat P.szPkts ws.length)
    (hword : ∀ hn : n < (oneWordFrames P ws).length, loads s i = true →
      rdWord s = toRam (oneWordFrames P ws)[n]) :
    Reader (step s i) (out ++ taken s i) (oneWordFrames P ws)
        (n + if loads s i then 1 else 0) ∧
      framesDone s n ≤
        framesDone (step s i) (n + if loads s i then 1 else 0) := by
  cases hloads : loads s i with
  | true =>
      have hn : n < (oneWordFrames P ws).length := by
        rw [length_oneWordFrames]
        exact h.lt_of_loads hpkts hloads
      exact h.fetch hn hloads (hword hn hloads)
  | false =>
      rw [if_neg (by simp), Nat.add_zero]
      unfold loads at hloads
      cases hcap : outCaptured s i with
      | true =>
          rw [hcap, if_pos rfl, Bool.not_eq_false'] at hloads
          exact h.finish hcap hloads
      | false =>
          rw [hcap, if_neg (by simp)] at hloads
          cases hvalid : s.rd.outTvalid with
          | true => exact h.wait hcap hvalid
          | false =>
              rw [hvalid, Bool.not_false, Bool.true_and] at hloads
              exact h.rest hvalid hloads

end Reader

section Ring

variable {D : Nat} {ram : BitVec D → BitVec 33}
variable {E : List (Bool × BitVec 32)} {n : Nat}
variable {old : List Accepted} {w : Accepted}

/-- From position `n` on the ring holds the words of `E` that have not been
fetched. -/
def Unread (ram : BitVec D → BitVec 33) (E : List (Bool × BitVec 32))
    (n : Nat) : Prop :=
  Holds ram n ((E.drop n).map toRam)

theorem Unread.head (h : Unread ram E n) (hn : n < E.length) :
    ram (BitVec.ofNat D n) = toRam E[n] := by
  unfold Unread at h
  rw [List.drop_eq_getElem_cons hn, List.map_cons, holds_cons] at h
  exact h.1

/-- After a word has been fetched, or not. -/
theorem Unread.fetch (h : Unread ram E n) (b : Bool)
    (hn : b = true → n < E.length) :
    Unread ram E (n + if b then 1 else 0) := by
  cases b with
  | true =>
      unfold Unread at h
      rw [List.drop_eq_getElem_cons (hn rfl), List.map_cons, holds_cons] at h
      exact h.2
  | false => exact h

/-- Two slots of a frame. -/
theorem slot_ne (hD : 4 ≤ 2 ^ D) (k : Nat) {a b : Nat} (ha : a < 4)
    (hb : b < 4) (hab : a ≠ b) :
    BitVec.ofNat D (4 * k + a) ≠ BitVec.ofNat D (4 * k + b) := by
  rcases Nat.lt_or_gt_of_ne hab with hlt | hlt
  · exact ofNat_ne_ofNat (by omega) (by omega)
  · exact (ofNat_ne_ofNat (by omega) (by omega)).symm

theorem slot_zero_ne (hD : 4 ≤ 2 ^ D) (k : Nat) {b : Nat} (h0 : 0 < b)
    (hb : b < 4) :
    BitVec.ofNat D (4 * k) ≠ BitVec.ofNat D (4 * k + b) :=
  ofNat_ne_ofNat (by omega) (by omega)

/-- The ring holds the frames of `old`, as far as they have not been fetched,
and the word of the packet behind them, and has room for its frame. -/
structure Contents (ram : BitVec D → BitVec 33) (old : List Accepted)
    (w : Accepted) (P : Params) (n : Nat) : Prop where
  le : n ≤ 4 * old.length
  room : 4 * (old.length + 1) ≤ n + 2 ^ D
  payload : ram (BitVec.ofNat D (4 * old.length + 3)) = ramWord true w.tdata
  unread : Unread ram (oneWordFrames P old) n

theorem Contents.four_le (h : Contents ram old w P n) : 4 ≤ 2 ^ D := by
  have hle := h.le
  have hroom := h.room
  omega

theorem Contents.fetch (h : Contents ram old w P n) (b : Bool)
    (hn : b = true → n < 4 * old.length) :
    Contents ram old w P (n + if b then 1 else 0) := by
  have hle := h.le
  have hroom := h.room
  refine ⟨?_, by omega, h.payload, h.unread.fetch b ?_⟩
  · cases b with
    | true => exact hn rfl
    | false => exact hle
  · rw [length_oneWordFrames]
    exact hn

/-- The slots in front of the word are free. -/
theorem Contents.update (h : Contents ram old w P n) {a : Nat} (ha : a < 3)
    (x : BitVec 33) :
    Contents
      (Function.update ram (BitVec.ofNat D (4 * old.length + a)) x)
      old w P n := by
  have hle := h.le
  have hroom := h.room
  refine ⟨hle, hroom, ?_, ?_⟩
  · rw [Function.update_of_ne
      (slot_ne h.four_le _ (by omega) (by omega) (by omega))]
    exact h.payload
  · refine h.unread.update_after ?_ (by omega)
    rw [List.length_map, List.length_drop, length_oneWordFrames]
    omega

/-- A complete frame joins the others. -/
theorem Contents.unread_snoc (h : Contents ram old w P n)
    (hheader : ram (BitVec.ofNat D (4 * old.length)) =
      ramWord false (P.id ++ (1 : BitVec 24)))
    (hword0 : ram (BitVec.ofNat D (4 * old.length + 1)) =
      ramWord false w.info.word0)
    (hword1 : ram (BitVec.ofNat D (4 * old.length + 2)) =
      ramWord false w.info.word1) :
    Unread ram (oneWordFrames P (old ++ [w])) n := by
  have hle : n ≤ (oneWordFrames P old).length := by
    rw [length_oneWordFrames]
    exact h.le
  unfold Unread
  rw [oneWordFrames_snoc, List.drop_append_of_le_length hle, List.map_append,
    holds_append]
  refine ⟨h.unread, ?_⟩
  rw [List.length_map, List.length_drop, Nat.add_sub_cancel' hle,
    length_oneWordFrames, frame_one]
  simp only [List.map_cons, List.map_nil, holds_cons, holds_nil, and_true]
  exact ⟨hheader, hword0, hword1, h.payload⟩

end Ring

section Writer

variable {s : State P} {i : Input} {out : List (Bool × BitVec 32)}
variable {ws old : List Accepted} {w : Accepted} {n : Nat}

/-- The writer waits for a packet. -/
structure Idle (s : State P) (ws : List Accepted) (n : Nat) : Prop where
  inState : s.wr.inState = .idle
  inPkts : s.wr.inPkts = BitVec.ofNat P.szPkts ws.length
  wrStart : s.wr.wrStart = BitVec.ofNat P.depthBits (4 * ws.length)
  /-- The slot of the next payload, or just after a packet the one of its second
  information word. -/
  wrPos : ws = [] ∨
    s.wr.wrPos = BitVec.ofNat P.depthBits (4 * ws.length + 3) ∨
    (n + 4 ≤ 4 * ws.length ∧
      s.wr.wrPos = BitVec.ofNat P.depthBits (4 * ws.length - 2))
  unread : Unread (ramNext s) (oneWordFrames P ws) n

/-- The frame of a packet is being completed. -/
structure Busy (s : State P) (old : List Accepted) (w : Accepted) (n : Nat) :
    Prop where
  inTready : s.wr.inTready = false
  inPkts : s.wr.inPkts = BitVec.ofNat P.szPkts old.length
  rInfo : s.wr.rInfo = w.info
  contents : Contents (ramNext s) old w P n

/-- How far the frame is. -/
inductive Stage (s : State P) (k : Nat) (w : Accepted) : Prop
  | wrLen
      (inState : s.wr.inState = .wrLen)
      (wrPos : s.wr.wrPos = BitVec.ofNat P.depthBits (4 * k + 3))
      (wrStart : s.wr.wrStart = BitVec.ofNat P.depthBits (4 * k))
      (wrCnt : s.wr.wrCnt = 1)
  | wrData1
      (inState : s.wr.inState = .wrData1)
      (wrPos : s.wr.wrPos = BitVec.ofNat P.depthBits (4 * k))
      (wrStart : s.wr.wrStart = BitVec.ofNat P.depthBits (4 * (k + 1)))
      (header : ramNext s (BitVec.ofNat P.depthBits (4 * k)) =
        ramWord false (P.id ++ (1 : BitVec 24)))
  | wrData2
      (inState : s.wr.inState = .wrData2)
      (wrPos : s.wr.wrPos = BitVec.ofNat P.depthBits (4 * k + 1))
      (wrStart : s.wr.wrStart = BitVec.ofNat P.depthBits (4 * (k + 1)))
      (header : ramNext s (BitVec.ofNat P.depthBits (4 * k)) =
        ramWord false (P.id ++ (1 : BitVec 24)))
      (word0 : ramNext s (BitVec.ofNat P.depthBits (4 * k + 1)) =
        ramWord false w.info.word0)

/-- Reader and writer together. -/
inductive Inv (s : State P) (out : List (Bool × BitVec 32))
    (ws : List Accepted) (n : Nat) : Prop
  | idle
      (reader : Reader s out (oneWordFrames P ws) n)
      (writer : Idle s ws n)
  | busy (old : List Accepted) (w : Accepted)
      (eq : ws = old ++ [w])
      (reader : Reader s out (oneWordFrames P old) n)
      (writer : Busy s old w n)
      (stage : Stage s old.length w)

/-- Away from the slot at `wr_pos` the reader sees the RAM. -/
theorem rdWord_of_apart (hapart : s.wr.wrPos ≠ s.rd.rdPos) :
    rdWord s = ramNext s s.rd.rdPos := by
  unfold rdWord ramNext
  rw [if_neg hapart]
  split_ifs
  · exact (Function.update_of_ne hapart.symm _ _).symm
  · rfl

theorem Reader.rdWord_eq (h : Reader s out (oneWordFrames P ws) n)
    (hunread : Unread (ramNext s) (oneWordFrames P ws) n)
    (hapart : s.wr.wrPos ≠ s.rd.rdPos)
    (hn : n < (oneWordFrames P ws).length) :
    rdWord s = toRam (oneWordFrames P ws)[n] := by
  rw [rdWord_of_apart hapart, h.rdPos]
  exact hunread.head hn

/-- A clock in which the writer writes to the RAM. -/
theorem ramNext_step (hena : (writeNext s i).wrEna = true) :
    ramNext (step s i) =
      Function.update (ramNext s) (writeNext s i).wrPos (writeNext s i).wrDat := by
  unfold ramNext
  exact if_pos hena

theorem ramNext_step_of_not (hena : (writeNext s i).wrEna = false) :
    ramNext (step s i) = ramNext s := by
  change (if (writeNext s i).wrEna then _ else ramNext s) = ramNext s
  rw [hena, if_neg (by simp)]

/-- Without a word the writer goes on waiting. -/
theorem Idle.wait (h : Idle s ws n)
    (hfetch : Unread (ramNext s) (oneWordFrames P ws)
      (n + if loads s i then 1 else 0))
    (hcap : inCaptured s i = false) :
    Idle (step s i) ws (n + if loads s i then 1 else 0) := by
  have hwr : writeNext s i = idleNext s i := by
    simp [writeNext, h.inState]
  have hnext : (step s i).wr =
      { s.wr with
        wrPos := s.wr.wrStart + 3
        wrCnt := 1
        wrDat := ramWord i.inTlast i.inTdata
        inTready := if pktsBelowMax s then true else false
        inState := .idle
        wrEna := false } := by
    change writeNext s i = _
    rw [hwr, idleNext, hcap, Bool.false_and, if_neg (by simp)]
  refine ⟨by rw [hnext], ?_, ?_, .inr (.inl ?_), ?_⟩
  · rw [hnext]
    exact h.inPkts
  · rw [hnext]
    exact h.wrStart
  · rw [hnext]
    change s.wr.wrStart + 3 = _
    rw [h.wrStart]
    exact ofNat_add_ofNat _ _ 3
  · rw [ramNext_step_of_not (congrArg WriteFsm.wrEna hnext)]
    exact hfetch

/-- The word of a packet is accepted. -/
theorem Idle.capture (h : Idle s ws n)
    (hle : (n + if loads s i then 1 else 0) ≤ 4 * ws.length)
    (hfetch : Unread (ramNext s) (oneWordFrames P ws)
      (n + if loads s i then 1 else 0))
    (hcap : inCaptured s i = true) (hena : i.enable = true)
    (hlast : i.inTlast = true)
    (hroom : 4 * (ws.length + 1) ≤
      (n + if loads s i then 1 else 0) + P.depth) :
    Busy (step s i) ws ⟨i.inTdata, i.info⟩ (n + if loads s i then 1 else 0) ∧
      Stage (step s i) ws.length ⟨i.inTdata, i.info⟩ := by
  have hwr : writeNext s i = idleNext s i := by
    simp [writeNext, h.inState]
  have hnext : writeNext s i =
      { s.wr with
        wrPos := s.wr.wrStart + 3
        wrCnt := 1
        wrDat := ramWord true i.inTdata
        inTready := false
        inState := .wrLen
        wrEna := true
        rInfo := i.info } := by
    rw [hwr, idleNext, hcap, hena, hlast]
    rfl
  have hpos : s.wr.wrStart + 3 =
      BitVec.ofNat P.depthBits (4 * ws.length + 3) := by
    rw [h.wrStart]
    exact ofNat_add_ofNat _ _ 3
  have hram : ramNext (step s i) =
      Function.update (ramNext s)
        (BitVec.ofNat P.depthBits (4 * ws.length + 3))
        (ramWord true i.inTdata) := by
    rw [ramNext_step (congrArg WriteFsm.wrEna hnext), hnext, ← hpos]
  constructor
  · refine ⟨congrArg WriteFsm.inTready hnext, ?_, congrArg WriteFsm.rInfo hnext,
      ⟨hle, hroom, ?_, ?_⟩⟩
    · exact (congrArg WriteFsm.inPkts hnext).trans h.inPkts
    · rw [hram]
      exact Function.update_self ..
    · rw [hram]
      refine hfetch.update_after ?_ ?_
      · rw [List.length_map, List.length_drop, length_oneWordFrames]
        omega
      · change _ < _ + P.depth
        omega
  · refine .wrLen (congrArg WriteFsm.inState hnext) ?_ ?_
      (congrArg WriteFsm.wrCnt hnext)
    · exact (congrArg WriteFsm.wrPos hnext).trans hpos
    · exact (congrArg WriteFsm.wrStart hnext).trans h.wrStart

/-- The header of a packet of one word. -/
theorem headerWord_one (hswap : P.endianSwap = false) :
    headerWord P 1 = P.id ++ (1 : BitVec 24) := by
  unfold headerWord
  rw [hswap]
  rfl

theorem infoWord_eq (hswap : P.endianSwap = false) (x : BitVec 32) :
    infoWord P x = x := by
  unfold infoWord
  rw [hswap]
  rfl

/-- `ST_WR_LEN` writes the header. -/
theorem Busy.writeHeader (h : Busy s old w n) (hswap : P.endianSwap = false)
    (hfetch : Contents (ramNext s) old w P (n + if loads s i then 1 else 0))
    (hstate : s.wr.inState = .wrLen)
    (hpos : s.wr.wrPos = BitVec.ofNat P.depthBits (4 * old.length + 3))
    (hstart : s.wr.wrStart = BitVec.ofNat P.depthBits (4 * old.length))
    (hcnt : s.wr.wrCnt = 1) :
    Busy (step s i) old w (n + if loads s i then 1 else 0) ∧
      Stage (step s i) old.length w := by
  have hnext : writeNext s i =
      { s.wr with
        inTready := false
        inState := .wrData1
        wrStart := s.wr.wrPos + 1
        wrPos := s.wr.wrStart
        wrEna := true
        wrDat := ramWord false (P.id ++ (1 : BitVec 24)) } := by
    simp only [writeNext, hstate, hcnt, headerWord_one hswap]
  have hram : ramNext (step s i) =
      Function.update (ramNext s)
        (BitVec.ofNat P.depthBits (4 * old.length + 0))
        (ramWord false (P.id ++ (1 : BitVec 24))) := by
    rw [ramNext_step (congrArg WriteFsm.wrEna hnext), hnext]
    change Function.update _ s.wr.wrStart _ = _
    rw [hstart]
    rfl
  refine ⟨⟨congrArg WriteFsm.inTready hnext, ?_, ?_, ?_⟩,
    .wrData1 (congrArg WriteFsm.inState hnext) ?_ ?_ ?_⟩
  · exact (congrArg WriteFsm.inPkts hnext).trans h.inPkts
  · exact (congrArg WriteFsm.rInfo hnext).trans h.rInfo
  · rw [hram]
    exact hfetch.update (by omega) _
  · exact (congrArg WriteFsm.wrPos hnext).trans hstart
  · refine (congrArg WriteFsm.wrStart hnext).trans ?_
    change s.wr.wrPos + 1 = _
    rw [hpos]
    exact ofNat_add_ofNat _ _ 1
  · rw [hram]
    exact Function.update_self ..

/-- `ST_WR_DATA1` writes the first information word. -/
theorem Busy.writeWord0 (h : Busy s old w n) (hswap : P.endianSwap = false)
    (hfetch : Contents (ramNext s) old w P (n + if loads s i then 1 else 0))
    (hstate : s.wr.inState = .wrData1)
    (hpos : s.wr.wrPos = BitVec.ofNat P.depthBits (4 * old.length))
    (hstart : s.wr.wrStart = BitVec.ofNat P.depthBits (4 * (old.length + 1)))
    (hheader : ramNext s (BitVec.ofNat P.depthBits (4 * old.length)) =
      ramWord false (P.id ++ (1 : BitVec 24))) :
    Busy (step s i) old w (n + if loads s i then 1 else 0) ∧
      Stage (step s i) old.length w := by
  have hnext : writeNext s i =
      { s.wr with
        inTready := false
        inState := .wrData2
        wrPos := s.wr.wrPos + 1
        wrEna := true
        wrDat := ramWord false w.info.word0 } := by
    simp only [writeNext, hstate, h.rInfo, infoWord_eq hswap]
  have hpos' : s.wr.wrPos + 1 =
      BitVec.ofNat P.depthBits (4 * old.length + 1) := by
    rw [hpos]
    exact ofNat_add_ofNat _ _ 1
  have hram : ramNext (step s i) =
      Function.update (ramNext s)
        (BitVec.ofNat P.depthBits (4 * old.length + 1))
        (ramWord false w.info.word0) := by
    rw [ramNext_step (congrArg WriteFsm.wrEna hnext), hnext, ← hpos']
  refine ⟨⟨congrArg WriteFsm.inTready hnext, ?_, ?_, ?_⟩,
    .wrData2 (congrArg WriteFsm.inState hnext) ?_ ?_ ?_ ?_⟩
  · exact (congrArg WriteFsm.inPkts hnext).trans h.inPkts
  · exact (congrArg WriteFsm.rInfo hnext).trans h.rInfo
  · rw [hram]
    exact hfetch.update (by omega) _
  · exact (congrArg WriteFsm.wrPos hnext).trans hpos'
  · exact (congrArg WriteFsm.wrStart hnext).trans hstart
  · rw [hram, Function.update_of_ne
      (slot_zero_ne hfetch.four_le _ (by omega) (by omega))]
    exact hheader
  · rw [hram]
    exact Function.update_self ..

/-- `ST_WR_DATA2` writes the second one and counts the packet. -/
theorem Busy.writeWord1 (h : Busy s old w n) (hswap : P.endianSwap = false)
    (hfetch : Contents (ramNext s) old w P (n + if loads s i then 1 else 0))
    (hstate : s.wr.inState = .wrData2)
    (hpos : s.wr.wrPos = BitVec.ofNat P.depthBits (4 * old.length + 1))
    (hstart : s.wr.wrStart = BitVec.ofNat P.depthBits (4 * (old.length + 1)))
    (hheader : ramNext s (BitVec.ofNat P.depthBits (4 * old.length)) =
      ramWord false (P.id ++ (1 : BitVec 24)))
    (hword0 : ramNext s (BitVec.ofNat P.depthBits (4 * old.length + 1)) =
      ramWord false w.info.word0) :
    Idle (step s i) (old ++ [w]) (n + if loads s i then 1 else 0) := by
  have hnext : writeNext s i =
      { s.wr with
        inPkts := s.wr.inPkts + 1
        inTready := false
        inState := .idle
        wrPos := s.wr.wrPos + 1
        wrEna := true
        wrDat := ramWord false w.info.word1 } := by
    simp only [writeNext, hstate, h.rInfo, infoWord_eq hswap]
  have hpos' : s.wr.wrPos + 1 =
      BitVec.ofNat P.depthBits (4 * old.length + 2) := by
    rw [hpos]
    exact ofNat_add_ofNat _ _ 1
  have hram : ramNext (step s i) =
      Function.update (ramNext s)
        (BitVec.ofNat P.depthBits (4 * old.length + 2))
        (ramWord false w.info.word1) := by
    rw [ramNext_step (congrArg WriteFsm.wrEna hnext), hnext, ← hpos']
  have hlen : (old ++ [w]).length = old.length + 1 := by
    rw [List.length_append]
    rfl
  refine ⟨congrArg WriteFsm.inState hnext, ?_, ?_, .inr (.inr ⟨?_, ?_⟩), ?_⟩
  · refine (congrArg WriteFsm.inPkts hnext).trans ?_
    change s.wr.inPkts + 1 = _
    rw [h.inPkts, hlen]
    exact ofNat_add_ofNat _ _ 1
  · rw [hlen]
    exact (congrArg WriteFsm.wrStart hnext).trans hstart
  · have hle := hfetch.le
    omega
  · rw [hlen]
    exact (congrArg WriteFsm.wrPos hnext).trans hpos'
  · rw [hram]
    refine (hfetch.update (by omega) _).unread_snoc ?_ ?_ ?_
    · rw [Function.update_of_ne
        (slot_zero_ne hfetch.four_le _ (by omega) (by omega))]
      exact hheader
    · rw [Function.update_of_ne
        (slot_ne hfetch.four_le _ (by omega) (by omega) (by omega))]
      exact hword0
    · exact Function.update_self ..

/-- One more word of the frame is written; after the third one the frame is
complete. -/
theorem Busy.next (h : Busy s old w n) (hstage : Stage s old.length w)
    (hswap : P.endianSwap = false)
    (hlt : loads s i = true → n < 4 * old.length) :
    (Busy (step s i) old w (n + if loads s i then 1 else 0) ∧
      Stage (step s i) old.length w) ∨
    Idle (step s i) (old ++ [w]) (n + if loads s i then 1 else 0) := by
  have hfetch := h.contents.fetch (loads s i) hlt
  cases hstage with
  | wrLen hstate hpos hstart hcnt =>
      exact .inl (h.writeHeader hswap hfetch hstate hpos hstart hcnt)
  | wrData1 hstate hpos hstart hheader =>
      exact .inl (h.writeWord0 hswap hfetch hstate hpos hstart hheader)
  | wrData2 hstate hpos hstart hheader hword0 =>
      exact .inr (h.writeWord1 hswap hfetch hstate hpos hstart hheader hword0)

/-- What a run of one-word packets must not do in a clock: accept a packet for
whose frame the RAM has no room, or fetch the word at `wr_pos`. -/
structure HasRoom (s : State P) (i : Input) (k n : Nat) : Prop where
  room : inCaptured s i = true →
    4 * (k + 1) ≤ (n + if loads s i then 1 else 0) + P.depth
  apart : loads s i = true → s.wr.wrPos ≠ s.rd.rdPos

/-- The word accepted in this clock. -/
def takenIn (s : State P) (i : Input) : List Accepted :=
  if inCaptured s i then [⟨i.inTdata, i.info⟩] else []

/-- A clock keeps the invariant. -/
theorem Inv.next (h : Inv s out ws n) (hswap : P.endianSwap = false)
    (hena : i.enable = true)
    (hone : inCaptured s i = true → i.inTlast = true)
    (hroom : HasRoom s i ws.length n) :
    Inv (step s i) (out ++ taken s i) (ws ++ takenIn s i)
        (n + if loads s i then 1 else 0) ∧
      framesDone s n ≤
        framesDone (step s i) (n + if loads s i then 1 else 0) := by
  cases h with
  | idle reader writer =>
      have hlt : loads s i = true → n < (oneWordFrames P ws).length := fun hl => by
        rw [length_oneWordFrames]
        exact reader.lt_of_loads writer.inPkts hl
      obtain ⟨hreader, hdone⟩ := reader.next writer.inPkts fun hn hl =>
        reader.rdWord_eq writer.unread (hroom.apart hl) hn
      have hfetch := writer.unread.fetch (loads s i) hlt
      refine ⟨?_, hdone⟩
      unfold takenIn
      cases hcap : inCaptured s i with
      | false =>
          rw [if_neg (by simp), List.append_nil]
          exact .idle hreader (writer.wait hfetch hcap)
      | true =>
          have hle := hreader.le
          rw [length_oneWordFrames] at hle
          obtain ⟨hbusy, hstage⟩ := writer.capture hle hfetch hcap hena
            (hone hcap) (hroom.room hcap)
          exact .busy ws _ rfl hreader hbusy hstage
  | busy old w heq reader writer stage =>
      have hnone : takenIn s i = [] := by
        simp [takenIn, inCaptured, writer.inTready]
      have hlt : loads s i = true → n < 4 * old.length :=
        reader.lt_of_loads writer.inPkts
      obtain ⟨hreader, hdone⟩ := reader.next writer.inPkts fun hn hl =>
        reader.rdWord_eq writer.contents.unread (hroom.apart hl) hn
      refine ⟨?_, hdone⟩
      rw [hnone, List.append_nil]
      rcases writer.next stage hswap hlt with ⟨hbusy, hstage⟩ | hidle
      · exact .busy old w heq hreader hbusy hstage
      · rw [heq]
        refine .idle ?_ hidle
        rw [oneWordFrames_snoc]
        exact hreader.append _

end Writer

end InfoPrepender
end MollerFirmware
