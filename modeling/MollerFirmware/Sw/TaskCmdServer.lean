import MollerFirmware.Hdl.MollerRegsRead
import MollerFirmware.Memory.Buffers

/-!
# task_cmd: the command server

`cmd_thread` answers requests of clients that read and write words of the
register map. It checks the length of a request, its command and that the word
lies in the map. It does not know which words of the map are registers, nor
which of these can be written: the bank answers such an access with `SLVERR`,
and the processor takes a bus error.
-/

namespace MollerFirmware
namespace TaskCmd

open Clocked Memory MollerRegs

/-! ## Accesses to the bank -/

/-- The bank as `moller_regmap_v1_0` instantiates it. -/
def bank : Params :=
  { baseaddr := 0
    axiAddrWidth := 9 }

/-- `MOLLER_DEFAULT_BASEADDR` -/
def baseaddr : Nat :=
  0x80000000

/-- `MOLLER_RANGE_BYTES` -/
def rangeBytes : Nat :=
  276

/-- The part of the address of `&moller_regmap[addr]` that reaches the bank. -/
def busAddr (addr : Nat) : Addr bank :=
  BitVec.ofNat 9 (baseaddr + 4 * addr)

/-- `moller_regmap[addr] = data`, without a result if the processor takes a bus
error. -/
def busWrite (regs : Regs) (addr : Nat) (data : BitVec 32) : Option Regs :=
  if writeResp bank (busAddr addr) = axiOkay then
    some (writeRegs bank (busAddr addr) data (BitVec.allOnes 4) regs)
  else none

/-- `moller_regmap[addr]` -/
def busRead (regs : Regs) (s : Status) (addr : Nat) : Option (BitVec 32) :=
  if readResp bank (busAddr addr) = axiOkay then
    some (readData bank (busAddr addr) regs s)
  else none

/-- Within the range of the map an address is that of the register at its
word. -/
theorem hits_busAddr {addr : Nat} (hrange : addr < rangeBytes / 4)
    (r : Register) :
    hits bank (busAddr addr) r = true ↔ r.word = addr := by
  have hpart : wordPart bank (busAddr addr) = BitVec.ofNat 7 addr := by
    refine BitVec.eq_of_toNat_eq ?_
    have hlt : addr < 69 := hrange
    simp [wordPart, busAddr, bank, baseaddr, Nat.shiftRight_eq_div_pow]
    omega
  have hbase : wordPart bank bank.baseaddr = 0 := by decide
  have hlt : addr < 69 := hrange
  have hword := r.word_lt
  rw [hits_iff, hpart, hbase, zero_add]
  constructor
  · intro heq
    have hnat : addr % 2 ^ 7 = r.word % 2 ^ 7 := congrArg BitVec.toNat heq
    omega
  · rintro rfl
    rfl

/-! ## The server loop -/

/-- `cmd_msg`, an array of 256 words -/
structure CmdMsg where
  bytes : List Byte
  length_bytes : bytes.length = 1024

/-- Store bytes at the start of the array as far as they fit: `zmq_recv`. -/
def CmdMsg.recv (b : CmdMsg) (msg : List Byte) : CmdMsg :=
  { bytes := overwrite b.bytes 0 (msg.take 1024)
    length_bytes := by
      rw [length_overwrite (by simp [b.length_bytes]), b.length_bytes] }

/-- `cmd_msg[k] = x` -/
def CmdMsg.set (b : CmdMsg) (k : Fin 256) (x : BitVec 32) : CmdMsg :=
  { bytes := overwrite b.bytes (4 * k) (leBytes32 x)
    length_bytes := by
      rw [length_overwrite, b.length_bytes]
      rw [length_leBytes32, b.length_bytes]
      omega }

/-- `cmd_msg[k]` -/
def CmdMsg.get (b : CmdMsg) (k : Fin 256) : BitVec 32 :=
  readLe32 b.bytes (4 * k)

/-- A character in a word of a message. -/
def letter (c : Char) : BitVec 32 :=
  BitVec.ofNat 32 c.toNat

/-- The buffer of the thread and the registers behind it. -/
structure Server where
  cmdMsg : CmdMsg
  regs : Regs

/-- A message from a client, and what the firmware shows while it is served. -/
structure Request where
  msg : List Byte
  status : Status

/-- `cmd_msg[0] = 'e'` and four bytes sent. -/
def refuse (b : CmdMsg) (regs : Regs) : Server × List Byte :=
  let b' := b.set 0 (letter 'e')
  (⟨b', regs⟩, b'.bytes.take 4)

/-- `cmd_msg[0] = 'r'`, `cmd_msg[1] = moller_regmap[addr]` and eight bytes
sent. -/
def report (b : CmdMsg) (regs : Regs) (s : Status) (addr : Nat) :
    Option (Server × List Byte) := do
  let x ← busRead regs s addr
  let b' := (b.set 0 (letter 'r')).set 1 x
  some (⟨b', regs⟩, b'.bytes.take 8)

/-- One message: the server afterwards and its reply. There is no result if the
processor takes a bus error. -/
def serve (s : Server) (q : Request) : Option (Server × List Byte) :=
  let b := s.cmdMsg.recv q.msg
  if q.msg.length = 12 then
    if b.get 0 = letter 'w' then
      let addr := (b.get 1).toNat
      let data := b.get 2
      if rangeBytes / 4 ≤ addr then some (refuse b s.regs)
      else do
        let regs ← busWrite s.regs addr data
        report b regs q.status addr
    else if b.get 0 = letter 'r' then
      let addr := (b.get 1).toNat
      if addr < rangeBytes / 4 then report b s.regs q.status addr
      else some (refuse b s.regs)
    else some (refuse b s.regs)
  else some (refuse b s.regs)

/-- The replies to some messages and the server after them, if it is still
there. -/
def serveAll (s : Server) : List Request → List (List Byte) × Option Server
  | [] => ([], some s)
  | q :: qs =>
      match serve s q with
      | none => ([], none)
      | some (s', reply) =>
          (reply :: (serveAll s' qs).1, (serveAll s' qs).2)

/-! ## What a request means -/

/-- What a request asks of the registers. -/
inductive Meaning where
  | refused
  | fault
  | write (reg : Register) (data : BitVec 32)
  | read (reg : Register)
deriving DecidableEq

/-- An access to a word of the map. Only the registers can be read, and only
the writable ones can be written. -/
def access (reading : Prop) [Decidable reading] (data : BitVec 32) :
    Option Register → Meaning
  | none => .fault
  | some reg =>
      if reading then .read reg
      else if reg.writable then .write reg data
      else .fault

/-- The meaning of a message: its three words are the command, the word address
and the data. -/
def meaning (msg : List Byte) : Meaning :=
  if msg.length = 12 ∧ (readLe32 msg 4).toNat < rangeBytes / 4 ∧
      (readLe32 msg 0 = letter 'w' ∨ readLe32 msg 0 = letter 'r') then
    access (readLe32 msg 0 = letter 'r') (readLe32 msg 8)
      (Register.atWord (readLe32 msg 4).toNat)
  else .refused

/-- The registers after a request. -/
def Meaning.apply (regs : Regs) : Meaning → Regs
  | .write reg data => regs.write data (BitVec.allOnes 4) reg
  | _ => regs

/-- The reply to a request. -/
def Meaning.reply (regs : Regs) (s : Status) : Meaning → List Byte
  | .refused => leBytes32 (letter 'e')
  | .fault => []
  | .write reg data => leBytes32 (letter 'r') ++ leBytes32 (data &&& reg.mask)
  | .read reg => leBytes32 (letter 'r') ++ leBytes32 (content regs s reg)

/-- The service of the command port: registers that are read and written one at
a time. -/
def desk : Service Regs Request (List Byte) :=
  { apply := fun regs q => (meaning q.msg).apply regs
    answer := fun regs q => (meaning q.msg).reply regs q.status }

/-! ## The buffer -/

theorem CmdMsg.get_recv (b : CmdMsg) {msg : List Byte} (k : Fin 256)
    (hin : 4 * k.val + 4 ≤ msg.length) (hshort : msg.length ≤ 1024) :
    (b.recv msg).get k = readLe32 msg (4 * k) := by
  show readLe32 (overwrite b.bytes 0 (msg.take 1024)) (4 * k) = _
  rw [List.take_of_length_le hshort, overwrite, List.take_zero, List.nil_append]
  exact readLe32_append _ hin

theorem CmdMsg.take_set_zero (b : CmdMsg) (x : BitVec 32) :
    (b.set 0 x).bytes.take 4 = leBytes32 x := by
  show (overwrite b.bytes 0 (leBytes32 x)).take 4 = _
  rw [overwrite, List.take_zero, List.nil_append]
  exact List.take_left' (length_leBytes32 x)

theorem CmdMsg.take_set_one (b : CmdMsg) (x y : BitVec 32) :
    ((b.set 0 x).set 1 y).bytes.take 8 = leBytes32 x ++ leBytes32 y := by
  show (overwrite (b.set 0 x).bytes 4 (leBytes32 y)).take 8 = _
  rw [overwrite, CmdMsg.take_set_zero]
  exact List.take_left' (by simp)

/-! ## The accesses -/

theorem busRead_of_word (regs : Regs) (s : Status) {reg : Register} :
    busRead regs s reg.word = some (content regs s reg) := by
  have hreg := (hits_busAddr reg.word_lt reg).mpr rfl
  rw [busRead, if_pos (readResp_of_hits hreg),
    readData_of_hits (by decide) hreg]

theorem busWrite_of_word (regs : Regs) (data : BitVec 32) (reg : Register) :
    busWrite regs reg.word data =
      if reg.writable then some (regs.write data (BitVec.allOnes 4) reg)
      else none := by
  have hreg := (hits_busAddr reg.word_lt reg).mpr rfl
  rw [busWrite]
  by_cases hw : reg.writable = true
  · rw [if_pos hw, if_pos ((writeResp_eq_okay_iff _).mpr ⟨reg, hw, hreg⟩),
      writeRegs_of_hits (by decide) hreg hw]
  · rw [if_neg hw, if_neg]
    intro hokay
    obtain ⟨other, hother, hhits⟩ := (writeResp_eq_okay_iff _).mp hokay
    exact hw (hits_unique (by decide) hhits hreg ▸ hother)

/-- A word of the map that is no register. -/
theorem bus_of_hole (regs : Regs) (s : Status) {addr : Nat}
    (hrange : addr < rangeBytes / 4) (hhole : Register.atWord addr = none)
    (data : BitVec 32) :
    busRead regs s addr = none ∧ busWrite regs addr data = none := by
  have hnone : Unmapped bank (busAddr addr) := by
    intro r
    by_contra hr
    exact Register.atWord_eq_none_iff.mp hhole r
      ((hits_busAddr hrange r).mp (by simpa using hr))
  constructor
  · rw [busRead, readResp_of_unmapped hnone]
    rfl
  · rw [busWrite, if_neg]
    intro hokay
    obtain ⟨r, -, hr⟩ := (writeResp_eq_okay_iff _).mp hokay
    exact absurd (hnone r) (by simp [hr])

/-! ## The server keeps to the service -/

/-- A request was served as the service would. -/
structure Kept (s : Server) (q : Request) (p : Server × List Byte) : Prop where
  regs : p.1.regs = desk.apply s.regs q
  reply : p.2 = desk.answer s.regs q

theorem kept_refuse {s : Server} {q : Request}
    (hmeaning : meaning q.msg = .refused) (b : CmdMsg) :
    Kept s q (refuse b s.regs) := by
  constructor
  · simp only [desk, hmeaning, Meaning.apply, refuse]
  · simp only [desk, hmeaning, Meaning.reply, refuse]
    exact b.take_set_zero _

theorem report_of_word (b : CmdMsg) (regs : Regs) (s : Status)
    (reg : Register) :
    ∃ p, report b regs s reg.word = some p ∧ p.1.regs = regs ∧
      p.2 = leBytes32 (letter 'r') ++ leBytes32 (content regs s reg) := by
  refine ⟨(⟨(b.set 0 (letter 'r')).set 1 (content regs s reg), regs⟩, _), ?_,
    rfl, b.take_set_one _ _⟩
  rw [report, busRead_of_word]
  rfl

theorem report_of_hole (b : CmdMsg) (regs : Regs) (s : Status) {addr : Nat}
    (hrange : addr < rangeBytes / 4) (hhole : Register.atWord addr = none) :
    report b regs s addr = none := by
  rw [report, (bus_of_hole regs s hrange hhole 0).1]
  rfl

/-- What a full write leaves is the data without the bits that the register
does not have. -/
theorem content_write_full (regs : Regs) (s : Status) (data : BitVec 32)
    {r : Register} (hw : r.writable = true) :
    content (regs.write data (BitVec.allOnes 4) r) s r =
      data &&& r.mask := by
  rw [content_write_self _ _ _ _ hw, strobed_allOnes _ _ (by decide)]
  simp

/-- A request within the range. -/
theorem serve_access {s : Server} {q : Request} (hlength : q.msg.length = 12)
    (hrange : (readLe32 q.msg 4).toNat < rangeBytes / 4)
    (hletter : readLe32 q.msg 0 = letter 'w' ∨ readLe32 q.msg 0 = letter 'r') :
    (meaning q.msg = .fault ∧ serve s q = none) ∨
      (meaning q.msg ≠ .fault ∧ ∃ p, serve s q = some p ∧ Kept s q p) := by
  have hmeaning : meaning q.msg =
      access (readLe32 q.msg 0 = letter 'r') (readLe32 q.msg 8)
        (Register.atWord (readLe32 q.msg 4).toNat) :=
    if_pos ⟨hlength, hrange, hletter⟩
  have hget0 : (s.cmdMsg.recv q.msg).get 0 = readLe32 q.msg 0 :=
    s.cmdMsg.get_recv 0 (by simp [hlength]) (by simp [hlength])
  have hget1 : (s.cmdMsg.recv q.msg).get 1 = readLe32 q.msg 4 :=
    s.cmdMsg.get_recv 1 (by simp [hlength]) (by simp [hlength])
  have hget2 : (s.cmdMsg.recv q.msg).get 2 = readLe32 q.msg 8 :=
    s.cmdMsg.get_recv 2 (by simp [hlength]) (by simp [hlength])
  have hwr : letter 'w' ≠ letter 'r' := by decide
  unfold serve
  simp only [hlength, if_true, hget0, hget1, hget2]
  generalize s.cmdMsg.recv q.msg = b
  rcases hletter with hletter | hletter
  · rw [if_pos hletter, if_neg (by omega)]
    cases hfind : Register.atWord (readLe32 q.msg 4).toNat with
    | none =>
        rw [(bus_of_hole s.regs q.status hrange hfind _).2]
        exact .inl ⟨by rw [hmeaning, hfind]; rfl, rfl⟩
    | some reg =>
        rw [hfind, access, if_neg (hletter ▸ hwr)] at hmeaning
        rw [← Register.atWord_eq_some_iff.mp hfind, busWrite_of_word]
        by_cases hw : reg.writable = true
        · rw [if_pos hw] at hmeaning ⊢
          obtain ⟨p, hp, hregs, hreply⟩ := report_of_word b
            (s.regs.write (readLe32 q.msg 8) (BitVec.allOnes 4) reg) q.status
            reg
          refine .inr ⟨by simp [hmeaning], p, hp, ?_, ?_⟩
          · simp only [desk, hmeaning, Meaning.apply, hregs]
          · simp only [desk, hmeaning, Meaning.reply, hreply,
              content_write_full _ _ _ hw]
        · rw [if_neg hw] at hmeaning ⊢
          exact .inl ⟨hmeaning, rfl⟩
  · rw [if_neg (hletter ▸ hwr.symm), if_pos hletter, if_pos hrange]
    cases hfind : Register.atWord (readLe32 q.msg 4).toNat with
    | none =>
        exact .inl ⟨by rw [hmeaning, hfind]; rfl,
          report_of_hole _ _ _ hrange hfind⟩
    | some reg =>
        rw [hfind, access, if_pos hletter] at hmeaning
        rw [← Register.atWord_eq_some_iff.mp hfind]
        obtain ⟨p, hp, hregs, hreply⟩ := report_of_word b s.regs q.status reg
        refine .inr ⟨by simp [hmeaning], p, hp, ?_, ?_⟩
        · simp only [desk, hmeaning, Meaning.apply, hregs]
        · simp only [desk, hmeaning, Meaning.reply, hreply]

/-- One message: the server does what the service does, unless the processor
takes a bus error. -/
theorem serve_cases (s : Server) (q : Request) :
    (meaning q.msg = .fault ∧ serve s q = none) ∨
      (meaning q.msg ≠ .fault ∧ ∃ p, serve s q = some p ∧ Kept s q p) := by
  by_cases hok : q.msg.length = 12 ∧
      (readLe32 q.msg 4).toNat < rangeBytes / 4 ∧
      (readLe32 q.msg 0 = letter 'w' ∨ readLe32 q.msg 0 = letter 'r')
  · exact serve_access hok.1 hok.2.1 hok.2.2
  · have hmeaning : meaning q.msg = .refused := if_neg hok
    refine .inr ⟨by simp [hmeaning], refuse (s.cmdMsg.recv q.msg) s.regs, ?_,
      kept_refuse hmeaning _⟩
    unfold serve
    by_cases hlength : q.msg.length = 12
    · have hget0 : (s.cmdMsg.recv q.msg).get 0 = readLe32 q.msg 0 :=
        s.cmdMsg.get_recv 0 (by simp [hlength]) (by simp [hlength])
      have hget1 : (s.cmdMsg.recv q.msg).get 1 = readLe32 q.msg 4 :=
        s.cmdMsg.get_recv 1 (by simp [hlength]) (by simp [hlength])
      simp only [hlength, if_true, hget0, hget1]
      split_ifs with hw hlow hr hlow
      · rfl
      · exact absurd ⟨hlength, by omega, .inl hw⟩ hok
      · exact absurd ⟨hlength, hlow, .inr hr⟩ hok
      · rfl
      · rfl
    · simp only [hlength, if_false]

/-! ## Bus errors -/

/-- A request that passes the checks of the server and is refused by the bank:
a read of one of the five words that are no register, or a write to a word that
is not a writable register. -/
def Faulty (msg : List Byte) : Prop :=
  msg.length = 12 ∧
    (readLe32 msg 0 = letter 'r' ∧
        59 ≤ (readLe32 msg 4).toNat ∧ (readLe32 msg 4).toNat < 64 ∨
      readLe32 msg 0 = letter 'w' ∧ (readLe32 msg 4).toNat < 69 ∧
        ¬ ((readLe32 msg 4).toNat = 17 ∨ (readLe32 msg 4).toNat = 18 ∨
          24 ≤ (readLe32 msg 4).toNat ∧ (readLe32 msg 4).toNat < 40 ∨
          64 ≤ (readLe32 msg 4).toNat))

instance (msg : List Byte) : Decidable (Faulty msg) := by
  unfold Faulty
  infer_instance

theorem access_read_iff :
    ∀ n < 69, access True 0 (Register.atWord n) = .fault ↔
      59 ≤ n ∧ n < 64 := by
  decide +kernel

theorem access_write_iff :
    ∀ n < 69, access False 0 (Register.atWord n) = .fault ↔
      ¬ (n = 17 ∨ n = 18 ∨ 24 ≤ n ∧ n < 40 ∨ 64 ≤ n) := by
  decide +kernel

/-- Whether an access is refused does not depend on the data. -/
theorem access_eq_fault_iff (reading : Prop) [Decidable reading]
    (data : BitVec 32) (o : Option Register) :
    access reading data o = .fault ↔ access reading 0 o = .fault := by
  cases o with
  | none => exact iff_of_true rfl rfl
  | some reg =>
      unfold access
      split_ifs <;> simp

theorem meaning_eq_fault_iff (msg : List Byte) :
    meaning msg = .fault ↔ Faulty msg := by
  have hwr : letter 'w' ≠ letter 'r' := by decide
  have hrange : rangeBytes / 4 = 69 := rfl
  unfold meaning Faulty
  simp only [hrange]
  generalize (readLe32 msg 4).toNat = addr
  split_ifs with h
  · obtain ⟨hlength, hrange, hletter⟩ := h
    rw [access_eq_fault_iff]
    rcases hletter with hw | hr
    · simp only [hw, hwr, hlength, hrange, true_and, false_and, false_or]
      exact access_write_iff addr hrange
    · simp only [hr, hwr.symm, hlength, true_and, false_and, or_false]
      exact access_read_iff addr hrange
  · refine iff_of_false (by simp) ?_
    rintro ⟨hlength, ⟨hr, hrest⟩ | ⟨hw, hrange, hrest⟩⟩
    · exact h ⟨hlength, by omega, .inr hr⟩
    · exact h ⟨hlength, hrange, .inl hw⟩

/-! ## Sessions -/

/-- **The command server.** Whatever the clients send, the requests before the
first faulty one are answered each once, in order, as by registers that are
read and written one at a time; nothing of earlier messages shows in a reply.
The thread is gone exactly if there was a faulty request. Otherwise the
registers are those of the service. -/
theorem session_answers (s : Server) (qs : List Request) :
    (serveAll s qs).1 =
        desk.answers s.regs (qs.takeWhile fun q => ¬ Faulty q.msg) ∧
      ((serveAll s qs).2 = none ↔ ∃ q ∈ qs, Faulty q.msg) ∧
      ∀ s', (serveAll s qs).2 = some s' → s'.regs = desk.after s.regs qs := by
  induction qs generalizing s with
  | nil => simp [serveAll, Service.answers]
  | cons q qs ih =>
      rcases serve_cases s q with ⟨hfault, hserve⟩ | ⟨hgood, p, hserve, hkept⟩
      · have hfaulty := (meaning_eq_fault_iff q.msg).mp hfault
        simp [serveAll, hserve, hfaulty, Service.answers]
      · have hfine : ¬ Faulty q.msg :=
          fun hfaulty => hgood ((meaning_eq_fault_iff q.msg).mpr hfaulty)
        obtain ⟨hreplies, hgone, hregs⟩ := ih p.1
        have hall : serveAll s (q :: qs) =
            (p.2 :: (serveAll p.1 qs).1, (serveAll p.1 qs).2) := by
          rw [serveAll, hserve]
        rw [hall, hkept.reply]
        rw [hkept.regs] at hreplies hregs
        refine ⟨?_, ?_, hregs⟩
        · simp only [List.takeWhile_cons, hfine, not_false_eq_true,
            decide_true, if_true, Service.answers, hreplies]
        · rw [hgone]
          simp [hfine]

end TaskCmd
end MollerFirmware
