import MollerFirmware.Hdl.MollerRegs

/-!
# moller_regs: the register map

No two registers share an address as long as the bus has at least nine address
bits, so an access concerns one register or none. What a write leaves in a
register is the strobed data without the bits that the register does not have.
-/

namespace MollerFirmware
namespace MollerRegs

open Clocked Memory

namespace Register

/-- Number of the 32 bit word that the register occupies. -/
def word (r : Register) : Nat :=
  r.offset.toNat / 4 + r.index

theorem mem_all (r : Register) : r ∈ all := by
  cases r <;> simp [all]

theorem nodup_words : (all.map word).Nodup := by
  decide +kernel

theorem nodup_all : all.Nodup :=
  nodup_words.of_map

theorem word_injective : Function.Injective word := by
  intro r r' heq
  exact List.inj_on_of_nodup_map nodup_words (mem_all r) (mem_all r') heq

/-- The map ends with word 68. -/
theorem word_lt (r : Register) : r.word < 69 := by
  cases r <;> simp [word, offset, index] <;> omega

/-- The register that occupies a word. -/
def atWord (n : Nat) : Option Register :=
  all.find? fun r => r.word = n

theorem atWord_eq_some_iff {n : Nat} {r : Register} :
    atWord n = some r ↔ r.word = n := by
  constructor
  · intro hfind
    simpa using List.find?_some hfind
  · intro hr
    obtain ⟨r', hr'⟩ : ∃ r', atWord n = some r' :=
      Option.isSome_iff_exists.mp
        (List.find?_isSome.mpr ⟨r, r.mem_all, by simpa using hr⟩)
    have hword : r'.word = n := by simpa using List.find?_some hr'
    rw [hr', word_injective (hword.trans hr.symm)]

theorem atWord_eq_none_iff {n : Nat} :
    atWord n = none ↔ ∀ r : Register, r.word ≠ n := by
  rw [Option.eq_none_iff_forall_ne_some]
  exact forall_congr' fun r => not_congr atWord_eq_some_iff

end Register

variable {P : Params}

theorem hits_iff (addr : Addr P) (r : Register) :
    hits P addr r = true ↔
      wordPart P addr =
        wordPart P P.baseaddr + BitVec.ofNat (P.axiAddrWidth - 2) r.word := by
  have hoffset : wordPart P r.offset =
      BitVec.ofNat (P.axiAddrWidth - 2) (r.offset.toNat / 4) := by
    refine BitVec.eq_of_toNat_eq ?_
    simp [wordPart, Nat.shiftRight_eq_div_pow]
  rw [hits, beq_iff_eq, hoffset, Register.word, BitVec.ofNat_add,
    BitVec.add_assoc]

/-- An address is that of one register at most. -/
theorem hits_unique (hwidth : 9 ≤ P.axiAddrWidth) {addr : Addr P}
    {r r' : Register} (hr : hits P addr r = true)
    (hr' : hits P addr r' = true) :
    r' = r := by
  have heq : BitVec.ofNat (P.axiAddrWidth - 2) r'.word =
      BitVec.ofNat (P.axiAddrWidth - 2) r.word := by
    have h := ((hits_iff addr r').mp hr').symm.trans ((hits_iff addr r).mp hr)
    exact add_left_cancel h
  have hfit : 69 ≤ 2 ^ (P.axiAddrWidth - 2) :=
    calc 69 ≤ 2 ^ 7 := by decide
      _ ≤ 2 ^ (P.axiAddrWidth - 2) :=
          Nat.pow_le_pow_right (by decide) (by omega)
  have hword : r'.word = r.word := by
    have hnat := congrArg BitVec.toNat heq
    have hlt := r.word_lt
    have hlt' := r'.word_lt
    rwa [BitVec.toNat_ofNat, BitVec.toNat_ofNat, Nat.mod_eq_of_lt (by omega),
      Nat.mod_eq_of_lt (by omega)] at hnat
  exact Register.word_injective hword

/-! ## Accesses -/

/-- No register has the address. -/
def Unmapped (P : Params) (addr : Addr P) : Prop :=
  ∀ r, hits P addr r = false

theorem readResp_of_hits {addr : Addr P} {r : Register}
    (hr : hits P addr r = true) :
    readResp P addr = axiOkay := by
  rw [readResp, if_pos]
  exact List.any_eq_true.mpr ⟨r, r.mem_all, hr⟩

/-- Into a cleared `v_rdata_r` a register puts its content. -/
theorem drive_zero (regs : Regs) (s : Status) (r : Register) :
    drive regs s r 0 = content regs s r := by
  simp [drive]

theorem readData_of_hits (hwidth : 9 ≤ P.axiAddrWidth) {addr : Addr P}
    {r : Register} (hr : hits P addr r = true) (regs : Regs) (s : Status) :
    readData P addr regs s = content regs s r := by
  have honly := foldl_select Register.nodup_all r.mem_all hr
    (fun r' _ hr' => hits_unique hwidth hr hr')
    (fun d r' => drive regs s r' d) 0
  rw [readData, honly, drive_zero]

theorem readResp_of_unmapped {addr : Addr P} (h : Unmapped P addr) :
    readResp P addr = axiSlverr := by
  rw [readResp, if_neg]
  simp [h _]

theorem readData_of_unmapped {addr : Addr P} (h : Unmapped P addr)
    (regs : Regs) (s : Status) :
    readData P addr regs s = 0 := by
  rw [readData]
  exact foldl_select_none (fun r _ => h r) (fun d r' => drive regs s r' d) 0

theorem writeResp_eq_okay_iff (addr : Addr P) :
    writeResp P addr = axiOkay ↔
      ∃ r : Register, r.writable = true ∧ hits P addr r = true := by
  rw [writeResp]
  split_ifs with h
  · obtain ⟨r, -, hr⟩ := List.any_eq_true.mp h
    exact iff_of_true rfl ⟨r, by simpa [writeHits] using hr⟩
  · refine iff_of_false (by decide) ?_
    rintro ⟨r, hw, hr⟩
    exact h (List.any_eq_true.mpr ⟨r, r.mem_all, by simp [writeHits, hw, hr]⟩)

theorem writeRegs_of_hits (hwidth : 9 ≤ P.axiAddrWidth) {addr : Addr P}
    {r : Register} (hr : hits P addr r = true) (hw : r.writable = true)
    (wdata : BitVec 32) (wstrb : BitVec 4) (regs : Regs) :
    writeRegs P addr wdata wstrb regs = regs.write wdata wstrb r := by
  rw [writeRegs]
  refine foldl_select Register.nodup_all r.mem_all
    (by simp [writeHits, hw, hr]) (fun r' _ hr' => ?_)
    (fun rs r' => Regs.write rs wdata wstrb r') regs
  exact hits_unique hwidth hr (by simp_all [writeHits])

/-- A write that is refused changes nothing. -/
theorem writeRegs_of_slverr {addr : Addr P}
    (h : writeResp P addr ≠ axiOkay) (wdata : BitVec 32) (wstrb : BitVec 4)
    (regs : Regs) :
    writeRegs P addr wdata wstrb regs = regs := by
  rw [writeRegs]
  refine foldl_select_none (fun r _ => ?_)
    (fun rs r' => Regs.write rs wdata wstrb r') regs
  by_contra hr
  refine h ((writeResp_eq_okay_iff addr).mpr ⟨r, ?_⟩)
  simpa [writeHits] using hr

/-! ## Contents -/

/-- The unused bits of `adc_ctrl` read as zero. -/
theorem adcCtrl_masked {high : BitVec 4} {low : BitVec 8} {lowest : BitVec 16}
    (spare : BitVec 4) :
    (high ++ 0#4 ++ low ++ lowest : BitVec 32) =
      (high ++ spare ++ low ++ lowest) &&& Register.adcCtrl.mask := by
  have hmask : Register.adcCtrl.mask =
      BitVec.allOnes 4 ++ 0#4 ++ BitVec.allOnes 8 ++ BitVec.allOnes 16 := by
    decide
  rw [hmask]
  refine Eq.trans ?_ BitVec.and_append.symm
  rw [BitVec.and_append, BitVec.and_append]
  simp only [BitVec.and_allOnes, BitVec.and_zero]

/-- So do those above a delay. -/
theorem adcDelayIn_masked {value : BitVec 9} (i : Fin 16) (spare : BitVec 23) :
    (0#23 ++ value : BitVec 32) =
      (spare ++ value) &&& (Register.adcDelayIn i).mask := by
  have hmask : (Register.adcDelayIn i).mask = 0#23 ++ BitVec.allOnes 9 := by
    show 0x000001FF#32 = _
    decide
  rw [hmask]
  refine Eq.trans ?_ BitVec.and_append.symm
  rw [BitVec.and_allOnes, BitVec.and_zero]

/-- What a write leaves in its register: the strobed data without the bits that
the register does not have. -/
theorem content_write_self (regs : Regs) (s : Status) (wdata : BitVec 32)
    (wstrb : BitVec 4) {r : Register} (hw : r.writable = true) :
    content (regs.write wdata wstrb r) s r =
      strobed wdata wstrb 0 (content regs s r) &&& r.mask := by
  have hfull (x : BitVec 32) : x &&& 0xFFFFFFFF = x := BitVec.and_allOnes
  cases r with
  | streamCtrl =>
      simp only [content, Regs.write, Register.mask, hfull, ← strobed_append]
  | adcCtrl =>
      simp only [content, Regs.write, ← strobed_append]
      exact adcCtrl_masked _
  | adcDelayIn i =>
      simp only [content, Regs.write, ← strobed_append, Function.update_self]
      exact adcDelayIn_masked i _
  | macAddrHi => simp only [content, Regs.write, Register.mask, hfull]
  | macAddrLo => simp only [content, Regs.write, Register.mask, hfull]
  | udpDestIp => simp only [content, Regs.write, Register.mask, hfull]
  | udpDstPort =>
      simp only [content, Regs.write, Register.mask, hfull, ← strobed_append]
  | udpSrcPort =>
      simp only [content, Regs.write, Register.mask, hfull, ← strobed_append]
  | _ => exact absurd hw Bool.false_ne_true

/-- A write leaves the other registers alone. -/
theorem content_write_of_ne (regs : Regs) (s : Status) (wdata : BitVec 32)
    (wstrb : BitVec 4) {r r' : Register} (hne : r' ≠ r) :
    content (regs.write wdata wstrb r) s r' = content regs s r' := by
  cases r with
  | adcDelayIn i =>
      cases r' with
      | adcDelayIn j =>
          have hji : j ≠ i := fun heq => hne (by rw [heq])
          simp only [content, Regs.write, Function.update_of_ne hji]
      | _ => rfl
  | _ =>
      cases r' <;> first | exact absurd rfl hne | rfl

end MollerRegs
end MollerFirmware
