import Mathlib.Data.BitVec
import Mathlib.Data.List.TakeWhile
import Mathlib.Data.List.Basic
import Mathlib.Tactic

/-!
# Byte buffers and C strings

A buffer is the list of its bytes. `overwrite` is what every copy into a buffer
does; the lemmas say what it leaves alone. On it rest the functions of the C
library that work on strings: `strncpy`, which pads with zeros and may leave no
terminator, and `strncasecmp`, which compares at most `n` characters and stops
at the terminator.
-/

namespace MollerFirmware
namespace Memory

universe u

/-- `uint8_t` and `char` -/
abbrev Byte :=
  BitVec 8

section Overwrite

variable {α : Type u}

/-- Store `ws` in a buffer from index `off` on. -/
def overwrite (buf : List α) (off : Nat) (ws : List α) : List α :=
  buf.take off ++ ws ++ buf.drop (off + ws.length)

theorem length_overwrite
    {buf : List α} {off : Nat} {ws : List α}
    (hfits : off + ws.length ≤ buf.length) :
    (overwrite buf off ws).length = buf.length := by
  simp [overwrite]
  omega

/-- A store right behind the part of a cleared buffer that has been filled. -/
theorem overwrite_fill
    {pre : List α} (ws : List α) {z : α} {off : Nat} (m : Nat)
    (hoff : pre.length = off) :
    overwrite (pre ++ List.replicate m z) off ws =
      pre ++ ws ++ List.replicate (m - ws.length) z := by
  subst hoff
  unfold overwrite
  rw [List.take_left, List.drop_append]
  simp

/-- A store that stays in the front part of a buffer. -/
theorem overwrite_append
    {buf : List α} {off : Nat} {ws : List α} (rest : List α)
    (hfits : off + ws.length ≤ buf.length) :
    overwrite (buf ++ rest) off ws = overwrite buf off ws ++ rest := by
  unfold overwrite
  rw [List.take_append_of_le_length (by omega),
    List.drop_append_of_le_length hfits, List.append_assoc _ _ rest]

/-- The buffer holds `ws` from index `off` on. -/
def StoredAt (buf : List α) (off : Nat) (ws : List α) : Prop :=
  ∃ pre post, pre.length = off ∧ buf = pre ++ ws ++ post

theorem storedAt_append
    {pre : List α} {off : Nat} (ws : List α) (hoff : pre.length = off) :
    StoredAt (pre ++ ws) off ws :=
  ⟨pre, [], hoff, by simp⟩

/-- What follows a field does not matter. -/
theorem StoredAt.right
    {buf : List α} {off : Nat} {ws : List α}
    (h : StoredAt buf off ws) (post : List α) :
    StoredAt (buf ++ post) off ws := by
  obtain ⟨pre, post', hoff, rfl⟩ := h
  exact ⟨pre, post' ++ post, hoff, by simp⟩

theorem StoredAt.getD
    {buf : List α} {off : Nat} {ws : List α}
    (h : StoredAt buf off ws) {k : Nat} (hk : k < ws.length) (z : α) :
    buf.getD (off + k) z = ws[k] := by
  obtain ⟨pre, post, rfl, rfl⟩ := h
  rw [List.getD_eq_getElem?_getD, List.append_assoc,
    List.getElem?_append_right (by omega),
    List.getElem?_append_left (by omega), Nat.add_sub_cancel_left,
    List.getElem?_eq_getElem hk]
  rfl

/-- A store in the middle of a buffer. -/
theorem overwrite_middle
    {pre old ws : List α} {off : Nat} (post : List α)
    (hoff : pre.length = off) (hlen : ws.length = old.length) :
    overwrite (pre ++ old ++ post) off ws = pre ++ ws ++ post := by
  subst hoff
  unfold overwrite
  rw [List.append_assoc pre old post, List.take_left, List.drop_append, hlen]
  simp

end Overwrite

/-- A C string: its characters up to the terminator. -/
structure CString where
  chars : List Byte
  nonzero : ∀ c ∈ chars, c ≠ 0

/-- Bytes of a string literal. -/
def ascii (cs : List Char) : List Byte :=
  cs.map fun c => BitVec.ofNat 8 c.toNat

/-- The bytes that `strncpy` stores: at most `n` characters, then zeros. -/
def strncpyBytes (src : List Byte) (n : Nat) : List Byte :=
  src.take n ++ List.replicate (n - src.length) 0

@[simp] theorem length_strncpyBytes (src : List Byte) (n : Nat) :
    (strncpyBytes src n).length = n := by
  simp [strncpyBytes]
  omega

/-- Behind its last character a copied string reads as zero. -/
theorem getD_strncpyBytes
    (src rest : List Byte) {n k : Nat} (hk : k < n) :
    (strncpyBytes src n ++ rest).getD k 0 = src.getD k 0 := by
  have hlen := length_strncpyBytes src n
  rw [List.getD_eq_getElem?_getD, List.getD_eq_getElem?_getD,
    List.getElem?_append_left (by omega)]
  unfold strncpyBytes
  by_cases hend : k < src.length
  · rw [List.getElem?_append_left (by simp; omega), List.getElem?_take_of_lt hk]
  · rw [List.getElem?_append_right (by simp; omega),
      List.getElem?_eq_none (by omega : src.length ≤ k),
      List.getElem?_replicate]
    split_ifs <;> rfl

/-- `strncpy(&buf[off], src, n)` -/
def strncpy (buf : List Byte) (off : Nat) (src : List Byte) (n : Nat) :
    List Byte :=
  overwrite buf off (strncpyBytes src n)

/-- `tolower` in the C locale. -/
def tolower (c : Byte) : Byte :=
  if 0x41 ≤ c ∧ c ≤ 0x5A then c + 0x20 else c

/-- `strncasecmp`; past the end of a list the string has ended. -/
def strncasecmp : List Byte → List Byte → Nat → Int
  | _, _, 0 => 0
  | a, b, n + 1 =>
      let x := tolower (a.headD 0)
      let y := tolower (b.headD 0)
      if x ≠ y then (x.toNat : Int) - y.toNat
      else if x = 0 then 0
      else strncasecmp a.tail b.tail n

/-- No more than `n` characters are compared. -/
theorem strncasecmp_take
    (a b : List Byte) (n : Nat) :
    strncasecmp (a.take n) b n = strncasecmp a b n := by
  induction n generalizing a b with
  | zero =>
      rfl
  | succ n ih =>
      cases a with
      | nil => rfl
      | cons x a =>
          unfold strncasecmp
          simp only [List.take_succ_cons, List.headD_cons, List.tail_cons, ih]
          rfl

/-- Strings that agree up to case compare as equal. -/
theorem strncasecmp_eq_zero
    {a b : List Byte} {n : Nat}
    (h : ∀ k < n, tolower (a.getD k 0) = tolower (b.getD k 0)) :
    strncasecmp a b n = 0 := by
  induction n generalizing a b with
  | zero =>
      rfl
  | succ n ih =>
      have hhead : tolower (a.headD 0) = tolower (b.headD 0) := by
        simpa [List.headD_eq_head?_getD, List.getD_eq_getElem?_getD,
          List.head?_eq_getElem?] using h 0 (by omega)
      have htail : strncasecmp a.tail b.tail n = 0 := by
        refine ih (fun k hk => ?_)
        have hnext := h (k + 1) (by omega)
        simpa [List.getD_eq_getElem?_getD, List.getElem?_tail] using hnext
      unfold strncasecmp
      simp only [hhead, ne_eq, not_true_eq_false, if_false, htail, ite_self]

/-- The string that an array of characters holds: what precedes the first
terminator. -/
def cstr (buf : List Byte) : List Byte :=
  buf.takeWhile fun c => decide (c ≠ 0)

theorem cstr_of_nonzero {s : List Byte} (h : ∀ c ∈ s, c ≠ 0) :
    cstr s = s := by
  unfold cstr
  rw [List.takeWhile_eq_self_iff]
  exact fun c hc => decide_eq_true (h c hc)

/-- What follows a terminator is not part of the string. -/
theorem cstr_append_zero (s rest : List Byte) :
    cstr (s ++ 0 :: rest) = cstr s := by
  unfold cstr
  rw [List.takeWhile_append]
  split_ifs with hall
  · rw [List.takeWhile_cons_of_neg (by simp), List.append_nil,
      (List.takeWhile_prefix _).eq_of_length hall]
  · rfl

/-- The first character of a string, of which `n + 1` characters count. -/
theorem cstr_take_succ (a : List Byte) (n : Nat) :
    cstr (a.take (n + 1)) =
      if a.headD 0 = 0 then [] else a.headD 0 :: cstr (a.tail.take n) := by
  cases a with
  | nil => rfl
  | cons x a =>
      unfold cstr
      by_cases hx : x = 0
      · simp [hx]
      · simp [List.takeWhile_cons]

/-- Only the terminator is mapped to the terminator. -/
theorem tolower_eq_zero_iff (c : Byte) :
    tolower c = 0 ↔ c = 0 := by
  unfold tolower
  constructor
  · intro h
    split_ifs at h with hupper
    · obtain ⟨hlow, hhigh⟩ := hupper
      rw [BitVec.le_def] at hlow hhigh
      have hnat := congrArg BitVec.toNat h
      simp at hnat hlow hhigh
      omega
    · exact h
  · rintro rfl
    rfl

/-- **`strncasecmp` compares strings**: it gives zero exactly when the strings
in the first `n` characters agree up to case. -/
theorem strncasecmp_eq_zero_iff (a b : List Byte) (n : Nat) :
    strncasecmp a b n = 0 ↔
      (cstr (a.take n)).map tolower = (cstr (b.take n)).map tolower := by
  induction n generalizing a b with
  | zero =>
      simp [strncasecmp, cstr]
  | succ n ih =>
      have ih' := ih a.tail b.tail
      rw [cstr_take_succ, cstr_take_succ]
      unfold strncasecmp
      generalize a.headD 0 = x, b.headD 0 = y
      have hx := tolower_eq_zero_iff x
      have hy := tolower_eq_zero_iff y
      by_cases hxy : tolower x = tolower y
      · by_cases hx0 : x = 0
        · have hy0 : y = 0 := hy.mp (hxy ▸ hx.mpr hx0)
          have hlow : tolower y = 0 := hy.mpr hy0
          rw [if_pos hx0, if_pos hy0]
          simp [hxy, hlow]
        · have hy0 : y ≠ 0 := fun hy0 => hx0 (hx.mp (hxy ▸ hy.mpr hy0))
          have hlow : tolower y ≠ 0 := mt hy.mp hy0
          rw [if_neg hx0, if_neg hy0, List.map_cons, List.map_cons, hxy,
            if_neg (not_not_intro rfl), if_neg hlow, ih']
          simp
      · have hne : ((tolower x).toNat : Int) - (tolower y).toNat ≠ 0 := by
          intro h
          exact hxy (BitVec.eq_of_toNat_eq (by omega))
        have hlist : ¬ (if x = 0 then [] else x :: cstr (a.tail.take n)).map
            tolower = (if y = 0 then [] else y :: cstr (b.tail.take n)).map
            tolower := by
          split_ifs with hx0 hy0 hy0
          · exact fun _ => hxy (by rw [hx0, hy0])
          all_goals simp [hxy]
        simp only [ne_eq, hxy, not_false_eq_true, if_true, hne, hlist]

/-- Little-endian bytes of a 64-bit word. -/
def leBytes (x : BitVec 64) : List Byte :=
  (List.range 8).map fun k => (x >>> (8 * k)).setWidth 8

@[simp] theorem length_leBytes (x : BitVec 64) :
    (leBytes x).length = 8 := by
  simp [leBytes]

/-- The 64-bit word stored in little-endian order from index `off` on. -/
def readLe (buf : List Byte) (off : Nat) : BitVec 64 :=
  (List.range 8).foldl
    (fun x k => x ||| ((buf.getD (off + k) 0).setWidth 64 <<< (8 * k))) 0

/-- Reading the first `n` bytes of a word gives its low `8 * n` bits. -/
theorem getLsbD_foldl_bytes
    {f : Nat → Byte} {x : BitVec 64} {n : Nat}
    (hf : ∀ k < n, f k = (x >>> (8 * k)).setWidth 8) {i : Nat} (hi : i < 64) :
    ((List.range n).foldl
      (fun y k => y ||| ((f k).setWidth 64 <<< (8 * k))) 0).getLsbD i =
        (decide (i < 8 * n) && x.getLsbD i) := by
  induction n with
  | zero =>
      simp
  | succ n ih =>
      have ih' := ih (fun k hk => hf k (by omega))
      rw [List.range_succ, List.foldl_append, List.foldl_cons, List.foldl_nil,
        BitVec.getLsbD_or, ih', hf n (by omega)]
      simp only [BitVec.getLsbD_shiftLeft, BitVec.getLsbD_setWidth,
        BitVec.getLsbD_ushiftRight]
      by_cases hlow : i < 8 * n
      · simp [hlow, show i < 8 * (n + 1) by omega]
      · by_cases hhigh : i < 8 * (n + 1)
        · have hbit : 8 * n + (i - 8 * n) = i := by omega
          simp [hlow, hhigh, hi, hbit, show i - 8 * n < 8 by omega,
            show i - 8 * n < 64 by omega]
        · simp [hlow, hhigh, show ¬ (i - 8 * n < 8) by omega]

/-- **Little-endian round trip** -/
theorem StoredAt.readLe
    {buf : List Byte} {off : Nat} {x : BitVec 64}
    (h : StoredAt buf off (leBytes x)) :
    readLe buf off = x := by
  apply BitVec.eq_of_getLsbD_eq
  intro i hi
  have hbytes : ∀ k < 8, buf.getD (off + k) 0 = (x >>> (8 * k)).setWidth 8 := by
    intro k hk
    rw [h.getD (by simpa using hk)]
    simp [leBytes]
  unfold Memory.readLe
  rw [getLsbD_foldl_bytes hbytes hi]
  simp [hi]

example : readLe (leBytes 0x0123456789abcdef) 0 = 0x0123456789abcdef := by
  decide

/-- Little-endian bytes of a 32-bit word. -/
def leBytes32 (x : BitVec 32) : List Byte :=
  (List.range 4).map fun k => (x >>> (8 * k)).setWidth 8

@[simp] theorem length_leBytes32 (x : BitVec 32) :
    (leBytes32 x).length = 4 := by
  simp [leBytes32]

/-- The 32-bit word stored in little-endian order from index `off` on. -/
def readLe32 (buf : List Byte) (off : Nat) : BitVec 32 :=
  (List.range 4).foldl
    (fun x k => x ||| ((buf.getD (off + k) 0).setWidth 32 <<< (8 * k))) 0

/-- A word that lies in the front part of a buffer. -/
theorem readLe32_append
    {buf : List Byte} {off : Nat} (rest : List Byte)
    (hin : off + 4 ≤ buf.length) :
    readLe32 (buf ++ rest) off = readLe32 buf off := by
  unfold readLe32
  have hbyte (k : Nat) (hk : k < 4) :
      (buf ++ rest).getD (off + k) 0 = buf.getD (off + k) 0 := by
    rw [List.getD_eq_getElem?_getD, List.getD_eq_getElem?_getD,
      List.getElem?_append_left (by omega)]
  simp only [List.range_succ, List.range_zero, List.nil_append,
    List.foldl_append, List.foldl_cons, List.foldl_nil, hbyte 0 (by decide),
    hbyte 1 (by decide), hbyte 2 (by decide), hbyte 3 (by decide)]

end Memory
end MollerFirmware
