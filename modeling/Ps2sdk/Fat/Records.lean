import Mathlib.Data.Nat.Bits
import Mathlib.Tactic.IntervalCases

/-!
# Cluster records

The three forms of a cluster record in a row of bytes. A FAT12 record takes three nibbles,
so that two records share a byte; a FAT16 record takes two bytes and a FAT32 record the low
28 bits of four bytes. The decoders and encoders of the driver are compared with the plain
reading: entry `c` of a FAT12 table is the number at nibble `3c`.
-/

namespace Ps2sdk.Fat

open Function Nat

variable (buf : ℕ → UInt8)

/-- `fat_getClusterRecord12`. -/
def getClusterRecord12 (type : ℕ) : ℕ :=
  if type ≠ 0 then ((buf 1).toNat <<< 4) + ((buf 0).toNat >>> 4)
  else (((buf 1).toNat &&& 0x0F) <<< 8) + (buf 0).toNat

variable (old : UInt8)

/-- The first byte of `fat_setClusterRecord12`, all of `fat_setClusterRecord12part1`. -/
def setClusterRecord12part1 (cluster type : ℕ) : UInt8 :=
  if type ≠ 0 then UInt8.ofNat ((old.toNat &&& 0x0F) + ((cluster &&& 0x0F) <<< 4))
  else UInt8.ofNat (cluster &&& 0xFF)

/-- The second byte of `fat_setClusterRecord12`, all of `fat_setClusterRecord12part2`. -/
def setClusterRecord12part2 (cluster type : ℕ) : UInt8 :=
  if type ≠ 0 then UInt8.ofNat ((cluster &&& 0xFF0) >>> 4)
  else UInt8.ofNat ((old.toNat &&& 0xF0) + ((cluster &&& 0xF00) >>> 8))

/-- `fat_setClusterRecord12` on the bytes at `offset`. -/
def setClusterRecord12 (offset cluster type : ℕ) : ℕ → UInt8 :=
  Function.update
    (Function.update buf offset (setClusterRecord12part1 (buf offset) cluster type))
    (offset + 1) (setClusterRecord12part2 (buf (offset + 1)) cluster type)

/-- `getI16`. -/
def getI16 : ℕ :=
  (buf 0).toNat + ((buf 1).toNat <<< 8)

/-- `getI32`. -/
def getI32 : ℕ :=
  (buf 0).toNat + ((buf 1).toNat <<< 8) + ((buf 2).toNat <<< 16) + ((buf 3).toNat <<< 24)

/-- The two bytes `fat_saveClusterRecord16` stores at `offset`. -/
def setClusterRecord16 (offset value : ℕ) : ℕ → UInt8 :=
  Function.update (Function.update buf offset (UInt8.ofNat (value &&& 0xFF)))
    (offset + 1) (UInt8.ofNat ((value &&& 0xFF00) >>> 8))

/-- The four bytes `fat_saveClusterRecord32` stores at `offset`; the top nibble stays. -/
def setClusterRecord32 (offset value : ℕ) : ℕ → UInt8 :=
  Function.update
    (Function.update
      (Function.update (Function.update buf offset (UInt8.ofNat (value &&& 0xFF)))
        (offset + 1) (UInt8.ofNat ((value &&& 0xFF00) >>> 8)))
      (offset + 2) (UInt8.ofNat ((value &&& 0xFF0000) >>> 16)))
    (offset + 3)
    (UInt8.ofNat (((buf (offset + 3)).toNat &&& 0xF0) + ((value >>> 24) &&& 0x0F)))

/-! ## FAT12: nibbles -/

/-- The nibbles of a row of bytes, the low one of each byte first. -/
def nibble (bytes : ℕ → UInt8) (k : ℕ) : ℕ :=
  (bytes (k / 2)).toNat / 16 ^ (k % 2) % 16

/-- Entry `c` of a FAT12 table: the twelve bits at nibble `3c`. -/
def entry12 (bytes : ℕ → UInt8) (c : ℕ) : ℕ :=
  nibble bytes (3 * c) + 16 * nibble bytes (3 * c + 1) + 256 * nibble bytes (3 * c + 2)

theorem nibble_even (bytes : ℕ → UInt8) (i : ℕ) : nibble bytes (2 * i) = (bytes i).toNat % 16 := by
  have hdiv : 2 * i / 2 = i := by omega
  have hmod : 2 * i % 2 = 0 := by omega
  simp [nibble, hdiv, hmod]

theorem nibble_odd (bytes : ℕ → UInt8) (i : ℕ) : nibble bytes (2 * i + 1) = (bytes i).toNat / 16 := by
  have hdiv : (2 * i + 1) / 2 = i := by omega
  have hmod : (2 * i + 1) % 2 = 1 := by omega
  have hlt := (bytes i).toNat_lt
  simp only [nibble, hdiv, hmod]
  omega

theorem and_0F (n : ℕ) : n &&& 0x0F = n % 16 := and_two_pow_sub_one_eq_mod n 4

theorem and_FF (n : ℕ) : n &&& 0xFF = n % 256 := and_two_pow_sub_one_eq_mod n 8

/-- Masking `k` bits from bit `s` on and moving them down. -/
theorem and_shiftRight (n s k : ℕ) : (n &&& (2 ^ k - 1) <<< s) >>> s = n / 2 ^ s % 2 ^ k := by
  rw [shiftRight_and_distrib, shiftLeft_shiftRight, and_two_pow_sub_one_eq_mod,
    shiftRight_eq_div_pow]

theorem and_F0 (b : UInt8) : b.toNat &&& 0xF0 = b.toNat / 16 * 16 := by
  have hall : ∀ n < 256, n &&& 0xF0 = n / 16 * 16 := by decide +kernel
  exact hall _ b.toNat_lt

/-- The driver decodes entry `c` from the two bytes that hold it. -/
theorem getClusterRecord12_eq (bytes : ℕ → UInt8) (c : ℕ) :
    getClusterRecord12 (fun k => bytes (3 * c / 2 + k)) (c % 2) = entry12 bytes c := by
  have hlt0 := (bytes (3 * c / 2)).toNat_lt
  have hlt1 := (bytes (3 * c / 2 + 1)).toNat_lt
  obtain heven | hodd := mod_two_eq_zero_or_one c
  · obtain ⟨i, rfl⟩ := dvd_of_mod_eq_zero heven
    have hpos : 3 * (2 * i) / 2 = 3 * i := by omega
    have h0 : 3 * (2 * i) = 2 * (3 * i) := by omega
    have h1 : 3 * (2 * i) + 1 = 2 * (3 * i) + 1 := by omega
    have h2 : 3 * (2 * i) + 2 = 2 * (3 * i + 1) := by omega
    rw [hpos] at hlt0 hlt1 ⊢
    rw [entry12, h1, h2, h0, nibble_even, nibble_odd, nibble_even, heven]
    simp only [getClusterRecord12, ne_eq, not_true_eq_false, if_false, and_0F,
      shiftLeft_eq, add_zero]
    omega
  · obtain ⟨i, rfl⟩ : ∃ i, c = 2 * i + 1 := ⟨c / 2, by omega⟩
    have hpos : 3 * (2 * i + 1) / 2 = 3 * i + 1 := by omega
    have h0 : 3 * (2 * i + 1) = 2 * (3 * i + 1) + 1 := by omega
    have h1 : 3 * (2 * i + 1) + 1 = 2 * (3 * i + 1 + 1) := by omega
    have h2 : 3 * (2 * i + 1) + 2 = 2 * (3 * i + 1 + 1) + 1 := by omega
    rw [hpos] at hlt0 hlt1 ⊢
    rw [entry12, h1, h2, h0, nibble_odd, nibble_even, nibble_odd, hodd]
    simp only [getClusterRecord12, ne_eq, one_ne_zero, not_false_eq_true, if_true,
      shiftLeft_eq, shiftRight_eq_div_pow, add_zero]
    omega

/-- Storing byte `i` sets nibbles `2i` and `2i + 1`. -/
theorem nibble_update (bytes : ℕ → UInt8) (i : ℕ) (b : UInt8) (k : ℕ) : nibble (update bytes i b) k =
      if k = 2 * i then b.toNat % 16 else if k = 2 * i + 1 then b.toNat / 16 else nibble bytes k := by
  by_cases h0 : k = 2 * i
  · rw [if_pos h0, h0, nibble_even, update_self]
  · by_cases h1 : k = 2 * i + 1
    · rw [if_neg h0, if_pos h1, h1, nibble_odd, update_self]
    · have hne : k / 2 ≠ i := by omega
      rw [if_neg h0, if_neg h1, nibble, update_of_ne hne, nibble]

theorem toNat_setClusterRecord12part1 (v type : ℕ) : (setClusterRecord12part1 old v type).toNat =
      if type ≠ 0 then old.toNat % 16 + v % 16 * 16 else v % 256 := by
  unfold setClusterRecord12part1
  split
  · rw [UInt8.toNat_ofNat', and_0F, and_0F, shiftLeft_eq]
    omega
  · rw [UInt8.toNat_ofNat', and_FF]
    omega

theorem toNat_setClusterRecord12part2 (v type : ℕ) : (setClusterRecord12part2 old v type).toNat =
      if type ≠ 0 then v / 16 % 256 else old.toNat / 16 * 16 + v / 256 % 16 := by
  have hold := old.toNat_lt
  unfold setClusterRecord12part2
  split
  · have hmask : (v &&& 0xFF0) >>> 4 = v / 16 % 256 := and_shiftRight v 4 8
    rw [UInt8.toNat_ofNat', hmask]
    omega
  · have hmask : (v &&& 0xF00) >>> 8 = v / 256 % 16 := and_shiftRight v 8 4
    rw [UInt8.toNat_ofNat', hmask, and_F0]
    omega

/-- Storing a FAT12 record sets the three nibbles of its entry and no other. -/
theorem nibble_setClusterRecord12 (bytes : ℕ → UInt8) (c v k : ℕ) :
    nibble (setClusterRecord12 bytes (3 * c / 2) v (c % 2)) k =
      if k = 3 * c then v % 16 else if k = 3 * c + 1 then v / 16 % 16
      else if k = 3 * c + 2 then v / 256 % 16 else nibble bytes k := by
  have hlow := nibble_even bytes (3 * c / 2)
  have hhigh := nibble_odd bytes (3 * c / 2 + 1)
  rw [setClusterRecord12, nibble_update, nibble_update, toNat_setClusterRecord12part1,
    toNat_setClusterRecord12part2]
  obtain heven | hodd := mod_two_eq_zero_or_one c
  · simp only [heven, ne_eq, not_true_eq_false, if_false]
    split_ifs <;> first | omega | (subst k; omega)
  · simp only [hodd, ne_eq, one_ne_zero, not_false_eq_true, if_true]
    split_ifs <;> first | omega | (subst k; omega)

theorem entry12_setClusterRecord12 (bytes : ℕ → UInt8) (c : ℕ) {v : ℕ} (hv : v < 0x1000) :
    entry12 (setClusterRecord12 bytes (3 * c / 2) v (c % 2)) c = v := by
  simp only [entry12, nibble_setClusterRecord12]
  split_ifs <;> omega

theorem entry12_setClusterRecord12_of_ne (bytes : ℕ → UInt8) {c d : ℕ} (v : ℕ) (hd : d ≠ c) :
    entry12 (setClusterRecord12 bytes (3 * c / 2) v (c % 2)) d = entry12 bytes d := by
  simp only [entry12, nibble_setClusterRecord12]
  split_ifs <;> omega

/-! ## FAT16 and FAT32: bytes -/

/-- Entry `c` of a FAT16 table. -/
def entry16 (bytes : ℕ → UInt8) (c : ℕ) : ℕ :=
  getI16 fun k => bytes (2 * c + k)

/-- The four bytes of record `c` of a FAT32 table as a number. -/
def record32 (bytes : ℕ → UInt8) (c : ℕ) : ℕ :=
  getI32 fun k => bytes (4 * c + k)

/-- Entry `c` of a FAT32 table: the low 28 bits of its record. -/
def entry32 (bytes : ℕ → UInt8) (c : ℕ) : ℕ :=
  record32 bytes c &&& 0xFFFFFFF

/-- The top nibble of a FAT32 record, which is not part of the entry. -/
def reserved32 (bytes : ℕ → UInt8) (c : ℕ) : ℕ :=
  record32 bytes c >>> 28

theorem entry16_eq (bytes : ℕ → UInt8) (c : ℕ) :
    entry16 bytes c = (bytes (2 * c)).toNat + 256 * (bytes (2 * c + 1)).toNat := by
  simp only [entry16, getI16, shiftLeft_eq, add_zero]
  omega

theorem record32_eq (bytes : ℕ → UInt8) (c : ℕ) :
    record32 bytes c = (bytes (4 * c)).toNat + (bytes (4 * c + 1)).toNat * 2 ^ 8 +
      (bytes (4 * c + 2)).toNat * 2 ^ 16 + (bytes (4 * c + 3)).toNat * 2 ^ 24 := by
  unfold record32 getI32
  simp only [shiftLeft_eq, add_zero]

theorem and_FFFFFFF (n : ℕ) : n &&& 0xFFFFFFF = n % 2 ^ 28 := by
  simpa using and_two_pow_sub_one_eq_mod n 28

section

variable (bytes : ℕ → UInt8)
include bytes

variable (c : ℕ)

theorem entry32_eq : entry32 bytes c = record32 bytes c % 2 ^ 28 :=
  and_FFFFFFF _

theorem reserved32_eq : reserved32 bytes c = (bytes (4 * c + 3)).toNat / 16 := by
  have h0 := (bytes (4 * c)).toNat_lt
  have h1 := (bytes (4 * c + 1)).toNat_lt
  have h2 := (bytes (4 * c + 2)).toNat_lt
  rw [reserved32, record32_eq, shiftRight_eq_div_pow]
  omega

theorem entry16_setClusterRecord16 {v : ℕ} (hv : v < 0x10000) :
    entry16 (setClusterRecord16 bytes (2 * c) v) c = v := by
  have hmask : (v &&& 0xFF00) >>> 8 = v / 256 % 256 := and_shiftRight v 8 8
  rw [entry16_eq, setClusterRecord16, update_of_ne (by omega), update_self,
    update_self, hmask, and_FF, UInt8.toNat_ofNat', UInt8.toNat_ofNat']
  omega

theorem entry16_setClusterRecord16_of_ne {c d : ℕ} (v : ℕ) (hd : d ≠ c) :
    entry16 (setClusterRecord16 bytes (2 * c) v) d = entry16 bytes d := by
  have hbyte : ∀ k, k ≠ 2 * c → k ≠ 2 * c + 1 → setClusterRecord16 bytes (2 * c) v k = bytes k :=
    fun k h0 h1 => by rw [setClusterRecord16, update_of_ne h1, update_of_ne h0]
  rw [entry16_eq, entry16_eq, hbyte _ (by omega) (by omega), hbyte _ (by omega) (by omega)]

/-- The bytes of a stored FAT32 record. -/
theorem toNat_setClusterRecord32 (offset v : ℕ) : (setClusterRecord32 bytes offset v offset).toNat = v % 256 ∧
      (setClusterRecord32 bytes offset v (offset + 1)).toNat = v / 2 ^ 8 % 256 ∧
      (setClusterRecord32 bytes offset v (offset + 2)).toNat = v / 2 ^ 16 % 256 ∧
      (setClusterRecord32 bytes offset v (offset + 3)).toNat =
        (bytes (offset + 3)).toNat / 16 * 16 + v / 2 ^ 24 % 16 := by
  have h1 : (v &&& 0xFF00) >>> 8 = v / 2 ^ 8 % 256 := and_shiftRight v 8 8
  have h2 : (v &&& 0xFF0000) >>> 16 = v / 2 ^ 16 % 256 := and_shiftRight v 16 8
  have hold := (bytes (offset + 3)).toNat_lt
  simp only [setClusterRecord32, update_apply, h1, h2, and_FF, and_F0, and_0F,
    shiftRight_eq_div_pow]
  refine ⟨by simp, by simp, by simp, ?_⟩
  simp
  omega

theorem setClusterRecord32_of_ne {offset k : ℕ} (v : ℕ)
    (hk : k < offset ∨ offset + 3 < k) : setClusterRecord32 bytes offset v k = bytes k := by
  rw [setClusterRecord32, update_of_ne (by omega), update_of_ne (by omega),
    update_of_ne (by omega), update_of_ne (by omega)]

theorem entry32_setClusterRecord32 {v : ℕ} (hv : v < 2 ^ 28) :
    entry32 (setClusterRecord32 bytes (4 * c) v) c = v := by
  obtain ⟨h0, h1, h2, h3⟩ := toNat_setClusterRecord32 bytes (4 * c) v
  rw [entry32_eq, record32_eq, h0, h1, h2, h3]
  omega

theorem reserved32_setClusterRecord32 (c v : ℕ) :
    reserved32 (setClusterRecord32 bytes (4 * c) v) c = reserved32 bytes c := by
  obtain ⟨-, -, -, h3⟩ := toNat_setClusterRecord32 bytes (4 * c) v
  rw [reserved32_eq, reserved32_eq, h3]
  omega

theorem record32_setClusterRecord32_of_ne {c d : ℕ} (v : ℕ) (hd : d ≠ c) :
    record32 (setClusterRecord32 bytes (4 * c) v) d = record32 bytes d := by
  rw [record32_eq, record32_eq, setClusterRecord32_of_ne bytes v (by omega),
    setClusterRecord32_of_ne bytes v (by omega), setClusterRecord32_of_ne bytes v (by omega),
    setClusterRecord32_of_ne bytes v (by omega)]

end

end Ps2sdk.Fat
