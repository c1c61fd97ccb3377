import Mathlib.Algebra.Group.Nat.Defs
import Mathlib.Data.Int.Basic
import Mathlib.Data.List.FinRange

/-!
# The USB mass-storage sector cache

The routines of `scache.c` over an explicit cache record. A slot holds one block of
4096 bytes, that is several device sectors; clients receive the address of one sector
inside the slot buffer. Addresses are integers relative to `sectorBuf`, since a failed
write-back hands its negative return value on as a buffer index. The slot scores wrap
as 32-bit integers and are compared unsigned with the unsigned minimum, as in the source.
The device answers each transfer with the next scripted outcome.

`Mirrors` relates a cache to the array of sectors it shows: every valid slot shows its whole
block, a clean slot agrees with the device, and so does every sector outside the cache.
-/

namespace Ps2sdk.Usb

/-- `BLOCK_SIZE`: the bytes of one cache slot. -/
def blockSize : ℕ := 4096

/-- `CACHE_SIZE`: the number of cache slots. -/
def cacheSize : ℕ := 32

/-- The sector number of an unused slot. -/
def unusedSector : ℕ := 0xFFFFFFF0

/-- `cache_record`: the first sector of the slot's block, its score and its dirty mark. -/
structure CacheRecord where
  sector : ℕ
  tax : BitVec 32
  writeDirty : Bool

/-- The outcome of one transfer; a failed one may leave arbitrary bytes behind. -/
inductive TransferOutcome
  | completed
  | failed (garbage : ℤ → UInt8)

/-- `mass_dev`: the bytes of every sector and the outcomes of the coming transfers. -/
structure MassDev where
  sectorSize : ℕ
  sectors : ℕ → ℕ → UInt8
  outcomes : List TransferOutcome

/-- `cache_set`. -/
structure CacheSet where
  dev : MassDev
  sectorSize : ℕ
  indexLimit : ℕ
  sectorBuf : ℤ → UInt8
  recs : Fin cacheSize → CacheRecord
  writeFlag : ℕ

variable (dev : MassDev)

/-- Copy `count` sectors to the given buffer address. -/
def MassDev.copyOut (sector count : ℕ) (mem : ℤ → UInt8) (buffer : ℤ) : ℤ → UInt8 :=
  fun a =>
    if buffer ≤ a ∧ a < buffer + count * dev.sectorSize then
      dev.sectors (sector + (a - buffer).toNat / dev.sectorSize) ((a - buffer).toNat % dev.sectorSize)
    else mem a

/-- Overwrite `count` sectors from the given buffer address. -/
def MassDev.copyIn (sector count : ℕ) (mem : ℤ → UInt8) (buffer : ℤ) : ℕ → ℕ → UInt8 :=
  fun t j =>
    if sector ≤ t ∧ t < sector + count then mem (buffer + (t - sector : ℕ) * dev.sectorSize + j)
    else dev.sectors t j

/-- `mass_stor_readSector`: the sector count, or `-EIO` with the buffer spoiled. -/
def massStorReadSector (sector : ℕ) (mem : ℤ → UInt8) (buffer : ℤ) (count : ℕ) : ℤ × MassDev × (ℤ → UInt8) :=
  match dev.outcomes with
  | .failed garbage :: rest =>
    (-5, { dev with outcomes := rest },
      fun a => if buffer ≤ a ∧ a < buffer + count * dev.sectorSize then garbage a else mem a)
  | outcomes =>
    (count, { dev with outcomes := outcomes.tail }, dev.copyOut sector count mem buffer)

/-- `mass_stor_writeSector`: the sector count, or `-EIO` with the sectors spoiled. -/
def massStorWriteSector (sector : ℕ) (mem : ℤ → UInt8) (buffer : ℤ) (count : ℕ) : ℤ × MassDev :=
  match dev.outcomes with
  | .failed garbage :: rest =>
    (-5, { dev with sectors := dev.copyIn sector count garbage buffer, outcomes := rest })
  | outcomes =>
    (count, { dev with sectors := dev.copyIn sector count mem buffer, outcomes := outcomes.tail })

/-- `scache_init` and `initRecords`; the buffer is whatever the allocator returned. -/
def scacheInit (sectSize : ℕ) (sectorBuf : ℤ → UInt8) : CacheSet where
  dev := dev
  sectorSize := sectSize
  indexLimit := blockSize / sectSize
  sectorBuf := sectorBuf
  recs := fun _ => ⟨unusedSector, 0, false⟩
  writeFlag := 0

variable (cache : CacheSet)

/-- The slot test: the block of a record contains the sector, in 32-bit arithmetic. -/
def CacheSet.hit (i : Fin cacheSize) (sector : ℕ) : Bool :=
  decide ((cache.recs i).sector ≤ sector) &&
    decide (sector < ((cache.recs i).sector + cache.indexLimit) % 2 ^ 32)

variable (sector : ℕ)

/-- `getSlot`: the first slot whose block contains the sector. -/
def getSlot : Option (Fin cacheSize) :=
  (List.finRange cacheSize).find? fun i => cache.hit i sector

/-- The score of one slot after a lookup. -/
def chargeTax (r : CacheRecord) (hit : Bool) : CacheRecord :=
  if hit then { r with tax := (if r.tax.slt 0 then 0 else r.tax) + 2 - 1 }
  else { r with tax := r.tax - 1 }

/-- The last slot whose block contains the sector, as the lookup loop leaves it. -/
def lastSlot : Option (Fin cacheSize) :=
  (List.finRange cacheSize).foldl
    (fun index i => if cache.hit i sector then some i else index) none

/-- `getIndexRead`: the sector's index in the slot buffer, or `-1`; every slot is taxed. -/
def getIndexRead : ℤ × CacheSet :=
  let taxed := { cache with recs := fun i => chargeTax (cache.recs i) (cache.hit i sector) }
  match lastSlot cache sector with
  | none => (-1, taxed)
  | some i => (i.val * cache.indexLimit + (sector - (cache.recs i).sector), taxed)

/-- The slot with the least score, read as an unsigned number, and slot 0 if none is small. -/
def victimSlot : Fin cacheSize :=
  ((List.finRange cacheSize).foldl
    (fun best i => if (cache.recs i).tax < best.2 then (i, (cache.recs i).tax) else best)
    ((⟨0, by decide⟩ : Fin cacheSize), (0x0FFFFFFF : BitVec 32))).1

/-- `getIndexWrite`: evict a slot for the block, writing it back first when dirty. -/
def getIndexWrite : ℤ × CacheSet :=
  let index := victimSlot cache
  let relabel (c : CacheSet) : ℤ × CacheSet :=
    (index.val * cache.indexLimit,
      { c with
        recs := Function.update c.recs index
          { c.recs index with tax := (c.recs index).tax + 2, sector := sector } })
  if (cache.recs index).writeDirty then
    let (ret, dev) := massStorWriteSector cache.dev (cache.recs index).sector cache.sectorBuf
      (index.val * blockSize) (blockSize / cache.sectorSize)
    if ret < 0 then (ret, { cache with dev := dev })
    else relabel { cache with
      dev := dev
      recs := Function.update cache.recs index { cache.recs index with writeDirty := false } }
  else relabel cache

/-- The write-back loop of `scache_flushSectors`. -/
def flushSlots : List (Fin cacheSize) → ℤ → CacheSet → ℤ × CacheSet
  | [], counter, cache => (counter, { cache with writeFlag := 0 })
  | i :: rest, counter, cache =>
    if (cache.recs i).writeDirty then
      let (ret, dev) := massStorWriteSector cache.dev (cache.recs i).sector cache.sectorBuf
        (i.val * blockSize) (blockSize / cache.sectorSize)
      if ret < 0 then (ret, { cache with dev := dev })
      else flushSlots rest (counter + 1) { cache with
        dev := dev
        recs := Function.update cache.recs i { cache.recs i with writeDirty := false } }
    else flushSlots rest counter cache

/-- `scache_flushSectors`. -/
def scacheFlushSectors : ℤ × CacheSet :=
  if cache.writeFlag = 0 then (0, cache) else flushSlots (List.finRange cacheSize) 0 cache

/-- The first sector of the block of a sector. -/
def CacheSet.alignedSector : ℕ :=
  sector / cache.indexLimit * cache.indexLimit

/-- `scache_readSector`: the return value, the sector's buffer address and the new cache. -/
def scacheReadSector : ℤ × Option ℤ × CacheSet :=
  let (index, cache) := getIndexRead cache sector
  if 0 ≤ index then (cache.sectorSize, some (index * cache.sectorSize), cache)
  else
    let alignedSector := cache.alignedSector sector
    let (index, cache) := getIndexWrite cache alignedSector
    let (ret, dev, mem) := massStorReadSector cache.dev alignedSector cache.sectorBuf
      (index * cache.sectorSize) (blockSize / cache.sectorSize)
    let cache := { cache with dev := dev, sectorBuf := mem }
    if ret < 0 then (ret, none, cache)
    else (cache.sectorSize,
      some (index * cache.sectorSize + (sector % cache.indexLimit : ℕ) * cache.sectorSize), cache)

/-- `scache_allocSector`: like a read, but a missing block is not fetched. -/
def scacheAllocSector : ℤ × Option ℤ × CacheSet :=
  let (index, cache) := getIndexRead cache sector
  if 0 ≤ index then (cache.sectorSize, some (index * cache.sectorSize), cache)
  else
    let (index, cache) := getIndexWrite cache (cache.alignedSector sector)
    (cache.sectorSize,
      some (index * cache.sectorSize + (sector % cache.indexLimit : ℕ) * cache.sectorSize), cache)

/-- `scache_writeSector`: mark the sector's slot dirty, or `-1` when no slot holds it. -/
def scacheWriteSector : ℤ × CacheSet :=
  match getSlot cache sector with
  | none => (-1, cache)
  | some i =>
    (cache.sectorSize, { cache with
      recs := Function.update cache.recs i
        { cache.recs i with tax := (cache.recs i).tax + 2, writeDirty := true }
      writeFlag := (cache.writeFlag + 1) % 2 ^ 32 })

open Function List Nat

/-- The caller stores one sector of data at the returned buffer address. -/
def CacheSet.fill (buf : ℤ) (data : ℕ → UInt8) : CacheSet :=
  { cache with
    sectorBuf := fun a =>
      if buf ≤ a ∧ a < buf + cache.sectorSize then data (a - buf).toNat else cache.sectorBuf a }

/-- A slot that holds a block. -/
def CacheSet.Valid (i : Fin cacheSize) : Prop :=
  (cache.recs i).sector ≠ unusedSector

/-- The block of a slot contains the sector. -/
def CacheSet.Covers (i : Fin cacheSize) (t : ℕ) : Prop :=
  (cache.recs i).sector ≤ t ∧ t < (cache.recs i).sector + cache.indexLimit

/-- The cache shows the array `mem`, except possibly in the buffer of the slot `hole`. -/
structure MirrorsBut (hole : Option (Fin cacheSize)) (cache : CacheSet) (mem : ℕ → ℕ → UInt8) :
    Prop where
  limit : cache.indexLimit * cache.sectorSize = blockSize
  aligned : cache.indexLimit ∣ unusedSector
  device : cache.dev.sectorSize = cache.sectorSize
  quiet : cache.dev.outcomes = []
  slot : ∀ i, cache.Valid i →
    cache.indexLimit ∣ (cache.recs i).sector ∧
      (cache.recs i).sector + cache.indexLimit ≤ unusedSector
  unused : ∀ i, ¬ cache.Valid i → (cache.recs i).writeDirty = false
  distinct : ∀ i j, cache.Valid i → (cache.recs i).sector = (cache.recs j).sector → i = j
  block : ∀ i, hole ≠ some i → cache.Valid i → ∀ k < cache.indexLimit, ∀ j < cache.sectorSize,
    cache.sectorBuf (i.val * blockSize + k * cache.sectorSize + j) =
      mem ((cache.recs i).sector + k) j
  clean : ∀ i, cache.Valid i → (cache.recs i).writeDirty = false →
    ∀ t, cache.Covers i t → ∀ j < cache.sectorSize, cache.dev.sectors t j = mem t j
  uncached : ∀ t, (∀ i, cache.Valid i → ¬ cache.Covers i t) →
    ∀ j < cache.sectorSize, cache.dev.sectors t j = mem t j
  counted : cache.writeFlag = 0 → ∀ i, (cache.recs i).writeDirty = false

/-- The cache shows the array `mem`. -/
def Mirrors (mem : ℕ → ℕ → UInt8) : Prop := MirrorsBut none cache mem

variable {sector : ℕ} {i : Fin cacheSize}

/-- Aligned blocks of one length that share a sector are the same block. -/
theorem alignedBlock_unique {limit a b t : ℕ} (ha : limit ∣ a) (hb : limit ∣ b)
    (hta : a ≤ t ∧ t < a + limit) (htb : b ≤ t ∧ t < b + limit) : a = b := by
  obtain ⟨c, rfl⟩ := ha
  obtain ⟨d, rfl⟩ := hb
  have hc : t / limit = c := Nat.div_eq_of_lt_le (by rw [Nat.mul_comm]; exact hta.1)
    (by rw [Nat.succ_mul, Nat.mul_comm]; exact hta.2)
  have hd : t / limit = d := Nat.div_eq_of_lt_le (by rw [Nat.mul_comm]; exact htb.1)
    (by rw [Nat.succ_mul, Nat.mul_comm]; exact htb.2)
  rw [← hc, ← hd]

/-- The lookup loop reports a slot that contains the sector, if there is one. -/
theorem lastSlot_spec (cache : CacheSet) (sector : ℕ) :
    match lastSlot cache sector with
    | none => ∀ i, cache.hit i sector = false | some i => cache.hit i sector = true := by
  have loop (slots : List (Fin cacheSize)) (index : Option (Fin cacheSize))
      (hindex : ∀ i, index = some i → cache.hit i sector = true) :
      match slots.foldl (fun index i => if cache.hit i sector then some i else index) index with
      | none => index = none ∧ ∀ i ∈ slots, cache.hit i sector = false
      | some i => cache.hit i sector = true := by
    induction slots generalizing index with
    | nil =>
      cases hi : index with
      | none => simp
      | some i => exact hindex i hi
    | cons i rest ih =>
      rw [foldl_cons]
      by_cases hit : cache.hit i sector = true
      · have h := ih (some i) (fun j hj => by injection hj with hj; exact hj ▸ hit)
        rw [if_pos hit]
        split at h
        · exact absurd h.1 (by simp)
        · exact h
      · have h := ih index hindex
        rw [if_neg hit]
        split at h
        · refine ⟨h.1, fun j hj => ?_⟩
          rcases mem_cons.mp hj with rfl | hj
          · exact Bool.eq_false_iff.mpr hit
          · exact h.2 j hj
        · exact h
  have h := loop (finRange cacheSize) none (by simp)
  unfold lastSlot
  split at h
  · exact fun i => h.2 i (mem_finRange i)
  · exact h

theorem getSlot_hit {cache : CacheSet} (h : getSlot cache sector = some i) : cache.hit i sector = true := by
  unfold getSlot at h
  exact find?_some (p := fun i => cache.hit i sector) h

theorem getSlot_isSome {cache : CacheSet} (h : cache.hit i sector = true) : (getSlot cache sector).isSome :=
  find?_isSome.mpr ⟨i, mem_finRange i, h⟩

namespace MirrorsBut

variable {hole : Option (Fin cacheSize)} {cache : CacheSet} {mem : ℕ → ℕ → UInt8}

section

variable (h : MirrorsBut hole cache mem)
include h

/-- Below the marker the 32-bit slot test is the integer one. -/
theorem hit_iff (hs : sector < unusedSector)
    (i : Fin cacheSize) : cache.hit i sector = true ↔ cache.Valid i ∧ cache.Covers i sector := by
  simp only [CacheSet.hit, Bool.and_eq_true, decide_eq_true_eq, CacheSet.Covers]
  by_cases hv : cache.Valid i
  · have hslot := (h.slot i hv).2
    rw [mod_eq_of_lt (lt_of_le_of_lt hslot (by decide))]
    exact ⟨fun hh => ⟨hv, hh⟩, fun hh => hh.2⟩
  · have hu : (cache.recs i).sector = unusedSector := not_not.mp hv
    constructor
    · intro hh
      omega
    · intro hh
      exact absurd hh.1 hv

theorem covers_unique {j : Fin cacheSize} {t : ℕ}
    (hi : cache.Valid i) (hj : cache.Valid j) (hti : cache.Covers i t) (htj : cache.Covers j t) : i = j := by
  exact h.distinct i j hi (alignedBlock_unique (h.slot i hi).1 (h.slot j hj).1 hti htj)

theorem valid_of_dirty (hd : (cache.recs i).writeDirty = true) : cache.Valid i := by
  intro hv
  have hunused := h.unused i (not_not.mpr hv)
  rw [hd] at hunused
  exact absurd hunused (by decide)

theorem sizes_pos : 0 < cache.indexLimit ∧ 0 < cache.sectorSize := by
  have hl := h.limit
  constructor <;> apply Nat.pos_of_ne_zero <;> intro h0 <;> simp [h0, blockSize] at hl

theorem transferCount : blockSize / cache.sectorSize = cache.indexLimit := by
  rw [← h.limit]
  exact Nat.mul_div_cancel _ h.sizes_pos.2

/-- Slot scores are irrelevant to what the cache shows. -/
theorem of_same_blocks (recs : Fin cacheSize → CacheRecord) (hsector : ∀ i, (recs i).sector = (cache.recs i).sector)
    (hdirty : ∀ i, (recs i).writeDirty = (cache.recs i).writeDirty) :
    MirrorsBut hole { cache with recs := recs } mem where
  limit := h.limit
  aligned := h.aligned
  device := h.device
  quiet := h.quiet
  slot i hv := by
    simp only [CacheSet.Valid, hsector] at hv ⊢
    exact h.slot i hv
  unused i hv := by
    simp only [CacheSet.Valid, hsector, hdirty] at hv ⊢
    exact h.unused i hv
  distinct i j hv hij := by
    simp only [CacheSet.Valid, hsector] at hv hij
    exact h.distinct i j hv hij
  block i hhole hv := by
    simp only [CacheSet.Valid, hsector] at hv ⊢
    exact h.block i hhole hv
  clean i hv hd t ht := by
    simp only [CacheSet.Valid, CacheSet.Covers, hsector, hdirty] at hv hd ht ⊢
    exact h.clean i hv hd t ht
  uncached t ht := by
    simp only [CacheSet.Valid, CacheSet.Covers, hsector] at ht ⊢
    exact h.uncached t ht
  counted h0 i := by
    simp only [hdirty]
    exact h.counted h0 i

/-- Writing a slot back stores exactly what the array holds for its block. -/
theorem writeBack_sectors (hhole : hole ≠ some i) (hv : cache.Valid i) (t j : ℕ) (hj : j < cache.sectorSize) :
    cache.dev.copyIn (cache.recs i).sector cache.indexLimit cache.sectorBuf (i.val * blockSize) t j =
      if (cache.recs i).sector ≤ t ∧ t < (cache.recs i).sector + cache.indexLimit then mem t j
      else cache.dev.sectors t j := by
  unfold MassDev.copyIn
  split
  · next ht =>
    have hblock := h.block i hhole hv (t - (cache.recs i).sector) (by omega) j hj
    rw [Nat.add_sub_cancel' ht.1] at hblock
    rw [h.device]
    exact hblock
  · rfl

/-- Writing a slot back and clearing its mark changes nothing the cache shows. -/
theorem cleaned (hhole : hole ≠ some i) (hv : cache.Valid i) : MirrorsBut hole
      { cache with
        dev := { cache.dev with
          sectors := cache.dev.copyIn (cache.recs i).sector cache.indexLimit cache.sectorBuf
            (i.val * blockSize) }
        recs := update cache.recs i { cache.recs i with writeDirty := false } } mem := by
  have hsector : ∀ j, (update cache.recs i
      { cache.recs i with writeDirty := false } j).sector = (cache.recs j).sector := by
    intro j
    by_cases hji : j = i
    · subst hji
      simp
    · simp [hji]
  have hdirty : ∀ j, (cache.recs j).writeDirty = false → (update cache.recs i
      { cache.recs i with writeDirty := false } j).writeDirty = false := by
    intro j hj
    by_cases hji : j = i
    · subst hji
      simp
    · simpa [hji] using hj
  refine ⟨h.limit, h.aligned, h.device, h.quiet, ?_, ?_, ?_, ?_, ?_, ?_, ?_⟩
  · intro j hj
    simp only [CacheSet.Valid, hsector] at hj ⊢
    exact h.slot j hj
  · intro j hj
    simp only [CacheSet.Valid, hsector] at hj
    exact hdirty j (h.unused j hj)
  · intro j k hj hjk
    simp only [CacheSet.Valid, hsector] at hj hjk
    exact h.distinct j k hj hjk
  · intro j hne hj
    simp only [CacheSet.Valid, hsector] at hj ⊢
    exact h.block j hne hj
  · intro j hj hd t ht b hb
    simp only [CacheSet.Valid, CacheSet.Covers, hsector] at hj ht
    change cache.dev.copyIn _ _ _ _ t b = mem t b
    rw [h.writeBack_sectors hhole hv t b hb]
    split
    · rfl
    · next hti =>
      refine h.clean j hj ?_ t ht b hb
      have hji : j ≠ i := fun hji => hti (hji ▸ ht)
      simpa [hji] using hd
  · intro t ht b hb
    simp only [CacheSet.Valid, CacheSet.Covers, hsector] at ht
    change cache.dev.copyIn _ _ _ _ t b = mem t b
    rw [h.writeBack_sectors hhole hv t b hb, if_neg (ht i hv)]
    exact h.uncached t ht b hb
  · intro h0 j
    exact hdirty j (h.counted h0 j)

end

/-- Giving a clean slot to an aligned block that no slot holds leaves only its buffer to fill. -/
theorem relabelled (h : MirrorsBut none cache mem) {v : Fin cacheSize} {b : ℕ} {tax : BitVec 32}
    (hclean : (cache.recs v).writeDirty = false) (hdvd : cache.indexLimit ∣ b)
    (hb : b + cache.indexLimit ≤ unusedSector) (hnew : ∀ i, cache.Valid i → (cache.recs i).sector ≠ b) :
    MirrorsBut (some v)
      { cache with recs := update cache.recs v { cache.recs v with tax := tax, sector := b } }
      mem := by
  have hpos := h.sizes_pos
  have hbne : b ≠ unusedSector := by omega
  have hother : ∀ i, i ≠ v → update cache.recs v
      { cache.recs v with tax := tax, sector := b } i = cache.recs i := by
    intro i hi
    simp [hi]
  have hfresh : ∀ i, cache.Valid i → ∀ t, cache.Covers i t → ¬ (b ≤ t ∧ t < b + cache.indexLimit) := by
    intro i hi t ht htb
    exact hnew i hi (alignedBlock_unique (h.slot i hi).1 hdvd ht htb)
  refine ⟨h.limit, h.aligned, h.device, h.quiet, ?_, ?_, ?_, ?_, ?_, ?_, ?_⟩
  · intro i hi
    by_cases hiv : i = v
    · subst hiv
      simpa using ⟨hdvd, hb⟩
    · simp only [CacheSet.Valid, hother i hiv] at hi ⊢
      exact h.slot i hi
  · intro i hi
    by_cases hiv : i = v
    · subst hiv
      simpa using hclean
    · simp only [CacheSet.Valid, hother i hiv] at hi ⊢
      exact h.unused i hi
  · intro i j hi hij
    by_cases hiv : i = v <;> by_cases hjv : j = v
    · rw [hiv, hjv]
    · subst hiv
      simp only [update_self, hother j hjv] at hij
      exact absurd hij.symm (hnew j (fun hj => hbne (hij.trans hj)))
    · subst hjv
      simp only [CacheSet.Valid, update_self, hother i hiv] at hi hij
      exact absurd hij (hnew i hi)
    · simp only [CacheSet.Valid, hother i hiv, hother j hjv] at hi hij
      exact h.distinct i j hi hij
  · intro i hne hi
    have hiv : i ≠ v := fun hiv => hne (by rw [hiv])
    simp only [CacheSet.Valid, hother i hiv] at hi ⊢
    exact h.block i (by simp) hi
  · intro i hi hd t ht j hj
    by_cases hiv : i = v
    · subst hiv
      simp only [CacheSet.Covers, update_self] at ht
      exact h.uncached t (fun k hk hkt => hfresh k hk t hkt ht) j hj
    · simp only [CacheSet.Valid, CacheSet.Covers, hother i hiv] at hi hd ht
      exact h.clean i hi hd t ht j hj
  · intro t ht j hj
    by_cases hcov : ∃ i, cache.Valid i ∧ cache.Covers i t
    · obtain ⟨i, hi, hit⟩ := hcov
      by_cases hiv : i = v
      · subst hiv
        exact h.clean i hi hclean t hit j hj
      · refine absurd hit ?_
        have := ht i (by simpa only [CacheSet.Valid, hother i hiv] using hi)
        simpa only [CacheSet.Covers, hother i hiv] using this
    · exact h.uncached t (fun i hi hit => hcov ⟨i, hi, hit⟩) j hj
  · intro h0 i
    by_cases hiv : i = v
    · subst hiv
      simpa using hclean
    · simpa [hother i hiv] using h.counted h0 i

theorem offset_lt (h : MirrorsBut hole cache mem) {k j : ℕ} (hk : k < cache.indexLimit)
    (hj : j < cache.sectorSize) : k * cache.sectorSize + j < blockSize := by
  have hmul := mul_le_mul_right cache.sectorSize (succ_le_of_lt hk)
  rw [h.limit, succ_mul] at hmul
  omega

/-- Reading the device into the buffer of a clean slot completes the picture. -/
theorem fetched {v : Fin cacheSize} (h : MirrorsBut (some v) cache mem) (hv : cache.Valid v)
    (hclean : (cache.recs v).writeDirty = false) : MirrorsBut none
      { cache with
        sectorBuf := cache.dev.copyOut (cache.recs v).sector cache.indexLimit cache.sectorBuf
          (v.val * blockSize) } mem := by
  refine ⟨h.limit, h.aligned, h.device, h.quiet, h.slot, h.unused, h.distinct, ?_, h.clean, h.uncached,
    h.counted⟩
  intro i _ hi k hk j hj
  have hin := h.offset_lt hk hj
  have hsize : (cache.indexLimit : ℤ) * cache.sectorSize = blockSize := by exact_mod_cast h.limit
  change cache.dev.copyOut _ _ _ _ _ = _
  unfold MassDev.copyOut
  rw [h.device, hsize]
  by_cases hiv : i = v
  · subst hiv
    rw [if_pos (by constructor <;> push_cast <;> omega)]
    have hoff : ((i.val * blockSize + k * cache.sectorSize + j : ℤ) - i.val * blockSize).toNat =
        j + cache.sectorSize * k := by
      rw [Nat.mul_comm cache.sectorSize k]
      omega
    rw [hoff, Nat.add_mul_div_left _ _ h.sizes_pos.2, Nat.div_eq_of_lt hj, Nat.add_mul_mod_self_left,
      Nat.mod_eq_of_lt hj, Nat.zero_add]
    exact h.clean i hi hclean _ ⟨Nat.le_add_right _ _, Nat.add_lt_add_left hk _⟩ j hj
  · rw [if_neg ?_]
    · exact h.block i (fun heq => hiv (Option.some.inj heq).symm) hi k hk j hj
    · have hne : i.val ≠ v.val := fun heq => hiv (Fin.ext heq)
      unfold blockSize at *
      dsimp only
      omega

/-- Filling one sector of a slot and marking it written updates that sector of the array. -/
theorem written (h : MirrorsBut hole cache mem) {s : ℕ} {data : ℕ → UInt8}
    {tax : BitVec 32} (hv : cache.Valid i) (hs : cache.Covers i s)
    (hhole : hole = none ∨ hole = some i ∧ cache.indexLimit = 1) : MirrorsBut none
      { cache.fill (i.val * blockSize + (s - (cache.recs i).sector : ℕ) * cache.sectorSize) data with
        recs := update cache.recs i { cache.recs i with tax := tax, writeDirty := true }
        writeFlag := cache.writeFlag + 1 } (update mem s data) := by
  have hsector : ∀ j, (update cache.recs i
      { cache.recs i with tax := tax, writeDirty := true } j).sector = (cache.recs j).sector := by
    intro j
    by_cases hji : j = i
    · subst hji
      simp
    · simp [hji]
  have hsame : ∀ j, cache.Valid j → j ≠ i → ∀ t, cache.Covers j t → t ≠ s := by
    intro j hj hji t ht hts
    exact hji (h.covers_unique hj hv ht (hts ▸ hs))
  refine ⟨h.limit, h.aligned, h.device, h.quiet, ?_, ?_, ?_, ?_, ?_, ?_, by simp⟩
  · intro j hj
    simp only [CacheSet.Valid, CacheSet.fill, hsector] at hj ⊢
    exact h.slot j hj
  · intro j hj
    simp only [CacheSet.Valid, hsector] at hj
    have hji : j ≠ i := fun hji => hj (hji ▸ hv)
    simpa [CacheSet.fill, hji] using h.unused j hj
  · intro j k hj hjk
    simp only [CacheSet.Valid, hsector] at hj hjk
    exact h.distinct j k hj hjk
  · intro j _ hj k hk b hb
    simp only [CacheSet.Valid, CacheSet.fill, hsector] at hj hk hb ⊢
    have hlow := h.offset_lt hk hb
    have hstart : (s - (cache.recs i).sector) * cache.sectorSize + cache.sectorSize ≤ blockSize := by
      have := mul_le_mul_right cache.sectorSize (show s - (cache.recs i).sector + 1 ≤
        cache.indexLimit by unfold CacheSet.Covers at hs; omega)
      rw [h.limit, succ_mul] at this
      exact this
    by_cases hji : j = i
    · subst hji
      by_cases hks : k = s - (cache.recs j).sector
      · subst hks
        rw [if_pos (by constructor <;> omega), Nat.add_sub_cancel' hs.1,
          update_self]
        congr 1
        omega
      · have hne : (cache.recs j).sector + k ≠ s := by
          unfold CacheSet.Covers at hs
          omega
        have hold : hole ≠ some j := by
          rcases hhole with hnone | ⟨-, hone⟩
          · simp [hnone]
          · unfold CacheSet.Covers at hs
            omega
        have hgap : k * cache.sectorSize + cache.sectorSize ≤
              (s - (cache.recs j).sector) * cache.sectorSize ∨
            (s - (cache.recs j).sector) * cache.sectorSize + cache.sectorSize ≤
              k * cache.sectorSize := by
          rw [← succ_mul, ← succ_mul]
          rcases lt_or_gt_of_ne hks with hlt | hgt
          · exact .inl (mul_le_mul_right _ hlt)
          · exact .inr (mul_le_mul_right _ hgt)
        rw [if_neg (by omega), update_of_ne hne]
        exact h.block j hold hj k hk b hb
    · have hval : j.val ≠ i.val := fun heq => hji (Fin.ext heq)
      have hold : hole ≠ some j := by
        rcases hhole with hnone | ⟨hsome, -⟩
        · simp [hnone]
        · rw [hsome]
          exact fun heq => hji (Option.some.inj heq).symm
      rw [if_neg (by unfold blockSize at *; omega), update_of_ne
        (hsame j hj hji _ ⟨Nat.le_add_right _ _, Nat.add_lt_add_left hk _⟩)]
      exact h.block j hold hj k hk b hb
  · intro j hj hd t ht b hb
    simp only [CacheSet.Valid, CacheSet.Covers, CacheSet.fill, hsector] at hj ht
    have hji : j ≠ i := by
      rintro rfl
      simp at hd
    rw [update_of_ne (hsame j hj hji t ht)]
    exact h.clean j hj (by simpa [hji] using hd) t ht b hb
  · intro t ht b hb
    simp only [CacheSet.Valid, CacheSet.Covers, CacheSet.fill, hsector] at ht
    have hts : t ≠ s := fun hts => ht i hv (hts ▸ hs)
    rw [update_of_ne hts]
    exact h.uncached t ht b hb

theorem device_eq (h : MirrorsBut hole cache mem) (hclean : ∀ i, (cache.recs i).writeDirty = false)
    (t j : ℕ) (hj : j < cache.sectorSize) : cache.dev.sectors t j = mem t j := by
  by_cases hcov : ∃ i, cache.Valid i ∧ cache.Covers i t
  · obtain ⟨i, hi, hit⟩ := hcov
    exact h.clean i hi (hclean i) t hit j hj
  · exact h.uncached t (fun i hi hit => hcov ⟨i, hi, hit⟩) j hj

end MirrorsBut

end Ps2sdk.Usb
