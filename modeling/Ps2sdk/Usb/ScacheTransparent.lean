import Ps2sdk.Lib.Run
import Ps2sdk.Usb.Scache
import Mathlib.Tactic.Ring
import Mathlib.Tactic.IntervalCases
import Mathlib.Data.Nat.Prime.Basic

/-!
# The sector cache as a transparent disk

Clients read single sectors, or allocate a sector, fill its buffer and mark it written.
The step theorem says that the cache then answers as the array of sectors it shows, and
the run theorem follows for every sequence of requests.

Allocation does not fetch the rest of the block, so the array is only kept when the
allocated sector is already cached or fills its slot alone.
-/

namespace Ps2sdk.Usb

open Lib List Function Nat Bool

/-- What clients do with the cache. -/
inductive Request
  | read (sector : ℕ)
  | allocWrite (sector : ℕ) (data : ℕ → UInt8)
  | flush

variable (cache : CacheSet)

/-- The sector bytes found at a returned buffer address. -/
def CacheSet.bytesAt (buf : ℤ) : List UInt8 :=
  (List.range cache.sectorSize).map fun j : ℕ => cache.sectorBuf (buf + (j : ℤ))

/-- Serve one request; only a read replies with data. -/
def serve : Request → List UInt8 × CacheSet
  | .read sector =>
    match scacheReadSector cache sector with
    | (_, none, cache) => ([], cache)
    | (_, some buf, cache) => (cache.bytesAt buf, cache)
  | .allocWrite sector data =>
    match scacheAllocSector cache sector with
    | (_, none, cache) => ([], cache)
    | (_, some buf, cache) => ([], (scacheWriteSector (cache.fill buf data) sector).2)
  | .flush => ([], (scacheFlushSectors cache).2)

/-- The abstract disk: an array of sectors holding the last data written to each. -/
def serveDisk (sectorSize : ℕ) (mem : ℕ → ℕ → UInt8) : Request → List UInt8 × (ℕ → ℕ → UInt8)
  | .read sector => ((List.range sectorSize).map (mem sector), mem)
  | .allocWrite sector data => ([], Function.update mem sector data)
  | .flush => ([], mem)

/-- A request that does not run into the allocation defect or a 32-bit wrap: the sector lies
below the marker of unused slots, the write counter has room, and an allocated sector is cached
or is its whole block. -/
def Request.Sound : Request → Prop
  | .read sector => sector < unusedSector
  | .allocWrite sector _ =>
    sector < unusedSector ∧ cache.writeFlag + 1 < 2 ^ 32 ∧
      ((getSlot cache sector).isSome ∨ cache.indexLimit = 1)
  | .flush => True

/-- Soundness of a request can be tested. -/
instance Request.decidableSound (cache : CacheSet) : (request : Request) → Decidable (request.Sound cache)
  | .read sector => inferInstanceAs (Decidable (sector < unusedSector))
  | .allocWrite sector _ => inferInstanceAs (Decidable (sector < unusedSector ∧
      cache.writeFlag + 1 < 2 ^ 32 ∧ ((getSlot cache sector).isSome ∨ cache.indexLimit = 1)))
  | .flush => inferInstanceAs (Decidable True)

variable {cache : CacheSet} {mem : ℕ → ℕ → UInt8} {sector : ℕ}

theorem massStorWriteSector_quiet {dev : MassDev} (h : dev.outcomes = []) (sector count : ℕ)
    (buf : ℤ → UInt8) (buffer : ℤ) : massStorWriteSector dev sector buf buffer count =
      ((count : ℤ), { dev with sectors := dev.copyIn sector count buf buffer }) := by
  unfold massStorWriteSector
  simp only [h, tail_nil]

theorem massStorReadSector_quiet {dev : MassDev} (h : dev.outcomes = []) (sector count : ℕ)
    (buf : ℤ → UInt8) (buffer : ℤ) : massStorReadSector dev sector buf buffer count =
      ((count : ℤ), dev, dev.copyOut sector count buf buffer) := by
  unfold massStorReadSector
  cases dev
  simp only at h
  simp only [h, tail_nil]

/-- The buffer address of a sector inside a slot. -/
def CacheSet.address (cache : CacheSet) (i : Fin cacheSize) (sector : ℕ) : ℤ :=
  i.val * blockSize + (sector - (cache.recs i).sector : ℕ) * cache.sectorSize

variable {i : Fin cacheSize}

theorem found_address (h : Mirrors cache mem) (hc : cache.Covers i sector) :
    (i.val * cache.indexLimit + (sector - (cache.recs i).sector) : ℤ) * cache.sectorSize =
      cache.address i sector := by
  have hlimit : (cache.indexLimit : ℤ) * cache.sectorSize = blockSize := by exact_mod_cast h.limit
  unfold CacheSet.address
  rw [cast_sub hc.1, ← hlimit]
  ring

theorem chargeTax_fields (r : CacheRecord) (hit : Bool) :
    (chargeTax r hit).sector = r.sector ∧ (chargeTax r hit).writeDirty = r.writeDirty := by
  cases hit <;> exact ⟨rfl, rfl⟩

section

variable (h : Mirrors cache mem)
include h

/-- A lookup changes nothing the cache shows; it finds the slot that holds the sector, or
reports that there is none. -/
theorem getIndexRead_spec (hs : sector < unusedSector) :
    ∃ index taxed, getIndexRead cache sector = (index, taxed) ∧ Mirrors taxed mem ∧
      taxed.sectorSize = cache.sectorSize ∧ taxed.indexLimit = cache.indexLimit ∧
      taxed.writeFlag = cache.writeFlag ∧
      ((∃ i, taxed.Valid i ∧ taxed.Covers i sector ∧ 0 ≤ index ∧
          index * taxed.sectorSize = taxed.address i sector) ∨
        (index < 0 ∧ getSlot cache sector = none ∧
          ∀ i, taxed.Valid i → ¬ taxed.Covers i sector)) := by
  have hmirrors := h.of_same_blocks (fun i => chargeTax (cache.recs i) (cache.hit i sector))
    (fun i => (chargeTax_fields _ _).1) (fun i => (chargeTax_fields _ _).2)
  have hlast := lastSlot_spec cache sector
  unfold getIndexRead
  cases hslot : lastSlot cache sector with
  | none =>
    rw [hslot] at hlast
    refine ⟨_, _, rfl, hmirrors, rfl, rfl, rfl, .inr ⟨by decide, ?_, ?_⟩⟩
    · exact find?_eq_none.mpr fun i _ => by simp [hlast i]
    · intro i hv hc
      simp only [CacheSet.Valid, CacheSet.Covers, (chargeTax_fields _ _).1] at hv hc
      exact false_ne_true ((hlast i).symm.trans ((h.hit_iff hs i).mpr ⟨hv, hc⟩))
  | some i =>
    rw [hslot] at hlast
    obtain ⟨hv, hc⟩ := (h.hit_iff hs i).mp hlast
    refine ⟨_, _, rfl, hmirrors, rfl, rfl, rfl, .inl ⟨i, ?_, ?_, ?_, ?_⟩⟩
    · simpa only [CacheSet.Valid, (chargeTax_fields _ _).1] using hv
    · simpa only [CacheSet.Covers, (chargeTax_fields _ _).1] using hc
    · have hle : ((cache.recs i).sector : ℤ) ≤ sector := by exact_mod_cast hc.1
      have hnn : (0 : ℤ) ≤ i.val * cache.indexLimit := by positivity
      omega
    · rw [found_address h hc]
      simp only [CacheSet.address, (chargeTax_fields _ _).1]

/-- Eviction hands out the victim's slot with nothing lost. -/
theorem getIndexWrite_spec {b : ℕ} (hdvd : cache.indexLimit ∣ b) (hb : b + cache.indexLimit ≤ unusedSector)
    (hnew : ∀ i, cache.Valid i → (cache.recs i).sector ≠ b) :
    ∃ cache', getIndexWrite cache b = (((victimSlot cache).val * cache.indexLimit : ℤ), cache') ∧
      MirrorsBut (some (victimSlot cache)) cache' mem ∧
      (cache'.recs (victimSlot cache)).sector = b ∧
      (cache'.recs (victimSlot cache)).writeDirty = false ∧
      cache'.sectorSize = cache.sectorSize ∧ cache'.indexLimit = cache.indexLimit ∧
      cache'.writeFlag = cache.writeFlag := by
  unfold getIndexWrite
  generalize victimSlot cache = v
  by_cases hd : (cache.recs v).writeDirty = true
  · have hv := h.valid_of_dirty hd
    have hclean := h.cleaned (by simp) hv
    simp only [hd, if_true, massStorWriteSector_quiet h.quiet, h.transferCount]
    rw [if_neg (by omega)]
    refine ⟨_, rfl, hclean.relabelled (by simp) hdvd hb ?_, by simp, by simp, rfl, rfl, rfl⟩
    intro i hi
    by_cases hiv : i = v
    · subst hiv
      simpa using hnew _ hv
    · simp only [CacheSet.Valid, update_of_ne hiv] at hi ⊢
      exact hnew i hi
  · rw [not_eq_true] at hd
    rw [if_neg (by simp [hd])]
    exact ⟨_, rfl, h.relabelled hd hdvd hb hnew, by simp, by simpa using hd, rfl, rfl, rfl⟩

/-- The block of an uncached sector can be given a slot. -/
theorem alignedSector_spec (hs : sector < unusedSector) (hnone : ∀ i, cache.Valid i → ¬ cache.Covers i sector) :
    cache.indexLimit ∣ cache.alignedSector sector ∧
      cache.alignedSector sector + cache.indexLimit ≤ unusedSector ∧
      (∀ i, cache.Valid i → (cache.recs i).sector ≠ cache.alignedSector sector) ∧
      cache.alignedSector sector + sector % cache.indexLimit = sector := by
  have hdiv : cache.alignedSector sector + sector % cache.indexLimit = sector :=
    div_add_mod' sector cache.indexLimit
  have hmod := mod_lt sector h.sizes_pos.1
  refine ⟨Dvd.intro_left _ rfl, ?_, ?_, hdiv⟩
  · obtain ⟨c, hc⟩ := h.aligned
    have hlt : sector / cache.indexLimit < c :=
      Nat.div_lt_of_lt_mul (hc ▸ hs)
    have hmul := Nat.mul_le_mul_right cache.indexLimit (Nat.succ_le_of_lt hlt)
    rw [Nat.succ_mul, Nat.mul_comm c, ← hc] at hmul
    exact hmul
  · intro i hi heq
    apply hnone i hi
    unfold CacheSet.Covers
    omega

/-- A miss evicts a slot for the block of the sector; only the slot's buffer is left to fill. -/
theorem missed_spec (hs : sector < unusedSector) (hnone : ∀ i, cache.Valid i → ¬ cache.Covers i sector) :
    ∃ evicted v index, getIndexWrite cache (cache.alignedSector sector) = (index, evicted) ∧
      MirrorsBut (some v) evicted mem ∧ evicted.Valid v ∧ evicted.Covers v sector ∧
      (evicted.recs v).sector = cache.alignedSector sector ∧
      (evicted.recs v).writeDirty = false ∧ evicted.sectorSize = cache.sectorSize ∧
      evicted.indexLimit = cache.indexLimit ∧ evicted.writeFlag = cache.writeFlag ∧
      index * evicted.sectorSize = v.val * blockSize ∧
      v.val * blockSize + (sector % evicted.indexLimit : ℕ) * evicted.sectorSize =
        evicted.address v sector := by
  obtain ⟨hdvd, hb, hnew, haligned⟩ := alignedSector_spec h hs hnone
  obtain ⟨evicted, hwrite, hhole, hsector, hclean, hsize, hlimit, hflag⟩ :=
    getIndexWrite_spec h hdvd hb hnew
  generalize victimSlot cache = v at hwrite hhole hsector hclean
  have hpos := h.sizes_pos.1
  have hmod := mod_lt sector hpos
  have hblock : (evicted.indexLimit : ℤ) * evicted.sectorSize = blockSize := by
    exact_mod_cast hhole.limit
  refine ⟨evicted, v, _, hwrite, hhole, ?_, ?_, hsector, hclean, hsize, hlimit, hflag, ?_, ?_⟩
  · unfold CacheSet.Valid
    omega
  · unfold CacheSet.Covers
    omega
  · rw [← hblock, hlimit, mul_assoc]
  · have hoff : sector - cache.alignedSector sector = sector % cache.indexLimit := by omega
    unfold CacheSet.address
    rw [hsector, hoff, hlimit]

/-- A read leaves the sector in a slot and returns its address. -/
theorem scacheReadSector_spec (hs : sector < unusedSector) :
    ∃ ret cache' i, scacheReadSector cache sector = (ret, some (cache'.address i sector), cache') ∧
      Mirrors cache' mem ∧ cache'.Valid i ∧ cache'.Covers i sector ∧
      cache'.sectorSize = cache.sectorSize := by
  obtain ⟨index, taxed, hread, htaxed, hsize, -, -, hcase⟩ := getIndexRead_spec h hs
  unfold scacheReadSector
  simp only [hread]
  rcases hcase with ⟨i, hv, hc, hpos, haddr⟩ | ⟨hneg, -, hnone⟩
  · rw [if_pos hpos, haddr]
    exact ⟨_, taxed, i, rfl, htaxed, hv, hc, hsize⟩
  · obtain ⟨evicted, v, index, hwrite, hhole, hv, hc, hsector, hclean, hsize', -, -, hbase, haddr⟩ :=
      missed_spec htaxed hs hnone
    have hfetched := hhole.fetched hv hclean
    rw [hsector] at hfetched
    rw [if_neg (by omega)]
    simp only [hwrite, massStorReadSector_quiet hhole.quiet, hhole.transferCount, hbase, haddr]
    rw [if_neg (by omega)]
    exact ⟨_, _, v, rfl, hfetched, hv, hc, hsize'.trans hsize⟩

/-- A sound allocation returns the address of the sector in a slot that shows its block, unless
the sector is the whole block. -/
theorem scacheAllocSector_spec (hs : sector < unusedSector)
    (hsound : (getSlot cache sector).isSome ∨ cache.indexLimit = 1) : ∃ ret cache' hole i,
      scacheAllocSector cache sector = (ret, some (cache'.address i sector), cache') ∧
      MirrorsBut hole cache' mem ∧ cache'.Valid i ∧ cache'.Covers i sector ∧
      (hole = none ∨ hole = some i ∧ cache'.indexLimit = 1) ∧
      cache'.writeFlag = cache.writeFlag ∧ cache'.sectorSize = cache.sectorSize := by
  obtain ⟨index, taxed, hread, htaxed, hsize, hlimit, hflag, hcase⟩ := getIndexRead_spec h hs
  unfold scacheAllocSector
  simp only [hread]
  rcases hcase with ⟨i, hv, hc, hpos, haddr⟩ | ⟨hneg, hmissing, hnone⟩
  · rw [if_pos hpos, haddr]
    exact ⟨_, taxed, none, i, rfl, htaxed, hv, hc, .inl rfl, hflag, hsize⟩
  · obtain ⟨evicted, v, index, hwrite, hhole, hv, hc, -, -, hsize', hlimit', hflag',
      hbase, haddr⟩ :=
      missed_spec htaxed hs hnone
    have hone : cache.indexLimit = 1 := by simpa [hmissing] using hsound
    rw [if_neg (by omega)]
    simp only [hwrite, hbase, haddr]
    exact ⟨_, evicted, some v, v, rfl, hhole, hv, hc,
      .inr ⟨rfl, hlimit'.trans (hlimit.trans hone)⟩, hflag'.trans hflag, hsize'.trans hsize⟩

end

/-- Filling the returned buffer and marking the sector updates it in the array. -/
theorem scacheWriteSector_mirrors {hole : Option (Fin cacheSize)} (h : MirrorsBut hole cache mem)
    (hs : sector < unusedSector) (hv : cache.Valid i)
    (hc : cache.Covers i sector) (hhole : hole = none ∨ hole = some i ∧ cache.indexLimit = 1)
    (hroom : cache.writeFlag + 1 < 2 ^ 32) (data : ℕ → UInt8) :
    Mirrors (scacheWriteSector (cache.fill (cache.address i sector) data) sector).2
      (update mem sector data) := by
  obtain ⟨k, hk⟩ := Option.isSome_iff_exists.mp (getSlot_isSome ((h.hit_iff hs i).mpr ⟨hv, hc⟩))
  obtain ⟨hvk, hck⟩ := (h.hit_iff hs k).mp (getSlot_hit hk)
  obtain rfl := h.covers_unique hv hvk hc hck
  have hslot : getSlot (cache.fill (cache.address i sector) data) sector = some i := hk
  unfold scacheWriteSector
  rw [hslot]
  simp only [CacheSet.fill, mod_eq_of_lt hroom]
  exact h.written hv hc hhole

theorem scacheWriteSector_sectorSize (cache : CacheSet) (sector : ℕ) :
    (scacheWriteSector cache sector).2.sectorSize = cache.sectorSize := by
  unfold scacheWriteSector
  split <;> rfl

variable (slots : List (Fin cacheSize))

/-- The write-back loop keeps the sector size. -/
theorem flushSlots_sectorSize (counter : ℤ) (cache : CacheSet) :
    (flushSlots slots counter cache).2.sectorSize = cache.sectorSize := by
  induction slots generalizing counter cache with
  | nil => rfl
  | cons i rest ih =>
    unfold flushSlots
    split
    · dsimp only
      split
      · rfl
      · rw [ih]
    · rw [ih]

theorem scacheFlushSectors_sectorSize (cache : CacheSet) :
    (scacheFlushSectors cache).2.sectorSize = cache.sectorSize := by
  unfold scacheFlushSectors
  split
  · rfl
  · exact flushSlots_sectorSize _ _ _

/-- The write-back loop cleans every slot it has not passed yet and loses nothing. -/
theorem flushSlots_spec (counter : ℤ) (h : Mirrors cache mem)
    (hdone : ∀ i, i ∉ slots → (cache.recs i).writeDirty = false) : Mirrors (flushSlots slots counter cache).2 mem ∧
      ∀ i, ((flushSlots slots counter cache).2.recs i).writeDirty = false := by
  induction slots generalizing counter cache with
  | nil =>
    have hclean : ∀ i, (cache.recs i).writeDirty = false := fun i => hdone i (by simp)
    exact ⟨⟨h.limit, h.aligned, h.device, h.quiet, h.slot, h.unused, h.distinct, h.block, h.clean,
      h.uncached, fun _ => hclean⟩, hclean⟩
  | cons i rest ih =>
    unfold flushSlots
    by_cases hd : (cache.recs i).writeDirty = true
    · have hv := h.valid_of_dirty hd
      rw [if_pos hd]
      simp only [massStorWriteSector_quiet h.quiet, h.transferCount]
      rw [if_neg (by omega)]
      refine ih _ (h.cleaned (by simp) hv) fun k hk => ?_
      by_cases hki : k = i
      · subst hki
        simp
      · simpa [hki] using hdone k (by simp [hki, hk])
    · rw [if_neg hd]
      refine ih _ h fun k hk => ?_
      by_cases hki : k = i
      · subst hki
        exact eq_false_iff.mpr hd
      · exact hdone k (by simp [hki, hk])

theorem scacheFlushSectors_spec (h : Mirrors cache mem) : Mirrors (scacheFlushSectors cache).2 mem ∧
      ∀ i, ((scacheFlushSectors cache).2.recs i).writeDirty = false := by
  unfold scacheFlushSectors
  split
  · next h0 => exact ⟨h, h.counted h0⟩
  · exact flushSlots_spec _ _ h fun i hi => absurd (mem_finRange i) hi

/-- The bytes at the address of a cached sector are those of the array. -/
theorem bytesAt_address (h : Mirrors cache mem) (hv : cache.Valid i) (hc : cache.Covers i sector) :
    cache.bytesAt (cache.address i sector) = (range cache.sectorSize).map (mem sector) := by
  unfold CacheSet.bytesAt
  refine map_congr_left fun j hj => ?_
  have hk : sector - (cache.recs i).sector < cache.indexLimit := by
    unfold CacheSet.Covers at hc
    omega
  have hblock := h.block i (by simp) hv _ hk j (mem_range.mp hj)
  rw [Nat.add_sub_cancel' hc.1] at hblock
  exact hblock

/-- The cache shows the array and its sectors have the given size. -/
def Shows (sectorSize : ℕ) (cache : CacheSet) (mem : ℕ → ℕ → UInt8) : Prop :=
  Mirrors cache mem ∧ cache.sectorSize = sectorSize

/-- One sound request is served as by the array. -/
theorem serve_step {sectorSize : ℕ} (h : Shows sectorSize cache mem) (request : Request)
    (hsound : request.Sound cache) : (serve cache request).1 = (serveDisk sectorSize mem request).1 ∧
      Shows sectorSize (serve cache request).2 (serveDisk sectorSize mem request).2 := by
  obtain ⟨h, rfl⟩ := h
  cases request with
  | read sector =>
    obtain ⟨ret, cache', i, hread, hmirrors, hv, hc, hsize⟩ := scacheReadSector_spec h hsound
    simp only [serve, hread, serveDisk]
    exact ⟨by rw [bytesAt_address hmirrors hv hc, hsize], hmirrors, hsize⟩
  | allocWrite sector data =>
    obtain ⟨hs, hroom, hcached⟩ := hsound
    obtain ⟨ret, cache', hole, i, halloc, hmirrors, hv, hc, hhole, hflag, hsize⟩ :=
      scacheAllocSector_spec h hs hcached
    simp only [serve, halloc, serveDisk]
    refine ⟨trivial, scacheWriteSector_mirrors hmirrors hs hv hc hhole (hflag ▸ hroom) data, ?_⟩
    rw [scacheWriteSector_sectorSize]
    exact hsize
  | flush => exact ⟨rfl, (scacheFlushSectors_spec h).1, scacheFlushSectors_sectorSize cache⟩

/-- A fresh cache over a quiet device shows the device. -/
theorem scacheInit_shows (dev : MassDev) (sectorBuf : ℤ → UInt8) (hquiet : dev.outcomes = [])
    (hlow : 512 ≤ dev.sectorSize) (hdvd : dev.sectorSize ∣ blockSize) :
    Shows dev.sectorSize (scacheInit dev dev.sectorSize sectorBuf) dev.sectors := by
  have hinvalid : ∀ i, ¬ (scacheInit dev dev.sectorSize sectorBuf).Valid i := fun i hv => hv rfl
  refine ⟨⟨Nat.div_mul_cancel hdvd, ?_, rfl, hquiet, fun i hv => absurd hv (hinvalid i),
    fun i _ => rfl, fun i j hv => absurd hv (hinvalid i), fun i _ hv => absurd hv (hinvalid i),
    fun i hv => absurd hv (hinvalid i), fun t _ j _ => rfl, fun _ i => rfl⟩, rfl⟩
  obtain ⟨k, hk, hsize⟩ := (Nat.dvd_prime_pow (m := 12) Nat.prime_two).mp hdvd
  have hk9 : 9 ≤ k := (Nat.pow_le_pow_iff_right (show 1 < 2 by decide)).mp (hsize ▸ hlow)
  change blockSize / dev.sectorSize ∣ unusedSector
  rw [hsize]
  interval_cases k <;> decide

/-- For every sector size that divides the slot size and every run of sound requests, each read
returns the last contents written to its sector, or the original ones, and a flush at the end
leaves exactly these contents on the device. -/
theorem scache_transparent (dev : MassDev) (sectorBuf : ℤ → UInt8) (requests : List Request)
    (hquiet : dev.outcomes = []) (hlow : 512 ≤ dev.sectorSize) (hdvd : dev.sectorSize ∣ blockSize)
    (hsound : AllMeet serve (fun cache request => request.Sound cache)
      (scacheInit dev dev.sectorSize sectorBuf) requests) :
    let final := run serve (scacheInit dev dev.sectorSize sectorBuf) requests
    let disk := run (serveDisk dev.sectorSize) dev.sectors requests
    final.1 = disk.1 ∧ ∀ t, ∀ j < dev.sectorSize,
      (serve final.2 .flush).2.dev.sectors t j = disk.2 t j := by
  obtain ⟨hreplies, hmirrors, hsize⟩ := run_simulation serve (serveDisk dev.sectorSize)
    (fun cache request => request.Sound cache) (Shows dev.sectorSize)
    (fun cache mem request h hs => serve_step h request hs) requests _ _
    (scacheInit_shows dev sectorBuf hquiet hlow hdvd) hsound
  refine ⟨hreplies, fun t j hj => ?_⟩
  obtain ⟨hflushed, hclean⟩ := scacheFlushSectors_spec hmirrors
  refine hflushed.device_eq hclean t j ?_
  rw [scacheFlushSectors_sectorSize, hsize]
  exact hj

/-- The conditions hold for a sector that is read, overwritten and read again. -/
theorem scache_transparent_readModifyWrite :
    let dev : MassDev := ⟨512, fun _ _ => 1, []⟩
    let requests : List Request := [.read 9, .allocWrite 9 (fun _ => 2), .read 9]
    let final := run serve (scacheInit dev dev.sectorSize (fun _ => 0)) requests
    let disk := run (serveDisk dev.sectorSize) dev.sectors requests
    final.1 = disk.1 ∧ ∀ t, ∀ j < dev.sectorSize,
      (serve final.2 .flush).2.dev.sectors t j = disk.2 t j := by
  intro dev requests
  have hsound : AllMeet serve (fun cache request => request.Sound cache)
      (scacheInit dev dev.sectorSize (fun _ => 0)) requests := by
    decide +kernel
  exact scache_transparent dev (fun _ => 0) requests rfl (by decide) (by decide) hsound

/-- Writing an allocated sector and flushing overwrites its neighbour on the device with
whatever the buffer held: sector 1 was never written, yet its bytes change. -/
theorem scache_alloc_spoils_neighbour :
    let dev : MassDev := ⟨512, fun _ _ => 1, []⟩
    let requests : List Request := [.allocWrite 0 (fun _ => 2), .flush]
    let final := run serve (scacheInit dev 512 (fun _ => 0)) requests
    (run (serveDisk 512) dev.sectors requests).2 1 0 = 1 ∧ final.2.dev.sectors 1 0 = 0 := by
  decide +kernel

end Ps2sdk.Usb
