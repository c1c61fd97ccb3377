import Mathlib.Algebra.BigOperators.Intervals
import Mathlib.Algebra.BigOperators.Ring.Finset
import Mathlib.Data.BitVec
import Ps2sdk.Lib.Run
import Ps2sdk.Lib.Runs
import Ps2sdk.Pfs.BitmapRuns
import Ps2sdk.Pfs.Chain

/-!
# Zone accounting over whole runs

`pfsBitmapCalcFreeZones` adds up a table entry for each half byte of a partition's bitmap: the number of its
clear zones. Along every sequence of searches, extensions and releases the free counts stay these numbers,
each run handed out was clear before and is marked after, and nothing else in the bitmaps changes.
-/

namespace Ps2sdk.Pfs

open Lib Finset Nat Driver

variable {n : ℕ} {s s' : Driver n} {m sub : ℕ}

/-- One for a clear bit. -/
def clearBit (used : Bool) : BitVec 32 := if used then 0 else 1

theorem freeZoneBitmap_eq (nibble : BitVec 4) :
    freeZoneBitmap nibble = ∑ j ∈ range 4, clearBit (nibble.getLsbD j) := by
  revert nibble
  decide

variable (data : MetaBlock)

theorem getLsbD_blockByte (i : ℕ) {j : ℕ} (hj : j < 8) :
    (blockByte data i).getLsbD j = zoneBit data (8 * i + j) := by
  have hword : (8 * i + j) / 32 = i / 4 := by omega
  have hbit : (8 * i + j) % 32 = 8 * (i % 4) + j := by omega
  rw [blockByte, zoneBit, hword, hbit, BitVec.getLsbD_extractLsb', decide_eq_true hj, Bool.true_and]

/-- One byte of the bitmap adds its clear zones. -/
theorem freeZoneBitmap_byte (i : ℕ) :
    freeZoneBitmap ((blockByte data i).extractLsb' 0 4) + freeZoneBitmap ((blockByte data i).extractLsb' 4 4) =
      ∑ j ∈ range 8, clearBit (zoneBit data (8 * i + j)) := by
  rw [sum_range_add _ 4 4, freeZoneBitmap_eq, freeZoneBitmap_eq]
  congr 1
  · refine sum_congr rfl fun j hj => ?_
    have hlt := mem_range.mp hj
    rw [← getLsbD_blockByte data i (by omega), BitVec.getLsbD_extractLsb', decide_eq_true hlt, Bool.true_and,
      zero_add]
  · refine sum_congr rfl fun j hj => ?_
    have hlt := mem_range.mp hj
    rw [← getLsbD_blockByte data i (by omega), BitVec.getLsbD_extractLsb', decide_eq_true hlt, Bool.true_and]

/-- The loop over the bytes of a chunk adds the clear zones of the chunk. -/
theorem countFree_eq (bitmapSize : ℕ) (zoneFree : BitVec 32) : countFree data bitmapSize zoneFree =
      zoneFree + ∑ p ∈ range (8 * bitmapSize), clearBit (zoneBit data p) := by
  induction bitmapSize with
  | zero => simp [countFree]
  | succ size ih =>
    rw [mul_succ, sum_range_add, ← freeZoneBitmap_byte, ← add_assoc, ← ih]
    simp [countFree, List.range_succ]

/-- The clear zones among the first ones of a partition. -/
def Driver.clearSum (s : Driver n) (m sub count : ℕ) : BitVec 32 :=
  ∑ p ∈ Finset.range count, clearBit (s.zone m sub p)

/-- The clear zones of a partition up to a place in a chunk. -/
theorem Driver.clearSum_chunk (s : Driver n) (m sub chunk : ℕ) {size : ℕ} (hsize : size ≤ 8192) :
    s.clearSum m sub (chunk * 8192 + size) = s.clearSum m sub (chunk * 8192) +
      ∑ p ∈ range size, clearBit (zoneBit (s.chunk m sub chunk) p) := by
  rw [clearSum, sum_range_add, clearSum]
  congr 1
  refine sum_congr rfl fun p hp => ?_
  have hlt := mem_range.mp hp
  have hdiv : (chunk * 8192 + p) / 8192 = chunk := by omega
  have hmod : (chunk * 8192 + p) % 8192 = p := by omega
  rw [zone, hdiv, hmod]

theorem Driver.clearSum_congr {count : ℕ} (h : ∀ p < count, s'.zone m sub p = s.zone m sub p) :
    s'.clearSum m sub count = s.clearSum m sub count :=
  sum_congr rfl fun p hp => by rw [h p (mem_range.mp hp)]

/-- The bytes of a chunk that are counted reach to the end of the chunk or of the partition. -/
theorem BitmapInfo.For.bytes {info : BitmapInfo} {mount : Mount} (h : info.For mount sub)
    (haligned : mount.zones sub % 32 = 0) {chunk : ℕ} (hchunk : mount.HasChunk sub chunk) {size : ℕ}
    (hsize : size = if chunk = info.partitionChunks then info.partitionRemainder / 8 else 1024) :
    8 * size ≤ 8192 ∧ chunk * 8192 + 8 * size = min ((chunk + 1) * 8192) (mount.zones sub) := by
  have hlt := hchunk.2
  rw [h.chunks, h.remainder] at hsize
  split at hsize <;> omega

/-- The loop of `pfsBitmapCalcFreeZones` from some chunk on. -/
theorem calcLoop_spec {info : BitmapInfo} (k : ℕ) (hs : s.Volume m) (hinfo : info.For (s.mounts m) sub)
    (hsub : sub ≤ (s.mounts m).numSubs) {chunk : ℕ} (hk : info.partitionChunks + 2 ≤ chunk + k)
    {zoneFree : BitVec 32} (hfree : zoneFree = s.clearSum m sub (min (chunk * 8192) ((s.mounts m).zones sub))) :
    (calcLoop info m sub k s chunk zoneFree).1 = s.clearSum m sub ((s.mounts m).zones sub) ∧
      s.Returned (calcLoop info m sub k s chunk zoneFree).2 m := by
  induction k generalizing s chunk zoneFree with
  | zero =>
    have hend : (s.mounts m).zones sub ≤ chunk * 8192 := by
      have := hinfo.chunks
      omega
    rw [min_eq_right hend] at hfree
    exact ⟨hfree, .refl hs⟩
  | succ k ih =>
    unfold calcLoop
    by_cases hin : info.inPartition chunk = true
    · have hchunk := (hinfo.inPartition hsub).mp hin
      obtain ⟨c, s1, hget, htook⟩ := hs.take hchunk
      obtain ⟨hreturned, hchunks⟩ := htook.giveBack hs
      have hsame := hreturned.same m
      have hzones : ∀ p < (s.mounts m).zones sub, (pfsCacheFree s1 c).zone m sub p = s.zone m sub p := by
        intro p hp
        rw [zone, zone, hchunks sub _ (Mount.hasChunk_of_lt hsub hp)]
      obtain ⟨hsize, hend⟩ := hinfo.bytes (hs.aligned sub hsub) hchunk rfl
      rw [if_neg (by simp [hin])]
      rw [hget]
      have hcount : countFree (s1.cacheBuf c).data
          (if chunk = info.partitionChunks then info.partitionRemainder / 8 else 1024) zoneFree =
            (pfsCacheFree s1 c).clearSum m sub
              (min ((chunk + 1) * 8192) (((pfsCacheFree s1 c).mounts m).zones sub)) := by
        rw [hsame.zones, clearSum_congr fun p hp => hzones p (by omega), countFree_eq,
          htook.data hs hchunk, ← hend, clearSum_chunk s m sub chunk hsize, hfree,
          min_eq_left (le_of_lt hchunk.2)]
      obtain ⟨hsum, hrest⟩ := ih hreturned.volume (hinfo.of_same hsame) (hsame.numSubs ▸ hsub)
        (show info.partitionChunks + 2 ≤ chunk + 1 + k by omega) hcount
      rw [hsame.zones, clearSum_congr hzones] at hsum
      exact ⟨hsum, hreturned.trans hrest⟩
    · have hend : (s.mounts m).zones sub ≤ chunk * 8192 := by
        by_contra hlt
        exact hin ((hinfo.inPartition hsub).mpr ⟨hsub, by omega⟩)
      rw [if_pos (by simpa using hin)]
      rw [min_eq_right hend] at hfree
      exact ⟨hfree, .refl hs⟩

/-- The number of clear zones of a partition. -/
def Driver.freeZones (s : Driver n) (m sub : ℕ) : ℕ :=
  ((Finset.range ((s.mounts m).zones sub)).filter fun p => s.zone m sub p = false).card

theorem Driver.clearSum_eq (s : Driver n) (m sub : ℕ) :
    s.clearSum m sub ((s.mounts m).zones sub) = BitVec.ofNat 32 (s.freeZones m sub) := by
  have hbits : ∀ p, clearBit (s.zone m sub p) = if s.zone m sub p = false then 1 else 0 := by
    intro p
    cases h : s.zone m sub p <;> rfl
  rw [clearSum, sum_congr rfl fun p _ => hbits p, sum_boole, freeZones]
  rfl

/-- `pfsBitmapCalcFreeZones` counts the clear zones of the partition. -/
theorem pfsBitmapCalcFreeZones_spec (hs : s.Volume m) (hsub : sub ≤ (s.mounts m).numSubs) :
    (pfsBitmapCalcFreeZones s m sub).1 = BitVec.ofNat 32 (s.freeZones m sub) ∧
      s.Returned (pfsBitmapCalcFreeZones s m sub).2 m := by
  have hinfo := pfsBitmapSetupInfo_for (s.mounts m) sub 0
  rw [← clearSum_eq]
  refine calcLoop_spec _ hs hinfo hsub (le_add_left _ _) ?_
  simp [pfsBitmapSetupInfo, clearSum]

/-- Marking a run of clear places leaves so many clear places less. -/
theorem card_clear_run {before after : ℕ → Bool} {size first count : ℕ} (hinside : 0 < count → first + count ≤ size)
    (hclear : ∀ p, first ≤ p → p < first + count → before p = false)
    (hafter : ∀ p < size, after p = if first ≤ p ∧ p < first + count then true else before p) :
    ((range size).filter fun p => before p = false).card =
      ((range size).filter fun p => after p = false).card + count := by
  have hsplit : ((range size).filter fun p => before p = false) =
      ((range size).filter fun p => after p = false) ∪ Finset.Ico first (first + count) := by
    ext p
    simp only [mem_filter, mem_range, mem_union, mem_Ico]
    by_cases hrun : first ≤ p ∧ p < first + count
    · have hlt := hinside (by omega)
      simp only [hrun, hclear p hrun.1 hrun.2, and_self, or_true, and_true, iff_true]
      omega
    · by_cases hp : p < size
      · rw [hafter p hp, if_neg hrun]
        simp [hrun]
      · simp [hp, hrun]
  have hdisjoint : Disjoint ((range size).filter fun p => after p = false)
      (Finset.Ico first (first + count)) := by
    rw [disjoint_left]
    intro p hp hrun
    obtain ⟨hlt, hfalse⟩ := mem_filter.mp hp
    rw [hafter p (mem_range.mp hlt), if_pos (mem_Ico.mp hrun)] at hfalse
    exact absurd hfalse (by decide)
  rw [hsplit, card_union_of_disjoint hdisjoint, Nat.card_Ico, Nat.add_sub_cancel_left]

/-- Handing out a run takes its zones from the free ones of its partition. -/
theorem Driver.HandsOut.freeZones {first count : ℕ} (h : s.HandsOut s' m sub first count)
    (hsub : sub ≤ (s.mounts m).numSubs) : s.freeZones m sub = s'.freeZones m sub + count := by
  unfold Driver.freeZones
  rw [(h.returned.same m).zones]
  refine card_clear_run h.inside h.clear fun p hp => ?_
  rw [h.sets sub p (Mount.hasChunk_of_lt hsub hp)]
  simp

/-- Clearing a run in use gives its zones to the free ones of its partition. -/
theorem Driver.Sets.freeZones {first count : ℕ} (h : s.Sets s' m sub first count false)
    (hsame : (s.mounts m).Same (s'.mounts m)) (hsub : sub ≤ (s.mounts m).numSubs)
    (hinside : first + count ≤ (s.mounts m).zones sub)
    (hused : ∀ p, first ≤ p → p < first + count → s.zone m sub p = true) :
    s'.freeZones m sub = s.freeZones m sub + count := by
  unfold Driver.freeZones
  rw [hsame.zones]
  refine card_clear_run (fun _ => hinside) (fun p hlow hhigh => ?_) fun p hp => ?_
  · rw [h sub p (Mount.hasChunk_of_lt hsub (by omega)), if_pos ⟨rfl, hlow, hhigh⟩]
  · rw [h sub p (Mount.hasChunk_of_lt hsub hp)]
    by_cases hrun : first ≤ p ∧ p < first + count
    · rw [if_pos hrun, hused p hrun.1 hrun.2]
    · rw [if_neg hrun, if_neg (by simpa using hrun)]

theorem Driver.Sets.freeZones_other {first count sub' : ℕ} {value : Bool} (h : s.Sets s' m sub first count value)
    (hsame : (s.mounts m).Same (s'.mounts m)) (hsub : sub' ≤ (s.mounts m).numSubs) (hne : sub' ≠ sub) :
    s'.freeZones m sub' = s.freeZones m sub' := by
  unfold Driver.freeZones
  rw [hsame.zones]
  congr 1
  refine filter_congr fun p hp => ?_
  rw [h sub' p (Mount.hasChunk_of_lt hsub (mem_range.mp hp)), if_neg (by simp [hne])]

open Function BitVec

variable {n : ℕ} {s s' : Driver n} {m : ℕ}

/-- Add to the free counts of a partition and of the volume. -/
def Driver.adjust (s : Driver n) (m sub : ℕ) (delta : BitVec 32) : Driver n :=
  { s with
    mounts := Function.update s.mounts m { s.mounts m with
      freeZone := Function.update (s.mounts m).freeZone sub ((s.mounts m).freeZone sub + delta)
      zfree := (s.mounts m).zfree + delta } }

theorem Driver.takeZones_eq (s : Driver n) (m sub count : ℕ) :
    s.takeZones m sub count = s.adjust m sub (-BitVec.ofNat 32 count) := by
  simp only [takeZones, adjust, BitVec.sub_eq_add_neg]

theorem Driver.giveZones_eq (s : Driver n) (m sub count : ℕ) :
    s.giveZones m sub count = s.adjust m sub (BitVec.ofNat 32 count) := rfl

section Adjust

variable (s : Driver n) (m sub : ℕ) (delta : BitVec 32)

theorem Driver.adjust_mount : (s.adjust m sub delta).mounts m = { s.mounts m with
    freeZone := update (s.mounts m).freeZone sub ((s.mounts m).freeZone sub + delta)
    zfree := (s.mounts m).zfree + delta } :=
  update_self ..

theorem Driver.adjust_mounts (m' : ℕ) : (s.adjust m sub delta).mounts m' = { s.mounts m' with
    freeZone := ((s.adjust m sub delta).mounts m').freeZone
    zfree := ((s.adjust m sub delta).mounts m').zfree } := by
  by_cases h : m' = m
  · subst h
    rw [adjust_mount]
  · have hother : (s.adjust m sub delta).mounts m' = s.mounts m' := update_of_ne h ..
    rw [hother]

theorem Driver.adjust_view (m' sub' sector : ℕ) : (s.adjust m sub delta).view m' sub' sector =
    s.view m' sub' sector := by
  unfold view
  rw [show (s.adjust m sub delta).holder m' sub' sector = s.holder m' sub' sector from rfl, adjust_mounts]
  rfl

theorem Driver.adjust_zone (sub' p : ℕ) : (s.adjust m sub delta).zone m sub' p = s.zone m sub' p := by
  unfold zone chunk
  rw [adjust_view, adjust_mounts]
  rfl

theorem Driver.adjust_zones (sub' : ℕ) :
    ((s.adjust m sub delta).mounts m).zones sub' = (s.mounts m).zones sub' := by
  rw [adjust_mounts]
  rfl

theorem Driver.adjust_freeZones (sub' : ℕ) : (s.adjust m sub delta).freeZones m sub' = s.freeZones m sub' := by
  unfold freeZones
  simp only [adjust_zones, adjust_zone]

end Adjust

/-- A volume stays one when its counts change. -/
theorem Driver.Volume.adjust (hs : s.Volume m) (sub : ℕ) (delta : BitVec 32) : (s.adjust m sub delta).Volume m where
  coherent :=
    { buffers := hs.coherent.buffers
      noError := fun m' => by
        rw [adjust_mounts]
        exact hs.coherent.noError m'
      unique := hs.coherent.unique
      freeNodup := hs.coherent.freeNodup
      memFree := hs.coherent.memFree
      clean := fun i m' => by
        rw [adjust_mounts]
        exact hs.coherent.clean i m'
      placed := fun i m' hi => by
        rw [adjust_mounts]
        obtain ⟨hreach, hoff⟩ := hs.coherent.placed i m' hi
        exact ⟨hreach, hoff⟩ }
  room := hs.room
  aligned := fun sub' => by
    rw [adjust_mounts]
    exact hs.aligned sub'
  placed := fun sub' chunk hchunk => by
    rw [adjust_mounts] at hchunk ⊢
    obtain ⟨hreach, hoff⟩ := hs.placed sub' chunk hchunk
    exact ⟨hreach, hoff⟩
  plain := fun sub' chunk hchunk => by
    rw [adjust_mounts] at hchunk ⊢
    exact hs.plain sub' chunk hchunk

/-- The counts of a mount agree with its bitmaps. -/
structure Driver.Accounted (s : Driver n) (m : ℕ) : Prop where
  freeZone : ∀ sub ≤ (s.mounts m).numSubs, (s.mounts m).freeZone sub = (pfsBitmapCalcFreeZones s m sub).1
  zfree : (s.mounts m).zfree = ∑ sub ∈ Finset.range ((s.mounts m).numSubs + 1), (s.mounts m).freeZone sub

/-- The counts stay right when a run and its length change together. -/
theorem Driver.Accounted.adjust {s1 : Driver n} {sub : ℕ} {delta : BitVec 32} (h : s.Accounted m) (hs : s.Volume m)
    (hreturned : s.Returned s1 m) (hsub : sub ≤ (s.mounts m).numSubs)
    (hhere : BitVec.ofNat 32 (s1.freeZones m sub) = BitVec.ofNat 32 (s.freeZones m sub) + delta)
    (hother : ∀ sub' ≤ (s.mounts m).numSubs, sub' ≠ sub → s1.freeZones m sub' = s.freeZones m sub') :
    (s1.adjust m sub delta).Accounted m := by
  have hsame := hreturned.same m
  have hfree : (s1.mounts m).freeZone = (s.mounts m).freeZone := by rw [hsame]
  have hzfree : (s1.mounts m).zfree = (s.mounts m).zfree := by rw [hsame]
  have hcalc : ∀ sub' ≤ (s.mounts m).numSubs,
      (s.mounts m).freeZone sub' = BitVec.ofNat 32 (s.freeZones m sub') :=
    fun sub' hsub' => (h.freeZone sub' hsub').trans (pfsBitmapCalcFreeZones_spec hs hsub').1
  constructor
  · intro sub' hsub'
    have hvolume := hreturned.volume.adjust sub delta
    rw [(pfsBitmapCalcFreeZones_spec hvolume hsub').1, adjust_freeZones, adjust_mount, hfree]
    rw [adjust_mount] at hsub'
    replace hsub' : sub' ≤ (s.mounts m).numSubs := hsame.numSubs ▸ hsub'
    by_cases hne : sub' = sub
    · subst hne
      simp only [update_self]
      rw [hcalc sub' hsub', hhere]
    · simp only [update_of_ne hne]
      rw [hcalc sub' hsub', hother sub' hsub' hne]
  · have hmem : sub ∈ range ((s.mounts m).numSubs + 1) := mem_range.mpr (lt_succ_of_le hsub)
    rw [adjust_mount]
    simp only [hfree, hzfree, hsame.numSubs]
    rw [sum_update_of_mem hmem, h.zfree, ← add_sum_erase _ _ hmem, sdiff_singleton_eq_erase]
    exact add_right_comm _ _ _

/-- A request to the zone allocator. -/
inductive ZoneRequest
  | search (turns : ℕ) (bi : BlockInfo) (maxCount : ℕ)
  | extend (bi : BlockInfo) (count : ℕ)
  | release (bi : BlockInfo)

/-- Serve a request; the reply is the run that was handed out or given back. -/
def Driver.serve (m : ℕ) (s : Driver n) : ZoneRequest → BlockInfo × Driver n
  | .search turns bi maxCount =>
    match pfsBitmapSearchFreeZone turns s m bi maxCount with
    | some (_, bi, s) => (bi, s)
    | none => (bi, s)
  | .extend bi count =>
    let (res, s) := pfsBitmapAllocateAdditionalZones s m bi count
    (⟨(bi.number + bi.count) % 2 ^ 32, bi.subpart, res⟩, s)
  | .release bi => (bi, pfsBitmapFreeBlockSegment s m bi)

/-- What a request leaves in the zones of its run. -/
def ZoneRequest.marks : ZoneRequest → Bool
  | .search .. => true
  | .extend .. => true
  | .release _ => false

/-- A request that may be made: the search returns, partitions exist, and only runs in use are
given back. -/
def ZoneRequest.Admissible (m : ℕ) (s : Driver n) : ZoneRequest → Prop
  | .search turns bi maxCount => (pfsBitmapSearchFreeZone turns s m bi maxCount).isSome = true
  | .extend bi _ => bi.subpart ≤ (s.mounts m).numSubs
  | .release bi => s.Allocated m bi

/-- The run of a reply had the other value before and has the value after, and every other bit of
every bitmap of the volume is as it was. -/
structure Driver.Marked (s s' : Driver n) (m : ℕ) (bi : BlockInfo) (value : Bool) : Prop where
  subpart : bi.subpart ≤ (s.mounts m).numSubs
  inside : 0 < bi.count → bi.number + bi.count ≤ (s.mounts m).zones bi.subpart
  before : ∀ p, bi.number ≤ p → p < bi.number + bi.count → s.zone m bi.subpart p = !value
  after : ∀ p, bi.number ≤ p → p < bi.number + bi.count → s'.zone m bi.subpart p = value
  others : ∀ sub p, (s.mounts m).HasChunk sub (p / bitsPerBitmapChunk) →
    ¬ (sub = bi.subpart ∧ bi.number ≤ p ∧ p < bi.number + bi.count) → s'.zone m sub p = s.zone m sub p

/-- Zones handed out and taken from the counts. -/
theorem Driver.HandsOut.accounted {s1 : Driver n} {bi : BlockInfo}
    (h : s.HandsOut s1 m bi.subpart bi.number bi.count) (hs : s.Volume m) (hacc : s.Accounted m)
    (hsub : bi.subpart ≤ (s.mounts m).numSubs) : s.Marked (s1.takeZones m bi.subpart bi.count) m bi true ∧
      (s1.takeZones m bi.subpart bi.count).Volume m ∧ (s1.takeZones m bi.subpart bi.count).Accounted m := by
  have hsame := h.returned.same m
  rw [takeZones_eq]
  refine ⟨⟨hsub, h.inside, h.clear, fun p hlow hhigh => ?_, fun sub p hchunk hnot => ?_⟩,
    h.returned.volume.adjust _ _, hacc.adjust hs h.returned hsub ?_ fun sub' hsub' hne => ?_⟩
  · have hlt := h.inside (by omega)
    rw [adjust_zone, h.sets _ p (Mount.hasChunk_of_lt hsub (by omega)), if_pos ⟨rfl, hlow, hhigh⟩]
  · rw [adjust_zone, h.sets sub p hchunk, if_neg hnot]
  · rw [h.freeZones hsub, ofNat_add]
    exact (add_neg_cancel_right _ _).symm
  · exact h.sets.freeZones_other hsame hsub' hne

/-- Zones cleared and given back to the counts. -/
theorem Driver.Allocated.accounted {s1 : Driver n} {bi : BlockInfo} (h : s.Allocated m bi) (hs : s.Volume m)
    (hacc : s.Accounted m) (hreturned : s.Returned s1 m) (hsets : s.Sets s1 m bi.subpart bi.number bi.count false) :
    s.Marked (s1.giveZones m bi.subpart bi.count) m bi false ∧
      (s1.giveZones m bi.subpart bi.count).Volume m ∧ (s1.giveZones m bi.subpart bi.count).Accounted m := by
  have hsame := hreturned.same m
  have hinside := h.inside
  rw [giveZones_eq]
  refine ⟨⟨h.subpart, fun _ => h.inside, h.used, fun p hlow hhigh => ?_, fun sub p hchunk hnot => ?_⟩,
    hreturned.volume.adjust _ _, hacc.adjust hs hreturned h.subpart ?_ fun sub' hsub' hne => ?_⟩
  · rw [adjust_zone, hsets _ p (Mount.hasChunk_of_lt h.subpart (by omega)), if_pos ⟨rfl, hlow, hhigh⟩]
  · rw [adjust_zone, hsets sub p hchunk, if_neg hnot]
  · rw [hsets.freeZones hsame h.subpart h.inside h.used, ofNat_add]
  · exact hsets.freeZones_other hsame hsub' hne

/-- One request: its run is marked exactly, and the counts stay right. -/
theorem Driver.serve_spec (request : ZoneRequest) (hs : s.Volume m) (hacc : s.Accounted m)
    (hrequest : request.Admissible m s) : s.Marked (s.serve m request).2 m (s.serve m request).1 request.marks ∧
      (s.serve m request).2.Volume m ∧ (s.serve m request).2.Accounted m := by
  cases request with
  | search turns bi maxCount =>
    obtain ⟨⟨r, bi', s'⟩, hsearch⟩ := Option.isSome_iff_exists.mp hrequest
    obtain ⟨-, ⟨hsub, -⟩, s1, hhands, rfl⟩ := pfsBitmapSearchFreeZone_spec hs hsearch
    have hserve : s.serve m (.search turns bi maxCount) = (bi', s1.takeZones m bi'.subpart bi'.count) := by
      simp only [serve, hsearch]
    rw [hserve]
    exact hhands.accounted hs hacc hsub
  | extend bi count =>
    obtain ⟨-, -, s1, hhands, hstate⟩ := pfsBitmapAllocateAdditionalZones_spec count hs hrequest
    obtain ⟨handed, hhanded⟩ : ∃ handed, handed = (s.serve m (.extend bi count)).1 := ⟨_, rfl⟩
    have hserve : s.serve m (.extend bi count) = (handed, s1.takeZones m handed.subpart handed.count) := by
      rw [hhanded, serve]
      exact Prod.ext rfl hstate
    have hhands' : s.HandsOut s1 m handed.subpart handed.number handed.count := by
      rw [hhanded]
      exact hhands
    have hsub : handed.subpart ≤ (s.mounts m).numSubs := by
      rw [hhanded]
      exact hrequest
    rw [hserve]
    exact hhands'.accounted hs hacc hsub
  | release bi =>
    obtain ⟨s1, hreturned, hsets, hstate⟩ := pfsBitmapFreeBlockSegment_spec hs hrequest
    have hserve : s.serve m (.release bi) = (bi, s1.giveZones m bi.subpart bi.count) := by
      rw [← hstate]
      rfl
    rw [hserve]
    exact Driver.Allocated.accounted hrequest hs hacc hreturned hsets

/-- Along every admissible sequence of requests each run is marked exactly, and after each request
the free counts are those that `pfsBitmapCalcFreeZones` computes, with their sum in `zfree`. -/
theorem pfsBitmap_zone_accounting (m : ℕ) (s : Driver n) (hs : s.Volume m) (hacc : s.Accounted m)
    (requests : List ZoneRequest) (hmeet : AllMeet (Driver.serve m) (ZoneRequest.Admissible m) s requests) :
    AllMeet (Driver.serve m) (fun s request =>
        s.Marked (s.serve m request).2 m (s.serve m request).1 request.marks ∧
          (s.serve m request).2.Accounted m) s requests ∧
      (run (Driver.serve m) s requests).2.Volume m ∧ (run (Driver.serve m) s requests).2.Accounted m := by
  induction requests generalizing s with
  | nil => exact ⟨trivial, hs, hacc⟩
  | cons request rest ih =>
    obtain ⟨hmarked, hvolume, hnext⟩ := serve_spec request hs hacc hmeet.1
    obtain ⟨hsteps, hend⟩ := ih (s.serve m request).2 hvolume hnext hmeet.2
    exact ⟨⟨⟨hmarked, hnext⟩, hsteps⟩, hend⟩

/-- A driver with one empty buffer has a volume mounted if its bitmaps are placed well. -/
theorem Driver.volume_of_empty {s : Driver 1} (hempty : ∀ i, (s.cacheBuf i).pfsMount = none ∧
    (s.cacheBuf i).nused = 0) (hfree : s.free = [0]) (herror : ∀ m, (s.mounts m).lastError = 0)
    (haligned : ∀ sub ≤ (s.mounts m).numSubs, (s.mounts m).zones sub % 32 = 0)
    (hplaced : ∀ sub chunk, (s.mounts m).HasChunk sub chunk →
      (s.mounts m).Placed sub ((s.mounts m).bitmapSector sub chunk)) : s.Volume m where
  coherent :=
    { buffers := by decide
      noError := herror
      unique := fun i j _ _ _ _ _ => Subsingleton.elim i j
      freeNodup := by rw [hfree]; exact List.nodup_singleton 0
      memFree := fun i => by rw [hfree, Subsingleton.elim i 0]; simp [hempty]
      clean := fun i m h => absurd h (by simp [hempty])
      placed := fun i m h => absurd h (by simp [hempty]) }
  room := by simp [hfree]
  aligned := haligned
  placed := hplaced
  plain := fun _ _ _ _ h => absurd (CacheBuf.isFor_iff.mp h).1 (by simp [hempty])

/-- A volume of sixty-four free zones in one partition, with one cache buffer. -/
def freeVolume : Driver 1 where
  cacheBuf _ := ⟨false, .nothing, 0, none, 0, 0, fun _ => 0⟩
  free := [0]
  journalBuf := .cleared
  mounts _ :=
    { blockDev := ⟨fun _ _ => 0, []⟩
      partSize := fun _ => 64
      zfree := 64
      sectorScale := 0
      inodeScale := 0
      numSubs := 0
      log := ⟨0, 0, 0⟩
      lastError := 0
      freeZone := fun _ => 64 }

theorem freeVolume_volume : freeVolume.Volume 0 := by
  refine volume_of_empty (fun _ => ⟨rfl, rfl⟩) rfl (fun _ => rfl) (fun _ _ => by simp [freeVolume, Mount.zones]) ?_
  rintro sub chunk ⟨hsub, hlt⟩
  have hzones : (freeVolume.mounts 0).zones sub = 64 := rfl
  obtain rfl : sub = 0 := le_zero.mp hsub
  obtain rfl : chunk = 0 := by omega
  exact ⟨by decide, fun _ => .inr (by decide)⟩

theorem freeVolume_accounted : freeVolume.Accounted 0 where
  freeZone := fun sub hsub => by
    obtain rfl : sub = 0 := le_zero.mp hsub
    decide +kernel
  zfree := by decide +kernel

/-- Find four zones, add four behind them, and give the latter back. -/
def threeRequests : List ZoneRequest := [.search 1 ⟨0, 0, 4⟩ 4, .extend ⟨0, 0, 4⟩ 4, .release ⟨4, 0, 4⟩]

theorem threeRequests_admissible : AllMeet (serve 0) (ZoneRequest.Admissible 0) freeVolume threeRequests := by
  refine ⟨?_, zero_le _, ⟨?_, ?_, ?_, ?_⟩, trivial⟩
  · show (pfsBitmapSearchFreeZone 1 freeVolume 0 ⟨0, 0, 4⟩ 4).isSome = true
    decide +kernel
  · decide +kernel
  · decide +kernel
  · decide +kernel
  · intro p hlow hhigh
    have hfour : ∀ i : Fin 4, (run (serve 0) freeVolume (threeRequests.take 2)).2.zone 0 0 (4 + i) = true := by
      decide +kernel
    dsimp only at hlow hhigh
    obtain ⟨i, rfl⟩ := Nat.exists_eq_add_of_le hlow
    exact hfour ⟨i, by omega⟩

theorem pfsBitmap_zone_accounting_threeRequests : (run (Driver.serve 0) freeVolume threeRequests).2.Accounted 0 :=
  (pfsBitmap_zone_accounting 0 freeVolume freeVolume_volume freeVolume_accounted threeRequests
    threeRequests_admissible).2.2

/-- A zone lies in a run. -/
def BlockInfo.covers (bi : BlockInfo) (sub p : ℕ) : Bool :=
  decide (sub = bi.subpart ∧ bi.number ≤ p ∧ p < bi.number + bi.count)

namespace Vol

variable (v : Vol) (bi : BlockInfo)

/-- `pfsBitmapFreeBlockSegment`: the zones are cleared and given back to the counts. -/
def pfsBitmapFreeBlockSegment : Vol :=
  { v with
    used := fun sub p => if bi.covers sub p then false else v.used sub p
    freeZone := Function.update v.freeZone bi.subpart (v.freeZone bi.subpart + BitVec.ofNat 32 bi.count)
    zfree := v.zfree + BitVec.ofNat 32 bi.count }

variable (runs : List BlockInfo)

/-- Release some runs. -/
def freeAll : Vol := runs.foldl pfsBitmapFreeBlockSegment v

/-- The zones of some runs. -/
def total : ℕ := (runs.map BlockInfo.count).sum

@[simp]
theorem total_cons (runs : List BlockInfo) : total (bi :: runs) = bi.count + total runs := rfl

theorem total_append (runs runs' : List BlockInfo) : total (runs ++ runs') = total runs + total runs' := by
  unfold total
  rw [List.map_append, List.sum_append]

theorem freeAll_block : (v.freeAll runs).block = v.block ∧ (v.freeAll runs).inodeScale = v.inodeScale := by
  induction runs generalizing v with
  | nil => exact ⟨rfl, rfl⟩
  | cons bi runs ih => exact ih (v.pfsBitmapFreeBlockSegment bi)

theorem freeAll_used (sub p : ℕ) : (v.freeAll runs).used sub p = (v.used sub p && !runs.any (·.covers sub p)) := by
  induction runs generalizing v with
  | nil => rw [List.any_nil, Bool.not_false, Bool.and_true]; rfl
  | cons bi runs ih =>
    rw [show v.freeAll (bi :: runs) = (v.pfsBitmapFreeBlockSegment bi).freeAll runs from rfl, ih, List.any_cons]
    show ((if bi.covers sub p then false else v.used sub p) && _) = _
    cases bi.covers sub p <;> simp

theorem freeAll_zfree : (v.freeAll runs).zfree = v.zfree + BitVec.ofNat 32 (total runs) := by
  induction runs generalizing v with
  | nil => exact (BitVec.add_zero _).symm
  | cons bi runs ih =>
    rw [show v.freeAll (bi :: runs) = (v.pfsBitmapFreeBlockSegment bi).freeAll runs from rfl, ih, total_cons,
      BitVec.ofNat_add, ← BitVec.add_assoc]
    rfl

/-- A partition's count is raised by the zones of the runs in it. -/
theorem freeAll_freeZone (sub : ℕ) : (v.freeAll runs).freeZone sub =
      v.freeZone sub + BitVec.ofNat 32 (total (runs.filter fun bi => bi.subpart = sub)) := by
  induction runs generalizing v with
  | nil => exact (BitVec.add_zero _).symm
  | cons bi runs ih =>
    rw [show v.freeAll (bi :: runs) = (v.pfsBitmapFreeBlockSegment bi).freeAll runs from rfl, ih]
    show Function.update v.freeZone bi.subpart (v.freeZone bi.subpart + BitVec.ofNat 32 bi.count) sub + _ = _
    by_cases hsub : bi.subpart = sub
    · subst hsub
      rw [Function.update_self, List.filter_cons_of_pos (by simp), total_cons, BitVec.ofNat_add,
        ← BitVec.add_assoc]
    · rw [Function.update_of_ne (Ne.symm hsub), List.filter_cons_of_neg (by simpa using hsub)]

/-- Mark a run of zones and take it from the counts. -/
def takeRun : Vol :=
  { v with
    used := fun sub p => if bi.covers sub p then true else v.used sub p
    freeZone := Function.update v.freeZone bi.subpart (v.freeZone bi.subpart - BitVec.ofNat 32 bi.count)
    zfree := v.zfree - BitVec.ofNat 32 bi.count }

end Vol

/-- The partitions of a volume and their zones, which are numbered in 16 and in 32 bits. -/
structure Partitions where
  numSubs : ℕ
  zones : ℕ → ℕ
  numSubs_lt : numSubs < 2 ^ 16
  zones_lt : ∀ sub ≤ numSubs, zones sub < 2 ^ 32

/-- The number of clear zones of a volume. -/
def Vol.clearZones (v : Vol) (parts : Partitions) : ℕ :=
  before (fun sub => ((Finset.range (parts.zones sub)).filter fun p => v.used sub p = false).card)
    (parts.numSubs + 1)

/-- A run of clear zones of a volume is marked. -/
structure Vol.Gives (v : Vol) (parts : Partitions) (bi : BlockInfo) (v' : Vol) : Prop where
  state : v' = v.takeRun bi
  subpart : bi.subpart ≤ parts.numSubs
  inside : 0 < bi.count → bi.number + bi.count ≤ parts.zones bi.subpart
  clear : ∀ p, bi.number ≤ p → p < bi.number + bi.count → v.used bi.subpart p = false

/-- The marked zones are taken from the clear ones. -/
theorem Vol.Gives.clearZones {v v' : Vol} {parts : Partitions} {bi : BlockInfo} (h : v.Gives parts bi v') :
    v.clearZones parts = v'.clearZones parts + bi.count := by
  unfold Vol.clearZones
  refine before_add_at (Nat.lt_succ_of_le h.subpart) ?_ fun sub _ hne => ?_
  · refine card_clear_run h.inside h.clear fun p _ => ?_
    rw [h.state]
    show (if bi.covers bi.subpart p then true else v.used bi.subpart p) = _
    simp only [BlockInfo.covers, true_and, decide_eq_true_eq]
  · rw [h.state]
    refine congrArg _ (Finset.filter_congr fun p _ => ?_)
    show v.used sub p = false ↔ (if bi.covers sub p then true else v.used sub p) = false
    rw [if_neg (by simp [BlockInfo.covers, hne])]

section Mounted

/-- A mounted volume: the metadata cache with the bitmaps, and the blocks of the inodes. -/
structure Mounted (n : ℕ) where
  driver : Driver n
  blocks : Vol

/-- The volume that the routines on inodes see: its bitmaps and its counts are those of the cache. -/
def Mounted.vol (st : Mounted n) (m : ℕ) : Vol :=
  { st.blocks with
    used := fun sub p => decide (sub ≤ (st.driver.mounts m).numSubs ∧ p < (st.driver.mounts m).zones sub) &&
      st.driver.zone m sub p
    freeZone := (st.driver.mounts m).freeZone
    zfree := (st.driver.mounts m).zfree }

/-- The cache is in order, and the volume has these partitions. -/
structure Mounted.Sound (st : Mounted n) (m : ℕ) (parts : Partitions) : Prop where
  volume : st.driver.Volume m
  numSubs : (st.driver.mounts m).numSubs = parts.numSubs
  zones : (st.driver.mounts m).zones = parts.zones

variable {st : Mounted n} {parts : Partitions} {bi : BlockInfo} {s1 : Driver n} (h : st.Sound m parts)

include h

theorem Mounted.Sound.used {p : ℕ} (hsub : sub ≤ parts.numSubs) (hp : p < parts.zones sub) :
    (st.vol m).used sub p = st.driver.zone m sub p := by
  show (decide (sub ≤ (st.driver.mounts m).numSubs ∧ p < (st.driver.mounts m).zones sub) && _) = _
  rw [h.numSubs, h.zones, decide_eq_true ⟨hsub, hp⟩, Bool.true_and]

/-- A run is set in the cache, and with it in the volume. -/
theorem Mounted.Sound.adjust {value : Bool} (hreturned : st.driver.Returned s1 m)
    (hsets : st.driver.Sets s1 m bi.subpart bi.number bi.count value) (hsub : bi.subpart ≤ parts.numSubs)
    (hinside : 0 < bi.count → bi.number + bi.count ≤ parts.zones bi.subpart) (delta : BitVec 32) :
    Mounted.Sound { st with driver := s1.adjust m bi.subpart delta } m parts ∧
      Mounted.vol { st with driver := s1.adjust m bi.subpart delta } m =
        { st.vol m with
          used := fun sub p => if bi.covers sub p then value else (st.vol m).used sub p
          freeZone := update (st.vol m).freeZone bi.subpart ((st.vol m).freeZone bi.subpart + delta)
          zfree := (st.vol m).zfree + delta } := by
  have hsame := hreturned.same m
  have hcounts : (s1.mounts m).freeZone = (st.driver.mounts m).freeZone ∧
      (s1.mounts m).zfree = (st.driver.mounts m).zfree := by
    rw [hsame]
    exact ⟨rfl, rfl⟩
  have hnum : ((s1.adjust m bi.subpart delta).mounts m).numSubs = parts.numSubs := by
    rw [adjust_mount, ← h.numSubs, ← hsame.numSubs]
  have hzones : ((s1.adjust m bi.subpart delta).mounts m).zones = parts.zones := by
    funext sub
    rw [adjust_zones, hsame.zones, h.zones]
  have hused : ∀ sub p, (decide (sub ≤ parts.numSubs ∧ p < parts.zones sub) && s1.zone m sub p) =
      if bi.covers sub p then value else
        decide (sub ≤ parts.numSubs ∧ p < parts.zones sub) && st.driver.zone m sub p := by
    intro sub p
    by_cases hp : sub ≤ parts.numSubs ∧ p < parts.zones sub
    · rw [hsets sub p (Mount.hasChunk_of_lt (h.numSubs ▸ hp.1) (h.zones ▸ hp.2)), decide_eq_true hp,
        Bool.true_and, Bool.true_and]
      simp only [BlockInfo.covers, decide_eq_true_eq]
    · rw [decide_eq_false hp, Bool.false_and, Bool.false_and, if_neg]
      rw [BlockInfo.covers, decide_eq_true_eq]
      rintro ⟨rfl, hlow, hhigh⟩
      exact hp ⟨hsub, hhigh.trans_le (hinside (by omega))⟩
  refine ⟨⟨hreturned.volume.adjust _ _, hnum, hzones⟩, ?_⟩
  simp only [vol, hnum, hzones, h.numSubs, h.zones, adjust_zone, hused]
  rw [adjust_mount, hcounts.1, hcounts.2]

/-- The zones that the cache hands out are zones of the volume. -/
theorem Mounted.Sound.handsOut (hhands : st.driver.HandsOut s1 m bi.subpart bi.number bi.count)
    (hsub : bi.subpart ≤ parts.numSubs) :
    Mounted.Sound { st with driver := s1.takeZones m bi.subpart bi.count } m parts ∧
      (st.vol m).Gives parts bi (Mounted.vol { st with driver := s1.takeZones m bi.subpart bi.count } m) := by
  have hinside := hhands.inside
  rw [h.zones] at hinside
  obtain ⟨hsound, hvol⟩ := h.adjust hhands.returned hhands.sets hsub hinside (-BitVec.ofNat 32 bi.count)
  rw [← takeZones_eq] at hsound hvol
  refine ⟨hsound, ?_, hsub, hinside, fun p hlow hhigh => ?_⟩
  · rw [hvol, Vol.takeRun]
    simp only [BitVec.sub_eq_add_neg]
  · have hlt := hinside (by omega)
    rw [h.used hsub (by omega)]
    exact hhands.clear p hlow hhigh

theorem Mounted.Sound.release (hbi : st.driver.Allocated m bi) :
    Mounted.Sound { st with driver := Pfs.pfsBitmapFreeBlockSegment st.driver m bi } m parts ∧
      Mounted.vol { st with driver := Pfs.pfsBitmapFreeBlockSegment st.driver m bi } m =
        (st.vol m).pfsBitmapFreeBlockSegment bi := by
  obtain ⟨s1, hreturned, hsets, hstate⟩ := pfsBitmapFreeBlockSegment_spec h.volume hbi
  rw [hstate, giveZones_eq]
  exact h.adjust hreturned hsets (h.numSubs ▸ hbi.subpart) (fun _ => h.zones ▸ hbi.inside) _

end Mounted

end Ps2sdk.Pfs
