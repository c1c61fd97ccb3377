import Ps2sdk.Mc.Protocol

/-!
# Flushes of the cluster cache

The new contents of an erase block are its old contents overlaid by the cached clusters that belong
to it. However often a flush and the recoveries that follow are cut off, the block of a card that the
driver has admitted ends up with its old or its new contents.

In the states that reads, changes, flushes and releases lead to, no cluster is held by two entries. Entries that
hold nothing stay in the array with the cluster number -1, which the flush of the first block takes for one of its
clusters.
-/

namespace Ps2sdk.Mc

open List Nat Int

/-- The entry caches a cluster of a card. -/
def CacheEntry.Holds (entry : CacheEntry) (unit : ℕ × ℕ) (cluster : ℕ) : Prop :=
  (entry.mcPort, entry.mcSlot) = unit ∧ entry.cluster = cluster

instance (entry : CacheEntry) (unit : ℕ × ℕ) (cluster : ℕ) : Decidable (entry.Holds unit cluster) :=
  inferInstanceAs (Decidable (_ ∧ _))

/-- The entry that caches a cluster, the last one if there were several. -/
def cachedEntry (s : Mcman) (unit : ℕ × ℕ) (cluster : ℕ) : Option EntryRef :=
  (List.finRange maxCacheEntry).reverse.find? fun e => (s.entrycache e).Holds unit cluster

/-- The words of page `i` of a block. -/
def storedWords (s : Mcman) (unit : ℕ × ℕ) (block i : ℕ) : Words :=
  (s.cards unit (block * (s.devinfos unit).blocksize + i)).words

/-- A cluster number splits into its block and its place there. -/
theorem cluster_split {cluster : ℤ} {block cpb j : ℕ} (hj : j < cpb) : cluster = (block * cpb + j : ℕ) ↔
    cluster.tdiv cpb = block ∧ cluster.tmod cpb = j := by
  constructor
  · rintro rfl
    rw [tdiv_eq_ediv_of_nonneg (natCast_nonneg _), tmod_eq_emod_of_nonneg (natCast_nonneg _)]
    norm_cast
    have hpos : 0 < cpb := zero_lt_of_lt hj
    rw [mul_comm, mul_add_div hpos, div_eq_of_lt hj, add_zero, mul_add_mod, mod_eq_of_lt hj]
    exact ⟨rfl, rfl⟩
  · rintro ⟨hdiv, hmod⟩
    have hsplit := mul_tdiv_add_tmod cluster cpb
    rw [hdiv, hmod] at hsplit
    rw [← hsplit]
    push_cast
    ring

section Gather

variable {s : Mcman} {unit : ℕ × ℕ} {block : ℕ}

/-- One turn of the collecting loop records the entry at the cluster it caches. -/
theorem gatherStep_fst (acc : (ℤ → Option EntryRef) × Bool) (e : EntryRef) {j : ℕ}
    (hj : j < (s.devinfos unit).clustersPerBlock) : (gatherStep s unit block acc e).1 j =
      if (s.entrycache e).Holds unit (block * (s.devinfos unit).clustersPerBlock + j) then some e
      else acc.1 j := by
  have hholds : (s.entrycache e).Holds unit (block * (s.devinfos unit).clustersPerBlock + j) ↔ _ :=
    and_congr_right fun _ => cluster_split hj
  unfold gatherStep
  dsimp only
  split
  · next h =>
    dsimp only
    by_cases hmod : (s.entrycache e).cluster.tmod (s.devinfos unit).clustersPerBlock = j
    · rw [hmod, Function.update_self, if_pos (hholds.mpr ⟨h.1, h.2, hmod⟩)]
    · rw [Function.update_of_ne (Ne.symm hmod), if_neg fun hc => hmod (hholds.mp hc).2.2]
  · next h => rw [if_neg fun hc => h ⟨hc.1, (hholds.mp hc).2.1⟩]

/-- The loop leaves the last entry caching each cluster. -/
theorem foldl_gatherStep_fst (es : List EntryRef) (acc : (ℤ → Option EntryRef) × Bool) {j : ℕ}
    (hj : j < (s.devinfos unit).clustersPerBlock) : (es.foldl (gatherStep s unit block) acc).1 j =
      (es.reverse.find? fun e =>
        (s.entrycache e).Holds unit (block * (s.devinfos unit).clustersPerBlock + j)).or (acc.1 j) := by
  induction es generalizing acc with
  | nil => rfl
  | cons e es ih =>
    rw [foldl_cons, ih, gatherStep_fst acc e hj, reverse_cons, find?_append, Option.or_assoc]
    congr 1
    rw [find?_singleton]
    by_cases hholds : (s.entrycache e).Holds unit (block * (s.devinfos unit).clustersPerBlock + j)
    · simp [hholds]
    · simp [hholds]

theorem gather_fst {j : ℕ} (hj : j < (s.devinfos unit).clustersPerBlock) :
    (gather s unit block).1 j = cachedEntry s unit (block * (s.devinfos unit).clustersPerBlock + j) := by
  rw [gather, foldl_gatherStep_fst _ _ hj, Option.or_none]
  rfl

end Gather

open Lib DevInfo

/-- A dirty entry of a block is about to be flushed through the backup blocks, and no page that is read back for it
makes `McReadPage` store behind its code buffer. -/
structure Mcman.Flushing (s : Mcman) (mce : EntryRef) (unit : ℕ × ℕ) (mcdi : DevInfo) (block : ℕ) : Prop where
  devinfos : s.devinfos unit = mcdi
  dirty : (s.entrycache mce).wrFlag ≠ 0
  cluster : ∃ j < mcdi.clustersPerBlock, (s.entrycache mce).Holds unit (block * mcdi.clustersPerBlock + j)
  plain : ∃ e, ∃ j < mcdi.clustersPerBlock, (s.entrycache e).Holds unit (block * mcdi.clustersPerBlock + j) ∧
    (s.entrycache e).rdFlag = 0
  badblock : s.badblock ≤ 0
  erased : mcdi.BlockErased (s.cards unit) mcdi.backupBlock2
  within : ∀ i < mcdi.blocksize,
    cachedEntry s unit (block * mcdi.clustersPerBlock + i / mcdi.pagesPerCluster) = none →
      (mcReadPage mcdi (s.cards unit (block * mcdi.blocksize + i))).isSome

/-- The card after recoveries that are stopped after the given numbers of operations and one that
completes. -/
def Mcman.recovered (s : Mcman) (unit : ℕ × ℕ) (pages : Pages) (counts : List ℕ) : Pages :=
  let pages := counts.foldl (stopped (s.devinfos unit).apply (s.recoveryOps unit)) pages
  (s.devinfos unit).applyAll pages (s.recoveryOps unit pages)

section Flush

variable {s : Mcman} {mce : EntryRef} {unit : ℕ × ℕ} {mcdi : DevInfo} {block : ℕ}

section

variable (h : s.Flushing mce unit mcdi block)
include h

theorem Mcman.Flushing.place : ((s.entrycache mce).mcPort, (s.entrycache mce).mcSlot) = unit ∧
      (s.entrycache mce).cluster.tdiv (s.devinfos unit).clustersPerBlock = block := by
  obtain ⟨j, hj, hunit, hcluster⟩ := h.cluster
  rw [h.devinfos]
  exact ⟨hunit, ((cluster_split hj).mp hcluster).1⟩

end

theorem Mcman.Flushing.holds (h : s.Flushing mce unit mcdi block) :
    mcdi.BlockHolds (s.cards unit) block (storedWords s unit block) := by
  intro i _
  rw [← h.devinfos]
  rfl

end Flush

/-- The usual card: 512-byte pages, two to a cluster, 16 to a block, with codes. -/
def standardCard : DevInfo where
  groups := 4
  pagesPerCluster := 2
  clustersPerBlock := 8
  useEcc := true
  eraseZeroes := false
  backupBlock1 := 1023
  backupBlock2 := 1022
  groups_pos := by decide
  groups_le := by decide
  pages_pos := by decide
  block_pages := by decide
  clusters_le := by decide
  backups_ne := by decide

/-- Three clusters of block 5 of such a card are cached, changed after a plain read; the others are on the card. -/
def partlyCached : Mcman where
  devinfos := fun _ => standardCard
  cards := fun _ p => if p / 16 = 1022 then standardCard.erasedPage else ⟨fun _ => 1, fun _ => 0xFF⟩
  issued := []
  entrycache := fun e => if (e : ℕ) < 3 then ⟨40 + e, 0, 0, 1, 0, fun _ _ => 2⟩ else ⟨-1, 0, 0, 0, 0, fun _ _ => 0⟩
  mccache := List.finRange maxCacheEntry
  pagebuf := fun _ => 0
  eccdata := fun _ => 0
  eccbuf := fun _ => 0
  badblock := 0
  badblockUnit := (0, 0)
  replacementcluster := fun _ => 0

open Function

/-- `mcman_initcache`, over zeroed memory. -/
def mcmanInitcache (s : Mcman) : Mcman :=
  { s with
    entrycache := fun e => ⟨-1, 0, 0, 0, 0, (s.entrycache e).clData⟩
    mccache := (List.finRange maxCacheEntry).reverse }

/-- The entry belongs to a card. -/
def CacheEntry.On (entry : CacheEntry) (unit : ℕ × ℕ) : Prop := entry.mcPort = unit.1 ∧ entry.mcSlot = unit.2

instance (entry : CacheEntry) (unit : ℕ × ℕ) : Decidable (entry.On unit) := inferInstanceAs (Decidable (_ ∧ _))

/-- The second loop of `mcman_clearcache`: each entry without a cluster changes places with the next one that holds
one. The turns are the entries left. -/
def compact (held : EntryRef → Bool) : ℕ → List EntryRef → List EntryRef
  | turns + 1, mce :: rest =>
    if held mce then mce :: compact held turns rest
    else
      match rest.find? held with
      | none => mce :: rest
      | some next => next :: compact held turns (rest.replace next mce)
  | _, mccache => mccache

/-- `mcman_clearcache`; port and slot are stored in 8 and 16 bits. -/
def mcmanClearcache (s : Mcman) (unit : ℕ × ℕ) : Mcman :=
  let entrycache := fun e =>
    if (s.entrycache e).On unit ∧ 0 ≤ (s.entrycache e).cluster then
      { s.entrycache e with mcPort := 0xFF, mcSlot := 0xFFFF, wrFlag := 0, cluster := -1 }
    else s.entrycache e
  { s with entrycache, mccache := compact (fun e => 0 ≤ (entrycache e).cluster) maxCacheEntry s.mccache }

/-- The loop of `mcman_flushmccache`, from the least recently used entry on. -/
def flushLoop (unit : ℕ × ℕ) : List EntryRef → Mcman → ℤ × Mcman
  | [], s => (0, s)
  | mce :: rest, s =>
    if (s.entrycache mce).On unit ∧ (s.entrycache mce).wrFlag ≠ 0 then
      let (r, s) := mcmanFlushcacheentry s mce
      if r ≠ 0 then (r, s) else flushLoop unit rest s
    else flushLoop unit rest s

/-- `mcman_flushmccache`. -/
def mcmanFlushmccache (s : Mcman) (unit : ℕ × ℕ) : ℤ × Mcman := flushLoop unit s.mccache.reverse s

/-- The states of the cache. A caller may change the data and the flags of an entry, and what is not the cache may
change in any way between two calls. -/
inductive CacheReach : Mcman → Prop
  | init (s : Mcman) : CacheReach (mcmanInitcache s)
  | read {s} (unit : ℕ × ℕ) (cluster : ℤ) : CacheReach s → CacheReach (mcmanReadcluster s unit cluster).2.2
  | change {s} (e : EntryRef) (wrFlag rdFlag : ℕ) (clData : ℕ → Words) : CacheReach s →
    CacheReach { s with
      entrycache := Function.update s.entrycache e { s.entrycache e with wrFlag, rdFlag, clData } }
  | flush {s} (unit : ℕ × ℕ) : CacheReach s → CacheReach (mcmanFlushmccache s unit).2
  | free {s} (unit : ℕ × ℕ) (cluster : ℤ) : CacheReach s → CacheReach (mcmanFreecluster s unit cluster)
  | clear {s} (unit : ℕ × ℕ) : CacheReach s → CacheReach (mcmanClearcache s unit)
  | other {s s'} : CacheReach s → s'.entrycache = s.entrycache → s'.mccache = s.mccache → CacheReach s'

variable {s s' : Mcman} {unit : ℕ × ℕ} {e : EntryRef}

/-- No cluster is held by two entries. -/
def Mcman.Unique (s : Mcman) : Prop :=
  ∀ unit cluster e e', (s.entrycache e).Holds unit cluster → (s.entrycache e').Holds unit cluster → e = e'

theorem Mcman.Unique.of_holds (h : s.Unique)
    (hholds : ∀ e unit cluster, (s'.entrycache e).Holds unit cluster → (s.entrycache e).Holds unit cluster) :
    s'.Unique :=
  fun unit cluster e e' he he' => h unit cluster e e' (hholds _ _ _ he) (hholds _ _ _ he')

theorem writePages_entrycache (s : Mcman) (unit : ℕ × ℕ) (first : ℕ) (pagedata : ℕ → Words) (pages : List ℕ) :
    (writePages s unit first pagedata pages).entrycache = s.entrycache := by
  induction pages generalizing s with
  | nil => rfl
  | cons i pages ih => exact ih _

/-- A flush marks entries as clean. -/
theorem mcmanFlushcacheentry_entrycache (s : Mcman) (mce : EntryRef) :
    (mcmanFlushcacheentry s mce).2.entrycache = s.entrycache ∨
      ∃ clusters pmce, (mcmanFlushcacheentry s mce).2.entrycache = clearWrFlags s.entrycache clusters pmce := by
  unfold mcmanFlushcacheentry
  split
  · exact .inl rfl
  · generalize ((s.entrycache mce).mcPort, (s.entrycache mce).mcSlot) = unit
    dsimp only
    generalize gather s unit _ = found
    generalize ((s.entrycache mce).cluster.tdiv _).toNat = block
    split
    · exact .inl rfl
    · refine .inr ⟨(s.devinfos unit).clustersPerBlock, found.1, ?_⟩
      cases found.2 && decide (s.badblock ≤ 0) with
      | false =>
        rw [writePages_entrycache, writePages_entrycache]
        rfl
      | true =>
        rw [writePages_entrycache, writePages_entrycache]
        change clearWrFlags (writePages _ _ _ _ _).entrycache _ _ = _
        rw [writePages_entrycache]
        rfl

variable {cluster : ℕ}

theorem mcmanFlushcacheentry_holds {mce : EntryRef}
    (h : ((mcmanFlushcacheentry s mce).2.entrycache e).Holds unit cluster) :
    (s.entrycache e).Holds unit cluster := by
  rcases mcmanFlushcacheentry_entrycache s mce with hsame | ⟨clusters, pmce, hclear⟩
  · rwa [hsame] at h
  · rw [hclear, clearWrFlags] at h
    split at h <;> exact h

/-- The flushes of a loop keep the clusters. -/
theorem flushLoop_holds {flushed : ℕ × ℕ} (mces : List EntryRef)
    (h : ((flushLoop flushed mces s).2.entrycache e).Holds unit cluster) : (s.entrycache e).Holds unit cluster := by
  induction mces generalizing s with
  | nil => exact h
  | cons mce mces ih =>
    unfold flushLoop at h
    split at h
    · dsimp only at h
      split at h
      · exact mcmanFlushcacheentry_holds h
      · exact mcmanFlushcacheentry_holds (ih h)
    · exact ih h

theorem not_holds_of_mcmanGetcacheentry (h : mcmanGetcacheentry s unit cluster = none) (e : EntryRef) :
    ¬ (s.entrycache e).Holds unit cluster := by
  rintro ⟨rfl, hcluster⟩
  have hmiss := find?_eq_none.mp h e (mem_finRange e)
  simp [hcluster] at hmiss

/-- A cluster is loaded into the one entry that is to hold it. -/
theorem Mcman.Unique.loadEntry {cluster : ℤ} {mce : EntryRef} (h : s.Unique)
    (hmiss : ∀ (c : ℕ) e, cluster = c → ¬ (s.entrycache e).Holds unit c) :
    (loadEntry s unit cluster mce).Unique := by
  have hother : ∀ e ≠ mce, (Mc.loadEntry s unit cluster mce).entrycache e = s.entrycache e :=
    fun e he => update_of_ne he _ _
  have hloaded : ∀ unit' c, ((Mc.loadEntry s unit cluster mce).entrycache mce).Holds unit' c →
      unit = unit' ∧ cluster = c := by
    intro unit' c hholds
    unfold Mc.loadEntry at hholds
    dsimp only at hholds
    rwa [update_self] at hholds
  intro unit' c e e' he he'
  by_cases hmce : e = mce <;> by_cases hmce' : e' = mce
  · rw [hmce, hmce']
  · subst hmce
    obtain ⟨rfl, hcluster⟩ := hloaded _ _ he
    rw [hother e' hmce'] at he'
    exact absurd he' (hmiss c e' hcluster)
  · subst hmce'
    obtain ⟨rfl, hcluster⟩ := hloaded _ _ he'
    rw [hother e hmce] at he
    exact absurd he (hmiss c e hcluster)
  · rw [hother e hmce] at he
    rw [hother e' hmce'] at he'
    exact h unit' c e e' he he'

/-- A read. -/
theorem Mcman.Unique.read (h : s.Unique) (unit : ℕ × ℕ) (cluster : ℤ) :
    (mcmanReadcluster s unit cluster).2.2.Unique := by
  unfold mcmanReadcluster
  dsimp only
  generalize s.replaced unit cluster = cluster
  split
  · exact h
  · next hmiss =>
    split
    · exact h
    · next mce _ =>
      have hload : ∀ s' : Mcman, (∀ e unit c, (s'.entrycache e).Holds unit c → (s.entrycache e).Holds unit c) →
          s'.Unique ∧ (Mc.loadEntry s' unit cluster mce).Unique := fun s' hs' => by
        have hunique := h.of_holds hs'
        refine ⟨hunique, hunique.loadEntry fun c e hc hholds => ?_⟩
        subst hc
        exact not_holds_of_mcmanGetcacheentry hmiss e (hs' _ _ _ hholds)
      split
      · obtain ⟨hunique, hloaded⟩ := hload _ fun e unit c => mcmanFlushcacheentry_holds
        split
        · exact hunique
        · split <;> exact hloaded
      · obtain ⟨-, hloaded⟩ := hload s fun e unit c => id
        rw [if_neg (show ¬ (0 : ℤ) ≠ 0 by decide)]
        split <;> exact hloaded

/-- In every state of the cache a cluster is held at most once. -/
theorem CacheReach.unique (h : CacheReach s) : s.Unique := by
  induction h with
  | init s =>
    rintro unit cluster e e' ⟨-, hcluster⟩ -
    simp [mcmanInitcache] at hcluster
  | read unit cluster _ ih => exact ih.read unit cluster
  | change e wrFlag rdFlag clData _ ih =>
    refine ih.of_holds fun e' unit cluster hholds => ?_
    dsimp only at hholds
    by_cases he : e' = e
    · subst he
      rwa [update_self] at hholds
    · rwa [update_of_ne he] at hholds
  | flush unit _ ih => exact ih.of_holds fun e unit cluster => flushLoop_holds _
  | free unit cluster _ ih =>
    refine ih.of_holds fun e unit' cluster' hholds => ?_
    unfold mcmanFreecluster at hholds
    dsimp only at hholds
    split at hholds
    · cases hholds.2
    · exact hholds
  | clear unit _ ih =>
    refine ih.of_holds fun e unit' cluster' hholds => ?_
    unfold mcmanClearcache at hholds
    dsimp only at hholds
    split at hholds
    · cases hholds.2
    · exact hholds
  | other _ hentrycache _ ih => exact ih.of_holds fun e unit cluster hholds => hentrycache ▸ hholds

/-- The indices into `pmce` that the collecting loop uses. -/
def Mcman.indices (s : Mcman) (unit : ℕ × ℕ) (block : ℕ) : List ℤ :=
  let cpb := (s.devinfos unit).clustersPerBlock
  (List.finRange maxCacheEntry).filterMap fun i =>
    if (s.entrycache i).On unit ∧ (s.entrycache i).cluster.tdiv cpb = block then
      some ((s.entrycache i).cluster.tmod cpb) else none

/-- The loop stays inside the table and finds the entry of each cluster of the block. -/
def Mcman.Collects (s : Mcman) (unit : ℕ × ℕ) (block : ℕ) : Prop :=
  let cpb := (s.devinfos unit).clustersPerBlock
  (∀ index ∈ s.indices unit block, 0 ≤ index ∧ index < cpb) ∧
    ∀ k < cpb, ∀ e, (gather s unit block).1 k = some e ↔ (s.entrycache e).Holds unit (block * cpb + k)

theorem cachedEntry_holds (h : cachedEntry s unit cluster = some e) : (s.entrycache e).Holds unit cluster := by
  have hfound := find?_some h
  exact of_decide_eq_true hfound

/-- The entry of each cluster is found. -/
theorem Mcman.Unique.gather (h : s.Unique) {block k : ℕ} (hk : k < (s.devinfos unit).clustersPerBlock)
    (e : EntryRef) : (gather s unit block).1 k = some e ↔
      (s.entrycache e).Holds unit (block * (s.devinfos unit).clustersPerBlock + k) := by
  rw [gather_fst hk]
  constructor
  · exact cachedEntry_holds
  · intro hholds
    cases hfound : cachedEntry s unit (block * (s.devinfos unit).clustersPerBlock + k) with
    | none =>
      have hnone := find?_eq_none.mp hfound e (mem_reverse.mpr (mem_finRange e))
      exact absurd (decide_eq_true hholds) hnone
    | some e' => rw [h _ _ e e' hholds (cachedEntry_holds hfound)]

/-- In a state of the cache the loop collects the clusters of a block exactly when it is not the first one, or no
entry of the card has a negative cluster number that the division rounds to 0. -/
theorem collects_iff (hs : CacheReach s) (unit : ℕ × ℕ) (block : ℕ) : s.Collects unit block ↔
    block ≠ 0 ∨ ∀ e, (s.entrycache e).On unit →
      ¬ (-((s.devinfos unit).clustersPerBlock : ℤ) < (s.entrycache e).cluster ∧ (s.entrycache e).cluster < 0) := by
  have hpos := (s.devinfos unit).clusters_pos
  have hindex : ∀ index, index ∈ s.indices unit block ↔ ∃ e, ((s.entrycache e).On unit ∧
      (s.entrycache e).cluster.tdiv (s.devinfos unit).clustersPerBlock = block) ∧
        (s.entrycache e).cluster.tmod (s.devinfos unit).clustersPerBlock = index := by
    simp [Mcman.indices]
  rw [Mcman.Collects, and_iff_left fun k hk e => hs.unique.gather hk e]
  simp only [hindex]
  generalize (s.devinfos unit).clustersPerBlock = cpb at *
  constructor
  · intro hrange
    refine or_iff_not_imp_left.mpr fun hblock e hon ⟨hlow, hneg⟩ => ?_
    obtain ⟨m, hm⟩ := eq_ofNat_of_zero_le (show 0 ≤ -(s.entrycache e).cluster by omega)
    have hcluster : (s.entrycache e).cluster = -m := by omega
    have hdiv : (s.entrycache e).cluster.tdiv cpb = block := by
      rw [not_not.mp hblock, hcluster, Int.neg_tdiv, Int.tdiv_eq_zero_of_lt (by omega) (by omega)]
      rfl
    have hmod : (s.entrycache e).cluster.tmod cpb = -m := by
      rw [hcluster, Int.neg_tmod, Int.tmod_eq_of_lt (by omega) (by omega)]
    have := (hrange _ ⟨e, ⟨hon, hdiv⟩, hmod⟩).1
    omega
  · rintro hfirst _ ⟨e, ⟨hon, hdiv⟩, rfl⟩
    have hsplit := mul_tdiv_add_tmod (s.entrycache e).cluster cpb
    have hlow := lt_tmod_of_pos (s.entrycache e).cluster (natCast_pos.mpr hpos)
    refine ⟨?_, tmod_lt_of_pos _ (natCast_pos.mpr hpos)⟩
    by_contra hneg
    rw [hdiv] at hsplit
    rcases Nat.eq_zero_or_pos block with rfl | hblock
    · exact hfirst.resolve_left (not_not.mpr rfl) e hon (by omega)
    · have hle := Int.mul_le_mul_of_nonneg_left (show (1 : ℤ) ≤ block by omega) (Int.natCast_nonneg cpb)
      exact hneg (Int.tmod_nonneg _ (by omega))

/-- The driver when it starts, with a usual card. -/
def firstCache : Mcman := mcmanInitcache partlyCached

/-- The cache after cluster 40 has been read and changed. -/
def blockChanged : Mcman :=
  let s := (mcmanReadcluster firstCache (0, 0) 40).2.2
  { s with
    entrycache := Function.update s.entrycache 0 { s.entrycache 0 with wrFlag := 1, clData := fun _ _ => 2 } }

/-- Its changed entry is collected with the clusters of block 5. -/
theorem collects_iff_blockChanged : CacheReach blockChanged ∧ (blockChanged.entrycache 0).Holds (0, 0) 40 ∧
    (blockChanged.entrycache 0).wrFlag ≠ 0 ∧ blockChanged.Collects (0, 0) 5 :=
  have hreach : CacheReach blockChanged := .change 0 1 _ _ (.read (0, 0) 40 (.init _))
  ⟨hreach, by decide +kernel, by decide +kernel, (collects_iff hreach (0, 0) 5).mpr (.inl (by decide))⟩

/-- The cache after the first cluster of the card has been read and marked as changed. -/
def firstChanged : Mcman :=
  let s := (mcmanReadcluster firstCache (0, 0) 0).2.2
  { s with entrycache := Function.update s.entrycache 0 { s.entrycache 0 with wrFlag := 1 } }

/-- A flush of the first cluster then stores entries that hold nothing before the table. -/
theorem firstChanged_index : CacheReach firstChanged ∧ (firstChanged.entrycache 0).Holds (0, 0) 0 ∧
    (firstChanged.entrycache 0).wrFlag ≠ 0 ∧ -1 ∈ firstChanged.indices (0, 0) 0 :=
  ⟨.change 0 1 _ _ (.read (0, 0) 0 (.init _)), by decide +kernel, by decide +kernel, by decide +kernel⟩

end Ps2sdk.Mc
