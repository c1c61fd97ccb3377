import Mathlib.Data.List.TakeWhile
import Mathlib.Tactic.Ring
import Ps2sdk.Mc.Card

/-!
# The operations issued to a card

Every function of the driver that touches a card does so by issuing operations in order, and the
card is always the result of the operations issued. The flush and the recovery are brought to that
form: a list of operations computed from the state they start in. On a fresh cache the recovery
evicts none of the clusters it loads.
-/

namespace Ps2sdk.Mc

open DevInfo

variable (s : Mcman)

/-- Issue operations to a card in order. -/
def Mcman.performAll (unit : ℕ × ℕ) (ops : List CardOp) : Mcman :=
  ops.foldl (fun s op => s.perform unit op) s

/-- Issuing operations changes the card and the record of what was issued, nothing else. -/
theorem Mcman.performAll_eq (unit : ℕ × ℕ) (ops : List CardOp) : s.performAll unit ops = { s with
      cards := Function.update s.cards unit ((s.devinfos unit).applyAll (s.cards unit) ops)
      issued := s.issued ++ ops.map (Prod.mk unit) } := by
  induction ops generalizing s with
  | nil => simp [performAll, applyAll]
  | cons op ops ih =>
    have hstep : s.performAll unit (op :: ops) = (s.perform unit op).performAll unit ops := rfl
    rw [hstep, ih]
    simp [perform, applyAll]

variable (mcdi : DevInfo)

/-- A page as `McWritePage` sends it. -/
def DevInfo.writtenPage (words : Words) (spare : ℕ → BitVec 8) : Page :=
  ⟨words, if mcdi.useEcc then spare else fun _ => mcdi.eraseByte⟩

/-- The operations that write some pages of a block. -/
def DevInfo.pageOps (block : ℕ) (pagedata : ℕ → Words) (eccdata : ℕ → BitVec 8) (pages : List ℕ) : List CardOp :=
  pages.map fun i => .program (block * mcdi.blocksize + i)
    (mcdi.writtenPage (pagedata i) fun k => eccdata (mcdi.sparesize * i + k))

variable (unit : ℕ × ℕ) (block : ℕ)

theorem writePages_eq (pagedata : ℕ → Words) (pages : List ℕ) :
    writePages s unit (block * (s.devinfos unit).blocksize) pagedata pages =
      s.performAll unit ((s.devinfos unit).pageOps block pagedata s.eccdata pages) := by
  induction pages generalizing s with
  | nil => rfl
  | cons i pages ih =>
    exact ih (mcWritePage s unit _ _ _)

/-- The operations that write a block anew and then erase the second backup block. -/
def DevInfo.rewriteOps (pagedata : ℕ → Words) (eccdata : ℕ → BitVec 8) (pages : List ℕ) : List CardOp :=
  .erase block :: mcdi.pageOps block pagedata eccdata pages ++ [.erase mcdi.backupBlock2]

open Function List Nat

/-- The order of the cache after `k` entries of a fresh one have been used. -/
def freshOrder (k : ℕ) : List EntryRef :=
  ((List.finRange maxCacheEntry).take k).reverse ++ ((List.finRange maxCacheEntry).drop k).reverse

theorem freshOrder_next (k : EntryRef) :
    (freshOrder k).getLast? = some k ∧ k :: (freshOrder k).erase k = freshOrder (k + 1) := by
  decide +revert

/-- The first `k` clusters of the first backup block are in the first `k` entries. -/
structure BackupLoad.Loaded (load : BackupLoad) (s : Mcman) (unit : ℕ × ℕ) (k : ℕ) : Prop where
  devinfos : load.mcman.devinfos = s.devinfos
  cards : load.mcman.cards = s.cards
  issued : load.mcman.issued = s.issued
  badblock : load.mcman.badblock ≤ 0
  mccache : load.mcman.mccache = freshOrder k
  clean : ∀ e, (load.mcman.entrycache e).wrFlag = 0
  refs : ∀ e : EntryRef, e < k → load.refs e = e
  used : ∀ e : EntryRef, e < k → (load.mcman.entrycache e).cluster =
    (s.devinfos unit).backupBlock1 * (s.devinfos unit).clustersPerBlock + e
  unused : ∀ e : EntryRef, k ≤ e → (load.mcman.entrycache e).cluster = -1
  data : ∀ e : EntryRef, e < k → ∀ i < (s.devinfos unit).pagesPerCluster,
    (load.mcman.entrycache e).clData i =
      (s.cards unit ((s.devinfos unit).backupBlock1 * (s.devinfos unit).blocksize +
        (e * (s.devinfos unit).pagesPerCluster + i))).words

variable {load : BackupLoad} {s : Mcman} {unit : ℕ × ℕ}

/-- All pages of a cluster are read when each of them can be. -/
theorem loadCount_all {cluster : ℕ} (hread : ∀ i < (s.devinfos unit).pagesPerCluster,
      mcReadPage (s.devinfos unit) (s.cards unit (cluster * (s.devinfos unit).pagesPerCluster + i)) = some 0) :
    loadCount s unit cluster = (s.devinfos unit).pagesPerCluster := by
  unfold loadCount
  dsimp only
  rw [takeWhile_eq_self_iff.mpr, length_range]
  intro i hi
  rw [hread i (mem_range.mp hi)]
  rfl

/-- A cluster of a clean cache that is not cached yet goes to the least recently used entry. -/
theorem mcmanReadcluster_miss {cluster : ℕ} {mce : EntryRef}
    (hbad : s.badblock ≤ 0) (hmiss : ∀ e, (s.entrycache e).cluster ≠ cluster)
    (hlast : s.mccache.getLast? = some mce) (hclean : (s.entrycache mce).wrFlag = 0)
    (hcount : loadCount s unit cluster = (s.devinfos unit).pagesPerCluster) : mcmanReadcluster s unit cluster =
      (0, some mce, mcmanAddcacheentry (loadEntry s unit cluster mce) mce) := by
  have hnone : mcmanGetcacheentry s unit cluster = none := by
    unfold mcmanGetcacheentry
    rw [find?_eq_none]
    intro e _
    simp [hmiss e]
  have hsame : s.replaced unit cluster = cluster := if_neg (not_lt.mpr hbad)
  simp only [mcmanReadcluster, hsame, hnone, hlast, hclean, ne_eq, not_true_eq_false, if_false,
    Int.toNat_natCast, hcount, lt_irrefl]

theorem DevInfo.backup_page (mcdi : DevInfo) (k i : ℕ) :
    (mcdi.backupBlock1 * mcdi.clustersPerBlock + k) * mcdi.pagesPerCluster + i =
      mcdi.backupBlock1 * mcdi.blocksize + (k * mcdi.pagesPerCluster + i) := by
  unfold blocksize
  ring

theorem DevInfo.lt_maxCacheEntry (mcdi : DevInfo) {j : ℕ} (hj : j < mcdi.clustersPerBlock) : j < maxCacheEntry := by
  have := mcdi.clusters_le
  unfold maxCacheEntry
  omega

/-- The loop's state after a cluster went to an entry. -/
def BackupLoad.loadedNext (load : BackupLoad) (unit : ℕ × ℕ) (cluster : ℕ) (mce : EntryRef) : BackupLoad where
  mcman := { load.mcman with
    entrycache := Function.update load.mcman.entrycache mce { load.mcman.entrycache mce with
      mcPort := unit.1
      mcSlot := unit.2
      cluster := cluster
      rdFlag := 1
      clData := fun i => if i ≤ (load.mcman.devinfos unit).pagesPerCluster then
        (load.mcman.cards unit (cluster * (load.mcman.devinfos unit).pagesPerCluster + i)).words
        else (load.mcman.entrycache mce).clData i }
    mccache := mce :: load.mcman.mccache.erase mce }
  mce := mce
  refs := Function.update load.refs mce mce

/-- That state extends what has been read by one cluster. -/
theorem BackupLoad.Loaded.loadedNext {k : EntryRef} (h : load.Loaded s unit k) {cluster : ℕ}
    (hcluster : cluster = (s.devinfos unit).backupBlock1 * (s.devinfos unit).clustersPerBlock + k)
    (horder : k :: (freshOrder k).erase k = freshOrder (k + 1)) :
    (load.loadedNext unit cluster k).Loaded s unit (k + 1) := by
  have hother : ∀ e ≠ k, (load.loadedNext unit cluster k).mcman.entrycache e = load.mcman.entrycache e :=
    fun e he => update_of_ne he _ _
  have hbefore : ∀ e : EntryRef, (e : ℕ) < k + 1 → e ≠ k → (e : ℕ) < k := by
    intro e he hne
    have := Fin.val_ne_of_ne hne
    omega
  constructor
  case devinfos => exact h.devinfos
  case cards => exact h.cards
  case issued => exact h.issued
  case badblock => exact h.badblock
  case mccache =>
    change k :: load.mcman.mccache.erase k = _
    rw [h.mccache, horder]
  case clean =>
    intro e
    by_cases he : e = k
    · subst he
      simp [BackupLoad.loadedNext, h.clean e]
    · rw [hother e he, h.clean e]
  case refs =>
    intro e he
    by_cases hk : e = k
    · subst hk
      exact update_self _ _ _
    · exact (update_of_ne (Fin.val_ne_of_ne hk) _ _).trans (h.refs e (hbefore e he hk))
  case used =>
    intro e he
    by_cases hk : e = k
    · subst hk
      simp [BackupLoad.loadedNext, hcluster]
    · rw [hother e hk, h.used e (hbefore e he hk)]
  case unused =>
    intro e he
    have hk : e ≠ k := by
      rintro rfl
      omega
    rw [hother e hk, h.unused e (by omega)]
  case data =>
    intro e he i hi
    by_cases hk : e = k
    · subst hk
      simp [BackupLoad.loadedNext, h.devinfos, h.cards, hi.le, hcluster, backup_page]
    · rw [hother e hk, h.data e (hbefore e he hk) i hi]

/-- One turn of the loop over the first backup block. -/
theorem BackupLoad.Loaded.step {k : EntryRef} (h : load.Loaded s unit k)
    (hread : ∀ i < (s.devinfos unit).pagesPerCluster, mcReadPage (s.devinfos unit)
      (s.cards unit ((s.devinfos unit).backupBlock1 * (s.devinfos unit).blocksize +
        (k * (s.devinfos unit).pagesPerCluster + i))) = some 0) :
    (load.step unit k).Loaded s unit (k + 1) := by
  obtain ⟨hlast, horder⟩ := freshOrder_next k
  obtain ⟨cluster, hcluster⟩ :
      ∃ c, c = (s.devinfos unit).backupBlock1 * (s.devinfos unit).clustersPerBlock + (k : ℕ) := ⟨_, rfl⟩
  have hcast : ((s.devinfos unit).backupBlock1 * (s.devinfos unit).clustersPerBlock + (k : ℕ) : ℤ) = cluster := by
    rw [hcluster]
    push_cast
    rfl
  have hmiss : ∀ e, (load.mcman.entrycache e).cluster ≠ cluster := by
    intro e
    rcases lt_or_ge (e : ℕ) k with he | he
    · rw [h.used e he, ← hcast]
      omega
    · rw [h.unused e he]
      omega
  have hcount : loadCount load.mcman unit cluster = (load.mcman.devinfos unit).pagesPerCluster := by
    apply loadCount_all
    intro i hi
    rw [h.devinfos, h.cards, hcluster, backup_page]
    exact hread i (by rwa [h.devinfos] at hi)
  have hmissed := mcmanReadcluster_miss h.badblock hmiss (h.mccache ▸ hlast) (h.clean k) hcount
  have hstep : load.step unit k = load.loadedNext unit cluster k := by
    unfold BackupLoad.step
    simp only [h.devinfos, hcast, hmissed, Option.getD_some]
    simp [BackupLoad.loadedNext, loadEntry, mcmanAddcacheentry, hcount]
  rw [hstep]
  exact h.loadedNext hcluster horder

/-- The loop's state after all clusters of the first backup block have been read. -/
theorem loadBackup_loaded (hfresh : (⟨s, 0, fun _ => 0⟩ : BackupLoad).Loaded s unit 0)
    (hread : ∀ i < (s.devinfos unit).blocksize, mcReadPage (s.devinfos unit)
      (s.cards unit ((s.devinfos unit).backupBlock1 * (s.devinfos unit).blocksize + i)) = some 0) :
    (loadBackup s unit).Loaded s unit (s.devinfos unit).clustersPerBlock := by
  have hprefix : ∀ k ≤ (s.devinfos unit).clustersPerBlock,
      ((range k).foldl (BackupLoad.step unit) ⟨s, 0, fun _ => 0⟩).Loaded s unit k := by
    intro k hk
    induction k with
    | zero => exact hfresh
    | succ k ih =>
      rw [range_succ, foldl_append]
      refine (ih (by omega)).step (k := ⟨k, lt_maxCacheEntry _ hk⟩) fun i hi => hread _ ?_
      calc k * (s.devinfos unit).pagesPerCluster + i
          < k * (s.devinfos unit).pagesPerCluster + (s.devinfos unit).pagesPerCluster := by omega
        _ = (k + 1) * (s.devinfos unit).pagesPerCluster := by ring
        _ ≤ (s.devinfos unit).blocksize := mul_le_mul_right _ hk
  exact hprefix _ le_rfl

/-- The pages found in the cache then are those of the first backup block. -/
theorem BackupLoad.Loaded.pagedata
    (h : load.Loaded s unit (s.devinfos unit).clustersPerBlock) {i : ℕ} (hi : i < (s.devinfos unit).blocksize) :
    load.pagedata (s.devinfos unit).pagesPerCluster i =
      (s.cards unit ((s.devinfos unit).backupBlock1 * (s.devinfos unit).blocksize + i)).words := by
  have hcluster : i / (s.devinfos unit).pagesPerCluster < (s.devinfos unit).clustersPerBlock :=
    Nat.div_lt_of_lt_mul (by rwa [mul_comm])
  have hlt := lt_maxCacheEntry _ hcluster
  unfold BackupLoad.pagedata
  have href := h.refs ⟨_, hlt⟩ hcluster
  have hdata := h.data ⟨_, hlt⟩ hcluster _ (mod_lt i (s.devinfos unit).pages_pos)
  rw [href, hdata, div_add_mod' i]

theorem foldl_freecluster_issued (s : Mcman) (unit : ℕ × ℕ) (first : ℤ) (rs : List ℕ) :
    (rs.foldl (fun s (r1 : ℕ) => mcmanFreecluster s unit (first + (r1 : ℤ))) s).issued = s.issued := by
  induction rs generalizing s with
  | nil => rfl
  | cons r1 rs ih => exact ih _

/-- The operations of a restore, from the pages in the cache. -/
theorem restoreBlock_issued (block : ℕ)
    (hload : (loadBackup s unit).Loaded s unit (s.devinfos unit).clustersPerBlock) :
    ∃ eccdata, (mcmanEraseblock (restoreBlock s unit block) unit (s.devinfos unit).backupBlock2 none).issued =
      s.issued ++ ((s.devinfos unit).rewriteOps block
        ((loadBackup s unit).pagedata (s.devinfos unit).pagesPerCluster)
        ((s.devinfos unit).fillEcc ((loadBackup s unit).pagedata (s.devinfos unit).pagesPerCluster) eccdata)
        (range (s.devinfos unit).blocksize)).map (Prod.mk unit) := by
  refine ⟨(loadBackup s unit).mcman.eccdata, ?_⟩
  unfold restoreBlock
  dsimp only
  generalize loadBackup s unit = load at *
  generalize load.pagedata (s.devinfos unit).pagesPerCluster = pagedata
  generalize herased : mcmanEraseblock load.mcman unit block (some pagedata) = erased
  have hdev : erased.devinfos = s.devinfos := by rw [← herased, ← hload.devinfos]; rfl
  have hecc : erased.eccdata = (s.devinfos unit).fillEcc pagedata load.mcman.eccdata := by
    rw [← herased, ← hload.devinfos]; rfl
  have hissued : erased.issued = s.issued ++ [(unit, .erase block)] := by
    rw [← herased, ← hload.issued]; rfl
  clear herased
  rw [show (s.devinfos unit).blocksize = (erased.devinfos unit).blocksize by rw [hdev], writePages_eq,
    Mcman.performAll_eq]
  simp only [mcmanEraseblock, Mcman.perform, foldl_freecluster_issued, hissued, hdev, hecc,
    rewriteOps]
  simp

/-- The operations among those issued that went to one card. -/
def opsOf (unit : ℕ × ℕ) (issued : List ((ℕ × ℕ) × CardOp)) : List CardOp :=
  issued.filterMap fun op => if op.1 = unit then some op.2 else none

theorem opsOf_map (unit : ℕ × ℕ) (ops : List CardOp) : opsOf unit (ops.map (Prod.mk unit)) = ops := by
  induction ops with
  | nil => rfl
  | cons op ops ih => simp [opsOf]

/-- What `mcman_checkBackupBlocks` issues to a card when it runs after a restart. -/
def Mcman.recoveryOps (s : Mcman) (unit : ℕ × ℕ) (pages : Pages) : List CardOp :=
  opsOf unit (mcmanCheckBackupBlocks (s.restart (Function.update s.cards unit pages)) unit).2.issued

section Recovery

variable {mcdi : DevInfo} {pages : Pages}

variable (hmcdi : s.devinfos unit = mcdi)

include hmcdi

/-- A first marker without the second: only the second backup block is erased. -/
theorem recoveryOps_discard
    (h1 : markedBlock mcdi ((pages (mcdi.backupBlock2 * mcdi.blocksize)).words 0) ≠ 0xFFFFFFFF)
    (h2 : markedBlock mcdi ((pages (mcdi.backupBlock2 * mcdi.blocksize + 1)).words 0) = 0xFFFFFFFF) :
    s.recoveryOps unit pages = [.erase mcdi.backupBlock2] := by
  subst hmcdi
  unfold Mcman.recoveryOps mcmanCheckBackupBlocks
  simp only [Mcman.restart, update_self]
  rw [if_pos (.inl ⟨h1, h2⟩)]
  exact opsOf_map unit [.erase (s.devinfos unit).backupBlock2]

theorem recoveryOps_idle (h1 : markedBlock mcdi ((pages (mcdi.backupBlock2 * mcdi.blocksize)).words 0) = 0xFFFFFFFF)
    (h2 : markedBlock mcdi ((pages (mcdi.backupBlock2 * mcdi.blocksize + 1)).words 0) = 0xFFFFFFFF)
    (hread1 : mcReadPage mcdi (pages (mcdi.backupBlock2 * mcdi.blocksize)) = some 0)
    (hread2 : mcReadPage mcdi (pages (mcdi.backupBlock2 * mcdi.blocksize + 1)) = some 0) :
    s.recoveryOps unit pages = [] := by
  subst hmcdi
  unfold Mcman.recoveryOps mcmanCheckBackupBlocks
  simp [Mcman.restart, h1, h2, hread1, hread2, opsOf]

/-- Both markers: the block they name is rewritten from the first backup block. -/
theorem recoveryOps_restore {block : BitVec 32} (hblock : block ≠ 0xFFFFFFFF)
    (h1 : markedBlock mcdi ((pages (mcdi.backupBlock2 * mcdi.blocksize)).words 0) = block)
    (h2 : markedBlock mcdi ((pages (mcdi.backupBlock2 * mcdi.blocksize + 1)).words 0) = block)
    (hread1 : mcReadPage mcdi (pages (mcdi.backupBlock2 * mcdi.blocksize)) = some 0)
    (hread2 : mcReadPage mcdi (pages (mcdi.backupBlock2 * mcdi.blocksize + 1)) = some 0)
    (hread : ∀ i < mcdi.blocksize, mcReadPage mcdi (pages (mcdi.backupBlock1 * mcdi.blocksize + i)) = some 0) :
    ∃ pagedata eccdata, (∀ i < mcdi.blocksize,
        pagedata i = (pages (mcdi.backupBlock1 * mcdi.blocksize + i)).words) ∧
      s.recoveryOps unit pages = mcdi.rewriteOps block.toNat pagedata (mcdi.fillEcc pagedata eccdata)
        (range mcdi.blocksize) := by
  subst hmcdi
  generalize hboot : { s.restart (update s.cards unit pages) with
    pagebuf := (pages ((s.devinfos unit).backupBlock2 * (s.devinfos unit).blocksize + 1)).words } = boot
  have hdev : boot.devinfos = s.devinfos := by rw [← hboot]; rfl
  have hcards : boot.cards unit = pages := by
    rw [← hboot]
    exact update_self _ _ _
  have hfresh : (⟨boot, 0, fun _ => 0⟩ : BackupLoad).Loaded boot unit 0 := by
    constructor
    case badblock => rw [← hboot]; exact le_rfl
    case mccache => rw [← hboot]; rfl
    case clean => intro e; rw [← hboot]; rfl
    case unused => intro e _; rw [← hboot]; rfl
    all_goals simp
  have hload : (loadBackup boot unit).Loaded boot unit (boot.devinfos unit).clustersPerBlock := by
    apply loadBackup_loaded hfresh
    rw [hdev, hcards]
    exact hread
  obtain ⟨eccdata, hissued⟩ := restoreBlock_issued block.toNat hload
  have hnone : boot.issued = [] := by rw [← hboot]; rfl
  rw [hdev, hnone, nil_append] at hissued
  refine ⟨(loadBackup boot unit).pagedata (s.devinfos unit).pagesPerCluster, eccdata, fun i hi => ?_, ?_⟩
  · rw [← hdev] at hi
    have hpage := hload.pagedata hi
    rw [hdev, hcards] at hpage
    exact hpage
  · unfold Mcman.recoveryOps mcmanCheckBackupBlocks
    simp only [Mcman.restart, update_self] at hboot ⊢
    rw [h1, h2, hread1, hread2, if_neg (by simp), if_neg (fun h => hblock h.1)]
    simp only [hboot, hissued, opsOf_map]

end Recovery

end Ps2sdk.Mc
