import Ps2sdk.Apa.Cache
import Ps2sdk.Lib.Pass

/-!
# Flushes of the header cache and power loss

The journal of a drive as a redo log, and `apaCacheFlushAllDirty` as one transaction of it: the
dirty headers are logged, the record is committed, the headers are written in place and the record
is cleared. Power loss leaves a drive that stands for the headers before the flush or for those after
it.
-/

namespace Ps2sdk.Apa

open Lib List BitVec CacheBuf Driver Journal

variable {n : ℕ}

/-- What a journal sector asks for. -/
def requested (sector : Sector) : List Word :=
  if (Journal.ofImage sector).magic = apalMagic then (Journal.ofImage sector).logged else []

theorem requested_cleared : requested cleared.image = [] := by
  unfold requested
  rw [ofImage_image]
  rfl

theorem requested_image {journal : Journal} (h : journal.magic = apalMagic) :
    requested journal.image = journal.logged := by
  unfold requested
  rw [ofImage_image, if_pos h]

/-- The journal of a drive. -/
def apaLog : RedoLog (ℕ × ℕ) Sector where
  area a := a.1 = 0 ∧ 8 ≤ a.2 ∧ a.2 < 264
  replay disk := (requested (disk (0, 8))).zipIdx.map fun entry =>
    blockCells 0 entry.1.toNat (readBlock disk 0 (10 + 2 * entry.2))
  reset := [((0, 8), Journal.cleared.image)]
  replay_reset disk disk' hdisk' := by
    rw [hdisk' (0, 8) ⟨rfl, by decide, by decide⟩]
    simp [store, requested_cleared]
  reset_area cell hcell := by
    simp only [List.mem_singleton] at hcell
    simp [hcell]

/-- The journal asks for nothing. -/
def Quiet (disk : Disk) : Prop := requested (disk (0, 8)) = []

theorem Quiet.idle {disk : Disk} (h : Quiet disk) : apaLog.Idle disk := by
  intro disk' hdisk'
  change map _ (requested (disk' (0, 8))).zipIdx = []
  rw [hdisk' (0, 8) ⟨rfl, by decide, by decide⟩, h]
  rfl

theorem requested_length (sector : Sector) : (requested sector).length ≤ 126 := by
  unfold requested logged
  split
  · simp
  · simp

/-- What is to be redone is read off the journal area. -/
theorem apaLog_local (disk : Disk) : apaLog.Local disk := by
  intro disk' hdisk'
  change map _ (requested (disk' (0, 8))).zipIdx = map _ (requested (disk (0, 8))).zipIdx
  rw [hdisk' (0, 8) ⟨rfl, by decide, by decide⟩]
  refine map_congr_left fun entry hentry => ?_
  have hindex := snd_lt_of_mem_zipIdx hentry
  have hlength := requested_length (disk (0, 8))
  rw [readBlock_congr (hdisk' (0, 10 + 2 * entry.2) ⟨rfl, by dsimp only; omega, by dsimp only; omega⟩)
    (hdisk' (0, 10 + 2 * entry.2 + 1) ⟨rfl, by dsimp only; omega, by dsimp only; omega⟩)]

variable (buf : CacheBuf)

/-- The sector and header of a dirty buffer. -/
def CacheBuf.pending : Option (Word × Header) :=
  match buf.sector with
  | some sector => if buf.dirty then some (sector, buf.header) else none
  | none => none

variable (s : Driver n)

/-- The dirty headers of some buffers. -/
def Driver.pendingOf (slots : List (Fin n)) : List (Word × Header) :=
  slots.filterMap fun i => (s.cacheBuf i).pending

/-- The buffer with its checksum brought up to date if it is dirty. -/
def CacheBuf.sealed : CacheBuf :=
  if buf.pending.isSome then { buf with checksum := apaCheckSum buf.header } else buf

/-- The buffer after it has been written back. -/
def CacheBuf.cleaned : CacheBuf :=
  if buf.pending.isSome then { buf with dirty := false } else buf

/-- The driver with some commands issued. -/
def Driver.issue (commands : List DiskCommand) : Driver n :=
  { s with dev := s.dev.perform commands }

theorem CacheBuf.sealed_pending : buf.sealed.pending = buf.pending := by
  unfold sealed
  split <;> rfl

theorem CacheBuf.sealed_sealed : buf.sealed.sealed = buf.sealed := by
  rw [sealed, sealed_pending, sealed]
  split <;> rfl

theorem onDirty_eq (f : Driver n → Fin n → Word → Driver n) (s : Driver n) (i : Fin n) :
    onDirty f s i = match (s.cacheBuf i).pending with
      | some (sector, _) => f s i sector
      | none => s := by
  unfold onDirty pending
  cases (s.cacheBuf i).sector with
  | none => rfl
  | some sector => cases (s.cacheBuf i).dirty <;> rfl

/-- The writes that log some headers, from an entry of the journal on. -/
def logWrites (first : ℕ) (headers : List (Word × Header)) : List (List ((ℕ × ℕ) × Sector)) :=
  (headers.zipIdx first).map fun entry => headerCells (10 + 2 * entry.2) (apaCheckSum entry.1.2) entry.1.2

variable (headers : List (Word × Header))

/-- The writes that put some headers in place. -/
def homeWrites : List (List ((ℕ × ℕ) × Sector)) :=
  headers.map fun entry => headerCells entry.1.toNat (apaCheckSum entry.2) entry.2

/-- The header of a dirty buffer. -/
theorem CacheBuf.pending_eq {buf : CacheBuf} {sector : Word} {header : Header}
    (h : buf.pending = some (sector, header)) :
    buf.sector = some sector ∧ buf.dirty = true ∧ buf.header = header := by
  unfold pending at h
  cases hsector : buf.sector with
  | none => simp [hsector] at h
  | some x =>
    cases hdirty : buf.dirty with
    | false => simp [hsector, hdirty] at h
    | true => simpa [hsector, hdirty] using h

/-- All dirty headers, in the order of the buffers. -/
def Driver.pending : List (Word × Header) := s.pendingOf (List.finRange n)

/-- The record that a flush commits. -/
def committed : Journal :=
  (headers.map Prod.fst).foldl Journal.append .cleared

/-- The commands of a flush. -/
def flushCommands : List DiskCommand :=
  apaLog.transaction (logWrites 0 headers) [((0, 8), (committed headers).image)] (homeWrites headers)

/-- What the logging pass does with a dirty header. -/
def logStep (record : Journal × BlockDev) (entry : Word × Header) : Journal × BlockDev :=
  (record.1.append entry.1,
    record.2.transfer (headerCells (2 * record.1.num.toNat + 10) (apaCheckSum entry.2) entry.2))

/-- The logging pass seals the buffers and logs the dirty ones. -/
theorem foldl_journalWrite : (finRange n).foldl (onDirty apaJournalWrite) s = { s with
      cacheBuf := fun i => (s.cacheBuf i).sealed
      journalBuf := (s.pending.foldl logStep (s.journalBuf, s.dev)).1
      dev := (s.pending.foldl logStep (s.journalBuf, s.dev)).2 } := by
  rw [Driver.pending, Driver.pendingOf, filterMap_eq_flatMap_toList, foldl_flatMap]
  refine foldl_finRange
    (m := fun cacheBuf record => ({ s with cacheBuf, journalBuf := record.1, dev := record.2 } : Driver n))
    (g := sealed) (a := fun record _ buf => buf.pending.toList.foldl logStep record)
    (fun cacheBuf record i => ?_) s.cacheBuf (s.journalBuf, s.dev)
  rw [onDirty_eq]
  cases hpending : (cacheBuf i).pending with
  | none => simp [sealed, hpending]
  | some entry =>
    obtain ⟨-, -, hheader⟩ := pending_eq hpending
    simp [sealed, hpending, apaJournalWrite, setBuf, write, logStep, hheader]

/-- The headers are logged behind each other. -/
theorem foldl_logStep (journal : Journal) (dev : BlockDev) (k : ℕ)
    (hnum : journal.num = BitVec.ofNat 32 k) (hroom : k + headers.length ≤ 126) :
    headers.foldl logStep (journal, dev) =
      ((headers.map Prod.fst).foldl append journal, dev.perform ((logWrites k headers).map .write)) := by
  induction headers generalizing journal dev k with
  | nil => rfl
  | cons entry headers ih =>
    have hk : 2 * journal.num.toNat + 10 = 10 + 2 * k := by
      rw [hnum, toNat_ofNat]
      omega
    rw [length_cons] at hroom
    rw [foldl_cons, logStep, hk, ih _ _ (k + 1) ?_ (by omega)]
    · rfl
    · rw [ofNat_add, ← hnum]
      rfl

/-- The in-place pass writes the dirty headers to their sectors. -/
theorem foldl_transferWrite (hsealed : ∀ i, (s.cacheBuf i).sealed = s.cacheBuf i) :
    (finRange n).foldl (onDirty apaCacheTransferWrite) s = { s with
      cacheBuf := fun i => (s.cacheBuf i).cleaned
      dev := s.dev.perform ((homeWrites s.pending).map .write) } := by
  have hhome : s.dev.perform ((homeWrites s.pending).map .write) = (finRange n).foldl (fun dev i =>
      match (s.cacheBuf i).pending with
      | some entry => dev.transfer (headerCells entry.1.toNat (s.cacheBuf i).checksum entry.2)
      | none => dev) s.dev := by
    rw [homeWrites, BlockDev.perform, foldl_map, foldl_map, Driver.pending, Driver.pendingOf, foldl_filterMap]
    refine foldl_ext _ _ _ fun dev i _ => ?_
    cases hpending : (s.cacheBuf i).pending with
    | none => rfl
    | some entry =>
      obtain ⟨-, -, hheader⟩ := pending_eq hpending
      have hseal := hsealed i
      rw [sealed, hpending, Option.isSome_some, if_pos rfl] at hseal
      rw [← hseal, hheader]
  rw [hhome]
  refine foldl_finRange (m := fun cacheBuf dev => ({ s with cacheBuf, dev } : Driver n)) (g := cleaned)
    (a := fun dev _ buf => match buf.pending with
      | some entry => dev.transfer (headerCells entry.1.toNat buf.checksum entry.2)
      | none => dev) (fun cacheBuf dev i => ?_) s.cacheBuf s.dev
  rw [onDirty_eq]
  cases hpending : (cacheBuf i).pending with
  | none => simp [cleaned, hpending]
  | some entry =>
    obtain ⟨-, -, hheader⟩ := pending_eq hpending
    simp [cleaned, hpending, apaCacheTransferWrite, setBuf, write, hheader]

/-- A flush is one transaction of the journal. -/
theorem apaCacheFlushAllDirty_eq (hjournal : s.journalBuf = .cleared) (hroom : s.pending.length ≤ 126) :
    apaCacheFlushAllDirty s = ({ s with cacheBuf := fun i => (s.cacheBuf i).sealed.cleaned } : Driver n).issue
      (flushCommands s.pending) := by
  have hpending : (finRange n).filterMap (fun i => (s.cacheBuf i).sealed.pending) = s.pending :=
    filterMap_congr fun i _ => (s.cacheBuf i).sealed_pending
  rw [apaCacheFlushAllDirty, foldl_journalWrite, foldl_logStep _ _ _ 0
    (by rw [hjournal]; rfl) (by rwa [Nat.zero_add])]
  rw [foldl_transferWrite _ fun i => (s.cacheBuf i).sealed_sealed]
  ext1
  · rfl
  · rfl
  · exact hjournal.symm
  · change (((s.dev.perform _).perform [.flush, .write [((0, 8), (foldl append s.journalBuf _).image)],
      .flush]).perform ((homeWrites ((finRange n).filterMap fun i => (s.cacheBuf i).sealed.pending)).map
        .write)).perform apaLog.resetCommands = s.dev.perform _
    rw [hpending, hjournal, ← BlockDev.perform_append, ← BlockDev.perform_append, ← BlockDev.perform_append]
    congr 1
  · rfl
  · rfl

open Nat

variable {n : ℕ} {disk : Disk} {headers : List (Word × Header)}

/-- Appending sectors to a record. -/
theorem foldl_append_spec (sectors : List Word) (journal : Journal) (k : ℕ)
    (hnum : journal.num = BitVec.ofNat 32 k) (hroom : k + sectors.length ≤ 126) :
    (sectors.foldl append journal).magic = journal.magic ∧
      (sectors.foldl append journal).num = BitVec.ofNat 32 (k + sectors.length) ∧
      ∀ i : Fin 126, (sectors.foldl append journal).sectors i =
        if k ≤ i.val ∧ i.val < k + sectors.length then sectors.getD (i.val - k) 0 else journal.sectors i := by
  induction sectors generalizing journal k with
  | nil =>
    refine ⟨rfl, by simpa using hnum, fun i => ?_⟩
    rw [if_neg (by simp)]
    rfl
  | cons sector rest ih =>
    rw [length_cons] at hroom
    have hindex : journal.num.toNat = k := by
      rw [hnum, toNat_ofNat]
      omega
    obtain ⟨hmagic, hcount, hsectors⟩ := ih (journal.append sector) (k + 1)
      (by
        change journal.num + 1 = _
        rw [hnum, ofNat_add]
        rfl)
      (by omega)
    rw [foldl_cons]
    refine ⟨hmagic, ?_, fun i => ?_⟩
    · rw [hcount, length_cons]
      congr 1
      omega
    · rw [hsectors i]
      have hself : (journal.append sector).sectors i = if i.val = k then sector else journal.sectors i := by
        simp only [Journal.append, hindex, Function.update_apply, Fin.ext_iff, Fin.ofNat]
        rw [mod_eq_of_lt (by omega)]
      rw [hself, length_cons]
      by_cases hlt : k + 1 ≤ i.val
      · obtain ⟨j, hj⟩ : ∃ j, i.val - k = j + 1 := ⟨i.val - k - 1, by omega⟩
        rw [hj, getD_cons_succ, show i.val - (k + 1) = j by omega]
        by_cases hend : i.val < k + 1 + rest.length
        · rw [if_pos ⟨hlt, hend⟩, if_pos (by omega)]
        · rw [if_neg (by omega), if_neg (by omega), if_neg (by omega)]
      · rw [if_neg (by omega)]
        by_cases hk : i.val = k
        · rw [if_pos hk, if_pos (by omega), hk, Nat.sub_self]
          rfl
        · rw [if_neg hk, if_neg (by omega)]

/-- The committed record lists the sectors of the headers. -/
theorem requested_committed (hroom : headers.length ≤ 126) :
    requested (committed headers).image = headers.map Prod.fst := by
  obtain ⟨hmagic, hnum, hsectors⟩ := foldl_append_spec (headers.map Prod.fst) .cleared 0 rfl
    (by simpa using hroom)
  rw [length_map, zero_add] at hnum
  rw [committed, requested_image hmagic]
  have hcount : ((headers.map Prod.fst).foldl append .cleared).num.toInt.toNat = headers.length := by
    rw [hnum, BitVec.toInt_eq_toNat_of_lt (by rw [BitVec.toNat_ofNat]; omega), BitVec.toNat_ofNat]
    omega
  apply ext_getElem
  · rw [logged, hcount]
    simpa using hroom
  · intro i hi hi'
    rw [length_map] at hi'
    simp only [logged, getElem_map, getElem_take, getElem_finRange]
    rw [hsectors, if_pos ⟨zero_le _, by simpa using hi'⟩]
    simp [getD_eq_getElem?_getD, hi']

theorem places_apart {x y : Word} (hx : 512 ∣ x.toNat) (hy : 512 ∣ y.toNat) (hne : x ≠ y) :
    Apart (0, x.toNat) (0, y.toNat) := by
  intro _
  have hnat : x.toNat ≠ y.toNat := fun heq => hne (eq_of_toNat_eq heq)
  omega

theorem readBlock_homeWrites_other {x : Word} (hx : 512 ∣ x.toNat)
    (hplace : ∀ entry ∈ headers, 512 ∣ entry.1.toNat) (hnot : x ∉ headers.map Prod.fst) :
    readBlock (storeAll disk (homeWrites headers)) 0 x.toNat = readBlock disk 0 x.toNat := by
  refine readBlock_storeAll_apart (p := (0, x.toNat)) (q := fun e : Word × Header => (0, e.1.toNat)) disk
    fun e he => places_apart hx (hplace e he) fun heq => hnot ?_
  rw [heq]
  exact mem_map_of_mem he

theorem readBlock_homeWrites {x : Word} {header : Header} (hplace : ∀ entry ∈ headers, 512 ∣ entry.1.toNat)
    (hnodup : (headers.map Prod.fst).Nodup) (hmem : (x, header) ∈ headers) :
    readBlock (storeAll disk (homeWrites headers)) 0 x.toNat = header.image (apaCheckSum header) := by
  refine readBlock_storeAll (q := fun e : Word × Header => (0, e.1.toNat)) disk ?_ hmem
  refine (pairwise_map.mp hnodup).imp_of_mem fun hi hj hne => places_apart (hplace _ hi) (hplace _ hj) hne

/-- Logged headers are read back. -/
theorem readBlock_logWrites (k i : ℕ) (hi : i < headers.length) :
    readBlock (storeAll disk (logWrites k headers)) 0 (10 + 2 * (k + i)) =
      (headers[i].2).image (apaCheckSum headers[i].2) := by
  have hmem : (headers[i], k + i) ∈ headers.zipIdx k := mk_add_mem_zipIdx_iff_getElem?.mpr (getElem?_eq_getElem hi)
  refine readBlock_storeAll (q := fun e : (Word × Header) × ℕ => (0, 10 + 2 * e.2)) disk ?_ hmem
  have hlt : ((headers.zipIdx k).map Prod.snd).Pairwise (· < ·) := by
    rw [zipIdx_map_snd]
    exact pairwise_lt_range'
  exact (pairwise_map.mp hlt).imp fun h _ => .inl (by dsimp only; omega)

theorem logWrites_inside (k : ℕ) (hroom : k + headers.length ≤ 126) : apaLog.Inside (logWrites k headers) := by
  intro cells hcells cell hcell
  obtain ⟨entry, hentry, rfl⟩ := mem_map.mp hcells
  have hindex := snd_lt_add_of_mem_zipIdx hentry
  rcases mem_blockCells hcell with heq | heq <;> rw [heq] <;>
    exact ⟨rfl, by dsimp only; omega, by dsimp only; omega⟩

theorem storeAll_logWrites_record {kept : List (List ((ℕ × ℕ) × Sector))} (k : ℕ)
    (hkept : kept ⊆ logWrites k headers) : storeAll disk kept (0, 8) = disk (0, 8) := by
  refine storeAll_of_notMem disk fun cells hcells cell hcell heq => ?_
  obtain ⟨entry, -, rfl⟩ := mem_map.mp (hkept hcells)
  rcases mem_blockCells hcell with hcell' | hcell' <;>
  · rw [hcell'] at heq
    simp only [Prod.mk.injEq, true_and] at heq
    omega

theorem homeWrites_outside (hplace : ∀ entry ∈ headers, 512 ∣ entry.1.toNat) :
    apaLog.Outside (homeWrites headers) := by
  intro cells hcells cell hcell
  obtain ⟨entry, hentry, rfl⟩ := mem_map.mp hcells
  have hdvd := hplace entry hentry
  rcases mem_blockCells hcell with heq | heq <;> rw [heq] <;>
  · rintro ⟨-, hlow, hhigh⟩
    omega

/-- The committed journal asks for the headers to be put in place. -/
theorem replay_committed (hroom : headers.length ≤ 126) :
    apaLog.replay (store (storeAll disk (logWrites 0 headers)) [((0, 8), (committed headers).image)]) =
      homeWrites headers := by
  have hrecord : store (storeAll disk (logWrites 0 headers)) [((0, 8), (committed headers).image)] (0, 8) =
      (committed headers).image := by simp [store]
  change List.map _ (requested _).zipIdx = _
  rw [hrecord, requested_committed hroom]
  apply ext_getElem
  · simp [homeWrites]
  · intro i hi hi'
    have hlt : i < headers.length := by simpa [homeWrites] using hi'
    simp only [getElem_map, getElem_zipIdx, homeWrites, zero_add]
    rw [headerCells, readBlock_store_other]
    · have hread := @readBlock_logWrites disk headers 0 i hlt
      rw [zero_add] at hread
      rw [hread]
    · intro cell hcell
      simp only [mem_singleton] at hcell
      subst hcell
      simp
      omega

/-- Power loss during a flush leaves a drive that stands for the headers before it or after it. -/
theorem powerLoss_flushCommands {lost : Disk} (hquiet : Quiet disk) (hroom : headers.length ≤ 126)
    (hplace : ∀ entry ∈ headers, 512 ∣ entry.1.toNat) (hloss : PowerLoss disk (flushCommands headers) lost) :
    apaLog.Represents lost disk ∨ apaLog.Represents lost (storeAll disk (homeWrites headers)) := by
  refine RedoLog.powerLoss_transaction (logWrites_inside 0 (by omega)) (fun kept hkept => ?_) ?_
    (apaLog_local _) (replay_committed hroom) (homeWrites_outside hplace) (.inl rfl) hloss
  · apply Quiet.idle
    rw [Quiet, storeAll_logWrites_record 0 hkept.subset]
    exact hquiet
  · intro cell hcell
    simp only [mem_singleton] at hcell
    subst hcell
    exact ⟨rfl, le_refl 8, show 8 < 264 by decide⟩

end Ps2sdk.Apa
