import Ps2sdk.Lib.Pass
import Ps2sdk.Pfs.Journal

/-!
# Atomicity of a metadata flush

The journal area of a volume is a redo log: a cache flush issues a transaction of that log, and a
journal restore its recovery. Power loss during a flush, followed by any number of interrupted
restores and a complete one, leaves all flushed blocks old or all of them new.
-/

namespace Ps2sdk.Pfs

open Lib List Function CacheBuf Driver Journal

variable {n : ℕ}

/-- The cells that restoring an entry writes. -/
def LogEntry.cells (disk : Disk) (base : ℕ) (entry : LogEntry) : List ((ℕ × ℕ) × Sector) :=
  blockCells entry.sub.toNat entry.sector.toNat (readBlock disk 0 (base + entry.logSector.toNat))

/-- The entries of a valid record; an invalid one has none. -/
def loggedEntries (header : MetaBlock) : List LogEntry :=
  if (Journal.ofImage header).magic ≠ journalMagic ∨
      (Journal.ofImage header).checksum ≠ pfsJournalChecksum header then []
  else (Journal.ofImage header).entries

theorem loggedEntries_cleared : loggedEntries cleared.image = [] := by
  unfold loggedEntries
  split
  · rfl
  · rw [ofImage_image]
    simp [entries, cleared]

/-- The journal area as a redo log. -/
def journalLog (base : ℕ) : RedoLog (ℕ × ℕ) Sector where
  area a := a.1 = 0 ∧ base ≤ a.2 ∧ a.2 < base + 256
  replay disk := (loggedEntries (readBlock disk 0 base)).map (LogEntry.cells disk base)
  reset := blockCells 0 base Journal.cleared.image
  replay_reset disk disk' hdisk' := by
    have hheader : readBlock disk' 0 base = Journal.cleared.image := by
      rw [readBlock_congr (hdisk' (0, base) (by simp)) (hdisk' (0, base + 1) (by simp))]
      exact readBlock_store disk 0 base _
    rw [hheader, loggedEntries_cleared]
    rfl
  reset_area cell hcell := by
    rcases mem_blockCells hcell with h | h <;> simp [h]

variable {base : ℕ} {disk : Disk}

theorem readBlock_area {disk' : Disk} (h : ∀ a, (journalLog base).area a → disk' a = disk a)
    {k : ℕ} (hk : k + 2 ≤ 256) : readBlock disk' 0 (base + k) = readBlock disk 0 (base + k) :=
  readBlock_congr (h _ ⟨rfl, by simp, by simp; omega⟩) (h _ ⟨rfl, by simp; omega, by simp; omega⟩)

theorem journalLog_idle (h : loggedEntries (readBlock disk 0 base) = []) : (journalLog base).Idle disk := by
  intro disk' hdisk'
  change (loggedEntries (readBlock disk' 0 (base + 0))).map _ = []
  rw [readBlock_area hdisk' (by omega), Nat.add_zero, h]
  rfl

theorem journalLog_local (h : ∀ entry ∈ loggedEntries (readBlock disk 0 base), entry.logSector.toNat + 2 ≤ 256) :
    (journalLog base).Local disk := by
  intro disk' hdisk'
  change (loggedEntries (readBlock disk' 0 (base + 0))).map _ = _
  rw [readBlock_area hdisk' (by omega)]
  refine map_congr_left fun entry hentry => ?_
  unfold LogEntry.cells
  rw [readBlock_area hdisk' (h entry hentry)]

/-- The driver with some commands issued to the device of a mount. -/
def Driver.issue (s : Driver n) (pfsMount : ℕ) (commands : List DiskCommand) : Driver n :=
  s.onDev pfsMount (·.perform commands)

section Issue

variable (s : Driver n) (pfsMount : ℕ) (first second : List DiskCommand)

@[simp] theorem Driver.issue_issue :
    (s.issue pfsMount first).issue pfsMount second = s.issue pfsMount (first ++ second) := by
  simp [issue, onDev, BlockDev.perform_append]

@[simp] theorem Driver.issue_nil : s.issue pfsMount [] = s := by
  simp [issue, onDev, BlockDev.perform]

@[simp] theorem Driver.issue_cacheBuf : (s.issue pfsMount first).cacheBuf = s.cacheBuf := rfl

theorem Driver.issue_setCacheBuf (cacheBuf : Fin n → CacheBuf) :
    ({ s.issue pfsMount first with cacheBuf := cacheBuf } : Driver n) =
      ({ s with cacheBuf := cacheBuf } : Driver n).issue pfsMount first := rfl

theorem Driver.issue_setJournalBuf (journalBuf : Journal) :
    ({ s.issue pfsMount first with journalBuf := journalBuf } : Driver n) =
      ({ s with journalBuf := journalBuf } : Driver n).issue pfsMount first := rfl

@[simp] theorem Driver.issue_logBase :
    ((s.issue pfsMount first).mounts pfsMount).logBase = (s.mounts pfsMount).logBase := by
  simp [issue, onDev, Mount.logBase]

@[simp] theorem Driver.issue_lastError :
    ((s.issue pfsMount first).mounts pfsMount).lastError = (s.mounts pfsMount).lastError := by
  simp [issue, onDev]

@[simp] theorem Driver.issue_blockDev : ((s.issue pfsMount first).mounts pfsMount).blockDev =
    (s.mounts pfsMount).blockDev.perform first := by
  simp [issue, onDev]

end Issue

variable (s : Driver n) (pfsMount : ℕ)

/-- A reset issues the reset of the redo log. -/
theorem pfsJournalReset_eq :
    pfsJournalReset s pfsMount = ({ s with journalBuf := .cleared } : Driver n).issue pfsMount
      (journalLog (s.mounts pfsMount).logBase).resetCommands := by
  let cleared : Driver n := { s with journalBuf := .cleared }
  change ((cleared.issue pfsMount [.flush]).issue pfsMount
    [.write (blockCells 0 ((cleared.issue pfsMount [.flush]).mounts pfsMount).logBase _)]).issue
      pfsMount [.flush] = _
  rw [issue_logBase, issue_issue, issue_issue]
  rfl

/-- Committing seals the record and writes it between two flushes. -/
theorem pfsJournalFlush_eq : pfsJournalFlush s pfsMount =
      ({ s with journalBuf := s.journalBuf.sealed } : Driver n).issue pfsMount
        [.flush, .write (blockCells 0 (s.mounts pfsMount).logBase s.journalBuf.sealed.image),
          .flush] := by
  let sealed : Driver n := { s with journalBuf := s.journalBuf.sealed }
  change ((sealed.issue pfsMount [.flush]).issue pfsMount
    [.write (blockCells 0 ((sealed.issue pfsMount [.flush]).mounts pfsMount).logBase _)]).issue
      pfsMount [.flush] = _
  rw [issue_logBase, issue_issue, issue_issue]
  rfl

/-- The buffers as a flush transfers them. -/
def Driver.flushBuf (i : Fin n) : CacheBuf :=
  if (s.cacheBuf i).flushable pfsMount then (s.cacheBuf i).checksummed else s.cacheBuf i

/-- The buffers that a flush transfers. -/
def Driver.flushList : List (Fin n) :=
  (List.finRange n).filter fun i => (s.cacheBuf i).flushable pfsMount

theorem CacheBuf.checksummed_fields (clink : CacheBuf) :
    clink.checksummed.dirty = clink.dirty ∧ clink.checksummed.pfsMount = clink.pfsMount ∧
      clink.checksummed.sub = clink.sub ∧ clink.checksummed.sector = clink.sector := by
  unfold checksummed
  split <;> simp

/-- The logging loop refreshes the buffers and appends the entries of those it logs. -/
theorem foldl_logBuffer : (finRange n).foldl (logBuffer pfsMount) s = { s with
      cacheBuf := s.flushBuf pfsMount
      journalBuf := ((s.flushList pfsMount).map fun i => (s.cacheBuf i).logEntry i.val).foldl
        append s.journalBuf } := by
  rw [flushList, foldl_map, foldl_filter]
  refine foldl_finRange (m := fun cacheBuf journalBuf => ({ s with cacheBuf, journalBuf } : Driver n))
    (g := fun buf => if buf.flushable pfsMount then buf.checksummed else buf)
    (a := fun journal i buf => if buf.flushable pfsMount then journal.append (buf.logEntry i.val) else journal)
    (fun cacheBuf journal i => ?_) s.cacheBuf s.journalBuf
  unfold logBuffer
  split <;> simp

variable (pfsMount : ℕ)

/-- Writing a buffer back issues its cells, unless the mount has failed before. -/
theorem pfsCacheTransferWrite_eq (s : Driver n) (i : Fin n) : pfsCacheTransferWrite pfsMount s i =
      ({ s with
        cacheBuf := update s.cacheBuf i (s.cacheBuf i).clean } : Driver n).issue pfsMount
        (if (s.mounts pfsMount).lastError = 0 then [.write (s.cacheBuf i).cells] else []) := by
  unfold pfsCacheTransferWrite
  split
  · rfl
  · simp [issue, onDev, BlockDev.perform]

/-- The in-place loop writes the marked buffers, unless the mount has failed before. -/
theorem foldl_transferWrite (pfsMount : ℕ) :
    (finRange n).foldl (fun s i => if (s.cacheBuf i).flushable pfsMount then
        pfsCacheTransferWrite pfsMount s i else s) s =
      ({ s with
        cacheBuf := fun i => if (s.cacheBuf i).flushable pfsMount then
          (s.cacheBuf i).clean else s.cacheBuf i } : Driver n).issue pfsMount
        (if (s.mounts pfsMount).lastError = 0 then
          ((s.flushList pfsMount).map fun i => (s.cacheBuf i).cells).map .write else []) := by
  refine (congrArg (foldl _ · _) (s.issue_nil pfsMount).symm).trans
    ((foldl_finRange (m := fun cacheBuf first => ({ s with cacheBuf } : Driver n).issue pfsMount first)
      (g := fun buf => if buf.flushable pfsMount then buf.clean else buf)
      (a := fun first _ buf => if buf.flushable pfsMount then
        first ++ (if (s.mounts pfsMount).lastError = 0 then [.write buf.cells] else []) else first)
      (fun cacheBuf first i => ?_) s.cacheBuf []).trans ?_)
  · rw [pfsCacheTransferWrite_eq, issue_setCacheBuf, issue_issue, issue_lastError]
    by_cases hflush : (cacheBuf i).flushable pfsMount = true <;> simp [hflush]
  · rw [← foldl_filter]
    split
    · rw [foldl_append_eq_append, ← flatMap_def, ← map_eq_flatMap, map_map]
      rfl
    · simp

/-- The journal record that a flush commits. -/
def Driver.committed (pfsMount : ℕ) : Journal :=
  (((s.flushList pfsMount).map fun i => (s.cacheBuf i).logEntry i.val).foldl
    Journal.append s.journalBuf).sealed

/-- The in-place writes of a flush. -/
def Driver.flushWrites (pfsMount : ℕ) : List (List ((ℕ × ℕ) × Sector)) :=
  (s.flushList pfsMount).map fun i => (s.flushBuf pfsMount i).cells

theorem Driver.cells_flushBuf (pfsMount : ℕ) (i : Fin n) : (s.flushBuf pfsMount i).cells =
    blockCells (s.cacheBuf i).sub (s.cacheBuf i).diskSector (s.flushBuf pfsMount i).data := by
  obtain ⟨-, -, hsub, hsector⟩ := (s.cacheBuf i).checksummed_fields
  unfold flushBuf cells diskSector
  split
  · rw [hsub, hsector]
  · rfl

/-- The cells of the cache image that a flush writes behind the journal record. -/
def Driver.flushImage (pfsMount : ℕ) : List ((ℕ × ℕ) × Sector) :=
  (List.finRange n).flatMap fun i =>
    blockCells 0 ((s.mounts pfsMount).logBase + 2 + 2 * i.val) (s.flushBuf pfsMount i).data

/-- Logging refreshes the buffers, writes the image and commits the record. -/
theorem pfsJournalWrite_eq (pfsMount : ℕ) : pfsJournalWrite s pfsMount =
      ({ s with
        cacheBuf := s.flushBuf pfsMount
        journalBuf := s.committed pfsMount } : Driver n).issue pfsMount
        [.write (s.flushImage pfsMount), .flush,
          .write (blockCells 0 (s.mounts pfsMount).logBase (s.committed pfsMount).image), .flush] := by
  let logged : Driver n := { s with
    cacheBuf := s.flushBuf pfsMount
    journalBuf := ((s.flushList pfsMount).map fun i => (s.cacheBuf i).logEntry i.val).foldl
      append s.journalBuf }
  unfold pfsJournalWrite
  rw [foldl_logBuffer]
  change pfsJournalFlush (logged.issue pfsMount [.write (s.flushImage pfsMount)]) pfsMount = _
  rw [pfsJournalFlush_eq, issue_logBase, issue_setJournalBuf, issue_issue]
  rfl

/-- The buffers after a flush. -/
def Driver.cleanBuf (pfsMount : ℕ) (i : Fin n) : CacheBuf :=
  if (s.cacheBuf i).flushable pfsMount then (s.cacheBuf i).checksummed.clean else s.cacheBuf i

theorem Driver.flushBuf_flushable (pfsMount : ℕ) (i : Fin n) :
    (s.flushBuf pfsMount i).flushable pfsMount = (s.cacheBuf i).flushable pfsMount := by
  obtain ⟨hdirty, hmount, -, -⟩ := (s.cacheBuf i).checksummed_fields
  unfold flushBuf
  split
  · simp only [flushable, hdirty, hmount]
  · rfl

/-- A flush with something to write is a transaction of the redo log. -/
theorem pfsCacheFlushAllDirty_eq (pfsMount : ℕ) (hne : s.flushList pfsMount ≠ []) :
    pfsCacheFlushAllDirty s pfsMount =
      ({ s with cacheBuf := s.cleanBuf pfsMount, journalBuf := .cleared } : Driver n).issue pfsMount
        ((journalLog (s.mounts pfsMount).logBase).transaction [s.flushImage pfsMount]
          (blockCells 0 (s.mounts pfsMount).logBase (s.committed pfsMount).image)
          (if (s.mounts pfsMount).lastError = 0 then s.flushWrites pfsMount else [])) := by
  have hfound : ((finRange n).any fun i => (s.cacheBuf i).flushable pfsMount) = true := by
    obtain ⟨i, hi⟩ := exists_mem_of_ne_nil _ hne
    exact any_eq_true.mpr ⟨i, mem_finRange i, (mem_filter.mp hi).2⟩
  unfold pfsCacheFlushAllDirty
  rw [if_pos hfound, foldl_transferWrite, pfsJournalReset_eq,
    pfsJournalWrite_eq]
  simp only [issue_logBase, issue_lastError, issue_cacheBuf,
    issue_setCacheBuf, issue_issue, flushBuf_flushable]
  have hclean : (fun i => if (s.cacheBuf i).flushable pfsMount = true then
      (s.flushBuf pfsMount i).clean else s.flushBuf pfsMount i) = s.cleanBuf pfsMount := by
    funext i
    by_cases hflush : (s.cacheBuf i).flushable pfsMount = true
    · simp [flushBuf, cleanBuf, hflush]
    · simp [flushBuf, cleanBuf, hflush]
  rw [hclean]
  change (({ s with cacheBuf := s.cleanBuf pfsMount, journalBuf := .cleared } : Driver n).issue
    pfsMount _).issue pfsMount _ = _
  rw [issue_issue]
  congr 1
  split <;> simp [RedoLog.transaction, flushWrites, flushList, flushBuf_flushable]

/-- A flush with nothing to write only resets the journal. -/
theorem pfsCacheFlushAllDirty_nil (pfsMount : ℕ) (hnil : s.flushList pfsMount = []) :
    pfsCacheFlushAllDirty s pfsMount = ({ s with journalBuf := .cleared } : Driver n).issue pfsMount
      (journalLog (s.mounts pfsMount).logBase).resetCommands := by
  have hfound : ((finRange n).any fun i => (s.cacheBuf i).flushable pfsMount) = false := by
    rw [any_eq_false]
    intro i hi
    exact filter_eq_nil_iff.mp hnil i hi
  unfold pfsCacheFlushAllDirty
  rw [if_neg (by simp [hfound])]
  exact pfsJournalReset_eq s pfsMount

/-- While the log area is untouched, every entry is restored from the original log. -/
theorem LogEntry.cells_eq (hlocal : (journalLog base).Local disk) {disk' : Disk}
    (hdisk' : ∀ a, (journalLog base).area a → disk' a = disk a) {entry : LogEntry}
    (hentry : entry ∈ loggedEntries (readBlock disk 0 base)) : entry.cells disk' base = entry.cells disk base := by
  have hreplay := hlocal disk' hdisk'
  change (loggedEntries (readBlock disk' 0 (base + 0))).map _ = map _ _ at hreplay
  rw [readBlock_area hdisk' (by omega), Nat.add_zero, map_inj_left] at hreplay
  exact hreplay entry hentry

variable (clink : Fin n)

theorem restoreEntry_eq (s : Driver n) (entry : LogEntry) :
    ∃ cacheBuf, restoreEntry pfsMount clink s entry = ({ s with cacheBuf := cacheBuf } : Driver n).issue
      pfsMount [.write (entry.cells (s.mounts pfsMount).blockDev.contents (s.mounts pfsMount).logBase)] :=
  ⟨_, rfl⟩

/-- The restore loop issues what the log asks for. -/
theorem foldl_restoreEntry (hlocal : (journalLog base).Local disk)
    (hout : (journalLog base).Outside ((journalLog base).replay disk)) (done todo : List LogEntry)
    (hentries : loggedEntries (readBlock disk 0 base) = done ++ todo) (s : Driver n)
    (hbase : (s.mounts pfsMount).logBase = base) (hcontents : (s.mounts pfsMount).blockDev.contents =
      storeAll disk (done.map (LogEntry.cells disk base))) :
    ∃ cacheBuf, todo.foldl (restoreEntry pfsMount clink) s =
      ({ s with cacheBuf := cacheBuf } : Driver n).issue pfsMount
        ((todo.map (LogEntry.cells disk base)).map .write) := by
  induction todo generalizing done s with
  | nil => exact ⟨s.cacheBuf, by simp⟩
  | cons entry rest ih =>
    have hdone : (journalLog base).Outside (done.map (LogEntry.cells disk base)) := by
      intro cells hcells
      apply hout
      change cells ∈ (loggedEntries (readBlock disk 0 base)).map _
      rw [hentries, map_append]
      exact mem_append_left _ hcells
    have hcells : entry.cells (s.mounts pfsMount).blockDev.contents base = entry.cells disk base := by
      rw [hcontents]
      apply LogEntry.cells_eq hlocal (fun a ha => RedoLog.eq_storeAll_outside hdone disk ha)
      rw [hentries]
      simp
    obtain ⟨cacheBuf, hstep⟩ := restoreEntry_eq pfsMount clink s entry
    rw [hbase, hcells] at hstep
    rw [foldl_cons, hstep]
    obtain ⟨cacheBuf', hloop⟩ := ih (done ++ [entry]) (by rw [hentries]; simp)
      (({ s with cacheBuf := cacheBuf } : Driver n).issue pfsMount [.write (entry.cells disk base)])
      (by rw [issue_logBase]; exact hbase)
      (by
        rw [issue_blockDev]
        change store (s.mounts pfsMount).blockDev.contents _ = _
        rw [hcontents]
        simp [storeAll])
    refine ⟨cacheBuf', ?_⟩
    rw [hloop, issue_setCacheBuf, issue_issue]
    rfl

/-- `pfsCacheFree` leaves the journal and the mounts alone. -/
theorem pfsCacheFree_frame : (pfsCacheFree s clink).mounts = s.mounts := by
  unfold pfsCacheFree
  dsimp only
  repeat' split
  all_goals rfl

/-- A restore whose scratch buffer needs no flush is the recovery of the redo log. -/
theorem pfsJournalRestore_issues (pfsMount : ℕ) {clink : Fin n} {rest : List (Fin n)}
    (hfree : s.free = clink :: rest) (hclean : (s.cacheBuf clink).pfsMount = none)
    (hlocal : (journalLog (s.mounts pfsMount).logBase).Local (s.mounts pfsMount).blockDev.contents)
    (hout : (journalLog (s.mounts pfsMount).logBase).Outside
      ((journalLog (s.mounts pfsMount).logBase).replay (s.mounts pfsMount).blockDev.contents)) :
    ((pfsJournalRestore s pfsMount).2.mounts pfsMount).blockDev =
      (s.mounts pfsMount).blockDev.perform ((journalLog (s.mounts pfsMount).logBase).recover
        (s.mounts pfsMount).blockDev.contents) := by
  generalize hbase : (s.mounts pfsMount).logBase = base at *
  generalize hdisk : (s.mounts pfsMount).blockDev.contents = disk at *
  have hreplay : (journalLog base).replay disk =
      (loggedEntries (readBlock disk 0 base)).map (LogEntry.cells disk base) := rfl
  unfold pfsJournalRestore
  simp only [hbase, hdisk]
  by_cases hbad : (ofImage (readBlock disk 0 base)).magic ≠ journalMagic ∨
      (ofImage (readBlock disk 0 base)).checksum ≠ pfsJournalChecksum (readBlock disk 0 base)
  · rw [if_pos hbad, pfsJournalReset_eq, issue_blockDev]
    simp only [RedoLog.recover, hreplay, loggedEntries, if_pos hbad, hbase]
    rfl
  · have hlogged : loggedEntries (readBlock disk 0 base) =
        (ofImage (readBlock disk 0 base)).entries := by
      simp only [loggedEntries, if_neg hbad]
    rw [if_neg hbad]
    by_cases hnum : (ofImage (readBlock disk 0 base)).num = 0
    · rw [if_pos hnum, pfsJournalReset_eq, issue_blockDev]
      simp only [RedoLog.recover, hreplay, hlogged, entries, hnum, hbase]
      rfl
    · rw [if_neg hnum]
      simp only [pfsCacheAllocClean, pfsCacheAlloc, hfree, hclean]
      obtain ⟨cacheBuf, hloop⟩ := foldl_restoreEntry pfsMount clink hlocal hout []
        (ofImage (readBlock disk 0 base)).entries hlogged
        { s with
          cacheBuf := update s.cacheBuf clink
            ⟨false, .nothing, 1, none, 0, 0, (s.cacheBuf clink).data⟩
          free := rest
          journalBuf := ofImage (readBlock disk 0 base) } hbase hdisk
      rw [hloop, pfsJournalReset_eq, issue_blockDev, pfsCacheFree_frame, issue_blockDev,
        issue_logBase, ← BlockDev.perform_append]
      simp only [RedoLog.recover, hreplay, hlogged, hbase]

open BitVec

variable (journal : Journal)

/-- An appended entry comes last. -/
theorem Journal.append_entries (entry : LogEntry) (h : journal.num.toNat < 127) :
    (journal.append entry).entries = journal.entries ++ [entry] ∧
      (journal.append entry).num.toNat = journal.num.toNat + 1 := by
  have hnum : (journal.append entry).num.toNat = journal.num.toNat + 1 := by
    simp only [append, toNat_add]
    have : (1 : BitVec 16).toNat = 1 := rfl
    omega
  refine ⟨?_, hnum⟩
  have htake : (finRange 127).take (journal.num.toNat + 1) =
      (List.finRange 127).take journal.num.toNat ++ [⟨journal.num.toNat, h⟩] := by
    rw [take_add_one, List.getElem?_eq_getElem (by simpa using h)]
    simp
  unfold entries
  rw [hnum, htake, map_append]
  congr 1
  · refine map_congr_left fun i hi => ?_
    obtain ⟨k, hk, rfl⟩ := mem_take_iff_getElem.mp hi
    simp only [append, getElem_finRange]
    rw [if_neg]
    simp only [Fin.val_cast]
    omega
  · simp [append]

variable (entries : List LogEntry)

/-- The entries of a record are those appended to it. -/
theorem Journal.foldl_append_entries (journal : Journal) (h : journal.num.toNat + entries.length ≤ 127) :
    (entries.foldl append journal).entries = journal.entries ++ entries := by
  induction entries generalizing journal with
  | nil => simp
  | cons entry rest ih =>
    rw [length_cons] at h
    obtain ⟨hentries, hnum⟩ := journal.append_entries entry (by omega)
    rw [List.foldl_cons, ih _ (by omega), hentries, List.append_assoc]
    rfl

theorem Journal.foldl_append_magic (journal : Journal) : (entries.foldl append journal).magic = journal.magic := by
  induction entries generalizing journal with
  | nil => rfl
  | cons entry rest ih =>
    rw [foldl_cons, ih]
    rfl

/-- The checksum does not cover its own place. -/
theorem pfsJournalChecksum_sealed : pfsJournalChecksum journal.sealed.image = pfsJournalChecksum journal.image := by
  have hwords (words : List (Fin 256)) (start : BitVec 32) :
      words.foldl (fun sum i => if 2 ≤ i.val then sum + journal.sealed.image i else sum) start =
        words.foldl (fun sum i => if 2 ≤ i.val then sum + journal.image i else sum) start := by
    refine foldl_ext _ _ _ fun sum i _ => ?_
    by_cases hi : 2 ≤ i.val
    · simp [image, sealed, hi, show ¬ i.val = 0 by omega, show ¬ i.val < 2 by omega]
    · rw [if_neg hi, if_neg hi]
  unfold pfsJournalChecksum
  rw [hwords]

theorem loggedEntries_sealed (h : journal.magic = journalMagic) :
    loggedEntries journal.sealed.image = journal.entries := by
  unfold loggedEntries
  rw [ofImage_image, if_neg]
  · rfl
  · rw [pfsJournalChecksum_sealed]
    simp [sealed, h]

variable (s : Driver n) (pfsMount : ℕ)

/-- The state between operations in which a flush starts: the journal is cleared in memory and
on the device, and the dirty buffers of the mount hold different blocks outside the journal. -/
structure Driver.Ready : Prop where
  buffers : n ≤ 127
  cleared : s.journalBuf = .cleared
  idle : loggedEntries (readBlock (s.mounts pfsMount).blockDev.contents 0
    (s.mounts pfsMount).logBase) = []
  bounded : ∀ i ∈ s.flushList pfsMount, (s.cacheBuf i).sub < 2 ^ 16 ∧ (s.cacheBuf i).sector < 2 ^ 31
  outside : ∀ i ∈ s.flushList pfsMount, ∀ cell ∈ (s.cacheBuf i).cells,
    ¬ (journalLog (s.mounts pfsMount).logBase).area cell.1
  distinct : ∀ i ∈ s.flushList pfsMount, ∀ j ∈ s.flushList pfsMount,
    (s.cacheBuf i).sub = (s.cacheBuf j).sub → (s.cacheBuf i).sector = (s.cacheBuf j).sector → i = j

/-- The device once the image and the record are written. -/
def Driver.committedDisk : Disk :=
  store (storeAll (s.mounts pfsMount).blockDev.contents [s.flushImage pfsMount])
    (blockCells 0 (s.mounts pfsMount).logBase (s.committed pfsMount).image)

theorem Driver.committedDisk_header :
    readBlock (s.committedDisk pfsMount) 0 (s.mounts pfsMount).logBase = (s.committed pfsMount).image :=
  readBlock_store _ _ _ _

/-- The committed device shows every buffer behind the record. -/
theorem Driver.committedDisk_image (i : Fin n) :
    readBlock (s.committedDisk pfsMount) 0 ((s.mounts pfsMount).logBase + (2 + 2 * i.val)) =
      (s.flushBuf pfsMount i).data := by
  unfold committedDisk
  rw [readBlock_store_other]
  · change readBlock (store _ (s.flushImage pfsMount)) 0 _ = _
    unfold flushImage store
    rw [foldl_flatMap, ← foldl_map, ← Nat.add_assoc]
    refine readBlock_storeAll (q := fun j : Fin n => (0, (s.mounts pfsMount).logBase + 2 + 2 * j.val)) _ ?_
      (mem_finRange i)
    exact (nodup_finRange n).imp fun hne _ => by
      omega
  · intro cell hcell
    rcases mem_blockCells hcell with heq | heq <;>
      · rw [heq, Ne, Ne, Prod.mk.injEq, Prod.mk.injEq]
        omega

section Flush

variable {s : Driver n} {pfsMount : ℕ} (h : s.Ready pfsMount)
include h

/-- Every cell of the image lies in the journal area, behind the record. -/
theorem Driver.Ready.mem_flushImage {cell : (ℕ × ℕ) × Sector} (hcell : cell ∈ s.flushImage pfsMount) :
    cell.1.1 = 0 ∧ (s.mounts pfsMount).logBase + 2 ≤ cell.1.2 ∧
      cell.1.2 < (s.mounts pfsMount).logBase + 256 := by
  obtain ⟨i, -, hcell⟩ := mem_flatMap.mp hcell
  have hn := h.buffers
  rcases mem_blockCells hcell with heq | heq <;>
    · rw [heq]
      refine ⟨rfl, ?_, ?_⟩ <;> dsimp only <;> omega

/-- The record asks for exactly the buffers to be flushed. -/
theorem Driver.Ready.committed_entries : loggedEntries (s.committed pfsMount).image =
    (s.flushList pfsMount).map fun i => (s.cacheBuf i).logEntry i.val := by
  have hlen : (s.flushList pfsMount).length ≤ 127 := by
    have hle := length_filter_le (fun i => (s.cacheBuf i).flushable pfsMount) (finRange n)
    rw [length_finRange] at hle
    exact hle.trans h.buffers
  unfold committed
  rw [loggedEntries_sealed, Journal.foldl_append_entries]
  · simp [h.cleared, Journal.cleared, Journal.entries]
  · simpa [h.cleared, Journal.cleared] using hlen
  · rw [Journal.foldl_append_magic, h.cleared]
    rfl

/-- Redoing the committed log writes the flushed buffers in place. -/
theorem Driver.Ready.committed_replay : (journalLog (s.mounts pfsMount).logBase).replay (s.committedDisk pfsMount) =
      s.flushWrites pfsMount := by
  change (loggedEntries (readBlock _ 0 _)).map _ = _
  rw [s.committedDisk_header, h.committed_entries, map_map]
  refine map_congr_left fun i hi => ?_
  obtain ⟨hsub, hsector⟩ := h.bounded i hi
  have hn := h.buffers
  have hlogSector : ((s.cacheBuf i).logEntry i.val).logSector.toNat = 2 + 2 * i.val := by
    simp only [logEntry, toNat_ofNat]
    omega
  rw [s.cells_flushBuf]
  simp only [Function.comp_apply, LogEntry.cells, hlogSector, s.committedDisk_image]
  simp only [logEntry, toNat_ofNat, diskSector, Nat.mod_eq_of_lt hsub]

/-- The committed log is in order. -/
theorem Driver.Ready.committed_local :
    (journalLog (s.mounts pfsMount).logBase).Local (s.committedDisk pfsMount) := by
  apply journalLog_local
  rw [s.committedDisk_header, h.committed_entries]
  intro entry hentry
  obtain ⟨i, -, rfl⟩ := mem_map.mp hentry
  have hn := h.buffers
  simp only [logEntry, toNat_ofNat]
  omega

/-- The in-place writes stay outside the journal. -/
theorem Driver.Ready.flushWrites_outside :
    (journalLog (s.mounts pfsMount).logBase).Outside (s.flushWrites pfsMount) := by
  intro cells hcells cell hcell
  obtain ⟨i, hi, rfl⟩ := mem_map.mp hcells
  have hout := h.outside i hi
  rw [s.cells_flushBuf] at hcell
  rcases mem_blockCells hcell with heq | heq <;> rw [heq]
  · exact hout ((_, _), _) (mem_cons_self)
  · exact hout ((_, _), _) (mem_cons_of_mem _ mem_cons_self)

/-- Until the record is committed there is nothing to redo. -/
theorem Driver.Ready.idle_filling {kept : List (List ((ℕ × ℕ) × Sector))}
    (hkept : kept.Subperm [s.flushImage pfsMount]) : (journalLog (s.mounts pfsMount).logBase).Idle
      (storeAll (s.mounts pfsMount).blockDev.contents kept) := by
  apply journalLog_idle
  rcases storeAll_subperm_singleton hkept with heq | heq <;> rw [heq]
  · exact h.idle
  · rw [readBlock_store_other]
    · exact h.idle
    · intro cell hcell
      obtain ⟨-, hlow, -⟩ := h.mem_flushImage hcell
      constructor <;>
        · intro heq
          rw [heq] at hlow
          omega

/-- After the in-place writes every flushed block holds its buffer. -/
theorem Driver.Ready.flushWrites_read (disk : Disk) {i : Fin n} (hi : i ∈ s.flushList pfsMount) :
    readBlock (storeAll disk (s.flushWrites pfsMount)) (s.cacheBuf i).sub (s.cacheBuf i).diskSector =
      (s.flushBuf pfsMount i).data := by
  rw [flushWrites, map_congr_left fun j _ => s.cells_flushBuf pfsMount j]
  refine readBlock_storeAll (q := fun j => ((s.cacheBuf j).sub, (s.cacheBuf j).diskSector)) disk ?_ hi
  refine ((nodup_finRange n).filter _).imp_of_mem fun {j k} hj hk hne hsub => ?_
  have hsector : (s.cacheBuf j).sector ≠ (s.cacheBuf k).sector := fun heq => hne (h.distinct j hj k hk hsub heq)
  have hj' := h.bounded j hj
  have hk' := h.bounded k hk
  simp only [diskSector, Nat.shiftLeft_eq]
  omega

end Flush

/-- The commands that a flush issues. -/
def Driver.flushCommands (s : Driver n) (pfsMount : ℕ) : List DiskCommand :=
  ((pfsCacheFlushAllDirty (s.onDev pfsMount fun dev => ⟨dev.contents, []⟩) pfsMount).mounts
    pfsMount).blockDev.issued

/-- A flush issues a reset or a transaction. -/
theorem Driver.flushCommands_eq (s : Driver n) (pfsMount : ℕ) : s.flushCommands pfsMount =
      if s.flushList pfsMount = [] then (journalLog (s.mounts pfsMount).logBase).resetCommands
      else (journalLog (s.mounts pfsMount).logBase).transaction [s.flushImage pfsMount]
        (blockCells 0 (s.mounts pfsMount).logBase (s.committed pfsMount).image)
        (if (s.mounts pfsMount).lastError = 0 then s.flushWrites pfsMount else []) := by
  generalize hfresh : (s.onDev pfsMount fun dev => ⟨dev.contents, []⟩) = fresh
  have hlist : fresh.flushList pfsMount = s.flushList pfsMount := by rw [← hfresh]; rfl
  have hwrites : fresh.flushWrites pfsMount = s.flushWrites pfsMount := by rw [← hfresh]; rfl
  have hcommitted : fresh.committed pfsMount = s.committed pfsMount := by rw [← hfresh]; rfl
  have hbase : (fresh.mounts pfsMount).logBase = (s.mounts pfsMount).logBase := by
    simp [← hfresh, onDev, Mount.logBase]
  have herror : (fresh.mounts pfsMount).lastError = (s.mounts pfsMount).lastError := by
    simp [← hfresh, onDev]
  have himage : fresh.flushImage pfsMount = s.flushImage pfsMount := by
    unfold flushImage
    rw [hbase, ← hfresh]
    rfl
  have hissued : (fresh.mounts pfsMount).blockDev.issued = [] := by
    simp [← hfresh, onDev]
  unfold flushCommands
  rw [hfresh]
  split
  · next hnil =>
    rw [pfsCacheFlushAllDirty_nil _ _ (hlist.trans hnil), issue_blockDev,
      BlockDev.perform_issued, hissued, hbase]
    rfl
  · next hne =>
    rw [pfsCacheFlushAllDirty_eq _ _ (fun hnil => hne (hlist.symm.trans hnil)), issue_blockDev,
      BlockDev.perform_issued, hissued, hbase, himage, hcommitted, herror, hwrites]
    rfl

/-- The volume mounted after a restart with a fresh cache of `k + 1` buffers. -/
def mountAgain {k : ℕ} (cacheData : Fin (k + 1) → MetaBlock) (mount : Mount) (disk : Disk) : Driver (k + 1) :=
  (pfsJournalRestore (pfsCacheInit (k + 1) cacheData fun _ => { mount with blockDev := ⟨disk, []⟩ }) 0).2

/-- The command sequences a restore may issue on a disk. -/
def RestoreIssues (mount : Mount) (disk : Disk) (commands : List DiskCommand) : Prop :=
  ∃ k, ∃ cacheData : Fin (k + 1) → MetaBlock,
    commands = ((mountAgain cacheData mount disk).mounts 0).blockDev.issued

/-- The disk after a complete restore. -/
def restoredDisk {k : ℕ} (cacheData : Fin (k + 1) → MetaBlock) (mount : Mount) (disk : Disk) : Disk :=
  ((mountAgain cacheData mount disk).mounts 0).blockDev.contents

variable {disk target : Disk} {k : ℕ}

variable (cacheData : Fin (k + 1) → MetaBlock) (mount : Mount)

theorem mountAgain_blockDev {disk : Disk} (hlocal : (journalLog mount.logBase).Local disk)
    (hout : (journalLog mount.logBase).Outside ((journalLog mount.logBase).replay disk)) :
    ((mountAgain cacheData mount disk).mounts 0).blockDev =
      BlockDev.perform ⟨disk, []⟩ ((journalLog mount.logBase).recover disk) :=
  pfsJournalRestore_issues _ 0 (by rw [pfsCacheInit, finRange_succ]) rfl hlocal hout

/-- A complete restore leaves the recovered disk. -/
theorem restoredDisk_eq (h : (journalLog mount.logBase).Represents disk target) :
    restoredDisk cacheData mount disk = (journalLog mount.logBase).recovered disk := by
  unfold restoredDisk
  rw [mountAgain_blockDev cacheData mount h.local_ h.outside]
  unfold RedoLog.recover
  rw [BlockDev.perform_append]
  change store (BlockDev.perform _ _).contents _ = _
  rw [BlockDev.perform_writes_contents]
  rfl

/-- Power loss during a flush leaves a disk that stands for the old or the new contents. -/
theorem Driver.Ready.powerLoss {s : Driver n} {pfsMount : ℕ} (h : s.Ready pfsMount) {lost : Disk}
    (hloss : PowerLoss (s.mounts pfsMount).blockDev.contents (s.flushCommands pfsMount) lost) :
    (journalLog (s.mounts pfsMount).logBase).Represents lost (s.mounts pfsMount).blockDev.contents ∨
      (journalLog (s.mounts pfsMount).logBase).Represents lost
        (storeAll (s.mounts pfsMount).blockDev.contents (s.flushWrites pfsMount)) := by
  rw [s.flushCommands_eq] at hloss
  split at hloss
  · have hidle := h.idle_filling (nil_subperm)
    exact .inl (RedoLog.powerLoss_reset []
      (fun kept hkept => subperm_nil.mp hkept ▸ hidle.represents fun _ _ => rfl)
      (fun _ _ => rfl) hloss)
  · refine RedoLog.powerLoss_transaction ?_ (fun kept hkept => h.idle_filling hkept) ?_
      h.committed_local h.committed_replay h.flushWrites_outside ?_ hloss
    · intro cells hcells cell hcell
      obtain rfl := mem_singleton.mp hcells
      obtain ⟨hsub, hlow, hhigh⟩ := h.mem_flushImage hcell
      exact ⟨hsub, by omega, hhigh⟩
    · intro cell hcell
      rcases mem_blockCells hcell with heq | heq <;> rw [heq] <;> exact ⟨rfl, by simp, by simp⟩
    · split
      · exact .inl rfl
      · exact .inr rfl

theorem restoredDisk_idem (h : (journalLog mount.logBase).Represents disk target) :
    restoredDisk cacheData mount (restoredDisk cacheData mount disk) =
      restoredDisk cacheData mount disk := by
  have hidle := (RedoLog.recovered_spec h).2
  rw [restoredDisk_eq cacheData mount h,
    restoredDisk_eq cacheData mount (hidle.represents fun _ _ => rfl), RedoLog.recovered_recovered]

theorem readBlock_restoredDisk (h : (journalLog mount.logBase).Represents disk target) (clink : CacheBuf)
    (hout : ∀ cell ∈ clink.cells, ¬ (journalLog mount.logBase).area cell.1) :
    readBlock (restoredDisk cacheData mount disk) clink.sub clink.diskSector =
      readBlock target clink.sub clink.diskSector := by
  rw [restoredDisk_eq cacheData mount h]
  have hagrees := (RedoLog.recovered_spec h).1
  exact readBlock_congr (hagrees _ (hout ((_, _), _) mem_cons_self))
    (hagrees _ (hout ((_, _), _) (mem_cons_of_mem _ mem_cons_self)))

/-- A flush cleans the buffers and ends with a reset of the journal, whether or not there is something to write. -/
theorem pfsCacheFlushAllDirty_issues (s : Driver n) (pfsMount : ℕ) : ∃ commands, pfsCacheFlushAllDirty s pfsMount =
    ({ s with cacheBuf := s.cleanBuf pfsMount, journalBuf := .cleared } : Driver n).issue pfsMount
      (commands ++ (journalLog (s.mounts pfsMount).logBase).resetCommands) := by
  by_cases hnil : s.flushList pfsMount = []
  · have hclean : s.cleanBuf pfsMount = s.cacheBuf :=
      funext fun i => if_neg (filter_eq_nil_iff.mp hnil i (mem_finRange i))
    exact ⟨[], by rw [pfsCacheFlushAllDirty_nil s pfsMount hnil, hclean, nil_append]⟩
  · rw [pfsCacheFlushAllDirty_eq s pfsMount hnil, RedoLog.transaction, ← List.cons_append, ← List.cons_append,
      ← List.cons_append, ← List.append_assoc]
    exact ⟨_, rfl⟩

/-- The buffers after a flush hold what was flushed. -/
theorem pfsCacheFlushAllDirty_data (s : Driver n) (pfsMount : ℕ) (i : Fin n) :
    ((pfsCacheFlushAllDirty s pfsMount).cacheBuf i).data = (s.flushBuf pfsMount i).data := by
  obtain ⟨commands, heq⟩ := pfsCacheFlushAllDirty_issues s pfsMount
  rw [heq, issue_cacheBuf]
  dsimp only [cleanBuf, flushBuf]
  split <;> rfl

/-- A flush ends with the journal cleared, in memory and on the device. -/
theorem pfsCacheFlushAllDirty_cleared (s : Driver n) (pfsMount : ℕ) :
    (pfsCacheFlushAllDirty s pfsMount).journalBuf = .cleared ∧
      loggedEntries (readBlock ((pfsCacheFlushAllDirty s pfsMount).mounts pfsMount).blockDev.contents 0
        (s.mounts pfsMount).logBase) = [] := by
  obtain ⟨commands, heq⟩ := pfsCacheFlushAllDirty_issues s pfsMount
  rw [heq, issue_blockDev, BlockDev.perform_append]
  refine ⟨rfl, ?_⟩
  change loggedEntries (readBlock (store _ (blockCells 0 (s.mounts pfsMount).logBase _)) 0 _) = []
  rw [readBlock_store, loggedEntries_cleared]

/-- A flush leaves nothing to flush. -/
theorem pfsCacheFlushAllDirty_flushList (s : Driver n) (pfsMount : ℕ) :
    (pfsCacheFlushAllDirty s pfsMount).flushList pfsMount = [] := by
  obtain ⟨commands, heq⟩ := pfsCacheFlushAllDirty_issues s pfsMount
  rw [heq]
  refine filter_eq_nil_iff.mpr fun i _ => ?_
  simp only [issue_cacheBuf, cleanBuf]
  split
  · simp [flushable, clean]
  · assumption

/-- After a flush the driver is ready for the next one. -/
theorem Driver.Ready.pfsCacheFlushAllDirty {s : Driver n} {pfsMount : ℕ} (h : s.Ready pfsMount) :
    (pfsCacheFlushAllDirty s pfsMount).Ready pfsMount := by
  have hnone := pfsCacheFlushAllDirty_flushList s pfsMount
  obtain ⟨hcleared, hidle⟩ := pfsCacheFlushAllDirty_cleared s pfsMount
  obtain ⟨commands, heq⟩ := pfsCacheFlushAllDirty_issues s pfsMount
  constructor
  · exact h.buffers
  · exact hcleared
  · rw [← hidle, heq, issue_logBase]
  all_goals
    intro i hi
    exact absurd (hnone ▸ hi) not_mem_nil

/-- Power loss at any point of a flush, any number of interrupted restores and a complete one
leave every flushed block with its contents before the flush, or every one with its contents
after it; restoring again changes nothing. -/
theorem pfsCacheFlushAllDirty_atomic {k : ℕ} (s : Driver n) (pfsMount : ℕ) (h : s.Ready pfsMount)
    (cacheData : Fin (k + 1) → MetaBlock) (lost last : Disk)
    (hloss : PowerLoss (s.mounts pfsMount).blockDev.contents (s.flushCommands pfsMount) lost)
    (hagain : RedoLog.Interrupted (RestoreIssues (s.mounts pfsMount)) lost last) :
    let final := restoredDisk cacheData (s.mounts pfsMount) last
    ((∀ i ∈ s.flushList pfsMount, readBlock final (s.cacheBuf i).sub (s.cacheBuf i).diskSector =
        readBlock (s.mounts pfsMount).blockDev.contents (s.cacheBuf i).sub (s.cacheBuf i).diskSector) ∨
      ∀ i ∈ s.flushList pfsMount, readBlock final (s.cacheBuf i).sub (s.cacheBuf i).diskSector =
        ((pfsCacheFlushAllDirty s pfsMount).cacheBuf i).data) ∧
      restoredDisk cacheData (s.mounts pfsMount) final = final := by
  have hrestores : ∀ disk commands, (journalLog (s.mounts pfsMount).logBase).Local disk →
      (journalLog (s.mounts pfsMount).logBase).Outside
        ((journalLog (s.mounts pfsMount).logBase).replay disk) →
      RestoreIssues (s.mounts pfsMount) disk commands →
      commands = (journalLog (s.mounts pfsMount).logBase).recover disk ∨ commands = [] := by
    rintro disk commands hlocal hout ⟨k, cacheData, rfl⟩
    rw [mountAgain_blockDev cacheData _ hlocal hout, BlockDev.perform_issued]
    exact .inl rfl
  rcases h.powerLoss hloss with hold | hnew
  · have hlast := hold.interrupted hrestores hagain
    refine ⟨.inl fun i hi => ?_, restoredDisk_idem cacheData _ hlast⟩
    exact readBlock_restoredDisk cacheData _ hlast (s.cacheBuf i) (h.outside i hi)
  · have hlast := hnew.interrupted hrestores hagain
    refine ⟨.inr fun i hi => ?_, restoredDisk_idem cacheData _ hlast⟩
    rw [readBlock_restoredDisk cacheData _ hlast (s.cacheBuf i) (h.outside i hi),
      pfsCacheFlushAllDirty_data]
    exact h.flushWrites_read _ hi

/-- A driver with two dirty buffers on an empty volume. -/
def twoDirtyBuffers : Driver 2 where
  cacheBuf i := ⟨true, .bitmap, 0, some 0, 0, 500 + i.val, fun _ => 7⟩
  free := finRange 2
  journalBuf := .cleared
  mounts _ :=
    { blockDev := ⟨fun _ _ => 3, []⟩
      partSize := fun _ => 0
      zfree := 0
      sectorScale := 4
      inodeScale := 3
      numSubs := 0
      log := ⟨8, 0, 16⟩
      lastError := 0
      freeZone := fun _ => 0 }

/-- Its disk when power is lost after the log record and the first block. -/
def twoDirtyBuffers.lost : Disk :=
  (Drive.after ⟨(twoDirtyBuffers.mounts 0).blockDev.contents, []⟩
    ((twoDirtyBuffers.flushCommands 0).take 5)).contents

/-- The restore of that disk. -/
def twoDirtyBuffers.restore : List DiskCommand :=
  ((mountAgain (k := 0) (fun _ _ => 0) (twoDirtyBuffers.mounts 0) twoDirtyBuffers.lost).mounts 0).blockDev.issued

/-- Its disk when power is lost again after the first transfer of the restore. -/
def twoDirtyBuffers.last : Disk :=
  (Drive.after ⟨twoDirtyBuffers.lost, []⟩ (twoDirtyBuffers.restore.take 1)).contents

/-- Both blocks are logged when power is lost, one is written, and both are restored. -/
theorem pfsCacheFlushAllDirty_atomic_twoDirtyBuffers :
    let s := twoDirtyBuffers
    let final := restoredDisk (fun _ : Fin 1 => fun _ => 0) (s.mounts 0) twoDirtyBuffers.last
    (s.flushCommands 0).length = 9 ∧ (loggedEntries (readBlock twoDirtyBuffers.lost 0 128)).length = 2 ∧
      ((∀ i ∈ s.flushList 0, readBlock final (s.cacheBuf i).sub (s.cacheBuf i).diskSector =
          readBlock (s.mounts 0).blockDev.contents (s.cacheBuf i).sub (s.cacheBuf i).diskSector) ∨
        ∀ i ∈ s.flushList 0, readBlock final (s.cacheBuf i).sub (s.cacheBuf i).diskSector =
          ((pfsCacheFlushAllDirty s 0).cacheBuf i).data) ∧
      restoredDisk (fun _ : Fin 1 => fun _ => 0) (s.mounts 0) final = final := by
  have hready : twoDirtyBuffers.Ready 0 := by
    refine ⟨by decide, rfl, by decide +kernel, ?_, ?_, by decide⟩
    · decide
    · have hbase : (twoDirtyBuffers.mounts 0).logBase = 128 := by decide
      have hsector : ∀ i, 1000 ≤ (twoDirtyBuffers.cacheBuf i).diskSector := by decide
      intro i _ cell hcell harea
      specialize hsector i
      have hhigh := harea.2.2
      rcases mem_blockCells hcell with heq | heq <;>
        · rw [heq, hbase] at hhigh
          omega
  have hloss (disk : Disk) (commands : List DiskCommand) (k : ℕ) :
      PowerLoss disk commands (Drive.after ⟨disk, []⟩ (commands.take k)).contents :=
    ⟨_, take_prefix _ _, _, Subperm.refl _, rfl⟩
  have hrestore : RestoreIssues (twoDirtyBuffers.mounts 0) twoDirtyBuffers.lost twoDirtyBuffers.restore :=
    ⟨0, _, rfl⟩
  refine ⟨by decide +kernel, by decide +kernel, ?_⟩
  exact pfsCacheFlushAllDirty_atomic twoDirtyBuffers 0 hready (fun _ : Fin 1 => fun _ => 0) twoDirtyBuffers.lost
    twoDirtyBuffers.last (hloss _ _ 5) (.again hrestore (hloss _ _ 1) (.none _))

end Ps2sdk.Pfs
