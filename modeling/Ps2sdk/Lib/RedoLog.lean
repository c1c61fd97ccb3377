import Mathlib.Data.List.Perm.Subperm

/-!
# Redo logs on a drive that loses power

A drive accepts atomic writes of several cells and cache flushes. A write is durable only
after the next flush; until then the drive may perform the writes it has accepted in any
order, and power loss drops those it has not performed yet. `PowerLoss` relates the disk
before a sequence of commands to every disk that power loss during it can leave behind.

What a log asks to be redone is read off its area alone (`Local`). A transaction fills the log, commits it with one
write, performs its writes in place and resets the log, with a flush between these stages. `Represents` says which
disk a possibly interrupted disk stands for: the one that redoing the log gives. A device of 512-byte sectors keeps
the commands it was given, so that what power loss may leave behind can be asked afterwards.
-/

namespace Ps2sdk.Lib

open List Function

variable {A C : Type*} [DecidableEq A]

variable {cells : List (A × C)} {a : A} {disk disk' lost : A → C} {writes : List (List (A × C))}

/-- A command to a drive: an atomic write of some cells, or a flush of its cache. -/
inductive Command (A C : Type*)
  | write (cells : List (A × C))
  | flush

/-- The disk after one write. -/
def store (disk : A → C) (cells : List (A × C)) : A → C :=
  cells.foldl (fun disk cell => Function.update disk cell.1 cell.2) disk

/-- The disk after some writes in order. -/
def storeAll (disk : A → C) (writes : List (List (A × C))) : A → C := writes.foldl store disk

/-- The durable disk and the accepted writes that are not durable yet. -/
structure Drive (A C : Type*) where
  disk : A → C
  pending : List (List (A × C))

variable (drive : Drive A C)

/-- The drive accepts one command. -/
def Drive.issue : Command A C → Drive A C
  | .write cells => { drive with pending := drive.pending ++ [cells] }
  | .flush => ⟨storeAll drive.disk drive.pending, []⟩

/-- The drive accepts some commands in order. -/
def Drive.after (commands : List (Command A C)) : Drive A C :=
  commands.foldl Drive.issue drive

/-- What reads return: every accepted write is visible. -/
def Drive.contents : A → C := storeAll drive.disk drive.pending

/-- The disks power loss may leave behind when the drive is in this state. -/
def Drive.Leaves (disk : A → C) : Prop :=
  ∃ kept, kept.Subperm drive.pending ∧ disk = storeAll drive.disk kept

/-- The disks power loss during the commands may leave behind. -/
def PowerLoss (disk : A → C) (commands : List (Command A C)) (lost : A → C) : Prop :=
  ∃ issued, issued <+: commands ∧ (Drive.after ⟨disk, []⟩ issued).Leaves lost

/-- A cell outside a write keeps its contents. -/
theorem store_of_notMem (disk : A → C) (h : ∀ cell ∈ cells, cell.1 ≠ a) : store disk cells a = disk a := by
  induction cells generalizing disk with
  | nil => rfl
  | cons cell rest ih =>
    change store (update disk cell.1 cell.2) rest a = disk a
    rw [ih _ (fun c hc => h c (mem_cons_of_mem _ hc))]
    exact update_of_ne (h cell mem_cons_self).symm _ _

/-- What a write leaves in a cell depends on the old contents of that cell only, and on
nothing when the cell is written. -/
theorem store_congr (h : disk a = disk' a ∨ ∃ cell ∈ cells, cell.1 = a) :
    store disk cells a = store disk' cells a := by
  induction cells generalizing disk disk' with
  | nil =>
    rcases h with h | ⟨_, hc, -⟩
    · exact h
    · simp at hc
  | cons cell rest ih =>
    apply ih
    by_cases hcell : cell.1 = a
    · subst hcell
      simp
    · rcases h with h | ⟨c, hc, hca⟩
      · simp [update_of_ne (Ne.symm hcell), h]
      · rcases mem_cons.mp hc with rfl | hc
        · exact absurd hca hcell
        · exact .inr ⟨c, hc, hca⟩

/-- A cell outside all writes keeps its contents. -/
theorem storeAll_of_notMem (disk : A → C)
    (h : ∀ cells ∈ writes, ∀ cell ∈ cells, cell.1 ≠ a) : storeAll disk writes a = disk a := by
  induction writes generalizing disk with
  | nil => rfl
  | cons cells rest ih =>
    change storeAll (store disk cells) rest a = disk a
    rw [ih _ (fun ws hws => h ws (mem_cons_of_mem _ hws))]
    exact store_of_notMem disk (h cells mem_cons_self)

/-- What some writes leave in a cell depends on the old contents of that cell only, and on
nothing when the cell is written. -/
theorem storeAll_congr (h : disk a = disk' a ∨ ∃ cells ∈ writes, ∃ cell ∈ cells, cell.1 = a) :
    storeAll disk writes a = storeAll disk' writes a := by
  induction writes generalizing disk disk' with
  | nil =>
    rcases h with h | ⟨_, hc, -⟩
    · exact h
    · simp at hc
  | cons cells rest ih =>
    apply ih
    by_cases hcells : ∃ cell ∈ cells, cell.1 = a
    · exact .inl (store_congr (.inr hcells))
    · rcases h with h | ⟨ws, hws, hcell⟩
      · exact .inl (store_congr (.inl h))
      · rcases mem_cons.mp hws with rfl | hws
        · exact absurd hcell hcells
        · exact .inr ⟨ws, hws, hcell⟩

/-- Repeating writes hides that some of them had already happened. -/
theorem storeAll_redo (disk : A → C) {kept : List (List (A × C))} (h : kept ⊆ writes) :
    storeAll (storeAll disk kept) writes = storeAll disk writes := by
  funext a
  apply storeAll_congr
  by_cases ha : ∃ cells ∈ writes, ∃ cell ∈ cells, cell.1 = a
  · exact .inr ha
  · refine .inl (storeAll_of_notMem disk fun cells hcells cell hcell heq => ha ?_)
    exact ⟨cells, h hcells, cell, hcell, heq⟩

/-- Accepting writes only makes them pending. -/
theorem Drive.after_writes (writes : List (List (A × C))) :
    drive.after (writes.map .write) = ⟨drive.disk, drive.pending ++ writes⟩ := by
  induction writes generalizing drive with
  | nil => simp [Drive.after]
  | cons cells rest ih =>
    change (drive.issue (.write cells)).after (rest.map .write) = _
    rw [ih]
    simp [Drive.issue]

/-- Commands are accepted one after the other. -/
theorem Drive.after_append (first second : List (Command A C)) :
    drive.after (first ++ second) = (drive.after first).after second :=
  foldl_append

/-- Power loss before anything was issued leaves the disk alone. -/
theorem powerLoss_nil (h : PowerLoss disk [] lost) : lost = disk := by
  obtain ⟨issued, hissued, kept, hkept, rfl⟩ := h
  obtain rfl := prefix_nil.mp hissued
  obtain rfl : kept = [] := subperm_nil.mp hkept
  rfl

/-- Power loss between two flushes performs some of the writes. -/
theorem powerLoss_writes
    (h : PowerLoss disk (writes.map .write) lost) : ∃ kept, kept.Subperm writes ∧ lost = storeAll disk kept := by
  obtain ⟨issued, hissued, kept, hkept, rfl⟩ := h
  obtain ⟨n, rfl⟩ : ∃ n, issued = (writes.take n).map .write :=
    ⟨issued.length, by rw [map_take]; exact prefix_iff_eq_take.mp hissued⟩
  rw [Drive.after_writes] at hkept ⊢
  exact ⟨kept, hkept.trans (take_sublist n writes).subperm, rfl⟩

/-- Power loss strikes before the first flush, or after it. -/
theorem powerLoss_flush (writes : List (List (A × C)))
    {rest : List (Command A C)} (h : PowerLoss disk (writes.map .write ++ .flush :: rest) lost) :
    (∃ kept, kept.Subperm writes ∧ lost = storeAll disk kept) ∨ PowerLoss (storeAll disk writes) rest lost := by
  obtain ⟨issued, hissued, hleaves⟩ := h
  rcases prefix_or_prefix_of_prefix hissued (prefix_append _ _) with hearly | ⟨late, rfl⟩
  · exact .inl (powerLoss_writes ⟨issued, hearly, hleaves⟩)
  · have hlate := (prefix_append_right_inj _).mp hissued
    cases late with
    | nil =>
      rw [append_nil] at hleaves
      exact .inl (powerLoss_writes ⟨_, prefix_refl _, hleaves⟩)
    | cons command late =>
      obtain ⟨rfl, htail⟩ := cons_prefix_cons.mp hlate
      refine .inr ⟨late, htail, ?_⟩
      rw [Drive.after_append, Drive.after_writes] at hleaves
      exact hleaves

/-- Of a single write power loss performs all or nothing. -/
theorem storeAll_subperm_singleton {kept : List (List (A × C))} (h : kept.Subperm [cells]) :
    storeAll disk kept = disk ∨ storeAll disk kept = store disk cells := by
  have hlen : kept.length ≤ 1 := h.length_le
  match kept, hlen with
  | [], _ => exact .inl rfl
  | [only], _ =>
    obtain rfl : only = cells := by simpa using h.subset
    exact .inr rfl

/-- A redo log: its area, what its contents ask to be redone, and the write that resets it. -/
structure RedoLog (A C : Type*) [DecidableEq A] where
  area : A → Prop
  replay : (A → C) → List (List (A × C))
  reset : List (A × C)
  replay_reset : ∀ disk disk', (∀ a, area a → disk' a = store disk reset a) → replay disk' = []
  reset_area : ∀ cell ∈ reset, area cell.1

namespace RedoLog

variable {log : RedoLog A C} {disk lost target : A → C}

/-- All writes stay inside the log area. -/
def Inside (log : RedoLog A C) (writes : List (List (A × C))) : Prop :=
  ∀ cells ∈ writes, ∀ cell ∈ cells, log.area cell.1

/-- All writes stay outside the log area. -/
def Outside (log : RedoLog A C) (writes : List (List (A × C))) : Prop :=
  ∀ cells ∈ writes, ∀ cell ∈ cells, ¬ log.area cell.1

/-- The two disks agree outside the log area. -/
def Agrees (log : RedoLog A C) (disk disk' : A → C) : Prop :=
  ∀ a, ¬ log.area a → disk a = disk' a

/-- What is to be redone depends on the log area alone. -/
def Local (log : RedoLog A C) (disk : A → C) : Prop :=
  ∀ disk', (∀ a, log.area a → disk' a = disk a) → log.replay disk' = log.replay disk

/-- The log of the disk is in order, and redoing it gives the target. -/
structure Represents (log : RedoLog A C) (disk target : A → C) : Prop where
  local_ : log.Local disk
  outside : log.Outside (log.replay disk)
  redone : log.Agrees (storeAll disk (log.replay disk)) target

/-- The commands of a reset. -/
def resetCommands (log : RedoLog A C) : List (Command A C) := [.flush, .write log.reset, .flush]

/-- Recovery: redo what the log asks for, then reset it. -/
def recover (log : RedoLog A C) (disk : A → C) : List (Command A C) :=
  (log.replay disk).map .write ++ log.resetCommands

/-- The disk after an uninterrupted recovery. -/
def recovered (log : RedoLog A C) (disk : A → C) : A → C :=
  store (storeAll disk (log.replay disk)) log.reset

/-- A transaction: fill the log, commit it, perform the writes in place, reset the log. -/
def transaction (log : RedoLog A C) (fill : List (List (A × C))) (commit : List (A × C))
    (home : List (List (A × C))) : List (Command A C) :=
  fill.map .write ++ .flush :: .write commit :: .flush :: (home.map .write ++ log.resetCommands)

/-- Writes inside the area are invisible outside it. -/
theorem agrees_storeAll_inside {writes : List (List (A × C))} (h : log.Inside writes)
    (disk : A → C) : log.Agrees (storeAll disk writes) disk := by
  intro a ha
  exact storeAll_of_notMem disk fun cells hcells cell hcell heq => ha (heq ▸ h cells hcells cell hcell)

/-- A write inside the area is invisible outside it. -/
theorem agrees_store_inside {cells : List (A × C)} (h : ∀ cell ∈ cells, log.area cell.1)
    (disk : A → C) : log.Agrees (store disk cells) disk := by
  intro a ha
  exact store_of_notMem disk fun cell hcell heq => ha (heq ▸ h cell hcell)

/-- Writes outside the area are invisible inside it. -/
theorem eq_storeAll_outside {writes : List (List (A × C))} (h : log.Outside writes) (disk : A → C)
    {a : A} (ha : log.area a) : storeAll disk writes a = disk a :=
  storeAll_of_notMem disk fun cells hcells cell hcell heq => h cells hcells cell hcell (heq ▸ ha)

/-- A log that asks for nothing, whatever the rest of the disk holds. -/
def Idle (log : RedoLog A C) (disk : A → C) : Prop :=
  ∀ disk', (∀ a, log.area a → disk' a = disk a) → log.replay disk' = []

/-- A disk whose log is idle stands for every disk it agrees with. -/
theorem Idle.represents (hidle : log.Idle disk) (h : log.Agrees disk target) : log.Represents disk target := by
  have hnil : log.replay disk = [] := hidle disk fun _ _ => rfl
  refine ⟨fun disk' hdisk' => (hidle disk' hdisk').trans hnil.symm, ?_, ?_⟩ <;> rw [hnil]
  · simp [Outside]
  · exact h

/-- A reset leaves the log idle. -/
theorem idle_reset (log : RedoLog A C) (disk : A → C) : log.Idle (store disk log.reset) :=
  fun disk' hdisk' => log.replay_reset disk disk' hdisk'

/-- A reset disk stands for every disk it agrees with. -/
theorem represents_reset (h : log.Agrees disk target) : log.Represents (store disk log.reset) target := by
  apply (log.idle_reset disk).represents
  intro a ha
  rw [agrees_store_inside log.reset_area disk a ha]
  exact h a ha

/-- A disk on which some of the writes to be redone have happened stands for the same disk. -/
theorem Represents.partly {kept : List (List (A × C))} (h : log.Represents disk target)
    (hkept : kept ⊆ log.replay disk) : log.Represents (storeAll disk kept) target := by
  have hout : log.Outside kept := fun cells hcells => h.outside cells (hkept hcells)
  have hsame : log.replay (storeAll disk kept) = log.replay disk :=
    h.local_ _ fun a ha => eq_storeAll_outside hout disk ha
  refine ⟨fun disk' hdisk' => ?_, ?_, ?_⟩ <;> rw [hsame]
  · exact h.local_ disk' fun a ha => (hdisk' a ha).trans (eq_storeAll_outside hout disk ha)
  · exact h.outside
  · rw [storeAll_redo disk hkept]
    exact h.redone

/-- Power loss during a reset keeps what the disk stands for, if the disk agrees with it. -/
theorem powerLoss_reset (writes : List (List (A × C)))
    (hpartly : ∀ kept, kept.Subperm writes → log.Represents (storeAll disk kept) target)
    (hagrees : log.Agrees (storeAll disk writes) target)
    (hloss : PowerLoss disk (writes.map .write ++ log.resetCommands) lost) : log.Represents lost target := by
  rcases powerLoss_flush _ hloss with ⟨kept, hkept, rfl⟩ | hloss
  · exact hpartly kept hkept
  rcases powerLoss_flush [log.reset] hloss with ⟨kept, hkept, rfl⟩ | hloss
  · rcases storeAll_subperm_singleton hkept with heq | heq <;> rw [heq]
    · exact hpartly writes (List.Subperm.refl _)
    · exact represents_reset hagrees
  · rw [powerLoss_nil hloss]
    exact represents_reset hagrees

/-- Power loss during recovery keeps what the disk stands for. -/
theorem powerLoss_recover (h : log.Represents disk target)
    (hloss : PowerLoss disk (log.recover disk) lost) : log.Represents lost target :=
  powerLoss_reset _ (fun _ hkept => h.partly hkept.subset) h.redone hloss

/-- Recovery leaves the disk that was stood for, with nothing to redo. -/
theorem recovered_spec (h : log.Represents disk target) :
    log.Agrees (log.recovered disk) target ∧ log.Idle (log.recovered disk) := by
  refine ⟨fun a ha => ?_, log.idle_reset _⟩
  unfold recovered
  rw [agrees_store_inside log.reset_area _ a ha]
  exact h.redone a ha

/-- Recovering once more changes nothing. -/
theorem recovered_recovered (log : RedoLog A C) (disk : A → C) :
    log.recovered (log.recovered disk) = log.recovered disk := by
  have hidle : log.replay (log.recovered disk) = [] := log.idle_reset _ _ fun _ _ => rfl
  have hredo := storeAll_redo (storeAll disk (log.replay disk)) (List.Subset.refl [log.reset])
  unfold recovered at hidle ⊢
  rw [hidle]
  exact hredo

/-- Power loss during a transaction leaves a disk that stands for the old disk, or for the new
one with all writes performed. The writes in place may be left out. -/
theorem powerLoss_transaction {fill home writes : List (List (A × C))} {commit : List (A × C)}
    (hfill : log.Inside fill) (hidle : ∀ kept, kept.Subperm fill → log.Idle (storeAll disk kept))
    (hcommit : ∀ cell ∈ commit, log.area cell.1) (hlocal : log.Local (store (storeAll disk fill) commit))
    (hreplay : log.replay (store (storeAll disk fill) commit) = writes)
    (hout : log.Outside writes) (hhome : home = writes ∨ home = [])
    (hloss : PowerLoss disk (log.transaction fill commit home) lost) :
    log.Represents lost disk ∨ log.Represents lost (storeAll disk writes) := by
  have hkeep : ∀ kept, kept.Subperm fill → log.Agrees (storeAll disk kept) disk := fun kept hkept =>
    agrees_storeAll_inside (fun cells hcells => hfill cells (hkept.subset hcells)) disk
  have hagrees : log.Agrees (store (storeAll disk fill) commit) disk := fun a ha =>
    (agrees_store_inside hcommit _ a ha).trans (hkeep fill (List.Subperm.refl _) a ha)
  have hcommitted : log.Represents (store (storeAll disk fill) commit) (storeAll disk writes) := by
    refine ⟨hlocal, ?_, ?_⟩ <;> rw [hreplay]
    · exact hout
    · exact fun a ha => storeAll_congr (.inl (hagrees a ha))
  rcases powerLoss_flush _ hloss with ⟨kept, hkept, rfl⟩ | hloss
  · exact .inl ((hidle kept hkept).represents (hkeep kept hkept))
  rcases powerLoss_flush [commit] hloss with ⟨kept, hkept, rfl⟩ | hloss
  · rcases storeAll_subperm_singleton hkept with heq | heq <;> rw [heq]
    · exact .inl ((hidle fill (List.Subperm.refl _)).represents
        (hkeep fill (List.Subperm.refl _)))
    · exact .inr hcommitted
  rcases hhome with rfl | rfl
  · refine .inr (powerLoss_reset _ (fun kept hkept => ?_) ?_ hloss)
    · exact hcommitted.partly (hreplay.symm ▸ hkept.subset)
    · have hredone := hcommitted.redone
      rw [hreplay] at hredone
      exact hredone
  · rcases powerLoss_flush [] hloss with ⟨kept, hkept, rfl⟩ | hloss
    · rw [List.subperm_nil.mp hkept]
      exact .inr hcommitted
    rcases powerLoss_flush [log.reset] hloss with ⟨kept, hkept, rfl⟩ | hloss
    · rcases storeAll_subperm_singleton hkept with heq | heq <;> rw [heq]
      · exact .inr hcommitted
      · exact .inl (represents_reset hagrees)
    · rw [powerLoss_nil hloss]
      exact .inl (represents_reset hagrees)

/-- The disk after a whole transaction. -/
def performed (log : RedoLog A C) (disk : A → C) (fill : List (List (A × C))) (commit : List (A × C))
    (home : List (List (A × C))) : A → C :=
  store (storeAll (store (storeAll disk fill) commit) home) log.reset

/-- A transaction leaves its writes in place, and the log idle. -/
theorem performed_spec {fill home : List (List (A × C))} {commit : List (A × C)} (hfill : log.Inside fill)
    (hcommit : ∀ cell ∈ commit, log.area cell.1) :
    log.Agrees (log.performed disk fill commit home) (storeAll disk home) ∧
      log.Idle (log.performed disk fill commit home) := by
  refine ⟨fun a ha => ?_, log.idle_reset _⟩
  unfold performed
  rw [agrees_store_inside log.reset_area _ a ha]
  apply storeAll_congr
  exact .inl ((agrees_store_inside hcommit _ a ha).trans (agrees_storeAll_inside hfill disk a ha))

/-- The disks reached by any number of interrupted recoveries, each of which may issue any of
the command sequences allowed for the disk it finds. -/
inductive Interrupted (recovery : (A → C) → List (Command A C) → Prop) : (A → C) → (A → C) → Prop
  | none (disk : A → C) : Interrupted recovery disk disk
  | again {disk lost last : A → C} {commands : List (Command A C)} : recovery disk commands →
      PowerLoss disk commands lost → Interrupted recovery lost last → Interrupted recovery disk last

/-- Interrupted recoveries keep what a disk stands for, however many there are. A recovery may
also do nothing. -/
theorem Represents.interrupted {recovery : (A → C) → List (Command A C) → Prop}
    (hrecovery : ∀ disk commands, log.Local disk → log.Outside (log.replay disk) →
      recovery disk commands → commands = log.recover disk ∨ commands = [])
    (h : log.Represents disk target) (hlast : Interrupted recovery disk lost) :
    log.Represents lost target := by
  induction hlast with
  | none => exact h
  | again hcommands hloss _ ih =>
    apply ih
    rcases hrecovery _ _ h.local_ h.outside hcommands with rfl | rfl
    · exact powerLoss_recover h hloss
    · rw [powerLoss_nil hloss]
      exact h

end RedoLog

/-- The words of one 512-byte sector. -/
abbrev Sector := Fin 128 → BitVec 32

/-- The words of one 1024-byte metadata block. -/
abbrev MetaBlock := Fin 256 → BitVec 32

/-- A block device: partition and sector number to contents. -/
abbrev Disk := ℕ × ℕ → Sector

/-- Commands issued to a block device. -/
abbrev DiskCommand := Command (ℕ × ℕ) Sector

/-- The sector cells of one metadata block. -/
def blockCells (sub sector : ℕ) (block : MetaBlock) : List ((ℕ × ℕ) × Sector) :=
  [((sub, sector), fun k => block ⟨k.val, by omega⟩),
    ((sub, sector + 1), fun k => block ⟨k.val + 128, by omega⟩)]

/-- The metadata block at a sector. -/
def readBlock (disk : Disk) (sub sector : ℕ) : MetaBlock := fun k =>
  if h : k.val < 128 then disk (sub, sector) ⟨k.val, h⟩
  else disk (sub, sector + 1) ⟨k.val - 128, by omega⟩

/-- A block just written is read back. -/
theorem readBlock_store (disk : Disk) (sub sector : ℕ) (block : MetaBlock) :
    readBlock (store disk (blockCells sub sector block)) sub sector = block := by
  funext k
  by_cases hk : k.val < 128
  · simp [readBlock, store, blockCells, hk]
  · have hval : k.val - 128 + 128 = k.val := by omega
    simp [readBlock, store, blockCells, hk, hval]

variable {sub sector : ℕ}

/-- A block is determined by its two sectors. -/
theorem readBlock_congr {disk disk' : Disk} (hlow : disk (sub, sector) = disk' (sub, sector))
    (hhigh : disk (sub, sector + 1) = disk' (sub, sector + 1)) :
    readBlock disk sub sector = readBlock disk' sub sector := by
  funext k
  simp only [readBlock, hlow, hhigh]

/-- A write elsewhere leaves a block alone. -/
theorem readBlock_store_other (disk : Disk) {cells : List ((ℕ × ℕ) × Sector)}
    (h : ∀ cell ∈ cells, cell.1 ≠ (sub, sector) ∧ cell.1 ≠ (sub, sector + 1)) :
    readBlock (store disk cells) sub sector = readBlock disk sub sector :=
  readBlock_congr (store_of_notMem disk fun cell hcell => (h cell hcell).1)
    (store_of_notMem disk fun cell hcell => (h cell hcell).2)

/-- Writes elsewhere leave a block alone. -/
theorem readBlock_storeAll_other (disk : Disk) {writes : List (List ((ℕ × ℕ) × Sector))}
    (h : ∀ cells ∈ writes, ∀ cell ∈ cells,
      cell.1 ≠ (sub, sector) ∧ cell.1 ≠ (sub, sector + 1)) :
    readBlock (storeAll disk writes) sub sector = readBlock disk sub sector :=
  readBlock_congr (storeAll_of_notMem disk fun cells hcells cell hcell => (h cells hcells cell hcell).1)
    (storeAll_of_notMem disk fun cells hcells cell hcell => (h cells hcells cell hcell).2)

/-- The cells of a block lie in its two sectors. -/
theorem mem_blockCells {block : MetaBlock} {cell : (ℕ × ℕ) × Sector} (h : cell ∈ blockCells sub sector block) :
    cell.1 = (sub, sector) ∨ cell.1 = (sub, sector + 1) := by
  simp only [blockCells, mem_cons, not_mem_nil, or_false] at h
  rcases h with rfl | rfl
  · exact .inl rfl
  · exact .inr rfl

/-- Two blocks without a sector in common. -/
def Apart (p q : ℕ × ℕ) : Prop := p.1 = q.1 → p.2 + 1 < q.2 ∨ q.2 + 1 < p.2

section Blocks

variable {ι : Type} {q : ι → ℕ × ℕ} {d : ι → MetaBlock} {slots : List ι}

/-- Blocks written apart from a block leave it alone. -/
theorem readBlock_storeAll_apart (disk : Disk) {p : ℕ × ℕ} (h : ∀ j ∈ slots, Apart p (q j)) :
    readBlock (storeAll disk (slots.map fun j => blockCells (q j).1 (q j).2 (d j))) p.1 p.2 =
      readBlock disk p.1 p.2 := by
  refine readBlock_storeAll_other disk fun cells hcells cell hcell => ?_
  obtain ⟨j, hj, rfl⟩ := mem_map.mp hcells
  have hapart := h j hj
  unfold Apart at hapart
  rcases mem_blockCells hcell with heq | heq <;>
    · rw [heq, Ne, Ne, Prod.mk.injEq, Prod.mk.injEq]
      omega

/-- Of blocks written apart from each other, every one is read back. -/
theorem readBlock_storeAll (disk : Disk) (hapart : slots.Pairwise fun i j => Apart (q i) (q j)) {i : ι}
    (hi : i ∈ slots) :
    readBlock (storeAll disk (slots.map fun j => blockCells (q j).1 (q j).2 (d j))) (q i).1 (q i).2 = d i := by
  induction slots generalizing disk with
  | nil => exact absurd hi not_mem_nil
  | cons j rest ih =>
    obtain ⟨hj, hrest⟩ := pairwise_cons.mp hapart
    rcases mem_cons.mp hi with rfl | hi
    · exact (readBlock_storeAll_apart _ hj).trans (readBlock_store disk _ _ _)
    · exact ih _ hrest hi

end Blocks

/-- A device as its driver sees it: what reads return, and the commands issued so far. -/
structure BlockDev where
  contents : Disk
  issued : List DiskCommand

variable (dev : BlockDev)

/-- A write transfer. -/
def BlockDev.transfer (cells : List ((ℕ × ℕ) × Sector)) : BlockDev :=
  ⟨store dev.contents cells, dev.issued ++ [.write cells]⟩

/-- The device's cache flush. -/
def BlockDev.flushCache : BlockDev := ⟨dev.contents, dev.issued ++ [.flush]⟩

variable (commands : List DiskCommand)

/-- Run some commands on a device. -/
def BlockDev.perform : BlockDev :=
  commands.foldl (fun dev command => match command with
    | .write cells => dev.transfer cells
    | .flush => dev.flushCache) dev

/-- Performing commands records them. -/
theorem BlockDev.perform_issued : (dev.perform commands).issued = dev.issued ++ commands := by
  induction commands generalizing dev with
  | nil => simp [BlockDev.perform]
  | cons command rest ih =>
    cases command with
    | write cells =>
      change ((dev.transfer cells).perform rest).issued = _
      rw [ih]
      simp [BlockDev.transfer]
    | flush =>
      change (dev.flushCache.perform rest).issued = _
      rw [ih]
      simp [BlockDev.flushCache]

/-- Performed writes are visible. -/
theorem BlockDev.perform_writes_contents (writes : List (List ((ℕ × ℕ) × Sector))) :
    (dev.perform (writes.map .write)).contents = storeAll dev.contents writes := by
  induction writes generalizing dev with
  | nil => rfl
  | cons cells rest ih =>
    change ((dev.transfer cells).perform (rest.map .write)).contents = _
    rw [ih]
    rfl

/-- Commands are performed one after the other. -/
theorem BlockDev.perform_append (first second : List DiskCommand) :
    dev.perform (first ++ second) = (dev.perform first).perform second :=
  foldl_append

/-- What a device shows after a transaction. -/
theorem BlockDev.perform_transaction (log : RedoLog (ℕ × ℕ) Sector)
    (fill : List (List ((ℕ × ℕ) × Sector))) (commit : List ((ℕ × ℕ) × Sector))
    (home : List (List ((ℕ × ℕ) × Sector))) : (dev.perform (log.transaction fill commit home)).contents =
      store (storeAll (store (storeAll dev.contents fill) commit) home) log.reset := by
  unfold RedoLog.transaction
  rw [BlockDev.perform_append]
  change (((((dev.perform (fill.map .write)).flushCache).transfer commit).flushCache).perform
    (home.map .write ++ log.resetCommands)).contents = _
  rw [BlockDev.perform_append]
  change store (BlockDev.perform _ (home.map .write)).contents log.reset = _
  rw [BlockDev.perform_writes_contents]
  change store (storeAll (store (dev.perform (fill.map .write)).contents commit) home) log.reset = _
  rw [BlockDev.perform_writes_contents]

end Ps2sdk.Lib
