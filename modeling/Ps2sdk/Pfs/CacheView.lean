import Ps2sdk.Pfs.JournalAtomic

/-!
# The metadata a volume shows through the cache

The view of a metadata block is the buffer that holds it, or else the block on the device. While
no two buffers hold one block and clean buffers agree with the device, taking and returning
buffers, evictions and the flushes they cause do not change the view. A flush only refreshes the
checksums of segment descriptors.
-/

namespace Ps2sdk.Pfs

open Lib Function List CacheBuf Driver

variable {n : ℕ}

/-- A metadata block lies within reach and off the journal area. -/
structure Mount.Placed (mount : Mount) (sub sector : ℕ) : Prop where
  addressable : sector < 2 ^ 31
  offLog : sub = 0 → 2 * sector + 2 ≤ mount.logBase ∨ mount.logBase + 256 ≤ 2 * sector

variable (s : Driver n)

/-- What holds of the cache whenever a routine may use it. -/
structure Driver.Coherent : Prop where
  buffers : n ≤ 127
  noError : ∀ m, (s.mounts m).lastError = 0
  unique : ∀ i j m sub sector, (s.cacheBuf i).isFor m sub sector = true →
    (s.cacheBuf j).isFor m sub sector = true → i = j
  freeNodup : s.free.Nodup
  memFree : ∀ i, i ∈ s.free ↔ (s.cacheBuf i).nused = 0
  clean : ∀ i m, (s.cacheBuf i).pfsMount = some m → (s.cacheBuf i).dirty = false →
    (s.cacheBuf i).data = readBlock (s.mounts m).blockDev.contents (s.cacheBuf i).sub (2 * (s.cacheBuf i).sector)
  placed : ∀ i m, (s.cacheBuf i).pfsMount = some m → (s.mounts m).Placed (s.cacheBuf i).sub (s.cacheBuf i).sector

/-- The contents of a metadata block: from its buffer, or else from the device. -/
def Driver.view (m sub sector : ℕ) : MetaBlock :=
  match s.holder m sub sector with
  | some i => (s.cacheBuf i).data
  | none => readBlock (s.mounts m).blockDev.contents sub (2 * sector)

/-- A block that no buffer holds as a segment descriptor. -/
def Driver.PlainAt (m sub sector : ℕ) : Prop :=
  ∀ i, (s.cacheBuf i).isFor m sub sector = true → (s.cacheBuf i).type ≠ .segd ∧ (s.cacheBuf i).type ≠ .segi

/-- Two mounts that differ in the state of their device only. -/
def Mount.Same (mount mount' : Mount) : Prop := mount' = { mount with blockDev := mount'.blockDev }

section Keys

variable {s : Driver n} {m sub sector : ℕ} {i : Fin n}

theorem CacheBuf.isFor_iff {clink : CacheBuf} : clink.isFor m sub sector = true ↔
    clink.pfsMount = some m ∧ clink.sub = sub ∧ clink.sector = sector := by
  simp only [isFor, Bool.and_eq_true, beq_iff_eq]
  tauto

theorem Driver.holder_some (h : s.holder m sub sector = some i) : (s.cacheBuf i).isFor m sub sector = true :=
  find?_some (p := fun i => (s.cacheBuf i).isFor m sub sector) h

theorem Driver.holder_none (h : s.holder m sub sector = none) (i : Fin n) :
    (s.cacheBuf i).isFor m sub sector = false := by
  have := find?_eq_none.mp h i (mem_finRange i)
  simpa using this

theorem Driver.Coherent.holder_eq (hs : s.Coherent) (h : (s.cacheBuf i).isFor m sub sector = true) :
    s.holder m sub sector = some i := by
  cases hholder : s.holder m sub sector with
  | none => simp [holder_none hholder i] at h
  | some j => rw [hs.unique i j m sub sector h (holder_some hholder)]

theorem Driver.Coherent.view_held (hs : s.Coherent) (h : (s.cacheBuf i).isFor m sub sector = true) :
    s.view m sub sector = (s.cacheBuf i).data := by
  simp only [view, hs.holder_eq h]

theorem Driver.view_notHeld (h : ∀ i, (s.cacheBuf i).isFor m sub sector = false) :
    s.view m sub sector = readBlock (s.mounts m).blockDev.contents sub (2 * sector) := by
  cases hholder : s.holder m sub sector with
  | none => simp only [view, hholder]
  | some j =>
    have := holder_some hholder
    rw [h j] at this
    contradiction

theorem Mount.Placed.diskSector {mount : Mount} {clink : CacheBuf}
    (h : mount.Placed clink.sub clink.sector) : clink.diskSector = 2 * clink.sector := by
  have := h.addressable
  unfold CacheBuf.diskSector
  rw [Nat.shiftLeft_eq]
  omega

theorem Mount.Placed.notArea {mount : Mount} (h : mount.Placed sub sector) {k : ℕ} (hk : k < 2) :
    ¬ (journalLog mount.logBase).area (sub, 2 * sector + k) := by
  rintro ⟨hsub, hlow, hhigh⟩
  rcases h.offLog hsub with hbelow | habove <;> omega

end Keys

section Flush

variable {s : Driver n}

theorem journalLog_reset_area {base : ℕ} : ∀ cell ∈ (journalLog base).reset, (journalLog base).area cell.1 :=
  (journalLog base).reset_area

theorem header_area {base : ℕ} {block : MetaBlock} :
    ∀ cell ∈ blockCells 0 base block, (journalLog base).area cell.1 := by
  intro cell hcell
  rcases mem_blockCells hcell with heq | heq <;>
    · rw [heq]
      exact ⟨rfl, by simp, by simp⟩

theorem flushImage_area (hbuffers : n ≤ 127) (m : ℕ) :
    ∀ cell ∈ s.flushImage m, (journalLog (s.mounts m).logBase).area cell.1 := by
  intro cell hcell
  obtain ⟨i, -, hcell⟩ := mem_flatMap.mp hcell
  rcases mem_blockCells hcell with heq | heq <;>
    · rw [heq]
      exact ⟨rfl, by simp only; omega, by simp only; omega⟩

/-- A flush of a mount in one step: clean buffers, and on the device, off the journal area, the
dirty buffers in place. -/
theorem pfsCacheFlushAllDirty_effect (hbuffers : n ≤ 127) (m : ℕ) (herror : (s.mounts m).lastError = 0) :
    ∃ dev : BlockDev, pfsCacheFlushAllDirty s m =
        { s with
          cacheBuf := s.cleanBuf m
          journalBuf := .cleared
          mounts := update s.mounts m { s.mounts m with blockDev := dev } } ∧
      ∀ a, ¬ (journalLog (s.mounts m).logBase).area a →
        dev.contents a = storeAll (s.mounts m).blockDev.contents (s.flushWrites m) a := by
  have hout : ∀ (disk : Disk) {cells : List ((ℕ × ℕ) × Sector)},
      (∀ cell ∈ cells, (journalLog (s.mounts m).logBase).area cell.1) →
      ∀ a, ¬ (journalLog (s.mounts m).logBase).area a → store disk cells a = disk a :=
    fun disk cells hcells a ha => store_of_notMem disk fun cell hcell heq => ha (heq ▸ hcells cell hcell)
  by_cases hnil : s.flushList m = []
  · refine ⟨(s.mounts m).blockDev.perform (journalLog (s.mounts m).logBase).resetCommands, ?_, ?_⟩
    · have hclean : s.cleanBuf m = s.cacheBuf := by
        funext i
        have hi := filter_eq_nil_iff.mp hnil i (mem_finRange i)
        exact if_neg hi
      rw [pfsCacheFlushAllDirty_nil s m hnil, hclean]
      rfl
    · intro a ha
      change store (s.mounts m).blockDev.contents _ a = _
      rw [hout _ journalLog_reset_area a ha, flushWrites, hnil]
      rfl
  · refine ⟨_, pfsCacheFlushAllDirty_eq s m hnil, ?_⟩
    intro a ha
    rw [herror, if_pos rfl]
    rw [BlockDev.perform_transaction, hout _ journalLog_reset_area a ha]
    apply storeAll_congr
    left
    rw [hout _ header_area a ha]
    exact hout _ (flushImage_area hbuffers m) a ha

theorem CacheBuf.flushable_iff {clink : CacheBuf} {m : ℕ} :
    clink.flushable m = true ↔ clink.dirty = true ∧ clink.pfsMount = some m := by
  simp only [flushable, Bool.and_eq_true, beq_iff_eq]

theorem Driver.Coherent.flushWrites_eq (hs : s.Coherent) (m : ℕ) : s.flushWrites m = (s.flushList m).map fun j =>
    blockCells (s.cacheBuf j).sub (2 * (s.cacheBuf j).sector) (s.cleanBuf m j).data := by
  refine map_congr_left fun j hj => ?_
  have hflush := (mem_filter.mp hj).2
  have hplaced := hs.placed j m (CacheBuf.flushable_iff.mp hflush).2
  rw [s.cells_flushBuf, ← hplaced.diskSector]
  simp only [flushBuf, cleanBuf, hflush, if_true, CacheBuf.clean]

/-- After the dirty buffers have been written in place, the device has their blocks. -/
theorem Driver.Coherent.readBlock_flushed (hs : s.Coherent) {m : ℕ} {i : Fin n}
    (hi : (s.cacheBuf i).flushable m = true) (disk : Disk) :
    readBlock (storeAll disk (s.flushWrites m)) (s.cacheBuf i).sub (2 * (s.cacheBuf i).sector) =
      (s.cleanBuf m i).data := by
  rw [hs.flushWrites_eq]
  refine readBlock_storeAll (q := fun j => ((s.cacheBuf j).sub, 2 * (s.cacheBuf j).sector)) disk ?_
    (mem_filter.mpr ⟨mem_finRange i, hi⟩)
  refine ((nodup_finRange n).filter _).imp_of_mem fun {j k} hj hk hne hsub => ?_
  have hsector : (s.cacheBuf j).sector ≠ (s.cacheBuf k).sector := fun heq => hne (hs.unique j k m _ _
    (isFor_iff.mpr ⟨(flushable_iff.mp (mem_filter.mp hj).2).2, rfl, rfl⟩)
    (isFor_iff.mpr ⟨(flushable_iff.mp (mem_filter.mp hk).2).2, hsub.symm, heq.symm⟩))
  omega

/-- A block without a dirty buffer is not written. -/
theorem Driver.Coherent.readBlock_notFlushed (hs : s.Coherent) {m sub sector : ℕ}
    (h : ∀ i, (s.cacheBuf i).isFor m sub sector = true → (s.cacheBuf i).dirty = false) (disk : Disk) :
    readBlock (storeAll disk (s.flushWrites m)) sub (2 * sector) = readBlock disk sub (2 * sector) := by
  rw [hs.flushWrites_eq]
  refine readBlock_storeAll_apart (p := (sub, 2 * sector))
    (q := fun j => ((s.cacheBuf j).sub, 2 * (s.cacheBuf j).sector))
    disk fun j hj hsub => ?_
  obtain ⟨hdirty, hmount⟩ := flushable_iff.mp (mem_filter.mp hj).2
  have hsector : sector ≠ (s.cacheBuf j).sector := fun heq => absurd
    (hdirty.symm.trans (h j (isFor_iff.mpr ⟨hmount, hsub.symm, heq.symm⟩))) (by decide)
  omega

/-- A buffer after a flush: it belongs where it did, is clean if it was flushed, and has the same
data unless it is a segment descriptor. -/
theorem Driver.cleanBuf_fields (m : ℕ) (i : Fin n) :
    (s.cleanBuf m i).pfsMount = (s.cacheBuf i).pfsMount ∧ (s.cleanBuf m i).sub = (s.cacheBuf i).sub ∧
      (s.cleanBuf m i).sector = (s.cacheBuf i).sector ∧ (s.cleanBuf m i).nused = (s.cacheBuf i).nused ∧
      (s.cleanBuf m i).type = (s.cacheBuf i).type := by
  unfold cleanBuf checksummed clean
  split
  · split <;> simp
  · simp

theorem Driver.cleanBuf_isFor (m : ℕ) (i : Fin n) (m' sub sector : ℕ) :
    (s.cleanBuf m i).isFor m' sub sector = (s.cacheBuf i).isFor m' sub sector := by
  obtain ⟨hmount, hsub, hsector, -, -⟩ := cleanBuf_fields (s := s) m i
  simp only [isFor, hmount, hsub, hsector]

theorem Driver.cleanBuf_data {m : ℕ} {i : Fin n} (h : (s.cacheBuf i).type ≠ .segd ∧ (s.cacheBuf i).type ≠ .segi) :
    (s.cleanBuf m i).data = (s.cacheBuf i).data := by
  unfold cleanBuf checksummed clean
  split
  · rw [if_neg (by simp [h])]
  · rfl

end Flush

/-- A step that keeps the mounts and every block that is not a segment descriptor. -/
structure Driver.Frame (s s' : Driver n) : Prop where
  same : ∀ m, (s.mounts m).Same (s'.mounts m)
  plain : ∀ m sub sector, s.PlainAt m sub sector → s'.PlainAt m sub sector
  view : ∀ m sub sector, (s.mounts m).Placed sub sector → s.PlainAt m sub sector →
    s'.view m sub sector = s.view m sub sector

theorem Mount.Same.placed {mount mount' : Mount} (h : mount.Same mount') {sub sector : ℕ} :
    mount'.Placed sub sector ↔ mount.Placed sub sector := by
  have hbase : mount'.logBase = mount.logBase := by
    rw [h]
    rfl
  constructor
  · exact fun hp => ⟨hp.addressable, hbase ▸ hp.offLog⟩
  · exact fun hp => ⟨hp.addressable, hbase ▸ hp.offLog⟩

section Steps

variable {s s' s'' : Driver n}

theorem Mount.Same.refl (mount : Mount) : mount.Same mount := rfl

theorem Mount.Same.trans {mount mount' mount'' : Mount} (h : mount.Same mount') (h' : mount'.Same mount'') :
    mount.Same mount'' := by
  unfold Mount.Same at *
  rw [h', h]

theorem Driver.Frame.refl (s : Driver n) : s.Frame s :=
  ⟨fun _ => .refl _, fun _ _ _ h => h, fun _ _ _ _ _ => rfl⟩

theorem Driver.Frame.trans (h : s.Frame s') (h' : s'.Frame s'') : s.Frame s'' where
  same m := (h.same m).trans (h'.same m)
  plain m sub sector hp := h'.plain m sub sector (h.plain m sub sector hp)
  view m sub sector hplaced hplain :=
    (h'.view m sub sector ((h.same m).placed.mpr hplaced) (h.plain m sub sector hplain)).trans
      (h.view m sub sector hplaced hplain)

theorem readBlock_off {mount : Mount} {disk disk' : Disk} {sub sector : ℕ} (h : mount.Placed sub sector)
    (hdisk : ∀ a, ¬ (journalLog mount.logBase).area a → disk a = disk' a) :
    readBlock disk sub (2 * sector) = readBlock disk' sub (2 * sector) :=
  readBlock_congr (hdisk _ (h.notArea (k := 0) (by omega))) (hdisk _ (h.notArea (k := 1) (by omega)))

/-- What the device shows of a block after a flush. -/
theorem Driver.Coherent.readBlock_flush (hs : s.Coherent) {m : ℕ} {dev : BlockDev}
    (hdev : ∀ a, ¬ (journalLog (s.mounts m).logBase).area a →
      dev.contents a = storeAll (s.mounts m).blockDev.contents (s.flushWrites m) a) (m' : ℕ) {sub sector : ℕ}
    (hplaced : (s.mounts m').Placed sub sector)
    (hclean : ∀ i, (s.cacheBuf i).isFor m' sub sector = true → (s.cacheBuf i).dirty = false) :
    readBlock (update s.mounts m { s.mounts m with blockDev := dev } m').blockDev.contents sub (2 * sector) =
      readBlock (s.mounts m').blockDev.contents sub (2 * sector) := by
  by_cases hm : m' = m
  · subst hm
    rw [update_self, readBlock_off hplaced hdev]
    exact hs.readBlock_notFlushed hclean _
  · rw [update_of_ne hm]

/-- A flush keeps the cache coherent and the view. -/
theorem Driver.Coherent.flush (hs : s.Coherent) (m : ℕ) :
    (pfsCacheFlushAllDirty s m).Coherent ∧ s.Frame (pfsCacheFlushAllDirty s m) ∧
      (pfsCacheFlushAllDirty s m).cacheBuf = s.cleanBuf m ∧ (pfsCacheFlushAllDirty s m).free = s.free := by
  obtain ⟨dev, heq, hdev⟩ := pfsCacheFlushAllDirty_effect hs.buffers m (hs.noError m)
  rw [heq]
  have hsame : ∀ m', (s.mounts m').Same
      (update s.mounts m { s.mounts m with blockDev := dev } m') := by
    intro m'
    by_cases hm : m' = m
    · subst hm
      rw [update_self]
      rfl
    · rw [update_of_ne hm]
      rfl
  have hcoherent : Driver.Coherent { s with
      cacheBuf := s.cleanBuf m
      journalBuf := .cleared
      mounts := update s.mounts m { s.mounts m with blockDev := dev } } := by
    constructor
    case buffers => exact hs.buffers
    case noError =>
      intro m'
      have herror := congrArg Mount.lastError (hsame m')
      exact herror.trans (hs.noError m')
    case unique =>
      intro i j m' sub sector hi hj
      rw [cleanBuf_isFor] at hi hj
      exact hs.unique i j m' sub sector hi hj
    case freeNodup => exact hs.freeNodup
    case memFree =>
      intro i
      rw [(cleanBuf_fields m i).2.2.2.1]
      exact hs.memFree i
    case clean =>
      intro i m' hmount hdirty
      dsimp only at hmount hdirty ⊢
      obtain ⟨hmount', hsub, hsector, -, -⟩ := cleanBuf_fields (s := s) m i
      rw [hmount'] at hmount
      rw [hsub, hsector]
      have hplaced := hs.placed i m' hmount
      by_cases hflush : (s.cacheBuf i).flushable m = true
      · obtain rfl : m' = m := by
          rw [(flushable_iff.mp hflush).2] at hmount
          exact (Option.some.inj hmount).symm
        rw [update_self, readBlock_off hplaced hdev]
        exact (hs.readBlock_flushed hflush _).symm
      · have hkept : s.cleanBuf m i = s.cacheBuf i := if_neg hflush
        rw [hkept] at hdirty ⊢
        rw [hs.readBlock_flush hdev m' hplaced]
        · exact hs.clean i m' hmount hdirty
        · intro j hj
          rw [hs.unique j i m' _ _ hj (isFor_iff.mpr ⟨hmount, rfl, rfl⟩), hdirty]
    case placed =>
      intro i m' hmount
      obtain ⟨hmount', hsub, hsector, -, -⟩ := cleanBuf_fields (s := s) m i
      rw [hmount'] at hmount
      rw [hsub, hsector, (hsame m').placed]
      exact hs.placed i m' hmount
  refine ⟨hcoherent, ⟨hsame, ?_, ?_⟩, rfl, rfl⟩
  · intro m' sub sector hplain i hi
    rw [cleanBuf_isFor] at hi
    rw [(cleanBuf_fields m i).2.2.2.2]
    exact hplain i hi
  · intro m' sub sector hplaced hplain
    cases hholder : s.holder m' sub sector with
    | some i =>
      have hi := holder_some hholder
      rw [hcoherent.view_held (i := i) (by rw [cleanBuf_isFor]; exact hi), hs.view_held hi]
      exact cleanBuf_data (hplain i hi)
    | none =>
      have hnone := holder_none hholder
      rw [view_notHeld hnone, view_notHeld]
      · exact hs.readBlock_flush hdev m' hplaced fun i hi => by simp [hnone i] at hi
      · intro i
        rw [cleanBuf_isFor]
        exact hnone i

end Steps

open Option Nat Bool

/-- A buffer has been taken for a block: one more reference, and the same view. -/
structure Driver.Took (s s' : Driver n) (m sub sector : ℕ) (clink : Fin n) : Prop where
  coherent : s'.Coherent
  frame : s.Frame s'
  holds : (s'.cacheBuf clink).isFor m sub sector = true
  nused : ∀ i, (s'.cacheBuf i).nused = (s.cacheBuf i).nused + if i = clink then 1 else 0

/-- Types that are not segment descriptors. -/
def CacheType.Plain (type : CacheType) : Prop := type ≠ .segd ∧ type ≠ .segi

variable {s : Driver n} {m sub sector : ℕ}

/-- The first free buffer, loaded with a block. -/
def Driver.replace (s : Driver n) (clink : Fin n) (rest : List (Fin n)) (m sub sector : ℕ) (type : CacheType) :
    Driver n :=
  { s.setBuf clink ⟨false, type, 1, some m, sub, sector,
      readBlock (s.mounts m).blockDev.contents sub (2 * sector)⟩ with free := rest }

/-- One buffer of the cache has been changed. -/
structure Driver.Rebuffered (s s' : Driver n) (clink : Fin n) (buf : CacheBuf) : Prop where
  bufs : s'.cacheBuf = Function.update s.cacheBuf clink buf
  mounts : s'.mounts = s.mounts

namespace Driver.Rebuffered

variable {s' : Driver n} {clink : Fin n} {buf : CacheBuf}

theorem self (h : s.Rebuffered s' clink buf) : s'.cacheBuf clink = buf := by rw [h.bufs, update_self]

theorem either (h : s.Rebuffered s' clink buf) (i : Fin n) :
    i = clink ∧ s'.cacheBuf i = buf ∨ i ≠ clink ∧ s'.cacheBuf i = s.cacheBuf i := by
  by_cases hi : i = clink
  · exact .inl ⟨hi, hi ▸ h.self⟩
  · exact .inr ⟨hi, by rw [h.bufs, update_of_ne hi]⟩

/-- The cache stays coherent when the block of the buffer has no other one and a clean buffer agrees with the
device. -/
theorem coherent (h : s.Rebuffered s' clink buf) (hs : s.Coherent) (hnodup : s'.free.Nodup)
    (hfree : ∀ i, i ∈ s'.free ↔ (s'.cacheBuf i).nused = 0)
    (hnew : ∀ j ≠ clink, ∀ m sub sector, buf.isFor m sub sector = true → (s.cacheBuf j).isFor m sub sector = false)
    (hclean : ∀ m, buf.pfsMount = some m → buf.dirty = false →
      buf.data = readBlock (s.mounts m).blockDev.contents buf.sub (2 * buf.sector))
    (hplaced : ∀ m, buf.pfsMount = some m → (s.mounts m).Placed buf.sub buf.sector) : s'.Coherent where
  buffers := hs.buffers
  noError := by rw [h.mounts]; exact hs.noError
  freeNodup := hnodup
  memFree := hfree
  unique i j m sub sector hi hj := by
    obtain ⟨rfl, hbi⟩ | ⟨hic, hbi⟩ := h.either i <;> obtain ⟨rfl, hbj⟩ | ⟨hjc, hbj⟩ := h.either j <;>
      rw [hbi] at hi <;> rw [hbj] at hj
    · rw [hnew j hjc m sub sector hi] at hj
      contradiction
    · rw [hnew i hic m sub sector hj] at hi
      contradiction
    · exact hs.unique i j m sub sector hi hj
  clean i m := by
    rw [h.mounts]
    obtain ⟨-, hbuf⟩ | ⟨-, hbuf⟩ := h.either i <;> rw [hbuf]
    · exact hclean m
    · exact hs.clean i m
  placed i m := by
    rw [h.mounts]
    obtain ⟨-, hbuf⟩ | ⟨-, hbuf⟩ := h.either i <;> rw [hbuf]
    · exact hplaced m
    · exact hs.placed i m

/-- The view of a block that the buffer does not hold, and that it held in agreement with the device if it did. -/
theorem view (h : s.Rebuffered s' clink buf) (hs : s.Coherent) (hs' : s'.Coherent)
    (hgone : buf.isFor m sub sector = false) (hold : (s.cacheBuf clink).isFor m sub sector = true →
      (s.cacheBuf clink).data = readBlock (s.mounts m).blockDev.contents sub (2 * sector)) :
    s'.view m sub sector = s.view m sub sector := by
  have hnotHeld : (∀ j ≠ clink, (s.cacheBuf j).isFor m sub sector = false) →
      s'.view m sub sector = readBlock (s.mounts m).blockDev.contents sub (2 * sector) := by
    intro hother
    rw [← h.mounts]
    refine view_notHeld fun j => ?_
    obtain ⟨-, hbuf⟩ | ⟨hjc, hbuf⟩ := h.either j <;> rw [hbuf]
    · exact hgone
    · exact hother j hjc
  cases hholder : s.holder m sub sector with
  | some i =>
    have hi := holder_some hholder
    rw [hs.view_held hi]
    obtain ⟨rfl, -⟩ | ⟨-, hbuf⟩ := h.either i
    · rw [hold hi]
      exact hnotHeld fun j hj => eq_false_iff.mpr fun hheld => hj (hs.unique j i m sub sector hheld hi)
    · rw [← hbuf] at hi ⊢
      exact hs'.view_held hi
  | none =>
    have hnone := holder_none hholder
    rw [view_notHeld hnone]
    exact hnotHeld fun j _ => hnone j

end Driver.Rebuffered

variable {clink : Fin n} {type : CacheType}

/-- Loading a block that no buffer holds into a clean free buffer. -/
theorem Driver.Coherent.replace (hs : s.Coherent) {rest : List (Fin n)} (hfree : s.free = clink :: rest)
    (hclean : ∀ o, (s.cacheBuf clink).pfsMount = some o → (s.cacheBuf clink).dirty = false)
    (hplaced : (s.mounts m).Placed sub sector) (hnone : ∀ i, (s.cacheBuf i).isFor m sub sector = false)
    (htype : type.Plain) : s.Took (s.replace clink rest m sub sector type) m sub sector clink := by
  have h : s.Rebuffered (s.replace clink rest m sub sector type) clink ⟨false, type, 1, some m, sub, sector,
      readBlock (s.mounts m).blockDev.contents sub (2 * sector)⟩ := ⟨rfl, rfl⟩
  generalize hbuf : (⟨false, type, 1, some m, sub, sector,
    readBlock (s.mounts m).blockDev.contents sub (2 * sector)⟩ : CacheBuf) = buf at h
  have hnodup := hs.freeNodup
  rw [hfree, nodup_cons] at hnodup
  have hunused : (s.cacheBuf clink).nused = 0 := (hs.memFree clink).mp (by simp [hfree])
  have hkey : ∀ {m' sub' sector'}, buf.isFor m' sub' sector' = true ↔ m' = m ∧ sub' = sub ∧ sector' = sector := by
    intro m' sub' sector'
    rw [← hbuf, isFor_iff, some.injEq]
    exact and_congr eq_comm (and_congr eq_comm eq_comm)
  have hcoherent : (s.replace clink rest m sub sector type).Coherent := by
    refine h.coherent hs hnodup.2 (fun i => ?_) (fun j _ m' sub' sector' hfor => ?_) (fun m' hmount _ => ?_)
      fun m' hmount => ?_
    · change i ∈ rest ↔ _
      obtain ⟨rfl, hi⟩ | ⟨hic, hi⟩ := h.either i <;> rw [hi]
      · rw [← hbuf]
        exact iff_of_false hnodup.1 one_ne_zero
      · rw [← hs.memFree i, hfree, mem_cons]
        exact (or_iff_right hic).symm
    · obtain ⟨rfl, rfl, rfl⟩ := hkey.mp hfor
      exact hnone j
    · rw [← hbuf] at hmount ⊢
      rw [← some.inj hmount]
    · rw [← hbuf] at hmount ⊢
      rw [← some.inj hmount]
      exact hplaced
  have hheld : ((s.replace clink rest m sub sector type).cacheBuf clink).isFor m sub sector = true := by
    rw [h.self]
    exact hkey.mpr ⟨rfl, rfl, rfl⟩
  refine ⟨hcoherent, ⟨fun _ => .refl _, fun m' sub' sector' hplain i hi => ?_, fun m' sub' sector' _ _ => ?_⟩,
    hheld, fun i => ?_⟩
  · obtain ⟨-, hb⟩ | ⟨-, hb⟩ := h.either i <;> rw [hb] at hi ⊢
    · rw [← hbuf]
      exact htype
    · exact hplain i hi
  · by_cases hsame : m' = m ∧ sub' = sub ∧ sector' = sector
    · obtain ⟨rfl, rfl, rfl⟩ := hsame
      rw [view_notHeld hnone, hcoherent.view_held hheld, h.self, ← hbuf]
    · refine h.view hs hcoherent (eq_false_iff.mpr (hsame ∘ hkey.mp)) fun hi => ?_
      obtain ⟨hmount, hsub, hsector⟩ := isFor_iff.mp hi
      rw [hs.clean clink m' hmount (hclean m' hmount), hsub, hsector]
  · obtain ⟨rfl, hb⟩ | ⟨hic, hb⟩ := h.either i <;> rw [hb]
    · rw [← hbuf, hunused, if_pos rfl]
    · rw [if_neg hic, Nat.add_zero]

/-- Two buffers with the same block, data and dirty mark. -/
structure CacheBuf.Alike (buf buf' : CacheBuf) : Prop where
  pfsMount : buf'.pfsMount = buf.pfsMount
  sub : buf'.sub = buf.sub
  sector : buf'.sector = buf.sector
  data : buf'.data = buf.data
  dirty : buf'.dirty = buf.dirty

theorem CacheBuf.Alike.isFor {buf buf' : CacheBuf} (h : buf.Alike buf') (m sub sector : ℕ) :
    buf'.isFor m sub sector = buf.isFor m sub sector := by
  simp only [CacheBuf.isFor, h.pfsMount, h.sub, h.sector]

/-- A step that only changes the type and the reference count of a buffer, and the free list with them. -/
theorem Driver.Rebuffered.recount {s' : Driver n} {buf : CacheBuf} (h : s.Rebuffered s' clink buf)
    (hs : s.Coherent) (halike : (s.cacheBuf clink).Alike buf) (hnodup : s'.free.Nodup)
    (hfree : ∀ i, i ∈ s'.free ↔ (s'.cacheBuf i).nused = 0) :
    s'.Coherent ∧ ∀ m sub sector, s'.view m sub sector = s.view m sub sector := by
  have hcoherent : s'.Coherent := by
    refine h.coherent hs hnodup hfree (fun j hj m sub sector hfor => ?_) (fun m hmount hdirty => ?_)
      fun m hmount => ?_
    · rw [halike.isFor] at hfor
      exact eq_false_iff.mpr fun hheld => hj (hs.unique j clink m sub sector hheld hfor)
    · rw [halike.pfsMount] at hmount
      rw [halike.dirty] at hdirty
      rw [halike.data, halike.sub, halike.sector]
      exact hs.clean clink m hmount hdirty
    · rw [halike.pfsMount] at hmount
      rw [halike.sub, halike.sector]
      exact hs.placed clink m hmount
  refine ⟨hcoherent, fun m sub sector => ?_⟩
  cases hfor : (s.cacheBuf clink).isFor m sub sector with
  | true =>
    rw [hs.view_held hfor, hcoherent.view_held (i := clink) (by rw [h.self, halike.isFor, hfor]), h.self,
      halike.data]
  | false => exact h.view hs hcoherent ((halike.isFor m sub sector).trans hfor) fun hheld => by simp [hfor] at hheld

/-- Taking one more reference to the buffer that holds a block. -/
theorem Driver.Coherent.reuse (hs : s.Coherent)
    (hclink : (s.cacheBuf clink).isFor m sub sector = true) (htype : type.Plain) :
    s.Took (s.reuse clink type) m sub sector clink := by
  have h : s.Rebuffered (s.reuse clink type) clink
      { s.cacheBuf clink with type := type, nused := (s.cacheBuf clink).nused + 1 } := ⟨rfl, rfl⟩
  have hnodup : (s.reuse clink type).free.Nodup := by
    change (if (s.cacheBuf clink).nused = 0 then s.free.erase clink else s.free).Nodup
    split
    · exact hs.freeNodup.erase clink
    · exact hs.freeNodup
  have hfree : ∀ i, i ∈ (s.reuse clink type).free ↔ ((s.reuse clink type).cacheBuf i).nused = 0 := by
    intro i
    change i ∈ (if (s.cacheBuf clink).nused = 0 then s.free.erase clink else s.free) ↔ _
    obtain ⟨rfl, hi⟩ | ⟨hic, hi⟩ := h.either i <;> rw [hi]
    · refine iff_of_false ?_ (succ_ne_zero _)
      split
      · exact hs.freeNodup.not_mem_erase
      · next hused => exact fun h => hused ((hs.memFree i).mp h)
    · rw [← hs.memFree i]
      split
      · exact mem_erase_of_ne hic
      · rfl
  obtain ⟨hcoherent, hview⟩ := h.recount hs ⟨rfl, rfl, rfl, rfl, rfl⟩ hnodup hfree
  refine ⟨hcoherent, ⟨fun _ => .refl _, fun m' sub' sector' hplain i hi => ?_, fun m' sub' sector' _ _ =>
    hview m' sub' sector'⟩, by rw [h.self]; exact hclink, fun i => ?_⟩
  · obtain ⟨-, hb⟩ | ⟨-, hb⟩ := h.either i <;> rw [hb] at hi ⊢
    · exact htype
    · exact hplain i hi
  · obtain ⟨rfl, hb⟩ | ⟨hic, hb⟩ := h.either i <;> rw [hb]
    · rw [if_pos rfl]
    · rw [if_neg hic, Nat.add_zero]

theorem CacheBuf.loadError_plain {clink : CacheBuf} (h : clink.type.Plain) : clink.loadError = 0 := by
  simp [loadError, h.1, h.2]

/-- The cache after the owner of a dirty buffer has been flushed. -/
def Driver.evicted (s : Driver n) (clink : Fin n) : Driver n :=
  match (s.cacheBuf clink).pfsMount with
  | some owner => if (s.cacheBuf clink).dirty then pfsCacheFlushAllDirty s owner else s
  | none => s

/-- What the flush before an eviction leaves. -/
theorem Driver.Coherent.evicted (hs : s.Coherent) (clink : Fin n) :
    (s.evicted clink).Coherent ∧ s.Frame (s.evicted clink) ∧ (s.evicted clink).free = s.free ∧
      (∀ i, ((s.evicted clink).cacheBuf i).nused = (s.cacheBuf i).nused) ∧
      (∀ i m sub sector, ((s.evicted clink).cacheBuf i).isFor m sub sector = (s.cacheBuf i).isFor m sub sector) ∧
      ∀ o, ((s.evicted clink).cacheBuf clink).pfsMount = some o →
        ((s.evicted clink).cacheBuf clink).dirty = false := by
  unfold Driver.evicted
  split
  · next owner howner =>
    split
    · next hdirty =>
      obtain ⟨hcoherent, hframe, hbufs, hfree⟩ := hs.flush owner
      refine ⟨hcoherent, hframe, hfree, ?_, ?_, ?_⟩
      · intro i
        rw [hbufs, (cleanBuf_fields owner i).2.2.2.1]
      · intro i m sub sector
        rw [hbufs, cleanBuf_isFor]
      · intro o _
        have hflush := flushable_iff.mpr ⟨hdirty, howner⟩
        rw [hbufs, cleanBuf, if_pos hflush]
        rfl
    · next hdirty =>
      exact ⟨hs, .refl s, rfl, fun _ => rfl, fun _ _ _ _ => rfl, fun _ _ => eq_false_iff.mpr hdirty⟩
  · next howner =>
    exact ⟨hs, .refl s, rfl, fun _ => rfl, fun _ _ _ _ => rfl, fun o ho => by rw [howner] at ho; contradiction⟩

theorem Driver.Took.after {s' s'' : Driver n} (h : s'.Took s'' m sub sector clink)
    (hframe : s.Frame s') (hnused : ∀ i, (s'.cacheBuf i).nused = (s.cacheBuf i).nused) :
    s.Took s'' m sub sector clink where
  coherent := h.coherent
  frame := hframe.trans h.frame
  holds := h.holds
  nused i := by rw [h.nused, hnused]

/-- Loading a block into the first free buffer. -/
theorem pfsCacheGetData_miss (hnone : s.holder m sub sector = none) {rest : List (Fin n)}
    (hfree : s.free = clink :: rest) (hsector : sector < 2 ^ 31) (htype : type.Plain)
    (herror : ((s.evicted clink).mounts m).lastError = 0) :
    pfsCacheGetData s m sub sector type =
      (0, some clink, (s.evicted clink).replace clink rest m sub sector type) := by
  have halloc : pfsCacheAlloc s (some m) sub sector type = (0, some clink,
      { (s.evicted clink).setBuf clink
          ⟨false, type, 1, some m, sub, sector, ((s.evicted clink).cacheBuf clink).data⟩ with free := rest }) := by
    unfold pfsCacheAlloc
    rw [hfree]
    rfl
  unfold pfsCacheGetData
  rw [hnone, halloc]
  generalize s.evicted clink = s' at *
  have hmount : ({ s'.mounts m with lastError := 0 } : Mount) = s'.mounts m := by rw [← herror]
  have hloaded : loaded { s'.setBuf clink ⟨false, type, 1, some m, sub, sector, (s'.cacheBuf clink).data⟩ with
      free := rest } m clink = ⟨false, type, 1, some m, sub, sector,
        readBlock (s'.mounts m).blockDev.contents sub (2 * sector)⟩ := by
    have hdisk : (sector <<< 1) % 2 ^ 32 = 2 * sector := by
      rw [shiftLeft_eq]
      omega
    simp only [loaded, setBuf, update_self, diskSector, hdisk]
  have hread : pfsCacheTransferRead m { s'.setBuf clink
      ⟨false, type, 1, some m, sub, sector, (s'.cacheBuf clink).data⟩ with free := rest } clink =
      (0, s'.replace clink rest m sub sector type) := by
    have hok : loadError ⟨false, type, 1, some m, sub, sector,
        readBlock (s'.mounts m).blockDev.contents sub (2 * sector)⟩ = 0 := loadError_plain htype
    unfold pfsCacheTransferRead
    simp only [hloaded, hok]
    rw [if_pos (by exact herror)]
    simp [Driver.setBuf, Driver.replace, hmount]
  dsimp only
  rw [hread]
  rfl

/-- `pfsCacheGetData` of a plain block succeeds when a buffer is free. -/
theorem Driver.Coherent.getData (hs : s.Coherent) (hplaced : (s.mounts m).Placed sub sector) (htype : type.Plain)
    (hroom : s.free ≠ []) :
    ∃ clink s', pfsCacheGetData s m sub sector type = (0, some clink, s') ∧ s.Took s' m sub sector clink := by
  cases hholder : s.holder m sub sector with
  | some clink =>
    refine ⟨clink, _, ?_, hs.reuse (holder_some hholder) htype⟩
    unfold pfsCacheGetData
    rw [hholder]
  | none =>
    have hnone := holder_none hholder
    obtain ⟨clink, rest, hfree⟩ := exists_cons_of_ne_nil hroom
    obtain ⟨hcoherent, hframe, hfree', hnused, hisFor, hclean⟩ := hs.evicted clink
    refine ⟨clink, _, pfsCacheGetData_miss hholder hfree hplaced.addressable htype (hcoherent.noError m), ?_⟩
    refine Driver.Took.after (hcoherent.replace (hfree'.trans hfree) hclean ?_ ?_ htype) hframe hnused
    · exact (hframe.same m).placed.mpr hplaced
    · intro i
      rw [hisFor, hnone]

/-- A reference has been returned. -/
structure Driver.Released (s s' : Driver n) (clink : Fin n) : Prop where
  coherent : s'.Coherent
  frame : s.Frame s'
  nused : ∀ i, (s'.cacheBuf i).nused + (if i = clink then 1 else 0) = (s.cacheBuf i).nused
  buf : ∀ i, (s'.cacheBuf i).type = (s.cacheBuf i).type ∧ (s.cacheBuf i).Alike (s'.cacheBuf i)

/-- `pfsCacheFree` returns a reference. -/
theorem Driver.Coherent.free (hs : s.Coherent) (hused : (s.cacheBuf clink).nused ≠ 0) :
    s.Released (pfsCacheFree s clink) clink := by
  have h : s.Rebuffered (pfsCacheFree s clink) clink
      { s.cacheBuf clink with nused := (s.cacheBuf clink).nused - 1 } := by
    refine ⟨?_, pfsCacheFree_frame s clink⟩
    unfold pfsCacheFree
    rw [if_neg hused]
    dsimp only
    split
    · rfl
    · split <;> rfl
  have hnotFree : clink ∉ s.free := fun h => hused ((hs.memFree clink).mp h)
  have hlist : (pfsCacheFree s clink).free.Perm
      (if (s.cacheBuf clink).nused - 1 = 0 then clink :: s.free else s.free) := by
    unfold pfsCacheFree
    rw [if_neg hused]
    by_cases hleft : (s.cacheBuf clink).nused - 1 = 0
    · rw [if_neg (not_not.mpr hleft), if_pos hleft]
      split
      · exact perm_append_comm
      · exact .refl _
    · rw [if_pos hleft, if_neg hleft]
  have hsame : ∀ i, ((pfsCacheFree s clink).cacheBuf i).type = (s.cacheBuf i).type ∧
      (s.cacheBuf i).Alike ((pfsCacheFree s clink).cacheBuf i) := by
    intro i
    obtain ⟨rfl, hi⟩ | ⟨-, hi⟩ := h.either i <;> rw [hi] <;> exact ⟨rfl, rfl, rfl, rfl, rfl, rfl⟩
  have hnodup : (pfsCacheFree s clink).free.Nodup := by
    rw [hlist.nodup_iff]
    split
    · exact nodup_cons.mpr ⟨hnotFree, hs.freeNodup⟩
    · exact hs.freeNodup
  have hfree : ∀ i, i ∈ (pfsCacheFree s clink).free ↔ ((pfsCacheFree s clink).cacheBuf i).nused = 0 := by
    intro i
    rw [hlist.mem_iff]
    obtain ⟨rfl, hi⟩ | ⟨hic, hi⟩ := h.either i <;> rw [hi]
    · dsimp only
      split
      · next h => exact iff_of_true mem_cons_self h
      · next h => exact iff_of_false hnotFree h
    · rw [← hs.memFree i]
      split
      · rw [mem_cons, or_iff_right hic]
      · rfl
  obtain ⟨hcoherent, hview⟩ := h.recount hs ⟨rfl, rfl, rfl, rfl, rfl⟩ hnodup hfree
  refine ⟨hcoherent, ⟨fun m => h.mounts ▸ .refl _, fun m sub sector hplain i hi => ?_, fun m sub sector _ _ =>
    hview m sub sector⟩, fun i => ?_, hsame⟩
  · rw [(hsame i).1]
    rw [(hsame i).2.isFor] at hi
    exact hplain i hi
  · obtain ⟨rfl, hi⟩ | ⟨hic, hi⟩ := h.either i <;> rw [hi]
    · rw [if_pos rfl]
      exact Nat.succ_pred hused
    · rw [if_neg hic, Nat.add_zero]

/-- The contents of a block have been replaced through its buffer. -/
structure Driver.Edited (s s' : Driver n) (m sub sector : ℕ) (data : MetaBlock) : Prop where
  coherent : s'.Coherent
  same : ∀ m, (s.mounts m).Same (s'.mounts m)
  plain : ∀ m sub sector, s.PlainAt m sub sector → s'.PlainAt m sub sector
  view : s'.view m sub sector = data
  viewOther : ∀ m' sub' sector', ¬ (m' = m ∧ sub' = sub ∧ sector' = sector) →
    s'.view m' sub' sector' = s.view m' sub' sector'

/-- Editing a buffer in place. -/
theorem Driver.Coherent.edit (hs : s.Coherent)
    (hclink : (s.cacheBuf clink).isFor m sub sector = true) (data : MetaBlock) :
    s.Edited (s.edit clink data) m sub sector data := by
  have h : s.Rebuffered (s.edit clink data) clink { s.cacheBuf clink with data := data, dirty := true } :=
    ⟨rfl, rfl⟩
  have hcoherent : (s.edit clink data).Coherent := by
    refine h.coherent hs hs.freeNodup (fun i => ?_) (fun j hj m' sub' sector' hfor => ?_) nofun (hs.placed clink)
    · rw [show (s.edit clink data).free = s.free from rfl, hs.memFree i]
      obtain ⟨rfl, hi⟩ | ⟨-, hi⟩ := h.either i <;> rw [hi]
    · exact eq_false_iff.mpr fun hheld => hj (hs.unique j clink m' sub' sector' hheld hfor)
  refine ⟨hcoherent, fun _ => .refl _, fun m' sub' sector' hplain i hi => ?_, ?_, fun m' sub' sector' hne => ?_⟩
  · obtain ⟨rfl, hb⟩ | ⟨-, hb⟩ := h.either i <;> rw [hb] at hi ⊢ <;> exact hplain i hi
  · rw [hcoherent.view_held (i := clink) (by rw [h.self]; exact hclink), h.self]
  · have hother : (s.cacheBuf clink).isFor m' sub' sector' = false := by
      refine eq_false_iff.mpr fun hi => ?_
      obtain ⟨hmount, hsub, hsector⟩ := isFor_iff.mp hi
      obtain ⟨hmount', hsub', hsector'⟩ := isFor_iff.mp hclink
      rw [hmount] at hmount'
      exact hne ⟨some.inj hmount', hsub.symm.trans hsub', hsector.symm.trans hsector'⟩
    exact h.view hs hcoherent hother fun hi => by simp [hother] at hi

end Ps2sdk.Pfs
