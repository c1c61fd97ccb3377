import Ps2sdk.Fat.Driver
import Ps2sdk.Fat.Save
import Ps2sdk.Lib.FirstFrom

/-!
# The table as a row of entries

On a well-formed volume whose sectors can all be read, the functions that store records are
changes of the row of entries. The scans of the three kinds of tables find the first free records
from the mark on; the FAT12 scan has no end of its own.
-/

namespace Ps2sdk.Fat

open Function List Vol

variable (bpb : FatBpb)

/-- The number of data clusters. -/
def FatBpb.clusterCount : ℕ :=
  (bpb.sectorCount - (bpb.dataStart - bpb.partStart)) / bpb.clusterSize

/-- The record of a cluster lies in the table. -/
def FatBpb.InTable (c : ℕ) : Prop :=
  bpb.fatType.recordEnd c ≤ bpb.tableSize

/-- A cluster of the data area. -/
def FatBpb.IsData (c : ℕ) : Prop :=
  2 ≤ c ∧ c < bpb.clusterCount + 2

instance (bpb : FatBpb) (c : ℕ) : Decidable (bpb.InTable c) := inferInstanceAs (Decidable (_ ≤ _))

instance (bpb : FatBpb) (c : ℕ) : Decidable (bpb.IsData c) := inferInstanceAs (Decidable (_ ∧ _))

/-- The entry that marks a bad cluster; cluster numbers are below it. -/
def FatType.badMark : FatType → ℕ
  | .fat12 => 0xFF7
  | .fat16 => 0xFFF7
  | .fat32 => 0xFFFFFF7

/-- The geometry of a volume: at least one copy of the table, an entry for every data cluster,
cluster numbers below the marks, and a data area behind the tables whose sectors have numbers
of 32 bits. -/
structure FatBpb.WellFormed : Prop extends bpb.TableFits where
  copies : 0 < bpb.fatCount
  cluster : 0 < bpb.clusterSize
  covers : bpb.InTable (bpb.clusterCount + 1)
  numbers : bpb.clusterCount + 2 ≤ bpb.fatType.badMark
  data : bpb.fatStart bpb.fatCount ≤ bpb.dataStart
  sectors : bpb.dataStart + bpb.clusterSize * bpb.clusterCount ≤ 2 ^ 32

/-- The entry of a cluster in the first copy of the table. -/
def Vol.entry (v : Vol) (c : ℕ) : ℕ :=
  v.partBpb.fatType.entry (v.fatBytes 0) c

theorem FatType.recordEnd_mono (t : FatType) {c d : ℕ} (h : c ≤ d) : t.recordEnd c ≤ t.recordEnd d := by
  cases t with
  | fat12 => simp only [FatType.recordEnd]; omega
  | fat16 => simp only [FatType.recordEnd]; omega
  | fat32 => simp only [FatType.recordEnd]; omega

theorem FatBpb.WellFormed.inTable {bpb : FatBpb} (h : bpb.WellFormed) {c : ℕ} (hc : bpb.IsData c) : bpb.InTable c :=
  (bpb.fatType.recordEnd_mono (by have := hc.2; omega)).trans h.covers

theorem FatBpb.WellFormed.lt_entryLimit {bpb : FatBpb} (h : bpb.WellFormed) {c : ℕ}
    (hc : bpb.IsData c) : c < bpb.fatType.entryLimit := by
  have hnum := h.numbers
  have hlt := hc.2
  have hmark : bpb.fatType.badMark < bpb.fatType.entryLimit := by cases bpb.fatType <;> decide
  omega

/-- The table has the given entries in place of its own, and the rest of the volume and the
reserved bits are as before. -/
structure Vol.Retabled (v v' : Vol) (entries : ℕ → ℕ) : Prop where
  bpb : v'.partBpb = v.partBpb
  bad : v'.bad = v.bad
  entry : ∀ c, v.partBpb.InTable c → v'.entry c = entries c
  reserved : v.partBpb.fatType = .fat32 → ∀ c, v.partBpb.InTable c →
    reserved32 (v'.fatBytes 0) c = reserved32 (v.fatBytes 0) c
  frame : ∀ s, (s < v.partBpb.fatStart 0 ∨ v.partBpb.fatStart v.partBpb.fatCount ≤ s) →
    v'.sectors s = v.sectors s

variable {v v' v'' : Vol} {c value : ℕ}

theorem Vol.Retabled.refl (v : Vol) : v.Retabled v v.entry :=
  ⟨rfl, rfl, fun _ _ => rfl, fun _ _ _ => rfl, fun _ _ => rfl⟩

theorem Vol.Retabled.trans {entries entries' : ℕ → ℕ} (h : v.Retabled v' entries)
    (h' : v'.Retabled v'' entries') : v.Retabled v'' entries' where
  bpb := h'.bpb.trans h.bpb
  bad := h'.bad.trans h.bad
  entry c hc := h'.entry c (h.bpb ▸ hc)
  reserved ht c hc := (h'.reserved (h.bpb ▸ ht) c (h.bpb ▸ hc)).trans (h.reserved ht c hc)
  frame s hs := (h'.frame s (h.bpb ▸ hs)).trans (h.frame s hs)

theorem Vol.Retabled.congr {entries entries' : ℕ → ℕ} (h : v.Retabled v' entries)
    (heq : ∀ c, v.partBpb.InTable c → entries c = entries' c) : v.Retabled v' entries' :=
  { h with entry := fun c hc => (h.entry c hc).trans (heq c hc) }

theorem FatBpb.fatStart_le (bpb : FatBpb) {f : ℕ} (hf : f < bpb.fatCount) :
    bpb.fatStart 0 ≤ bpb.fatStart f ∧ bpb.fatStart f + bpb.fatSize ≤ bpb.fatStart bpb.fatCount := by
  have hmul := Nat.mul_le_mul_right bpb.fatSize (show f + 1 ≤ bpb.fatCount from hf)
  rw [Nat.add_mul, Nat.one_mul] at hmul
  unfold FatBpb.fatStart
  omega

/-- Storing a record changes one entry. -/
theorem Vol.modifyClusterChain_retabled (hw : v.partBpb.WellFormed) (hread : ∀ s, v.bad s = false)
    (hc : v.partBpb.InTable c) (hv : value < v.partBpb.fatType.entryLimit) : 0 ≤ (v.modifyClusterChain c value).1 ∧
      v.Retabled (v.modifyClusterChain c value).2 (update v.entry c value) := by
  have hsave : v.modifyClusterChain c value = v.partBpb.fatType.saveClusterRecord v c value := by
    unfold modifyClusterChain
    cases v.partBpb.fatType <;> rfl
  have hret := v.partBpb.fatType.saveClusterRecord_reads hread hw.copies c value
  have hsaved := v.partBpb.fatType.saveClusterRecord_saved hw.toTableFits hc hret
  have hfirst := mem_range.2 hw.copies
  rw [hsave]
  refine ⟨hret, hsaved.bpb, hsaved.bad, fun d hd => ?_, fun ht d hd => ?_, fun s hs => ?_⟩
  · rw [entry, hsaved.bpb, hsaved.entry hfirst hv hd, update_apply]
    rfl
  · rw [FatBpb.InTable, ht] at hd
    rw [ht] at hsaved ⊢
    exact hsaved.reserved hfirst hd
  · refine hsaved.frame s fun f hf => ?_
    have hends := v.partBpb.fatStart_le (mem_range.1 hf)
    omega

theorem FatType.endMark_lt (t : FatType) : t.endMark < t.entryLimit := by
  cases t <;> decide

theorem Vol.createClusterChain_retabled (hw : v.partBpb.WellFormed) (hread : ∀ s, v.bad s = false)
    (hc : v.partBpb.InTable c) : 0 ≤ (v.createClusterChain c).1 ∧ v.Retabled (v.createClusterChain c).2
      (update v.entry c v.partBpb.fatType.endMark) :=
  modifyClusterChain_retabled hw hread hc v.partBpb.fatType.endMark_lt

/-- An appended cluster is linked from the old end and becomes the new one. -/
theorem Vol.appendClusterChain_retabled (hw : v.partBpb.WellFormed) (hread : ∀ s, v.bad s = false)
    {e : ℕ} (hc : v.partBpb.InTable c) (he : v.partBpb.IsData e) :
    0 ≤ (v.appendClusterChain c e).1 ∧ v.Retabled (v.appendClusterChain c e).2
      (update (update v.entry c e) e v.partBpb.fatType.endMark) := by
  obtain ⟨hret, hlinked⟩ := modifyClusterChain_retabled hw hread hc (hw.lt_entryLimit he)
  have hbpb := hlinked.bpb
  rw [appendClusterChain]
  simp only [Int.not_lt.2 hret, if_false]
  obtain ⟨hret', hended⟩ := createClusterChain_retabled (hbpb.symm ▸ hw)
    (fun s => hlinked.bad ▸ hread s) (c := e) (hbpb.symm ▸ hw.inTable he)
  refine ⟨hret', (hlinked.trans hended).congr fun d hd => ?_⟩
  rw [hbpb, update_apply, update_apply, hlinked.entry d hd]

/-- A row of entries with those of a list set to zero. -/
def zeroed (entries : ℕ → ℕ) (l : List ℕ) (c : ℕ) : ℕ :=
  if c ∈ l then 0 else entries c

/-- Freeing a list sets its entries to zero. -/
theorem Vol.freeAll_retabled (l : List ℕ) : ∀ {v : Vol}, v.partBpb.WellFormed →
    (∀ s, v.bad s = false) → (∀ c ∈ l, v.partBpb.InTable c) →
    0 ≤ (v.freeAll l).1 ∧ v.Retabled (v.freeAll l).2 (zeroed v.entry l) := by
  induction l with
  | nil =>
    exact fun {v} _ _ _ => ⟨le_rfl, (Vol.Retabled.refl v).congr fun c _ => by simp [zeroed]⟩
  | cons c rest ih =>
    intro v hw hread hall
    have hzero : 0 < v.partBpb.fatType.entryLimit := by cases v.partBpb.fatType <;> decide
    obtain ⟨hret, hfirst⟩ := modifyClusterChain_retabled hw hread (hall c mem_cons_self) hzero
    have hbpb := hfirst.bpb
    simp only [freeAll, Int.not_lt.2 hret, if_false]
    obtain ⟨hret', hrest⟩ := ih (hbpb.symm ▸ hw) (fun s => hfirst.bad ▸ hread s)
      fun d hd => hbpb.symm ▸ hall d (mem_cons_of_mem _ hd)
    refine ⟨hret', (hfirst.trans hrest).congr fun d hd => ?_⟩
    rw [zeroed, hfirst.entry d hd, update_apply]
    by_cases hdc : d = c
    · simp [zeroed, hdc]
    · simp [zeroed, hdc]

open Nat FatDriver

variable {v : Vol} {d : FatDriver}

/-- The bytes of a record of two or four bytes, in its sector and in the table. -/
theorem Vol.record_bytes (v : Vol) {width : ℕ} (hss : 0 < v.partBpb.sectorSize)
    (hwidth : width ∣ v.partBpb.sectorSize) (c : ℕ) {k : ℕ} (hk : k < width) :
    v.sectors (v.partBpb.fatStart 0 + c / (v.partBpb.sectorSize / width))
      (c % (v.partBpb.sectorSize / width) * width + k) = v.fatBytes 0 (width * c + k) := by
  obtain ⟨hdiv, hmod, hlast⟩ := aligned_record hss hwidth c
  obtain ⟨hdiv', hmod'⟩ := flat_add hlast hk
  rw [hdiv, hmod, fatBytes, flat, hdiv', hmod']

theorem getI16_congr {buf buf' : ℕ → UInt8} (h : ∀ k < 2, buf k = buf' k) : getI16 buf = getI16 buf' := by
  simp only [getI16, h 0 (by decide), h 1 (by decide)]

theorem getI32_congr {buf buf' : ℕ → UInt8} (h : ∀ k < 4, buf k = buf' k) : getI32 buf = getI32 buf' := by
  unfold getI32
  rw [h 0 (by decide), h 1 (by decide), h 2 (by decide), h 3 (by decide)]

/-- A record counts as free for the scan of its kind. -/
def Vol.looksFree (v : Vol) (c : ℕ) : Bool :=
  match v.partBpb.fatType with
  | .fat12 => decide (entry12 (v.fatBytes 0) c = 0)
  | .fat16 => decide (entry16 (v.fatBytes 0) c = 0)
  | .fat32 => decide (record32 (v.fatBytes 0) c = 0) && decide (c < 0xFFFFFF7)

section Sectors

variable {m : ℕ} {isFree : ℕ → ℕ → Bool} {p : ℕ → Bool}

/-- The free records of one sector are the first numbers of its part of the table. -/
theorem freeRecords_eq (i skip room : ℕ) (hskip : skip ≤ m) (hp : ∀ j < m, isFree (i * m + j) j = p (i * m + j)) :
    freeRecords m isFree i skip room = firstFrom p (i * m + skip) ((i + 1) * m) room := by
  have hcount : (i + 1) * m - (i * m + skip) = m - skip := by
    rw [add_mul, one_mul]
    omega
  rw [freeRecords, firstFrom, hcount, ← map_add_range', filter_map]
  congr 2
  refine filter_congr fun j hj => ?_
  rw [mem_range'_1] at hj
  exact hp j (by omega)

/-- The scan of the sectors `i`, …, `i + n - 1`. -/
theorem Vol.scanSectors_eq {width : ℕ} {isFree : (ℕ → UInt8) → ℕ → ℕ → Bool}
    (hread : ∀ s, v.bad s = false) (hm : v.partBpb.sectorSize / width = m)
    (hp : ∀ i, ∀ j < m, isFree (v.sectors (v.partBpb.fatStart 0 + i)) (i * m + j) j = p (i * m + j))
    (n : ℕ) : ∀ i skip room, skip ≤ m →
      v.scanSectors width isFree (range' i n) skip room =
        (firstFrom p (i * m + skip) ((i + n) * m) room, false) := by
  induction n with
  | zero =>
    intro i skip room _
    simp [scanSectors, firstFrom]
  | succ n ih =>
    intro i skip room hskip
    rw [range'_succ]
    by_cases hroom : room = 0
    · simp [scanSectors, firstFrom, hroom]
    · have hmid : i * m + skip ≤ (i + 1) * m := by
        rw [add_mul, one_mul]
        omega
      have hend : (i + 1) * m ≤ (i + (n + 1)) * m := mul_le_mul_right m (by omega)
      have hrest := ih (i + 1) 0 (room - (firstFrom p (i * m + skip) ((i + 1) * m) room).length)
        (zero_le m)
      rw [show (i + 1) * m + 0 = (i + 1) * m from rfl, show i + 1 + n = i + (n + 1) by omega] at hrest
      simp only [scanSectors, hroom, if_false, readSector, hread, Bool.false_eq_true, hm,
        freeRecords_eq i skip room hskip (hp i), hrest]
      rw [← firstFrom_append hmid hend]

end Sectors

/-- The scan from the mark to the end of a table of wider records. -/
theorem FatDriver.scanTable_eq {width m : ℕ} {isFree : (ℕ → UInt8) → ℕ → ℕ → Bool} {p : ℕ → Bool}
    (hread : ∀ s, d.vol.bad s = false) (hm : d.vol.partBpb.sectorSize / width = m)
    (hp : ∀ i, ∀ j < m, isFree (d.vol.sectors (d.vol.partBpb.fatStart 0 + i)) (i * m + j) j =
      p (i * m + j)) (hpos : 0 < m) :
    d.scanTable width isFree =
      (firstFrom p d.clStackLast (d.vol.partBpb.fatSize * m) maxClusterStack, false) := by
  have hmark := div_add_mod' d.clStackLast m
  have hlt := mod_lt d.clStackLast hpos
  simp only [scanTable, hm]
  rw [scanSectors_eq hread hm hp _ _ _ _ hlt.le, hmark]
  by_cases hend : d.clStackLast / m ≤ d.vol.partBpb.fatSize
  · rw [Nat.add_sub_cancel' hend]
  · have hover : d.vol.partBpb.fatSize * m ≤ d.clStackLast / m * m := Nat.mul_le_mul_right m (by omega)
    have hsub : d.clStackLast / m + (d.vol.partBpb.fatSize - d.clStackLast / m) = d.clStackLast / m := by
      omega
    rw [hsub]
    simp only [firstFrom, show d.clStackLast / m * m - d.clStackLast = 0 by omega,
      show d.vol.partBpb.fatSize * m - d.clStackLast = 0 by omega]

/-- The position of record `j` of table sector `i`. -/
theorem record_position {m j : ℕ} (hj : j < m) (i : ℕ) : (i * m + j) / m = i ∧ (i * m + j) % m = j :=
  (Nat.div_mod_unique (by omega)).2 ⟨by rw [Nat.mul_comm]; omega, hj⟩

/-- The FAT16 scan tests the entry of the record. -/
theorem Vol.isFree16_eq (v : Vol) (hss : 0 < v.partBpb.sectorSize) (hdvd : 2 ∣ v.partBpb.sectorSize)
    (ht : v.partBpb.fatType = .fat16) (i : ℕ) {j : ℕ} (hj : j < v.partBpb.sectorSize / 2) :
    isFree16 (v.sectors (v.partBpb.fatStart 0 + i)) (i * (v.partBpb.sectorSize / 2) + j) j =
      v.looksFree (i * (v.partBpb.sectorSize / 2) + j) := by
  obtain ⟨hdiv, hmod⟩ := record_position hj i
  have hbytes := fun k hk =>
    v.record_bytes hss hdvd (i * (v.partBpb.sectorSize / 2) + j) (k := k) hk
  rw [hdiv, hmod] at hbytes
  unfold isFree16 looksFree
  rw [getI16_congr hbytes, ht]
  rfl

/-- The FAT32 scan tests the whole record and the cluster number. -/
theorem Vol.isFree32_eq (v : Vol) (hss : 0 < v.partBpb.sectorSize) (hdvd : 4 ∣ v.partBpb.sectorSize)
    (ht : v.partBpb.fatType = .fat32) (i : ℕ) {j : ℕ} (hj : j < v.partBpb.sectorSize / 4) :
    isFree32 (v.sectors (v.partBpb.fatStart 0 + i)) (i * (v.partBpb.sectorSize / 4) + j) j =
      v.looksFree (i * (v.partBpb.sectorSize / 4) + j) := by
  obtain ⟨hdiv, hmod⟩ := record_position hj i
  have hbytes := fun k hk =>
    v.record_bytes hss hdvd (i * (v.partBpb.sectorSize / 4) + j) (k := k) hk
  rw [hdiv, hmod] at hbytes
  unfold isFree32 looksFree
  rw [getI32_congr hbytes, ht]
  rfl

/-! ## FAT12 -/

section Fat12

variable {M : ℕ}

theorem recordOffset12_eq {c : ℕ} (hc : c < M) (hM : 3 * M < 2 ^ 32) : recordOffset12 c = 3 * c / 2 := by
  rw [recordOffset12, mod_eq_of_lt (by omega), mul_comm]

theorem Vol.seen12_eq {buffered : Buffered} {c : ℕ} (hc : c < M) (hM : 3 * M < 2 ^ 32)
    (hfresh : buffered ≠ some (v.partBpb.fatSector12 c, true)) :
    v.seen12 buffered c = entry12 (v.fatBytes 0) c := by
  have hfrom : v.readFrom buffered c = 3 * c / 2 := by
    rw [readFrom, if_neg fun h => hfresh h.2, recordOffset12_eq hc hM]
  rw [seen12, hfrom, getClusterRecord12_eq]

/-- Going through the records in order, no record is stale. -/
theorem Vol.buffer12_fresh {buffered : Buffered} {c : ℕ} (hss : 0 < v.partBpb.sectorSize)
    (hc : c + 1 < M) (hM : 3 * M < 2 ^ 32) (hfresh : buffered ≠ some (v.partBpb.fatSector12 c, true)) :
    v.buffer12 buffered c ≠ some (v.partBpb.fatSector12 (c + 1), true) := by
  rw [buffer12]
  by_cases hspan : v.partBpb.sectorSpan c = true
  · obtain ⟨hdiv, -⟩ := split_across hss (of_decide_eq_true hspan)
    have hstep : recordOffset12 c + 1 ≤ recordOffset12 (c + 1) := by
      rw [recordOffset12_eq (show c < M by omega) hM, recordOffset12_eq hc hM]
      omega
    have hle : recordOffset12 c / v.partBpb.sectorSize + 1 ≤ v.partBpb.fatSector12 (c + 1) :=
      hdiv ▸ Nat.div_le_div_right hstep
    rw [if_pos hspan]
    intro h
    have heq := congrArg Prod.fst (Option.some.inj h)
    simp only [FatBpb.fatSector12] at heq hle
    omega
  · rw [if_neg hspan, if_neg hfresh]
    simp

/-- The FAT12 scan of a range that fills the stack. -/
theorem Vol.scan12_eq (hss : 0 < v.partBpb.sectorSize) (hread : ∀ s, v.bad s = false)
    (hM : 3 * M < 2 ^ 32) (fuel : ℕ) : ∀ {c room buffered lastFatSector sbuf},
      v.Buffers buffered lastFatSector sbuf → buffered ≠ some (v.partBpb.fatSector12 c, true) →
      M ≤ c + fuel →
      room ≤ ((range' c (M - c)).filter fun c => entry12 (v.fatBytes 0) c = 0).length →
      v.scan12 fuel c lastFatSector sbuf room =
        some (firstFrom (fun c => entry12 (v.fatBytes 0) c = 0) c M room, false) := by
  induction fuel with
  | zero =>
    intro c room buffered lastFatSector sbuf _ _ hfuel hroom
    rw [show M - c = 0 by omega] at hroom
    have hzero : room = 0 := by simpa using hroom
    subst hzero
    simp [scan12, firstFrom]
  | succ fuel ih =>
    intro c room buffered lastFatSector sbuf hbuf hfresh hfuel hroom
    cases room with
    | zero => simp [scan12, firstFrom]
    | succ room =>
      have hcM : c < M := by
        by_contra hge
        rw [show M - c = 0 by omega] at hroom
        simp at hroom
      obtain ⟨sbuf', hget, hbuf'⟩ := hbuf.getRecord12 hss hread c
      rw [seen12_eq hcM hM hfresh] at hget
      have hrange : range' c (M - c) = c :: range' (c + 1) (M - (c + 1)) := by
        rw [show M - c = M - (c + 1) + 1 by omega, range'_succ]
      rw [hrange] at hroom
      have hnext : ∀ {room'}, 0 < room' → room' ≤ ((range' (c + 1) (M - (c + 1))).filter
            fun c => entry12 (v.fatBytes 0) c = 0).length →
          v.scan12 fuel (c + 1) (some (v.partBpb.fatSector12 c)) sbuf' room' =
            some (firstFrom (fun c => entry12 (v.fatBytes 0) c = 0) (c + 1) M room', false) := by
        intro room' hpos hroom'
        have hmore : c + 1 < M := by
          by_contra hge
          rw [show M - (c + 1) = 0 by omega] at hroom'
          simp at hroom'
          omega
        exact ih hbuf' (buffer12_fresh hss hmore hM hfresh) (by omega) hroom'
      rw [firstFrom_step hcM, scan12, hget]
      by_cases hzero : entry12 (v.fatBytes 0) c = 0
      · simp only [hzero, if_true, decide_true]
        cases room with
        | zero => simp [scan12, firstFrom]
        | succ room =>
          rw [hnext (succ_pos _) (by simpa [hzero] using hroom)]
          rfl
      · simp only [hzero, if_false, decide_false, Bool.false_eq_true]
        exact hnext (succ_pos _) (by simpa [hzero] using hroom)

end Fat12

/-- Where the scan of a volume ends: the table of wider records, the data area of FAT12. -/
def Vol.scanEnd (v : Vol) : ℕ :=
  match v.partBpb.fatType with
  | .fat12 => v.partBpb.clusterCount + 2
  | .fat16 => v.partBpb.fatSize * (v.partBpb.sectorSize / 2)
  | .fat32 => v.partBpb.fatSize * (v.partBpb.sectorSize / 4)

/-- The free records from the mark on, as many as the stack holds. -/
def FatDriver.freeAhead (d : FatDriver) : List ℕ :=
  firstFrom d.vol.looksFree d.clStackLast d.vol.scanEnd maxClusterStack

/-- The stack refilled with the free records from the mark on. -/
theorem FatDriver.readEmptyClusters_eq (hw : d.vol.partBpb.WellFormed) (hread : ∀ s, d.vol.bad s = false) {fuel : ℕ}
    (h12 : d.vol.partBpb.fatType = .fat12 →
      d.freeAhead.length = maxClusterStack ∧ d.vol.partBpb.clusterCount + 2 ≤ d.clStackLast + fuel) :
    d.readEmptyClusters fuel = some ((d.freeAhead.length : ℤ),
      { d with clStack := d.freeAhead, clStackLast := d.freeAhead.getLastD d.clStackLast }) := by
  have hss := hw.sector
  unfold readEmptyClusters
  cases ht : d.vol.partBpb.fatType with
  | fat12 =>
    obtain ⟨hfull, hfuel⟩ := h12 ht
    have hlooks : d.vol.looksFree = fun c => decide (entry12 (d.vol.fatBytes 0) c = 0) := by
      funext c
      simp only [looksFree, ht]
    have hend : d.vol.scanEnd = d.vol.partBpb.clusterCount + 2 := by simp only [scanEnd, ht]
    have hnum : d.vol.partBpb.clusterCount + 2 ≤ 0xFF7 := by
      have hnumbers := hw.numbers
      rwa [ht] at hnumbers
    rw [freeAhead, hlooks, hend] at hfull ⊢
    have hroom : maxClusterStack ≤ ((range' d.clStackLast
        (d.vol.partBpb.clusterCount + 2 - d.clStackLast)).filter
          fun c => entry12 (d.vol.fatBytes 0) c = 0).length := by
      rw [firstFrom, length_take] at hfull
      omega
    have hscan := scan12_eq hss hread (show 3 * (d.vol.partBpb.clusterCount + 2) < 2 ^ 32 by omega)
      fuel (c := d.clStackLast) (d.vol.buffers_none fun _ => 0) (by simp) hfuel hroom
    simp only [hscan, Option.map_some, Bool.false_eq_true, if_false]
  | fat16 =>
    have hdvd : 2 ∣ d.vol.partBpb.sectorSize := (by decide : 2 ∣ 4).trans hw.aligned
    have hend : d.vol.scanEnd = d.vol.partBpb.fatSize * (d.vol.partBpb.sectorSize / 2) := by
      simp only [scanEnd, ht]
    rw [scanTable_eq hread rfl (fun i j hj => d.vol.isFree16_eq hss hdvd ht i hj)
      (div_pos (le_of_dvd hss hdvd) (by decide)), ← hend, ← freeAhead]
    rfl
  | fat32 =>
    have hend : d.vol.scanEnd = d.vol.partBpb.fatSize * (d.vol.partBpb.sectorSize / 4) := by
      simp only [scanEnd, ht]
    rw [scanTable_eq hread rfl (fun i j hj => d.vol.isFree32_eq hss hw.aligned ht i hj)
      (div_pos (le_of_dvd hss hw.aligned) (by decide)), ← hend, ← freeAhead]
    rfl

end Ps2sdk.Fat
