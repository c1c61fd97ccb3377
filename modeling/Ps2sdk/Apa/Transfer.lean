import Ps2sdk.Lib.Run
import Ps2sdk.Apa.Parts
import Ps2sdk.Apa.Subs

/-!
# Reading and writing partitions

`hddLseek`, `hddRead`, `hddWrite` and the request `HIOCTRANSFER` on an open partition. Reads and writes stay
between the header and the data of the main partition. A transfer is checked against the length of its
partition by a sum of 32 bits, so it stays in the partition exactly when that sum does not wrap.
-/

namespace Ps2sdk.Apa

open Lib Option Nat Fin

/-- An open partition: its slot and the file position in it. -/
structure OpenFile where
  slot : FileSlot
  post : Word

/-- A call of `ata_device_sector_io`. -/
structure SectorIo where
  lba : Word
  nsectors : Word
  deriving DecidableEq

/-- All sectors of a call, as integers, lie between two sectors. -/
def SectorIo.Within (io : SectorIo) (first last : ℕ) : Prop :=
  ∀ p, io.lba.toNat ≤ p → p < io.lba.toNat + io.nsectors.toNat → first ≤ p ∧ p < last

/-- `SEEK_SET`, `SEEK_CUR`, `SEEK_END` and every other value. -/
inductive Whence
  | set
  | cur
  | «end»
  | other

variable (file : OpenFile)

/-- `hddLseek`. -/
def hddLseek (post : Word) : Whence → ℤ × OpenFile
  | .end => (-22, file)
  | .cur =>
    if post &&& 0x1FF ≠ 0 then (-22, file)
    else
      let post := file.post + post.sshiftRight 9
      if 0x1FF9 ≤ post then (-22, file) else ((post <<< 9).toInt, { file with post := post })
  | .set =>
    if post &&& 0x1FF ≠ 0 then (-22, file)
    else
      let post := post.sshiftRight 9
      if post.slt 0 ∨ (0x1FF9#32).sle post then (-22, file) else ((post <<< 9).toInt, { file with post := post })
  | .other => if post &&& 0x1FF ≠ 0 then (-22, file) else (0, file)

/-- `fioDataTransfer`; `ok` is whether the drive completes the transfer. -/
def fioDataTransfer (size : Word) (ok : Bool) : (ℤ × Option SectorIo) × OpenFile :=
  if size &&& 0x1FF ≠ 0 then ((-22, none), file)
  else
    let size := size.sshiftRight 9
    let size := if 0x1FF9 ≤ file.post + size then 0x1FF8 - file.post else size
    if size ≠ 0 then
      let io : SectorIo := ⟨file.post + (file.slot.parts 0).start + 8, size⟩
      if ok then (((size <<< 9).toInt, some io), { file with post := file.post + size }) else ((-5, some io), file)
    else ((0, none), file)

/-- `ioctl2Transfer`. -/
def ioctl2Transfer (sub sector size : Word) (ok : Bool) : ℤ × Option SectorIo :=
  if file.slot.nsub.toNat < sub.toNat then (-19, none)
  else if sub = 0 ∧ sector < 0x2000 then (-22, none)
  else if sub ≠ 0 ∧ sector < 2 then (-22, none)
  else
    let part := file.slot.parts (Fin.ofNat 65 sub.toNat)
    if part.length < sector + size then (-6, none)
    else (if ok then 0 else -5, some ⟨part.start + sector, size⟩)

/-- A request on an open partition. -/
inductive IoRequest
  | lseek (post : Word) (whence : Whence)
  | read (size : Word)
  | write (size : Word)
  | transfer (sub sector size : Word)

/-- Serve a request: the reply and the call it makes. -/
def OpenFile.serve : IoRequest × Bool → (ℤ × Option SectorIo) × OpenFile
  | (.lseek post whence, _) =>
    let (rv, file) := hddLseek file post whence
    ((rv, none), file)
  | (.read size, ok) => fioDataTransfer file size ok
  | (.write size, ok) =>
    if file.slot.f.all (·.wronly) = false then ((-13, none), file) else fioDataTransfer file size ok
  | (.transfer sub sector size, ok) => (ioctl2Transfer file sub sector size ok, file)

/-- What opening a partition of a table and seeking in it leave: the position is in the area before the
data, and the partitions lie on the drive. -/
structure OpenFile.Valid : Prop where
  post : file.post.toNat ≤ 0x1FF8
  nsub : file.slot.nsub.toNat ≤ 64
  main : 0x2000 ≤ (file.slot.parts 0).length.toNat
  fits : ∀ i, i.val ≤ file.slot.nsub.toNat →
    (file.slot.parts i).start.toNat + (file.slot.parts i).length.toNat ≤ 2 ^ 32

/-- The call that a request makes stays in the partition. -/
def OpenFile.Contained (request : IoRequest × Bool) : Prop :=
  ∀ io, (file.serve request).1.2 = some io →
    match request.1 with
    | .transfer sub _ _ =>
      let part := file.slot.parts (Fin.ofNat 65 sub.toNat)
      io.Within part.start.toNat (part.start.toNat + part.length.toNat)
    | _ => io.Within ((file.slot.parts 0).start.toNat + 8) ((file.slot.parts 0).start.toNat + 0x2000)

/-- A transfer is not made: there is no such partition, it starts in front of the data, or the sum of 32 bits
is greater than the length. -/
def FileSlot.Refuses (slot : FileSlot) (sub sector size : Word) : Prop :=
  slot.nsub.toNat < sub.toNat ∨ sub = 0 ∧ sector < 0x2000 ∨ sub ≠ 0 ∧ sector < 2 ∨
    (slot.parts (Fin.ofNat 65 sub.toNat)).length < sector + size

/-- A transfer is refused, or the sum that is checked does not wrap. -/
def OpenFile.InRange : IoRequest × Bool → Prop
  | (.transfer sub sector size, _) => file.slot.Refuses sub sector size ∨ sector.toNat + size.toNat < 2 ^ 32
  | _ => True

/-- The size of a read or a write is not negative. -/
def IoRequest.Nonneg : IoRequest → Prop
  | .read size => size.toNat < 2 ^ 31
  | .write size => size.toNat < 2 ^ 31
  | _ => True

variable {file : OpenFile}

/-- Opening a partition of a table leaves a valid slot. -/
theorem FileSlot.load_valid {v : Word → Header} {xs : List Word} {x : Word} (ht : Table (2 ^ 18) v xs)
    (hP : Consistent (partsOf v xs)) (hx : x ∈ 0 :: xs) (hmain : (v x).isSub = false) (slot : FileSlot) :
    OpenFile.Valid ⟨slot.load (v x), 0⟩ := by
  have hsound := ht.sound x hx
  have hsubs : (v x).nsub.toNat ≤ 64 ∧ ∀ i < (v x).nsub.toNat,
      ((v x).sub i).start.toNat + ((v x).sub i).length.toNat ≤ 2 ^ 32 := by
    by_cases hfree : (v x).type = apaTypeFree
    · simp [hsound.empty hfree]
    · have hpart := partsOf_eq hx hfree
      have hfew : (v x).body.nsub.toNat ≤ 64 := hP.few x _ hpart hmain
      refine ⟨hfew, fun i hi => ?_⟩
      obtain ⟨s, hs, -, hlength, -, -⟩ := hP.listed x _ hpart hmain i hi
      obtain ⟨hmem, -, rfl⟩ := mem_of_partsOf hs
      have hfits := (ht.sound _ hmem).fits
      rw [show (v _).length = ((v x).sub i).length from hlength] at hfits
      exact hfits
  have hcount : (slot.load (v x)).nsub.toNat = (v x).nsub.toNat := by
    show ((v x).nsub.setWidth 16).toNat = _
    rw [BitVec.toNat_setWidth]
    omega
  refine ⟨zero_le _, hcount ▸ hsubs.1, ?_, fun i hi => ?_⟩
  · exact Nat.le_of_dvd hsound.positive (Nat.dvd_trans (by decide) hsound.coarse)
  · rw [hcount] at hi
    by_cases hzero : i.val = 0
    · rw [show (slot.load (v x)).parts i = ⟨(v x).start, (v x).length⟩ from if_pos hzero, hsound.start]
      exact hsound.fits
    · rw [show (slot.load (v x)).parts i = (v x).sub (i.val - 1) from if_neg hzero]
      exact hsubs.2 _ (by omega)

/-- Seeking leaves the slot and keeps the position in the area before the data. -/
theorem hddLseek_valid (h : file.Valid) (post : Word) (whence : Whence) : (hddLseek file post whence).2.Valid := by
  cases whence with
  | «end» => exact h
  | cur =>
    rw [hddLseek]
    split
    · exact h
    · dsimp only
      split
      · exact h
      · next hlt =>
        rw [BitVec.not_le, BitVec.lt_def] at hlt
        exact ⟨le_of_lt_succ hlt, h.nsub, h.main, h.fits⟩
  | set =>
    rw [hddLseek]
    split
    · exact h
    · dsimp only
      split
      · exact h
      · next hlt =>
        generalize post.sshiftRight 9 = post at hlt ⊢
        refine ⟨?_, h.nsub, h.main, h.fits⟩
        show post.toNat ≤ 0x1FF8
        rw [not_or, BitVec.slt_iff_toInt_lt, BitVec.sle_iff_toInt_le, BitVec.toInt_eq_toNat_cond] at hlt
        have hzero : (0#32).toInt = 0 := rfl
        have hbound : (0x1FF9#32).toInt = 0x1FF9 := rfl
        obtain ⟨hnonneg, hless⟩ := hlt
        change ¬ _ < (0#32).toInt at hnonneg
        rw [hzero] at hnonneg
        rw [hbound] at hless
        split at hnonneg <;> omega
  | other =>
    rw [hddLseek]
    split <;> exact h

/-- What a read or a write transfers. -/
theorem fioDataTransfer_spec (h : file.Valid) {size : Word} (hsize : size.toNat < 2 ^ 31) (ok : Bool) :
    (fioDataTransfer file size ok).2.Valid ∧ ∀ io, (fioDataTransfer file size ok).1.2 = some io →
      io.Within ((file.slot.parts 0).start.toNat + 8) ((file.slot.parts 0).start.toNat + 0x2000) := by
  have hpost := h.post
  have hmain := h.main
  have hfits := h.fits 0 (zero_le _)
  unfold fioDataTransfer
  split
  · exact ⟨h, fun io hio => absurd hio (by simp)⟩
  · have hshift : (size.sshiftRight 9).toNat < 2 ^ 22 := by
      rw [BitVec.sshiftRight_eq_of_msb_false (by rw [BitVec.msb_eq_decide]; simpa using hsize),
        BitVec.toNat_ushiftRight, shiftRight_eq_div_pow]
      omega
    dsimp only
    generalize size.sshiftRight 9 = sectors at hshift ⊢
    obtain ⟨count, hcount⟩ : ∃ count, count = if 0x1FF9 ≤ file.post + sectors then 0x1FF8 - file.post
      else sectors := ⟨_, rfl⟩
    have hsum : (file.post + sectors).toNat = file.post.toNat + sectors.toNat := by
      rw [BitVec.toNat_add]
      omega
    have hbound : file.post.toNat + count.toNat ≤ 0x1FF8 := by
      rw [hcount]
      split
      · rw [BitVec.toNat_sub_of_le (by rw [BitVec.le_def]; exact hpost)]
        exact (Nat.add_sub_cancel' hpost).le
      · next hlt =>
        rw [BitVec.not_le, BitVec.lt_def, hsum] at hlt
        exact Nat.le_of_lt_succ hlt
    rw [← hcount]
    split
    · next hne =>
      have hpositive : 0 < count.toNat := Nat.pos_of_ne_zero fun hzero => hne (BitVec.eq_of_toNat_eq hzero)
      have hlba : (file.post + (file.slot.parts 0).start + 8).toNat =
          file.post.toNat + (file.slot.parts 0).start.toNat + 8 := by
        rw [BitVec.toNat_add, BitVec.toNat_add]
        show ((_ + _) % 2 ^ 32 + 8) % 2 ^ 32 = _
        omega
      have hinside : (SectorIo.mk (file.post + (file.slot.parts 0).start + 8) count).Within
          ((file.slot.parts 0).start.toNat + 8) ((file.slot.parts 0).start.toNat + 0x2000) := by
        intro p hlow hhigh
        dsimp only at hlow hhigh
        rw [hlba] at hlow hhigh
        omega
      cases ok with
      | false =>
        refine ⟨h, fun io hio => ?_⟩
        obtain rfl := some.inj hio
        exact hinside
      | true =>
        refine ⟨⟨?_, h.nsub, h.main, h.fits⟩, fun io hio => ?_⟩
        · show (file.post + count).toNat ≤ 0x1FF8
          rw [BitVec.toNat_add]
          omega
        · obtain rfl := some.inj hio
          exact hinside
    · exact ⟨h, fun io hio => absurd hio (by simp)⟩

/-- A request leaves an open partition valid. -/
theorem OpenFile.serve_valid (h : file.Valid) (request : IoRequest × Bool) (hsize : request.1.Nonneg) :
    (file.serve request).2.Valid := by
  obtain ⟨request, ok⟩ := request
  cases request with
  | lseek post whence => exact hddLseek_valid h post whence
  | read size => exact (fioDataTransfer_spec h hsize ok).1
  | write size =>
    rw [OpenFile.serve]
    split
    · exact h
    · exact (fioDataTransfer_spec h hsize ok).1
  | transfer sub sector size => exact h

theorem ioctl2Transfer_of_not_refuses {sub sector size : Word} (h : ¬ file.slot.Refuses sub sector size)
    (ok : Bool) : (ioctl2Transfer file sub sector size ok).2 =
      some ⟨(file.slot.parts (Fin.ofNat 65 sub.toNat)).start + sector, size⟩ := by
  rw [FileSlot.Refuses, not_or, not_or, not_or] at h
  simp only [ioctl2Transfer, if_neg h.1, if_neg h.2.1, if_neg h.2.2.1, if_neg h.2.2.2]

/-- A transfer that is refused is not made. -/
theorem FileSlot.Refuses.ioctl2Transfer {sub sector size : Word} (h : file.slot.Refuses sub sector size)
    (ok : Bool) : (ioctl2Transfer file sub sector size ok).2 = none := by
  unfold Apa.ioctl2Transfer
  split
  · rfl
  · next hsub =>
    split
    · rfl
    · next hmain =>
      split
      · rfl
      · next hhead =>
        exact congrArg Prod.snd (if_pos (((h.resolve_left hsub).resolve_left hmain).resolve_left hhead))

/-- One request stays in its partition exactly when the sum it checks does not wrap. -/
theorem OpenFile.contained_iff (h : file.Valid) (request : IoRequest × Bool) (hsize : request.1.Nonneg) :
    file.Contained request ↔ file.InRange request := by
  obtain ⟨request, ok⟩ := request
  cases request with
  | lseek post whence => exact iff_of_true (fun io hio => absurd hio (by simp [OpenFile.serve])) trivial
  | read size => exact iff_of_true (fun io hio => (fioDataTransfer_spec h hsize ok).2 io hio) trivial
  | write size =>
    refine iff_of_true (fun io hio => ?_) trivial
    rw [OpenFile.serve] at hio
    split at hio
    · exact absurd hio (by simp)
    · exact (fioDataTransfer_spec h hsize ok).2 io hio
  | transfer sub sector size =>
    by_cases hrefuses : file.slot.Refuses sub sector size
    · refine iff_of_true (fun io hio => ?_) (.inl hrefuses)
      exact absurd ((hrefuses.ioctl2Transfer ok).symm.trans hio) (by simp)
    have hmade := ioctl2Transfer_of_not_refuses hrefuses ok
    refine ⟨fun hcontained => .inr ?_, fun hrange io hio => ?_⟩
    · by_contra hwrap
      have hwithin : SectorIo.Within _ _ _ := hcontained _ hmade
      -- with the sum at least 2 ^ 32, the first sector lies before the partition or the last one behind it
      generalize file.slot.parts (Fin.ofNat 65 sub.toNat) = part at hwithin
      have hfirst := hwithin (part.start + sector).toNat (le_refl _) (by dsimp only; omega)
      have hlast := hwithin ((part.start + sector).toNat + size.toNat - 1)
        (by dsimp only; omega) (by dsimp only; omega)
      rw [BitVec.toNat_add] at hfirst hlast
      omega
    · obtain rfl := some.inj (hmade.symm.trans hio)
      have hsum := hrange.resolve_left hrefuses
      rw [FileSlot.Refuses, not_or, not_or, not_or, BitVec.not_lt, BitVec.le_def] at hrefuses
      obtain ⟨hsub, -, -, hlength⟩ := hrefuses
      have hindex : (Fin.ofNat 65 sub.toNat).val ≤ file.slot.nsub.toNat := (mod_le _ _).trans (not_lt.mp hsub)
      have hfits := h.fits (Fin.ofNat 65 sub.toNat) hindex
      show SectorIo.Within _ _ _
      generalize file.slot.parts (Fin.ofNat 65 sub.toNat) = part at *
      intro p hlow hhigh
      dsimp only at hlow hhigh
      rw [BitVec.toNat_add] at hlength hlow hhigh
      omega

/-- Along every sequence of requests on an open partition, every call stays in its partition exactly when no
transfer that is made has a sum that wraps. -/
theorem hdd_io_contained_iff (file : OpenFile) (h : file.Valid) (requests : List (IoRequest × Bool))
    (hsizes : ∀ request ∈ requests, request.1.Nonneg) :
    AllMeet OpenFile.serve OpenFile.Contained file requests ↔ AllMeet OpenFile.serve OpenFile.InRange file
      requests :=
  allMeet_congr (fun _ request hfile hsize => OpenFile.serve_valid hfile request hsize)
    (fun _ request hfile hsize => OpenFile.contained_iff hfile request hsize) requests file h hsizes

/-- A partition of 2 ^ 18 sectors from sector 2 ^ 18 on, open for writing. -/
def plainFile : OpenFile := ⟨⟨some ⟨true, false⟩, 0, 0x100, fun _ => 0, fun _ => ⟨0x40000, 0x40000⟩⟩, 0⟩

theorem plainFile_valid : plainFile.Valid := ⟨by decide, by decide, by decide, fun _ _ =>
  show 0x40000 + 0x40000 ≤ 2 ^ 32 by decide⟩

/-- A transfer of the whole data area of a partition stays in it. -/
theorem hdd_io_contained_plainFile : plainFile.Contained (.transfer 0 0x2000 0x3E000, true) :=
  ((hdd_io_contained_iff plainFile plainFile_valid [(.transfer 0 0x2000 0x3E000, true)]
    (by simp [IoRequest.Nonneg])).mpr ⟨.inr (by decide), trivial⟩).1

/-- A transfer whose sum wraps is made, and reaches the sectors before the partition. -/
theorem ioctl2Transfer_wraps : plainFile.Valid ∧
    ioctl2Transfer plainFile 0 0xFFFFFFFF 2 true = (0, some ⟨0x3FFFF, 2⟩) ∧ (plainFile.slot.parts 0).start =
      0x40000 :=
  ⟨plainFile_valid, by decide, rfl⟩

end Ps2sdk.Apa
