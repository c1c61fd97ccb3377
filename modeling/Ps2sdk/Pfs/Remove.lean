import Mathlib.Data.BitVec
import Ps2sdk.Pfs.Position
import Ps2sdk.Pfs.ZoneAccounting

/-!
# Removing files and directories

`_remove` refuses the root and the current directory. It compares the inode number cut to 16 bits, so that from
number 65536 on it refuses directories that are neither, and removes the ones it should protect.

`pfsBitmapFreeInodeBlocks` of `bitmap.c` takes the address of an entry before it goes on to the next
descriptor, and it reads `number_data` from whatever block it is at. So at the first entry of the first
descriptor it releases the zone of the inode a second time.
-/

namespace Ps2sdk.Pfs

/-- The part of a `pfs_blockinfo_t` that names an inode. -/
structure InodeName where
  number : BitVec 32
  subpart : BitVec 16
  deriving DecidableEq

/-- An inode in the cache, as far as `_remove` reads it. -/
structure FoundInode where
  mode : BitVec 16
  uid : BitVec 16
  inodeBlock : InodeName
  nused : ℕ

/-- What the callees of `_remove` return: the parent and the file or an error, whether the directory holds no file,
`pfsCheckAccess`, `pfsInodeRemove`, and the error of the mount. -/
structure RemoveCalls where
  parent : Except ℤ Unit
  file : Except ℤ FoundInode
  checkDirForFiles : Bool
  checkAccess : ℤ
  inodeRemove : ℤ
  lastError : ℤ

/-- The directories of a mount that are in use. -/
structure MountDirs where
  rootDir : InodeName
  currentDir : InodeName

/-- The inode has type `FIO_S_IFDIR`. -/
def FoundInode.isDir (file : FoundInode) : Bool := file.mode &&& 0xF000 == 0x1000

/-- The name with its number cut to 16 bits. -/
def InodeName.cut (name : InodeName) : InodeName := { name with number := (name.number.setWidth 16).setWidth 32 }

/-- `pfsFioCheckForLastError`. -/
def pfsFioCheckForLastError (lastError rv : ℤ) : ℤ := if lastError ≠ 0 then lastError else rv

variable (dirs : MountDirs)

/-- The checks of `_remove`, for a directory if `mode` is set. -/
def removeChecks (checkDirForFiles mode : Bool) (file : FoundInode) : ℤ :=
  if mode then
    if !file.isDir then -20
    else if !checkDirForFiles then -90
    else if file.inodeBlock.cut = dirs.rootDir then -16
    else if file.inodeBlock.cut = dirs.currentDir then -16
    else 0
  else if file.isDir then -21 else 0

/-- `_remove`. -/
def remove (calls : RemoveCalls) (mode : Bool) : ℤ :=
  match calls.parent with
  | .error rv => rv
  | .ok () =>
    match calls.file with
    | .error rv => pfsFioCheckForLastError calls.lastError rv
    | .ok file =>
      let rv := removeChecks dirs calls.checkDirForFiles mode file
      if rv = 0 then
        let rv := if file.uid ≠ 0 then calls.checkAccess else rv
        let rv := if 2 ≤ file.nused then -16 else rv
        if rv = 0 then calls.inodeRemove else pfsFioCheckForLastError calls.lastError rv
      else pfsFioCheckForLastError calls.lastError rv

/-- A directory in use. -/
def MountDirs.InUse (name : InodeName) : Prop := name = dirs.rootDir ∨ name = dirs.currentDir

variable {dirs : MountDirs} {c : RemoveCalls} {f : FoundInode}

/-- An empty directory that is open nowhere else is refused if its name cut to 16 bits is in use. -/
theorem remove_eq_busy (hparent : c.parent = .ok ()) (hfile : c.file = .ok f) (hdir : f.isDir = true)
    (hempty : c.checkDirForFiles = true) (hnused : f.nused < 2) (haccess : c.checkAccess ≠ -16)
    (hremove : c.inodeRemove ≠ -16) (herror : c.lastError = 0) :
    remove dirs c true = -16 ↔ dirs.InUse f.inodeBlock.cut := by
  have hnot : ¬ 2 ≤ f.nused := by omega
  simp only [remove, hparent, hfile, removeChecks, hdir, hempty, hnot, herror, pfsFioCheckForLastError,
    MountDirs.InUse, Bool.not_true, Bool.false_eq_true, if_true, if_false, ne_eq, not_true_eq_false]
  by_cases hroot : f.inodeBlock.cut = dirs.rootDir
  · simp [hroot]
  · by_cases hcurrent : f.inodeBlock.cut = dirs.currentDir
    · simp [hcurrent]
    · simp only [hroot, hcurrent, if_false, if_true, or_self, iff_false]
      by_cases huid : f.uid = 0
      · simpa [huid] using hremove
      · simp only [huid, not_false_eq_true, if_true]
        split
        · exact hremove
        · exact haccess

theorem InodeName.cut_eq {name : InodeName} (h : name.number.toNat < 2 ^ 16) : name.cut = name := by
  have hnumber : (name.number.setWidth 16).setWidth 32 = name.number := by
    refine BitVec.eq_of_toNat_eq ?_
    simp only [BitVec.toNat_setWidth]
    omega
  rw [InodeName.cut, hnumber]

theorem InodeName.cut_ne {name : InodeName} (h : ¬ name.number.toNat < 2 ^ 16) : name.cut ≠ name := by
  intro heq
  have hnumber : ((name.number.setWidth 16).setWidth 32).toNat = name.number.toNat :=
    congrArg (fun name => name.number.toNat) heq
  simp only [BitVec.toNat_setWidth] at hnumber
  omega

/-- `_remove` refuses an empty directory exactly when it is the root or the current directory, if and only if its
number is below 65536, or neither its name nor the name cut to 16 bits is in use, or one of them is the root and the
other the current directory. -/
theorem remove_busy_iff (hparent : c.parent = .ok ()) (hfile : c.file = .ok f) (hdir : f.isDir = true)
    (hempty : c.checkDirForFiles = true) (hnused : f.nused < 2) (haccess : c.checkAccess ≠ -16)
    (hremove : c.inodeRemove ≠ -16) (herror : c.lastError = 0) :
    (remove dirs c true = -16 ↔ dirs.InUse f.inodeBlock) ↔
      f.inodeBlock.number.toNat < 2 ^ 16 ∨ ¬ dirs.InUse f.inodeBlock.cut ∧ ¬ dirs.InUse f.inodeBlock ∨
        f.inodeBlock.cut = dirs.rootDir ∧ f.inodeBlock = dirs.currentDir ∨
        f.inodeBlock.cut = dirs.currentDir ∧ f.inodeBlock = dirs.rootDir := by
  rw [remove_eq_busy hparent hfile hdir hempty hnused haccess hremove herror]
  by_cases hsmall : f.inodeBlock.number.toNat < 2 ^ 16
  · rw [InodeName.cut_eq hsmall]
    exact iff_of_true Iff.rfl (.inl hsmall)
  · have hne := InodeName.cut_ne hsmall
    unfold MountDirs.InUse
    grind

/-- The callees find an empty directory with this number. -/
def emptyDir (number : BitVec 32) : RemoveCalls :=
  ⟨.ok (), .ok ⟨0x11FF, 0, ⟨number, 0⟩, 1⟩, true, 0, 0, 0⟩

/-- An ordinary directory. -/
theorem remove_busy_iff_ordinary : remove ⟨⟨2, 0⟩, ⟨5, 0⟩⟩ (emptyDir 7) true = -16 ↔
    (⟨⟨2, 0⟩, ⟨5, 0⟩⟩ : MountDirs).InUse ⟨7, 0⟩ :=
  (remove_busy_iff (f := ⟨0x11FF, 0, ⟨7, 0⟩, 1⟩) rfl rfl rfl rfl (by decide) (by decide) (by decide) rfl).mpr
    (.inl (by decide))

/-- The current directory with number 65541 is removed, and an unrelated directory with number 65538 is refused
because the root has number 2. -/
theorem remove_unprotected : remove ⟨⟨2, 0⟩, ⟨65541, 0⟩⟩ (emptyDir 65541) true = 0 ∧
    remove ⟨⟨2, 0⟩, ⟨65541, 0⟩⟩ (emptyDir 65538) true = -16 := by
  decide

open Lib List Nat Vol

namespace Vol

/-- The segments of an inode, with its descriptors. -/
def segments (v : Vol) (x : Place) : List BlockInfo := (List.range (v.entries x)).map (v.entry x)

/-- The loop of `pfsBitmapFreeInodeBlocks`, with the runs released so far. The caller holds the buffer of the
inode; the buffer of a descriptor is given back before its entry is used, and may show anything then. -/
def freeInodeLoop (x : Place) (stale : ℕ → BlockInfo) :
    ℕ → Vol → Place → ℕ → List BlockInfo → Option (Vol × List BlockInfo)
  | 0, _, _, _, _ => none
  | turns + 1, v, clink, i, freed =>
    if i < numberData (v.block clink) then
      if i ≠ 0 ∧ pfsFixIndex i = 0 then
        match v.pfsBlockGetNextSegment clink with
        | none => some (v, freed)
        | some next =>
          let bi := if clink = x then data (v.block clink) (pfsFixIndex i) else stale i
          freeInodeLoop x stale turns (v.pfsBitmapFreeBlockSegment bi) next (i + 1) (freed ++ [bi])
      else
        let bi := data (v.block clink) (pfsFixIndex i)
        freeInodeLoop x stale turns (v.pfsBitmapFreeBlockSegment bi) clink (i + 1) (freed ++ [bi])
    else some (v, freed)

/-- `pfsBitmapFreeInodeBlocks`, with the runs it releases. -/
def pfsBitmapFreeInodeBlocks (v : Vol) (x : Place) (stale : ℕ → BlockInfo) (turns : ℕ) :
    Option (Vol × List BlockInfo) :=
  freeInodeLoop x stale turns v x 0 []

/-- Each segment is released once, exactly their zones are cleared, and the counts are raised by them. -/
structure Releases (v : Vol) (x : Place) (result : Vol × List BlockInfo) : Prop where
  once : result.2.Perm (v.segments x)
  cleared : ∀ sub p, result.1.used sub p = (v.used sub p && !(v.segments x).any (·.covers sub p))
  zfree : result.1.zfree = v.zfree + BitVec.ofNat 32 (numberBlocks (v.block x))
  freeZone : ∀ sub, result.1.freeZone sub =
    v.freeZone sub + BitVec.ofNat 32 (total ((v.segments x).filter fun bi => bi.subpart = sub))

end Vol

variable {v : Vol} {x : Place} {stale : ℕ → BlockInfo}

theorem Chain.total_segments (h : Chain v x) : total (v.segments x) = numberBlocks (v.block x) := by
  rw [h.blocks, segments]
  induction v.entries x with
  | zero => rfl
  | succ n ih =>
    rw [before, ← ih, range_succ, map_append, total_append]
    rfl

/-- The loop stays in the inode as long as it is at entries of the inode. -/
theorem freeInodeLoop_inside (stale : ℕ → BlockInfo) {v' : Vol} (hblock : v'.block = v.block) {count i : ℕ}
    (hcount : i + count ≤ v.entries x) (hinside : i + count ≤ 114) (turns : ℕ) (freed : List BlockInfo) :
    freeInodeLoop x stale (count + turns) v' x i freed =
      freeInodeLoop x stale turns (v'.freeAll ((range' i count).map (v.entry x))) x (i + count)
        (freed ++ (range' i count).map (v.entry x)) := by
  induction count generalizing i v' freed with
  | zero => simp [freeAll]
  | succ count ih =>
    have hfix : pfsFixIndex i = i := if_pos (by omega)
    have hentry : data (v'.block x) (pfsFixIndex i) = v.entry x i := by
      rw [hblock, entry, show descIndex i = 0 from if_pos (by omega)]
      rfl
    have hlt : i < numberData (v'.block x) := by
      rw [hblock]
      exact lt_of_lt_of_le (by omega) hcount
    rw [show count + 1 + turns = (count + turns) + 1 by omega, freeInodeLoop, if_pos hlt,
      if_neg (by rw [hfix]; exact fun hboth => hboth.1 hboth.2), hentry,
      ih (show (v'.pfsBitmapFreeBlockSegment (v.entry x i)).block = v.block from hblock) (by omega) (by omega),
      range'_succ, map_cons, append_assoc, singleton_append,
      show i + 1 + count = i + (count + 1) by omega]
    rfl

/-- With all entries in the inode, the segments are released in their order. -/
theorem pfsBitmapFreeInodeBlocks_inside (hinside : v.entries x ≤ 114) :
    v.pfsBitmapFreeInodeBlocks x stale (v.entries x + 1) = some (v.freeAll (v.segments x), v.segments x) := by
  have hloop := freeInodeLoop_inside stale (v := v) (x := x) rfl (i := 0) (le_of_eq (zero_add _))
    (by omega) 1 []
  have hdone : ¬ 0 + v.entries x < numberData ((v.freeAll (v.segments x)).block x) := by
    rw [(v.freeAll_block (v.segments x)).1, zero_add]
    exact lt_irrefl _
  rw [← range_eq_range'] at hloop
  rw [pfsBitmapFreeInodeBlocks, hloop]
  show freeInodeLoop x stale 1 (v.freeAll (v.segments x)) x (0 + v.entries x) (v.segments x) = _
  rw [freeInodeLoop, if_neg hdone]

variable {result : Vol × List BlockInfo}

/-- What has been released stays released. -/
theorem freeInodeLoop_freed (turns : ℕ) {v' : Vol} {clink : Place} {i : ℕ} {freed : List BlockInfo}
    (h : freeInodeLoop x stale turns v' clink i freed = some result) :
    freed <+: result.2 := by
  induction turns generalizing v' clink i freed with
  | zero => exact absurd h (by simp [freeInodeLoop])
  | succ turns ih =>
    rw [freeInodeLoop] at h
    split at h
    · split at h
      · split at h
        · rw [← Option.some.inj h]
        · exact (prefix_append _ _).trans (ih h)
      · exact (prefix_append _ _).trans (ih h)
    · rw [← Option.some.inj h]

/-- More turns do not change a result. -/
theorem freeInodeLoop_mono (turns more : ℕ) {v' : Vol} {clink : Place} {i : ℕ} {freed : List BlockInfo}
    (h : freeInodeLoop x stale turns v' clink i freed = some result) :
    freeInodeLoop x stale (turns + more) v' clink i freed = some result := by
  induction turns generalizing v' clink i freed with
  | zero => exact absurd h (by simp [freeInodeLoop])
  | succ turns ih =>
    rw [show turns + 1 + more = (turns + more) + 1 by omega, freeInodeLoop]
    rw [freeInodeLoop] at h
    split at h
    · next hlt =>
      rw [if_pos hlt]
      split at h
      · next hfirst =>
        rw [if_pos hfirst]
        split at h
        · exact h
        · exact ih h
      · next hfirst =>
        rw [if_neg hfirst]
        exact ih h
    · next hlt =>
      rw [if_neg hlt]
      exact h

/-- With entries in a descriptor, the zone of the inode is released a second time. -/
theorem pfsBitmapFreeInodeBlocks_twice (h : Chain v x) (houtside : 114 < v.entries x) {turns : ℕ}
    (hresult : v.pfsBitmapFreeInodeBlocks x stale turns = some result) :
    (range 114).map (v.entry x) ++ [v.entry x 0] <+: result.2 := by
  have hmore := freeInodeLoop_mono turns 115 hresult
  have hinside := freeInodeLoop_inside stale (v := v) (x := x) rfl (i := 0) (show 0 + 114 ≤ v.entries x by omega)
    (le_refl 114) (turns + 1) []
  rw [← range_eq_range', nil_append, zero_add] at hinside
  rw [show turns + 115 = 114 + (turns + 1) by omega, hinside, freeInodeLoop] at hmore
  obtain ⟨hblock, hscale⟩ := v.freeAll_block ((range 114).map (v.entry x))
  generalize v.freeAll ((range 114).map (v.entry x)) = v' at hmore hblock hscale
  have hnumber : (nextSegment (v'.block x)).number ≠ 0 := by
    rw [hblock]
    exact h.next_ne_zero (i := 113) houtside rfl
  have hentry : data (v'.block x) (pfsFixIndex 114) = v.entry x 0 := by
    rw [hblock]
    rfl
  rw [if_pos (show 114 < numberData (v'.block x) from hblock ▸ houtside), if_pos ⟨by decide, rfl⟩,
    pfsBlockGetNextSegment, if_pos hnumber] at hmore
  simp only [if_true, hentry] at hmore
  exact freeInodeLoop_freed turns hmore

theorem ApartChain.segments_nodup (h : ApartChain v x) : (v.segments x).Nodup := by
  refine nodup_range.map_on fun i hi j hj heq => ?_
  have hi' := mem_range.mp hi
  have hj' := mem_range.mp hj
  refine h.apart i hi' j hj' 0 (h.filled i hi') 0 (h.filled j hj') ?_
  rw [zoneOf, zoneOf, heq]

/-- The segments of an inode are released exactly if all of them are in the inode. -/
theorem pfsBitmapFreeInodeBlocks_releases_iff (h : ApartChain v x) (stale : ℕ → BlockInfo) :
    (∃ turns result, v.pfsBitmapFreeInodeBlocks x stale turns = some result ∧ v.Releases x result) ↔
      v.entries x ≤ 114 := by
  constructor
  · rintro ⟨turns, result, hresult, hreleases⟩
    by_contra houtside
    have htwice := pfsBitmapFreeInodeBlocks_twice h.toChain (not_le.mp houtside) hresult
    have hnodup := (hreleases.once.nodup_iff.mpr h.segments_nodup).sublist htwice.sublist
    exact (disjoint_of_nodup_append hnodup)
      (mem_map.mpr ⟨0, mem_range.mpr (by decide), rfl⟩) (mem_singleton_self _)
  · intro hinside
    refine ⟨_, _, pfsBitmapFreeInodeBlocks_inside hinside, List.Perm.refl _, v.freeAll_used _, ?_,
      v.freeAll_freeZone _⟩
    rw [← h.toChain.total_segments]
    exact v.freeAll_zfree _

/-- The zones of an inode with two data segments are released. -/
theorem pfsBitmapFreeInodeBlocks_releases_three :
    ∃ turns result, (chainVol 3 0).pfsBitmapFreeInodeBlocks ⟨0, 20⟩ (fun _ => ⟨0, 0, 0⟩) turns = some result ∧
      (chainVol 3 0).Releases ⟨0, 20⟩ result :=
  (pfsBitmapFreeInodeBlocks_releases_iff (by decide +kernel) _).mpr (by decide +kernel)

/-- With a descriptor, the zone of the inode is released twice, and the zone of the descriptor stays used. -/
theorem pfsBitmapFreeInodeBlocks_descriptor : Chain (chainVol 115 500) ⟨0, 20⟩ ∧
    (chainVol 115 500).entry ⟨0, 20⟩ 114 = ⟨500, 0, 1⟩ ∧
    ((chainVol 115 500).pfsBitmapFreeInodeBlocks ⟨0, 20⟩ (fun _ => ⟨0, 0, 0⟩) 200).map
      (fun result => (result.2.count ⟨10, 0, 1⟩, result.1.used 0 500)) = some (2, true) :=
  ⟨by decide +kernel, by decide +kernel, by decide +kernel⟩

end Ps2sdk.Pfs
