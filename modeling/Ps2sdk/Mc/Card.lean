import Mathlib.Algebra.Group.Nat.Defs
import Mathlib.Algebra.Ring.Nat
import Mathlib.Data.List.FinRange

/-!
# The memory card and the cluster cache of its driver

A card is an array of pages of data words and spare bytes, programmed page by page and erased
block by block. Programming can only change erased bits: on a card that erases to ones it
clears bits, on one that erases to zeroes (`CF_ERASE_ZEROES`) it sets them. Every group of 128 data
bytes has a code of three bytes in the spare area of its page. Card operations always succeed, so
the branches that replace a bad block are not taken.

The cache of `mcman` holds 36 clusters of any card. Flushing a dirty entry of a PS2 card
rewrites its whole erase block: the pages of cached clusters come from the cache, the others
are read back first. When a cached cluster of the block was loaded by an ordinary read, the
new contents are first written to a backup block, with a marker page before and after; if both
markers are there when a card is recognised, `mcman_checkBackupBlocks` writes the block again.
PS1 and PDA cards have a flush of their own, which is not part of this model.
-/

namespace Ps2sdk.Mc

/-- `mcman_xortable`. -/
def xortable : List (BitVec 8) :=
  [0x00, 0x87, 0x96, 0x11, 0xA5, 0x22, 0x33, 0xB4, 0xB4, 0x33, 0x22, 0xA5, 0x11, 0x96, 0x87, 0x00,
   0xC3, 0x44, 0x55, 0xD2, 0x66, 0xE1, 0xF0, 0x77, 0x77, 0xF0, 0xE1, 0x66, 0xD2, 0x55, 0x44, 0xC3,
   0xD2, 0x55, 0x44, 0xC3, 0x77, 0xF0, 0xE1, 0x66, 0x66, 0xE1, 0xF0, 0x77, 0xC3, 0x44, 0x55, 0xD2,
   0x11, 0x96, 0x87, 0x00, 0xB4, 0x33, 0x22, 0xA5, 0xA5, 0x22, 0x33, 0xB4, 0x00, 0x87, 0x96, 0x11,
   0xE1, 0x66, 0x77, 0xF0, 0x44, 0xC3, 0xD2, 0x55, 0x55, 0xD2, 0xC3, 0x44, 0xF0, 0x77, 0x66, 0xE1,
   0x22, 0xA5, 0xB4, 0x33, 0x87, 0x00, 0x11, 0x96, 0x96, 0x11, 0x00, 0x87, 0x33, 0xB4, 0xA5, 0x22,
   0x33, 0xB4, 0xA5, 0x22, 0x96, 0x11, 0x00, 0x87, 0x87, 0x00, 0x11, 0x96, 0x22, 0xA5, 0xB4, 0x33,
   0xF0, 0x77, 0x66, 0xE1, 0x55, 0xD2, 0xC3, 0x44, 0x44, 0xC3, 0xD2, 0x55, 0xE1, 0x66, 0x77, 0xF0,
   0xF0, 0x77, 0x66, 0xE1, 0x55, 0xD2, 0xC3, 0x44, 0x44, 0xC3, 0xD2, 0x55, 0xE1, 0x66, 0x77, 0xF0,
   0x33, 0xB4, 0xA5, 0x22, 0x96, 0x11, 0x00, 0x87, 0x87, 0x00, 0x11, 0x96, 0x22, 0xA5, 0xB4, 0x33,
   0x22, 0xA5, 0xB4, 0x33, 0x87, 0x00, 0x11, 0x96, 0x96, 0x11, 0x00, 0x87, 0x33, 0xB4, 0xA5, 0x22,
   0xE1, 0x66, 0x77, 0xF0, 0x44, 0xC3, 0xD2, 0x55, 0x55, 0xD2, 0xC3, 0x44, 0xF0, 0x77, 0x66, 0xE1,
   0x11, 0x96, 0x87, 0x00, 0xB4, 0x33, 0x22, 0xA5, 0xA5, 0x22, 0x33, 0xB4, 0x00, 0x87, 0x96, 0x11,
   0xD2, 0x55, 0x44, 0xC3, 0x77, 0xF0, 0xE1, 0x66, 0x66, 0xE1, 0xF0, 0x77, 0xC3, 0x44, 0x55, 0xD2,
   0xC3, 0x44, 0x55, 0xD2, 0x66, 0xE1, 0xF0, 0x77, 0x77, 0xF0, 0xE1, 0x66, 0xD2, 0x55, 0x44, 0xC3,
   0x00, 0x87, 0x96, 0x11, 0xA5, 0x22, 0x33, 0xB4, 0xB4, 0x33, 0x22, 0xA5, 0x11, 0x96, 0x87, 0x00]

/-- The three bytes of a code. -/
structure Code where
  column : BitVec 8
  odd : BitVec 8
  even : BitVec 8
  deriving DecidableEq

/-- One turn of the loop of `McDataChecksum` over byte `i`. -/
def checksumStep (acc : BitVec 8 × BitVec 8 × BitVec 8) (i : ℕ) (byte : BitVec 8) :
    BitVec 8 × BitVec 8 × BitVec 8 :=
  let v := xortable.getD byte.toNat 0
  let (a2, a3, t0) := acc
  if v &&& 0x80 ≠ 0 then (a2 ^^^ v, a3 ^^^ ~~~ (BitVec.ofNat 8 i), t0 ^^^ BitVec.ofNat 8 i)
  else (a2 ^^^ v, a3, t0)

variable (buf : ℕ → BitVec 8)

/-- `McDataChecksum` of a group of 128 bytes. -/
def mcDataChecksum : Code :=
  let (a2, a3, t0) := (List.range 128).foldl (fun acc i => checksumStep acc i (buf i)) (0, 0, 0)
  ⟨~~~ a2 &&& 0x77, ~~~ a3 &&& 0x7F, ~~~ t0 &&& 0x7F⟩

/-- The number of set bits among the lowest ones. -/
def countBits (x : BitVec 8) (n : ℕ) : ℕ := ((List.range n).filter fun i => x.getLsbD i).length

variable (ecc : ℕ → BitVec 8)

/-- `mcman_correctdata` on the code at the start of a buffer: the result and the code buffer,
which receives the repair at the index of the wrong data byte. How far the buffer goes is the caller's affair. -/
def mcmanCorrectdata : ℤ × (ℕ → BitVec 8) :=
  let code := mcDataChecksum buf
  let xor0 := ecc 0 ^^^ code.column
  let xor1 := ecc 1 ^^^ code.odd
  let xor2 := ecc 2 ^^^ code.even
  let xor3 := xor1 ^^^ xor2
  let xor4 := (xor0 &&& 0xF) ^^^ (xor0 >>> 4)
  if xor0 = 0 ∧ xor1 = 0 ∧ xor2 = 0 then (0, ecc)
  else if xor3 = 0x7F ∧ xor4 = 0x7 then
    (-1, fun k => if k = xor2.toNat then ecc k ^^^ (1 <<< (xor0 >>> 4).toNat) else ecc k)
  else if countBits xor3 8 + countBits xor4 4 = 1 then (-2, ecc)
  else (-3, ecc)

/-- The place behind the code pointer that a repair goes to. -/
def repairIndex : ℕ := (ecc 2 ^^^ (mcDataChecksum buf).even).toNat

theorem mcmanCorrectdata_self
    (hcolumn : ecc 0 = (mcDataChecksum buf).column) (hodd : ecc 1 = (mcDataChecksum buf).odd)
    (heven : ecc 2 = (mcDataChecksum buf).even) : mcmanCorrectdata buf ecc = (0, ecc) := by
  unfold mcmanCorrectdata
  simp [hcolumn, hodd, heven]

/-- The data words of a page. -/
abbrev Words := ℕ → BitVec 32

/-- A page: data words and spare bytes. -/
@[ext]
structure Page where
  words : Words
  spare : ℕ → BitVec 8

/-- The geometry part of `MCDevInfo`; blocks consist of whole clusters and have room for the two
marker pages, pages consist of whole groups of 128 bytes and are no longer than a cluster of 1024. -/
structure DevInfo where
  groups : ℕ
  pagesPerCluster : ℕ
  clustersPerBlock : ℕ
  useEcc : Bool
  eraseZeroes : Bool
  backupBlock1 : ℕ
  backupBlock2 : ℕ
  groups_pos : 0 < groups
  groups_le : groups ≤ 8
  pages_pos : 0 < pagesPerCluster
  block_pages : 2 ≤ clustersPerBlock * pagesPerCluster
  clusters_le : clustersPerBlock ≤ 16
  backups_ne : backupBlock1 ≠ backupBlock2

namespace DevInfo

variable (mcdi : DevInfo)

/-- `blocksize`: the pages of a block. -/
def blocksize : ℕ := mcdi.clustersPerBlock * mcdi.pagesPerCluster

theorem clusters_pos : 0 < mcdi.clustersPerBlock := by
  refine Nat.pos_of_ne_zero fun hzero => ?_
  have := mcdi.block_pages
  simp [hzero] at this

/-- `mcman_sparesize`. -/
def sparesize : ℕ := mcdi.groups * 4

/-- The byte that erased cells hold. -/
def eraseByte : BitVec 8 := if mcdi.eraseZeroes then 0 else 0xFF

/-- The word that erased cells hold. -/
def eraseWord : BitVec 32 := if mcdi.eraseZeroes then 0 else 0xFFFFFFFF

/-- An erased page. -/
def erasedPage : Page := ⟨fun _ => mcdi.eraseWord, fun _ => mcdi.eraseByte⟩

/-- What a page holds after programming `new` over `old`. -/
def program (old new : Page) : Page :=
  if mcdi.eraseZeroes then ⟨fun k => old.words k ||| new.words k, fun k => old.spare k ||| new.spare k⟩
  else ⟨fun k => old.words k &&& new.words k, fun k => old.spare k &&& new.spare k⟩

/-- Programming an erased page stores the new contents. -/
theorem program_erased (new : Page) : mcdi.program mcdi.erasedPage new = new := by
  unfold program
  split
  · next h =>
    ext k
    · simp [erasedPage, eraseWord, h]
    · simp [erasedPage, eraseByte, h]
  · next h =>
    have hword : ∀ x : BitVec 32, 0xFFFFFFFF &&& x = x := fun x => BitVec.allOnes_and
    have hbyte : ∀ x : BitVec 8, 0xFF &&& x = x := fun x => BitVec.allOnes_and
    ext k
    · simp only [erasedPage, eraseWord, h, Bool.false_eq_true, if_false, hword]
    · simp only [erasedPage, eraseByte, h, Bool.false_eq_true, if_false, hbyte]

end DevInfo

/-- One operation of a card. -/
inductive CardOp
  | erase (block : ℕ)
  | program (page : ℕ) (contents : Page)

/-- The pages of a card. -/
abbrev Pages := ℕ → Page

variable (mcdi : DevInfo)

/-- The pages after one operation. -/
def DevInfo.apply (pages : Pages) : CardOp → Pages
  | .erase block => fun p =>
    if block * mcdi.blocksize ≤ p ∧ p < block * mcdi.blocksize + mcdi.blocksize then mcdi.erasedPage
    else pages p
  | .program page contents => Function.update pages page (mcdi.program (pages page) contents)

/-- The pages after some operations in order. -/
def DevInfo.applyAll (pages : Pages) (ops : List CardOp) : Pages :=
  ops.foldl mcdi.apply pages

variable (words : Words)

/-- The bytes of a page, little-endian within its words. -/
def pageByte (k : ℕ) : BitVec 8 := (words (k / 4)).extractLsb' (8 * (k % 4)) 8

/-- The bytes of a group of a page. -/
def groupBytes (group : ℕ) : ℕ → BitVec 8 := fun k => pageByte words (128 * group + k)

/-- The code bytes of a page, three for each group. -/
def eccByte (k : ℕ) : BitVec 8 :=
  let code := mcDataChecksum (groupBytes words (k / 3))
  match k % 3 with
  | 0 => code.column
  | 1 => code.odd
  | _ => code.even

/-- The bytes of `eccbuf` in `McReadPage`, which holds the spare bytes of every page. -/
abbrev eccbufSize : ℕ := 32

/-- The code loop of `McReadPage` over the groups from `group` on: the worst result so far, or nothing when a repair
is stored behind the code buffer. -/
def eccScan (words : Words) : ℕ → ℕ → ℤ × (ℕ → BitVec 8) → Option ℤ
  | 0, _, (ecres, _) => some ecres
  | n + 1, group, (ecres, eccbuf) =>
    let code := fun k => eccbuf (3 * group + k)
    let (r, ecc) := mcmanCorrectdata (groupBytes words group) code
    if r = -1 ∧ eccbufSize ≤ 3 * group + repairIndex (groupBytes words group) code then none
    else eccScan words n (group + 1) (min r ecres, fun k => if k < 3 * group then eccbuf k else ecc (k - 3 * group))

/-- The retry loop of `McReadPage`; every attempt transfers the same page. -/
def readAttempts (mcdi : DevInfo) (page : Page) : ℕ → ℤ → Option ℤ
  | 0, ecres => some (if ecres ≠ 0 then -2 else -1)
  | left + 1, ecres =>
    if mcdi.useEcc then
      if page.spare (mcdi.sparesize - 1) = mcdi.eraseByte then some 0
      else do
        let ecres ← eccScan page.words mcdi.groups 0 (ecres, page.spare)
        if ecres = 0 then some 0
        else if left = 0 ∧ ¬ ecres < -2 then some 0
        else readAttempts mcdi page left ecres
    else readAttempts mcdi page left ecres

variable (page : Page)

/-- `McReadPage`: the result, or nothing when it stores behind its code buffer; the buffer receives the page's words
in any case. -/
def mcReadPage : Option ℤ := readAttempts mcdi page 5 0

/-- The spare bytes carry the code of the data. -/
def Page.Coded (groups : ℕ) : Prop := ∀ k < 3 * groups, page.spare k = eccByte page.words k

/-- A coded page passes the code loop. -/
theorem eccScan_coded {groups : ℕ} (hcoded : page.Coded groups) (n group : ℕ)
    (hn : group + n ≤ groups) (ecc : ℕ → BitVec 8) (hecc : ∀ k < 3 * groups, ecc k = page.spare k) :
    eccScan page.words n group (0, ecc) = some 0 := by
  induction n generalizing group ecc with
  | zero => rfl
  | succ n ih =>
    have hbyte : ∀ c < 3, ecc (3 * group + c) = eccByte page.words (3 * group + c) := fun c hc =>
      (hecc _ (by omega)).trans (hcoded _ (by omega))
    have hgroup : ∀ c < 3, (3 * group + c) / 3 = group ∧ (3 * group + c) % 3 = c := by
      intro c hc
      omega
    have hcorrect : mcmanCorrectdata (groupBytes page.words group) (fun k => ecc (3 * group + k)) =
        (0, fun k => ecc (3 * group + k)) := by
      apply mcmanCorrectdata_self
      · rw [hbyte 0 (by omega), eccByte, (hgroup 0 (by omega)).1, (hgroup 0 (by omega)).2]
        rfl
      · rw [hbyte 1 (by omega), eccByte, (hgroup 1 (by omega)).1, (hgroup 1 (by omega)).2]
        rfl
      · rw [hbyte 2 (by omega), eccByte, (hgroup 2 (by omega)).1, (hgroup 2 (by omega)).2]
        rfl
    unfold eccScan
    dsimp only
    rw [hcorrect, if_neg (by simp)]
    refine ih (group + 1) (by omega) _ fun k hk => ?_
    split
    · exact hecc k hk
    · next hle =>
      dsimp only
      rw [Nat.add_sub_cancel' (by omega)]
      exact hecc k hk

theorem mcReadPage_coded {mcdi : DevInfo} (hecc : mcdi.useEcc = true) {page : Page}
    (hcoded : page.Coded mcdi.groups) : mcReadPage mcdi page = some 0 := by
  have hscan := eccScan_coded page hcoded mcdi.groups 0 (by omega) page.spare fun _ _ => rfl
  unfold mcReadPage readAttempts
  simp only [hecc, if_true, hscan]
  split <;> rfl

theorem mcReadPage_erased {mcdi : DevInfo} (hecc : mcdi.useEcc = true) :
    mcReadPage mcdi mcdi.erasedPage = some 0 := by
  unfold mcReadPage readAttempts
  simp [hecc, DevInfo.erasedPage]

/-- The card is one that `mcman_setdevinfos` takes for a PS2 card: it has read the superblock. -/
def DevInfo.Admitted : Prop := ∃ page, mcReadPage mcdi page = some 0

theorem DevInfo.Admitted.useEcc {mcdi : DevInfo} (h : mcdi.Admitted) : mcdi.useEcc = true := by
  obtain ⟨page, hread⟩ := h
  by_contra hecc
  simp [mcReadPage, readAttempts, hecc] at hread

/-- `McCacheEntry`; the data of a cluster is kept page by page. -/
structure CacheEntry where
  cluster : ℤ
  mcPort : ℕ
  mcSlot : ℕ
  wrFlag : ℕ
  rdFlag : ℕ
  clData : ℕ → Words

/-- `MAX_CACHEENTRY`. -/
abbrev maxCacheEntry : ℕ := 36

instance neZero_maxCacheEntry : NeZero maxCacheEntry := ⟨nofun⟩

/-- An index into `mcman_entrycache`. -/
abbrev EntryRef := Fin maxCacheEntry

/-- The driver's globals: geometry and pages of the card in each port and slot, the operations
issued so far, the cache entries, their order from most to least recently used, and buffers. -/
structure Mcman where
  devinfos : ℕ × ℕ → DevInfo
  cards : ℕ × ℕ → Pages
  issued : List ((ℕ × ℕ) × CardOp)
  entrycache : EntryRef → CacheEntry
  mccache : List EntryRef
  pagebuf : Words
  eccdata : ℕ → BitVec 8
  eccbuf : ℕ → BitVec 8
  badblock : ℤ
  badblockUnit : ℕ × ℕ
  replacementcluster : ℕ → ℤ

variable (s : Mcman) (unit : ℕ × ℕ)

/-- Issue one operation to a card. -/
def Mcman.perform (op : CardOp) : Mcman :=
  { s with
    cards := Function.update s.cards unit ((s.devinfos unit).apply (s.cards unit) op)
    issued := s.issued ++ [(unit, op)] }

/-- The code buffer that `mcman_eraseblock` leaves: the codes of all pages of a block. -/
def DevInfo.fillEcc (mcdi : DevInfo) (pagedata : ℕ → Words) (eccdata : ℕ → BitVec 8) : ℕ → BitVec 8 := fun k =>
  if k / mcdi.sparesize < mcdi.blocksize ∧ k % mcdi.sparesize < 3 * mcdi.groups then
    eccByte (pagedata (k / mcdi.sparesize)) (k % mcdi.sparesize)
  else if k < 32 then 0 else eccdata k

variable (block : ℕ)

/-- `mcman_eraseblock`, with the page data whose codes it computes. -/
def mcmanEraseblock (pagedata : Option (ℕ → Words)) : Mcman :=
  let s := s.perform unit (.erase block)
  match pagedata with
  | none => s
  | some pagedata => { s with eccdata := (s.devinfos unit).fillEcc pagedata s.eccdata }

/-- `McWritePage`; a card without codes has no spare bytes to send. -/
def mcWritePage (page : ℕ) (words : Words) (spare : ℕ → BitVec 8) : Mcman :=
  s.perform unit (.program page
    ⟨words, if (s.devinfos unit).useEcc then spare else fun _ => (s.devinfos unit).eraseByte⟩)

/-- Write some pages of a block with their codes. -/
def writePages (first : ℕ) (pagedata : ℕ → Words) (pages : List ℕ) : Mcman :=
  pages.foldl (fun s i => mcWritePage s unit (first + i) (pagedata i)
    fun k => s.eccdata ((s.devinfos unit).sparesize * i + k)) s

/-- One turn of the loop that collects the cached clusters of a block. The index into `pmce` is negative for an
entry that holds nothing: its cluster is -1, which the division takes for one of the first block. -/
def gatherStep (block : ℤ) (acc : (ℤ → Option EntryRef) × Bool) (i : EntryRef) : (ℤ → Option EntryRef) × Bool :=
  let mcee := s.entrycache i
  let cpb : ℤ := (s.devinfos unit).clustersPerBlock
  if (mcee.mcPort, mcee.mcSlot) = unit ∧ mcee.cluster.tdiv cpb = block then
    (Function.update acc.1 (mcee.cluster.tmod cpb) (some i), acc.2 || mcee.rdFlag == 0)
  else acc

/-- The entries caching clusters of a block, and whether one of them came from a plain read. -/
def gather (block : ℤ) : (ℤ → Option EntryRef) × Bool :=
  (List.finRange maxCacheEntry).foldl (gatherStep s unit block) (fun _ => none, false)

variable (pmce : ℤ → Option EntryRef)

/-- The words a flush writes to page `i` of the block. -/
def flushData (i : ℕ) : Words :=
  let mcdi := s.devinfos unit
  match pmce (i / mcdi.pagesPerCluster : ℕ) with
  | some e => (s.entrycache e).clData (i % mcdi.pagesPerCluster)
  | none => (s.cards unit (block * mcdi.blocksize + i)).words

/-- The pages of the block that are not cached can be read. -/
def flushReadable : Bool :=
  let mcdi := s.devinfos unit
  (List.range mcdi.blocksize).all fun i => (pmce (i / mcdi.pagesPerCluster : ℕ)).isSome ||
    mcReadPage mcdi (s.cards unit (block * mcdi.blocksize + i)) == some 0

/-- The marker page: the block number with the top bit set, over the old page buffer. -/
def markerWords (pagebuf : Words) (block : ℕ) : Words :=
  Function.update pagebuf 0 (BitVec.ofNat 32 block ||| 0x80000000)

/-- Write the new contents to the first backup block, with a marker page before and after. -/
def writeBackup (pagedata : ℕ → Words) : Mcman :=
  let mcdi := s.devinfos unit
  let s := mcmanEraseblock s unit mcdi.backupBlock1 (some pagedata)
  let s := { s with
    pagebuf := markerWords s.pagebuf block
    eccbuf := fun k => if k < 3 * mcdi.groups then eccByte (markerWords s.pagebuf block) k else s.eccbuf k }
  let s := mcWritePage s unit (mcdi.backupBlock2 * mcdi.blocksize) s.pagebuf s.eccbuf
  let s := writePages s unit (mcdi.backupBlock1 * mcdi.blocksize) pagedata (List.range mcdi.blocksize)
  mcWritePage s unit (mcdi.backupBlock2 * mcdi.blocksize + 1) s.pagebuf s.eccbuf

/-- The cached entries of the block are clean after a flush. -/
def clearWrFlags (entrycache : EntryRef → CacheEntry) (clusters : ℕ) (pmce : ℤ → Option EntryRef) :
    EntryRef → CacheEntry := fun e =>
  if (List.range clusters).any fun i => pmce (i : ℕ) == some e then { entrycache e with wrFlag := 0 }
  else entrycache e

/-- `mcman_flushcacheentry` for a PS2 card. -/
def mcmanFlushcacheentry (mce : EntryRef) : ℤ × Mcman :=
  if (s.entrycache mce).wrFlag = 0 then (0, s)
  else
    let unit := ((s.entrycache mce).mcPort, (s.entrycache mce).mcSlot)
    let mcdi := s.devinfos unit
    let block := (s.entrycache mce).cluster.tdiv mcdi.clustersPerBlock
    let (pmce, flag) := gather s unit block
    let block := block.toNat
    if flushReadable s unit block pmce = false then (-51, s)
    else
      let pagedata := flushData s unit block pmce
      let backup := flag && decide (s.badblock ≤ 0)
      let s := if backup then writeBackup s unit block pagedata else s
      let s := mcmanEraseblock s unit block (some pagedata)
      let cached (i : ℕ) : Bool := (pmce (i / mcdi.pagesPerCluster : ℕ)).isSome
      let s := writePages s unit (block * mcdi.blocksize) pagedata
        ((List.range mcdi.blocksize).filter fun i => !cached i)
      let s := writePages s unit (block * mcdi.blocksize) pagedata
        ((List.range mcdi.blocksize).filter cached)
      let s := { s with entrycache := clearWrFlags s.entrycache mcdi.clustersPerBlock pmce }
      (0, if backup then mcmanEraseblock s unit mcdi.backupBlock2 none else s)

variable (cluster : ℤ)

/-- `mcman_getcacheentry`. -/
def mcmanGetcacheentry : Option EntryRef :=
  (List.finRange maxCacheEntry).find? fun e =>
    (s.entrycache e).mcPort == unit.1 && (s.entrycache e).mcSlot == unit.2 &&
      (s.entrycache e).cluster == cluster

/-- `mcman_addcacheentry`: the entry becomes the most recently used one. -/
def mcmanAddcacheentry (mce : EntryRef) : Mcman :=
  { s with mccache := mce :: s.mccache.erase mce }

/-- `mcman_freecluster`. -/
def mcmanFreecluster : Mcman :=
  { s with
    entrycache := fun e =>
      if (s.entrycache e).mcPort = unit.1 ∧ (s.entrycache e).mcSlot = unit.2 ∧
          (s.entrycache e).cluster = cluster then
        { s.entrycache e with cluster := -1, wrFlag := 0 }
      else s.entrycache e }

/-- While a block is being replaced its clusters are found in the first backup block. -/
def Mcman.replaced : ℤ :=
  let mcdi := s.devinfos unit
  let cpb : ℤ := mcdi.clustersPerBlock
  if 0 < s.badblock then
    if cluster.tdiv cpb = s.badblock ∧ s.badblockUnit = unit then
      mcdi.backupBlock1 * cpb + cluster.tmod cpb
    else
      (List.range mcdi.clustersPerBlock).foldl (fun cluster i =>
        if s.replacementcluster i ≠ 0 ∧ s.replacementcluster i = cluster then
          mcdi.backupBlock1 * cpb + i else cluster) cluster
  else cluster

/-- The pages of a cluster that a load transfers: up to the first that cannot be read. -/
def loadCount (cluster : ℕ) : ℕ :=
  let mcdi := s.devinfos unit
  ((List.range mcdi.pagesPerCluster).takeWhile fun i =>
    mcReadPage mcdi (s.cards unit (cluster * mcdi.pagesPerCluster + i)) == some 0).length

/-- Load a cluster into an entry; the page that fails is transferred as well. -/
def loadEntry (mce : EntryRef) : Mcman :=
  { s with
    entrycache := Function.update s.entrycache mce { s.entrycache mce with
      mcPort := unit.1
      mcSlot := unit.2
      cluster := cluster
      rdFlag := 0
      clData := fun i => if i ≤ loadCount s unit cluster.toNat then
        (s.cards unit (cluster.toNat * (s.devinfos unit).pagesPerCluster + i)).words
        else (s.entrycache mce).clData i } }

/-- `mcman_readcluster`: the result, the entry on success, and the new state. -/
def mcmanReadcluster : ℤ × Option EntryRef × Mcman :=
  let cluster := s.replaced unit cluster
  match mcmanGetcacheentry s unit cluster with
  | some mce => (0, some mce, mcmanAddcacheentry s mce)
  | none =>
    match s.mccache.getLast? with
    | none => (0, none, s)
    | some mce =>
      let (r, s) := if (s.entrycache mce).wrFlag ≠ 0 then mcmanFlushcacheentry s mce else (0, s)
      if r ≠ 0 then (r, none, s)
      else
        let loaded := loadEntry s unit cluster mce
        if loadCount s unit cluster.toNat < (s.devinfos unit).pagesPerCluster then (-21, none, loaded)
        else (0, some mce, mcmanAddcacheentry loaded mce)

/-- The block a marker word names; all ones when the page is erased. -/
def markedBlock (mcdi : DevInfo) (word : BitVec 32) : BitVec 32 :=
  let value := if mcdi.eraseZeroes = true ∧ word = 0 then 0xFFFFFFFF else word
  if value ≠ 0xFFFFFFFF then value &&& 0x7FFFFFFF else value

/-- Where the loop over the first backup block stands: the driver, the entry last returned, and
the entry of each cluster read. -/
structure BackupLoad where
  mcman : Mcman
  mce : EntryRef
  refs : ℕ → EntryRef

/-- One turn of that loop. The result of `mcman_readcluster` is not looked at: after a failure
the pointer keeps its value. -/
def BackupLoad.step (unit : ℕ × ℕ) (load : BackupLoad) (r1 : ℕ) : BackupLoad :=
  let mcdi := load.mcman.devinfos unit
  let (_, got, s) := mcmanReadcluster load.mcman unit (mcdi.backupBlock1 * mcdi.clustersPerBlock + r1)
  let mce := got.getD load.mce
  { mcman := { s with
      entrycache := Function.update s.entrycache mce { s.entrycache mce with rdFlag := 1 } }
    mce := mce
    refs := Function.update load.refs r1 mce }

variable (s : Mcman) (unit : ℕ × ℕ)

/-- Read the first backup block; the pointer is unset before, here the first entry. -/
def loadBackup : BackupLoad :=
  (List.range (s.devinfos unit).clustersPerBlock).foldl (BackupLoad.step unit) ⟨s, 0, fun _ => 0⟩

/-- The page pointers set up by that loop, followed when it has ended. -/
def BackupLoad.pagedata (load : BackupLoad) (pagesPerCluster i : ℕ) : Words :=
  (load.mcman.entrycache (load.refs (i / pagesPerCluster))).clData (i % pagesPerCluster)

/-- Write the first backup block over the block it belongs to. -/
def restoreBlock (block : ℕ) : Mcman :=
  let mcdi := s.devinfos unit
  let load := loadBackup s unit
  let pagedata := load.pagedata mcdi.pagesPerCluster
  let s := mcmanEraseblock load.mcman unit block (some pagedata)
  let s := writePages s unit (block * mcdi.blocksize) pagedata (List.range mcdi.blocksize)
  (List.range mcdi.clustersPerBlock).foldl (fun s (r1 : ℕ) =>
    mcmanFreecluster s unit (mcdi.backupBlock1 * mcdi.clustersPerBlock + r1)) s

/-- `mcman_checkBackupBlocks`; a read that stores behind its code buffer counts as failed. -/
def mcmanCheckBackupBlocks : ℤ × Mcman :=
  let mcdi := s.devinfos unit
  let page1 := s.cards unit (mcdi.backupBlock2 * mcdi.blocksize)
  let page2 := s.cards unit (mcdi.backupBlock2 * mcdi.blocksize + 1)
  let r1 := mcReadPage mcdi page1
  let r2 := mcReadPage mcdi page2
  let value1 := markedBlock mcdi (page1.words 0)
  let value2 := markedBlock mcdi (page2.words 0)
  let s := { s with pagebuf := page2.words }
  if (value1 ≠ 0xFFFFFFFF ∧ value2 = 0xFFFFFFFF) ∨ r1.getD (-1) < 0 ∨ r2.getD (-1) < 0 then
    (0, mcmanEraseblock s unit mcdi.backupBlock2 none)
  else if value1 = 0xFFFFFFFF ∧ value1 = value2 then (0, s)
  else (0, mcmanEraseblock (restoreBlock s unit value1.toNat) unit mcdi.backupBlock2 none)

/-- The driver after a restart of the console, with the cards as they were left. -/
def Mcman.restart (cards : ℕ × ℕ → Pages) : Mcman :=
  { devinfos := s.devinfos
    cards := cards
    issued := []
    entrycache := fun _ => ⟨-1, 0, 0, 0, 0, fun _ _ => 0⟩
    mccache := (List.finRange maxCacheEntry).reverse
    pagebuf := fun _ => 0
    eccdata := fun _ => 0
    eccbuf := fun _ => 0
    badblock := 0
    badblockUnit := (0, 0)
    replacementcluster := fun _ => 0 }

end Ps2sdk.Mc
