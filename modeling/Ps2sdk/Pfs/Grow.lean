import Ps2sdk.Pfs.Position
import Ps2sdk.Pfs.ZoneSearch

/-!
# Growing a file

`pfsBlockExpandSegment` and `pfsBlockAllocNewSegment` of `blockWrite.c`, and `pfsAllocZones` of `dir.c`. Zones
come from the bitmap routines on the metadata cache; the routines on inodes store them in the last segment, in a
new segment, or in a new descriptor and a segment behind it. In each case the chain stays in order.
-/

namespace Ps2sdk.Pfs

open Lib

variable {n : ℕ}

/-- The block of a new descriptor. -/
def newDescriptor (inodeBlock lastSegment bi : BlockInfo) : MetaBlock :=
  writeInfo (writeInfo (writeInfo (setWord (fun _ => 0) 1 segiMagic.toNat) 2 inodeBlock) 6 lastSegment) 10 bi

/-- Where an inode is to grow: a descriptor, and the segment in it. -/
structure GrowPos where
  inode : Place
  blockSegment : ℕ

namespace Vol

variable (v : Vol)

/-- Add to the blocks and to the entries of an inode. -/
def addCounts (clink : Place) (blocks entries : ℕ) : Vol :=
  let b := v.block clink
  v.setBlock clink (setWord (setWord b 248 ((numberBlocks b + blocks) % 2 ^ 32)) 249
    ((numberData b + entries) % 2 ^ 32))

/-- The entry at a position. -/
def entryAt (pos : GrowPos) : BlockInfo := data (v.block pos.inode) (pfsFixIndex pos.blockSegment)

/-- The new descriptor of `pfsBlockAllocNewSegment`, in a zone that has been found for it. -/
def addDescriptor (clink : Place) (inode : Place) (bi : BlockInfo) : Vol :=
  let v := v.setBlock (v.zonePlace bi)
    (newDescriptor (inodeBlock (v.block clink)) (data (v.block inode) 0) bi)
  let v := v.addCounts clink bi.count 1
  let b := v.block clink
  let v := v.setBlock clink (setWord (writeInfo b 6 bi) 250 ((numberSegdesg b + 1) % 2 ^ 32))
  v.setBlock inode (writeInfo (v.block inode) 4 bi)

/-- The zones for a number of bytes, as `pfsAllocZones` computes them. -/
def zonesFor (msize : BitVec 32) : ℕ :=
  let zsize := BitVec.ofNat 32 v.zsize
  (((msize - 1 + zsize) &&& -zsize).sdiv zsize).toNat

/-- There is room for a number of bytes already. -/
def hasRoom (clink : Place) (msize : BitVec 32) : Bool :=
  let b := v.block clink
  ((BitVec.ofNat 64 (size b) + msize.signExtend 64).toNat ≤
    ((BitVec.ofNat 32 (numberBlocks b) - BitVec.ofNat 32 (numberSegdesg b)).setWidth 64 * BitVec.ofNat 64
      v.zsize).toNat)

end Vol

/-- A word returned as an `int`. -/
def asInt (x : ℕ) : ℤ := if x < 2 ^ 31 then x else x - 2 ^ 32

namespace Mounted

variable (m rounds : ℕ)

/-- `pfsBlockExpandSegment`: the number of zones added to the segment. -/
def pfsBlockExpandSegment (st : Mounted n) (clink : Place) (blockpos : GrowPos) (count : ℕ) : ℕ × Mounted n :=
  if pfsFixIndex blockpos.blockSegment = 0 then (0, st)
  else
    let bi := st.blocks.entryAt blockpos
    let (ret, driver) := pfsBitmapAllocateAdditionalZones st.driver m bi count
    if ret ≠ 0 then
      let v := st.blocks.setBlock blockpos.inode (writeInfo (st.blocks.block blockpos.inode)
        (10 + 2 * pfsFixIndex blockpos.blockSegment) { bi with count := (bi.count + ret) % 65536 })
      (ret, ⟨driver, v.addCounts clink ret 0⟩)
    else (ret, ⟨driver, st.blocks⟩)

/-- The new segment of `pfsBlockAllocNewSegment`, and its extension if zones are missing. -/
def addSegment (st : Mounted n) (clink : Place) (blockpos : GrowPos) (blocks : ℕ) :
    Option (ℤ × Mounted n × GrowPos) :=
  let bi := st.blocks.entryAt blockpos
  (pfsBitmapSearchFreeZone rounds st.driver m ⟨(bi.number + bi.count) % 2 ^ 32, bi.subpart, blocks % 65536⟩
    (numberBlocks (st.blocks.block clink))).map fun (result, bi, driver) =>
      if result < 0 then (result, ⟨driver, st.blocks⟩, blockpos)
      else
        let v := st.blocks.addCounts clink bi.count 1
        let blockpos := { blockpos with blockSegment := blockpos.blockSegment + 1 }
        let i := pfsFixIndex (numberData (v.block clink) - 1)
        let v := v.setBlock blockpos.inode (writeInfo (v.block blockpos.inode) (10 + 2 * i) bi)
        let missing := (blocks + 2 ^ 32 - bi.count) % 2 ^ 32
        if missing ≠ 0 then
          let (ret, st) := pfsBlockExpandSegment m ⟨driver, v⟩ clink blockpos missing
          (asInt (blocks - (missing - ret)), st, blockpos)
        else (asInt blocks, ⟨driver, v⟩, blockpos)

/-- `pfsBlockAllocNewSegment`: the number of zones allocated, or an error. -/
def pfsBlockAllocNewSegment (st : Mounted n) (clink : Place) (blockpos : GrowPos) (blocks : ℕ)
    (cacheFull : Bool) : Option (ℤ × Mounted n × GrowPos) :=
  if cacheFull then some (-12, st, blockpos)
  else if pfsFixIndex (numberData (st.blocks.block clink)) = 0 then
    let bi := st.blocks.entryAt blockpos
    (pfsBitmapSearchFreeZone rounds st.driver m ⟨(bi.number + bi.count) % 2 ^ 32, bi.subpart, 1⟩
      (numberBlocks (st.blocks.block clink))).bind fun (result, bi, driver) =>
        if result < 0 then some (result, ⟨driver, st.blocks⟩, blockpos)
        else
          addSegment m rounds ⟨driver, st.blocks.addDescriptor clink blockpos.inode bi⟩ clink
            ⟨st.blocks.zonePlace bi, blockpos.blockSegment + 1⟩ blocks
  else st.addSegment m rounds clink blockpos blocks

/-- The loop of `pfsAllocZones`, for as many turns as are given. -/
def allocLoop (clink : Place) (cacheFull : ℕ → Bool) : ℕ → Mounted n → GrowPos → ℕ → Option (ℤ × Mounted n)
  | 0, _, _, _ => none
  | _ + 1, st, _, 0 => some (0, st)
  | turns + 1, st, blockpos, val + 1 =>
    (st.pfsBlockAllocNewSegment m rounds clink blockpos (val + 1) (cacheFull turns)).bind
      fun (result, st, blockpos) =>
        if 0 ≤ result then allocLoop clink cacheFull turns st blockpos (val + 1 - result.toNat)
        else some (result, st)

/-- `pfsAllocZones`: 0 or an error. -/
def pfsAllocZones (st : Mounted n) (clink : Place) (msize : BitVec 32) (mode : ℕ) (cacheFull : ℕ → Bool)
    (turns : ℕ) : Option (ℤ × Mounted n) :=
  let v := st.blocks
  if mode = 0 ∧ v.hasRoom clink msize then some (0, st)
  else
    let blockpos : GrowPos := ⟨v.zonePlace (lastSegment (v.block clink)), numberData (v.block clink) - 1⟩
    let val := v.zonesFor msize
    let (ret, st) := st.pfsBlockExpandSegment m clink blockpos val
    allocLoop m rounds clink cacheFull turns st blockpos (val - ret)

end Mounted

open Nat Vol

/-- The chain of a file that may grow: its descriptors are counted, the last one is recorded, its zones lie in
the partitions, and the bitmap has the zones of the descriptors and the first zone of each partition. -/
structure Grown (parts : Partitions) (v : Vol) (x : Place) : Prop extends SegmentChain v x where
  segdesg : numberSegdesg (v.block x) = v.lastDesc x + 1
  last : v.zonePlace (lastSegment (v.block x)) = v.descAt x (v.lastDesc x)
  placed : ∀ i < v.entries x, (v.entry x i).subpart ≤ parts.numSubs ∧
    (v.entry x i).number + (v.entry x i).count ≤ parts.zones (v.entry x i).subpart
  marked : ∀ i < v.entries x, pfsFixIndex i = 0 → v.used (v.entry x i).subpart (v.entry x i).number = true
  reserved : ∀ sub ≤ parts.numSubs, v.used sub 0 = true
  small : ∀ sub ≤ parts.numSubs, parts.zones sub <<< v.inodeScale ≤ 2 ^ 32

variable {parts : Partitions} {v v' : Vol} {x : Place} {bi : BlockInfo}

section Bitmap

theorem Vol.takeRun_descAt (v : Vol) (bi : BlockInfo) (x : Place) (d : ℕ) :
    (v.takeRun bi).descAt x d = v.descAt x d :=
  @descAt_congr v (v.takeRun bi) x rfl d (fun _ _ => rfl) d (le_refl d)

theorem Vol.takeRun_entry (v : Vol) (bi : BlockInfo) (x : Place) (i : ℕ) : (v.takeRun bi).entry x i = v.entry x i :=
  @entry_congr v (v.takeRun bi) x rfl rfl i

theorem Vol.takeRun_used (v : Vol) (bi : BlockInfo) {sub p : ℕ} (h : v.used sub p = true) :
    (v.takeRun bi).used sub p = true := by
  show (if bi.covers sub p then true else v.used sub p) = true
  rw [h, ite_self]

end Bitmap

section Counts

variable (blocks entries : ℕ)

theorem Vol.addCounts_of_ne (v : Vol) {x p : Place} (blocks entries : ℕ) (hp : p ≠ x) :
    (v.addCounts x blocks entries).block p = v.block p := by
  rw [addCounts, setBlock_of_ne _ _ hp]

theorem Vol.addCounts_info (v : Vol) (x p : Place) (blocks entries : ℕ) {w : ℕ} (hw : w + 1 < 248) :
    readInfo ((v.addCounts x blocks entries).block p) w = readInfo (v.block p) w := by
  by_cases hp : p = x
  · rw [hp, addCounts, setBlock_self, readInfo_setWord_of_ne _ _ (by omega),
      readInfo_setWord_of_ne _ _ (by omega)]
  · rw [v.addCounts_of_ne _ _ hp]

theorem Vol.addCounts_descAt (v : Vol) (x : Place) (blocks entries d : ℕ) :
    (v.addCounts x blocks entries).descAt x d = v.descAt x d :=
  @descAt_congr v (v.addCounts x blocks entries) x rfl d
    (fun _ _ => v.addCounts_info x _ blocks entries (by omega : (4 : ℕ) + 1 < 248)) d (le_refl d)

theorem Vol.Separate.addCounts_entry {last : ℕ} (h : v.Separate x last) {j : ℕ} (hj : descIndex j ≤ last) :
    (v.addCounts x blocks entries).entry x j = v.entry x j := by
  have hinfo : ∀ {w : ℕ}, w + 1 < 248 → _ := fun hw => v.addCounts_info x x blocks entries hw
  rw [addCounts] at hinfo ⊢
  rw [setBlock_self] at hinfo
  exact setInode_entry (hinfo (by omega)) (fun i hi => hinfo (by omega)) h hj

/-- The counts of the inode. -/
theorem Vol.addCounts_counts {blocks entries : ℕ} (hblocks : numberBlocks (v.block x) + blocks < 2 ^ 32)
    (hentries : v.entries x + entries < 2 ^ 32) :
    numberBlocks ((v.addCounts x blocks entries).block x) = numberBlocks (v.block x) + blocks ∧
      (v.addCounts x blocks entries).entries x = v.entries x + entries ∧
      numberSegdesg ((v.addCounts x blocks entries).block x) = numberSegdesg (v.block x) := by
  unfold Vol.entries at *
  rw [Vol.addCounts, Vol.setBlock_self, mod_eq_of_lt hblocks, mod_eq_of_lt hentries]
  refine ⟨?_, ?_, ?_⟩
  · rw [numberBlocks, word_setWord_of_ne _ _ (by decide), word_setWord_self _ _ hblocks]
  · rw [numberData, word_setWord_self _ _ hentries]
  · rw [numberSegdesg, word_setWord_of_ne _ _ (by decide),
      word_setWord_of_ne _ _ (by decide)]
    rfl

end Counts

/-- A chain stays in order if its descriptors and their entries stay. -/
theorem Grown.of_same_descs (h : Grown parts v x) (hscale : v'.inodeScale = v.inodeScale)
    (hused : ∀ {sub p}, v.used sub p = true → v'.used sub p = true)
    (hnext : ∀ p, nextSegment (v'.block p) = nextSegment (v.block p))
    (hlast : lastSegment (v'.block x) = lastSegment (v.block x))
    (hsegdesg : numberSegdesg (v'.block x) = numberSegdesg (v.block x)) (hentries : v.entries x ≤ v'.entries x)
    (hdesc : v'.lastDesc x = v.lastDesc x)
    (hown : ∀ i < v'.entries x, pfsFixIndex i = 0 → i < v.entries x ∧ v'.entry x i = v.entry x i)
    (hplaced : ∀ i < v'.entries x, (v'.entry x i).subpart ≤ parts.numSubs ∧
      (v'.entry x i).number + (v'.entry x i).count ≤ parts.zones (v'.entry x i).subpart)
    (hblocks : numberBlocks (v'.block x) = before (fun i => (v'.entry x i).count) (v'.entries x)) :
    Grown parts v' x := by
  have hdescAt : ∀ d, v'.descAt x d = v.descAt x d := fun d =>
    @descAt_congr v v' x hscale d (fun d _ => hnext _) d (le_refl d)
  have hplace : ∀ bi, v'.zonePlace bi = v.zonePlace bi := fun bi => by rw [zonePlace, zonePlace, hscale]
  refine ⟨⟨h.nonempty.trans hentries, fun i hi hfix => ?_, fun d hd => ?_, ?_, hblocks⟩, ?_, ?_, hplaced,
    fun i hi hfix => ?_, fun sub hsub => hused (h.reserved sub hsub), fun sub hsub =>
      hscale.symm ▸ h.small sub hsub⟩
  · obtain ⟨hi', heq⟩ := hown i hi hfix
    rw [heq, hplace, hdescAt]
    exact h.own i hi' hfix
  · rw [hdescAt, hnext]
    exact h.linked d (hdesc ▸ hd)
  · rw [hdescAt, hnext, hdesc]
    exact h.ended
  · rw [hsegdesg, hdesc, h.segdesg]
  · rw [hlast, hplace, hdescAt, hdesc, h.last]
  · obtain ⟨hi', heq⟩ := hown i hi hfix
    rw [heq]
    exact hused (h.marked i hi' hfix)

theorem Grown.takeRun (h : Grown parts v x) (bi : BlockInfo) : Grown parts (v.takeRun bi) x := by
  refine h.of_same_descs rfl (v.takeRun_used bi) (fun _ => rfl) rfl rfl (le_refl _) rfl
    (fun i hi _ => ⟨hi, v.takeRun_entry bi x i⟩) (fun i hi => ?_)
    (h.blocks.trans (before_congr fun i _ => congrArg BlockInfo.count (v.takeRun_entry bi x i).symm))
  rw [v.takeRun_entry]
  exact h.placed i hi

/-- A run with more zones behind. -/
def BlockInfo.longer (bi : BlockInfo) (more : ℕ) : BlockInfo := { bi with count := bi.count + more }

section Expand

variable {k more : ℕ}

/-- The volume after zones have been added to an entry and to the counts. -/
def Vol.growEntry (v : Vol) (x : Place) (k more : ℕ) : Vol :=
  (v.setEntry x k ((v.entry x k).longer more)).addCounts x more 0

/-- A chain stays in order while zones are added to a data segment. -/
theorem Grown.growEntry (h : Grown parts v x) (hk : k < v.entries x) (hfix : pfsFixIndex k ≠ 0)
    (hcount : (v.entry x k).count + more < 65536)
    (hplaced : (v.entry x k).number + ((v.entry x k).count + more) ≤ parts.zones (v.entry x k).subpart)
    (hblocks : numberBlocks (v.block x) + more < 2 ^ 32) :
    Grown parts (v.growEntry x k more) x ∧ (v.growEntry x k more).entries x = v.entries x ∧
      numberBlocks ((v.growEntry x k more).block x) = numberBlocks (v.block x) + more := by
  have hfits := readInfo_fits (v.block (v.descAt x (descIndex k))) (10 + 2 * pfsFixIndex k)
  have hbi : BlockInfo.Fits ((v.entry x k).longer more) :=
    ⟨hfits.number, hfits.subpart, hcount⟩
  have hdesc : descIndex k ≤ v.lastDesc x := descIndex_le hk
  have hword : v.entries x < 2 ^ 32 := word_lt _ _
  have hseparate : (v.setEntry x k ((v.entry x k).longer more)).Separate x (v.lastDesc x) :=
    h.separate.congr fun d _ => v.setEntry_descAt x _ _ d
  have htail := fun {w} (hlow : 238 ≤ w) (hhigh : w < 256) => h.separate.setEntry_tail hdesc
    ((v.entry x k).longer more) hlow hhigh
  have hnb : numberBlocks ((v.setEntry x k ((v.entry x k).longer more)).block x) =
      numberBlocks (v.block x) := htail (by decide) (by decide)
  have hnd : (v.setEntry x k ((v.entry x k).longer more)).entries x = v.entries x :=
    htail (by decide) (by decide)
  have hns : numberSegdesg ((v.setEntry x k ((v.entry x k).longer more)).block x) =
      numberSegdesg (v.block x) := htail (by decide) (by decide)
  obtain ⟨hnb', hnd', hns'⟩ := @Vol.addCounts_counts _ x more 0 (hnb.symm ▸ hblocks) (hnd.symm ▸ hword)
  rw [← Vol.growEntry] at hnb' hnd' hns'
  rw [hnb] at hnb'
  rw [hnd, add_zero] at hnd'
  rw [hns] at hns'
  have hentry : ∀ j < v.entries x, (v.growEntry x k more).entry x j =
      if j = k then ((v.entry x k).longer more) else v.entry x j := by
    intro j hj
    rw [Vol.growEntry, hseparate.addCounts_entry _ _ (Vol.descIndex_le hj),
      h.separate.setEntry_entry hdesc _ hbi (Vol.descIndex_le hj)]
  have hinfo : ∀ p {w : ℕ}, w + 1 < 10 → readInfo ((v.growEntry x k more).block p) w = readInfo (v.block p) w := by
    intro p w hw
    rw [Vol.growEntry, Vol.addCounts_info _ _ _ _ _ (by omega), v.setEntry_head x _ _ _ hw]
  refine ⟨h.of_same_descs rfl id (fun p => hinfo p (by omega)) (hinfo x (by omega)) hns' (le_of_eq hnd'.symm)
    (by rw [Vol.lastDesc, hnd', Vol.lastDesc]) (fun i hi hi' => ?_) (fun i hi => ?_) ?_, hnd', hnb'⟩
  · rw [hnd'] at hi
    refine ⟨hi, ?_⟩
    rw [hentry i hi, if_neg fun heq : i = k => hfix (heq ▸ hi')]
  · rw [hnd'] at hi
    rw [hentry i hi]
    split
    · exact ⟨(h.placed k hk).1, hplaced⟩
    · exact h.placed i hi
  · rw [hnb', hnd', h.blocks]
    refine (before_add_at hk ?_ fun i hi hne => ?_).symm
    · rw [hentry k hk, if_pos rfl]
      rfl
    · rw [hentry i hi, if_neg hne]

end Expand

section Append

/-- The volume after a segment has been appended to the last descriptor. -/
def Vol.appendEntry (v : Vol) (x : Place) (bi : BlockInfo) : Vol :=
  (v.addCounts x bi.count 1).setEntry x (v.entries x) bi

theorem SegmentChain.descIndex_entries (h : SegmentChain v x) : descIndex (v.entries x) =
    if pfsFixIndex (v.entries x) = 0 then v.lastDesc x + 1 else v.lastDesc x := by
  have hsucc := descIndex_succ (v.entries x - 1)
  rwa [Nat.sub_add_cancel h.nonempty] at hsucc

/-- A chain stays in order when a segment is appended. -/
theorem Grown.appendEntry (h : Grown parts v x) (hfix : pfsFixIndex (v.entries x) ≠ 0) (hbi : bi.Fits)
    (hplaced : bi.subpart ≤ parts.numSubs ∧ bi.number + bi.count ≤ parts.zones bi.subpart)
    (hblocks : numberBlocks (v.block x) + bi.count < 2 ^ 32) (hentries : v.entries x + 1 < 2 ^ 32) :
    Grown parts (v.appendEntry x bi) x ∧ (v.appendEntry x bi).entries x = v.entries x + 1 ∧
      numberBlocks ((v.appendEntry x bi).block x) = numberBlocks (v.block x) + bi.count ∧
      (v.appendEntry x bi).entry x (v.entries x) = bi := by
  have hdesc := h.descIndex_entries
  rw [if_neg hfix] at hdesc
  have hle : descIndex (v.entries x) ≤ v.lastDesc x := le_of_eq hdesc
  have hseparate : (v.addCounts x bi.count 1).Separate x (v.lastDesc x) :=
    h.separate.congr fun d _ => v.addCounts_descAt x _ _ d
  obtain ⟨hnb, hnd, hns⟩ := addCounts_counts hblocks hentries
  have htail := fun {w} (hlow : 238 ≤ w) (hhigh : w < 256) => hseparate.setEntry_tail hle bi hlow hhigh
  have hnb' : numberBlocks ((v.appendEntry x bi).block x) = numberBlocks (v.block x) + bi.count :=
    (htail (by decide) (by decide)).trans hnb
  have hnd' : (v.appendEntry x bi).entries x = v.entries x + 1 := (htail (by decide) (by decide)).trans hnd
  have hns' : numberSegdesg ((v.appendEntry x bi).block x) = numberSegdesg (v.block x) :=
    (htail (by decide) (by decide)).trans hns
  have hentry : ∀ j < v.entries x + 1, (v.appendEntry x bi).entry x j =
      if j = v.entries x then bi else v.entry x j := by
    intro j hj
    have hj' : descIndex j ≤ v.lastDesc x := (descIndex_mono (le_of_lt_succ hj)).trans hle
    rw [Vol.appendEntry, hseparate.setEntry_entry hle _ hbi hj', h.separate.addCounts_entry _ _ hj']
  have hinfo : ∀ p {w : ℕ}, w + 1 < 10 → readInfo ((v.appendEntry x bi).block p) w = readInfo (v.block p) w := by
    intro p w hw
    rw [Vol.appendEntry, Vol.setEntry_head _ _ _ _ _ hw, Vol.addCounts_info _ _ _ _ _ (by omega)]
  refine ⟨h.of_same_descs rfl id (fun p => hinfo p (by omega)) (hinfo x (by omega)) hns' (by omega)
    (by rw [Vol.lastDesc, hnd', Nat.add_sub_cancel, hdesc]) (fun i hi hi' => ?_) (fun i hi => ?_) ?_, hnd', hnb',
      ?_⟩
  · rw [hnd'] at hi
    have hne : i ≠ v.entries x := fun heq => hfix (heq ▸ hi')
    refine ⟨by omega, ?_⟩
    rw [hentry i hi, if_neg hne]
  · rw [hnd'] at hi
    rw [hentry i hi]
    split
    · exact hplaced
    · exact h.placed i (by omega)
  · rw [hnb', hnd', before, hentry _ (lt_succ_self _), if_pos rfl, h.blocks]
    refine congrArg (· + bi.count) (before_congr fun i hi => ?_).symm
    rw [hentry i (by omega), if_neg (Nat.ne_of_lt hi)]
  · rw [hentry _ (Nat.lt_succ_self _), if_pos rfl]

end Append

section Descriptor

variable {z : Place}

/-- The volume with a new descriptor and its counts, before it is linked. -/
def Vol.placeDescriptor (v : Vol) (x z : Place) (bi : BlockInfo) : Vol :=
  let v := (v.setBlock (v.zonePlace bi) (newDescriptor (inodeBlock (v.block x)) (data (v.block z) 0) bi)).addCounts
    x bi.count 1
  v.setBlock x (setWord (writeInfo (v.block x) 6 bi) 250 ((numberSegdesg (v.block x) + 1) % 2 ^ 32))

theorem Vol.addDescriptor_eq (v : Vol) (x z : Place) (bi : BlockInfo) : v.addDescriptor x z bi =
    (v.placeDescriptor x z bi).setBlock z (writeInfo ((v.placeDescriptor x z bi).block z) 4 bi) := rfl

/-- The links and the entries of the other blocks stay while a descriptor is placed. -/
theorem Vol.placeDescriptor_info {p : Place} (hp : p ≠ v.zonePlace bi) {w : ℕ}
    (hw : p = x → w + 1 < 6 ∨ 7 < w ∧ w + 1 < 248) :
    readInfo ((v.placeDescriptor x z bi).block p) w = readInfo (v.block p) w := by
  rw [placeDescriptor]
  by_cases hx : p = x
  · have hw' := hw hx
    rw [hx, setBlock_self, readInfo_setWord_of_ne _ _ (by omega),
      readInfo_writeInfo_of_ne _ _ (by omega), addCounts_info _ _ _ _ _ (by omega),
      setBlock_of_ne _ _ (hx ▸ hp)]
  · rw [setBlock_of_ne _ _ hx, addCounts_of_ne _ _ _ hx, setBlock_of_ne _ _ hp]

theorem Vol.addDescriptor_info {p : Place} (hp : p ≠ v.zonePlace bi) {w : ℕ} (hlow : 7 < w) (hhigh : w + 1 < 256)
    (hw : p = x → w + 1 < 248) : readInfo ((v.addDescriptor x z bi).block p) w = readInfo (v.block p) w := by
  rw [addDescriptor_eq, ← placeDescriptor_info (x := x) (z := z) hp fun hx => .inr ⟨hlow, hw hx⟩]
  by_cases hz : p = z
  · rw [hz, setBlock_self, readInfo_writeInfo_of_ne _ _ (by omega)]
  · rw [setBlock_of_ne _ _ hz]

theorem Vol.addDescriptor_next {p : Place} (hp : p ≠ v.zonePlace bi) (hz : p ≠ z) :
    nextSegment ((v.addDescriptor x z bi).block p) = nextSegment (v.block p) := by
  rw [addDescriptor_eq, setBlock_of_ne _ _ hz]
  exact placeDescriptor_info hp fun _ => by omega

theorem Vol.addDescriptor_link (hbi : bi.Fits) : nextSegment ((v.addDescriptor x z bi).block z) = bi := by
  rw [addDescriptor_eq, setBlock_self]
  exact readInfo_writeInfo _ (by decide) hbi

theorem Vol.addDescriptor_new (hx : x ≠ v.zonePlace bi) (hz : z ≠ v.zonePlace bi) :
    (v.addDescriptor x z bi).block (v.zonePlace bi) =
      newDescriptor (inodeBlock (v.block x)) (data (v.block z) 0) bi := by
  rw [addDescriptor_eq, setBlock_of_ne _ _ (Ne.symm hz), placeDescriptor,
    setBlock_of_ne _ _ (Ne.symm hx), addCounts, setBlock_of_ne _ _ (Ne.symm hx), setBlock_self]

/-- The new descriptor has its own zone as its first entry, and ends the chain. -/
theorem newDescriptor_fields (inodeBlock lastSegment : BlockInfo) (hbi : bi.Fits) :
    data (newDescriptor inodeBlock lastSegment bi) 0 = bi ∧
      (nextSegment (newDescriptor inodeBlock lastSegment bi)).number = 0 := by
  refine ⟨readInfo_writeInfo _ (by decide) hbi, ?_⟩
  rw [nextSegment, newDescriptor, readInfo_writeInfo_of_ne _ _ (by decide),
    readInfo_writeInfo_of_ne _ _ (by decide),
    readInfo_writeInfo_of_ne _ _ (by decide),
    readInfo_setWord_of_ne _ _ (by decide)]
  rfl

/-- The counts of the inode. -/
theorem Vol.addDescriptor_counts (hbi : bi.Fits) (hx : x ≠ v.zonePlace bi)
    (hblocks : numberBlocks (v.block x) + bi.count < 2 ^ 32) (hentries : v.entries x + 1 < 2 ^ 32)
    (hsegdesg : numberSegdesg (v.block x) + 1 < 2 ^ 32) :
    numberBlocks ((v.addDescriptor x z bi).block x) = numberBlocks (v.block x) + bi.count ∧
      (v.addDescriptor x z bi).entries x = v.entries x + 1 ∧
      numberSegdesg ((v.addDescriptor x z bi).block x) = numberSegdesg (v.block x) + 1 ∧
      lastSegment ((v.addDescriptor x z bi).block x) = bi := by
  obtain ⟨u, hu⟩ : ∃ u, u = v.setBlock (v.zonePlace bi)
    (newDescriptor (inodeBlock (v.block x)) (data (v.block z) 0) bi) := ⟨_, rfl⟩
  have hself : u.block x = v.block x := by rw [hu, setBlock_of_ne _ _ hx]
  rw [← hself] at hblocks hsegdesg
  have hentries' : u.entries x + 1 < 2 ^ 32 := by rw [entries, hself]; exact hentries
  obtain ⟨hnb, hnd, hns⟩ := addCounts_counts hblocks hentries'
  have hplace : (v.placeDescriptor x z bi).block x =
      setWord (writeInfo ((u.addCounts x bi.count 1).block x) 6 bi) 250 (numberSegdesg (v.block x) + 1) := by
    rw [placeDescriptor, ← hu, setBlock_self, hns, hself, mod_eq_of_lt (hself ▸ hsegdesg)]
  have hcounts : numberBlocks ((v.placeDescriptor x z bi).block x) = numberBlocks (v.block x) + bi.count ∧
      numberData ((v.placeDescriptor x z bi).block x) = v.entries x + 1 := by
    rw [hplace, numberBlocks, numberData, word_setWord_of_ne _ _ (by decide),
      word_setWord_of_ne _ _ (by decide),
      word_writeInfo_of_ne _ _ (by decide),
      word_writeInfo_of_ne _ _ (by decide), ← hself]
    refine ⟨hnb, hnd.trans ?_⟩
    rw [entries, hself, entries]
  have hlast : numberSegdesg ((v.placeDescriptor x z bi).block x) = numberSegdesg (v.block x) + 1 ∧
      lastSegment ((v.placeDescriptor x z bi).block x) = bi := by
    rw [hplace, numberSegdesg, word_setWord_self _ _ (hself ▸ hsegdesg), lastSegment,
      readInfo_setWord_of_ne _ _ (by decide), readInfo_writeInfo _ (by decide) hbi]
    exact ⟨rfl, rfl⟩
  have hlink : ∀ {w : ℕ}, 5 < w → w < 256 →
      word ((v.addDescriptor x z bi).block x) w = word ((v.placeDescriptor x z bi).block x) w := by
    intro w hlow hhigh
    rw [addDescriptor_eq]
    by_cases hz : x = z
    · subst hz
      rw [setBlock_self, word_writeInfo_of_ne _ _ (by omega)]
    · rw [setBlock_of_ne _ _ hz]
  refine ⟨(hlink (by decide) (by decide)).trans hcounts.1, (hlink (by decide) (by decide)).trans hcounts.2,
    (hlink (by decide) (by decide)).trans hlast.1, ?_⟩
  rw [lastSegment, readInfo, hlink (by decide) (by decide), hlink (by decide) (by decide)]
  exact hlast.2

/-- A chain stays in order when a descriptor is appended in a zone of its own. -/
theorem Grown.addDescriptor (h : Grown parts v x) (hfix : pfsFixIndex (v.entries x) = 0) (hbi : bi.Fits)
    (hcount : bi.count = 1) (hnumber : bi.number ≠ 0) (hused : v.used bi.subpart bi.number = true)
    (hplaced : bi.subpart ≤ parts.numSubs ∧ bi.number + bi.count ≤ parts.zones bi.subpart)
    (hfresh : ∀ d ≤ v.lastDesc x, v.descAt x d ≠ v.zonePlace bi)
    (hblocks : numberBlocks (v.block x) + 1 < 2 ^ 32) (hentries : v.entries x + 1 < 2 ^ 32) :
    Grown parts (v.addDescriptor x (v.descAt x (v.lastDesc x)) bi) x ∧
      (v.addDescriptor x (v.descAt x (v.lastDesc x)) bi).entries x = v.entries x + 1 ∧
      numberBlocks ((v.addDescriptor x (v.descAt x (v.lastDesc x)) bi).block x) = numberBlocks (v.block x) + 1 ∧
      (v.addDescriptor x (v.descAt x (v.lastDesc x)) bi).descAt x (descIndex (v.entries x)) = v.zonePlace bi := by
  have hdesc := h.descIndex_entries
  rw [if_pos hfix] at hdesc
  have hseg : numberSegdesg (v.block x) + 1 < 2 ^ 32 := by
    have hnb := h.numberBlocks_eq
    rw [h.segdesg]
    omega
  obtain ⟨hnb, hnd, hns, hls⟩ := @addDescriptor_counts v x bi (v.descAt x (v.lastDesc x)) hbi
    (hfresh 0 (zero_le _)) (hcount.symm ▸ hblocks) hentries hseg
  rw [hcount] at hnb
  have hnext : ∀ d < v.lastDesc x, nextSegment ((v.addDescriptor x (v.descAt x (v.lastDesc x)) bi).block
    (v.descAt x d)) =
      nextSegment (v.block (v.descAt x d)) := fun d hd =>
    addDescriptor_next (hfresh d (Nat.le_of_lt hd)) fun heq =>
      Nat.ne_of_lt hd (h.descAt_inj (Nat.le_of_lt hd) (Nat.le_refl _) heq)
  have hinfo := fun d (hd : d ≤ v.lastDesc x) {w : ℕ} => @addDescriptor_info v x bi (v.descAt x (v.lastDesc x)) _
    (hfresh d hd) w
  have hlink := @addDescriptor_link v x bi (v.descAt x (v.lastDesc x)) hbi
  have hnew := @addDescriptor_new v x bi (v.descAt x (v.lastDesc x)) (hfresh 0 (zero_le _))
    (hfresh _ (le_refl _))
  have hstate : (v.addDescriptor x (v.descAt x (v.lastDesc x)) bi).inodeScale = v.inodeScale ∧
      (v.addDescriptor x (v.descAt x (v.lastDesc x)) bi).used = v.used := ⟨rfl, rfl⟩
  generalize v.addDescriptor x (v.descAt x (v.lastDesc x)) bi = v' at *
  obtain ⟨hscale, hused'⟩ := hstate
  have hplace : ∀ bi, v'.zonePlace bi = v.zonePlace bi := fun bi => by rw [zonePlace, zonePlace, hscale]
  have hdescAt : ∀ d ≤ v.lastDesc x, v'.descAt x d = v.descAt x d := descAt_congr hscale hnext
  have hlastAt : v'.descAt x (v.lastDesc x + 1) = v.zonePlace bi := by
    rw [descAt, hdescAt _ (Nat.le_refl _), hlink, hplace]
  have hlastDesc : v'.lastDesc x = v.lastDesc x + 1 := by rw [lastDesc, hnd, Nat.add_sub_cancel, hdesc]
  have hentryNew : v'.entry x (v.entries x) = bi := by
    rw [entry, hdesc, hlastAt, hnew, hfix]
    exact (newDescriptor_fields _ _ hbi).1
  have hentry : ∀ j < v.entries x, v'.entry x j = v.entry x j := by
    intro j hj
    have hle := descIndex_le hj
    have hlt := pfsFixIndex_lt j
    rw [entry, hdescAt _ hle]
    refine hinfo _ hle (by omega) (by omega) fun hx => ?_
    have hinode := pfsFixIndex_lt_of_inode (h.separate.eq_zero hle hx)
    omega
  have hentryAll : ∀ i < v'.entries x, i < v.entries x ∧ v'.entry x i = v.entry x i ∨
      i = v.entries x ∧ v'.entry x i = bi := by
    intro i hi
    rw [hnd] at hi
    rcases lt_or_eq_of_le (le_of_lt_succ hi) with hlt | rfl
    · exact .inl ⟨hlt, hentry i hlt⟩
    · exact .inr ⟨rfl, hentryNew⟩
  refine ⟨⟨⟨hnd ▸ le_add_left 1 _, fun i hi hi' => ?_, fun d hd => ?_, ?_, ?_⟩, ?_, ?_, fun i hi => ?_,
    fun i hi hi' => ?_, hused' ▸ h.reserved, fun sub hsub => hscale.symm ▸ h.small sub hsub⟩, hnd, hnb, ?_⟩
  · rcases hentryAll i hi with ⟨hlt, heq⟩ | ⟨rfl, heq⟩
    · rw [heq, hplace, hdescAt _ (descIndex_le hlt)]
      exact h.own i hlt hi'
    · rw [heq, hplace, hdesc, hlastAt]
      exact ⟨hcount, rfl⟩
  · rw [hlastDesc] at hd
    rcases lt_or_eq_of_le (le_of_lt_succ hd) with hlt | rfl
    · rw [hdescAt d (le_of_lt hlt), hnext d hlt]
      exact h.linked d hlt
    · rw [hdescAt _ (le_refl _), hlink]
      exact hnumber
  · rw [hlastDesc, hlastAt, hnew]
    exact (newDescriptor_fields _ _ hbi).2
  · rw [hnb, hnd, before, hentryNew, hcount, h.blocks]
    exact congrArg (· + 1) (before_congr fun i hi => congrArg BlockInfo.count (hentry i hi)).symm
  · rw [hns, hlastDesc, h.segdesg]
  · rw [hls, hlastDesc, hlastAt, hplace]
  · rcases hentryAll i hi with ⟨hlt, heq⟩ | ⟨-, heq⟩
    · rw [heq]
      exact h.placed i hlt
    · rw [heq]
      exact hplaced
  · rcases hentryAll i hi with ⟨hlt, heq⟩ | ⟨-, heq⟩
    · rw [heq, hused']
      exact h.marked i hlt hi'
    · rw [heq, hused']
      exact hused
  · rw [hdesc, hlastAt]

end Descriptor

end Ps2sdk.Pfs
