import Ps2sdk.Pfs.Position
import Ps2sdk.Pfs.ZoneAccounting

/-!
# Truncating a file

`pfsFreeZones` of `dir.c` looks for the entry in which the zones of the file end, cuts that entry, and
releases the entries behind. The cut takes the zones that should stay away from the count of the entry, so the
entry keeps as many zones as should have been released. This is right exactly if the file ends behind an entry
or in the middle of one.
-/

namespace Ps2sdk.Pfs

open Lib List Nat Vol Bool

/-- Where the loop of `pfsFreeZones` has ended. -/
structure Cut where
  vol : Vol
  clink : Place
  i : ℕ
  nextsegdesc : ℕ
  b : BlockInfo

namespace Vol

/-- The loop of `pfsFreeZones` over the entries that stay; `rest` entries are left up to the limit. -/
def cutLoop (v : Vol) : ℕ → Place → ℕ → ℕ → ℕ → Option Cut
  | 0, clink, i, _, nextsegdesc => some ⟨v, clink, i, nextsegdesc, ⟨0, 0, 0⟩⟩
  | _ + 1, clink, i, 0, nextsegdesc => some ⟨v, clink, i, nextsegdesc, ⟨0, 0, 0⟩⟩
  | rest + 1, clink, i, j + 1, nextsegdesc =>
    if pfsFixIndex i = 0 then
      (v.pfsBlockGetNextSegment clink).bind fun next => cutLoop v rest next (i + 1) (j + 1) (nextsegdesc + 1)
    else
      let bi := data (v.block clink) (pfsFixIndex i)
      if j + 1 < bi.count then
        -- `j` is 0 behind this, so the loop ends at the next entry
        let count := bi.count - (j + 1)
        some ⟨v.setBlock clink (writeInfo (v.block clink) (10 + 2 * pfsFixIndex i) { bi with count := count }),
          clink, i + 1, nextsegdesc, ⟨(bi.number + count) % 2 ^ 32, bi.subpart, j + 1⟩⟩
      else cutLoop v rest clink (i + 1) (j + 1 - bi.count) nextsegdesc

/-- The loop of `pfsFreeZones` over the entries behind. -/
def freeRest (v : Vol) : ℕ → Place → ℕ → Vol
  | 0, _, _ => v
  | rest + 1, clink, i =>
    if pfsFixIndex i = 0 then
      match v.pfsBlockGetNextSegment clink with
      | none => v
      | some next =>
        freeRest (v.pfsBitmapFreeBlockSegment (data (v.block next) (pfsFixIndex i))) rest next (i + 1)
    else freeRest (v.pfsBitmapFreeBlockSegment (data (v.block clink) (pfsFixIndex i))) rest clink (i + 1)

end Vol

/-- Store the counts of an inode and its last segment. -/
def setCounts (b : MetaBlock) (numberData numberBlocks numberSegdesg : ℕ) (lastSegment : BlockInfo) : MetaBlock :=
  writeInfo (setWord (setWord (setWord b 249 numberData) 248 numberBlocks) 250 numberSegdesg) 6 lastSegment

variable (v : Vol) (x : Place)

/-- The number of zones of a file, as `pfsFreeZones` computes it. -/
def Vol.fileZones : ℕ :=
  let zones := size (v.block x) / v.zsize % 2 ^ 32
  if size (v.block x) % v.zsize ≠ 0 then (zones + 1) % 2 ^ 32 else zones

/-- The rest of `pfsFreeZones`, from where its first loop has ended. -/
def Cut.finish (cut : Cut) (x : Place) (zones limit : ℕ) : Vol :=
  let v := cut.vol.setBlock x (setCounts (cut.vol.block x) cut.i ((zones + cut.nextsegdesc) % 2 ^ 32)
    cut.nextsegdesc (data (cut.vol.block cut.clink) 0))
  let v := if cut.b.number ≠ 0 then v.pfsBitmapFreeBlockSegment cut.b else v
  v.freeRest (limit - cut.i) cut.clink cut.i

/-- `pfsFreeZones`: release what lies behind the zones of the file. -/
def Vol.pfsFreeZones : Vol :=
  let inode := v.block x
  let limit := numberData inode
  let zones := v.fileZones x
  if (numberSegdesg inode + zones) % 2 ^ 32 = numberBlocks inode then v
  else
    match v.cutLoop (limit - 1) x 1 zones 1 with
    | none => v
    | some cut => cut.finish x zones limit

/-- The run behind the zones that an entry keeps. -/
def BlockInfo.behind (bi : BlockInfo) (kept : ℕ) : BlockInfo := ⟨bi.number + kept, bi.subpart, bi.count - kept⟩

/-- The first loop has ended behind an entry, of which some zones are kept. -/
structure CutAt (last kept : ℕ) (cut : Cut) : Prop where
  vol : cut.vol = v.setEntry x last { v.entry x last with count := kept }
  clink : cut.clink = v.descAt x (descIndex last)
  i : cut.i = last + 1
  nextsegdesc : cut.nextsegdesc = descIndex last + 1
  b : cut.b = ⟨0, 0, 0⟩ ∧ kept = (v.entry x last).count ∨ cut.b = (v.entry x last).behind kept ∧ cut.b.number ≠ 0

/-- Where the first loop ends: behind the last zone of the file, or in the entry that has it, with the zones of the
file taken away from it. -/
structure CutFor (zones last kept : ℕ) : Prop where
  inside : last < v.entries x
  whole : before (v.dataSize x) (last + 1) = zones → kept = (v.entry x last).count
  part : before (v.dataSize x) (last + 1) ≠ zones → pfsFixIndex last ≠ 0 ∧
    before (v.dataSize x) last < zones ∧ zones < before (v.dataSize x) last + (v.entry x last).count ∧
    kept = (v.entry x last).count - (zones - before (v.dataSize x) last)

section Loops

variable {v : Vol} {x : Place}

theorem Chain.next_eq (h : Chain v x) {i : ℕ} (hi : i + 1 < v.entries x) (hfix : pfsFixIndex (i + 1) = 0) :
    v.pfsBlockGetNextSegment (v.descAt x (descIndex i)) = some (v.descAt x (descIndex (i + 1))) := by
  rw [pfsBlockGetNextSegment, if_pos (h.next_ne_zero hi hfix), descIndex_succ, if_pos hfix, descAt]

/-- The first loop of `pfsFreeZones` ends where the zones of the file do. -/
theorem cutLoop_spec (h : ApartChain v x) {zones : ℕ} (hzones : zones < v.capacity x) (rest : ℕ) :
    ∀ last j, last + 1 + rest = v.entries x → before (v.dataSize x) (last + 1) + j = zones →
      ∃ cut last' kept, v.cutLoop rest (v.descAt x (descIndex last)) (last + 1) j (descIndex last + 1) = some cut ∧
        CutAt v x last' kept cut ∧ CutFor v x zones last' kept := by
  induction rest with
  | zero =>
    intro last j hrest hj
    rw [capacity, ← hrest, add_zero] at hzones
    omega
  | succ rest ih =>
    intro last j hrest hj
    cases j with
    | zero =>
      refine ⟨_, last, (v.entry x last).count, rfl, ⟨?_, rfl, rfl, rfl, .inl ⟨rfl, rfl⟩⟩,
        ⟨by omega, fun _ => rfl, fun hne => absurd hj hne⟩⟩
      exact (v.setEntry_entry x last).symm
    | succ j =>
      rw [cutLoop]
      by_cases hfix : pfsFixIndex (last + 1) = 0
      · rw [if_pos hfix, h.toChain.next_eq (by omega) hfix, Option.bind_some]
        have hdesc := descIndex_succ last
        rw [if_pos hfix] at hdesc
        rw [← hdesc]
        refine ih (last + 1) (j + 1) (by omega) ?_
        rw [before, dataSize_of_eq hfix]
        exact hj
      · have hdesc := descIndex_succ last
        rw [if_neg hfix] at hdesc
        have hentry : data (v.block (v.descAt x (descIndex last))) (pfsFixIndex (last + 1)) =
          v.entry x (last + 1) := by
          rw [← hdesc, entry]
        rw [if_neg hfix, hentry]
        by_cases hlt : j + 1 < (v.entry x (last + 1)).count
        · have hnumbered := h.numbered (last + 1) (by omega)
          have hsucc : before (v.dataSize x) (last + 1 + 1) =
              before (v.dataSize x) (last + 1) + (v.entry x (last + 1)).count := by
            rw [before, dataSize_of_ne hfix]
          have hword : (v.entry x (last + 1)).number + ((v.entry x (last + 1)).count - (j + 1)) < 2 ^ 32 := by omega
          have hbehind : (v.entry x (last + 1)).count - ((v.entry x (last + 1)).count - (j + 1)) = j + 1 := by omega
          dsimp only
          rw [if_pos hlt, mod_eq_of_lt hword]
          refine ⟨_, last + 1, (v.entry x (last + 1)).count - (j + 1), rfl,
            ⟨?_, ?_, rfl, ?_, .inr ⟨?_, ?_⟩⟩, ⟨by omega, ?_, ?_⟩⟩
          · rw [setEntry, hdesc]
          · exact congrArg _ hdesc.symm
          · exact congrArg (· + 1) hdesc.symm
          · rw [BlockInfo.behind, hbehind]
          · show (v.entry x (last + 1)).number + ((v.entry x (last + 1)).count - (j + 1)) ≠ 0
            omega
          · intro heq
            omega
          · intro _
            refine ⟨hfix, by omega, by omega, by omega⟩
        · dsimp only
          rw [if_neg hlt, ← hdesc]
          refine ih (last + 1) _ (by omega) ?_
          rw [before, dataSize_of_ne hfix]
          omega

/-- The second loop releases the entries behind. -/
theorem freeRest_eq (h : Chain v x) (rest : ℕ) {u : Vol} {last : ℕ} (hrest : last + 1 + rest = v.entries x)
    (hscale : u.inodeScale = v.inodeScale)
    (hnext : ∀ d ≤ v.lastDesc x, nextSegment (u.block (v.descAt x d)) = nextSegment (v.block (v.descAt x d)))
    (hdata : ∀ j, last < j → j < v.entries x →
      data (u.block (v.descAt x (descIndex j))) (pfsFixIndex j) = v.entry x j) :
    u.freeRest rest (v.descAt x (descIndex last)) (last + 1) =
      u.freeAll ((range' (last + 1) rest).map (v.entry x)) := by
  induction rest generalizing u last with
  | zero => rfl
  | succ rest ih =>
    have hentry := hdata (last + 1) (lt_succ_self last) (by omega)
    have hih := @ih (u.pfsBitmapFreeBlockSegment (v.entry x (last + 1))) (last + 1) (by omega) hscale hnext
      (fun j hj hjn => hdata j (by omega) hjn)
    rw [freeRest, range'_succ, map_cons]
    by_cases hfix : pfsFixIndex (last + 1) = 0
    · have hle : descIndex last ≤ v.lastDesc x := descIndex_le (by omega)
      have hget : u.pfsBlockGetNextSegment (v.descAt x (descIndex last)) =
          some (v.descAt x (descIndex (last + 1))) := by
        rw [← h.next_eq (by omega) hfix, pfsBlockGetNextSegment, pfsBlockGetNextSegment, hnext _ hle,
          zonePlace, zonePlace, hscale]
      rw [if_pos hfix, hget]
      dsimp only
      rw [hentry, hih]
      rfl
    · have hdesc := descIndex_succ last
      rw [if_neg hfix] at hdesc
      rw [if_neg hfix, ← hdesc, hentry, hih]
      rfl

end Loops

section Counts

variable {b : MetaBlock} {nd nb ns : ℕ} {bi : BlockInfo}

theorem readInfo_setCounts {w : ℕ} (hw : w + 1 < 6 ∨ 7 < w ∧ w + 1 < 248) :
    readInfo (setCounts b nd nb ns bi) w = readInfo b w := by
  rw [setCounts, readInfo_writeInfo_of_ne _ _ (by omega),
    readInfo_setWord_of_ne _ _ (by omega),
    readInfo_setWord_of_ne _ _ (by omega),
    readInfo_setWord_of_ne _ _ (by omega)]

theorem setCounts_counts (hnd : nd < 2 ^ 32) (hnb : nb < 2 ^ 32) :
    numberData (setCounts b nd nb ns bi) = nd ∧ numberBlocks (setCounts b nd nb ns bi) = nb := by
  unfold numberData numberBlocks setCounts
  constructor
  · rw [word_writeInfo_of_ne _ _ (by decide),
      word_setWord_of_ne _ _ (by decide),
      word_setWord_of_ne _ _ (by decide), word_setWord_self _ _ hnd]
  · rw [word_writeInfo_of_ne _ _ (by decide),
      word_setWord_of_ne _ _ (by decide), word_setWord_self _ _ hnb]

end Counts

section Finish

variable {v : Vol} {x : Place} {zones last kept : ℕ} {cut : Cut}

/-- A truncated inode: the entries up to one are left, some zones of that one are kept, and the zones behind are
cleared. -/
structure Kept (v : Vol) (x : Place) (zones last kept : ℕ) (v' : Vol) : Prop where
  entries : v'.entries x = last + 1
  entry : ∀ j ≤ last, v'.entry x j = if j = last then { v.entry x last with count := kept } else v.entry x j
  blocks : numberBlocks (v'.block x) = zones + (descIndex last + 1)
  used : ∀ sub p, v'.used sub p = (v.used sub p && !(((v.entry x last).behind kept).covers sub p ||
    ((List.range' (last + 1) (v.entries x - (last + 1))).map (v.entry x)).any (·.covers sub p)))

theorem BlockInfo.behind_all (bi : BlockInfo) (sub p : ℕ) : (bi.behind bi.count).covers sub p = false := by
  rw [BlockInfo.covers, decide_eq_false_iff_not]
  intro hboth
  have hlt : p < bi.number + bi.count + (bi.count - bi.count) := hboth.2.2
  have hle : bi.number + bi.count ≤ p := hboth.2.1
  omega

theorem CutAt.release_used (h : CutAt v x last kept cut) (u : Vol) (sub p : ℕ) :
    (if cut.b.number ≠ 0 then u.pfsBitmapFreeBlockSegment cut.b else u).used sub p =
      (u.used sub p && !((v.entry x last).behind kept).covers sub p) := by
  rcases h.b with ⟨hb, rfl⟩ | ⟨hb, hnumber⟩
  · rw [if_neg (by rw [hb]; decide), BlockInfo.behind_all, Bool.not_false, Bool.and_true]
  · rw [if_pos hnumber, hb]
    show (if _ then false else _) = _
    cases ((v.entry x last).behind kept).covers sub p <;> simp

theorem Cut.release_block (cut : Cut) (u : Vol) :
    (if cut.b.number ≠ 0 then u.pfsBitmapFreeBlockSegment cut.b else u).block = u.block ∧
      (if cut.b.number ≠ 0 then u.pfsBitmapFreeBlockSegment cut.b else u).inodeScale = u.inodeScale := by
  split <;> exact ⟨rfl, rfl⟩

/-- The volume after the entry has been cut and the counts have been stored. -/
def Vol.cutInode (v : Vol) (x : Place) (zones last kept : ℕ) (lastSegment : BlockInfo) : Vol :=
  let w := v.setEntry x last { v.entry x last with count := kept }
  w.setBlock x (setCounts (w.block x) (last + 1) ((zones + (descIndex last + 1)) % 2 ^ 32) (descIndex last + 1)
    lastSegment)

section CutInode

variable {lastSegment : BlockInfo}

theorem Vol.cutInode_next (v : Vol) (x : Place) (zones last kept : ℕ) (lastSegment : BlockInfo) (p : Place) :
    nextSegment ((v.cutInode x zones last kept lastSegment).block p) = nextSegment (v.block p) := by
  rw [cutInode]
  by_cases hp : p = x
  · rw [hp, setBlock_self, nextSegment, readInfo_setCounts (by omega), v.setEntry_head x _ _ _ (by omega)]
    rfl
  · rw [setBlock_of_ne _ _ hp, nextSegment, v.setEntry_head x _ _ _ (by omega)]
    rfl

theorem Vol.cutInode_descAt (v : Vol) (x : Place) (zones last kept : ℕ) (lastSegment : BlockInfo) (d : ℕ) :
    (v.cutInode x zones last kept lastSegment).descAt x d = v.descAt x d :=
  @descAt_congr v (v.cutInode x zones last kept lastSegment) x rfl d
    (fun _ _ => v.cutInode_next x zones last kept lastSegment _) d (le_refl d)

/-- The entry is cut, the others stay. -/
theorem Chain.cutInode_entry (h : Chain v x) (zones : ℕ) (lastSegment : BlockInfo) (hlast : last < v.entries x)
    (hkept : kept ≤ (v.entry x last).count) {j : ℕ} (hj : j < v.entries x) :
    (v.cutInode x zones last kept lastSegment).entry x j =
      if j = last then { v.entry x last with count := kept } else v.entry x j := by
  have hfits := readInfo_fits (v.block (v.descAt x (descIndex last))) (10 + 2 * pfsFixIndex last)
  have hbi : BlockInfo.Fits { v.entry x last with count := kept } :=
    ⟨hfits.number, hfits.subpart, lt_of_le_of_lt hkept hfits.count⟩
  rw [← h.separate.setEntry_entry (descIndex_le hlast) _ hbi (descIndex_le hj), cutInode]
  refine setInode_entry ?_ (fun i hi => ?_) (h.separate.congr fun d _ => v.setEntry_descAt x _ _ d)
    (descIndex_le hj)
  · exact readInfo_setCounts (by omega)
  · exact readInfo_setCounts (by omega)

theorem Vol.cutInode_counts (hlast : last + 1 < 2 ^ 32) (hzones : zones + (descIndex last + 1) < 2 ^ 32) :
    (v.cutInode x zones last kept lastSegment).entries x = last + 1 ∧
      numberBlocks ((v.cutInode x zones last kept lastSegment).block x) = zones + (descIndex last + 1) := by
  rw [entries, cutInode]
  rw [setBlock_self, mod_eq_of_lt hzones]
  exact setCounts_counts hlast hzones

end CutInode

/-- What `pfsFreeZones` leaves of an inode. -/
theorem CutAt.finish_kept (h : Chain v x) (hcut : CutAt v x last kept cut) (hlast : last < v.entries x)
    (hkept : kept ≤ (v.entry x last).count) (hzones : zones + (descIndex last + 1) < 2 ^ 32) :
    Kept v x zones last kept (cut.finish x zones (v.entries x)) := by
  have hword : v.entries x < 2 ^ 32 := word_lt _ _
  obtain ⟨lastSegment, hstate⟩ : ∃ lastSegment, cut.vol.setBlock x (setCounts (cut.vol.block x) cut.i
      ((zones + cut.nextsegdesc) % 2 ^ 32) cut.nextsegdesc (data (cut.vol.block cut.clink) 0)) =
      v.cutInode x zones last kept lastSegment := by
    rw [hcut.vol, hcut.i, hcut.nextsegdesc]
    exact ⟨_, rfl⟩
  have hentry := @Chain.cutInode_entry v x last kept h zones lastSegment hlast hkept
  have hcounts := @cutInode_counts v x zones last kept lastSegment (by omega) hzones
  have hnext := v.cutInode_next x zones last kept lastSegment
  have hdesc := v.cutInode_descAt x zones last kept lastSegment
  have hscale' : (v.cutInode x zones last kept lastSegment).inodeScale = v.inodeScale := rfl
  have hused' : (v.cutInode x zones last kept lastSegment).used = v.used := rfl
  rw [Cut.finish, hstate, hcut.clink, hcut.i]
  generalize v.cutInode x zones last kept lastSegment = u at *
  have hused := hcut.release_used u
  obtain ⟨hblock, hscale⟩ := cut.release_block u
  generalize (if cut.b.number ≠ 0 then u.pfsBitmapFreeBlockSegment cut.b else u) = u' at *
  have hrest := @freeRest_eq v x h (v.entries x - (last + 1)) u' last (by omega) (hscale.trans hscale')
    (fun d _ => by rw [hblock, hnext]) fun j hj hjn => by
      rw [hblock, ← hdesc, ← entry, hentry hjn, if_neg (ne_of_gt hj)]
  rw [hrest]
  obtain ⟨hblockAll, hscaleAll⟩ := u'.freeAll_block ((range' (last + 1) (v.entries x - (last + 1))).map (v.entry x))
  refine ⟨?_, fun j hj => ?_, ?_, fun sub p => ?_⟩
  · rw [entries, hblockAll, hblock]
    exact hcounts.1
  · rw [← hentry (by omega)]
    exact entry_congr (hblockAll.trans hblock) (hscaleAll.trans hscale) j
  · rw [hblockAll, hblock]
    exact hcounts.2
  · rw [freeAll_used, hused, hused', Bool.and_assoc, Bool.not_or]

end Finish

variable {v v' : Vol} {x : Place} {zones last kept : ℕ}

/-- An inode has a zone. -/
def Vol.Holds (v : Vol) (x : Place) (sub p : ℕ) : Prop := ∃ i < v.entries x, (v.entry x i).covers sub p = true

/-- A truncation keeps the first zones of the data, counts the zones that are left, and clears exactly the zones
that the inode has no more. -/
structure Vol.Truncates (v : Vol) (x : Place) (zones : ℕ) (v' : Vol) : Prop where
  zones : v'.dataZones x = (v.dataZones x).take zones
  blocks : numberBlocks (v'.block x) = before (fun i => (v'.entry x i).count) (v'.entries x)
  cleared : ∀ sub p, v'.used sub p = true ↔ v.used sub p = true ∧ ¬ (v.Holds x sub p ∧ ¬ v'.Holds x sub p)

/-- The data zones that a truncated inode has: those of the entries before, and the ones kept. -/
theorem Kept.dataZones_eq (h : Kept v x zones last kept v') (hlast : last < v.entries x)
    (hkept : kept ≤ (v.entry x last).count) : v'.dataZones x =
      (v.dataZones x).take (before (v.dataSize x) last + if pfsFixIndex last = 0 then 0 else kept) := by
  have hsize : v'.dataSize x last = if pfsFixIndex last = 0 then 0 else kept := by
    rw [dataSize, h.entry last (Nat.le_refl _), if_pos rfl]
  have hsame : ∀ i < last, v'.entry x i = v.entry x i := fun i hi => by
    rw [h.entry i (Nat.le_of_lt hi), if_neg (Nat.ne_of_lt hi)]
  have hle : (if pfsFixIndex last = 0 then 0 else kept) ≤ v.dataSize x last := by
    unfold dataSize
    split
    · exact le_refl _
    · exact hkept
  rw [dataZones, dataZones, concat_take _ hlast hle, h.entries, concat_succ, hsize]
  refine congrArg₂ _ (concat_congr (fun i hi => ?_) fun i hi off _ => ?_) (map_congr_left fun off _ => ?_)
  · rw [dataSize, dataSize, hsame i hi]
  · rw [zoneOf, zoneOf, hsame i hi]
  · rw [zoneOf, zoneOf, h.entry last (le_refl _), if_pos rfl]

theorem ApartChain.covers_unique (h : ApartChain v x) {i j sub p : ℕ} (hi : i < v.entries x) (hj : j < v.entries x)
    (hci : (v.entry x i).covers sub p = true) (hcj : (v.entry x j).covers sub p = true) : i = j := by
  rw [BlockInfo.covers, decide_eq_true_eq] at hci hcj
  refine h.apart i hi j hj (p - (v.entry x i).number) (by omega) (p - (v.entry x j).number) (by omega) ?_
  rw [zoneOf, zoneOf, Nat.add_sub_cancel' hci.2.1, Nat.add_sub_cancel' hcj.2.1, ← hci.1, ← hcj.1]

/-- What is cleared is what the inode has no more. -/
theorem Kept.cleared (h : Kept v x zones last kept v') (hchain : ApartChain v x) (hlast : last < v.entries x)
    (hkept : kept ≤ (v.entry x last).count) (sub p : ℕ) : (((v.entry x last).behind kept).covers sub p ||
        ((range' (last + 1) (v.entries x - (last + 1))).map (v.entry x)).any (·.covers sub p)) = true ↔
      v.Holds x sub p ∧ ¬ v'.Holds x sub p := by
  have hbehind : ((v.entry x last).behind kept).covers sub p = true ↔
      sub = (v.entry x last).subpart ∧ (v.entry x last).number + kept ≤ p ∧
        p < (v.entry x last).number + kept + ((v.entry x last).count - kept) := by
    rw [BlockInfo.covers, decide_eq_true_eq]
    rfl
  have hheld : ∀ j ≤ last, (v'.entry x j).covers sub p = true → (v.entry x j).covers sub p = true ∧
      (j = last → p < (v.entry x last).number + kept) := by
    intro j hj hcovers
    rw [h.entry j hj] at hcovers
    split at hcovers
    · next heq =>
      subst heq
      rw [BlockInfo.covers, decide_eq_true_eq] at hcovers ⊢
      obtain ⟨hsub, hlow, hhigh⟩ := hcovers
      simp only at hsub hlow hhigh
      exact ⟨⟨hsub, hlow, by omega⟩, fun _ => hhigh⟩
    · next hne => exact ⟨hcovers, fun heq => absurd heq hne⟩
  rw [Bool.or_eq_true, any_map, any_eq_true]
  constructor
  · rintro (hcovers | ⟨i, hi, hcovers⟩)
    · rw [hbehind] at hcovers
      have hlastCovers : (v.entry x last).covers sub p = true := by
        rw [BlockInfo.covers, decide_eq_true_eq]
        omega
      refine ⟨⟨last, hlast, hlastCovers⟩, ?_⟩
      rintro ⟨j, hj, hcoversj⟩
      rw [h.entries] at hj
      obtain ⟨hold, hbound⟩ := hheld j (by omega) hcoversj
      have heq := hchain.covers_unique (show j < v.entries x by omega) hlast hold hlastCovers
      omega
    · rw [mem_range'_1] at hi
      refine ⟨⟨i, by omega, hcovers⟩, ?_⟩
      rintro ⟨j, hj, hcoversj⟩
      rw [h.entries] at hj
      have heq := hchain.covers_unique (show j < v.entries x by omega) (show i < v.entries x by omega)
        (hheld j (by omega) hcoversj).1 hcovers
      omega
  · rintro ⟨⟨i, hi, hcovers⟩, hnot⟩
    rcases lt_trichotomy i last with hlt | rfl | hgt
    · refine absurd ⟨i, by rw [h.entries]; omega, ?_⟩ hnot
      rw [h.entry i (Nat.le_of_lt hlt), if_neg (Nat.ne_of_lt hlt)]
      exact hcovers
    · left
      rw [hbehind]
      have hcut : ¬ ({ v.entry x i with count := kept } : BlockInfo).covers sub p = true := by
        intro hcut
        refine hnot ⟨i, by rw [h.entries]; omega, ?_⟩
        rw [h.entry i (le_refl i), if_pos rfl]
        exact hcut
      rw [BlockInfo.covers, decide_eq_true_eq] at hcovers hcut
      simp only at hcut
      omega
    · right
      exact ⟨i, mem_range'_1.mpr (by omega), hcovers⟩

/-- A truncated inode is right exactly if the zones of the file are kept. -/
theorem Kept.truncates_iff (h : Kept v x zones last kept v') (hchain : ApartChain v x) (hlast : last < v.entries x)
    (hkept : kept ≤ (v.entry x last).count) (hown : pfsFixIndex last = 0 → kept = 1)
    (hzones : zones ≤ v.capacity x) : v.Truncates x zones v' ↔
      before (v.dataSize x) last + (if pfsFixIndex last = 0 then 0 else kept) = zones := by
  have hdata := h.dataZones_eq hlast hkept
  have hle : before (v.dataSize x) last + (if pfsFixIndex last = 0 then 0 else kept) ≤ v.capacity x := by
    have hnext := before_add_size_le (v.dataSize x) hlast
    rw [← capacity] at hnext
    by_cases hfix : pfsFixIndex last = 0
    · rw [if_pos hfix]
      omega
    · rw [dataSize_of_ne hfix] at hnext
      rw [if_neg hfix]
      omega
  constructor
  · rintro ⟨hfirst, -, -⟩
    have hlength := congrArg length (hdata.symm.trans hfirst)
    rw [length_take, length_take, dataZones_length] at hlength
    omega
  · intro heq
    refine ⟨heq ▸ hdata, ?_, fun sub p => ?_⟩
    · have hcount : ∀ i ≤ last, pfsFixIndex i = 0 → (v'.entry x i).count = 1 := by
        intro i hi hfix
        rw [h.entry i hi]
        split
        · next hi' => exact hown (hi' ▸ hfix)
        · exact (hchain.own i (by omega) hfix).1
      rw [h.entries, h.blocks, before_count_eq _ last hcount]
      show zones + _ = before (v'.dataSize x) (last + 1) + _
      rw [← h.entries, ← capacity, ← dataZones_length, hdata, heq, length_take, dataZones_length,
        min_eq_left hzones]
    · rw [← h.cleared hchain hlast hkept, h.used]
      simp

theorem Vol.truncates_all (hblocks : numberBlocks (v.block x) = before (fun i => (v.entry x i).count)
    (v.entries x)) : v.Truncates x (v.capacity x) v where
  zones := by rw [← dataZones_length, take_length]
  blocks := hblocks
  cleared _ _ := ⟨fun hused => ⟨hused, fun hboth => hboth.2 hboth.1⟩, fun hboth => hboth.1⟩

/-- The number of zones of a file. -/
theorem Chain.fileZones_eq (h : Chain v x) : v.fileZones x = (size (v.block x) + v.zsize - 1) / v.zsize := by
  have hbounds := v.zsize_bounds
  have hpos : 0 < v.zsize := by omega
  have hdiv : size (v.block x) / v.zsize ≤ v.capacity x := Nat.div_le_of_le_mul (by rw [Nat.mul_comm]; exact h.fits)
  have hcap := h.capacity_lt
  have hsum := Nat.div_add_mod (size (v.block x)) v.zsize
  have hmod := Nat.mod_lt (size (v.block x)) hpos
  unfold fileZones
  rw [mod_eq_of_lt (show size (v.block x) / v.zsize < 2 ^ 32 by omega)]
  generalize size (v.block x) / v.zsize = q at *
  generalize size (v.block x) % v.zsize = r at *
  rw [← hsum]
  by_cases hr : r = 0
  · rw [if_neg (not_not.mpr hr), hr, Nat.add_zero, Nat.add_sub_assoc hpos, Nat.mul_add_div hpos,
      Nat.div_eq_of_lt (by omega), Nat.add_zero]
  · rw [if_pos hr, Nat.mod_eq_of_lt (by omega), Nat.add_assoc, Nat.add_sub_assoc (by omega), Nat.mul_add_div hpos,
      show r + v.zsize - 1 = (r - 1) + v.zsize by omega, Nat.add_div_right _ hpos, Nat.div_eq_of_lt (by omega)]

theorem Chain.fileZones_le (h : Chain v x) : (size (v.block x) + v.zsize - 1) / v.zsize ≤ v.capacity x := by
  have hbounds := v.zsize_bounds
  refine Nat.le_of_lt_succ (Nat.div_lt_of_lt_mul ?_)
  have hfits := h.fits
  rw [Nat.mul_succ, Nat.mul_comm]
  omega

/-- The cut is right where it falls behind an entry, or takes half of one. -/
theorem CutFor.right_iff (h : CutFor v x zones last kept) :
    before (v.dataSize x) last + (if pfsFixIndex last = 0 then 0 else kept) = zones ↔
      ∀ k < v.entries x, pfsFixIndex k ≠ 0 → before (v.dataSize x) k < zones →
        zones < before (v.dataSize x) k + (v.entry x k).count →
        2 * (zones - before (v.dataSize x) k) = (v.entry x k).count := by
  have honly : ∀ k, pfsFixIndex k ≠ 0 → before (v.dataSize x) k < zones →
      zones < before (v.dataSize x) k + (v.entry x k).count → before (v.dataSize x) last ≤ zones →
      zones ≤ before (v.dataSize x) (last + 1) → k = last := by
    intro k hfix hlow hhigh hle hge
    have hsize := @dataSize_of_ne v x k hfix
    rcases lt_trichotomy k last with hlt | heq | hgt
    · have hnext := before_add_size_le (v.dataSize x) hlt
      omega
    · exact heq
    · have hnext := @before_mono (v.dataSize x) _ _ (show last + 1 ≤ k from hgt)
      omega
  have hstep : before (v.dataSize x) (last + 1) = before (v.dataSize x) last + v.dataSize x last := rfl
  by_cases hend : before (v.dataSize x) (last + 1) = zones
  · have hkept := h.whole hend
    have hleft : before (v.dataSize x) last + (if pfsFixIndex last = 0 then 0 else kept) = zones := by
      rw [← hend, hstep, dataSize, hkept]
    refine iff_of_true hleft fun k hk hfix hlow hhigh => ?_
    have heq := honly k hfix hlow hhigh (by omega) (by omega)
    rw [heq] at hhigh hfix
    rw [dataSize_of_ne hfix] at hstep
    omega
  · obtain ⟨hfix, hlow, hhigh, hkept⟩ := h.part hend
    rw [dataSize_of_ne hfix] at hstep
    rw [if_neg hfix]
    constructor
    · intro hleft k hk hfixk hlowk hhighk
      have heq := honly k hfixk hlowk hhighk (by omega) (by omega)
      subst heq
      omega
    · intro hall
      have htwice := hall last h.inside hfix hlow hhigh
      omega

/-- A truncation is right exactly if the file ends behind an entry or in the middle of one. -/
theorem pfsFreeZones_truncates_iff (h : ApartChain v x) (hsegdesg : numberSegdesg (v.block x) = v.lastDesc x + 1) :
    v.Truncates x ((size (v.block x) + v.zsize - 1) / v.zsize) (v.pfsFreeZones x) ↔
      ∀ k < v.entries x, pfsFixIndex k ≠ 0 →
        before (v.dataSize x) k < (size (v.block x) + v.zsize - 1) / v.zsize →
        (size (v.block x) + v.zsize - 1) / v.zsize < before (v.dataSize x) k + (v.entry x k).count →
        2 * ((size (v.block x) + v.zsize - 1) / v.zsize - before (v.dataSize x) k) = (v.entry x k).count := by
  have hle := h.toChain.fileZones_le
  have hblocks := h.toChain.numberBlocks_eq
  have hword : numberBlocks (v.block x) < 2 ^ 32 := word_lt _ _
  rw [pfsFreeZones, h.toChain.fileZones_eq, hsegdesg]
  generalize (size (v.block x) + v.zsize - 1) / v.zsize = zones at *
  rw [mod_eq_of_lt (show v.lastDesc x + 1 + zones < 2 ^ 32 by omega)]
  by_cases hall : zones = v.capacity x
  · rw [if_pos (by omega), hall]
    refine iff_of_true (truncates_all h.blocks) fun k hk hfix _ hhigh => ?_
    have hnext := before_add_size_le (v.dataSize x) hk
    rw [← capacity, dataSize_of_ne hfix] at hnext
    omega
  · rw [if_neg (by omega)]
    have hpos := h.nonempty
    obtain ⟨cut, last, kept, hloop, hcut, hfor⟩ := cutLoop_spec h
      (show zones < v.capacity x by omega) (v.entries x - 1) 0
      zones (by omega) (by rw [before, before, dataSize_of_eq rfl]; omega)
    have hloop' : v.cutLoop (numberData (v.block x) - 1) x 1 zones 1 = some cut := hloop
    have hdesc := descIndex_le hfor.inside
    have hkept : kept ≤ (v.entry x last).count := by
      by_cases hend : before (v.dataSize x) (last + 1) = zones
      · exact le_of_eq (hfor.whole hend)
      · obtain ⟨-, -, -, hkept⟩ := hfor.part hend
        omega
    have hown : pfsFixIndex last = 0 → kept = 1 := by
      intro hfix
      by_cases hend : before (v.dataSize x) (last + 1) = zones
      · rw [hfor.whole hend, (h.own last hfor.inside hfix).1]
      · exact absurd hfix (hfor.part hend).1
    have hkeeps := hcut.finish_kept h.toChain hfor.inside hkept (show zones + (descIndex last + 1) < 2 ^ 32 by
      omega)
    rw [hloop']
    exact (hkeeps.truncates_iff h hfor.inside hkept hown hle).trans hfor.right_iff

/-- An inode in zone 10 with data segments of the given lengths. -/
def fileInode (counts : List ℕ) (size : ℕ) : MetaBlock := fun k =>
  if k.val = 6 ∨ k.val = 10 then 10
  else if k.val = 7 ∨ k.val = 11 ∨ k.val = 250 then if k.val = 250 then 1 else 0x10000
  else if 12 ≤ k.val ∧ k.val < 12 + 2 * counts.length then
    if k.val % 2 = 0 then BitVec.ofNat 32 (50 * (k.val - 10)) else BitVec.ofNat 32
      (65536 * counts.getD ((k.val - 13) / 2) 0)
  else if k.val = 246 then BitVec.ofNat 32 size
  else if k.val = 248 then BitVec.ofNat 32 (counts.sum + 1)
  else if k.val = 249 then BitVec.ofNat 32 (counts.length + 1)
  else 0

/-- A volume with zones of 2 KiB and that inode. -/
def fileVol (counts : List ℕ) (size : ℕ) : Vol where
  zsize := 2048
  inodeScale := 1
  block _ := fileInode counts size
  used _ _ := true
  freeZone _ := 0
  zfree := 0
  legal := pfsCheckZoneSize_least
  scale := least_scale

/-- The second segment of a file that ends behind the first is released. -/
theorem pfsFreeZones_truncates_boundary : (fileVol [4, 3] 8192).Truncates ⟨0, 20⟩
    ((size ((fileVol [4, 3] 8192).block ⟨0, 20⟩) + (fileVol [4, 3] 8192).zsize - 1) / (fileVol [4, 3] 8192).zsize)
    ((fileVol [4, 3] 8192).pfsFreeZones ⟨0, 20⟩) :=
  (pfsFreeZones_truncates_iff (by decide +kernel) (by decide +kernel)).mpr (by decide +kernel)

/-- A file of one zone in a segment of four keeps three of them, and the fourth is released. -/
theorem pfsFreeZones_keeps_three : ApartChain (fileVol [4] 2048) ⟨0, 20⟩ ∧
    (fileVol [4] 2048).dataZones ⟨0, 20⟩ = [(0, 100), (0, 101), (0, 102), (0, 103)] ∧
    (fileVol [4] 2048).fileZones ⟨0, 20⟩ = 1 ∧
    ((fileVol [4] 2048).pfsFreeZones ⟨0, 20⟩).dataZones ⟨0, 20⟩ = [(0, 100), (0, 101), (0, 102)] ∧
    numberBlocks (((fileVol [4] 2048).pfsFreeZones ⟨0, 20⟩).block ⟨0, 20⟩) = 2 :=
  ⟨by decide +kernel, by decide +kernel, by decide +kernel, by decide +kernel, by decide +kernel⟩

end Ps2sdk.Pfs
