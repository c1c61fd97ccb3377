import Ps2sdk.Pfs.Grow

/-!
# Growing keeps the chain

What the bitmap routines hand out are clear zones of the volume. Every routine that grows a file keeps its chain in
order and adds as many data zones as it reports; the zones are taken from the clear ones, so that the counts of the
inode do not overflow.
-/

namespace Ps2sdk.Pfs

open Lib Option Nat Vol Mounted Bool Int

variable {n m rounds : ℕ} {parts : Partitions} {st st' : Mounted n} {v v' : Vol} {x : Place} {bi : BlockInfo}

section Zones

variable {driver : Driver n} (h : st.Sound m parts)

include h

theorem Mounted.Sound.store (blocks : Vol) : Mounted.Sound { st with blocks } m parts :=
  ⟨h.volume, h.numSubs, h.zones⟩

omit h in
/-- A search has found zones of the volume: no more than were asked for, some if any were, from a clear zone on. -/
structure Mounted.Finds (st : Mounted n) (m : ℕ) (parts : Partitions) (count : ℕ) (bi : BlockInfo)
    (st' : Mounted n) : Prop where
  sound : st'.Sound m parts
  gives : (st.vol m).Gives parts bi (st'.vol m)
  fits : bi.Fits
  few : bi.count ≤ count
  some : 0 < count → 0 < bi.count
  inside : bi.number < parts.zones bi.subpart
  clear : (st.vol m).used bi.subpart bi.number = false

/-- `pfsBitmapSearchFreeZone` finds zones of the volume. -/
theorem Mounted.Sound.search {want : BlockInfo} (hwant : want.count < 2 ^ 16) {maxCount : ℕ} {r : ℤ}
    (hsearch : pfsBitmapSearchFreeZone rounds st.driver m want maxCount = Option.some (r, bi, driver)) :
    st.Finds m parts want.count bi { st with driver } := by
  obtain ⟨-, ⟨hsub, hinside, hclear⟩, s1, hhands, rfl⟩ := pfsBitmapSearchFreeZone_spec h.volume hsearch
  obtain ⟨hfew, hsome⟩ := pfsBitmapSearchFreeZone_records h.volume hsearch
  rw [h.numSubs] at hsub
  rw [h.zones] at hinside
  obtain ⟨hsound, hgives⟩ := h.handsOut hhands hsub
  have hsubs := parts.numSubs_lt
  have hzones := parts.zones_lt _ hsub
  exact ⟨hsound, hgives, ⟨by omega, by omega, by omega⟩, hfew, hsome, hinside, (h.used hsub hinside).trans hclear⟩

/-- `pfsBitmapAllocateAdditionalZones` extends a run by clear zones behind it, and by some if it can. -/
theorem Mounted.Sound.extend (hsub : bi.subpart ≤ parts.numSubs)
    (hend : bi.number + bi.count ≤ parts.zones bi.subpart) {count ret : ℕ}
    (hextend : pfsBitmapAllocateAdditionalZones st.driver m bi count = (ret, driver)) :
    Mounted.Sound { st with driver } m parts ∧
      (st.vol m).Gives parts ⟨bi.number + bi.count, bi.subpart, ret⟩ (Mounted.vol { st with driver } m) ∧
      ret ≤ min count (65535 - bi.count) ∧
      (0 < min count (65535 - bi.count) → bi.number + bi.count < parts.zones bi.subpart →
        (st.vol m).used bi.subpart (bi.number + bi.count) = false → 0 < ret) := by
  have hmod := mod_eq_of_lt (hend.trans_lt (parts.zones_lt _ hsub))
  obtain ⟨hle, htakes, s1, hhands, hstate⟩ := pfsBitmapAllocateAdditionalZones_spec count h.volume
    (show bi.subpart ≤ (st.driver.mounts m).numSubs from h.numSubs ▸ hsub)
  rw [hextend, hmod] at htakes hhands
  rw [hextend] at hle hstate
  obtain rfl : driver = s1.takeZones m bi.subpart ret := hstate
  obtain ⟨hsound, hgives⟩ := @Mounted.Sound.handsOut _ _ _ _ ⟨bi.number + bi.count, bi.subpart, ret⟩ _ h hhands hsub
  refine ⟨hsound, hgives, hle, fun hpos hinside hclear => htakes hpos ⟨h.numSubs ▸ hsub, h.zones ▸ hinside, ?_⟩⟩
  rw [← h.used hsub hinside, hclear]

end Zones

/-- A file has grown by some data zones: its chain is in order, the zones have been clear, and the descriptors
have taken the others. -/
structure GrowsBy (parts : Partitions) (v : Vol) (x : Place) (gained : ℕ) (v' : Vol) : Prop where
  grown : Grown parts v' x
  capacity : v'.capacity x = v.capacity x + gained
  blocks : numberBlocks (v'.block x) + v'.clearZones parts = numberBlocks (v.block x) + v.clearZones parts

theorem GrowsBy.trans {gained more : ℕ} {v'' : Vol} (h : GrowsBy parts v x gained v')
    (h' : GrowsBy parts v' x more v'') : GrowsBy parts v x (gained + more) v'' :=
  ⟨h'.grown, by rw [h'.capacity, h.capacity, add_assoc], h'.blocks.trans h.blocks⟩

theorem SegmentChain.capacity_of_blocks (h : SegmentChain v x) (h' : SegmentChain v' x) (gained descs : ℕ)
    (hblocks : numberBlocks (v'.block x) = numberBlocks (v.block x) + gained + descs)
    (hdesc : v'.lastDesc x = v.lastDesc x + descs) : v'.capacity x = v.capacity x + gained := by
  have hold := h.numberBlocks_eq
  have hnew := h'.numberBlocks_eq
  omega

theorem Vol.Gives.keeps (hgives : v.Gives parts bi v') (h : Grown parts v x) : Grown parts v' x ∧ v'.block =
    v.block ∧ v'.entries x = v.entries x ∧ v'.lastDesc x = v.lastDesc x ∧ (∀ d, v'.descAt x d = v.descAt x d) ∧
      ∀ i, v'.entry x i = v.entry x i := by
  rw [hgives.state]
  exact ⟨h.takeRun bi, rfl, rfl, rfl, v.takeRun_descAt bi x, v.takeRun_entry bi x⟩

/-- What extending a segment has done: the file has grown by the zones reported, in the entries it has. -/
structure Expanded (m : ℕ) (parts : Partitions) (st : Mounted n) (x : Place) (count : ℕ) (result : ℕ × Mounted n) :
    Prop where
  sound : result.2.Sound m parts
  grows : GrowsBy parts (st.vol m) x result.1 (result.2.vol m)
  entries : (result.2.vol m).entries x = (st.vol m).entries x
  le : result.1 ≤ count
  desc : ∀ d, (result.2.vol m).descAt x d = (st.vol m).descAt x d

/-- The position at the last segment of a file. -/
def Vol.lastPos (v : Vol) (x : Place) : GrowPos := ⟨v.descAt x (v.lastDesc x), v.entries x - 1⟩

theorem Expanded.last {count : ℕ} {result : ℕ × Mounted n} (h : Expanded m parts st x count result) :
    (result.2.vol m).lastDesc x = (st.vol m).lastDesc x ∧ (result.2.vol m).lastPos x = (st.vol m).lastPos x := by
  have hlast : (result.2.vol m).lastDesc x = (st.vol m).lastDesc x := by rw [lastDesc, h.entries, lastDesc]
  exact ⟨hlast, by rw [lastPos, hlast, h.desc, h.entries, lastPos]⟩

/-- The zones reported have been clear. -/
theorem Expanded.clearZones {count : ℕ} {result : ℕ × Mounted n} (h : Expanded m parts st x count result)
    (hold : Grown parts (st.vol m) x) :
    (st.vol m).clearZones parts = (result.2.vol m).clearZones parts + result.1 := by
  have hbefore := hold.numberBlocks_eq
  have hafter := h.grows.grown.numberBlocks_eq
  have hblocks := h.grows.blocks
  have hcapacity := h.grows.capacity
  have hlast := h.last.1
  omega

/-- `pfsBlockExpandSegment` adds zones to a segment. -/
theorem pfsBlockExpandSegment_grows (hs : st.Sound m parts) (h : Grown parts (st.vol m) x)
    (hroom : numberBlocks ((st.vol m).block x) + (st.vol m).clearZones parts < 2 ^ 32)
    {k : ℕ} (hk : k < (st.vol m).entries x) (count : ℕ) :
    Expanded m parts st x count (st.pfsBlockExpandSegment m x ⟨(st.vol m).descAt x (descIndex k), k⟩ count) := by
  rw [pfsBlockExpandSegment]
  by_cases hfix : pfsFixIndex k = 0
  · rw [if_pos hfix]
    exact ⟨hs, ⟨h, rfl, rfl⟩, rfl, zero_le _, fun _ => rfl⟩
  · obtain ⟨hsub, hinside⟩ := h.placed k hk
    have hfits := (readInfo_fits ((st.vol m).block ((st.vol m).descAt x (descIndex k)))
      (10 + 2 * pfsFixIndex k)).count
    change ((st.vol m).entry x k).count < _ at hfits
    rw [if_neg hfix, show st.blocks.entryAt ⟨(st.vol m).descAt x (descIndex k), k⟩ = (st.vol m).entry x k from rfl]
    dsimp only
    generalize hextend : pfsBitmapAllocateAdditionalZones st.driver m ((st.vol m).entry x k) count = result
    obtain ⟨ret, driver⟩ := result
    obtain ⟨hsound, hgives, hle, -⟩ := hs.extend hsub hinside hextend
    have hclear := hgives.clearZones
    obtain ⟨hgrown, hblock, hentries, hlast, hdesc, hentry⟩ := hgives.keeps h
    dsimp only
    by_cases hret : ret = 0
    · rw [if_neg (not_not.mpr hret)]
      refine ⟨hsound, ⟨hgrown, ?_, ?_⟩, hentries, by dsimp only; omega, hdesc⟩
      · exact h.capacity_of_blocks hgrown.toSegmentChain ret 0 (by rw [hblock, hret]; rfl) hlast
      · rw [hblock, hclear, hret]
        rfl
    · rw [if_pos hret, mod_eq_of_lt (by omega)]
      have hstate : Mounted.vol ⟨driver, (st.blocks.setBlock ((st.vol m).descAt x (descIndex k))
          (writeInfo (st.blocks.block ((st.vol m).descAt x (descIndex k))) (10 + 2 * pfsFixIndex k)
            { (st.vol m).entry x k with count := ((st.vol m).entry x k).count + ret })).addCounts x ret 0⟩ m =
          (Mounted.vol { st with driver } m).growEntry x k ret := by
        rw [growEntry, setEntry, hdesc, hentry]
        rfl
      have hinside' := hgives.inside (pos_of_ne_zero hret)
      simp only at hinside'
      generalize Mounted.vol { st with driver } m = v1 at *
      have hclear' : (st.vol m).clearZones parts = v1.clearZones parts + ret := hclear
      obtain ⟨hgrown', hentries', hblocks'⟩ := @Grown.growEntry parts v1 x k ret hgrown (hentries.symm ▸ hk) hfix
        (by rw [hentry]; omega) (by rw [hentry]; omega) (by rw [hblock]; omega)
      rw [hblock] at hblocks'
      refine ⟨hsound.store _, ?_, ?_, by dsimp only; omega, fun d => ?_⟩ <;> dsimp only <;> rw [hstate]
      · refine ⟨hgrown', h.capacity_of_blocks hgrown'.toSegmentChain ret 0 hblocks' ?_, ?_⟩
        · rw [lastDesc, hentries', hentries, lastDesc]
          rfl
        · rw [hblocks', hclear']
          show _ + v1.clearZones parts = _
          omega
      · exact hentries'.trans hentries
      · rw [growEntry, addCounts_descAt, setEntry_descAt, hdesc]

/-- The extension of a last segment without zones, whose first zone is clear, adds at least one. -/
theorem pfsBlockExpandSegment_pos (hs : st.Sound m parts) (hfix : pfsFixIndex ((st.vol m).entries x - 1) ≠ 0)
    (hentry : (st.vol m).entry x ((st.vol m).entries x - 1) = bi) (hzero : bi.count = 0) {count : ℕ}
    (hcount : 0 < count) (hsub : bi.subpart ≤ parts.numSubs) (hinside : bi.number < parts.zones bi.subpart)
    (hclear : (st.vol m).used bi.subpart bi.number = false) :
    0 < (st.pfsBlockExpandSegment m x ((st.vol m).lastPos x) count).1 := by
  rw [pfsBlockExpandSegment, if_neg (show pfsFixIndex ((st.vol m).lastPos x).blockSegment ≠ 0 from hfix),
    show st.blocks.entryAt ((st.vol m).lastPos x) = bi from hentry]
  dsimp only
  generalize hextend : pfsBitmapAllocateAdditionalZones st.driver m bi count = result
  obtain ⟨ret, driver⟩ := result
  obtain ⟨-, -, -, htakes⟩ := hs.extend hsub (by omega) hextend
  have hpos := htakes (by omega) (by omega) (by rw [hzero]; exact hclear)
  dsimp only
  rw [if_pos (ne_of_gt hpos)]
  exact hpos

/-- What appending a segment has done: the file has grown by the zones reported, by at least one if any was
asked for, and the position is at the new segment. -/
structure Appended (m : ℕ) (parts : Partitions) (st : Mounted n) (x : Place) (blocks : ℕ) (result : ℤ)
    (st' : Mounted n) (pos : GrowPos) : Prop where
  sound : st'.Sound m parts
  grows : GrowsBy parts (st.vol m) x result.toNat (st'.vol m)
  le : result.toNat ≤ blocks
  entries : (st'.vol m).entries x + (st'.vol m).clearZones parts ≤
    (st.vol m).entries x + (st.vol m).clearZones parts ∨ blocks = 0 ∧ (st'.vol m).entries x ≤
      (st.vol m).entries x + 2
  pos_of : 0 < blocks → 0 < result.toNat
  pos : pos = (st'.vol m).lastPos x

variable {cacheFull : ℕ → Bool} {result : ℤ}

/-- An `int` that is not negative is the word. -/
theorem toNat_asInt {k : ℕ} (h : 0 ≤ asInt k) (hk : k < 2 ^ 32) : (asInt k).toNat = k := by
  unfold asInt at *
  split at h <;> omega

/-- One more entry has been stored at the end of the chain, for a run with `gained` zones of data. -/
structure Entered (m : ℕ) (parts : Partitions) (st : Mounted n) (x : Place) (bi : BlockInfo) (gained : ℕ)
    (pos : GrowPos) (st' : Mounted n) : Prop where
  sound : st'.Sound m parts
  grows : GrowsBy parts (st.vol m) x gained (st'.vol m)
  entries : (st'.vol m).entries x = (st.vol m).entries x + 1
  clear : (st.vol m).clearZones parts = (st'.vol m).clearZones parts + bi.count
  pos : pos = (st'.vol m).lastPos x

theorem Mounted.Finds.used {count : ℕ} (h : st.Finds m parts count bi st') :
    (st'.vol m).used bi.subpart bi.number = decide (0 < bi.count) := by
  rw [h.gives.state]
  show (if bi.covers bi.subpart bi.number then true else (st.vol m).used bi.subpart bi.number) = _
  simp [BlockInfo.covers, h.clear]

/-- Storing a run behind the last segment. -/
theorem Mounted.Finds.appendEntry {driver : Driver n} {count : ℕ}
    (hfinds : st.Finds m parts count bi { st with driver }) (h : Grown parts (st.vol m) x)
    (hroom : numberBlocks ((st.vol m).block x) + (st.vol m).clearZones parts < 2 ^ 32)
    (hentries : (st.vol m).entries x + 1 < 2 ^ 32) (hfix : pfsFixIndex ((st.vol m).entries x) ≠ 0) {blocks : Vol}
    (hblocks : (st.blocks.addCounts x bi.count 1).setBlock ((st.vol m).lastPos x).inode
      (writeInfo ((st.blocks.addCounts x bi.count 1).block ((st.vol m).lastPos x).inode)
        (10 + 2 * pfsFixIndex (numberData ((st.blocks.addCounts x bi.count 1).block x) - 1)) bi) = blocks) :
    Entered m parts st x bi bi.count ⟨((st.vol m).lastPos x).inode, ((st.vol m).lastPos x).blockSegment + 1⟩
        ⟨driver, blocks⟩ ∧
      (Mounted.vol ⟨driver, blocks⟩ m).entry x ((st.vol m).entries x) = bi ∧
      (bi.count = 0 → (Mounted.vol ⟨driver, blocks⟩ m).used bi.subpart bi.number = false) := by
  have hused := hfinds.used
  obtain ⟨hsound, hgives, hfits, -, -, hinside, -⟩ := hfinds
  have hclear := hgives.clearZones
  obtain ⟨hgrown, hblock, hentries1, hlast1, hdesc1, -⟩ := hgives.keeps h
  have hplaced : bi.subpart ≤ parts.numSubs ∧ bi.number + bi.count ≤ parts.zones bi.subpart := by
    refine ⟨hgives.subpart, ?_⟩
    by_cases hzero : bi.count = 0
    · omega
    · exact hgives.inside (pos_of_ne_zero hzero)
  obtain ⟨v1, hv1⟩ : ∃ v1, v1 = Mounted.vol { st with driver } m := ⟨_, rfl⟩
  rw [← hv1] at hgives hclear hgrown hblock hentries1 hlast1 hdesc1
  have hfix1 : pfsFixIndex (v1.entries x) ≠ 0 := hentries1.symm ▸ hfix
  obtain ⟨hgrown2, hentries2, hblocks2, hentry2⟩ := hgrown.appendEntry hfix1 hfits hplaced
    (by rw [hblock]; omega) (by rw [hentries1]; exact hentries)
  have hcounts := @addCounts_counts v1 x bi.count 1 (by rw [hblock]; omega) (by rw [hentries1]; exact hentries)
  have hnew := hgrown.descIndex_entries
  rw [if_neg hfix1] at hnew
  -- the entry is stored where the number of entries says
  have hstate : Mounted.vol ⟨driver, blocks⟩ m = v1.appendEntry x bi := by
    have hnd : numberData ((v1.addCounts x bi.count 1).block x) - 1 = v1.entries x := by
      rw [show numberData ((v1.addCounts x bi.count 1).block x) = v1.entries x + 1 from hcounts.2.1,
        Nat.add_sub_cancel]
    rw [Vol.appendEntry, setEntry, addCounts_descAt, hnew, hlast1, hdesc1, ← hnd, hv1, ← hblocks]
    rfl
  rw [hentries1] at hentries2 hentry2
  rw [hblock] at hblocks2
  have hlast2 : (v1.appendEntry x bi).lastDesc x = (st.vol m).lastDesc x := by
    rw [lastDesc, hentries2, Nat.add_sub_cancel, ← hentries1, hnew, hlast1]
  have hclear2 : (v1.appendEntry x bi).clearZones parts = v1.clearZones parts := rfl
  refine ⟨⟨hsound.store blocks, ?_, ?_, ?_, ?_⟩, ?_, fun hcount => hused.trans (decide_eq_false (by omega))⟩ <;> rw [hstate]
  · refine ⟨hgrown2, h.capacity_of_blocks hgrown2.toSegmentChain bi.count 0 hblocks2 hlast2, ?_⟩
    rw [hblocks2, hclear2, hclear]
    omega
  · exact hentries2
  · rw [hclear2, hclear]
  · rw [lastPos, lastPos, hlast2, hentries2, Nat.add_sub_cancel, Nat.sub_add_cancel h.nonempty, Vol.appendEntry,
      setEntry_descAt, addCounts_descAt, hdesc1]
  · exact hentry2

/-- The new segment of `pfsBlockAllocNewSegment`. -/
theorem addSegment_appends (hs : st.Sound m parts) (h : Grown parts (st.vol m) x)
    (hroom : numberBlocks ((st.vol m).block x) + (st.vol m).clearZones parts < 2 ^ 32)
    (hentries : (st.vol m).entries x + 1 < 2 ^ 32) (hfix : pfsFixIndex ((st.vol m).entries x) ≠ 0) {blocks : ℕ}
    (hblocks : blocks < 2 ^ 32) {pos : GrowPos}
    (hrun : st.addSegment m rounds x ((st.vol m).lastPos x) blocks = some (result, st', pos))
    (hresult : 0 ≤ result) :
    Appended m parts st x blocks result st' pos ∧ (st'.vol m).entries x = (st.vol m).entries x + 1 := by
  rw [addSegment, map_eq_some_iff] at hrun
  obtain ⟨⟨r, bi, driver⟩, hsearch, hrun⟩ := hrun
  dsimp only at hrun
  by_cases hr : r < 0
  · rw [if_pos hr] at hrun
    cases hrun
    omega
  · rw [if_neg hr] at hrun
    have hfinds := hs.search (mod_lt _ (by decide)) hsearch
    have hle : bi.count ≤ blocks % 65536 := hfinds.few
    have hsub := hfinds.gives.subpart
    have hinside := hfinds.inside
    generalize hstored : (st.blocks.addCounts x bi.count 1).setBlock _ _ = stored at hrun
    obtain ⟨⟨hsound, hgrows, hentries1, hclear, hpos⟩, hentry, hfree⟩ :=
      hfinds.appendEntry h hroom hentries hfix hstored
    generalize (⟨driver, stored⟩ : Mounted n) = st1 at *
    have hblocks1 := hgrows.blocks
    have hmissing : (blocks + 2 ^ 32 - bi.count) % 2 ^ 32 = blocks - bi.count := by
      rw [show blocks + 2 ^ 32 - bi.count = blocks - bi.count + 2 ^ 32 by omega, add_mod_right,
        mod_eq_of_lt (by omega)]
    rw [hmissing, hpos] at hrun
    by_cases hzero : blocks - bi.count = 0
    · rw [if_neg (not_not.mpr hzero)] at hrun
      cases hrun
      have hall : bi.count = blocks := by omega
      have hnat := toNat_asInt hresult hblocks
      refine ⟨⟨hsound, ?_, le_of_eq hnat, ?_, fun hpos => hnat.symm ▸ hpos, rfl⟩, hentries1⟩
      · rw [hnat, ← hall]
        exact hgrows
      · by_cases hblocks0 : blocks = 0
        · exact .inr ⟨hblocks0, by omega⟩
        · exact .inl (by omega)
    · rw [if_pos hzero, Prod.mk.injEq, Prod.mk.injEq] at hrun
      obtain ⟨rfl, rfl, rfl⟩ := hrun
      have hexpanded : Expanded m parts st1 x (blocks - bi.count)
          (st1.pfsBlockExpandSegment m x ((st1.vol m).lastPos x) _) :=
        pfsBlockExpandSegment_grows hsound hgrows.grown (by omega) (sub_lt hgrows.grown.nonempty one_pos) _
      have hretPos : bi.count = 0 →
          0 < (st1.pfsBlockExpandSegment m x ((st1.vol m).lastPos x) (blocks - bi.count)).1 := by
        intro hcount
        rw [← Nat.add_sub_cancel ((st.vol m).entries x) 1, ← hentries1] at hentry hfix
        exact pfsBlockExpandSegment_pos hsound hfix hentry hcount (Nat.pos_of_ne_zero hzero) hsub hinside
          (hfree hcount)
      generalize st1.pfsBlockExpandSegment m x ((st1.vol m).lastPos x) (blocks - bi.count) = step at *
      have hpos2 := hexpanded.last.2
      have hclear2 := hexpanded.clearZones hgrows.grown
      obtain ⟨hsound2, hmore, hentries2, hretLe, -⟩ := hexpanded
      obtain ⟨ret, st2⟩ := step
      have hnat := toNat_asInt hresult (by omega)
      rw [show blocks - (blocks - bi.count - ret) = bi.count + ret by omega] at hnat ⊢
      refine ⟨⟨hsound2, ?_, by omega, .inl (by omega), fun _ => by omega, hpos2.symm⟩, hentries2.trans hentries1⟩
      rw [hnat]
      exact hgrows.trans hmore

/-- The first entry of a descriptor. -/
theorem exists_first {d n : ℕ} (hn : 1 ≤ n) (hd : d ≤ descIndex (n - 1)) :
    ∃ i < n, descIndex i = d ∧ pfsFixIndex i = 0 := by
  cases d with
  | zero => exact ⟨0, hn, rfl, rfl⟩
  | succ d =>
    refine ⟨114 + 123 * d, ?_, ?_, ?_⟩
    · unfold descIndex at hd
      split at hd <;> omega
    · unfold descIndex
      rw [if_neg (by omega)]
      omega
    · unfold pfsFixIndex
      rw [if_neg (by omega)]
      omega

/-- Zones of the partitions have places of their own. -/
theorem Grown.zonePlace_inj (h : Grown parts v x) {bi bi' : BlockInfo} (hsub : bi.subpart ≤ parts.numSubs)
    (hinside : bi.number < parts.zones bi.subpart) (hsub' : bi'.subpart ≤ parts.numSubs)
    (hinside' : bi'.number < parts.zones bi'.subpart) (heq : v.zonePlace bi = v.zonePlace bi') :
    bi.subpart = bi'.subpart ∧ bi.number = bi'.number := by
  have hlt : ∀ {bi : BlockInfo}, bi.subpart ≤ parts.numSubs → bi.number < parts.zones bi.subpart →
      bi.number <<< v.inodeScale < 2 ^ 32 := by
    intro bi hsub hinside
    have hsmall := h.small _ hsub
    rw [Nat.shiftLeft_eq] at hsmall ⊢
    exact Nat.lt_of_lt_of_le (Nat.mul_lt_mul_of_pos_right hinside (Nat.two_pow_pos _)) hsmall
  rw [zonePlace, zonePlace, Place.mk.injEq, Nat.mod_eq_of_lt (hlt hsub hinside),
    Nat.mod_eq_of_lt (hlt hsub' hinside'), Nat.shiftLeft_eq, Nat.shiftLeft_eq] at heq
  exact ⟨heq.1, Nat.eq_of_mul_eq_mul_right (Nat.two_pow_pos _) heq.2⟩

/-- A clear zone has no descriptor in it. -/
theorem Grown.fresh (h : Grown parts v x) (hsub : bi.subpart ≤ parts.numSubs)
    (hinside : bi.number < parts.zones bi.subpart) (hclear : v.used bi.subpart bi.number = false) :
    ∀ d ≤ v.lastDesc x, v.descAt x d ≠ v.zonePlace bi := by
  intro d hd heq
  obtain ⟨i, hi, rfl, hfix⟩ := exists_first h.nonempty hd
  obtain ⟨hone, hown⟩ := h.own i hi hfix
  obtain ⟨hsubI, hinsideI⟩ := h.placed i hi
  obtain ⟨hsubEq, hnumberEq⟩ := h.zonePlace_inj hsubI (by omega) hsub hinside (hown.trans heq)
  have hmarked := h.marked i hi hfix
  rw [hsubEq, hnumberEq, hclear] at hmarked
  exact false_ne_true hmarked

theorem pfsFixIndex_succ {i : ℕ} (h : pfsFixIndex i = 0) : pfsFixIndex (i + 1) ≠ 0 := by
  unfold pfsFixIndex at h ⊢
  split at h <;> split <;> omega

/-- Linking a descriptor behind the last one. -/
theorem Mounted.Finds.addDescriptor {driver : Driver n} (hfinds : st.Finds m parts 1 bi { st with driver })
    (h : Grown parts (st.vol m) x)
    (hroom : numberBlocks ((st.vol m).block x) + (st.vol m).clearZones parts < 2 ^ 32)
    (hentries : (st.vol m).entries x + 2 < 2 ^ 32) (hfix : pfsFixIndex ((st.vol m).entries x) = 0) :
    Entered m parts st x bi 0 ⟨(st.vol m).zonePlace bi, ((st.vol m).lastPos x).blockSegment + 1⟩
        ⟨driver, st.blocks.addDescriptor x ((st.vol m).lastPos x).inode bi⟩ ∧ bi.count = 1 := by
  have hused := hfinds.used
  obtain ⟨hsound, hgives, hfits, hle, hpos, hinside, hzone⟩ := hfinds
  have hone : bi.count = 1 := le_antisymm hle (hpos one_pos)
  have hclear := hgives.clearZones
  have hfresh := h.fresh hgives.subpart hinside hzone
  have hnumber : bi.number ≠ 0 := by
    intro hzero
    rw [hzero, h.reserved _ hgives.subpart] at hzone
    exact false_ne_true hzone.symm
  obtain ⟨hgrown, hblock, hentries1, hlast1, hdesc1, -⟩ := hgives.keeps h
  obtain ⟨v1, hv1⟩ : ∃ v1, v1 = Mounted.vol { st with driver } m := ⟨_, rfl⟩
  rw [← hv1] at hused hgives hclear hgrown hblock hentries1 hlast1 hdesc1
  have hplace1 : v1.zonePlace bi = (st.vol m).zonePlace bi := by rw [hgives.state]; rfl
  obtain ⟨hgrown2, hentries2, hblocks2, hdesc2⟩ := hgrown.addDescriptor (hentries1.symm ▸ hfix) hfits hone hnumber
    (hused.trans (decide_eq_true (by omega))) ⟨hgives.subpart, by omega⟩ (fun d hd => by rw [hdesc1, hplace1]; exact hfresh d (hlast1 ▸ hd))
    (by rw [hblock]; omega) (by omega)
  have hclear2 : (v1.addDescriptor x (v1.descAt x (v1.lastDesc x)) bi).clearZones parts = v1.clearZones parts := rfl
  have hstate : Mounted.vol ⟨driver, st.blocks.addDescriptor x ((st.vol m).lastPos x).inode bi⟩ m =
      v1.addDescriptor x (v1.descAt x (v1.lastDesc x)) bi := by
    rw [hdesc1, hlast1, hv1]
    rfl
  rw [hentries1] at hentries2 hdesc2
  rw [hblock] at hblocks2
  have hlast2 : (v1.addDescriptor x (v1.descAt x (v1.lastDesc x)) bi).lastDesc x =
      descIndex ((st.vol m).entries x) := by
    rw [lastDesc, hentries2, Nat.add_sub_cancel]
  refine ⟨⟨hsound.store _, ?_, ?_, ?_, ?_⟩, hone⟩ <;> rw [hstate]
  · refine ⟨hgrown2, h.capacity_of_blocks hgrown2.toSegmentChain 0 1 hblocks2 ?_, by omega⟩
    rw [hlast2, h.descIndex_entries, if_pos hfix]
  · exact hentries2
  · rw [hclear2, hclear]
  · rw [lastPos, lastPos, hlast2, hdesc2, hplace1, hentries2, Nat.add_sub_cancel, Nat.sub_add_cancel h.nonempty]

/-- `pfsBlockAllocNewSegment` appends a segment, behind a new descriptor if the last one is full. -/
theorem pfsBlockAllocNewSegment_appends (hs : st.Sound m parts) (h : Grown parts (st.vol m) x)
    (hroom : numberBlocks ((st.vol m).block x) + (st.vol m).clearZones parts < 2 ^ 32)
    (hentries : (st.vol m).entries x + 2 < 2 ^ 32) {blocks : ℕ} (hblocks : blocks < 2 ^ 32) {cacheFull : Bool}
    {pos : GrowPos}
    (hrun : st.pfsBlockAllocNewSegment m rounds x ((st.vol m).lastPos x) blocks cacheFull = some (result, st', pos))
    (hresult : 0 ≤ result) : Appended m parts st x blocks result st' pos := by
  rw [pfsBlockAllocNewSegment] at hrun
  cases cacheFull with
  | true =>
    rw [if_pos rfl] at hrun
    cases hrun
    omega
  | false =>
    rw [if_neg Bool.false_ne_true] at hrun
    by_cases hfix : pfsFixIndex ((st.vol m).entries x) = 0
    · rw [if_pos (show pfsFixIndex (numberData (st.blocks.block x)) = 0 from hfix), bind_eq_some_iff] at hrun
      obtain ⟨⟨r, bi, driver⟩, hsearch, hrun⟩ := hrun
      dsimp only at hrun
      by_cases hr : r < 0
      · rw [if_pos hr] at hrun
        cases hrun
        omega
      · rw [if_neg hr] at hrun
        obtain ⟨⟨hsound, hnew, hentries1, hclear, hpos⟩, hone⟩ :=
          (hs.search (by dsimp only; omega) hsearch).addDescriptor h hroom hentries hfix
        generalize (⟨driver, st.blocks.addDescriptor x ((st.vol m).lastPos x).inode bi⟩ : Mounted n) = st1 at *
        have hblocks1 := hnew.blocks
        rw [show st.blocks.zonePlace bi = (st.vol m).zonePlace bi from rfl, hpos] at hrun
        obtain ⟨happended, hentries2⟩ := addSegment_appends hsound hnew.grown (by omega) (by omega)
          (hentries1.symm ▸ pfsFixIndex_succ hfix) hblocks hrun hresult
        refine ⟨happended.sound, ?_, happended.le, ?_, happended.pos_of, happended.pos⟩
        · have hboth := hnew.trans happended.grows
          rwa [zero_add] at hboth
        · rcases happended.entries with hless | ⟨hzero, -⟩
          · exact .inl (by omega)
          · exact .inr ⟨hzero, by omega⟩
    · rw [if_neg (show pfsFixIndex (numberData (st.blocks.block x)) ≠ 0 from hfix)] at hrun
      exact (addSegment_appends hs h hroom (by omega) hfix hblocks hrun hresult).1

/-- The loop of `pfsAllocZones` grows the file by all of the zones. -/
theorem allocLoop_grows (turns : ℕ) {val : ℕ} (hs : st.Sound m parts) (h : Grown parts (st.vol m) x)
    (hroom : numberBlocks ((st.vol m).block x) + (st.vol m).clearZones parts < 2 ^ 32)
    (hentries : (st.vol m).entries x + (st.vol m).clearZones parts + 2 < 2 ^ 32) (hval : val < 2 ^ 32)
    (hrun : allocLoop m rounds x cacheFull turns st ((st.vol m).lastPos x) val = some (0, st')) :
    st'.Sound m parts ∧ GrowsBy parts (st.vol m) x val (st'.vol m) := by
  induction turns generalizing st val with
  | zero => exact absurd hrun (by simp [allocLoop])
  | succ turns ih =>
    cases val with
    | zero =>
      rw [allocLoop] at hrun
      cases hrun
      exact ⟨hs, h, rfl, rfl⟩
    | succ val =>
      rw [allocLoop, bind_eq_some_iff] at hrun
      obtain ⟨⟨result, st1, pos⟩, hnew, hrun⟩ := hrun
      dsimp only at hrun
      by_cases hresult : 0 ≤ result
      · rw [if_pos hresult] at hrun
        have happended := pfsBlockAllocNewSegment_appends hs h hroom (by omega) hval hnew hresult
        have hblocks := happended.grows.blocks
        have hless := happended.entries.resolve_right fun hzero => succ_ne_zero val hzero.1
        have hle := happended.le
        rw [happended.pos] at hrun
        obtain ⟨hsound, hrest⟩ := ih happended.sound happended.grows.grown (by omega) (by omega) (by omega) hrun
        have hboth := happended.grows.trans hrest
        rw [Nat.add_sub_cancel' hle] at hboth
        exact ⟨hsound, hboth⟩
      · rw [if_neg hresult] at hrun
        cases hrun
        omega

/-- The loop of `pfsAllocZones` returns 0 or an error. -/
theorem allocLoop_result (turns : ℕ) {pos : GrowPos} {val : ℕ}
    (hrun : allocLoop m rounds x cacheFull turns st pos val = some (result, st')) (hresult : 0 ≤ result) :
    result = 0 := by
  induction turns generalizing st pos val with
  | zero => exact absurd hrun (by simp [allocLoop])
  | succ turns ih =>
    cases val with
    | zero =>
      rw [allocLoop] at hrun
      cases hrun
      rfl
    | succ val =>
      rw [allocLoop, bind_eq_some_iff] at hrun
      obtain ⟨⟨r, st1, pos1⟩, -, hrun⟩ := hrun
      dsimp only at hrun
      split at hrun
      · exact ih hrun
      · cases hrun
        omega

/-- The zones that `pfsAllocZones` reports by returning 0. -/
def Vol.zonesAsked (v : Vol) (x : Place) (msize : BitVec 32) (mode : ℕ) : ℕ :=
  if mode = 0 ∧ v.hasRoom x msize then 0 else v.zonesFor msize

/-- `pfsAllocZones` grows the file by the zones asked for. -/
theorem pfsAllocZones_grows {turns mode : ℕ} {msize : BitVec 32} (hs : st.Sound m parts)
    (h : Grown parts (st.vol m) x)
    (hroom : numberBlocks ((st.vol m).block x) + (st.vol m).clearZones parts < 2 ^ 32)
    (hentries : (st.vol m).entries x + (st.vol m).clearZones parts + 2 < 2 ^ 32)
    (hrun : st.pfsAllocZones m rounds x msize mode cacheFull turns = some (result, st')) (hresult : 0 ≤ result) :
    st'.Sound m parts ∧ GrowsBy parts (st.vol m) x (st.blocks.zonesAsked x msize mode) (st'.vol m) := by
  rw [pfsAllocZones] at hrun
  rw [zonesAsked]
  by_cases hmode : mode = 0 ∧ st.blocks.hasRoom x msize
  · rw [if_pos hmode] at hrun
    cases hrun
    rw [if_pos hmode]
    exact ⟨hs, h, rfl, rfl⟩
  · rw [if_neg hmode] at hrun ⊢
    have hpos : (⟨st.blocks.zonePlace (lastSegment (st.blocks.block x)),
      numberData (st.blocks.block x) - 1⟩ : GrowPos) =
        (st.vol m).lastPos x := by
      rw [show st.blocks.zonePlace (lastSegment (st.blocks.block x)) = _ from h.last]
      rfl
    have hexpanded : Expanded m parts st x (st.blocks.zonesFor msize)
        (st.pfsBlockExpandSegment m x ((st.vol m).lastPos x) _) :=
      pfsBlockExpandSegment_grows hs h hroom (sub_lt h.nonempty one_pos) _
    dsimp only at hrun
    rw [hpos] at hrun
    have hval : st.blocks.zonesFor msize < 2 ^ 32 := (BitVec.isLt _)
    generalize st.pfsBlockExpandSegment m x ((st.vol m).lastPos x) (st.blocks.zonesFor msize) = step at *
    have hlast := hexpanded.last.2
    have hclear := hexpanded.clearZones h
    obtain ⟨hsound, hgrows, hentries1, hle, -⟩ := hexpanded
    obtain ⟨ret, st1⟩ := step
    have hblocks := hgrows.blocks
    rw [← hlast] at hrun
    obtain rfl := allocLoop_result turns hrun hresult
    obtain ⟨hsound', hrest⟩ := allocLoop_grows turns hsound hgrows.grown (by omega) (by omega) (by omega) hrun
    have hboth := hgrows.trans hrest
    rw [Nat.add_sub_cancel' hle] at hboth
    exact ⟨hsound', hboth⟩

/-- A request to grow a file. -/
inductive GrowRequest
  | expandSegment (segment : ℕ) (count : BitVec 32)
  | allocNewSegment (blocks : BitVec 32)
  | allocZones (msize : BitVec 32) (mode : ℕ)

/-- Serve a request: the result, the zones reported and the volume. -/
def Mounted.grow (m rounds : ℕ) (st : Mounted n) (x : Place) (cacheFull : ℕ → Bool) (turns : ℕ) :
    GrowRequest → Option (ℤ × ℕ × Mounted n)
  | .expandSegment segment count =>
    let (ret, st') := st.pfsBlockExpandSegment m x ⟨st.blocks.descAt x (descIndex segment), segment⟩ count.toNat
    some (ret, ret, st')
  | .allocNewSegment blocks =>
    (st.pfsBlockAllocNewSegment m rounds x (st.blocks.lastPos x) blocks.toNat (cacheFull 0)).map
      fun (result, st', _) => (result, result.toNat, st')
  | .allocZones msize mode =>
    (st.pfsAllocZones m rounds x msize mode cacheFull turns).map
      fun (result, st') => (result, st.blocks.zonesAsked x msize mode, st')

theorem Mounted.vol_descAt (st : Mounted n) (m : ℕ) (x : Place) (d : ℕ) :
    (st.vol m).descAt x d = st.blocks.descAt x d :=
  @descAt_congr st.blocks (st.vol m) x rfl d (fun _ _ => rfl) d (le_refl d)

/-- The segment of a request is one of the file. -/
def GrowRequest.Valid (v : Vol) (x : Place) : GrowRequest → Prop
  | .expandSegment segment _ => segment < v.entries x
  | _ => True

/-- An error-free request grows the file by the zones it reports. -/
theorem Mounted.grow_grows (hs : st.Sound m parts) (h : Grown parts (st.vol m) x)
    (hroom : max (numberBlocks ((st.vol m).block x)) ((st.vol m).entries x + 2) + (st.vol m).clearZones parts <
      2 ^ 32)
    {turns gained : ℕ} {request : GrowRequest} (hvalid : request.Valid st.blocks x)
    (hrun : st.grow m rounds x cacheFull turns request = some (result, gained, st')) (hresult : 0 ≤ result) :
    st'.Sound m parts ∧ GrowsBy parts (st.vol m) x gained (st'.vol m) := by
  cases request with
  | expandSegment segment count =>
    rw [grow, ← st.vol_descAt m] at hrun
    cases hrun
    have hexpanded := pfsBlockExpandSegment_grows hs h (by omega) hvalid count.toNat
    exact ⟨hexpanded.sound, hexpanded.grows⟩
  | allocNewSegment blocks =>
    have hpos : st.blocks.lastPos x = (st.vol m).lastPos x := by
      rw [lastPos, ← st.vol_descAt m]
      rfl
    obtain ⟨⟨r, st1, pos⟩, hnew, heq⟩ := map_eq_some_iff.mp hrun
    cases heq
    rw [hpos] at hnew
    have happended := pfsBlockAllocNewSegment_appends hs h (by omega) (by omega) blocks.isLt hnew hresult
    exact ⟨happended.sound, happended.grows⟩
  | allocZones msize mode =>
    obtain ⟨⟨r, st1⟩, hnew, heq⟩ := map_eq_some_iff.mp hrun
    cases heq
    exact pfsAllocZones_grows hs h (by omega) (by omega) hnew hresult

/-- Every error-free request keeps the chain in order and adds as many data zones as it reports. -/
theorem grow_keeps (m rounds : ℕ) (parts : Partitions) (st : Mounted n) (x : Place) (hs : st.Sound m parts)
    (h : Grown parts (st.vol m) x)
    (hroom : max (numberBlocks ((st.vol m).block x)) ((st.vol m).entries x + 2) + (st.vol m).clearZones parts <
      2 ^ 32)
    (cacheFull : ℕ → Bool) (turns : ℕ) (request : GrowRequest) (hvalid : request.Valid st.blocks x) (result : ℤ)
    (gained : ℕ) (st' : Mounted n) (hrun : st.grow m rounds x cacheFull turns request = some (result, gained, st'))
    (hresult : 0 ≤ result) : st'.Sound m parts ∧ Grown parts (st'.vol m) x ∧
      (st'.vol m).capacity x = (st.vol m).capacity x + gained := by
  obtain ⟨hsound, hgrows⟩ := grow_grows hs h hroom hvalid hrun hresult
  exact ⟨hsound, hgrows.grown, hgrows.capacity⟩

/-- A partition of 256 zones. -/
def onePart : Partitions := ⟨0, fun _ => 256, by decide, fun _ _ => by decide⟩

/-- An inode in zone 10 whose 113 data segments have one zone each. -/
def packedInode : MetaBlock := fun k =>
  if k.val = 6 ∨ k.val = 10 then 10
  else if k.val = 248 ∨ k.val = 249 then 114
  else if k.val = 250 then 1
  else if 7 ≤ k.val ∧ k.val < 238 ∧ k.val % 2 = 1 ∧ k.val ≠ 9 then 0x10000
  else if 12 ≤ k.val ∧ k.val < 238 then BitVec.ofNat 32 (94 + k.val / 2)
  else 0

/-- A volume with zones of 2 KiB and that inode; the zones from 214 on are clear, so that its last segment, in zone
212, cannot be extended. -/
def packedVol : Mounted 1 where
  driver :=
    { freeVolume with
      mounts := fun m =>
        { freeVolume.mounts m with
          blockDev := ⟨fun _ k => if k.val < 6 then 0xFFFFFFFF else if k.val = 6 then 0x3FFFFF else 0, []⟩
          partSize := fun _ => 1024
          zfree := 42
          sectorScale := 2
          inodeScale := 1
          freeZone := fun _ => 42 } }
  blocks :=
    { zsize := 2048
      inodeScale := 1
      block := fun p => if p = ⟨0, 20⟩ then packedInode else fun _ => 0
      used := fun _ _ => false
      freeZone := fun _ => 0
      zfree := 0
      legal := pfsCheckZoneSize_least
      scale := least_scale }

theorem packedVol_sound : packedVol.Sound 0 onePart := by
  have hzones : (packedVol.driver.mounts 0).zones = onePart.zones := by
    funext sub
    simp [packedVol, Mount.zones, onePart]
  refine ⟨Driver.volume_of_empty (fun _ => ⟨rfl, rfl⟩) rfl (fun _ => rfl) (fun _ _ => by simp [hzones, onePart]) ?_,
    rfl, hzones⟩
  rintro sub chunk ⟨hsub, hlt⟩
  rw [hzones] at hlt
  change chunk * 8192 < 256 at hlt
  obtain rfl : sub = 0 := Nat.le_zero.mp hsub
  obtain rfl : chunk = 0 := by omega
  exact ⟨by decide, fun _ => .inr (by decide)⟩

theorem packedVol_grown : Grown onePart (packedVol.vol 0) ⟨0, 20⟩ where
  toSegmentChain := by decide +kernel
  segdesg := by decide +kernel
  last := by decide +kernel
  placed := by decide +kernel
  marked := by decide +kernel
  reserved := by decide +kernel
  small := by decide +kernel

/-- A file whose inode has no entry left gets a descriptor, and three zones behind it. -/
theorem grow_keeps_full : ∃ st', packedVol.grow 0 1 ⟨0, 20⟩ (fun _ => false) 4 (.allocZones 6144 1) =
    some (0, 3, st') ∧
    numberSegdesg (st'.blocks.block ⟨0, 20⟩) = 2 ∧ st'.Sound 0 onePart ∧ Grown onePart (st'.vol 0) ⟨0, 20⟩ ∧
    (st'.vol 0).capacity ⟨0, 20⟩ = (packedVol.vol 0).capacity ⟨0, 20⟩ + 3 := by
  have hreply : (packedVol.grow 0 1 ⟨0, 20⟩ (fun _ => false) 4 (.allocZones 6144 1)).map
      (fun reply => (reply.1, reply.2.1, numberSegdesg (reply.2.2.blocks.block ⟨0, 20⟩))) = some (0, 3, 2) := by
    decide +kernel
  obtain ⟨⟨result, gained, st'⟩, hrun, heq⟩ := map_eq_some_iff.mp hreply
  simp only [Prod.mk.injEq] at heq
  obtain ⟨rfl, rfl, hdescs⟩ := heq
  exact ⟨st', hrun, hdescs, grow_keeps 0 1 onePart packedVol ⟨0, 20⟩ packedVol_sound packedVol_grown
    (by decide +kernel) _ _ (.allocZones 6144 1) trivial _ _ _ hrun (by decide)⟩

/-- Error-free requests, one after the other, that add this many data zones to a file. -/
inductive Growth (m : ℕ) (parts : Partitions) (x : Place) : Mounted n → ℕ → Mounted n → Prop
  | done (st : Mounted n) : Growth m parts x st 0 st
  | request {st st' st'' : Mounted n} {cacheFull : ℕ → Bool} {rounds turns gained more : ℕ} {request : GrowRequest}
    {result : ℤ} (run : st.grow m rounds x cacheFull turns request = some (result, gained, st')) (ok : 0 ≤ result)
    (valid : request.Valid st.blocks x)
    (room : max (numberBlocks ((st.vol m).block x)) ((st.vol m).entries x + 2) + (st.vol m).clearZones parts <
      2 ^ 32)
    (rest : Growth m parts x st' more st'') : Growth m parts x st (gained + more) st''

/-- Growing moves zones from the clear ones to the file: none is lost, and none is counted twice. -/
theorem growth_conserves {gained : ℕ} (hrun : Growth m parts x st gained st') (hs : st.Sound m parts)
    (h : Grown parts (st.vol m) x) : GrowsBy parts (st.vol m) x gained (st'.vol m) := by
  induction hrun with
  | done st => exact ⟨h, rfl, rfl⟩
  | request hrun hok hvalid hroom _ ih =>
    obtain ⟨hsound, hgrows⟩ := grow_grows hs h hroom hvalid hrun hok
    exact hgrows.trans (ih hsound hgrows.grown)

/-- A file whose inode has no entry left gets three zones. -/
theorem growth_conserves_packedVol : ∃ st' : Mounted 1, GrowsBy onePart (packedVol.vol 0)
    ⟨0, 20⟩ 3 (st'.vol 0) := by
  have hreply : (packedVol.grow 0 1 ⟨0, 20⟩ (fun _ => false) 4 (.allocZones 6144 1)).map
      (fun reply => (reply.1, reply.2.1)) = some (0, 3) := by decide +kernel
  obtain ⟨⟨_, _, st'⟩, hrun, heq⟩ := map_eq_some_iff.mp hreply
  cases heq
  exact ⟨st', growth_conserves (.request hrun (by decide) trivial (by decide +kernel) (.done st')) packedVol_sound
    packedVol_grown⟩

end Ps2sdk.Pfs
