import Ps2sdk.Pfs.ZoneAccounting

/-!
# When the search for free zones returns

`pfsBitmapSearchFreeZone` halves the length of the run it looks for down to a single zone and goes
round the partitions, so it finds a clear zone if there is one. Its counter of partitions is
unsigned and compared with zero, so that is the only way in which the search ends.
-/

namespace Ps2sdk.Pfs

open Lib BitVec Finset Nat Driver Bool

variable {n : ℕ} {s s' : Driver n} {m : ℕ} {bi : BlockInfo}

variable {z : ZoneSearch}

/-- A search for one zone within a word that finds none has seen used zones only. -/
theorem searchWord_single (chunk pos : ℕ) (word : BitVec 32) (k i : ℕ) (hz : z.count = 0)
    (h : (searchWord 1 chunk pos word k i z).found = false) :
    (searchWord 1 chunk pos word k i z).count = 0 ∧ ∀ j, i ≤ j → j < i + k → word.getLsbD j = true := by
  induction k generalizing i z with
  | zero => exact ⟨hz, fun j hlow hhigh => by omega⟩
  | succ k ih =>
    unfold searchWord at h ⊢
    by_cases hused : word.getLsbD i = true
    · rw [if_pos hused] at h ⊢
      obtain ⟨hcount, hrest⟩ := ih (i + 1) rfl h
      refine ⟨hcount, fun j hlow hhigh => ?_⟩
      by_cases hj : j = i
      · rw [hj, hused]
      · exact hrest j (by omega) (by omega)
    · rw [if_neg hused] at h
      simp [hz] at h

/-- A search for one zone within a chunk that finds none has seen used zones only. -/
theorem searchChunk_single (chunk : ℕ) (data : MetaBlock) (k pos bit : ℕ) (hk : pos + k ≤ 256)
    (hz : z.count = 0) (h : (searchChunk 1 chunk data k pos bit z).found = false) :
    (searchChunk 1 chunk data k pos bit z).count = 0 ∧
      ∀ p, pos * 32 + bit ≤ p → p < (pos + k) * 32 → zoneBit data p = true := by
  induction k generalizing pos bit z with
  | zero => exact ⟨hz, fun p hlow hhigh => by omega⟩
  | succ k ih =>
    unfold searchChunk at h ⊢
    by_cases hfound : (searchWord 1 chunk pos (data (Fin.ofNat 256 pos)) (32 - bit) bit z).found = true
    · rw [if_pos hfound, hfound] at h
      exact absurd h (by simp)
    · rw [if_neg hfound] at h ⊢
      rw [not_eq_true] at hfound
      obtain ⟨hcount, hword⟩ := searchWord_single chunk pos _ (32 - bit) bit hz hfound
      obtain ⟨hcount', hrest⟩ := ih (pos + 1) 0 (by omega) hcount h
      refine ⟨hcount', fun p hlow hhigh => ?_⟩
      by_cases hp : p < (pos + 1) * 32
      · have hdiv : p / 32 = pos := by omega
        rw [zoneBit, hdiv]
        exact hword (p % 32) (by omega) (by omega)
      · exact hrest p (by omega) (by omega)

/-- A search for one zone within a partition that finds none has seen used zones only. -/
theorem searchLoop_single {info : BitmapInfo} (k : ℕ) (hs : s.Volume m) (hinfo : info.For (s.mounts m) bi.subpart)
    (hsub : bi.subpart ≤ (s.mounts m).numSubs) {chunk index bit : ℕ} (hz : z.count = 0)
    (hk : info.partitionChunks < chunk + k) (hindex : index < 256)
    (h : (searchLoop info m bi 1 k s chunk index bit z).1 = false) :
    ∀ p, chunk * 8192 + index * 32 + bit ≤ p → p < (s.mounts m).zones bi.subpart → s.zone m bi.subpart p =
      true := by
  induction k generalizing s chunk index bit z with
  | zero =>
    intro p hlow hhigh
    have hchunks := hinfo.chunks
    omega
  | succ k ih =>
    unfold searchLoop at h
    by_cases hstop : info.inPartition chunk = false
    · intro p hlow hhigh
      have hnot : ¬ (s.mounts m).HasChunk bi.subpart chunk := by
        rw [← hinfo.inPartition hsub, hstop]
        exact false_ne_true
      exact absurd ⟨hsub, by omega⟩ hnot
    · rw [if_neg hstop] at h
      rw [not_eq_false] at hstop
      have hchunk := (hinfo.inPartition hsub).mp hstop
      obtain ⟨bitmap, s1, hget, htook⟩ := hs.take hchunk
      rw [hget] at h
      dsimp only at h
      obtain ⟨hwords, hend⟩ := hinfo.words (hs.aligned _ hsub) hchunk
      obtain ⟨hreturned, hchunks⟩ := htook.giveBack hs
      have hzones : ∀ p, p < (s.mounts m).zones bi.subpart →
          (pfsCacheFree s1 bitmap).zone m bi.subpart p = s.zone m bi.subpart p := by
        intro p hp
        rw [zone, zone, hchunks _ _ (Mount.hasChunk_of_lt hsub hp)]
      by_cases hfound : (searchChunk 1 chunk (s1.cacheBuf bitmap).data (info.words chunk - index) index bit z).found
          = true
      · rw [if_pos hfound] at h
        exact absurd h (by simp)
      · rw [if_neg hfound] at h
        rw [not_eq_true] at hfound
        obtain ⟨hcount, hseen⟩ := searchChunk_single chunk _ (info.words chunk - index) index bit
          (by omega) hz hfound
        have hrest := ih hreturned.volume (hinfo.of_same (hreturned.same m)) ((hreturned.same m).numSubs ▸ hsub)
          hcount (by omega) (by omega) h
        intro p hlow hhigh
        by_cases hp : p < (chunk + 1) * 8192
        · have hdiv : p / 8192 = chunk := by omega
          rw [zone, hdiv, ← htook.data hs hchunk]
          exact hseen (p % 8192) (by omega) (by omega)
        · rw [← hzones p hhigh]
          refine hrest p ?_ ?_
          · rw [if_pos (by omega), Nat.zero_mul, Nat.add_zero, Nat.add_zero]
            omega
          · rw [(hreturned.same m).zones]
            exact hhigh

/-- In a partition with a clear zone one zone is found. -/
theorem pfsBitmapAllocZones_single (hs : s.Volume m) (hsub : bi.subpart ≤ (s.mounts m).numSubs)
    (hnumber : bi.number = 0) {p : ℕ} (hp : p < (s.mounts m).zones bi.subpart)
    (hclear : s.zone m bi.subpart p = false) : (pfsBitmapAllocZones s m bi 1).1 = true := by
  rw [← not_eq_false]
  intro hfailed
  have hused := searchLoop_single _ hs (pfsBitmapSetupInfo_for _ _ _) hsub rfl (by omega)
    (by change bi.number % 8192 / 32 < 256; omega) hfailed p
    (by
      change bi.number / 8192 * 8192 + bi.number % 8192 / 32 * 32 + bi.number % 32 ≤ p
      rw [hnumber]
      exact zero_le p) hp
  rw [hclear] at hused
  exact false_ne_true hused

/-- A search within a word that ends has counted a zone. -/
theorem searchWord_found (amount chunk pos : ℕ) (word : BitVec 32) (k i : ℕ) (hz : z.found = false)
    (h : (searchWord amount chunk pos word k i z).found = true) :
    0 < (searchWord amount chunk pos word k i z).count := by
  induction k generalizing i z with
  | zero =>
    rw [searchWord, hz] at h
    exact absurd h false_ne_true
  | succ k ih =>
    unfold searchWord at h ⊢
    by_cases hused : word.getLsbD i = true
    · rw [if_pos hused] at h ⊢
      exact ih (i + 1) hz h
    · rw [if_neg hused] at h ⊢
      change (if (z.grow chunk pos i).count = amount then { z.grow chunk pos i with found := true }
        else searchWord amount chunk pos word k (i + 1) (z.grow chunk pos i)).found = true at h
      change 0 < (if (z.grow chunk pos i).count = amount then { z.grow chunk pos i with found := true }
        else searchWord amount chunk pos word k (i + 1) (z.grow chunk pos i)).count
      by_cases hdone : (z.grow chunk pos i).count = amount
      · rw [if_pos hdone]
        exact succ_pos _
      · rw [if_neg hdone] at h ⊢
        refine ih (i + 1) ?_ h
        unfold ZoneSearch.grow
        split <;> exact hz

/-- A search within a chunk that ends has counted a zone. -/
theorem searchChunk_found (amount chunk : ℕ) (data : MetaBlock) (k pos bit : ℕ)
    (hz : z.found = false) (h : (searchChunk amount chunk data k pos bit z).found = true) :
    0 < (searchChunk amount chunk data k pos bit z).count := by
  induction k generalizing pos bit z with
  | zero =>
    rw [searchChunk, hz] at h
    exact absurd h false_ne_true
  | succ k ih =>
    unfold searchChunk at h ⊢
    by_cases hfound : (searchWord amount chunk pos (data (Fin.ofNat 256 pos)) (32 - bit) bit z).found = true
    · rw [if_pos hfound]
      exact searchWord_found amount chunk pos _ (32 - bit) bit hz hfound
    · rw [if_neg hfound] at h ⊢
      exact ih (pos + 1) 0 ((not_eq_true _).mp hfound) h

/-- How many zones an attempt records: no more than were asked for, and some if any were. -/
structure Records (bi : BlockInfo) (result : Bool × BlockInfo × Driver n) : Prop where
  few : result.2.1.count ≤ bi.count
  some : result.1 = true → 0 < bi.count → 0 < result.2.1.count

theorem Records.nothing (bi : BlockInfo) (s : Driver n) : Records bi (false, bi, s) :=
  ⟨le_refl _, fun h => absurd h false_ne_true⟩

/-- What the search within a partition records. -/
theorem searchLoop_records (info : BitmapInfo) (bi : BlockInfo) (amount k : ℕ) (s : Driver n) (chunk index bit : ℕ)
    (hz : z.found = false) : Records bi (searchLoop info m bi amount k s chunk index bit z) := by
  induction k generalizing s chunk index bit z with
  | zero => exact .nothing bi s
  | succ k ih =>
    unfold searchLoop
    split
    · exact .nothing bi s
    · split
      · exact .nothing bi _
      · next bitmap s1 _ =>
        by_cases hfound : (searchChunk amount chunk (s1.cacheBuf bitmap).data (info.words chunk - index) index bit
            z).found = true
        · rw [if_pos hfound]
          have hcount := searchChunk_found amount chunk _ (info.words chunk - index) index bit hz hfound
          refine ⟨?_, fun _ hpos => ?_⟩ <;> simp only [ZoneSearch.run] <;> split <;> omega
        · rw [if_neg hfound]
          exact ih _ _ _ _ ((not_eq_true _).mp hfound)

theorem trySizes_records (k amount : ℕ) (hs : s.Volume m) (hsub : bi.subpart ≤ (s.mounts m).numSubs) :
    Records bi (trySizes m k s bi amount) := by
  obtain ⟨s1, -, heq | ⟨a, -, heq⟩⟩ := trySizes_cases k amount hs hsub <;> rw [heq]
  · exact .nothing bi s1
  · exact searchLoop_records _ bi a _ s1 _ _ _ rfl

/-- In a partition with a clear zone the loop over ever smaller amounts finds some. -/
theorem trySizes_complete (k : ℕ) (hs : s.Volume m) (hsub : bi.subpart ≤ (s.mounts m).numSubs)
    (hnumber : bi.number = 0) (hfree : 0 < ((s.mounts m).freeZone bi.subpart).toNat) {amount : ℕ}
    (hamount : 0 < amount) (hk : amount < k) {p : ℕ} (hp : p < (s.mounts m).zones bi.subpart)
    (hclear : s.zone m bi.subpart p = false) : (trySizes m k s bi amount).1 = true := by
  induction k generalizing s amount with
  | zero => omega
  | succ k ih =>
    unfold trySizes
    rw [if_neg (by omega)]
    by_cases hone : amount = 1
    · subst hone
      rw [if_pos (succ_le_of_lt hfree)]
      have hfound := pfsBitmapAllocZones_single hs hsub hnumber hp hclear
      generalize pfsBitmapAllocZones s m bi 1 = result at hfound ⊢
      obtain ⟨ok, bi', s'⟩ := result
      obtain rfl : ok = true := hfound
      rfl
    · by_cases hfew : amount ≤ ((s.mounts m).freeZone bi.subpart).toNat
      · rw [if_pos hfew]
        have hattempt := pfsBitmapAllocZones_spec hamount hs hsub
        generalize pfsBitmapAllocZones s m bi amount = result at hattempt ⊢
        obtain ⟨ok, bi', s'⟩ := result
        cases ok with
        | true => rfl
        | false =>
          obtain ⟨rfl, hnone⟩ : bi' = bi ∧ _ := hattempt.failed rfl
          have hsame := hnone.returned.same m
          refine ih hnone.returned.volume (hsame.numSubs ▸ hsub) ?_ (by omega) (by omega) ?_ ?_
          · rw [show (s'.mounts m).freeZone = (s.mounts m).freeZone by rw [hsame]]
            exact hfree
          · rw [hsame.zones]
            exact hp
          · rw [hnone.sets _ p (Mount.hasChunk_of_lt hsub hp), if_neg (by omega)]
            exact hclear
      · rw [if_neg hfew]
        exact ih hs hsub hfree (by omega) (by omega) hp hclear

/-- The count of a partition with a clear zone is not zero. -/
theorem Driver.Accounted.freeZone_pos {sub p : ℕ} (hacc : s.Accounted m) (hs : s.Volume m)
    (hsize : (s.mounts m).partSize sub < 2 ^ 32) (hclear : s.ClearZone m sub p) :
    0 < ((s.mounts m).freeZone sub).toNat := by
  obtain ⟨hsub, hp, hzone⟩ := hclear
  have hpos : 0 < s.freeZones m sub :=
    card_pos.mpr ⟨p, mem_filter.mpr ⟨mem_range.mpr hp, hzone⟩⟩
  have hle : s.freeZones m sub ≤ (s.mounts m).zones sub := by
    have hcard := card_filter_le (range ((s.mounts m).zones sub)) fun p => s.zone m sub p = false
    rwa [card_range] at hcard
  have hzones : (s.mounts m).zones sub ≤ (s.mounts m).partSize sub := by
    rw [Mount.zones, shiftRight_eq_div_pow]
    exact div_le_self _ _
  rw [hacc.freeZone sub hsub, (pfsBitmapCalcFreeZones_spec hs hsub).1, toNat_ofNat,
    mod_eq_of_lt (by omega)]
  exact hpos

/-- The loop over the partitions ends at the latest in a partition with a clear zone. -/
theorem searchPartitions_complete {count sub p : ℕ} (d : ℕ) {bi : BlockInfo} (num : BitVec 32) (hs : s.Volume m)
    (hsub : bi.subpart ≤ (s.mounts m).numSubs) (hcount : 0 < count)
    (hfree : 0 < ((s.mounts m).freeZone sub).toNat) (hclear : s.ClearZone m sub p)
    (hd : (bi.subpart + d) % ((s.mounts m).numSubs + 1) = sub) (hnumber : d = 0 → bi.number = 0) :
    ∃ result, searchPartitions m count (d + 1) s bi num = some result := by
  induction d generalizing s bi num with
  | zero =>
    rw [add_zero, mod_eq_of_lt (lt_succ_of_le hsub)] at hd
    subst hd
    have hok := trySizes_complete (count + 1) hs hsub (hnumber rfl) hfree hcount (lt_succ_self count)
      hclear.2.1 hclear.2.2
    unfold searchPartitions
    rw [if_pos (by simp [le_def])]
    generalize trySizes m (count + 1) s bi count = result at hok ⊢
    obtain ⟨ok, bi', s'⟩ := result
    obtain rfl : ok = true := hok
    exact ⟨_, rfl⟩
  | succ d ih =>
    unfold searchPartitions
    rw [if_pos (by simp [le_def])]
    have hattempt : s.Attempt m bi (trySizes m (count + 1) s bi count) := trySizes_spec (count + 1) hs hsub
    generalize trySizes m (count + 1) s bi count = result at hattempt ⊢
    obtain ⟨ok, bi', s'⟩ := result
    cases ok with
    | true => exact ⟨_, rfl⟩
    | false =>
      obtain ⟨rfl, hnone⟩ : bi' = bi ∧ _ := hattempt.failed rfl
      have hsame := hnone.returned.same m
      dsimp only
      rw [if_neg (by simp)]
      refine ih (num - 1) hnone.returned.volume ?_ ?_ ?_ ?_ fun _ => rfl
      · dsimp only
        rw [hsame.numSubs]
        split <;> omega
      · rw [show (s'.mounts m).freeZone = (s.mounts m).freeZone by rw [hsame]]
        exact hfree
      · obtain ⟨hsub', hp, hzone⟩ := hclear
        refine ⟨hsame.numSubs ▸ hsub', hsame.zones sub ▸ hp, ?_⟩
        rw [hnone.sets _ p (Mount.hasChunk_of_lt hsub' hp), if_neg (by omega)]
        exact hzone
      · dsimp only
        rw [hsame.numSubs]
        split
        · next hlast =>
          rw [← hd, show bi'.subpart + (d + 1) = d + (bi'.subpart + 1) by omega, hlast, add_mod_right,
            zero_add]
        · rw [← hd, show bi'.subpart + 1 + d = bi'.subpart + (d + 1) by omega]

/-- Without a free zone no amount is tried. -/
theorem trySizes_exhausted (m k : ℕ) (amount : ℕ) (hfree : (s.mounts m).freeZone bi.subpart = 0) :
    trySizes m k s bi amount = (false, bi, s) := by
  induction k generalizing amount with
  | zero => rfl
  | succ k ih =>
    unfold trySizes
    by_cases hzero : amount = 0
    · rw [if_pos hzero]
    · rw [if_neg hzero, if_neg]
      · exact ih (amount / 2)
      · rw [hfree]
        simpa using hzero

/-- On a full volume the loop over the partitions does not end. -/
theorem searchPartitions_exhausted (count turns : ℕ) (bi : BlockInfo) (num : BitVec 32)
    (hsub : bi.subpart ≤ (s.mounts m).numSubs)
    (hfree : ∀ sub ≤ (s.mounts m).numSubs, (s.mounts m).freeZone sub = 0) :
    searchPartitions m count turns s bi num = none := by
  induction turns generalizing bi num with
  | zero => rfl
  | succ turns ih =>
    unfold searchPartitions
    rw [if_pos (by simp [le_def]), trySizes_exhausted m _ count (hfree _ hsub)]
    apply ih
    dsimp only
    split <;> omega

/-- What the search promises: it returns, with zones that were clear and are marked now if there
was a clear zone, and with `-ENOSPC` and nothing changed if there was none. -/
def Driver.SearchKept (s : Driver n) (m : ℕ) (bi : BlockInfo) (maxCount : ℕ) : Prop :=
  ∃ turns r bi' s', pfsBitmapSearchFreeZone turns s m bi maxCount = some (r, bi', s') ∧
    ((∃ sub p, s.ClearZone m sub p) →
      r = 0 ∧ 0 < bi'.count ∧ bi'.count ≤ bi.count ∧ s.Marked s' m bi' true ∧ s'.Accounted m) ∧
    ((¬ ∃ sub p, s.ClearZone m sub p) →
      r = -28 ∧ (∀ sub p, (s.mounts m).HasChunk sub (p / bitsPerBitmapChunk) → s'.zone m sub p = s.zone m sub p) ∧
        (s'.mounts m).freeZone = (s.mounts m).freeZone ∧ (s'.mounts m).zfree = (s.mounts m).zfree)

/-- What the search records. -/
theorem searchPartitions_records {count : ℕ} (turns : ℕ) {bi : BlockInfo} {num : BitVec 32} (hs : s.Volume m)
    (hsub : bi.subpart ≤ (s.mounts m).numSubs) {r : ℤ} {bi' : BlockInfo}
    (h : searchPartitions m count turns s bi num = some (r, bi', s')) :
    bi'.count ≤ bi.count ∧ (0 < bi.count → 0 < bi'.count) := by
  obtain ⟨s1, bi1, s2, hnone, hsub1, hcount, heq, -, -⟩ := searchPartitions_cases turns hs hsub h
  have hrecords := trySizes_records (count + 1) count hnone.returned.volume hsub1
  rw [heq] at hrecords
  rw [← hcount]
  exact ⟨hrecords.few, hrecords.some rfl⟩

/-- What the routine records: no more zones than were asked for, and some if any were. -/
theorem pfsBitmapSearchFreeZone_records {turns maxCount : ℕ} (hs : s.Volume m) {r : ℤ} {bi' : BlockInfo}
    (h : pfsBitmapSearchFreeZone turns s m bi maxCount = some (r, bi', s')) :
    bi'.count ≤ bi.count ∧ (0 < bi.count → 0 < bi'.count) := by
  obtain ⟨hint, hhint⟩ : ∃ hint, hint =
    if (s.mounts m).numSubs + 1 ≤ bi.subpart then { bi with subpart := 0 } else bi := ⟨_, rfl⟩
  have hcount : hint.count = bi.count := by
    rw [hhint]
    split <;> rfl
  rw [pfsBitmapSearchFreeZone, ← hhint] at h
  rw [← hcount]
  refine searchPartitions_records turns hs ?_ h
  rw [hhint]
  split
  · exact zero_le _
  · omega

/-- The search keeps its promise exactly when zones are asked for and there is a clear zone. -/
theorem pfsBitmapSearchFreeZone_kept_iff (hs : s.Volume m) (hacc : s.Accounted m)
    (hsize : ∀ sub, (s.mounts m).partSize sub < 2 ^ 32) (bi : BlockInfo) (maxCount : ℕ) :
    s.SearchKept m bi maxCount ↔ 0 < bi.count ∧ ∃ sub p, s.ClearZone m sub p := by
  obtain ⟨hint, hhint⟩ : ∃ hint, hint =
    if (s.mounts m).numSubs + 1 ≤ bi.subpart then { bi with subpart := 0 } else bi := ⟨_, rfl⟩
  have hintSub : hint.subpart ≤ (s.mounts m).numSubs := by
    rw [hhint]
    split
    · exact zero_le _
    · omega
  have hintCount : hint.count = bi.count := by
    rw [hhint]
    split <;> rfl
  obtain ⟨count, hcount⟩ : ∃ count, count = if (if maxCount < 33 then maxCount else 32) < hint.count then hint.count
    else if maxCount < 33 then maxCount else 32 := ⟨_, rfl⟩
  obtain ⟨num, hsearch⟩ : ∃ num, ∀ turns, pfsBitmapSearchFreeZone turns s m bi maxCount =
      searchPartitions m count turns s hint num := by
    refine ⟨BitVec.ofNat 32 (if hint.number ≠ 0 then (s.mounts m).numSubs + 2 else (s.mounts m).numSubs + 1) - 1,
      fun turns => ?_⟩
    rw [hcount, hhint]
    rfl
  constructor
  · rintro ⟨turns, r, bi', s', hreturns, hsome, hnone⟩
    obtain ⟨hr, -, -⟩ := pfsBitmapSearchFreeZone_spec hs hreturns
    obtain ⟨hfew, -⟩ := pfsBitmapSearchFreeZone_records hs hreturns
    by_cases hclear : ∃ sub p, s.ClearZone m sub p
    · obtain ⟨-, hpos, -⟩ := hsome hclear
      exact ⟨by omega, hclear⟩
    · obtain ⟨hfailed, -⟩ := hnone hclear
      rw [hr] at hfailed
      exact absurd hfailed (by decide)
  · rintro ⟨hpos, sub, p, hclear⟩
    have hd : (hint.subpart + (sub + ((s.mounts m).numSubs + 1) - hint.subpart)) % ((s.mounts m).numSubs + 1) =
      sub := by
      rw [Nat.add_sub_cancel' (by omega), Nat.add_mod_right, Nat.mod_eq_of_lt (Nat.lt_succ_of_le hclear.1)]
    obtain ⟨⟨r, bi', s'⟩, hreturns⟩ := searchPartitions_complete _ num hs hintSub
      (show 0 < count by rw [hcount, hintCount]; split_ifs <;> omega) (hacc.freeZone_pos hs (hsize sub) hclear)
        hclear hd
      (fun hzero => by have := hclear.1; omega)
    rw [← hsearch] at hreturns
    obtain ⟨hfew, hsome⟩ := pfsBitmapSearchFreeZone_records hs hreturns
    obtain ⟨hr, ⟨hsub', -⟩, s1, hhands, hs'⟩ := pfsBitmapSearchFreeZone_spec hs hreturns
    obtain ⟨hmarked, -, haccounted⟩ := hhands.accounted hs hacc hsub'
    rw [← hs'] at hmarked haccounted
    refine ⟨_, r, bi', s', hreturns, fun _ => ⟨hr, hsome hpos, hfew, hmarked, haccounted⟩,
      fun hnot => absurd ⟨sub, p, hclear⟩ hnot⟩

/-- On the volume of free zones the search for four zones keeps its promise. -/
theorem pfsBitmapSearchFreeZone_kept_freeVolume : freeVolume.SearchKept 0 ⟨0, 0, 4⟩ 4 :=
  (pfsBitmapSearchFreeZone_kept_iff freeVolume_volume freeVolume_accounted (fun _ => show 64 < 2 ^ 32 by decide)
    ⟨0, 0, 4⟩ 4).mpr
    ⟨by decide, 0, 0, by decide, by decide, by decide +kernel⟩

/-- The same volume with all of its zones in use. -/
def fullVolume : Driver 1 :=
  { freeVolume with
    mounts := fun m =>
      { freeVolume.mounts m with
        blockDev := ⟨fun _ _ => 0xFFFFFFFF, []⟩
        zfree := 0
        freeZone := fun _ => 0 } }

theorem fullVolume_sound : fullVolume.Volume 0 ∧ fullVolume.Accounted 0 := by
  refine ⟨volume_of_empty (fun _ => ⟨rfl, rfl⟩) rfl (fun _ => rfl) (fun _ _ =>
    by simp [fullVolume, freeVolume, Mount.zones]) fun sub chunk hchunk => ?_,
    fun sub hsub => ?_, by decide +kernel⟩
  · obtain ⟨hreach, hoff⟩ := freeVolume_volume.placed sub chunk hchunk
    exact ⟨hreach, hoff⟩
  · obtain rfl : sub = 0 := le_zero.mp hsub
    decide +kernel

/-- On the full volume the search never returns. -/
theorem pfsBitmapSearchFreeZone_endless : fullVolume.Volume 0 ∧ fullVolume.Accounted 0 ∧
    ∀ turns, pfsBitmapSearchFreeZone turns fullVolume 0 ⟨0, 0, 4⟩ 4 = none :=
  ⟨fullVolume_sound.1, fullVolume_sound.2, fun turns =>
    searchPartitions_exhausted 4 turns ⟨0, 0, 4⟩ 0 (le_refl 0) fun _ _ => rfl⟩

end Ps2sdk.Pfs
