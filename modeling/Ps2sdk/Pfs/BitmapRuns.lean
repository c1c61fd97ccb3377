import Ps2sdk.Pfs.BitmapVolume

/-!
# Allocating and freeing runs of zones

What each routine of `bitmap.c` does to the zones of a volume: the run it hands out was clear and
is marked, the run it frees is clear, and nothing else changes.
-/

namespace Ps2sdk.Pfs

open Lib Nat

variable {n : ℕ} {s s' s'' : Driver n} {m sub : ℕ}

/-- The bounds of the chunk loops. -/
structure BitmapInfo.For (info : BitmapInfo) (mount : Mount) (sub : ℕ) : Prop where
  chunks : info.partitionChunks = mount.zones sub / 8192
  remainder : info.partitionRemainder = mount.zones sub % 8192

variable {info : BitmapInfo} {mount : Mount} {chunk first count index bit amount : ℕ} {z : ZoneSearch}
  {bi : BlockInfo}

theorem pfsBitmapSetupInfo_for (mount : Mount) (sub number : ℕ) :
    (pfsBitmapSetupInfo mount sub number).For mount sub := ⟨rfl, rfl⟩

variable (h : info.For mount sub)

include h

theorem BitmapInfo.For.of_same {mount' : Mount} (hsame : mount.Same mount') : info.For mount' sub :=
  ⟨by rw [hsame.zones, h.chunks], by rw [hsame.zones, h.remainder]⟩

theorem BitmapInfo.For.inPartition
    (hsub : sub ≤ mount.numSubs) : info.inPartition chunk = true ↔ mount.HasChunk sub chunk := by
  unfold BitmapInfo.inPartition Mount.HasChunk
  rw [h.chunks, h.remainder]
  simp only [Bool.or_eq_true, Bool.and_eq_true, beq_iff_eq, bne_iff_ne, decide_eq_true_eq, hsub, true_and]
  omega

theorem BitmapInfo.For.words (haligned : mount.zones sub % 32 = 0) (hchunk : mount.HasChunk sub chunk) :
    info.words chunk ≤ 256 ∧ chunk * 8192 + info.words chunk * 32 = min (mount.zones sub) ((chunk + 1) * 8192) := by
  have hlt := hchunk.2
  unfold BitmapInfo.words
  rw [h.chunks, h.remainder]
  split <;> omega

omit h

/-- Zones that were clear have been handed out. -/
structure Driver.HandsOut (s s' : Driver n) (m sub first count : ℕ) : Prop where
  returned : s.Returned s' m
  inside : 0 < count → first + count ≤ (s.mounts m).zones sub
  clear : ∀ p, first ≤ p → p < first + count → s.zone m sub p = false
  sets : s.Sets s' m sub first count true

/-- Zones handed out in two goes. -/
theorem Driver.HandsOut.trans {more : ℕ} (hsub : sub ≤ (s.mounts m).numSubs)
    (h : s.HandsOut s' m sub first count) (h' : s'.HandsOut s'' m sub (first + count) more) :
    s.HandsOut s'' m sub first (count + more) where
  returned := h.returned.trans h'.returned
  inside hpos := by
    have hsame := (h.returned.same m).zones sub
    have hmore := h'.inside
    rw [hsame] at hmore
    by_cases hzero : more = 0
    · subst hzero
      exact h.inside hpos
    · have := hmore (Nat.pos_of_ne_zero hzero)
      omega
  clear p hlow hhigh := by
    by_cases hp : p < first + count
    · exact h.clear p hlow hp
    · have hinside := h'.inside (by omega)
      rw [(h.returned.same m).zones] at hinside
      have hclear := h'.clear p (by omega) (by omega)
      rwa [h.sets sub p (Mount.hasChunk_of_lt hsub (by omega)), if_neg (by omega)] at hclear
  sets := h.sets.trans (h.returned.same m) h'.sets

theorem Driver.HandsOut.none (h : s.Returned s' m) (hchunks : ∀ sub' chunk', (s.mounts m).HasChunk sub' chunk' →
    s'.chunk m sub' chunk' = s.chunk m sub' chunk') (first : ℕ) : s.HandsOut s' m sub first 0 :=
  ⟨h, fun hpos => absurd hpos (lt_irrefl 0), fun p hlow hhigh => by omega, .of_chunk_eq hchunks first true⟩

theorem Driver.HandsOut.idle (hs : s.Volume m) (first : ℕ) : s.HandsOut s m sub first 0 :=
  .none (.refl hs) (fun _ _ _ => rfl) first

/-- Zones handed out after nothing was handed out. -/
theorem Driver.HandsOut.after {sub' first' : ℕ} (hsub : sub ≤ (s.mounts m).numSubs)
    (h : s'.HandsOut s'' m sub first count) (hnone : s.HandsOut s' m sub' first' 0) :
    s.HandsOut s'' m sub first count := by
  have hhere : s.HandsOut s' m sub first 0 := by
    refine ⟨hnone.returned, fun hpos => absurd hpos (Nat.lt_irrefl 0), fun p hlow hhigh =>
      by omega, fun sub'' p hp => ?_⟩
    rw [hnone.sets sub'' p hp, if_neg (by omega), if_neg (by omega)]
  have hboth := hhere.trans hsub h
  rwa [Nat.zero_add] at hboth

theorem extendLoop_stop {k res : ℕ} (h : info.inPartition chunk = false ∨ count = 0) :
    extendLoop info m sub k s chunk index bit count res = (res, s) := by
  cases k with
  | zero => rfl
  | succ k => rw [extendLoop, if_pos h]

/-- The zones taken from one chunk. -/
theorem Driver.Took.extend {c : Fin n} (hs : s.Volume m) (hchunk : (s.mounts m).HasChunk sub chunk)
    (htook : s.Took s' m sub ((s.mounts m).bitmapSector sub chunk) c) {ext ext' : Extension}
    {room taken : ℕ} (hdata : ext.data = (s'.cacheBuf c).data) (hfrom : ext.From ext' first room taken)
    (hroom : taken ≠ 0 → chunk * 8192 + first + taken ≤ min ((s.mounts m).zones sub) ((chunk + 1) * 8192)) :
    s.HandsOut (pfsCacheFree (if ext'.res = ext.res then s' else s'.edit c ext'.data) c) m sub
      (chunk * 8192 + first) taken := by
  have hres := hfrom.res
  by_cases hzero : taken = 0
  · subst hzero
    rw [if_pos (by omega)]
    obtain ⟨hreturned, hchunks⟩ := htook.giveBack hs
    exact .none hreturned hchunks _
  · have hbound := hroom hzero
    rw [if_neg (by omega)]
    obtain ⟨hreturned, hchunks⟩ := htook.writeBack hs ext'.data
    rw [htook.data hs hchunk] at hdata
    refine ⟨hreturned, fun _ => by omega, fun p hlow hhigh => ?_, ?_⟩
    · have hdiv : p / 8192 = chunk := by omega
      have hclear := hfrom.extends_.clear (p % 8192) (by omega) (by omega)
      rw [Driver.zone, hdiv, ← hdata, hclear]
    · refine Driver.Sets.of_chunk hchunks (by omega) fun p hp => ?_
      rw [hfrom.extends_.marked p hp, hdata]

/-- A zone of a partition that may be handed out. -/
def Driver.ClearZone (s : Driver n) (m sub p : ℕ) : Prop :=
  sub ≤ (s.mounts m).numSubs ∧ p < (s.mounts m).zones sub ∧ s.zone m sub p = false

theorem Driver.ClearZone.before {sub' first' p : ℕ} (h : s'.ClearZone m sub p)
    (hnone : s.HandsOut s' m sub' first' 0) : s.ClearZone m sub p := by
  have hsame := hnone.returned.same m
  obtain ⟨hsub, hp, hclear⟩ := h
  rw [hsame.numSubs] at hsub
  rw [hsame.zones] at hp
  rw [hnone.sets sub p (Mount.hasChunk_of_lt hsub hp), if_neg (by omega)] at hclear
  exact ⟨hsub, hp, hclear⟩

/-- The loop of `pfsBitmapAllocateAdditionalZones` over the chunks: it takes a clear zone that is wanted. -/
theorem extendLoop_spec (k : ℕ) (hs : s.Volume m) (hinfo : info.For (s.mounts m) sub)
    (hsub : sub ≤ (s.mounts m).numSubs) {res : ℕ} (hindex : index < 256) (hbit : bit < 32) :
    ∃ taken, (extendLoop info m sub k s chunk index bit count res).1 = res + taken ∧ taken ≤ count ∧
      (0 < k → 0 < count → s.ClearZone m sub (chunk * 8192 + (index * 32 + bit)) → 0 < taken) ∧
      s.HandsOut (extendLoop info m sub k s chunk index bit count res).2 m sub
        (chunk * 8192 + (index * 32 + bit)) taken := by
  induction k generalizing s chunk index bit count res with
  | zero => exact ⟨0, rfl, zero_le _, fun h => absurd h (lt_irrefl 0), .idle hs _⟩
  | succ k ih =>
    by_cases hstop : info.inPartition chunk = false ∨ count = 0
    · rw [extendLoop_stop hstop]
      refine ⟨0, rfl, zero_le _, fun _ hpos hclear => ?_, .idle hs _⟩
      have hchunk : (s.mounts m).HasChunk sub chunk := ⟨hsub, (le_add_right _ _).trans_lt hclear.2.1⟩
      rw [← hinfo.inPartition hsub] at hchunk
      simp only [hchunk, Bool.true_eq_false, false_or] at hstop
      omega
    · unfold extendLoop
      rw [if_neg hstop]
      rw [not_or, Bool.not_eq_false, hinfo.inPartition hsub] at hstop
      obtain ⟨hchunk, hcount⟩ := hstop
      obtain ⟨c, s1, hget, htook⟩ := hs.take hchunk
      rw [hget]
      dsimp only
      obtain ⟨hwords, hend⟩ := hinfo.words (hs.aligned sub hsub) hchunk
      obtain ⟨⟨taken, hfrom⟩, hlast⟩ := extendChunk_spec (info.words chunk - index) index
        ⟨(s1.cacheBuf c).data, bit, count, res, false⟩ (by omega) hbit rfl
      generalize extendChunk (info.words chunk - index) index
        ⟨(s1.cacheBuf c).data, bit, count, res, false⟩ = ext at *
      have hroom := hfrom.le_room
      dsimp only at hroom
      have hfirst := htook.extend hs hchunk rfl hfrom (by dsimp only; omega)
      have hres := hfrom.res
      have hleft := hfrom.count
      have hle := hfrom.le_count
      dsimp only at hres hleft hle hfirst
      have htakes : s.ClearZone m sub (chunk * 8192 + (index * 32 + bit)) → 0 < taken := by
        rintro ⟨-, hinside, hclear⟩
        have hdiv : (chunk * 8192 + (index * 32 + bit)) / 8192 = chunk := by omega
        have hmod : (chunk * 8192 + (index * 32 + bit)) % 8192 = index * 32 + bit := by omega
        rw [Driver.zone, hdiv, hmod, ← htook.data hs hchunk] at hclear
        exact hfrom.takes (by dsimp only; omega) (Nat.pos_of_ne_zero hcount) hclear
      cases hused : ext.used with
      | true => exact ⟨taken, hres, hle, fun _ _ => htakes, hfirst⟩
      | false =>
        rw [if_neg (by simp)]
        have hreturned := hfirst.returned
        generalize pfsCacheFree (if ext.res = res then s1 else s1.edit c ext.data) c = s2 at *
        by_cases hnext : info.inPartition (chunk + 1) = false ∨ ext.count = 0
        · rw [extendLoop_stop hnext]
          exact ⟨taken, hres, hle, fun _ _ => htakes, hfirst⟩
        · rw [not_or, Bool.not_eq_false, hinfo.inPartition hsub] at hnext
          have hnextEnd := hnext.1.2
          have hfull := hfrom.stops hused
          dsimp only at hfull
          have hbit' := hlast hused hnext.2 (by omega)
          have hstart : chunk * 8192 + (index * 32 + bit) + taken = (chunk + 1) * 8192 + (0 * 32 + ext.bit) := by
            rw [hbit', Nat.zero_mul, Nat.add_zero, Nat.add_zero]
            apply Nat.le_antisymm <;> omega
          obtain ⟨more, hres', hle', -, hmore⟩ := ih hreturned.volume (hinfo.of_same (hreturned.same m))
            ((hreturned.same m).numSubs ▸ hsub) (show 0 < 256 by omega) (show ext.bit < 32 by omega)
          rw [← hstart] at hmore
          exact ⟨taken + more, by rw [hres', hres, Nat.add_assoc], by omega, fun _ _ hclear => by
            have := htakes hclear; omega, hfirst.trans hsub hmore⟩

/-- A found run is marked, starting from the buffer the search ended with. -/
theorem allocFound_spec {e : ℕ} {bitmap : Fin n} (hs : s.Volume m)
    (hsub : bi.subpart = sub) (hchunk : (s.mounts m).HasChunk sub chunk)
    (htook : s.Took s' m sub ((s.mounts m).bitmapSector sub chunk) bitmap) (hamount : 0 < amount)
    (hfound : z.Found (s.zone m sub) amount e) (hend : e ≤ min ((s.mounts m).zones sub) ((chunk + 1) * 8192)) :
    s.HandsOut (allocFound s' m bitmap z (z.run bi)) m sub (z.run bi).number (z.run bi).count := by
  obtain ⟨hstart, hpos, hbit⟩ := hfound.start
  have hnumber : (z.run bi).number = z.startChunk * 8192 + (z.startPos * 32 + z.startBit) := by
    simp only [ZoneSearch.run, bitsPerBitmapChunk]
    omega
  have hstartEq : z.start = (z.run bi).number := by
    rw [hnumber, ZoneSearch.start, Nat.add_assoc]
  have hcount : (z.run bi).count ≤ amount := by
    simp only [ZoneSearch.run, hfound.count]
    split <;> omega
  have hstartChunk : (s.mounts m).HasChunk sub z.startChunk := by
    refine ⟨hchunk.1, ?_⟩
    omega
  have hrun : z.startChunk * 8192 + (z.startPos * 32 + z.startBit) + (z.run bi).count ≤
      (s.mounts m).zones sub := by
    rw [← hnumber, ← hstartEq]
    omega
  have hclear : ∀ p, (z.run bi).number ≤ p → p < (z.run bi).number + (z.run bi).count → s.zone m sub p = false := by
    intro p hlow hhigh
    exact hfound.clear p (by omega) (by omega)
  have hinside : 0 < (z.run bi).count → (z.run bi).number + (z.run bi).count ≤ (s.mounts m).zones sub := by
    intro _
    omega
  have hsubpart : (z.run bi).subpart = sub := hsub
  have hscale : (s'.mounts m).inodeScale = (s.mounts m).inodeScale := by rw [htook.frame.same m]
  have hsector : (s'.cacheBuf bitmap).sector = (s.mounts m).bitmapSector sub chunk :=
    (CacheBuf.isFor_iff.mp htook.holds).2.2
  unfold allocFound pfsBitmapAllocFree
  dsimp only
  rw [hsubpart, hsector, hscale]
  split
  · obtain ⟨hreturned, hchunks⟩ := htook.giveBack hs
    have hnone : s.HandsOut (pfsCacheFree s' bitmap) m sub (z.run bi).number 0 := .none hreturned hchunks _
    generalize pfsCacheFree s' bitmap = s1 at *
    have hbitmapSector : (s'.mounts m).bitmapSector sub z.startChunk =
      (s1.mounts m).bitmapSector sub z.startChunk := by
      rw [(hreturned.same m).bitmapSector, (htook.frame.same m).bitmapSector]
    obtain ⟨c, s2, hget, htook'⟩ := hreturned.volume.take (((hreturned.same m).hasChunk _ _).mpr hstartChunk)
    rw [hbitmapSector, hget]
    obtain ⟨hreturned', hsets⟩ := allocFreeLoop_spec .alloc ((z.run bi).count + 1) hreturned.volume
      (((hreturned.same m).hasChunk _ _).mpr hstartChunk) htook' hpos hbit
      (by rw [(hreturned.same m).zones]; exact hrun) (lt_succ_self _)
    rw [← hnumber] at hsets
    refine ⟨hreturned.trans hreturned', hinside, hclear, ?_⟩
    have hboth := hnone.sets.trans (hreturned.same m) hsets
    rwa [Nat.zero_add] at hboth
  · next hsame =>
    have hchunkEq : z.startChunk = chunk := by
      rw [not_not] at hsame
      unfold Mount.bitmapSector at hsame
      split at hsame <;> omega
    rw [hchunkEq] at hrun ⊢
    obtain ⟨hreturned, hsets⟩ := allocFreeLoop_spec .alloc ((z.run bi).count + 1) hs hchunk htook hpos hbit hrun
      (lt_succ_self _)
    rw [← hchunkEq, ← hnumber] at hsets
    exact ⟨hreturned, hinside, hclear, hchunkEq ▸ hsets⟩

theorem ZoneSearch.At.congr {used used' : ℕ → Bool} {p : ℕ} (h : z.At used amount p)
    (heq : ∀ q < p, used' q = used q) : z.At used' amount p :=
  ⟨h.notFound, h.few, h.start, fun q hlow hhigh => (heq q hhigh).trans (h.clear q hlow hhigh)⟩

/-- What an attempt to allocate does: nothing, or it hands out a run that it records, from a clear zone on. -/
structure Driver.Attempt (s : Driver n) (m : ℕ) (bi : BlockInfo) (result : Bool × BlockInfo × Driver n) : Prop where
  subpart : result.2.1.subpart = bi.subpart
  failed : result.1 = false → result.2.1 = bi ∧ s.HandsOut result.2.2 m bi.subpart 0 0
  found : result.1 = true → s.HandsOut result.2.2 m bi.subpart result.2.1.number result.2.1.count
  lands : result.1 = true → s.ClearZone m bi.subpart result.2.1.number

theorem Driver.Attempt.nothing (h : s.HandsOut s' m bi.subpart 0 0) : s.Attempt m bi (false, bi, s') :=
  ⟨rfl, fun _ => ⟨rfl, h⟩, fun hfalse => absurd hfalse Bool.false_ne_true,
    fun hfalse => absurd hfalse Bool.false_ne_true⟩

theorem Driver.Attempt.after {result : Bool × BlockInfo × Driver n}
    (hsub : bi.subpart ≤ (s.mounts m).numSubs) (h : s'.Attempt m bi result)
    (hbefore : s.HandsOut s' m bi.subpart 0 0) : s.Attempt m bi result :=
  ⟨h.subpart, fun hfailed => ⟨(h.failed hfailed).1, (h.failed hfailed).2.after hsub hbefore⟩,
    fun hfound => (h.found hfound).after hsub hbefore, fun hfound => (h.lands hfound).before hbefore⟩

/-- The loop of `pfsBitmapAllocZones` over the chunks. -/
theorem searchLoop_spec (hamount : 0 < amount) (k : ℕ)
    (hs : s.Volume m) (hinfo : info.For (s.mounts m) bi.subpart) (hsub : bi.subpart ≤ (s.mounts m).numSubs)
    (hindex : index < 256) (hbit : bit < 32) (hat : info.inPartition chunk = true →
      z.At (s.zone m bi.subpart) amount (chunk * 8192 + index * 32 + bit)) :
    s.Attempt m bi (searchLoop info m bi amount k s chunk index bit z) := by
  induction k generalizing s chunk index bit z with
  | zero => exact .nothing (.idle hs _)
  | succ k ih =>
    unfold searchLoop
    by_cases hstop : info.inPartition chunk = false
    · rw [if_pos hstop]
      exact .nothing (.idle hs _)
    · rw [if_neg hstop]
      rw [Bool.not_eq_false] at hstop
      have hz := hat hstop
      have hchunk := (hinfo.inPartition hsub).mp hstop
      obtain ⟨bitmap, s1, hget, htook⟩ := hs.take hchunk
      rw [hget]
      dsimp only
      obtain ⟨hwords, hend⟩ := hinfo.words (hs.aligned _ hsub) hchunk
      have hdata : ∀ p < 8192, zoneBit (s1.cacheBuf bitmap).data p = s.zone m bi.subpart (chunk * 8192 + p) := by
        intro p hp
        have hdiv : (chunk * 8192 + p) / 8192 = chunk := by omega
        have hmod : (chunk * 8192 + p) % 8192 = p := by omega
        rw [htook.data hs hchunk, Driver.zone, hdiv, hmod]
      obtain ⟨hreturned, hchunks⟩ := htook.giveBack hs
      have hnone : s.HandsOut (pfsCacheFree s1 bitmap) m bi.subpart 0 0 := .none hreturned hchunks _
      have hrest : ∀ z' : ZoneSearch, (info.inPartition (chunk + 1) = true →
          z'.At (s.zone m bi.subpart) amount ((chunk + 1) * 8192)) →
          s.Attempt m bi (searchLoop info m bi amount k (pfsCacheFree s1 bitmap) (chunk + 1) 0
            (if index < info.words chunk then 0 else bit) z') := by
        intro z' hz'
        refine Driver.Attempt.after hsub (ih hreturned.volume (hinfo.of_same (hreturned.same m))
          ((hreturned.same m).numSubs ▸ hsub) (by omega) (by split <;> omega) fun hnext => ?_) hnone
        have hnextEnd := ((hinfo.inPartition hsub).mp hnext).2
        rw [if_pos (by omega), Nat.zero_mul, Nat.add_zero, Nat.add_zero]
        refine (hz' hnext).congr fun q hq => ?_
        rw [hnone.sets bi.subpart q (Mount.hasChunk_of_lt hsub (by omega)), if_neg (by omega)]
      by_cases hempty : info.words chunk - index = 0
      · rw [hempty]
        change s.Attempt m bi (if z.found = true then _ else _)
        rw [if_neg (by simp [hz.notFound])]
        refine hrest z fun hnext => ?_
        have hnextEnd := ((hinfo.inPartition hsub).mp hnext).2
        omega
      · have hsearch := @searchChunk_spec (s.zone m bi.subpart) amount chunk _ hdata (info.words chunk - index)
          index bit (by omega) hbit z _ (chunk * 8192 + info.words chunk * 32) rfl (by omega) hz
        generalize searchChunk amount chunk (s1.cacheBuf bitmap).data (info.words chunk - index) index bit z =
          z' at *
        rcases hsearch with hnot | hfound
        · rw [if_neg (by simp [hnot.notFound])]
          refine hrest z' fun hnext => ?_
          have hnextEnd := ((hinfo.inPartition hsub).mp hnext).2
          rwa [show (chunk + 1) * 8192 = chunk * 8192 + info.words chunk * 32 by
            apply le_antisymm <;> omega]
        · rw [if_pos hfound.found]
          refine ⟨rfl, fun hfalse => absurd hfalse (by simp), fun _ =>
            allocFound_spec hs rfl hchunk htook hamount hfound (by omega), fun _ => ?_⟩
          have hstart := hfound.start.1
          rw [show (z'.run bi).number = z'.start by
            simp only [ZoneSearch.run, ZoneSearch.start, bitsPerBitmapChunk]; omega]
          exact ⟨hsub, by omega, hfound.clear _ (le_refl _) (by omega)⟩

/-- `pfsBitmapAllocZones` hands out a run of clear zones or changes nothing. -/
theorem pfsBitmapAllocZones_spec (hamount : 0 < amount) (hs : s.Volume m)
    (hsub : bi.subpart ≤ (s.mounts m).numSubs) : s.Attempt m bi (pfsBitmapAllocZones s m bi amount) := by
  unfold pfsBitmapAllocZones
  refine searchLoop_spec hamount _ hs (pfsBitmapSetupInfo_for _ _ _) hsub ?_ ?_ fun _ => ?_
  · change bi.number % 8192 / 32 < 256
    omega
  · exact mod_lt _ (by omega)
  · exact ⟨rfl, hamount, fun hpos => absurd hpos (lt_irrefl 0), fun q hlow hhigh => by
      dsimp only at hlow
      omega⟩

/-- The loop over ever smaller amounts ends without a run, or with one of its attempts. -/
theorem trySizes_cases (k amount : ℕ) (hs : s.Volume m) (hsub : bi.subpart ≤ (s.mounts m).numSubs) :
    ∃ s1, s.HandsOut s1 m bi.subpart 0 0 ∧ (trySizes m k s bi amount = (false, bi, s1) ∨
      ∃ a, 0 < a ∧ trySizes m k s bi amount = pfsBitmapAllocZones s1 m bi a) := by
  induction k generalizing s amount with
  | zero => exact ⟨s, .idle hs _, .inl rfl⟩
  | succ k ih =>
    unfold trySizes
    by_cases hzero : amount = 0
    · exact ⟨s, .idle hs _, .inl (if_pos hzero)⟩
    · rw [if_neg hzero]
      by_cases hfew : amount ≤ ((s.mounts m).freeZone bi.subpart).toNat
      · rw [if_pos hfew]
        have hpos := Nat.pos_of_ne_zero hzero
        have hattempt := pfsBitmapAllocZones_spec hpos hs hsub
        generalize hresult : pfsBitmapAllocZones s m bi amount = result at hattempt ⊢
        obtain ⟨ok, bi', s'⟩ := result
        cases ok with
        | true => exact ⟨s, .idle hs _, .inr ⟨amount, hpos, hresult.symm⟩⟩
        | false =>
          obtain ⟨rfl, hnone⟩ : bi' = bi ∧ _ := hattempt.failed rfl
          obtain ⟨s1, hnone', hcases⟩ := ih _ hnone.returned.volume ((hnone.returned.same m).numSubs ▸ hsub)
          exact ⟨s1, hnone'.after hsub hnone, hcases⟩
      · rw [if_neg hfew]
        exact ih _ hs hsub

theorem trySizes_spec (k : ℕ) (hs : s.Volume m)
    (hsub : bi.subpart ≤ (s.mounts m).numSubs) : s.Attempt m bi (trySizes m k s bi amount) := by
  obtain ⟨s1, hnone, heq | ⟨a, ha, heq⟩⟩ := trySizes_cases k amount hs hsub <;> rw [heq]
  · exact .nothing hnone
  · exact .after hsub
      (pfsBitmapAllocZones_spec ha hnone.returned.volume ((hnone.returned.same m).numSubs ▸ hsub)) hnone

/-- The loop over the partitions ends with an attempt that finds a run. -/
theorem searchPartitions_cases (turns : ℕ) {num : BitVec 32} (hs : s.Volume m)
    (hsub : bi.subpart ≤ (s.mounts m).numSubs) {r : ℤ} {bi' : BlockInfo}
    (h : searchPartitions m count turns s bi num = some (r, bi', s')) :
    ∃ s1 bi1 s2, s.HandsOut s1 m 0 0 0 ∧ bi1.subpart ≤ (s1.mounts m).numSubs ∧ bi1.count = bi.count ∧
      trySizes m (count + 1) s1 bi1 count = (true, bi', s2) ∧ r = 0 ∧ s' =
        s2.takeZones m bi'.subpart bi'.count := by
  induction turns generalizing s bi num with
  | zero => simp [searchPartitions] at h
  | succ turns ih =>
    unfold searchPartitions at h
    rw [if_pos (by simp [BitVec.le_def])] at h
    have hattempt : s.Attempt m bi (trySizes m (count + 1) s bi count) := trySizes_spec (count + 1) hs hsub
    generalize hresult : trySizes m (count + 1) s bi count = result at h hattempt
    obtain ⟨ok, bi1, s1⟩ := result
    cases ok with
    | true =>
      obtain ⟨rfl, rfl, rfl⟩ := h
      exact ⟨s, bi, s1, .idle hs 0, hsub, rfl, hresult, rfl, rfl⟩
    | false =>
      obtain ⟨rfl, hnone⟩ : bi1 = bi ∧ _ := hattempt.failed rfl
      dsimp only at h
      rw [if_neg (by simp)] at h
      obtain ⟨s2, bi2, s3, hnone', hrest⟩ := ih hnone.returned.volume (by
        dsimp only
        rw [(hnone.returned.same m).numSubs]
        split <;> omega) h
      exact ⟨s2, bi2, s3, hnone'.after (zero_le _) hnone, hrest⟩

/-- The loop over the partitions: when it ends, a run has been handed out and taken from the counts. -/
theorem searchPartitions_spec (turns : ℕ) {num : BitVec 32} (hs : s.Volume m)
    (hsub : bi.subpart ≤ (s.mounts m).numSubs) {r : ℤ} {bi' : BlockInfo}
    (h : searchPartitions m count turns s bi num = some (r, bi', s')) : r = 0 ∧
    s.ClearZone m bi'.subpart bi'.number ∧
      ∃ s1, s.HandsOut s1 m bi'.subpart bi'.number bi'.count ∧ s' = s1.takeZones m bi'.subpart bi'.count := by
  obtain ⟨s1, bi1, s2, hnone, hsub1, -, heq, rfl, rfl⟩ := searchPartitions_cases turns hs hsub h
  have hattempt : s1.Attempt m bi1 (trySizes m (count + 1) s1 bi1 count) :=
    trySizes_spec (count + 1) hnone.returned.volume hsub1
  rw [heq] at hattempt
  have hbi : bi'.subpart = bi1.subpart := hattempt.subpart
  rw [(hnone.returned.same m).numSubs, ← hbi] at hsub1
  have hfound := hattempt.found rfl
  have hlands := hattempt.lands rfl
  rw [← hbi] at hfound hlands
  refine ⟨rfl, hlands.before hnone, s2, ?_, rfl⟩
  exact hfound.after hsub1 hnone

/-- `pfsBitmapSearchFreeZone`: when it returns, it has handed out the run it records. -/
theorem pfsBitmapSearchFreeZone_spec {turns maxCount : ℕ} (hs : s.Volume m) {r : ℤ} {bi' : BlockInfo}
    (h : pfsBitmapSearchFreeZone turns s m bi maxCount = some (r, bi', s')) :
    r = 0 ∧ s.ClearZone m bi'.subpart bi'.number ∧
      ∃ s1, s.HandsOut s1 m bi'.subpart bi'.number bi'.count ∧ s' = s1.takeZones m bi'.subpart bi'.count := by
  refine searchPartitions_spec turns hs ?_ h
  split
  · exact zero_le _
  · next hsub => omega

/-- `pfsBitmapAllocateAdditionalZones`: the zones behind the run that it has handed out, as many as the run
has room for, and at least one if it can. -/
theorem pfsBitmapAllocateAdditionalZones_spec (count : ℕ) (hs : s.Volume m)
    (hsub : bi.subpart ≤ (s.mounts m).numSubs) :
    (pfsBitmapAllocateAdditionalZones s m bi count).1 ≤ min count (65535 - bi.count) ∧
    (0 < min count (65535 - bi.count) → s.ClearZone m bi.subpart ((bi.number + bi.count) % 2 ^ 32) →
      0 < (pfsBitmapAllocateAdditionalZones s m bi count).1) ∧
    ∃ s1, s.HandsOut s1 m bi.subpart ((bi.number + bi.count) % 2 ^ 32)
        (pfsBitmapAllocateAdditionalZones s m bi count).1 ∧
      (pfsBitmapAllocateAdditionalZones s m bi count).2 =
        s1.takeZones m bi.subpart (pfsBitmapAllocateAdditionalZones s m bi count).1 := by
  unfold pfsBitmapAllocateAdditionalZones
  generalize (bi.number + bi.count) % 2 ^ 32 = first
  rw [show (if 65535 - bi.count < count then 65535 - bi.count else count) = min count (65535 - bi.count) by
    split <;> omega]
  generalize min count (65535 - bi.count) = count
  have hinfo := pfsBitmapSetupInfo_for (s.mounts m) bi.subpart first
  obtain ⟨taken, hres, hle, htakes, hhands⟩ := @extendLoop_spec n s m bi.subpart _ (first / 8192) count _ _
    ((pfsBitmapSetupInfo (s.mounts m) bi.subpart first).partitionChunks + 2) hs hinfo hsub 0
    (show first % 8192 / 32 < 256 by omega) (show first % 32 < 32 by omega)
  have hfirst : first / 8192 * 8192 + (first % 8192 / 32 * 32 + first % 32) = first := by
    apply le_antisymm <;> omega
  rw [hfirst] at hhands htakes
  change (extendLoop _ m bi.subpart _ s (pfsBitmapSetupInfo (s.mounts m) bi.subpart first).chunk
    (pfsBitmapSetupInfo (s.mounts m) bi.subpart first).index
    (pfsBitmapSetupInfo (s.mounts m) bi.subpart first).bit count 0).1 = _ at hres
  rw [Nat.zero_add] at hres
  dsimp only
  rw [hres]
  exact ⟨hle, htakes (succ_pos _), _, hhands, rfl⟩

/-- A run of zones of a partition, all of them in use. -/
structure Driver.Allocated (s : Driver n) (m : ℕ) (bi : BlockInfo) : Prop where
  subpart : bi.subpart ≤ (s.mounts m).numSubs
  start : bi.number < (s.mounts m).zones bi.subpart
  inside : bi.number + bi.count ≤ (s.mounts m).zones bi.subpart
  used : ∀ p, bi.number ≤ p → p < bi.number + bi.count → s.zone m bi.subpart p = true

/-- `pfsBitmapFreeBlockSegment` clears the run and gives it back to the counts. -/
theorem pfsBitmapFreeBlockSegment_spec (hs : s.Volume m) (h : s.Allocated m bi) :
    ∃ s1, s.Returned s1 m ∧ s.Sets s1 m bi.subpart bi.number bi.count false ∧
      pfsBitmapFreeBlockSegment s m bi = s1.giveZones m bi.subpart bi.count := by
  have hchunk := Mount.hasChunk_of_lt h.subpart h.start
  obtain ⟨c, s1, hget, htook⟩ := hs.take hchunk
  have hfirst : bi.number / 8192 * 8192 + (bi.number % 8192 / 32 * 32 + bi.number % 32) = bi.number := by
    apply le_antisymm <;> omega
  obtain ⟨hreturned, hsets⟩ := allocFreeLoop_spec .free (bi.count + 1) hs hchunk htook
    (show bi.number % 8192 / 32 < 256 by omega) (show bi.number % 32 < 32 by omega)
    (by rw [hfirst]; exact h.inside) (lt_succ_self _)
  rw [hfirst] at hsets
  refine ⟨_, hreturned, hsets, ?_⟩
  unfold pfsBitmapFreeBlockSegment
  dsimp only
  rw [show (pfsBitmapSetupInfo (s.mounts m) bi.subpart bi.number).chunk = bi.number / 8192 from rfl, hget]
  rfl

end Ps2sdk.Pfs
