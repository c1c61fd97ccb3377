import Ps2sdk.Pfs.BitmapBits
import Ps2sdk.Pfs.CacheView

/-!
# The zones of a volume

The bitmap of a partition as one sequence of bits, read through the cache. Each routine of
`bitmap.c` works on it chunk by chunk: it takes the buffer of a chunk, edits it or not, and
returns it before it takes the next one.
-/

namespace Ps2sdk.Pfs

open Lib Nat Driver

variable {n : ℕ}

/-- The bitmap of a partition has a chunk with this number. -/
def Mount.HasChunk (mount : Mount) (sub chunk : ℕ) : Prop :=
  sub ≤ mount.numSubs ∧ chunk * 8192 < mount.zones sub

/-- A mounted volume: the cache is coherent and has a free buffer, the zones of each partition fill
whole bitmap words, and the bitmaps lie off the journal. -/
structure Driver.Volume (s : Driver n) (m : ℕ) : Prop where
  coherent : s.Coherent
  room : s.free ≠ []
  aligned : ∀ sub ≤ (s.mounts m).numSubs, (s.mounts m).zones sub % 32 = 0
  placed : ∀ sub chunk, (s.mounts m).HasChunk sub chunk →
    (s.mounts m).Placed sub ((s.mounts m).bitmapSector sub chunk)
  plain : ∀ sub chunk, (s.mounts m).HasChunk sub chunk → s.PlainAt m sub ((s.mounts m).bitmapSector sub chunk)

/-- The contents of a bitmap chunk. -/
def Driver.chunk (s : Driver n) (m sub chunk : ℕ) : MetaBlock :=
  s.view m sub ((s.mounts m).bitmapSector sub chunk)

/-- Whether a zone is marked as used. -/
def Driver.zone (s : Driver n) (m sub p : ℕ) : Bool :=
  zoneBit (s.chunk m sub (p / 8192)) (p % 8192)

/-- A routine has returned: the volume is in order, and every buffer it took has been given back. -/
structure Driver.Returned (s s' : Driver n) (m : ℕ) : Prop where
  volume : s'.Volume m
  same : ∀ m', (s.mounts m').Same (s'.mounts m')
  nused : ∀ i, (s'.cacheBuf i).nused = (s.cacheBuf i).nused

/-- A run of zones has got the value, every other zone of the volume is as it was. -/
def Driver.Sets (s s' : Driver n) (m sub first count : ℕ) (value : Bool) : Prop :=
  ∀ sub' p, (s.mounts m).HasChunk sub' (p / 8192) →
    s'.zone m sub' p = if sub' = sub ∧ first ≤ p ∧ p < first + count then value else s.zone m sub' p

section Same

variable {mount mount' : Mount} (h : mount.Same mount')

include h

theorem Mount.Same.bitmapSector (sub chunk : ℕ) : mount'.bitmapSector sub chunk = mount.bitmapSector sub chunk := by
  rw [h]
  rfl

theorem Mount.Same.hasChunk (sub chunk : ℕ) : mount'.HasChunk sub chunk ↔ mount.HasChunk sub chunk := by
  rw [h]
  rfl

theorem Mount.Same.zones (sub : ℕ) : mount'.zones sub = mount.zones sub := by
  rw [h]
  rfl

theorem Mount.Same.numSubs : mount'.numSubs = mount.numSubs := by
  rw [h]

end Same

theorem Mount.bitmapSector_inj {mount : Mount} {sub chunk chunk' : ℕ}
    (h : mount.bitmapSector sub chunk = mount.bitmapSector sub chunk') : chunk = chunk' := by
  unfold Mount.bitmapSector at h
  omega

variable {s s' s'' : Driver n} {m sub chunk : ℕ}

theorem Driver.Returned.refl (hs : s.Volume m) : s.Returned s m := ⟨hs, fun _ => .refl _, fun _ => rfl⟩

theorem Driver.Returned.trans (h : s.Returned s' m) (h' : s'.Returned s'' m) : s.Returned s'' m :=
  ⟨h'.volume, fun m' => (h.same m').trans (h'.same m'), fun i => (h'.nused i).trans (h.nused i)⟩

variable (hs : s.Volume m)

include hs

/-- A coherent state with the same mounts and counts is again a mounted volume. -/
theorem Driver.Volume.returned (hcoherent : s'.Coherent) (hsame : ∀ m', (s.mounts m').Same (s'.mounts m'))
    (hplain : ∀ m' sub sector, s.PlainAt m' sub sector → s'.PlainAt m' sub sector)
    (hnused : ∀ i, (s'.cacheBuf i).nused = (s.cacheBuf i).nused) : s.Returned s' m := by
  refine ⟨⟨hcoherent, ?_, ?_, ?_, ?_⟩, hsame, hnused⟩
  · obtain ⟨i, hi⟩ := List.exists_mem_of_ne_nil _ hs.room
    rw [hs.coherent.memFree, ← hnused, ← hcoherent.memFree] at hi
    exact List.ne_nil_of_mem hi
  · intro sub hsub
    rw [(hsame m).zones]
    exact hs.aligned sub ((hsame m).numSubs ▸ hsub)
  · intro sub chunk hchunk
    rw [(hsame m).hasChunk] at hchunk
    rw [(hsame m).bitmapSector, (hsame m).placed]
    exact hs.placed sub chunk hchunk
  · intro sub chunk hchunk
    rw [(hsame m).hasChunk] at hchunk
    rw [(hsame m).bitmapSector]
    exact hplain m sub _ (hs.plain sub chunk hchunk)

theorem Driver.Volume.take (hchunk : (s.mounts m).HasChunk sub chunk) :
    ∃ c s', pfsCacheGetData s m sub ((s.mounts m).bitmapSector sub chunk) .bitmap = (0, some c, s') ∧
      s.Took s' m sub ((s.mounts m).bitmapSector sub chunk) c :=
  hs.coherent.getData (hs.placed sub chunk hchunk) ⟨by decide, by decide⟩ hs.room

section Taken

variable {c : Fin n}

section

variable (h : s.Took s' m sub ((s.mounts m).bitmapSector sub chunk) c)
include h

theorem Driver.Took.data
    (hchunk : (s.mounts m).HasChunk sub chunk) : (s'.cacheBuf c).data = s.chunk m sub chunk := by
  rw [← h.coherent.view_held h.holds]
  exact h.frame.view m sub _ (hs.placed sub chunk hchunk) (hs.plain sub chunk hchunk)

/-- Returning the buffer unchanged. -/
theorem Driver.Took.giveBack : s.Returned (pfsCacheFree s' c) m ∧
      ∀ sub' chunk', (s.mounts m).HasChunk sub' chunk' →
        (pfsCacheFree s' c).chunk m sub' chunk' = s.chunk m sub' chunk' := by
  have hused : (s'.cacheBuf c).nused ≠ 0 := by
    rw [h.nused c, if_pos rfl]
    exact succ_ne_zero _
  have hfree := h.coherent.free hused
  have hframe := h.frame.trans hfree.frame
  have hreturned : s.Returned (pfsCacheFree s' c) m := by
    refine hs.returned hfree.coherent hframe.same hframe.plain fun i => ?_
    have hcount := hfree.nused i
    rw [h.nused i] at hcount
    exact Nat.add_right_cancel hcount
  refine ⟨hreturned, fun sub' chunk' hchunk' => ?_⟩
  unfold Driver.chunk
  rw [(hreturned.same m).bitmapSector]
  exact hframe.view m sub' _ (hs.placed sub' chunk' hchunk') (hs.plain sub' chunk' hchunk')

/-- Returning the buffer with new contents. -/
theorem Driver.Took.writeBack (data : MetaBlock) : s.Returned (pfsCacheFree (s'.edit c data) c) m ∧
      ∀ sub' chunk', (s.mounts m).HasChunk sub' chunk' →
        (pfsCacheFree (s'.edit c data) c).chunk m sub' chunk' =
          if sub' = sub ∧ chunk' = chunk then data else s.chunk m sub' chunk' := by
  have hedit := h.coherent.edit h.holds data
  have hcounts : ∀ i, ((s'.edit c data).cacheBuf i).nused = (s'.cacheBuf i).nused := by
    intro i
    by_cases hic : i = c
    · subst hic
      simp [edit, setBuf]
    · simp [edit, setBuf, hic]
  have hused : ((s'.edit c data).cacheBuf c).nused ≠ 0 := by
    rw [hcounts c, h.nused c, if_pos rfl]
    exact succ_ne_zero _
  have hfree := hedit.coherent.free hused
  have hsame := fun m' => (h.frame.same m').trans ((hedit.same m').trans (hfree.frame.same m'))
  have hplain := fun m' sub' sector' hp =>
    hedit.plain m' sub' sector' (h.frame.plain m' sub' sector' hp)
  have hreturned : s.Returned (pfsCacheFree (s'.edit c data) c) m := by
    refine hs.returned hfree.coherent hsame (fun m' sub' sector' hp =>
      hfree.frame.plain m' sub' sector' (hplain m' sub' sector' hp)) fun i => ?_
    have hcount := hfree.nused i
    rw [hcounts, h.nused i] at hcount
    exact Nat.add_right_cancel hcount
  refine ⟨hreturned, fun sub' chunk' hchunk' => ?_⟩
  have hplaced' := hs.placed sub' chunk' hchunk'
  have hplain' := hs.plain sub' chunk' hchunk'
  have hview := hfree.frame.view m sub' ((s.mounts m).bitmapSector sub' chunk')
    (((h.frame.same m).trans (hedit.same m)).placed.mpr hplaced') (hplain m sub' _ hplain')
  unfold Driver.chunk
  rw [(hreturned.same m).bitmapSector, hview]
  by_cases hhere : sub' = sub ∧ chunk' = chunk
  · obtain ⟨rfl, rfl⟩ := hhere
    rw [if_pos ⟨rfl, rfl⟩, hedit.view]
  · rw [if_neg hhere, hedit.viewOther, h.frame.view m sub' _ hplaced' hplain']
    rintro ⟨-, rfl, hsector⟩
    exact hhere ⟨rfl, Mount.bitmapSector_inj hsector⟩

end

end Taken

omit hs

theorem Driver.Sets.trans {first count more : ℕ} {value : Bool} (hsame : (s.mounts m).Same (s'.mounts m))
    (h : s.Sets s' m sub first count value) (h' : s'.Sets s'' m sub (first + count) more value) :
    s.Sets s'' m sub first (count + more) value := by
  intro sub' p hp
  rw [h' sub' p ((hsame.hasChunk _ _).mpr hp), h sub' p hp]
  repeat' split
  all_goals first | rfl | omega

theorem Driver.Sets.of_chunk_eq (h : ∀ sub' chunk', (s.mounts m).HasChunk sub' chunk' →
    s'.chunk m sub' chunk' = s.chunk m sub' chunk') (first : ℕ) (value : Bool) : s.Sets s' m sub first 0 value := by
  intro sub' p hp
  rw [if_neg (by omega), zone, zone, h sub' _ hp]

/-- A run within one chunk, from the bits of the chunk. -/
theorem Driver.Sets.of_chunk {data : MetaBlock} {first count : ℕ} {value : Bool}
    (h : ∀ sub' chunk', (s.mounts m).HasChunk sub' chunk' → s'.chunk m sub' chunk' =
      if sub' = sub ∧ chunk' = chunk then data else s.chunk m sub' chunk')
    (hbound : first + count ≤ 8192)
    (hdata : ∀ p < 8192, zoneBit data p =
      if first ≤ p ∧ p < first + count then value else zoneBit (s.chunk m sub chunk) p) :
    s.Sets s' m sub (chunk * 8192 + first) count value := by
  intro sub' p hp
  have hmod : p % 8192 < 8192 := mod_lt _ (by decide)
  unfold zone
  rw [h sub' _ hp]
  by_cases hhere : sub' = sub ∧ p / 8192 = chunk
  · obtain ⟨rfl, rfl⟩ := hhere
    rw [if_pos ⟨rfl, rfl⟩, hdata _ hmod]
    repeat' split
    all_goals first | rfl | omega
  · rw [if_neg hhere, if_neg]
    rintro ⟨rfl, hlow, hhigh⟩
    refine hhere ⟨rfl, ?_⟩
    omega

theorem Mount.hasChunk_of_lt {mount : Mount} {sub p : ℕ} (hsub : sub ≤ mount.numSubs) (hp : p < mount.zones sub) :
    mount.HasChunk sub (p / 8192) :=
  ⟨hsub, (div_mul_le_self p 8192).trans_lt hp⟩

/-- `pfsBitmapAllocFree` marks or frees a run of zones, and returns every buffer. -/
theorem allocFreeLoop_spec (op : BitmapOp) (k : ℕ) (hs : s.Volume m) {c : Fin n} {index bit count : ℕ}
    (hchunk : (s.mounts m).HasChunk sub chunk)
    (htook : s.Took s' m sub ((s.mounts m).bitmapSector sub chunk) c) (hindex : index < 256) (hbit : bit < 32)
    (hrun : chunk * 8192 + (index * 32 + bit) + count ≤ (s.mounts m).zones sub) (hk : count < k) :
    s.Returned (allocFreeLoop op m sub k s' (some c) chunk index bit count) m ∧
      s.Sets (allocFreeLoop op m sub k s' (some c) chunk index bit count) m sub
        (chunk * 8192 + (index * 32 + bit)) count op.value := by
  induction k generalizing s s' c chunk index bit count with
  | zero => omega
  | succ k ih =>
    obtain ⟨hleft, hdata⟩ := allocFreeChunk_spec op (256 - index) (s'.cacheBuf c).data index bit count
      (by omega) hbit
    unfold allocFreeLoop
    generalize allocFreeChunk op (256 - index) (s'.cacheBuf c).data index bit count = result at *
    obtain ⟨data, left⟩ := result
    dsimp only at hleft hdata ⊢
    obtain ⟨hreturned, hchunks⟩ := htook.writeBack hs data
    rw [htook.data hs hchunk] at hdata
    have hsets := Driver.Sets.of_chunk hchunks (by omega) hdata
    by_cases hzero : left = 0
    · rw [if_pos hzero]
      refine ⟨hreturned, ?_⟩
      rwa [show min ((256 - index) * 32 - bit) count = count by omega] at hsets
    · rw [if_neg hzero]
      have hfill : min ((256 - index) * 32 - bit) count = 8192 - (index * 32 + bit) := by omega
      rw [hfill] at hsets hleft
      generalize pfsCacheFree (s'.edit c data) c = s1 at *
      have hnext : (s1.mounts m).HasChunk sub (chunk + 1) := by
        rw [(hreturned.same m).hasChunk]
        refine ⟨hchunk.1, ?_⟩
        omega
      obtain ⟨c', s2, hget, htook'⟩ := hreturned.volume.take hnext
      rw [hget]
      have hstart : chunk * 8192 + (index * 32 + bit) + (8192 - (index * 32 + bit)) =
          (chunk + 1) * 8192 + (0 * 32 + 0) := by
        omega
      have hcount : 8192 - (index * 32 + bit) + left = count := by omega
      have hbound : (chunk + 1) * 8192 + (0 * 32 + 0) + left ≤ (s1.mounts m).zones sub := by
        rw [(hreturned.same m).zones, Nat.zero_mul, Nat.add_zero, Nat.add_zero]
        omega
      obtain ⟨hreturned', hsets'⟩ := ih hreturned.volume hnext htook' (show 0 < 256 by omega)
        (show 0 < 32 by omega) hbound (show left < k by omega)
      refine ⟨hreturned.trans hreturned', ?_⟩
      rw [← hstart] at hsets'
      have hboth := hsets.trans (hreturned.same m) hsets'
      rwa [hcount] at hboth

end Ps2sdk.Pfs
