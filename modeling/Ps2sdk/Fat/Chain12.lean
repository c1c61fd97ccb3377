import Ps2sdk.Fat.Driver

/-!
# Following a FAT12 chain

After a record that spans two sectors the buffer holds the second one, while `lastFatSector`
names the first. A later record of the first sector is then taken from the wrong sector. The
lookup stores the chain exactly when no such misreading changes a link.
-/

namespace Ps2sdk.Fat

open Nat Vol

variable (v : Vol)

/-- The bytes of a copy of the table. -/
def Vol.fatBytes (fatNumber : ℕ) : ℕ → UInt8 :=
  flat v.sectors v.partBpb.sectorSize (v.partBpb.fatStart fatNumber)

/-- The link an entry stands for: none from the end mark `limit` on. -/
def toLink (limit entry : ℕ) : Option ℕ :=
  if limit ≤ entry then none else some entry

/-- The cluster behind `c` in a FAT12 table. -/
def Vol.link12 (c : ℕ) : Option ℕ :=
  toLink 0xFF8 (entry12 (v.fatBytes 0) c)

/-- The chain of a FAT12 table from a start cluster on, as far as the buffer has room. -/
def Vol.chain12 (cluster bufSize : ℕ) (startFlag : Bool) : List ℕ :=
  if startFlag then cluster :: follow v.link12 (bufSize - 1) cluster
  else follow v.link12 bufSize cluster

/-- What the sector buffer holds: the table sector `lastFatSector` names, and whether the
buffer holds the sector after it instead. -/
abbrev Buffered := Option (ℕ × Bool)

variable (buffered : Buffered)

/-- The position from which the driver takes the record of `c`. -/
def Vol.readFrom (c : ℕ) : ℕ :=
  if v.partBpb.sectorSpan c = false ∧ buffered = some (v.partBpb.fatSector12 c, true) then
    recordOffset12 c + v.partBpb.sectorSize
  else recordOffset12 c

/-- The record the driver sees for `c`. -/
def Vol.seen12 (c : ℕ) : ℕ :=
  getClusterRecord12 (fun k => v.fatBytes 0 (v.readFrom buffered c + k)) (c % 2)

/-- What the sector buffer holds after the record of `c`. -/
def Vol.buffer12 (c : ℕ) : Buffered :=
  if v.partBpb.sectorSpan c then some (v.partBpb.fatSector12 c, true)
  else if buffered = some (v.partBpb.fatSector12 c, true) then buffered
  else some (v.partBpb.fatSector12 c, false)

/-- Along the first `room` links of the chain every link is seen as it is. -/
def Vol.Undisturbed (v : Vol) : ℕ → Buffered → ℕ → Prop
  | 0, _, _ => True
  | room + 1, buffered, c =>
    toLink 0xFF8 (v.seen12 buffered c) = v.link12 c ∧
      ∀ d, v.link12 c = some d → v.Undisturbed room (v.buffer12 buffered c) d

/-- The sector buffer as described: what `lastFatSector` names and what the buffer holds. -/
structure Vol.Buffers (lastFatSector : Option ℕ)
    (sbuf : ℕ → UInt8) : Prop where
  named : lastFatSector = buffered.map Prod.fst
  holds : ∀ s ahead, buffered = some (s, ahead) →
    sbuf = v.sectors (v.partBpb.fatStart 0 + s + if ahead then 1 else 0)

variable {v : Vol} {buffered : Buffered} {lastFatSector : Option ℕ} {sbuf : ℕ → UInt8}

theorem getClusterRecord12_congr {buf buf' : ℕ → UInt8} (h0 : buf 0 = buf' 0) (h1 : buf 1 = buf' 1)
    (type : ℕ) : getClusterRecord12 buf type = getClusterRecord12 buf' type := by
  simp only [getClusterRecord12, h0, h1]

/-- A decoded record has at most twelve bits. -/
theorem getClusterRecord12_lt (buf : ℕ → UInt8) (type : ℕ) : getClusterRecord12 buf type < 0x1000 := by
  have h0 := (buf 0).toNat_lt
  have h1 := (buf 1).toNat_lt
  unfold getClusterRecord12
  split
  · rw [shiftLeft_eq, shiftRight_eq_div_pow]
    omega
  · rw [and_0F, shiftLeft_eq]
    omega

/-- A record inside one sector is decoded from the bytes of the table at its position. -/
theorem Vol.record_within (v : Vol) (pos : ℕ) (hss : 0 < v.partBpb.sectorSize)
    (hpos : pos % v.partBpb.sectorSize ≠ v.partBpb.sectorSize - 1) (type : ℕ) :
    getClusterRecord12 (fun k => v.sectors (v.partBpb.fatStart 0 + pos / v.partBpb.sectorSize)
        (pos % v.partBpb.sectorSize + k)) type =
      getClusterRecord12 (fun k => v.fatBytes 0 (pos + k)) type := by
  apply getClusterRecord12_congr
  · rfl
  · exact (flat_succ_within hss hpos).symm

/-- A record over the edge of a sector is decoded from the bytes of the table at its position. -/
theorem Vol.record_across (v : Vol) {pos : ℕ} (hss : 0 < v.partBpb.sectorSize)
    (hpos : pos % v.partBpb.sectorSize = v.partBpb.sectorSize - 1) (type : ℕ) : getClusterRecord12 (fun k =>
        if k = 0 then v.sectors (v.partBpb.fatStart 0 + pos / v.partBpb.sectorSize)
          (v.partBpb.sectorSize - 1)
        else v.sectors (v.partBpb.fatStart 0 + pos / v.partBpb.sectorSize + 1) (k - 1)) type =
      getClusterRecord12 (fun k => v.fatBytes 0 (pos + k)) type := by
  apply getClusterRecord12_congr
  · simp only [fatBytes, flat, add_zero, if_true, hpos]
  · exact (flat_succ_across hss hpos).symm

variable (h : v.Buffers buffered lastFatSector sbuf)

include h

/-- The buffer a record inside one sector is taken from. -/
theorem Vol.Buffers.fetch (hread : ∀ s, v.bad s = false) (S : ℕ) :
    (if lastFatSector = some S then some sbuf else v.readSector (v.partBpb.fatStart 0 + S)) =
      some (v.sectors (v.partBpb.fatStart 0 + S + if buffered = some (S, true) then 1 else 0)) := by
  rw [h.named]
  cases hb : buffered with
  | none => simp [readSector, hread]
  | some held =>
    obtain ⟨T, ahead⟩ := held
    have hsbuf := h.holds T ahead hb
    by_cases hT : T = S
    · subst hT
      simp [hsbuf]
    · simp [hT, readSector, hread]

/-- The driver sees the record described and leaves the buffer as described. -/
theorem Vol.Buffers.getRecord12 (hss : 0 < v.partBpb.sectorSize) (hread : ∀ s, v.bad s = false) (c : ℕ) :
    ∃ sbuf', v.getRecord12 c lastFatSector sbuf = some (v.seen12 buffered c, sbuf') ∧
      v.Buffers (v.buffer12 buffered c) (some (v.partBpb.fatSector12 c)) sbuf' := by
  by_cases hspan : v.partBpb.sectorSpan c = true
  · -- the record is put together from its two sectors
    refine ⟨v.sectors (v.partBpb.fatStart 0 + v.partBpb.fatSector12 c + 1), ?_, ?_⟩
    · have hseen := v.record_across hss (of_decide_eq_true hspan) (c % 2)
      simp only [Vol.getRecord12, hspan, if_true, Vol.readSector, hread, Bool.false_eq_true, if_false,
        Vol.seen12, Vol.readFrom, Bool.true_eq_false, false_and]
      exact congrArg (fun record => some (record, _)) hseen
    · rw [Vol.buffer12, if_pos hspan]
      exact ⟨rfl, fun s ahead hs => by cases hs; rfl⟩
  · have hin : recordOffset12 c % v.partBpb.sectorSize ≠ v.partBpb.sectorSize - 1 :=
      fun hlast => hspan (decide_eq_true hlast)
    have hspan' : v.partBpb.sectorSpan c = false := by simpa using hspan
    have hfetch := h.fetch hread (v.partBpb.fatSector12 c)
    by_cases hahead : buffered = some (v.partBpb.fatSector12 c, true)
    · -- the sector after the record's own is in the buffer
      rw [if_pos hahead] at hfetch
      refine ⟨v.sectors (v.partBpb.fatStart 0 + v.partBpb.fatSector12 c + 1), ?_, ?_⟩
      · have hseen := v.record_within (recordOffset12 c + v.partBpb.sectorSize) hss
          (by rwa [add_mod_right]) (c % 2)
        rw [add_mod_right, add_div_right _ hss] at hseen
        simp only [Vol.getRecord12, hspan', Bool.false_eq_true, if_false, hfetch, Vol.seen12,
          Vol.readFrom, hahead, and_self, if_true]
        exact congrArg (fun record => some (record, _)) hseen
      · rw [Vol.buffer12, if_neg hspan, if_pos hahead, hahead]
        exact ⟨rfl, fun s ahead hs => by cases hs; rfl⟩
    · rw [if_neg hahead] at hfetch
      refine ⟨v.sectors (v.partBpb.fatStart 0 + v.partBpb.fatSector12 c), ?_, ?_⟩
      · have hseen := v.record_within _ hss hin (c % 2)
        simp only [Vol.getRecord12, hspan', Bool.false_eq_true, if_false, hfetch, Vol.seen12,
          Vol.readFrom, hahead, and_false, if_false]
        exact congrArg (fun record => some (record, _)) hseen
      · rw [Vol.buffer12, if_neg hspan, if_neg hahead]
        exact ⟨rfl, fun s ahead hs => by cases hs; rfl⟩

/-- One round of the loop: it ends at the end mark and stores the link otherwise. -/
theorem Vol.Buffers.chainLoop12 (hss : 0 < v.partBpb.sectorSize) (hread : ∀ s, v.bad s = false) (room c : ℕ) :
    ∃ sbuf', v.Buffers (v.buffer12 buffered c) (some (v.partBpb.fatSector12 c)) sbuf' ∧
      v.chainLoop12 (room + 1) c lastFatSector sbuf =
        match toLink 0xFF8 (v.seen12 buffered c) with
        | none => ⟨[], false⟩
        | some d => (v.chainLoop12 room d (some (v.partBpb.fatSector12 c)) sbuf').cons d := by
  obtain ⟨sbuf', hget, hbuf⟩ := h.getRecord12 hss hread c
  refine ⟨sbuf', hbuf, ?_⟩
  have hmask : v.seen12 buffered c &&& 0xFFF = v.seen12 buffered c :=
    and_two_pow_sub_one_of_lt_two_pow (n := 12) (getClusterRecord12_lt _ _)
  rw [Vol.chainLoop12, hget]
  simp only [hmask, toLink]
  by_cases hend : 0xFF8 ≤ v.seen12 buffered c
  · simp [hend]
  · simp [hend]

omit h

/-- The loop stores the chain exactly when no link is disturbed. -/
theorem Vol.Buffers.chainLoop12_iff (hss : 0 < v.partBpb.sectorSize) (hread : ∀ s, v.bad s = false)
    (room : ℕ) : ∀ {buffered lastFatSector sbuf c}, v.Buffers buffered lastFatSector sbuf →
      (v.chainLoop12 room c lastFatSector sbuf = ⟨follow v.link12 room c, false⟩ ↔
        v.Undisturbed room buffered c) := by
  induction room with
  | zero => simp [Vol.chainLoop12, Vol.Undisturbed]
  | succ room ih =>
    intro buffered lastFatSector sbuf c h
    obtain ⟨sbuf', hbuf, hloop⟩ := h.chainLoop12 hss hread room c
    rw [hloop, Vol.Undisturbed]
    cases hlink : v.link12 c with
    | none =>
      rw [follow_none hlink]
      cases hseen : toLink 0xFF8 (v.seen12 buffered c) with
      | none => simp
      | some d => simp [Lookup.cons]
    | some d =>
      rw [follow_some hlink]
      cases hseen : toLink 0xFF8 (v.seen12 buffered c) with
      | none => simp
      | some e =>
        by_cases hed : e = d
        · subst hed
          have hrest := ih (c := e) hbuf
          simp only [Option.some.injEq, forall_eq', true_and, ← hrest, Lookup.cons, Lookup.mk.injEq,
            List.cons.injEq]
          constructor
          · rintro ⟨hentries, hfailed⟩
            exact Lookup.ext hentries hfailed
          · intro hall
            rw [hall]
            exact ⟨rfl, rfl⟩
        · simp [Lookup.cons, hed]

theorem Vol.buffers_none (v : Vol) (sbuf : ℕ → UInt8) : v.Buffers none none sbuf :=
  ⟨rfl, fun s ahead hs => by cases hs⟩

/-- The FAT12 lookup stores the chain, for every table, start cluster, buffer and flag, exactly
when none of its links is disturbed by a sector left in the buffer. -/
theorem getClusterChain12_iff (v : Vol) (hss : 0 < v.partBpb.sectorSize)
    (hread : ∀ s, v.bad s = false) (cluster bufSize : ℕ) (startFlag : Bool) :
    v.getClusterChain12 cluster bufSize startFlag = ⟨v.chain12 cluster bufSize startFlag, false⟩ ↔
      v.Undisturbed (if startFlag then bufSize - 1 else bufSize) none cluster := by
  have hloop := fun room => Vol.Buffers.chainLoop12_iff hss hread room (c := cluster)
    (v.buffers_none fun _ => 0)
  cases startFlag with
  | false => simpa [getClusterChain12, withStart, chain12] using hloop bufSize
  | true =>
    rw [if_pos rfl, ← hloop (bufSize - 1)]
    simp only [getClusterChain12, withStart, if_true, chain12, Lookup.cons, Lookup.mk.injEq,
      List.cons.injEq, true_and]
    constructor
    · rintro ⟨hentries, hfailed⟩
      exact Lookup.ext hentries hfailed
    · intro hall
      rw [hall]
      exact ⟨rfl, rfl⟩

/-- A FAT12 volume with one table sector in use: cluster 341, whose record spans the first two
table sectors, links to cluster 5, which ends the chain. -/
def edgeVolume : Vol where
  partBpb :=
    { sectorSize := 512, clusterSize := 1, resSectors := 1, fatCount := 2, rootSize := 16
      fatSize := 9, sectorCount := 2880, partStart := 0, rootDirStart := 19, rootDirCluster := 0
      fatType := .fat12, dataStart := 20 }
  sectors := fun s k =>
    if s = 1 ∧ k = 7 then 0xF0 else if s = 1 ∧ k = 8 then 0xFF
    else if s = 1 ∧ k = 511 then 0x50 else 0
  bad := fun _ => false

/-- From cluster 5 the links are undisturbed, from cluster 341 they are not. -/
theorem getClusterChain12_iff_edgeVolume : edgeVolume.Undisturbed 2 none 5 ∧ ¬ edgeVolume.Undisturbed 2 none 341 :=
  ⟨(getClusterChain12_iff edgeVolume (by decide) (fun _ => rfl) 5 3 true).1 (by decide +kernel),
    fun h => absurd ((getClusterChain12_iff edgeVolume (by decide) (fun _ => rfl) 341 3 true).2 h)
      (by decide +kernel)⟩

/-- The chain 341, 5 is stored with a third cluster, read from the second table sector. -/
theorem getClusterChain12_misread : edgeVolume.chain12 341 3 true = [341, 5] ∧
      edgeVolume.getClusterChain12 341 3 true = ⟨[341, 5, 0], false⟩ := by
  decide +kernel

end Ps2sdk.Fat
