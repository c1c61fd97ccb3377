import Ps2sdk.Pfs.Chain

/-!
# Positions in a file

`pfsBlockInitPos` and `pfsInodeSync` of `block.c` and `inode.c`. The loop carries the zones that are still to
be passed; at the first entry of a descriptor it carries one more, for the zone of the descriptor itself. A
position is the one of the sum, apart from two cases: an inode that has data but no size starts at the zone
behind the inode itself, and the end of the data is not found behind a descriptor without entries.
-/

namespace Ps2sdk.Pfs

section Seek

open Lib Nat Vol

/-- `-EINVAL`. -/
def eInval : ℤ := -22

/-- `pfs_blockpos_t`; the descriptor is `NULL` after a failure. -/
structure BlockPos where
  inode : Option Place
  blockSegment : ℕ
  blockOffset : ℕ
  byteOffset : ℕ
  deriving DecidableEq

namespace Vol

variable (v : Vol)

/-- `pfsBlockGetNextSegment`: the next descriptor, if there is one. -/
def pfsBlockGetNextSegment (clink : Place) : Option Place :=
  if (nextSegment (v.block clink)).number ≠ 0 then some (v.zonePlace (nextSegment (v.block clink))) else none

/-- `pfsBlockSyncPos`: the byte offset is moved, and the zones to pass are returned. -/
def pfsBlockSyncPos (blockpos : BlockPos) (size : ℕ) : ℕ × BlockPos :=
  let i := size / v.zsize % 2 ^ 32
  let byteOffset := (blockpos.byteOffset + size % v.zsize) % 2 ^ 32
  if v.zsize ≤ byteOffset then ((i + 1) % 2 ^ 32, { blockpos with byteOffset := byteOffset - v.zsize })
  else (i, { blockpos with byteOffset := byteOffset })

/-- The loop of `pfsInodeSync`; `none` is an access through `NULL`, or a loop that does not end in time. -/
def syncLoop (v : Vol) (usedSegments : ℕ) : ℕ → BlockPos → ℕ → Option (ℤ × BlockPos)
  | 0, _, _ => none
  | _ + 1, blockpos, 0 => some (0, blockpos)
  | turns + 1, blockpos, i + 1 =>
    blockpos.inode.bind fun inode =>
      let count := (data (v.block inode) (pfsFixIndex blockpos.blockSegment)).count
      let i := (i + 1 + blockpos.blockOffset) % 2 ^ 32
      if i < count then some (0, { blockpos with blockOffset := i })
      else
        let i := i - count
        let last := (blockpos.blockSegment + 1) % 2 ^ 32 == usedSegments
        let blockpos :=
          if last then { blockpos with blockOffset := count }
          else { blockpos with blockOffset := 0, blockSegment := (blockpos.blockSegment + 1) % 2 ^ 32 }
        if last ∧ (i ≠ 0 ∨ blockpos.byteOffset ≠ 0) then some (eInval, blockpos)
        else if pfsFixIndex blockpos.blockSegment ≠ 0 then syncLoop v usedSegments turns blockpos i
        else
          match v.pfsBlockGetNextSegment inode with
          | none => some (eInval, { blockpos with inode := none })
          | some next => syncLoop v usedSegments turns { blockpos with inode := some next } ((i + 1) % 2 ^ 32)

/-- `pfsInodeSync`: move a position by a number of bytes. -/
def pfsInodeSync (blockpos : BlockPos) (size usedSegments : ℕ) : Option (ℤ × BlockPos) :=
  let (i, blockpos) := v.pfsBlockSyncPos blockpos size
  v.syncLoop usedSegments (usedSegments + 2) blockpos i

/-- `pfsBlockInitPos`: the position of a byte of a file. -/
def pfsBlockInitPos (clink : Place) (position : ℕ) : Option (ℤ × BlockPos) :=
  let inode := v.block clink
  if size inode ≠ 0 then v.pfsInodeSync ⟨some clink, 1, 0, 0⟩ position (numberData inode)
  else v.pfsInodeSync ⟨some clink, 0, 1, 0⟩ position (numberData inode)

end Vol

/-- One for the zone of a descriptor. -/
def ahead (i : ℕ) : ℕ := if pfsFixIndex i = 0 then 1 else 0

/-- A position from which a number of zones is to be passed to reach a data zone. -/
structure Toward (v : Vol) (x : Place) (zone : ℕ) (blockpos : BlockPos) (i : ℕ) : Prop where
  inode : blockpos.inode = some (v.descAt x (descIndex blockpos.blockSegment))
  segment : blockpos.blockSegment < v.entries x
  offset : blockpos.blockOffset ≤ (v.entry x blockpos.blockSegment).count
  zones : before (v.dataSize x) blockpos.blockSegment + blockpos.blockOffset + i =
    zone + ahead blockpos.blockSegment

/-- A position in a data segment, or behind the last. -/
structure Landed (v : Vol) (x : Place) (blockpos : BlockPos) : Prop where
  data : pfsFixIndex blockpos.blockSegment ≠ 0
  inside : blockpos.blockOffset < (v.entry x blockpos.blockSegment).count ∨
    blockpos.blockSegment + 1 = v.entries x ∧ blockpos.blockOffset = (v.entry x blockpos.blockSegment).count

section Loop

variable {v : Vol} {x : Place} {zone i turns : ℕ} {blockpos : BlockPos}

theorem Chain.before_succ (h : Chain v x) {seg : ℕ} (hseg : seg < v.entries x) :
    before (v.dataSize x) (seg + 1) + ahead seg = before (v.dataSize x) seg + (v.entry x seg).count := by
  rw [before]
  unfold ahead
  by_cases hfix : pfsFixIndex seg = 0
  · rw [if_pos hfix, dataSize_of_eq hfix, (h.own seg hseg hfix).1]
  · rw [if_neg hfix, dataSize_of_ne hfix, add_zero]

/-- The numbers of the loop are those of a word. -/
theorem Toward.lt_word (h : Chain v x) (ht : Toward v x zone blockpos i) (hzone : zone ≤ v.capacity x) :
    i + blockpos.blockOffset < 2 ^ 32 ∧ blockpos.blockSegment + 1 < 2 ^ 32 := by
  have hcap := h.capacity_lt
  have hahead : ahead blockpos.blockSegment ≤ 1 := by
    unfold ahead
    split <;> omega
  have hzones := ht.zones
  have hseg := ht.segment
  have hword : v.entries x < 2 ^ 32 := word_lt _ _
  omega

theorem Toward.count_eq (inode : Place) (hinode : blockpos.inode = some inode) (ht : Toward v x zone blockpos i) :
    (data (v.block inode) (pfsFixIndex blockpos.blockSegment)).count = (v.entry x blockpos.blockSegment).count := by
  have heq := Option.some.inj (hinode.symm.trans ht.inode)
  rw [heq, entry]

theorem syncLoop_stop (h : Chain v x) (ht : Toward v x zone blockpos (i + 1)) (hzone : zone ≤ v.capacity x)
    (hlt : i + 1 + blockpos.blockOffset < (v.entry x blockpos.blockSegment).count) :
    v.syncLoop (v.entries x) (turns + 1) blockpos (i + 1) =
      some (0, { blockpos with blockOffset := i + 1 + blockpos.blockOffset }) := by
  have hword := (ht.lt_word h hzone).1
  rw [syncLoop, ht.inode, Option.bind_some]
  simp only [Toward.count_eq _ ht.inode ht, mod_eq_of_lt hword, if_pos hlt]

/-- The position of the next segment. -/
def Vol.nextPos (v : Vol) (x : Place) (blockpos : BlockPos) : BlockPos :=
  { blockpos with
    inode := some (v.descAt x (descIndex (blockpos.blockSegment + 1)))
    blockSegment := blockpos.blockSegment + 1
    blockOffset := 0 }

section

variable (h : Chain v x)
include h

/-- The loop passes a segment that is not the last. -/
theorem syncLoop_pass (ht : Toward v x zone blockpos (i + 1)) (hzone : zone ≤ v.capacity x)
    (hle : (v.entry x blockpos.blockSegment).count ≤ i + 1 + blockpos.blockOffset)
    (hnext : blockpos.blockSegment + 1 < v.entries x) : v.syncLoop (v.entries x) (turns + 1) blockpos (i + 1) =
      v.syncLoop (v.entries x) turns (v.nextPos x blockpos)
        (i + 1 + blockpos.blockOffset - (v.entry x blockpos.blockSegment).count +
          ahead (blockpos.blockSegment + 1)) := by
  obtain ⟨hword, hseg⟩ := ht.lt_word h hzone
  have hdesc := descIndex_succ blockpos.blockSegment
  have hpos := h.filled _ ht.segment
  rw [syncLoop, ht.inode, Option.bind_some]
  simp only [Toward.count_eq _ ht.inode ht, Nat.mod_eq_of_lt hword, if_neg (Nat.not_lt.mpr hle),
    Nat.mod_eq_of_lt hseg, beq_eq_false_iff_ne.mpr (Nat.ne_of_lt hnext), Bool.false_eq_true, if_false, false_and]
  unfold ahead nextPos
  by_cases hfix : pfsFixIndex (blockpos.blockSegment + 1) = 0
  · rw [if_pos hfix] at hdesc
    rw [if_neg (not_not.mpr hfix), if_pos hfix, pfsBlockGetNextSegment, if_pos (h.next_ne_zero hnext hfix),
      hdesc, descAt, Nat.mod_eq_of_lt (by omega)]
  · rw [if_neg hfix] at hdesc
    rw [if_pos hfix, if_neg hfix, hdesc]
    rfl

/-- The next segment is on the way. -/
theorem Toward.next (ht : Toward v x zone blockpos i)
    (hle : (v.entry x blockpos.blockSegment).count ≤ i + blockpos.blockOffset)
    (hnext : blockpos.blockSegment + 1 < v.entries x) :
    Toward v x zone (v.nextPos x blockpos) (i + blockpos.blockOffset - (v.entry x blockpos.blockSegment).count +
      ahead (blockpos.blockSegment + 1)) where
  inode := rfl
  segment := hnext
  offset := zero_le _
  zones := by
    have hzones := ht.zones
    have hsucc := h.before_succ ht.segment
    show before (v.dataSize x) (blockpos.blockSegment + 1) + 0 + _ = zone + ahead (blockpos.blockSegment + 1)
    omega

/-- The loop ends behind the last data segment. -/
theorem syncLoop_end (ht : Toward v x zone blockpos (i + 1)) (hzone : zone ≤ v.capacity x)
    (hbyte : zone = v.capacity x → blockpos.byteOffset = 0)
    (hle : (v.entry x blockpos.blockSegment).count ≤ i + 1 + blockpos.blockOffset)
    (hlast : blockpos.blockSegment + 1 = v.entries x) (hfix : pfsFixIndex blockpos.blockSegment ≠ 0) :
    v.syncLoop (v.entries x) (turns + 2) blockpos (i + 1) =
      some (0, { blockpos with blockOffset := (v.entry x blockpos.blockSegment).count }) := by
  obtain ⟨hword, hseg⟩ := ht.lt_word h hzone
  have hsucc := h.before_succ ht.segment
  have hzones := ht.zones
  rw [hlast] at hsucc
  rw [capacity] at hzone hbyte
  have hrest : i + 1 + blockpos.blockOffset - (v.entry x blockpos.blockSegment).count = 0 := by omega
  have hzero : blockpos.byteOffset = 0 := hbyte (by omega)
  rw [syncLoop, ht.inode, Option.bind_some]
  simp only [Toward.count_eq _ ht.inode ht, mod_eq_of_lt hword, if_neg (not_lt.mpr hle),
    mod_eq_of_lt hseg, beq_iff_eq.mpr hlast, if_true, hrest, hzero, ne_eq, not_true_eq_false, or_self,
    and_false, if_false, hfix, not_false_eq_true, syncLoop]

/-- The loop fails behind a descriptor that is the last entry. -/
theorem syncLoop_bare (ht : Toward v x zone blockpos (i + 1)) (hzone : zone ≤ v.capacity x)
    (hle : (v.entry x blockpos.blockSegment).count ≤ i + 1 + blockpos.blockOffset)
    (hlast : blockpos.blockSegment + 1 = v.entries x) (hfix : pfsFixIndex blockpos.blockSegment = 0) :
    ∃ blockpos', v.syncLoop (v.entries x) (turns + 1) blockpos (i + 1) = some (eInval, blockpos') := by
  obtain ⟨hword, hseg⟩ := ht.lt_word h hzone
  have hended : v.pfsBlockGetNextSegment (v.descAt x (descIndex blockpos.blockSegment)) = none := by
    have hdesc : blockpos.blockSegment = v.entries x - 1 := by omega
    rw [hdesc]
    exact if_neg (not_not.mpr h.ended)
  rw [syncLoop, ht.inode, Option.bind_some]
  simp only [Toward.count_eq _ ht.inode ht, mod_eq_of_lt hword, if_neg (not_lt.mpr hle),
    mod_eq_of_lt hseg, beq_iff_eq.mpr hlast, if_true, if_neg (not_not.mpr hfix), hended]
  split
  · exact ⟨_, rfl⟩
  · exact ⟨_, rfl⟩

/-- A zone that is still ahead at the last entry is the one behind the data, if the entry is a descriptor. -/
theorem Toward.eq_capacity (ht : Toward v x zone blockpos (i + 1)) (hzone : zone ≤ v.capacity x)
    (hle : (v.entry x blockpos.blockSegment).count ≤ i + 1 + blockpos.blockOffset)
    (hlast : blockpos.blockSegment + 1 = v.entries x) : zone = v.capacity x := by
  have hsucc := h.before_succ ht.segment
  have hzones := ht.zones
  rw [hlast] at hsucc
  unfold capacity at *
  omega

theorem Toward.data_of_lt (ht : Toward v x zone blockpos (i + 1))
    (hlt : i + 1 + blockpos.blockOffset < (v.entry x blockpos.blockSegment).count) :
    pfsFixIndex blockpos.blockSegment ≠ 0 := by
  intro hfix
  rw [(h.own _ ht.segment hfix).1] at hlt
  omega

/-- The loop lands on the zone, or fails behind the data if the last entry is a descriptor. -/
theorem syncLoop_ends (hzone : zone ≤ v.capacity x) (turns : ℕ) :
    ∀ (blockpos : BlockPos) (i : ℕ), Toward v x zone blockpos (i + 1) →
      (zone = v.capacity x → pfsFixIndex (v.entries x - 1) ≠ 0 → blockpos.byteOffset = 0) →
      v.entries x - blockpos.blockSegment < turns →
      ∃ r blockpos', v.syncLoop (v.entries x) turns blockpos (i + 1) = some (r, blockpos') ∧
        (r = 0 ∧ Toward v x zone blockpos' 0 ∧ Landed v x blockpos' ∧ blockpos'.byteOffset = blockpos.byteOffset ∨
          r = eInval ∧ zone = v.capacity x ∧ pfsFixIndex (v.entries x - 1) = 0) := by
  induction turns with
  | zero => exact fun _ _ _ _ hturns => absurd hturns (not_lt_zero _)
  | succ turns ih =>
    intro blockpos i ht hbyte hturns
    have hzones := ht.zones
    by_cases hlt : i + 1 + blockpos.blockOffset < (v.entry x blockpos.blockSegment).count
    · have hfix := ht.data_of_lt h hlt
      refine ⟨_, _, syncLoop_stop h ht hzone hlt, .inl ⟨rfl, ⟨ht.inode, ht.segment, le_of_lt hlt, ?_⟩,
        ⟨hfix, .inl hlt⟩, rfl⟩⟩
      show before (v.dataSize x) blockpos.blockSegment + (i + 1 + blockpos.blockOffset) + 0 =
        zone + ahead blockpos.blockSegment
      omega
    · have hle := not_lt.mp hlt
      by_cases hnext : blockpos.blockSegment + 1 < v.entries x
      · have ht' := ht.next h hle hnext
        rw [syncLoop_pass h ht hzone hle hnext]
        cases hrest : i + 1 + blockpos.blockOffset - (v.entry x blockpos.blockSegment).count +
          ahead (blockpos.blockSegment + 1) with
        | zero =>
          have hfix : pfsFixIndex (blockpos.blockSegment + 1) ≠ 0 := by
            intro hfix
            rw [ahead, if_pos hfix] at hrest
            omega
          rw [hrest] at ht'
          obtain ⟨turns, rfl⟩ := exists_eq_succ_of_ne_zero (show turns ≠ 0 by omega)
          exact ⟨_, _, by rw [syncLoop], .inl ⟨rfl, ht', ⟨hfix, .inl (h.filled _ hnext)⟩, rfl⟩⟩
        | succ i' =>
          rw [hrest] at ht'
          refine ih (v.nextPos x blockpos) i' ht' hbyte ?_
          show v.entries x - (blockpos.blockSegment + 1) < turns
          omega
      · have hend : blockpos.blockSegment + 1 = v.entries x := by
          have hseg := ht.segment
          omega
        rw [show v.entries x - 1 = blockpos.blockSegment by omega] at hbyte ⊢
        have hfull := ht.eq_capacity h hzone hle hend
        by_cases hfix : pfsFixIndex blockpos.blockSegment = 0
        · obtain ⟨blockpos', hbare⟩ := syncLoop_bare h ht hzone hle hend hfix
          exact ⟨_, blockpos', hbare, .inr ⟨rfl, hfull, hfix⟩⟩
        · have hsucc := h.before_succ ht.segment
          rw [hend] at hsucc
          obtain ⟨turns, rfl⟩ := exists_eq_succ_of_ne_zero (show turns ≠ 0 by omega)
          refine ⟨_, _, syncLoop_end h ht hzone (fun hfull => hbyte hfull hfix) hle hend hfix, .inl ⟨rfl,
            ⟨ht.inode, ht.segment, le_refl _, ?_⟩, ⟨hfix, .inr ⟨hend, rfl⟩⟩, rfl⟩⟩
          show before (v.dataSize x) blockpos.blockSegment + (v.entry x blockpos.blockSegment).count + 0 =
            zone + ahead blockpos.blockSegment
          unfold capacity at hfull
          omega

/-- No position behind the data has landed, if the last entry is a descriptor. -/
theorem Landed.not_end (hlanded : Landed v x blockpos) (ht : Toward v x (v.capacity x) blockpos 0)
    (hlast : pfsFixIndex (v.entries x - 1) = 0) : False := by
  have hzones := ht.zones
  have hsucc := h.before_succ ht.segment
  have hcap : before (v.dataSize x) (blockpos.blockSegment + 1) ≤ v.capacity x := before_mono ht.segment
  rcases hlanded.inside with hlt | ⟨hend, -⟩
  · omega
  · rw [show v.entries x - 1 = blockpos.blockSegment by omega] at hlast
    exact hlanded.data hlast

end

end Loop

/-- The position of a byte: the loop has passed the zones before, or has not been entered in an inode without
size. -/
structure At (v : Vol) (x : Place) (p : ℕ) (blockpos : BlockPos) : Prop where
  toward : Toward v x (p / v.zsize) blockpos 0
  byte : blockpos.byteOffset = p % v.zsize
  landed : Landed v x blockpos ∨ blockpos.blockSegment = 0 ∧ p < v.zsize ∧ size (v.block x) = 0

/-- The zone a position designates; none behind the last. -/
def Vol.zoneAt (v : Vol) (x : Place) (blockpos : BlockPos) : Option (ℕ × ℕ) :=
  blockpos.inode.bind fun inode =>
    let bi := data (v.block inode) (pfsFixIndex blockpos.blockSegment)
    if blockpos.blockSegment + 1 = v.entries x ∧ blockpos.blockOffset = bi.count then none
    else some (bi.subpart, bi.number + blockpos.blockOffset)

section Positions

variable {v : Vol} {x : Place} {p q : ℕ} {blockpos : BlockPos}

/-- The zones to pass and the byte offset after a move. -/
theorem pfsBlockSyncPos_eq (v : Vol) {blockpos : BlockPos} (size : ℕ) (hbyte : blockpos.byteOffset < v.zsize)
    (hsize : (blockpos.byteOffset + size) / v.zsize < 2 ^ 32) :
    v.pfsBlockSyncPos blockpos size = ((blockpos.byteOffset + size) / v.zsize,
      { blockpos with byteOffset := (blockpos.byteOffset + size) % v.zsize }) := by
  obtain ⟨hlow, hhigh⟩ := v.zsize_bounds
  have hpos : 0 < v.zsize := by omega
  have hmod := mod_lt size hpos
  have hsum : blockpos.byteOffset + size =
      blockpos.byteOffset + size % v.zsize + v.zsize * (size / v.zsize) := by
    have hdiv := mod_add_div size v.zsize
    omega
  rw [hsum, add_mul_div_left _ _ hpos] at hsize
  have hword : size / v.zsize < 2 ^ 32 := lt_of_le_of_lt (le_add_left _ _) hsize
  rw [hsum, add_mul_div_left _ _ hpos, add_mul_mod_self_left]
  unfold pfsBlockSyncPos
  simp only [mod_eq_of_lt hword,
    mod_eq_of_lt (show blockpos.byteOffset + size % v.zsize < 2 ^ 32 by omega)]
  by_cases hcarry : v.zsize ≤ blockpos.byteOffset + size % v.zsize
  · have hone : (blockpos.byteOffset + size % v.zsize) / v.zsize = 1 :=
      Nat.div_eq_of_lt_le (by omega) (by omega)
    have hrest := @Nat.mod_eq_sub_div_mul (blockpos.byteOffset + size % v.zsize) v.zsize
    rw [hone] at hsize hrest
    rw [if_pos hcarry, hone, Nat.mod_eq_of_lt (by omega), hrest, Nat.one_mul, Nat.add_comm]
  · have hlt := not_le.mp hcarry
    rw [if_neg hcarry, div_eq_of_lt hlt, mod_eq_of_lt hlt, zero_add]

/-- `pfsInodeSync` runs its loop over the zones to pass. -/
theorem pfsInodeSync_eq (v : Vol) {blockpos : BlockPos} (size usedSegments : ℕ)
    (hbyte : blockpos.byteOffset < v.zsize) (hsize : (blockpos.byteOffset + size) / v.zsize < 2 ^ 32) :
    v.pfsInodeSync blockpos size usedSegments = v.syncLoop usedSegments (usedSegments + 2)
      { blockpos with byteOffset := (blockpos.byteOffset + size) % v.zsize }
      ((blockpos.byteOffset + size) / v.zsize) := by
  rw [pfsInodeSync, pfsBlockSyncPos_eq v size hbyte hsize]

/-- `pfsInodeSync` moves a position by a number of bytes. -/
theorem pfsInodeSync_at (h : Chain v x) (hat : At v x p blockpos) (hle : p + q ≤ v.capacity x * v.zsize)
    (hlast : pfsFixIndex (v.entries x - 1) ≠ 0 ∨ p + q < v.capacity x * v.zsize ∨ p + q = 0) :
    ∃ blockpos', v.pfsInodeSync blockpos q (v.entries x) = some (0, blockpos') ∧ At v x (p + q) blockpos' := by
  have hpos := v.zsize_pos
  have hmod := mod_lt p hpos
  have hdiv : (p + q) / v.zsize = p / v.zsize + (p % v.zsize + q) / v.zsize := by
    have hp := mod_add_div p v.zsize
    rw [show p + q = p % v.zsize + q + v.zsize * (p / v.zsize) by omega, add_mul_div_left _ _ hpos]
    omega
  have hrem : (p % v.zsize + q) % v.zsize = (p + q) % v.zsize := Nat.mod_add_mod p v.zsize q
  have hzone : (p + q) / v.zsize ≤ v.capacity x := Nat.div_le_of_le_mul (by rwa [Nat.mul_comm] at hle)
  have hcap := h.capacity_lt
  have hword : (p % v.zsize + q) / v.zsize < 2 ^ 32 := by
    have hpart : (p % v.zsize + q) / v.zsize ≤ (p + q) / v.zsize := hdiv ▸ Nat.le_add_left _ _
    omega
  rw [pfsInodeSync_eq v q _ (hat.byte ▸ hmod) (hat.byte.symm ▸ hword), hat.byte, hrem]
  cases hpass : (p % v.zsize + q) / v.zsize with
  | zero =>
    have hlt : p % v.zsize + q < v.zsize := lt_of_div_eq_zero hpos hpass
    rw [hpass, add_zero] at hdiv
    refine ⟨_, by rw [syncLoop], ⟨?_, rfl, ?_⟩⟩
    · rw [hdiv]
      exact ⟨hat.toward.inode, hat.toward.segment, hat.toward.offset, hat.toward.zones⟩
    · rcases hat.landed with hlanded | ⟨hseg, hstart, hsize⟩
      · exact .inl ⟨hlanded.data, hlanded.inside⟩
      · rw [mod_eq_of_lt hstart] at hlt
        exact .inr ⟨hseg, hlt, hsize⟩
  | succ i =>
    rw [hpass] at hdiv
    have ht : Toward v x ((p + q) / v.zsize) { blockpos with byteOffset := (p + q) % v.zsize } (i + 1) := by
      refine ⟨hat.toward.inode, hat.toward.segment, hat.toward.offset, ?_⟩
      have hzones := hat.toward.zones
      show before (v.dataSize x) blockpos.blockSegment + blockpos.blockOffset + (i + 1) =
        (p + q) / v.zsize + ahead blockpos.blockSegment
      omega
    have hend : pfsFixIndex (v.entries x - 1) ≠ 0 ∨ (p + q) / v.zsize < v.capacity x := by
      rcases hlast with hdata | hlt | hzero
      · exact .inl hdata
      · exact .inr (Nat.div_lt_of_lt_mul (by rwa [Nat.mul_comm] at hlt))
      · rw [hzero, Nat.zero_div] at hdiv
        exact absurd hdiv (Nat.ne_of_lt (Nat.add_pos_right _ (Nat.succ_pos i)))
    have hbyte : (p + q) / v.zsize = v.capacity x → (p + q) % v.zsize = 0 := by
      intro hfull
      have hsplit := mod_add_div (p + q) v.zsize
      rw [hfull, mul_comm] at hsplit
      omega
    obtain ⟨_, blockpos', hloop, ⟨rfl, htoward, hlanded, hkept⟩ | ⟨-, hfull, hfix⟩⟩ := syncLoop_ends h hzone
      (v.entries x + 2) _ i ht (fun hfull _ => hbyte hfull)
      (show v.entries x - blockpos.blockSegment < v.entries x + 2 by omega)
    · exact ⟨blockpos', hloop, htoward, hkept, .inl hlanded⟩
    · exact absurd hfix (hend.resolve_right (by omega))

end Positions

end Seek

section Zones

open Lib Option Nat Vol

variable {v : Vol} {x : Place} {p q : ℕ} {blockpos : BlockPos}

/-- Where `pfsBlockInitPos` starts. -/
def Vol.startPos (v : Vol) (x : Place) : BlockPos :=
  if size (v.block x) ≠ 0 then ⟨some x, 1, 0, 0⟩ else ⟨some x, 0, 1, 0⟩

theorem pfsBlockInitPos_eq (v : Vol) (x : Place) (p : ℕ) :
    v.pfsBlockInitPos x p = v.pfsInodeSync (v.startPos x) p (v.entries x) := by
  unfold pfsBlockInitPos startPos
  dsimp only
  split <;> rfl

/-- The start is the position of the first byte. -/
theorem startPos_at (h : Chain v x) : At v x 0 (v.startPos x) := by
  have hpos := v.zsize_pos
  have hbyte : 0 = 0 % v.zsize := (zero_mod _).symm
  unfold startPos
  split
  · next hsize =>
    -- an inode with a size has data, so it has a first data segment
    have hentries : 1 < v.entries x := by
      refine lt_of_le_of_ne h.nonempty fun hone => hsize ?_
      have hcap : v.capacity x = 0 := by
        rw [capacity, ← hone]
        rfl
      have hfits := h.fits
      rw [hcap, zero_mul] at hfits
      exact le_zero.mp hfits
    refine ⟨⟨rfl, hentries, Nat.zero_le _, ?_⟩, hbyte, .inl ⟨Nat.one_ne_zero, .inl (h.filled 1 hentries)⟩⟩
    rw [Nat.zero_div]
    rfl
  · next hsize =>
    refine ⟨⟨rfl, h.nonempty, Nat.le_of_eq h.self_count.symm, ?_⟩, hbyte, .inr ⟨rfl, hpos, not_not.mp hsize⟩⟩
    rw [Nat.zero_div]
    rfl

/-- `pfsBlockInitPos` makes the position of a byte. -/
theorem pfsBlockInitPos_at (h : Chain v x) (hle : p ≤ v.capacity x * v.zsize)
    (hlast : pfsFixIndex (v.entries x - 1) ≠ 0 ∨ p < v.capacity x * v.zsize ∨ p = 0) :
    ∃ blockpos, v.pfsBlockInitPos x p = some (0, blockpos) ∧ At v x p blockpos := by
  rw [pfsBlockInitPos_eq]
  have hsync := pfsInodeSync_at (q := p) h (startPos_at h)
  rw [zero_add] at hsync
  exact hsync hle hlast

/-- Without size, the bytes of the first zone are sought in the entry of the inode. -/
theorem pfsBlockInitPos_sizeless (hsize : size (v.block x) = 0) (hp : p < v.zsize) :
    v.pfsBlockInitPos x p = some (0, ⟨some x, 0, 1, p⟩) := by
  have hstart : v.startPos x = ⟨some x, 0, 1, 0⟩ := if_neg (not_not.mpr hsize)
  have hpos : 0 < v.zsize := lt_of_le_of_lt (zero_le p) hp
  have hzero : (0 + p) / v.zsize = 0 := by rw [zero_add, div_eq_of_lt hp]
  have hword : (0 + p) / v.zsize < 2 ^ 32 := by
    rw [hzero]
    exact Nat.two_pow_pos 32
  rw [pfsBlockInitPos_eq, hstart, pfsInodeSync_eq v p _ hpos hword]
  rw [hzero, Nat.zero_add, Nat.mod_eq_of_lt hp, syncLoop]

/-- The end of the data is not found behind a descriptor. -/
theorem pfsInodeSync_fails (h : Chain v x) (hlast : pfsFixIndex (v.entries x - 1) = 0) (hpos : 0 < v.capacity x)
    (hat : At v x 0 blockpos) :
    ∃ blockpos', v.pfsInodeSync blockpos (v.capacity x * v.zsize) (v.entries x) = some (eInval, blockpos') := by
  have hz := v.zsize_pos
  have hcap := h.capacity_lt
  have hbyte : blockpos.byteOffset = 0 := by rw [hat.byte, Nat.zero_mod]
  have hdiv : (0 + v.capacity x * v.zsize) / v.zsize = v.capacity x := by
    rw [Nat.zero_add, Nat.mul_div_cancel _ hz]
  have hword : (blockpos.byteOffset + v.capacity x * v.zsize) / v.zsize < 2 ^ 32 := by
    rw [hbyte, hdiv]
    omega
  rw [pfsInodeSync_eq v _ _ (hbyte ▸ hz) hword, hbyte, hdiv]
  obtain ⟨i, hi⟩ := exists_eq_succ_of_ne_zero (ne_of_gt hpos)
  have hzones := hat.toward.zones
  rw [Nat.zero_div] at hzones
  rw [hi]
  have ht : Toward v x (v.capacity x) { blockpos with byteOffset := (0 + (i + 1) * v.zsize) % v.zsize }
    (i + 1) := by
    refine ⟨hat.toward.inode, hat.toward.segment, hat.toward.offset, ?_⟩
    show before (v.dataSize x) blockpos.blockSegment + blockpos.blockOffset + (i + 1) =
      v.capacity x + ahead blockpos.blockSegment
    omega
  obtain ⟨_, blockpos', hloop, ⟨-, htoward, hlanded, -⟩ | ⟨rfl, -, -⟩⟩ := syncLoop_ends h (le_refl _)
    (v.entries x + 2) _ i ht (fun _ hfix => absurd hlast hfix)
    (show v.entries x - blockpos.blockSegment < v.entries x + 2 by omega)
  · exact (hlanded.not_end h htoward hlast).elim
  · exact ⟨blockpos', hloop⟩

/-- A position that has landed designates the zone of its byte. -/
theorem At.zoneAt_eq (hat : At v x p blockpos) (hlanded : Landed v x blockpos) :
    v.zoneAt x blockpos = (v.dataZones x)[p / v.zsize]? := by
  have hzones := hat.toward.zones
  have hseg := hat.toward.segment
  rw [ahead, if_neg hlanded.data, add_zero, add_zero] at hzones
  have hsize := @dataSize_of_ne v x _ hlanded.data
  rw [zoneAt, hat.toward.inode, bind_some, ← hzones]
  show (if blockpos.blockSegment + 1 = v.entries x ∧
      blockpos.blockOffset = (v.entry x blockpos.blockSegment).count then none
    else some (v.zoneOf x blockpos.blockSegment blockpos.blockOffset)) = _
  rcases hlanded.inside with hlt | ⟨hend, hfull⟩
  · rw [if_neg fun hboth => Nat.ne_of_lt hlt hboth.2]
    exact (concat_getElem? hseg (hsize ▸ hlt)).symm
  · rw [if_pos ⟨hend, hfull⟩, List.getElem?_eq_none]
    rw [dataZones_length, capacity, ← hend, before, hsize, hfull]

/-- The first zone of the data. -/
theorem Chain.dataZones_zero (h : Chain v x) :
    (v.dataZones x)[0]? = if v.entries x = 1 then none else some (v.zoneOf x 1 0) := by
  split
  · next hone =>
    refine List.getElem?_eq_none ?_
    rw [dataZones_length, capacity, hone]
    exact le_refl 0
  · next hone =>
    have hentries : 1 < v.entries x := lt_of_le_of_ne h.nonempty (Ne.symm hone)
    have hpos := h.filled 1 hentries
    rw [← @dataSize_of_ne v x 1 (by decide)] at hpos
    exact concat_getElem? hentries hpos

theorem Chain.zoneAt_start (h : Chain v x) (byte : ℕ) :
    v.zoneAt x ⟨some x, 0, 1, byte⟩ = if v.entries x = 1 then none else some (v.zoneOf x 0 1) := by
  show (if 0 + 1 = v.entries x ∧ 1 = (v.entry x 0).count then none else some (v.zoneOf x 0 1)) = _
  rw [h.self_count, zero_add]
  by_cases hone : v.entries x = 1
  · rw [if_pos ⟨hone.symm, rfl⟩, if_pos hone]
  · rw [if_neg fun hboth => hone hboth.1.symm, if_neg hone]

/-- A position that has not left the entry of the inode. -/
theorem At.eq_start (hat : At v x p blockpos) (hseg : blockpos.blockSegment = 0) (hp : p < v.zsize) :
    blockpos = ⟨some x, 0, 1, blockpos.byteOffset⟩ := by
  have hinode := hat.toward.inode
  have hzones := hat.toward.zones
  rw [hseg, div_eq_of_lt hp] at hzones
  rw [hseg] at hinode
  cases blockpos with
  | mk inode blockSegment blockOffset byteOffset =>
    rw [BlockPos.mk.injEq]
    refine ⟨hinode, hseg, ?_, rfl⟩
    have hone : 0 + blockOffset + 0 = 0 + 1 := hzones
    omega

/-- A position designates the zone of its byte, unless it has not left the entry of an inode with data. -/
theorem At.zoneAt_of (h : Chain v x) (hat : At v x p blockpos)
    (hsize : size (v.block x) ≠ 0 ∨ v.zsize ≤ p ∨ v.entries x = 1 ∨ v.zoneOf x 0 1 = v.zoneOf x 1 0) :
    v.zoneAt x blockpos = (v.dataZones x)[p / v.zsize]? := by
  rcases hat.landed with hlanded | ⟨hseg, hlt, hzero⟩
  · exact hat.zoneAt_eq hlanded
  · rw [hat.eq_start hseg hlt, h.zoneAt_start, div_eq_of_lt hlt, h.dataZones_zero]
    rcases hsize with hne | hge | hone | hzones
    · exact absurd hzero hne
    · exact absurd hlt (not_lt.mpr hge)
    · rw [if_pos hone, if_pos hone]
    · rw [hzones]

/-- The position moved from one byte by a distance is the one of the sum, and designates its zone and byte. -/
def Vol.SeeksTo (v : Vol) (x : Place) (p q : ℕ) : Prop :=
  ∃ first moved direct, v.pfsBlockInitPos x p = some (0, first) ∧
    v.pfsInodeSync first q (v.entries x) = some (0, moved) ∧
    v.pfsBlockInitPos x (p + q) = some (0, direct) ∧
    v.zoneAt x moved = v.zoneAt x direct ∧ moved.byteOffset = direct.byteOffset ∧
    v.zoneAt x moved = (v.dataZones x)[(p + q) / v.zsize]? ∧ moved.byteOffset = (p + q) % v.zsize

/-- Seeking is right unless the inode has data but no size and the byte is in its first zone, which is then not
behind the inode, or the byte is the end of the data and the last entry is a descriptor. -/
theorem pfsInodeSync_seeks_iff (h : Chain v x) (hle : p + q ≤ v.capacity x * v.zsize) : v.SeeksTo x p q ↔
      (size (v.block x) ≠ 0 ∨ v.zsize ≤ p + q ∨ v.entries x = 1 ∨ v.zoneOf x 0 1 = v.zoneOf x 1 0) ∧
        (pfsFixIndex (v.entries x - 1) ≠ 0 ∨ p + q < v.capacity x * v.zsize ∨ p + q = 0) := by
  constructor
  · rintro ⟨first, moved, direct, _, _, hdirect, hsame, _, hzone, _⟩
    constructor
    · by_contra hnone
      simp only [not_or, not_not, not_le] at hnone
      obtain ⟨hsize, hlt, hentries, hzones⟩ := hnone
      rw [pfsBlockInitPos_sizeless hsize hlt, some.injEq, Prod.mk.injEq] at hdirect
      rw [← hdirect.2, h.zoneAt_start, if_neg hentries] at hsame
      rw [hsame, div_eq_of_lt hlt, h.dataZones_zero, if_neg hentries] at hzone
      exact hzones (some.inj hzone)
    · by_contra hnone
      simp only [not_or, not_not, not_lt] at hnone
      obtain ⟨hlast, hge, hzero⟩ := hnone
      have heq := le_antisymm hle hge
      have hpos : 0 < v.capacity x := by
        refine Nat.pos_of_ne_zero fun hcap => hzero ?_
        rw [heq, hcap, Nat.zero_mul]
      rw [pfsBlockInitPos_eq, heq] at hdirect
      obtain ⟨blockpos, hfails⟩ := pfsInodeSync_fails h hlast hpos (startPos_at h)
      rw [hfails, some.injEq, Prod.mk.injEq] at hdirect
      exact absurd hdirect.1 (by decide)
  · rintro ⟨hsize, hlast⟩
    have hlast' : pfsFixIndex (v.entries x - 1) ≠ 0 ∨ p < v.capacity x * v.zsize ∨ p = 0 := by omega
    obtain ⟨first, hfirst, hatFirst⟩ := pfsBlockInitPos_at (p := p) h (by omega) hlast'
    obtain ⟨moved, hmoved, hat⟩ := pfsInodeSync_at h hatFirst hle hlast
    obtain ⟨direct, hdirect, hatDirect⟩ := pfsBlockInitPos_at h hle hlast
    have hzone := hat.zoneAt_of h hsize
    have hzoneDirect := hatDirect.zoneAt_of h hsize
    exact ⟨first, moved, direct, hfirst, hmoved, hdirect, hzone.trans hzoneDirect.symm,
      hat.byte.trans hatDirect.byte.symm, hzone, hat.byte⟩

/-- An inode of up to 113 data segments of one zone, all of them in the file. -/
def fullInode (numberData next : ℕ) : MetaBlock := fun k =>
  if k.val = 4 then BitVec.ofNat 32 next
  else if 10 ≤ k.val ∧ k.val < 238 then if k.val % 2 = 0 then BitVec.ofNat 32 (10 + (k.val - 10)) else 0x10000
  else if k.val = 246 then BitVec.ofNat 32 (2048 * min 113 (numberData - 1))
  else if k.val = 248 ∨ k.val = 249 then BitVec.ofNat 32 numberData
  else 0

/-- A descriptor in zone 500 with only its own entry. -/
def bareDescriptor : MetaBlock := fun k => if k.val = 10 then 500 else if k.val = 11 then 0x10000 else 0

/-- A volume with zones of 2 KiB, an inode in zone 10 and a descriptor in zone 500. -/
def chainVol (numberData next : ℕ) : Vol where
  zsize := 2048
  inodeScale := 1
  block place := if place = ⟨0, 20⟩ then fullInode numberData next else bareDescriptor
  used _ _ := true
  freeZone _ := 0
  zfree := 0
  legal := pfsCheckZoneSize_least
  scale := least_scale

/-- In a file of 113 segments, a move from byte 5000 by 3000 bytes is right. -/
theorem pfsInodeSync_seeks_full : (chainVol 114 0).SeeksTo ⟨0, 20⟩ 5000 3000 :=
  (pfsInodeSync_seeks_iff (by decide +kernel) (by decide +kernel)).mpr
    ⟨.inl (by decide +kernel), .inl (by decide +kernel)⟩

/-- With a descriptor that has no segment yet, the end of the file is an invalid position. -/
theorem pfsBlockInitPos_bare : Chain (chainVol 115 500) ⟨0, 20⟩ ∧ size ((chainVol 115 500).block ⟨0, 20⟩) = 231424 ∧
    231424 ≤ (chainVol 115 500).capacity ⟨0, 20⟩ * (chainVol 115 500).zsize ∧
    (chainVol 115 500).pfsBlockInitPos ⟨0, 20⟩ 231424 = some (eInval, ⟨none, 114, 1, 0⟩) :=
  ⟨by decide +kernel, by decide +kernel, by decide +kernel, by decide +kernel⟩

end Zones

end Ps2sdk.Pfs
