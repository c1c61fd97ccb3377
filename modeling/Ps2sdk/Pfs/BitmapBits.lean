import Ps2sdk.Pfs.Bitmap

/-!
# Runs of zones within one chunk

The loops over words and bits, described by zone numbers within the chunk: which bits they set,
clear or find clear, and how many zones are left for the next chunk.
-/

namespace Ps2sdk.Pfs

open Lib BitVec Function Nat Bool Fin

variable (data : MetaBlock)

/-- The bit of zone `p` of a chunk. -/
def zoneBit (p : ℕ) : Bool := (data (Fin.ofNat 256 (p / 32))).getLsbD (p % 32)

/-- What an operation leaves in a bit. -/
def BitmapOp.value : BitmapOp → Bool
  | .alloc => true
  | .free => false

variable (op : BitmapOp)

/-- An operation on one bit of a word. -/
theorem BitmapOp.getLsbD_apply (word : BitVec 32) (bit : ℕ) {i : ℕ} (hi : i < 32) :
    (op.apply word bit).getLsbD i = if i = bit then op.value else word.getLsbD i := by
  have hone : (1#32 <<< bit).getLsbD i = decide (i = bit) := by
    rw [getLsbD_shiftLeft, getLsbD_one]
    by_cases h : i = bit
    · simp [h]
      omega
    · simp [h]
      omega
  cases op with
  | alloc =>
    rw [BitmapOp.apply, getLsbD_or, hone]
    by_cases h : i = bit <;> simp [h, BitmapOp.value]
  | free =>
    rw [BitmapOp.apply, getLsbD_and, getLsbD_not, hone]
    by_cases h : i = bit <;> simp [h, hi, BitmapOp.value]

theorem zoneBit_word (index : ℕ) {i : ℕ} (hi : i < 32) :
    zoneBit data (index * 32 + i) = (data (Fin.ofNat 256 index)).getLsbD i := by
  have hdiv : (index * 32 + i) / 32 = index := by omega
  have hmod : (index * 32 + i) % 32 = i := by omega
  rw [zoneBit, hdiv, hmod]

/-- The zones of a chunk after one word has been replaced. -/
theorem zoneBit_update {index p : ℕ} (word : BitVec 32) (hindex : index < 256)
    (hp : p < 8192) : zoneBit (update data (Fin.ofNat 256 index) word) p =
      if p / 32 = index then word.getLsbD (p % 32) else zoneBit data p := by
  unfold zoneBit
  by_cases h : p / 32 = index
  · rw [h, update_self, if_pos rfl]
  · rw [if_neg h, update_of_ne]
    intro heq
    have := congrArg val heq
    simp only [val_ofNat] at this
    omega

/-- The loop over the bits of a word sets or clears the next bits. -/
theorem allocFreeWord_spec (k : ℕ) (word : BitVec 32) (bit count : ℕ) :
    (allocFreeWord op k word bit count).2 = count - min k count ∧
      ∀ i < 32, (allocFreeWord op k word bit count).1.getLsbD i =
        if bit ≤ i ∧ i < bit + min k count then op.value else word.getLsbD i := by
  induction k generalizing word bit count with
  | zero =>
    refine ⟨by simp [allocFreeWord], fun i _ => ?_⟩
    rw [if_neg (by omega)]
    rfl
  | succ k ih =>
    unfold allocFreeWord
    by_cases hcount : count = 0
    · rw [if_pos hcount]
      refine ⟨by simp [hcount], fun i _ => ?_⟩
      rw [if_neg (by omega)]
    · rw [if_neg hcount]
      obtain ⟨hleft, hbits⟩ := ih (op.apply word bit) (bit + 1) (count - 1)
      refine ⟨by omega, fun i hi => ?_⟩
      rw [hbits i hi, op.getLsbD_apply word bit hi]
      repeat' split
      all_goals first | rfl | omega

/-- The loop over the words of a chunk sets or clears the next zones. -/
theorem allocFreeChunk_spec (k : ℕ) (data : MetaBlock) (index bit count : ℕ)
    (hindex : index + k = 256) (hbit : bit < 32) :
    (allocFreeChunk op k data index bit count).2 = count - min (k * 32 - bit) count ∧
      ∀ p < 8192, zoneBit (allocFreeChunk op k data index bit count).1 p =
        if index * 32 + bit ≤ p ∧ p < index * 32 + bit + min (k * 32 - bit) count then op.value
        else zoneBit data p := by
  induction k generalizing data index bit count with
  | zero =>
    refine ⟨by simp [allocFreeChunk], fun p _ => ?_⟩
    rw [if_neg (by omega)]
    rfl
  | succ k ih =>
    unfold allocFreeChunk
    by_cases hcount : count = 0
    · rw [if_pos hcount]
      refine ⟨by simp [hcount], fun p _ => ?_⟩
      rw [if_neg (by omega)]
    · rw [if_neg hcount]
      obtain ⟨hleft, hword⟩ := allocFreeWord_spec op (32 - bit) (data (Fin.ofNat 256 index)) bit count
      generalize allocFreeWord op (32 - bit) (data (Fin.ofNat 256 index)) bit count = result at *
      obtain ⟨word, left⟩ := result
      obtain ⟨hleft', hbits⟩ := ih (update data (Fin.ofNat 256 index) word) (index + 1) 0 left
        (by omega) (by omega)
      dsimp only at hleft hword ⊢
      refine ⟨by omega, fun p hp => ?_⟩
      rw [hbits p hp, zoneBit_update data word (by omega) hp]
      by_cases hhere : p / 32 = index
      · rw [if_pos hhere, hword (p % 32) (mod_lt _ (by omega)), ← zoneBit_word data index (mod_lt _ (by omega)),
          show index * 32 + p % 32 = p by omega]
        repeat' split
        all_goals first | rfl | omega
      · rw [if_neg hhere]
        repeat' split
        all_goals first | rfl | omega

/-- Some zones from `first` on were clear and have been taken. -/
structure Extends (data data' : MetaBlock) (first taken : ℕ) : Prop where
  clear : ∀ p, first ≤ p → p < first + taken → zoneBit data p = false
  marked : ∀ p < 8192, zoneBit data' p = if first ≤ p ∧ p < first + taken then true else zoneBit data p

/-- Taking zones in two goes. -/
theorem Extends.trans {data data' data'' : MetaBlock} {first taken more : ℕ} (h : Extends data data' first taken)
    (h' : Extends data' data'' (first + taken) more) (hbound : first + taken + more ≤ 8192) :
    Extends data data'' first (taken + more) where
  clear p hlow hhigh := by
    by_cases hp : p < first + taken
    · exact h.clear p hlow hp
    · have hclear := h'.clear p (by omega) (by omega)
      rwa [h.marked p (by omega), if_neg (by omega)] at hclear
  marked p hp := by
    rw [h'.marked p hp, h.marked p hp]
    repeat' split
    all_goals first | rfl | omega

theorem Extends.refl (first : ℕ) : Extends data data first 0 where
  clear p hlow hhigh := by omega
  marked p _ := by rw [if_neg (by omega)]

/-- How far a loop of `pfsBitmapAllocateAdditionalZones` got from zone `first` of a chunk, with room
for `room` zones: it stops early only at a used zone, and takes a clear one that is wanted. -/
structure Extension.From (ext ext' : Extension) (first room : ℕ) (taken : ℕ) : Prop where
  extends_ : Extends ext.data ext'.data first taken
  res : ext'.res = ext.res + taken
  count : ext'.count = ext.count - taken
  le_room : taken ≤ room
  le_count : taken ≤ ext.count
  stops : ext'.used = false → taken = min room ext.count
  takes : 0 < room → 0 < ext.count → zoneBit ext.data first = false → 0 < taken

/-- The loop over the bits of a word takes zones up to the first used one. -/
theorem extendWord_spec {index : ℕ} (hindex : index < 256) (k : ℕ) (ext : Extension) (hk : ext.bit + k = 32)
    (hused : ext.used = false) : ∃ taken, ext.From (extendWord index k ext) (index * 32 + ext.bit) k taken := by
  induction k generalizing ext with
  | zero => exact ⟨0, .refl _ _, rfl, rfl, le_rfl, zero_le _, fun _ => by omega, fun h => absurd h (lt_irrefl 0)⟩
  | succ k ih =>
    unfold extendWord
    by_cases hcount : ext.count = 0
    · rw [if_pos hcount]
      exact ⟨0, .refl _ _, rfl, rfl, zero_le _, zero_le _, fun _ => by omega, fun _ h => by omega⟩
    · rw [if_neg hcount]
      split
      · next hset =>
        refine ⟨0, .refl _ _, rfl, rfl, zero_le _, zero_le _, fun h => by simp at h, fun _ _ hclear => ?_⟩
        rw [zoneBit_word ext.data index (by omega), hset] at hclear
        exact absurd hclear.symm false_ne_true
      · next hclear =>
        obtain ⟨taken, hfrom⟩ := ih { ext with
          res := ext.res + 1
          data := update ext.data (Fin.ofNat 256 index)
            (ext.data (Fin.ofNat 256 index) ||| (1#32 <<< ext.bit))
          bit := ext.bit + 1
          count := ext.count - 1 } (by dsimp only; omega) hused
        have hone : Extends ext.data (update ext.data (Fin.ofNat 256 index)
            (ext.data (Fin.ofNat 256 index) ||| (1#32 <<< ext.bit))) (index * 32 + ext.bit) 1 := by
          constructor
          · intro p hlow hhigh
            obtain rfl : p = index * 32 + ext.bit := by omega
            rw [zoneBit_word ext.data index (by omega)]
            exact eq_false_iff.mpr hclear
          · intro p hp
            rw [zoneBit_update ext.data _ hindex hp]
            by_cases hhere : p / 32 = index
            · have hbit := BitmapOp.getLsbD_apply .alloc (ext.data (Fin.ofNat 256 index)) ext.bit
                (mod_lt p (by omega : 0 < 32))
              rw [if_pos hhere]
              refine hbit.trans ?_
              rw [← zoneBit_word ext.data index (mod_lt p (by omega)), show index * 32 + p % 32 = p by omega]
              repeat' split
              all_goals first | rfl | omega
            · rw [if_neg hhere, if_neg (by omega)]
        obtain ⟨hmore, hres, hleft, hroom, hle, hstops, -⟩ := hfrom
        dsimp only at hres hleft hle hstops
        refine ⟨1 + taken, hone.trans hmore (by omega), by omega, by omega, by omega, by omega, fun h => ?_,
          fun _ _ _ => by omega⟩
        have := hstops h
        omega

/-- Continuing where a loop stopped. -/
theorem Extension.From.trans {ext ext' ext'' : Extension} {first room room' taken more : ℕ}
    (h : ext.From ext' first room taken) (hpos : 0 < room) (hfull : taken = min room ext.count)
    (h' : ext'.From ext'' (first + room) room' more) (hroom : ext'.count ≠ 0 → taken = room)
    (hbound : first + room + room' ≤ 8192) : ext.From ext'' first (room + room') (taken + more) := by
  obtain ⟨hextends, hres, hcount, hle, -, -, -⟩ := h
  obtain ⟨hextends', hres', hcount', hle', hmore, hstops, -⟩ := h'
  refine ⟨hextends.trans ?_ (by omega), by omega, by omega, by omega, by omega, fun hused => ?_,
    fun _ _ _ => by omega⟩
  · by_cases hzero : ext'.count = 0
    · obtain rfl : more = 0 := by omega
      refine ⟨fun p hlow hhigh => by omega, fun p hp => ?_⟩
      rw [hextends'.marked p hp, if_neg (by omega), if_neg (by omega)]
    · rwa [← hroom hzero] at hextends'
  · have := hstops hused
    by_cases hzero : ext'.count = 0
    · omega
    · have := hroom hzero
      omega

/-- The loop over the words of a chunk takes zones up to the first used one. -/
theorem extendChunk_spec (k index : ℕ) (ext : Extension) (hk : index + k ≤ 256) (hbit : ext.bit < 32)
    (hused : ext.used = false) :
    (∃ taken, ext.From (extendChunk k index ext) (index * 32 + ext.bit) (k * 32 - ext.bit) taken) ∧
      ((extendChunk k index ext).used = false → (extendChunk k index ext).count ≠ 0 → k ≠ 0 →
        (extendChunk k index ext).bit = 0) := by
  induction k generalizing index ext with
  | zero =>
    refine ⟨⟨0, .refl _ _, rfl, rfl, zero_le _, zero_le _, fun _ => by omega, fun h => by omega⟩, ?_⟩
    intro _ _ h
    contradiction
  | succ k ih =>
    unfold extendChunk
    by_cases hcount : ext.count = 0
    · rw [if_pos hcount]
      refine ⟨⟨0, .refl _ _, rfl, rfl, zero_le _, zero_le _, fun _ => by omega, fun _ h => by omega⟩, ?_⟩
      intro _ h
      contradiction
    · rw [if_neg hcount]
      obtain ⟨taken, hword⟩ := extendWord_spec (show index < 256 by omega) (32 - ext.bit) ext (by omega) hused
      generalize extendWord index (32 - ext.bit) ext = ext' at *
      by_cases hstop : ext'.used = true
      · rw [if_pos hstop]
        have hroom := hword.le_room
        have hnot : ¬ ext'.used = false := by simp [hstop]
        exact ⟨⟨taken, hword.extends_, hword.res, hword.count, by omega, hword.le_count, fun h => absurd h hnot,
          fun _ => hword.takes (by omega)⟩, fun h => absurd h hnot⟩
      · rw [if_neg hstop]
        rw [not_eq_true] at hstop
        have hfull := hword.stops hstop
        obtain ⟨⟨more, hrest⟩, hlast⟩ := ih (index + 1) { ext' with bit := 0 } (by omega) (by simp) hstop
        have hcount' := hword.count
        constructor
        · refine ⟨taken + more, ?_⟩
          have hsum : (k + 1) * 32 - ext.bit = (32 - ext.bit) + (k * 32 - 0) := by omega
          have hfirst : (index + 1) * 32 + 0 = index * 32 + ext.bit + (32 - ext.bit) := by omega
          rw [hsum]
          rw [hfirst] at hrest
          refine hword.trans (by omega) hfull ?_ (by omega) (by omega)
          exact ⟨hrest.extends_, hrest.res, hrest.count, hrest.le_room, hrest.le_count, hrest.stops, hrest.takes⟩
        · intro h hleft _
          cases k with
          | zero => rfl
          | succ k => exact hlast h hleft (succ_ne_zero k)

variable (z : ZoneSearch)

/-- The zone where a search's current run begins. -/
def ZoneSearch.start : ℕ := z.startChunk * 8192 + z.startPos * 32 + z.startBit

/-- A search that has looked at the zones before `p`: it has counted the clear zones just before. -/
structure ZoneSearch.At (used : ℕ → Bool) (amount p : ℕ) : Prop where
  notFound : z.found = false
  few : z.count < amount
  start : 0 < z.count → z.start + z.count = p ∧ z.startPos < 256 ∧ z.startBit < 32
  clear : ∀ q, p ≤ q + z.count → q < p → used q = false

/-- A search that has found its zones before `p`. -/
structure ZoneSearch.Found (used : ℕ → Bool) (amount p : ℕ) : Prop where
  found : z.found = true
  count : z.count = amount
  start : z.start + amount ≤ p ∧ z.startPos < 256 ∧ z.startBit < 32
  clear : ∀ q, z.start ≤ q → q < z.start + amount → used q = false

theorem ZoneSearch.Found.mono {z : ZoneSearch} {used : ℕ → Bool} {amount p p' : ℕ} (h : z.Found used amount p)
    (hp : p ≤ p') : z.Found used amount p' :=
  ⟨h.found, h.count, ⟨h.start.1.trans hp, h.start.2⟩, h.clear⟩

section Search

variable {used : ℕ → Bool} {amount chunk pos : ℕ} {word : BitVec 32}

theorem ZoneSearch.At.skip {z : ZoneSearch} {p : ℕ} (h : z.At used amount p) :
    ZoneSearch.At { z with count := 0 } used amount (p + 1) :=
  ⟨h.notFound, zero_lt_of_lt h.few, fun hpos => absurd hpos (lt_irrefl 0), fun q hlow hhigh => by
    dsimp only at hlow
    omega⟩

/-- The run with a clear zone at place `i` of a word added to it. -/
def ZoneSearch.grow (z : ZoneSearch) (chunk pos i : ℕ) : ZoneSearch :=
  let z := if z.count = 0 then { z with startBit := i, startChunk := chunk, startPos := pos } else z
  { z with count := z.count + 1 }

/-- Looking at a clear zone. -/
theorem ZoneSearch.At.grow {z : ZoneSearch} {i p : ℕ} (h : z.At used amount p)
    (hp : p = chunk * 8192 + pos * 32 + i) (hpos : pos < 256) (hi : i < 32) (hclear : used p = false) :
    (z.grow chunk pos i).found = false ∧ (z.grow chunk pos i).count = z.count + 1 ∧
      (z.grow chunk pos i).start + (z.count + 1) = p + 1 ∧ (z.grow chunk pos i).startPos < 256 ∧
      (z.grow chunk pos i).startBit < 32 ∧
      ∀ q, p + 1 ≤ q + (z.count + 1) → q < p + 1 → used q = false := by
  have hrun : ∀ q, p + 1 ≤ q + (z.count + 1) → q < p + 1 → used q = false := by
    intro q hlow hhigh
    by_cases hq : q = p
    · rw [hq, hclear]
    · exact h.clear q (by omega) (by omega)
  unfold ZoneSearch.grow
  by_cases hzero : z.count = 0
  · rw [if_pos hzero]
    refine ⟨h.notFound, rfl, ?_, hpos, hi, hrun⟩
    change chunk * 8192 + pos * 32 + i + _ = _
    omega
  · rw [if_neg hzero]
    obtain ⟨hstart, hpos', hbit'⟩ := h.start (Nat.pos_of_ne_zero hzero)
    refine ⟨h.notFound, rfl, ?_, hpos', hbit', hrun⟩
    change z.start + _ = _
    omega

/-- The loop over the bits of a word. -/
theorem searchWord_spec (hpos : pos < 256) (k i : ℕ) (hk : i + k = 32)
    (hword : ∀ j < 32, word.getLsbD j = used (chunk * 8192 + pos * 32 + j)) (z : ZoneSearch)
    (h : z.At used amount (chunk * 8192 + pos * 32 + i)) :
    (searchWord amount chunk pos word k i z).At used amount (chunk * 8192 + pos * 32 + 32) ∨
      (searchWord amount chunk pos word k i z).Found used amount (chunk * 8192 + pos * 32 + 32) := by
  induction k generalizing i z with
  | zero =>
    obtain rfl : i = 32 := by omega
    exact .inl h
  | succ k ih =>
    rw [show searchWord amount chunk pos word (k + 1) i z = if word.getLsbD i then
        searchWord amount chunk pos word k (i + 1) { z with count := 0 }
      else if (z.grow chunk pos i).count = amount then { z.grow chunk pos i with found := true }
      else searchWord amount chunk pos word k (i + 1) (z.grow chunk pos i) from rfl]
    have hnext : chunk * 8192 + pos * 32 + i + 1 = chunk * 8192 + pos * 32 + (i + 1) := Nat.add_assoc _ _ _
    split
    · exact ih (i + 1) (by omega) _ (hnext ▸ h.skip)
    · next hclear =>
      rw [hword i (by omega), not_eq_true] at hclear
      obtain ⟨hfound, hcount, hstart, hpos', hbit', hrun⟩ := h.grow rfl hpos (by omega) hclear
      by_cases hamount : (z.grow chunk pos i).count = amount
      · rw [if_pos hamount]
        right
        refine ⟨rfl, hamount, ⟨?_, hpos', hbit'⟩, fun q hlow hhigh => ?_⟩
        · change (z.grow chunk pos i).start + amount ≤ _
          omega
        · change (z.grow chunk pos i).start ≤ q at hlow
          change q < (z.grow chunk pos i).start + amount at hhigh
          exact hrun q (by omega) (by omega)
      · rw [if_neg hamount]
        have hfew := h.few
        have hat : (z.grow chunk pos i).At used amount (chunk * 8192 + pos * 32 + i + 1) := by
          refine ⟨hfound, by omega, fun _ => ⟨?_, hpos', hbit'⟩, fun q hlow hhigh => ?_⟩
          · rw [hcount, hstart]
          · rw [hcount] at hlow
            exact hrun q hlow hhigh
        exact ih (i + 1) (by omega) _ (hnext ▸ hat)

/-- The loop over the words of a chunk, from zone `p` to zone `e`. -/
theorem searchChunk_spec {data : MetaBlock} (hdata : ∀ p < 8192, zoneBit data p = used (chunk * 8192 + p))
    (k pos bit : ℕ) (hk : pos + k ≤ 256) (hbit : bit < 32) (z : ZoneSearch) {p e : ℕ}
    (hp : p = chunk * 8192 + pos * 32 + bit) (he : k = 0 ∧ e = p ∨ k ≠ 0 ∧ e = chunk * 8192 + (pos + k) * 32)
    (h : z.At used amount p) : (searchChunk amount chunk data k pos bit z).At used amount e ∨
      (searchChunk amount chunk data k pos bit z).Found used amount e := by
  induction k generalizing pos bit z p with
  | zero =>
    obtain rfl : e = p := by omega
    exact .inl h
  | succ k ih =>
    unfold searchChunk
    subst hp
    have hword : ∀ j < 32, (data (Fin.ofNat 256 pos)).getLsbD j = used (chunk * 8192 + pos * 32 + j) := by
      intro j hj
      rw [← zoneBit_word data pos hj, hdata _ (by omega), Nat.add_assoc]
    have hstep := searchWord_spec (show pos < 256 by omega) (32 - bit) bit (by omega) hword z h
    generalize searchWord amount chunk pos (data (Fin.ofNat 256 pos)) (32 - bit) bit z = z' at *
    rcases hstep with hat | hfound
    · rw [if_neg (by simp [hat.notFound])]
      exact ih (pos + 1) 0 (by omega) (by omega) z' (by omega) (by omega) hat
    · rw [if_pos hfound.found]
      exact .inr (hfound.mono (by omega))

end Search

end Ps2sdk.Pfs
