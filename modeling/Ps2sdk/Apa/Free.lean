import Mathlib.Data.BitVec
import Mathlib.Order.Interval.Finset.Nat
import Ps2sdk.Apa.Requests

/-!
# The report of free space

`apaGetFreeSectors` adds up the free blocks of a table and the space behind it. Sizes from 1 GB on are added, and
each smaller one is a bit that is set if there is a block of its size, or of a larger size at which the bit was set
already.
-/

namespace Ps2sdk.Apa

open Lib ApaProg BitVec List Bool

/-- The loop of `apaCalculateFreeSpace`. A size is halved to nothing in 32 turns. -/
def addHalves : ℕ → Word → Word → Word
  | 0, free, _ => free
  | turns + 1, free, sectors => if 0x3FFFF < sectors then addHalves turns (free ||| sectors) (sectors / 2) else free

/-- `apaCalculateFreeSpace`. -/
def apaCalculateFreeSpace (free sectors : Word) : Word :=
  if 0x1FFFFF < sectors then free + sectors
  else if free &&& sectors = 0 then free ||| sectors
  else addHalves 32 free (sectors / 2)

/-- The walk of `apaGetFreeSectors` over the headers: the free space, and the end of the table. -/
def freeLoop : ℕ → Word → Word → Word → ApaProg (ℤ × Word × Word)
  | 0, _, _, _ => .trap
  | turns + 1, clink, free, sectors => do
    let h ← header clink
    let free := if h.type = apaTypeFree then apaCalculateFreeSpace free h.length else free
    match ← apaGetNextHeader clink with
    | (_, some clink) => freeLoop turns clink free (sectors + h.length)
    | (err, none) => pure (err, free, sectors + h.length)

/-- The inner loop behind the walk: the largest size for which there is space at the end. -/
def fitSize (device : Device) (sectors : Word) : ℕ → Word → Option Word
  | 0, _ => none
  | turns + 1, partMax =>
    if 0x3FFFF < partMax then
      if sectors % partMax = 0 ∧ sectors.toNat + partMax.toNat < device.totalLBA.toNat then some partMax
      else fitSize device sectors turns (partMax / 2)
    else none

/-- The loop of `apaGetFreeSectors` over the space behind the table. -/
def tailLoop (device : Device) : ℕ → Word → Word → ApaProg Word
  | 0, _, _ => .trap
  | turns + 1, free, sectors =>
    if 0x3FFFF < device.partitionMaxSize then
      match fitSize device sectors 32 device.partitionMaxSize with
      | some partMax => tailLoop device turns (apaCalculateFreeSpace free partMax) (sectors + partMax)
      | none => pure free
    else pure free

/-- `apaGetFreeSectors`. -/
def apaGetFreeSectors (device : Device) : ApaProg (ℤ × Word) := do
  let err ← getHeader 0
  if err ≠ 0 then pure (err, 0)
  else
    let (err, free, sectors) ← freeLoop walkTurns 0 0 0
    if err = 0 then
      let free ← tailLoop device walkTurns free sectors
      pure (0, free)
    else pure (err, free)

/-- The loop of `apaGetPartitionMax`: the highest bit, and the last size that was tried. -/
def highestBit (sectors : Word) : ℕ → ℕ × Word
  | 0 => (0, 2)
  | i + 1 => if (1#32 <<< (i + 1)) &&& sectors ≠ 0 then (i + 1, 1#32 <<< (i + 1)) else highestBit sectors i

/-- `apaGetPartitionMax`. -/
def apaGetPartitionMax (totalLBA : Word) : Word :=
  let sectors := totalLBA >>> 6
  let (i, size) := highestBit sectors 31
  if size < sectors then 1#32 <<< (i + 1) else 1#32 <<< i

variable {n unit : ℕ} {s : Driver n} {v : Word → Header} {xs l r : List Word} {x : Word} {H : Multiset Word}
  {t : Known Word Header} {device : Device} {free sectors : Word} {i j k : ℕ}

/-- Two sets of bits have at most the bits of both. -/
theorem toNat_or_le (x y : Word) : (x ||| y).toNat ≤ x.toNat + y.toNat := by
  have hdisjoint : x &&& (y &&& ~~~x) = 0#32 := by
    rw [BitVec.and_comm y, ← BitVec.and_assoc, show x &&& ~~~x = 0#32 from BitVec.and_not_self x,
      zero_and]
  have hor : x ||| y = x ||| (y &&& ~~~x) := by
    ext i hi
    simp only [getElem_or, getElem_and, getElem_not]
    cases x[i] <;> simp
  rw [hor, ← add_eq_or_of_and_eq_zero _ _ hdisjoint, toNat_add, toNat_and]
  have : y.toNat &&& (~~~x).toNat ≤ y.toNat := Nat.and_le_left
  omega

theorem getLsbD_of_pow (hsectors : sectors.toNat = 2 ^ j) (hk : sectors.getLsbD k) : k = j := by
  have htest : sectors.getLsbD k = sectors.toNat.testBit k := rfl
  rw [htest, hsectors, Nat.testBit_two_pow] at hk
  exact (of_decide_eq_true hk).symm

theorem toNat_half_pow (hsectors : sectors.toNat = 2 ^ (j + 1)) : (sectors / 2).toNat = 2 ^ j := by
  rw [toNat_udiv, hsectors, Nat.pow_succ]
  exact Nat.mul_div_cancel _ (by decide)

/-- The sizes below one are together smaller than it. -/
theorem addHalves_le (turns : ℕ) (free : Word) (hsectors : sectors.toNat = 2 ^ j) :
    (addHalves turns free sectors).toNat < free.toNat + 2 ^ (j + 1) := by
  induction turns generalizing free sectors j with
  | zero =>
    have := Nat.two_pow_pos (j + 1)
    rw [addHalves]
    omega
  | succ turns ih =>
    rw [addHalves]
    split
    · next hlarge =>
      have hor := toNat_or_le free sectors
      cases j with
      | zero =>
        rw [lt_def, hsectors] at hlarge
        exact absurd hlarge (by decide)
      | succ j =>
        have hrest := ih (free ||| sectors) (toNat_half_pow hsectors)
        rw [hsectors] at hor
        rw [Nat.pow_succ 2 (j + 1)]
        omega
    · have := Nat.two_pow_pos (j + 1)
      omega

/-- Halving sets the bits of smaller sizes. -/
theorem addHalves_bit (turns : ℕ) (hsectors : sectors.toNat = 2 ^ j)
    (hk : (addHalves turns free sectors).getLsbD k) : free.getLsbD k ∨ k ≤ j := by
  induction turns generalizing free sectors j with
  | zero => exact .inl hk
  | succ turns ih =>
    rw [addHalves] at hk
    split at hk
    · next hlarge =>
      cases j with
      | zero =>
        rw [lt_def, hsectors] at hlarge
        exact absurd hlarge (by decide)
      | succ j =>
        rcases ih (toNat_half_pow hsectors) hk with hbit | hle
        · rw [getLsbD_or, or_eq_true] at hbit
          exact hbit.imp id fun hbit => (getLsbD_of_pow hsectors hbit).le
        · exact .inr (by omega)
    · exact .inl hk

theorem getLsbD_add_pow (hsectors : sectors.toNat = 2 ^ j) (hk : k < j) :
    (free + sectors).getLsbD k = free.getLsbD k := by
  have hj : j < 32 := (Nat.pow_lt_pow_iff_right Nat.one_lt_two).mp (hsectors ▸ sectors.isLt)
  have hnat : ∀ y : Word, y.getLsbD k = y.toNat.testBit k := fun _ => rfl
  rw [hnat, hnat, toNat_add, hsectors, Nat.testBit_mod_two_pow, decide_eq_true (by omega), Bool.true_and,
    Nat.add_comm, Nat.testBit_two_pow_add_gt hk]

/-- A free block adds at most its sectors. -/
theorem apaCalculateFreeSpace_le (free : Word) (hsectors : sectors.toNat = 2 ^ j) :
    (apaCalculateFreeSpace free sectors).toNat ≤ free.toNat + sectors.toNat := by
  rw [apaCalculateFreeSpace]
  split
  · rw [toNat_add]
    exact Nat.mod_le _ _
  · split
    · exact toNat_or_le free sectors
    · next hbit =>
      cases j with
      | zero =>
        have hhalf : sectors / 2 = 0 := eq_of_toNat_eq (by rw [toNat_udiv, hsectors]; rfl)
        rw [hhalf]
        exact Nat.le_add_right _ _
      | succ j =>
        have := addHalves_le 32 free (toNat_half_pow hsectors)
        rw [hsectors]
        omega

/-- A bit below 1 GB that is set was set before, or stands for at most the size of the block. -/
theorem apaCalculateFreeSpace_bit (hsectors : sectors.toNat = 2 ^ j) (hk : k ≤ 20)
    (hbit : (apaCalculateFreeSpace free sectors).getLsbD k) : free.getLsbD k ∨ k ≤ j := by
  rw [apaCalculateFreeSpace] at hbit
  split at hbit
  · next hlarge =>
    refine .inl ?_
    rwa [getLsbD_add_pow hsectors] at hbit
    rw [lt_def, hsectors] at hlarge
    by_contra hle
    have : 2 ^ j ≤ 2 ^ 20 := Nat.pow_le_pow_right (by decide) (by omega)
    have : (0x1FFFFF : Word).toNat = 0x1FFFFF := rfl
    omega
  · split at hbit
    · rw [getLsbD_or, or_eq_true] at hbit
      exact hbit.imp id fun hbit => (getLsbD_of_pow hsectors hbit).le
    · cases j with
      | zero =>
        have hhalf : sectors / 2 = 0 := eq_of_toNat_eq (by rw [toNat_udiv, hsectors]; rfl)
        rw [hhalf] at hbit
        exact .inl hbit
      | succ j =>
        exact (addHalves_bit 32 (toNat_half_pow hsectors) hbit).imp id fun hle => hle.trans (Nat.le_succ j)

/-- The free space after a walk over some headers. -/
def addFree (v : Word → Header) (ys : List Word) (free : Word) : Word :=
  ys.foldl (fun free y => if (v y).type = apaTypeFree then apaCalculateFreeSpace free (v y).length else free) free

/-- The walk of `apaGetFreeSectors` ends with the free space and the end of the table. -/
theorem freeLoop_wp {Q : ℤ × Word × Word → Known Word Header → Prop} (turns : ℕ) (free sectors : Word)
    (h : At unit v xs (x ::ₘ H) t) (hxs : 0 :: xs = l ++ x :: r) (hturns : r.length < turns) (hroom : H.card < n)
    (hdone : ∀ t, At unit v xs H t →
      Q (0, addFree v (x :: r) free, sectors + ((x :: r).map fun y => (v y).length).sum) t) :
    (freeLoop turns x free sectors).wp (tableRules n unit) Q t := by
  induction turns generalizing x l r t free sectors with
  | zero => omega
  | succ turns ih =>
    refine h.draft.read (Multiset.mem_cons_self x H) ?_
    refine h.nextHeader hxs hroom (fun hr t ht => ?_) fun y r' hr t ht => ?_
    · subst hr
      have hdone := hdone t ht
      rwa [map_singleton, sum_singleton] at hdone
    · subst hr
      refine ih _ _ ht (hxs.trans (append_cons ..))
        (by rw [length_cons] at hturns; omega) fun t ht => ?_
      have hdone := hdone t ht
      rwa [map_cons, sum_cons, ← BitVec.add_assoc] at hdone

/-- The sectors of the free blocks among some headers. -/
def freeSum (v : Word → Header) (ys : List Word) : ℕ :=
  (ys.map fun y => if (v y).type = apaTypeFree then (v y).length.toNat else 0).sum

/-- The sectors of the partitions among some headers. -/
def usedSum (v : Word → Header) (ys : List Word) : ℕ :=
  (ys.map fun y => if (v y).type = apaTypeFree then 0 else (v y).length.toNat).sum

/-- A walk adds at most the sectors of the free blocks. -/
theorem addFree_le {ys : List Word} (hpower : ∀ y ∈ ys, ∃ k, (v y).length.toNat = 2 ^ k) (free : Word) :
    (addFree v ys free).toNat ≤ free.toNat + freeSum v ys := by
  induction ys generalizing free with
  | nil => exact le_refl _
  | cons y ys ih =>
    have hrest := ih (fun y hy => hpower y (mem_cons_of_mem _ hy))
      (if (v y).type = apaTypeFree then apaCalculateFreeSpace free (v y).length else free)
    have hsum : freeSum v (y :: ys) = (if (v y).type = apaTypeFree then (v y).length.toNat else 0) + freeSum v ys :=
      rfl
    rw [hsum]
    refine hrest.trans ?_
    split
    · obtain ⟨k, hk⟩ := hpower y mem_cons_self
      have := apaCalculateFreeSpace_le free hk
      omega
    · omega

/-- A bit below 1 GB that a walk sets stands for at most the size of a free block. -/
theorem addFree_bit {ys : List Word} (hpower : ∀ y ∈ ys, ∃ k, (v y).length.toNat = 2 ^ k) (free : Word)
    (hk : k ≤ 20) (hbit : (addFree v ys free).getLsbD k) : free.getLsbD k ∨ Suitable v ys (2 ^ k) := by
  induction ys generalizing free with
  | nil => exact .inl hbit
  | cons y ys ih =>
    rcases ih (fun y hy => hpower y (mem_cons_of_mem _ hy)) _ hbit with hbit | ⟨z, hz, hfree, hle⟩
    · dsimp only at hbit
      split at hbit
      · next hfree =>
        obtain ⟨j, hj⟩ := hpower y mem_cons_self
        refine (apaCalculateFreeSpace_bit hj hk hbit).imp id fun hle => ⟨y, mem_cons_self, hfree, ?_⟩
        rw [hj]
        exact Nat.pow_le_pow_right (by decide) hle
      · exact .inl hbit
    · exact .inr ⟨z, mem_cons_of_mem y hz, hfree, hle⟩

/-- The end of a table is the sum of its lengths. -/
theorem Table.sum_eq (ht : Table unit v xs) (hxs : 0 :: xs = l ++ x :: r) :
    x.toNat + (freeSum v (x :: r) + usedSum v (x :: r)) = (lastOf xs).toNat + (v (lastOf xs)).length.toNat := by
  have hone : ∀ (y : Word) (ys : List Word), freeSum v (y :: ys) + usedSum v (y :: ys) =
      (v y).length.toNat + (freeSum v ys + usedSum v ys) := by
    intro y ys
    simp only [freeSum, usedSum, map_cons, sum_cons]
    split <;> omega
  rw [hone]
  induction r generalizing l x with
  | nil =>
    obtain ⟨l', hlast⟩ := exists_lastOf xs
    obtain rfl : x = lastOf xs := (append_inj' (hxs.symm.trans hlast) rfl).2 |> cons.inj |>.1
    rfl
  | cons y r ih =>
    obtain ⟨-, -, hadjacent⟩ := ht.next_eq hxs
    rw [← ih (hxs.trans (append_cons ..)), hone, hadjacent]
    omega

theorem Table.sum_all (ht : Table unit v xs) : freeSum v (0 :: xs) + usedSum v (0 :: xs) =
    (lastOf xs).toNat + (v (lastOf xs)).length.toNat := by
  have hsum := ht.sum_eq (l := []) rfl
  rwa [show (0 : Word).toNat = 0 from rfl, Nat.zero_add] at hsum

/-- The lengths on 32-bit numbers. -/
theorem toNat_sum_length (ys : List Word) :
    ((ys.map fun y => (v y).length).sum).toNat = (freeSum v ys + usedSum v ys) % 2 ^ 32 := by
  induction ys with
  | nil => rfl
  | cons y ys ih =>
    rw [map_cons, sum_cons, toNat_add, ih, Nat.add_mod_mod]
    simp only [freeSum, usedSum, map_cons, sum_cons]
    congr 1
    split <;> omega

/-- The size for which there is space is the largest one halved some times. -/
theorem fitSize_some {turns : ℕ} {partMax size : Word} (hmax : partMax.toNat = 2 ^ i)
    (hfit : fitSize device sectors turns partMax = some size) : ∃ j, 18 ≤ j ∧ size.toNat = 2 ^ j ∧
      2 ^ j ∣ sectors.toNat ∧ sectors.toNat + 2 ^ j < device.totalLBA.toNat := by
  induction turns generalizing partMax i with
  | zero => cases hfit
  | succ turns ih =>
    rw [fitSize] at hfit
    split at hfit
    · next hlarge =>
      rw [lt_def, hmax] at hlarge
      split at hfit
      · next hfits =>
        obtain rfl := Option.some.inj hfit
        refine ⟨i, ?_, hmax, ?_, ?_⟩
        · by_contra hlt
          have : 2 ^ i ≤ 2 ^ 17 := Nat.pow_le_pow_right (by decide) (by omega)
          have : (0x3FFFF : Word).toNat = 0x3FFFF := rfl
          omega
        · rw [← hmax]
          exact Nat.dvd_of_mod_eq_zero (congrArg BitVec.toNat hfits.1)
        · rw [← hmax]
          exact hfits.2
      · cases i with
        | zero => exact absurd hlarge (by decide)
        | succ i => exact ih (toNat_half_pow hmax) hfit
    · cases hfit

/-- What the report adds for the space behind the table. -/
structure Behind (device : Device) (sectors free result : Word) : Prop where
  le : result.toNat ≤ free.toNat + (device.totalLBA.toNat - sectors.toNat)
  bit : ∀ k ≤ 20, result.getLsbD k → free.getLsbD k ∨ alignUp sectors.toNat (2 ^ k) + 2 ^ k < device.totalLBA.toNat

/-- The space behind the table is reported up to the end of the drive. -/
theorem tailLoop_wp {Q : Word → Known Word Header → Prop} (turns : ℕ) (hmax : device.partitionMaxSize.toNat = 2 ^ i)
    (hturns : device.totalLBA.toNat < sectors.toNat + 2 ^ 18 * turns) (hpos : 0 < turns)
    (hdone : ∀ result, Behind device sectors free result → Q result t) :
    (tailLoop device turns free sectors).wp (tableRules n unit) Q t := by
  induction turns generalizing free sectors with
  | zero => omega
  | succ turns ih =>
    have hsame : Behind device sectors free free := ⟨Nat.le_add_right _ _, fun _ _ hbit => .inl hbit⟩
    rw [tailLoop]
    split
    · cases hfit : fitSize device sectors 32 device.partitionMaxSize with
      | none => exact hdone free hsame
      | some size =>
        obtain ⟨j, hj, hsize, hdvd, hfits⟩ := fitSize_some hmax hfit
        have hlarge : 2 ^ 18 ≤ 2 ^ j := Nat.pow_le_pow_right (by decide) hj
        have hsum : (sectors + size).toNat = sectors.toNat + 2 ^ j := by
          rw [toNat_add, hsize, Nat.mod_eq_of_lt (by omega)]
        refine ih (by omega) (by omega) fun result hresult => hdone result ⟨?_, fun k hk hbit => ?_⟩
        · have hle := hresult.le
          have hadd := apaCalculateFreeSpace_le free hsize
          omega
        · have hpos := Nat.two_pow_pos k
          rcases hresult.bit k hk hbit with hbit | hbehind
          · refine (apaCalculateFreeSpace_bit hsize hk hbit).imp id fun hkj => ?_
            have := alignUp_le_of_dvd hpos ((pow_dvd_pow 2 hkj).trans hdvd) (le_refl sectors.toNat)
            have : 2 ^ k ≤ 2 ^ j := Nat.pow_le_pow_right (by decide) hkj
            omega
          · obtain ⟨hmultiple, hle, -⟩ := alignUp_spec (e := (sectors + size).toNat) hpos
            have := alignUp_le_of_dvd (e := sectors.toNat) hpos hmultiple (by omega)
            exact .inr (by omega)
    · exact hdone free hsame

/-- The sectors of a drive that no partition covers. -/
def uncovered (v : Word → Header) (ys : List Word) (totalLBA : ℕ) : Finset ℕ :=
  (Finset.range totalLBA).filter fun sector =>
    ∀ y ∈ ys, (v y).type ≠ apaTypeFree → ¬ (y.toNat ≤ sector ∧ sector < y.toNat + (v y).length.toNat)

theorem uncovered_congr {v' : Word → Header} {ys : List Word} {totalLBA : ℕ} (hsame : ∀ y ∈ ys, v' y = v y) :
    uncovered v' ys totalLBA = uncovered v ys totalLBA :=
  Finset.filter_congr fun sector _ => forall₂_congr fun y hy => by rw [hsame y hy]

/-- Partitions cover no more sectors than they have. -/
theorem le_card_uncovered (v : Word → Header) (ys : List Word) (totalLBA : ℕ) :
    totalLBA ≤ (uncovered v ys totalLBA).card + usedSum v ys := by
  induction ys with
  | nil =>
    refine le_of_eq ?_
    simp [uncovered, usedSum]
  | cons y ys ih =>
    have hsum : usedSum v (y :: ys) = (if (v y).type = apaTypeFree then 0 else (v y).length.toNat) + usedSum v ys :=
      rfl
    rw [hsum]
    by_cases hfree : (v y).type = apaTypeFree
    · have hsame : uncovered v (y :: ys) totalLBA = uncovered v ys totalLBA := by
        refine Finset.filter_congr fun sector _ => ?_
        simp [hfree]
      rw [hsame, if_pos hfree]
      omega
    · have hsub : uncovered v ys totalLBA ⊆ uncovered v (y :: ys) totalLBA ∪
          Finset.Ico y.toNat (y.toNat + (v y).length.toNat) := by
        intro sector hsector
        obtain ⟨hrange, huncovered⟩ := Finset.mem_filter.mp hsector
        by_cases hin : y.toNat ≤ sector ∧ sector < y.toNat + (v y).length.toNat
        · exact Finset.mem_union_right _ (Finset.mem_Ico.mpr hin)
        · refine Finset.mem_union_left _ (Finset.mem_filter.mpr ⟨hrange, fun z hz => ?_⟩)
          rcases mem_cons.mp hz with rfl | hz
          · exact fun _ => hin
          · exact huncovered z hz
      have hcard := (Finset.card_le_card hsub).trans (Finset.card_union_le _ _)
      rw [Nat.card_Ico] at hcard
      rw [if_neg hfree]
      omega

/-- The free blocks of a table lie before its last header, which is not free. -/
theorem Table.freeSum_le (ht : Table unit v xs) (hlast : (v (lastOf xs)).type ≠ apaTypeFree) {totalLBA : ℕ}
    (hinside : (lastOf xs).toNat ≤ totalLBA) : freeSum v (0 :: xs) ≤ (uncovered v (0 :: xs) totalLBA).card := by
  obtain ⟨l, hl⟩ := exists_lastOf xs
  have hcovered := le_card_uncovered v l (lastOf xs).toNat
  have hsum := ht.sum_all
  obtain ⟨hfree, hused⟩ : freeSum v (0 :: xs) = freeSum v l ∧
      usedSum v (0 :: xs) = usedSum v l + (v (lastOf xs)).length.toNat := by
    rw [hl]
    simp [freeSum, usedSum, hlast]
  have hsub : uncovered v l (lastOf xs).toNat ⊆ uncovered v (0 :: xs) totalLBA := by
    intro sector hsector
    obtain ⟨hrange, huncovered⟩ := Finset.mem_filter.mp hsector
    have hlt := Finset.mem_range.mp hrange
    refine Finset.mem_filter.mpr ⟨Finset.mem_range.mpr (by omega), fun y hy => ?_⟩
    rw [hl, mem_append, mem_singleton] at hy
    rcases hy with hy | rfl
    · exact huncovered y hy
    · omega
  have := Finset.card_le_card hsub
  omega

/-- The highest bit is set, unless there is none above the first. -/
theorem highestBit_spec (sectors : Word) (i : ℕ) :
    (highestBit sectors i).1 = 0 ∨ sectors.getLsbD (highestBit sectors i).1 := by
  induction i with
  | zero => exact .inl rfl
  | succ i ih =>
    rw [highestBit]
    split
    · next hbit =>
      refine .inr ?_
      by_contra hclear
      refine hbit ?_
      rw [show 1#32 <<< (i + 1) = BitVec.twoPow 32 (i + 1) from rfl, BitVec.and_comm, and_twoPow, if_neg hclear]
      rfl
    · exact ih

/-- The largest partition has a power of two of sectors. -/
theorem toNat_apaGetPartitionMax (totalLBA : Word) : ∃ i, (apaGetPartitionMax totalLBA).toNat = 2 ^ i := by
  have hpow : ∀ i < 32, (1#32 <<< i).toNat = 2 ^ i := fun i hi => by
    rw [show 1#32 <<< i = twoPow 32 i from rfl, toNat_twoPow_of_lt hi]
  have hsmall : (highestBit (totalLBA >>> 6) 31).1 < 26 := by
    rcases highestBit_spec (totalLBA >>> 6) 31 with hzero | hbit
    · omega
    · rw [getLsbD_ushiftRight] at hbit
      have := lt_of_getLsbD hbit
      omega
  rw [apaGetPartitionMax]
  generalize highestBit (totalLBA >>> 6) 31 = highest at *
  dsimp only
  split
  · exact ⟨_, hpow _ (by omega)⟩
  · exact ⟨_, hpow _ (by omega)⟩

/-- A report of free space can be relied on: it counts no sectors that are used, and a partition of a size whose bit
is set can be created. -/
structure Driver.Honest (s : Driver n) (xs : List Word) (device : Device) (free : Word) : Prop where
  le : free.toNat ≤ (uncovered s.headers (0 :: xs) device.totalLBA.toNat).card
  creates : ∀ k, 18 ≤ k → k ≤ 20 → free.getLsbD k → ∀ params : Params, params.size.toNat = 2 ^ k →
    ∃ x, (s.allocate xs device params).1 = some (0, some x)

/-- Where the report says so, there is space for a partition. -/
theorem Driver.WellFormed.allocate_some {params : Params} (h : s.WellFormed xs) (hn : 3 ≤ n)
    (hsize : params.size.toNat = 2 ^ k) (hk : 18 ≤ k) (hspace : Suitable s.headers (0 :: xs) (2 ^ k) ∨
      alignUp (s.tableEnd xs) (2 ^ k) + 2 ^ k < device.totalLBA.toNat) :
    ∃ x, (s.allocate xs device params).1 = some (0, some x) := by
  have hfits : ¬ Suitable s.headers (0 :: xs) (2 ^ k) → ¬ device.refuses (s.tableEnd xs) (2 ^ k) →
      alignUp (s.tableEnd xs) (2 ^ k) < 2 ^ 32 := fun hnone _ => by
    have := hspace.resolve_left hnone
    omega
  rcases h.allocate hn hsize hk hfits with ⟨xs', x, hresult, -⟩ | ⟨hnone, hrefused, -⟩
  · exact ⟨x, hresult⟩
  · have hbehind := hspace.resolve_left hnone
    have hle := (alignUp_spec (e := s.tableEnd xs) (Nat.two_pow_pos k)).2.1
    rcases hrefused with hlarge | hwrap
    · rw [Nat.mod_eq_of_lt (by omega)] at hlarge
      omega
    · omega

/-- `apaGetFreeSectors` leaves the table alone, and adds the space behind it to that of its free
blocks. -/
theorem Driver.WellFormed.getFreeSectors (h : s.WellFormed xs) (hn : 3 ≤ n)
    (hmax : device.partitionMaxSize.toNat = 2 ^ i) (hend : s.tableEnd xs < 2 ^ 32) :
    ∃ free sectors, ((apaGetFreeSectors device).run s).1 = some (0, free) ∧
      ((apaGetFreeSectors device).run s).2.WellFormed xs ∧
      (∀ x ∈ 0 :: xs, ((apaGetFreeSectors device).run s).2.headers x = s.headers x) ∧
      sectors.toNat = s.tableEnd xs ∧ Behind device sectors (addFree s.headers (0 :: xs) 0) free := by
  have ht := h.stores.table
  have hwp : (apaGetFreeSectors device).wp (tableRules n (2 ^ 18)) (fun result t => ∃ v' xs',
      Settled (2 ^ 18) v' xs' t ∧ v' = s.headers ∧ xs' = xs ∧ ∃ sectors free, sectors.toNat = s.tableEnd xs ∧
        result = (0, free) ∧ Behind device sectors (addFree s.headers (0 :: xs) 0) free) (s.atRest xs) := by
    refine h.stores.at.got mem_cons_self (by rw [Multiset.card_zero]; omega) fun t hat => ?_
    refine Prog.wp_bind ?_
    refine freeLoop_wp walkTurns 0 0 hat (l := []) rfl
      (ht.length_lt (pow_dvd_pow 2 (by decide)) (l := []) rfl)
      (by rw [Multiset.card_zero]; omega) fun t hat => ?_
    have hsectors : ((0 : Word) + ((0 :: xs).map fun y => (s.headers y).length).sum).toNat = s.tableEnd xs := by
      have hzero : ∀ y : Word, 0 + y = y := BitVec.zero_add
      have hsum : freeSum s.headers (0 :: xs) + usedSum s.headers (0 :: xs) = s.tableEnd xs := ht.sum_all
      rw [hzero, toNat_sum_length, hsum, Nat.mod_eq_of_lt hend]
    generalize (0 : Word) + ((0 :: xs).map fun y => (s.headers y).length).sum = sectors at *
    dsimp only
    rw [if_pos rfl]
    refine Prog.wp_bind ?_
    refine tailLoop_wp walkTurns hmax ?_ (by decide) fun free hfree =>
      ⟨s.headers, xs, hat.settled, rfl, rfl, sectors, free, hsectors, rfl, hfree⟩
    rw [walkTurns]
    omega
  obtain ⟨result, v', xs', hresult, hstores, hsame, rfl, rfl, sectors, free, hsectors, rfl, hbehind⟩ :=
    h.stores.run (pow_dvd_pow 2 (show 9 ≤ 18 by decide)) hwp
  refine ⟨free, sectors, hresult, ⟨hstores, ?_⟩, hsame, hsectors, hbehind⟩
  obtain ⟨l, hl⟩ := exists_lastOf xs'
  rw [hsame _ (by rw [hl]; simp)]
  exact h.ended

/-- `apaGetFreeSectors` on a table whose headers are on the drive succeeds with a report that can be relied on. -/
theorem apaGetFreeSectors_honest (h : s.WellFormed xs) (hn : 3 ≤ n)
    (hmax : device.partitionMaxSize = apaGetPartitionMax device.totalLBA)
    (hinside : ∀ x ∈ 0 :: xs, x.toNat < device.totalLBA.toNat) (hend : s.tableEnd xs < 2 ^ 32) : ∃ free,
      ((apaGetFreeSectors device).run s).1 = some (0, free) ∧ ((apaGetFreeSectors device).run s).2.WellFormed xs ∧
        (∀ x ∈ 0 :: xs, ((apaGetFreeSectors device).run s).2.headers x = s.headers x) ∧
        ((apaGetFreeSectors device).run s).2.Honest xs device free := by
  obtain ⟨i, hi⟩ := toNat_apaGetPartitionMax device.totalLBA
  rw [← hmax] at hi
  obtain ⟨free, sectors, hresult, hwell, hsame, hsectors, hbehind⟩ := h.getFreeSectors hn hi hend
  generalize (apaGetFreeSectors device).run s = outcome at *
  refine ⟨free, hresult, hwell, hsame, ?_, fun k hk hk20 hbit params hsize => ?_⟩
  · have hcovered := le_card_uncovered s.headers (0 :: xs) device.totalLBA.toNat
    have hlast : (lastOf xs).toNat < device.totalLBA.toNat := by
      obtain ⟨l, hl⟩ := exists_lastOf xs
      exact hinside _ (by rw [hl]; simp)
    have hblocks := h.stores.table.freeSum_le h.ended hlast.le
    have hsum : freeSum s.headers (0 :: xs) + usedSum s.headers (0 :: xs) = s.tableEnd xs := h.stores.table.sum_all
    have hfree := addFree_le (show ∀ y ∈ 0 :: xs, _ from fun y hy => (h.stores.table.sound y hy).power) 0
    rw [show (0 : Word).toNat = 0 from rfl] at hfree
    have hle := hbehind.le
    rw [uncovered_congr hsame]
    omega
  · refine hwell.allocate_some hn hsize hk ?_
    have hend : outcome.2.tableEnd xs = sectors.toNat := by
      obtain ⟨l, hl⟩ := exists_lastOf xs
      rw [hsectors, Driver.tableEnd, hsame _ (by rw [hl]; simp)]
      rfl
    rw [hend]
    refine (hbehind.bit k hk20 hbit).imp (fun hbit => ?_) id
    rcases addFree_bit (fun y hy => (h.stores.table.sound y hy).power) 0 hk20 hbit with hzero | ⟨y, hy, hfree, hle⟩
    · simp at hzero
    · refine ⟨y, hy, ?_, ?_⟩
      · rwa [hsame y hy]
      · rwa [hsame y hy]

/-- A table with a free block between two partitions. -/
def gapHeaders : List Header :=
  [{ soloHeader with next := 0x40000, prev := 0x80000 },
    { soloHeader with start := 0x40000, next := 0x80000, prev := 0, type := apaTypeFree },
    { soloHeader with start := 0x80000, next := 0, prev := 0x40000 }]

/-- A drive of 8 GB. -/
def largeDevice : Device := ⟨0x1000000, apaGetPartitionMax 0x1000000, 2, 0⟩

/-- The free space of that table on that drive is reported. -/
theorem apaGetFreeSectors_honest_gap : ∃ free,
    ((apaGetFreeSectors largeDevice).run (Driver.fresh 3 (diskOf gapHeaders))).1 = some (0, free) ∧
      ((apaGetFreeSectors largeDevice).run (Driver.fresh 3 (diskOf gapHeaders))).2.Honest [0x40000, 0x80000]
        largeDevice free := by
  obtain ⟨hwell, hheaders⟩ := Driver.wellFormed_fresh 3 gapHeaders (by decide) (by decide) (by decide)
  have hend : (Driver.fresh 3 (diskOf gapHeaders)).tableEnd [0x40000, 0x80000] = 0xC0000 := by
    have hlast := hheaders { soloHeader with start := 0x80000, next := 0, prev := 0x40000 } (by decide)
    show (0x80000 : Word).toNat + ((Driver.fresh 3 (diskOf gapHeaders)).headers 0x80000).length.toNat = 0xC0000
    rw [show (Driver.fresh 3 (diskOf gapHeaders)).headers 0x80000 = _ from hlast]
    rfl
  have hwell : (Driver.fresh 3 (diskOf gapHeaders)).WellFormed [0x40000, 0x80000] := hwell
  obtain ⟨free, hresult, -, -, hhonest⟩ := apaGetFreeSectors_honest hwell (by decide)
    (show largeDevice.partitionMaxSize = _ from rfl) (by simp [largeDevice]) (by omega)
  exact ⟨free, hresult, hhonest⟩

end Ps2sdk.Apa
