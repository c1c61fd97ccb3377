import Ps2sdk.Lib.Run
import Ps2sdk.Mc.CardTrace

/-!
# The backup protocol on the card

Between two operations of a flush, or of a recovery, the card is in one of three situations: the
second backup block is erased and the block is whole; the first marker page is written and the
block is untouched; or both marker pages are written and the first backup block holds the new
contents. Every operation keeps the card in one of them.
-/

namespace Ps2sdk.Mc

open Lib Function List BitVec Nat DevInfo

namespace DevInfo

variable {mcdi : DevInfo}

/-- Every page of a block is erased. -/
def BlockErased (mcdi : DevInfo) (pages : Pages) (block : ℕ) : Prop :=
  ∀ i < mcdi.blocksize, pages (block * mcdi.blocksize + i) = mcdi.erasedPage

/-- The pages of a block have the given words. -/
def BlockHolds (mcdi : DevInfo) (pages : Pages) (block : ℕ) (data : ℕ → Words) : Prop :=
  ∀ i < mcdi.blocksize, (pages (block * mcdi.blocksize + i)).words = data i

/-- The pages of a block carry their codes. -/
def BlockCoded (mcdi : DevInfo) (pages : Pages) (block : ℕ) : Prop :=
  ∀ i < mcdi.blocksize, (pages (block * mcdi.blocksize + i)).Coded mcdi.groups

variable {other i : ℕ} {op : CardOp} {pagedata : ℕ → Words} {order : List ℕ} {marker : Page}

theorem page_inj {block j : ℕ} (hi : i < mcdi.blocksize) (hj : j < mcdi.blocksize)
    (h : block * mcdi.blocksize + i = other * mcdi.blocksize + j) : block = other := by
  have := congrArg (· / mcdi.blocksize) h
  simpa [mul_add_div (zero_lt_of_lt hi), mul_comm _ mcdi.blocksize, div_eq_of_lt hi,
    div_eq_of_lt hj] using this

theorem apply_erase (pages : Pages) (block : ℕ) : mcdi.BlockErased (mcdi.apply pages (.erase block)) block := by
  intro i hi
  exact if_pos ⟨le_add_right _ _, by omega⟩

variable {block : ℕ}

variable (pages : Pages)

theorem apply_erase_other (hne : other ≠ block) (hi : i < mcdi.blocksize) :
    mcdi.apply pages (.erase block) (other * mcdi.blocksize + i) = pages (other * mcdi.blocksize + i) := by
  apply if_neg
  rintro ⟨hle, hlt⟩
  obtain ⟨j, hj⟩ := Nat.exists_eq_add_of_le hle
  have hlt' : j < mcdi.blocksize := by omega
  exact hne (page_inj hi hlt' hj)

theorem BlockHolds.erase {pages : Pages} (h : mcdi.BlockHolds pages other pagedata) (hne : other ≠ block) :
    mcdi.BlockHolds (mcdi.apply pages (.erase block)) other pagedata :=
  fun i hi => (congrArg Page.words (apply_erase_other pages hne hi)).trans (h i hi)

theorem apply_program_other (contents : Page) {block j : ℕ} (hne : other ≠ block)
    (hi : i < mcdi.blocksize) (hj : j < mcdi.blocksize) :
    mcdi.apply pages (.program (block * mcdi.blocksize + j) contents) (other * mcdi.blocksize + i) =
      pages (other * mcdi.blocksize + i) :=
  update_of_ne (fun h => hne (page_inj hi hj h)) _ _

/-- The operation works on a page of the block or erases it. -/
def InBlock (mcdi : DevInfo) (block : ℕ) : CardOp → Prop
  | .erase b => b = block
  | .program page _ => ∃ j < mcdi.blocksize, page = block * mcdi.blocksize + j

/-- An operation in one block keeps the others. -/
theorem apply_other (hop : mcdi.InBlock block op) (hne : other ≠ block) (hi : i < mcdi.blocksize) :
    mcdi.apply pages op (other * mcdi.blocksize + i) = pages (other * mcdi.blocksize + i) := by
  cases op with
  | erase b =>
    obtain rfl : b = block := hop
    exact apply_erase_other pages hne hi
  | program page contents =>
    obtain ⟨j, hj, rfl⟩ := hop
    exact apply_program_other pages contents hne hi hj

theorem pageOps_inBlock {eccdata : ℕ → BitVec 8} (horder : ∀ i ∈ order, i < mcdi.blocksize) :
    ∀ op ∈ mcdi.pageOps block pagedata eccdata order, mcdi.InBlock block op := by
  intro op hop
  obtain ⟨i, hi, rfl⟩ := mem_map.mp hop
  exact ⟨i, horder i hi, rfl⟩

/-- Writing pages of an erased block, each once, stores them; the rest of the block stays. -/
theorem applyAll_pageOps {eccdata : ℕ → BitVec 8} (hnodup : order.Nodup) (pages : Pages)
    (herased : ∀ i ∈ order, pages (block * mcdi.blocksize + i) = mcdi.erasedPage) (i : ℕ) :
    mcdi.applyAll pages (mcdi.pageOps block pagedata eccdata order) (block * mcdi.blocksize + i) =
      if i ∈ order then mcdi.writtenPage (pagedata i) fun k => eccdata (mcdi.sparesize * i + k)
      else pages (block * mcdi.blocksize + i) := by
  induction order generalizing pages with
  | nil => simp [pageOps, applyAll]
  | cons j order ih =>
    obtain ⟨hnotMem, hnodup⟩ := nodup_cons.mp hnodup
    have hafter : ∀ k, mcdi.apply pages (.program (block * mcdi.blocksize + j)
        (mcdi.writtenPage (pagedata j) fun k => eccdata (mcdi.sparesize * j + k))) (block * mcdi.blocksize + k) =
        if k = j then mcdi.writtenPage (pagedata j) fun k => eccdata (mcdi.sparesize * j + k)
        else pages (block * mcdi.blocksize + k) := by
      intro k
      by_cases hk : k = j
      · subst hk
        rw [if_pos rfl]
        exact (update_self _ _ _).trans (by rw [herased k mem_cons_self, program_erased])
      · rw [if_neg hk]
        exact update_of_ne (by omega) _ _
    refine (ih hnodup _ fun k hk => ?_).trans ?_
    · rw [hafter, if_neg (ne_of_mem_of_not_mem hk hnotMem), herased k (mem_cons_of_mem _ hk)]
    · rw [hafter]
      by_cases hi : i = j
      · subst hi
        simp [hnotMem]
      · simp [hi]

end DevInfo

/-- The word that marks a block. -/
def markerWord (block : ℕ) : BitVec 32 := BitVec.ofNat 32 block ||| 0x80000000

theorem markedBlock_erased (mcdi : DevInfo) : markedBlock mcdi mcdi.eraseWord = 0xFFFFFFFF := by
  unfold markedBlock eraseWord
  cases mcdi.eraseZeroes <;> decide

theorem markerWord_toNat (hblock : block < 2 ^ 31) : (markerWord block).toNat = 2 ^ 31 + block := by
  have hadd := Nat.two_pow_add_eq_or_of_lt hblock 1
  rw [Nat.mul_one] at hadd
  rw [markerWord, toNat_or, toNat_ofNat, Nat.mod_eq_of_lt (by omega), hadd, Nat.or_comm]
  rfl

/-- A marker word names its block. -/
theorem markedBlock_marker (mcdi : DevInfo) (hblock : block < 2 ^ 31 - 1) :
    markedBlock mcdi (markerWord block) = BitVec.ofNat 32 block := by
  have hnat := markerWord_toNat (show block < 2 ^ 31 by omega)
  have hzero : markerWord block ≠ 0 := by
    intro h
    rw [h] at hnat
    simp at hnat
    omega
  have hones : markerWord block ≠ 0xFFFFFFFF := by
    intro h
    rw [h] at hnat
    simp at hnat
    omega
  have hmask : markerWord block &&& 0x7FFFFFFF = BitVec.ofNat 32 block := by
    apply eq_of_toNat_eq
    rw [toNat_and, hnat, toNat_ofNat, mod_eq_of_lt (by omega)]
    change (2 ^ 31 + block) &&& (2 ^ 31 - 1) = block
    rw [and_two_pow_sub_one_eq_mod]
    omega
  simp only [markedBlock, hzero, and_false, if_false, hones, ne_eq, not_false_eq_true, if_true, hmask]

section Situation

variable {mcdi : DevInfo} {block : ℕ} {old new : ℕ → Words} {pages : Pages}

/-- The block is whole and no backup is pending. -/
def Whole (mcdi : DevInfo) (block : ℕ) (old new : ℕ → Words) (pages : Pages) : Prop :=
  (mcdi.BlockHolds pages block old ∨ mcdi.BlockHolds pages block new) ∧
    mcdi.BlockErased pages mcdi.backupBlock2

/-- The first marker is written and the block is untouched. -/
structure HalfMarked (mcdi : DevInfo) (block : ℕ) (old : ℕ → Words) (pages : Pages) : Prop where
  first : (pages (mcdi.backupBlock2 * mcdi.blocksize)).words 0 = markerWord block
  second : pages (mcdi.backupBlock2 * mcdi.blocksize + 1) = mcdi.erasedPage
  untouched : mcdi.BlockHolds pages block old

/-- Both markers are written and the first backup block has the new contents. -/
structure Marked (mcdi : DevInfo) (block : ℕ) (new : ℕ → Words) (pages : Pages) : Prop where
  first : (pages (mcdi.backupBlock2 * mcdi.blocksize)).words 0 = markerWord block
  second : (pages (mcdi.backupBlock2 * mcdi.blocksize + 1)).words 0 = markerWord block
  firstCoded : (pages (mcdi.backupBlock2 * mcdi.blocksize)).Coded mcdi.groups
  secondCoded : (pages (mcdi.backupBlock2 * mcdi.blocksize + 1)).Coded mcdi.groups
  backup : mcdi.BlockHolds pages mcdi.backupBlock1 new
  backupCoded : mcdi.BlockCoded pages mcdi.backupBlock1

/-- The situations between two operations. -/
def Recoverable (mcdi : DevInfo) (block : ℕ) (old new : ℕ → Words) (pages : Pages) : Prop :=
  Whole mcdi block old new pages ∨ HalfMarked mcdi block old pages ∨ Marked mcdi block new pages

theorem marker_pages (mcdi : DevInfo) : 0 < mcdi.blocksize ∧ 1 < mcdi.blocksize := by
  have := mcdi.block_pages
  unfold blocksize
  omega

/-- Work in another block leaves the markers and the backup alone. -/
theorem Marked.apply_other (h : Marked mcdi block new pages) {target : ℕ}
    (hop : mcdi.InBlock target op) (h1 : mcdi.backupBlock1 ≠ target) (h2 : mcdi.backupBlock2 ≠ target) :
    Marked mcdi block new (mcdi.apply pages op) := by
  obtain ⟨hzero, hone⟩ := marker_pages mcdi
  have hfirst := DevInfo.apply_other pages hop h2 hzero
  have hsecond := DevInfo.apply_other pages hop h2 hone
  rw [add_zero] at hfirst
  constructor
  case first => rw [hfirst, h.first]
  case second => rw [hsecond, h.second]
  case firstCoded => rw [hfirst]; exact h.firstCoded
  case secondCoded => rw [hsecond]; exact h.secondCoded
  case backup => exact fun i hi => by rw [DevInfo.apply_other pages hop h1 hi, h.backup i hi]
  case backupCoded => exact fun i hi => by rw [DevInfo.apply_other pages hop h1 hi]; exact h.backupCoded i hi

/-- Work outside the block and the marker pages leaves the half-marked situation alone. -/
theorem HalfMarked.apply_other (h : HalfMarked mcdi block old pages) {target : ℕ}
    (hop : mcdi.InBlock target op) (hblock : block ≠ target) (h2 : mcdi.backupBlock2 ≠ target) :
    HalfMarked mcdi block old (mcdi.apply pages op) := by
  obtain ⟨hzero, hone⟩ := marker_pages mcdi
  have hfirst := DevInfo.apply_other pages hop h2 hzero
  rw [add_zero] at hfirst
  constructor
  case first => rw [hfirst, h.first]
  case second => rw [DevInfo.apply_other pages hop h2 hone, h.second]
  case untouched => exact fun i hi => by rw [DevInfo.apply_other pages hop hblock hi, h.untouched i hi]

/-- Rewriting the block under both markers, in any order of its pages: every stop is recoverable,
and at the end the block has the new contents. -/
theorem Marked.rewrite (h : Marked mcdi block new pages) (h1 : block ≠ mcdi.backupBlock1)
    (h2 : block ≠ mcdi.backupBlock2) (eccdata : ℕ → BitVec 8)
    (hdata : ∀ i < mcdi.blocksize, pagedata i = new i) (horder : order.Perm (range mcdi.blocksize)) :
    Along mcdi.apply (Recoverable mcdi block old new) pages (mcdi.rewriteOps block pagedata eccdata order) ∧
      Whole mcdi block old new (mcdi.applyAll pages (mcdi.rewriteOps block pagedata eccdata order)) := by
  have hmem : ∀ i, i ∈ order ↔ i < mcdi.blocksize := fun i => by rw [horder.mem_iff, mem_range]
  have hin : ∀ op ∈ .erase block :: mcdi.pageOps block pagedata eccdata order, mcdi.InBlock block op := by
    intro op hop
    cases hop with
    | head => rfl
    | tail _ hop => exact pageOps_inBlock (fun i hi => (hmem i).mp hi) op hop
  have hmarked : Along mcdi.apply (Marked mcdi block new) pages
      (.erase block :: mcdi.pageOps block pagedata eccdata order) :=
    Along.of_kept (fun s op hop hs => hs.apply_other (hin op hop) h1.symm h2.symm) h
  have hwritten : mcdi.BlockHolds (mcdi.applyAll pages
      (.erase block :: mcdi.pageOps block pagedata eccdata order)) block new := by
    intro i hi
    have hpage := @applyAll_pageOps mcdi pagedata order block eccdata
      (horder.nodup_iff.mpr nodup_range) (mcdi.apply pages (.erase block))
      (fun j hj => apply_erase pages block j ((hmem j).mp hj)) i
    rw [if_pos ((hmem i).mpr hi)] at hpage
    refine (congrArg Page.words hpage).trans ?_
    exact hdata i hi
  have hfinal : Whole mcdi block old new (mcdi.apply (mcdi.applyAll pages
      (.erase block :: mcdi.pageOps block pagedata eccdata order)) (.erase mcdi.backupBlock2)) :=
    ⟨.inr (hwritten.erase h2), apply_erase _ _⟩
  constructor
  · refine Along.append (hmarked.imp fun _ hs => .inr (.inr hs)) ?_
    exact Along.cons (.inr (.inr hmarked.last)) (Along.nil (.inl hfinal))
  · unfold rewriteOps applyAll
    rw [foldl_append]
    exact hfinal

/-- A recovery after a restart: every stop is recoverable, and when it completes the block is whole
and no backup is pending. -/
theorem Recoverable.recovery (h : Recoverable mcdi block old new pages) (hecc : mcdi.useEcc = true)
    (hblock : block < 2 ^ 31 - 1) (h1 : block ≠ mcdi.backupBlock1) (h2 : block ≠ mcdi.backupBlock2)
    {s : Mcman} {unit : ℕ × ℕ} (hmcdi : s.devinfos unit = mcdi) :
    Along mcdi.apply (Recoverable mcdi block old new) pages (s.recoveryOps unit pages) ∧
      Whole mcdi block old new (mcdi.applyAll pages (s.recoveryOps unit pages)) := by
  obtain ⟨hzero, hone⟩ := marker_pages mcdi
  have hnone : markedBlock mcdi (mcdi.erasedPage.words 0) = 0xFFFFFFFF := markedBlock_erased mcdi
  have hsome : markedBlock mcdi (markerWord block) = BitVec.ofNat 32 block := markedBlock_marker mcdi hblock
  have hnat : (BitVec.ofNat 32 block).toNat = block := by
    rw [toNat_ofNat, mod_eq_of_lt (by omega)]
  have hne : BitVec.ofNat 32 block ≠ 0xFFFFFFFF := by
    intro heq
    rw [heq] at hnat
    simp at hnat
    omega
  rcases h with hwhole | hhalf | hmarked
  · have hfirst := hwhole.2 0 hzero
    have hsecond := hwhole.2 1 hone
    rw [add_zero] at hfirst
    have hread := mcReadPage_erased hecc
    rw [recoveryOps_idle hmcdi (by rw [hfirst, hnone]) (by rw [hsecond, hnone]) (by rw [hfirst, hread])
      (by rw [hsecond, hread])]
    exact ⟨Along.nil (.inl hwhole), hwhole⟩
  · rw [recoveryOps_discard hmcdi (by rwa [hhalf.first, hsome]) (by rw [hhalf.second, hnone])]
    have hwhole : Whole mcdi block old new (mcdi.applyAll pages [.erase mcdi.backupBlock2]) := by
      exact ⟨.inl (hhalf.untouched.erase h2), apply_erase pages _⟩
    exact ⟨Along.cons (.inr (.inl hhalf)) (Along.nil (.inl hwhole)), hwhole⟩
  · obtain ⟨pagedata, eccdata, hdata, hops⟩ := recoveryOps_restore hmcdi hne (by rw [hmarked.first, hsome])
      (by rw [hmarked.second, hsome]) (mcReadPage_coded hecc hmarked.firstCoded)
      (mcReadPage_coded hecc hmarked.secondCoded)
      fun i hi => mcReadPage_coded hecc (hmarked.backupCoded i hi)
    rw [hops, hnat]
    have hnew : ∀ i < mcdi.blocksize, pagedata i = new i := fun i hi => (hdata i hi).trans (hmarked.backup i hi)
    exact hmarked.rewrite h1 h2 (mcdi.fillEcc pagedata eccdata) hnew (List.Perm.refl _)

end Situation

end Ps2sdk.Mc
