import Ps2sdk.Apa.Insert

/-!
# Creating and opening a partition

`hddAddPartitionHere` puts a partition in free space or at the end of the table. `Created` says what that does to
the blocks of the table: one block is new, and the others are those there were before, or free. `apaOpen` finds the
first partition with a name, or creates one; the sectors it clears in a new partition are not those of a header.
-/

namespace Ps2sdk.Apa

open Lib ApaProg Function List Multiset BitVec Nat Bool

variable {n unit : ℕ} {α : Type} {v v' : Word → Header} {xs l r : List Word} {x p : Word} {H : Multiset Word}
  {t : Known Word Header}

/-- A block has been added to some blocks: it is cut out of a free one, or lies behind them. -/
inductive Created : List Block → Block → List Block → Prop
  | insert {bl br cs : List Block} {b new : Block} (hfree : b.part = none) (hstart : new.start = b.start)
    (hcs : ∀ c ∈ cs, c.part = none) (hinside : ∀ c ∈ new :: cs, c.start + c.length ≤ b.start + b.length) :
    Created (bl ++ b :: br) new (bl ++ (new :: cs) ++ br)
  | append {bs cs : List Block} {new : Block} (hcs : ∀ c ∈ cs, c.part = none) : Created bs new (bs ++ cs ++ [new])

/-- Creating a partition adds it to the others. -/
theorem Created.parts {bs bs' : List Block} {new : Block} {body : Header} (h : Created bs new bs')
    (hbody : new.part = some body) : ∃ ps qs, parts bs = ps ++ qs ∧ parts bs' = ps ++ body :: qs := by
  cases h with
  | @insert bl br cs b new hfree hstart hcs hinside =>
    refine ⟨Apa.parts bl, Apa.parts br, ?_, ?_⟩
    · rw [parts_append]
      exact congrArg _ (filterMap_cons_none hfree)
    · rw [parts_append, parts_append]
      have hnew : Apa.parts (new :: cs) = [body] :=
        (List.filterMap_cons_some hbody).trans (congrArg _ (parts_of_free hcs))
      rw [hnew, List.append_assoc]
      rfl
  | @append bs cs new hcs =>
    refine ⟨Apa.parts bs, [], (append_nil _).symm, ?_⟩
    rw [parts_append, parts_append, parts_of_free hcs, append_nil]
    exact congrArg _ (filterMap_cons_some hbody)

/-- The blocks there were still start where they did. -/
theorem Created.start_mem {bs bs' : List Block} {new b : Block} (h : Created bs new bs') (hb : b ∈ bs) :
    ∃ b' ∈ bs', b'.start = b.start := by
  cases h with
  | @insert bl br cs c new hfree hstart hcs hinside =>
    rcases mem_append.mp hb with hb | hb
    · exact ⟨b, by simp [hb], rfl⟩
    · rcases mem_cons.mp hb with rfl | hb
      · exact ⟨new, by simp, hstart⟩
      · exact ⟨b, by simp [hb], rfl⟩
  | append hcs => exact ⟨b, by simp [hb], rfl⟩

theorem toNat_one_shiftLeft (i : Fin 32) : ((1#32 : Word) <<< i.val).toNat = 2 ^ i.val := by
  have hlt : 2 ^ i.val < 2 ^ 32 := Nat.pow_lt_pow_right Nat.one_lt_two i.isLt
  rw [toNat_shiftLeft, Nat.shiftLeft_eq, show (1#32 : Word).toNat = 1 from rfl, Nat.one_mul,
    Nat.mod_eq_of_lt hlt]

/-- The table of free blocks names one of each size that there is among some headers. -/
structure Names (v : Word → Header) (ys : List Word) (emptyBlocks : Fin 32 → Word) : Prop where
  sound : ∀ i, emptyBlocks i ≠ 0 → emptyBlocks i ∈ ys ∧ (v (emptyBlocks i)).type = apaTypeFree ∧
    (v (emptyBlocks i)).length.toNat = 2 ^ i.val
  complete : ∀ y ∈ ys, (v y).type = apaTypeFree → ∀ i : Fin 32, (v y).length.toNat = 2 ^ i.val → emptyBlocks i ≠ 0

/-- A free block is entered unless there is one of its size. -/
theorem apaAddEmptyBlock_eq {h : Header} {i : Fin 32} (emptyBlocks : Fin 32 → Word) (hfree : h.type = apaTypeFree)
    (hlength : h.length.toNat = 2 ^ i.val) :
    apaAddEmptyBlock h emptyBlocks = if emptyBlocks i = 0 then update emptyBlocks i h.start else emptyBlocks := by
  have honly : ∀ k : Fin 32, h.length = 1#32 <<< k.val ↔ k = i := by
    intro k
    rw [← toNat_inj, toNat_one_shiftLeft, hlength, Nat.pow_right_inj (le_refl 2), eq_comm, Fin.ext_iff]
  rw [apaAddEmptyBlock, if_pos hfree]
  cases hfind : (finRange 32).find? fun i => h.length == 1#32 <<< i.val && emptyBlocks i == 0 with
  | none =>
    have hnone := find?_eq_none.mp hfind i (mem_finRange i)
    rw [if_neg fun hzero => hnone (by simp [(honly i).mpr rfl, hzero])]
  | some k =>
    have hsome := find?_some hfind
    simp only [and_eq_true, beq_iff_eq] at hsome
    obtain rfl := (honly k).mp hsome.1
    rw [if_pos hsome.2]

variable {emptyBlocks : Fin 32 → Word}

/-- One header is entered in the table of free blocks. -/
theorem Names.add {ys : List Word} {y : Word} (h : Names v ys emptyBlocks)
    (hsound : Sound unit y (v y)) (hy : (v y).type = apaTypeFree → y ≠ 0) :
    Names v (ys ++ [y]) (apaAddEmptyBlock (v y) emptyBlocks) := by
  by_cases hfree : (v y).type = apaTypeFree
  · obtain ⟨k, hk⟩ := hsound.power
    have hk32 : k < 32 := (Nat.pow_lt_pow_iff_right Nat.one_lt_two).mp (hk ▸ (v y).length.isLt)
    rw [apaAddEmptyBlock_eq (i := ⟨k, hk32⟩) emptyBlocks hfree hk, hsound.start]
    by_cases hzero : emptyBlocks ⟨k, hk32⟩ = 0
    · rw [if_pos hzero]
      refine ⟨fun i hi => ?_, fun w hw hwfree i hwi => ?_⟩
      · by_cases hik : i = ⟨k, hk32⟩
        · subst hik
          rw [update_self]
          exact ⟨by simp, hfree, hk⟩
        · rw [update_of_ne hik] at hi ⊢
          obtain ⟨hmem, hrest⟩ := h.sound i hi
          exact ⟨mem_append_left [y] hmem, hrest⟩
      · by_cases hik : i = ⟨k, hk32⟩
        · subst hik
          rw [update_self]
          exact hy hfree
        · rw [update_of_ne hik]
          rcases mem_append.mp hw with hw | hw
          · exact h.complete w hw hwfree i hwi
          · rw [List.mem_singleton.mp hw, hk] at hwi
            exact absurd (Fin.ext (Nat.pow_right_injective (le_refl 2) hwi.symm)) hik
    · rw [if_neg hzero]
      refine ⟨fun i hi => ?_, fun w hw hwfree i hwi => ?_⟩
      · obtain ⟨hmem, hrest⟩ := h.sound i hi
        exact ⟨mem_append_left [y] hmem, hrest⟩
      · rcases mem_append.mp hw with hw | hw
        · exact h.complete w hw hwfree i hwi
        · rw [List.mem_singleton.mp hw, hk] at hwi
          rwa [show i = ⟨k, hk32⟩ from Fin.ext (Nat.pow_right_injective (le_refl 2) hwi.symm)]
  · rw [apaAddEmptyBlock, if_neg hfree]
    refine ⟨fun i hi => ?_, fun w hw hwfree i hwi => ?_⟩
    · obtain ⟨hmem, hrest⟩ := h.sound i hi
      exact ⟨mem_append_left [y] hmem, hrest⟩
    · rcases mem_append.mp hw with hw | hw
      · exact h.complete w hw hwfree i hwi
      · exact absurd (List.mem_singleton.mp hw ▸ hwfree) hfree

/-- A walk over headers enters them in the table of free blocks. -/
theorem Names.walk {ys zs : List Word} (h : Names v ys emptyBlocks)
    (hzs : ∀ z ∈ zs, Sound unit z (v z) ∧ ((v z).type = apaTypeFree → z ≠ 0)) :
    Names v (ys ++ zs) (addEmptyBlocks v zs emptyBlocks) := by
  induction zs generalizing ys emptyBlocks with
  | nil => rwa [append_nil]
  | cons z zs ih =>
    obtain ⟨hsound, hz⟩ := hzs z mem_cons_self
    have hstep := ih (h.add hsound hz) fun w hw => hzs w (List.mem_cons_of_mem z hw)
    rwa [List.append_assoc] at hstep

theorem Table.names (ht : Table unit v xs) : Names v (0 :: xs) (addEmptyBlocks v (0 :: xs) fun _ => 0) := by
  have hstart : Names v [] fun _ => 0 := ⟨fun i hi => absurd rfl hi, fun y hy => absurd hy not_mem_nil⟩
  exact hstart.walk fun z hz => ⟨ht.sound z hz, ht.free_ne_zero⟩

/-- There is a free block of a size or larger. -/
def Suitable (v : Word → Header) (ys : List Word) (size : ℕ) : Prop :=
  ∃ y ∈ ys, (v y).type = apaTypeFree ∧ size ≤ (v y).length.toNat

/-- `hddAddPartitionHere` finds a free block that is large enough if there is one. -/
theorem Names.find {ys : List Word} (h : Names v ys emptyBlocks) (size : Word)
    (hsound : ∀ y ∈ ys, Sound unit y (v y)) :
    (∃ i k, (finRange 32).find? (fun i => size ≤ 1#32 <<< i.val && emptyBlocks i != 0) = some i ∧
      emptyBlocks i ∈ ys ∧ (v (emptyBlocks i)).type = apaTypeFree ∧ (v (emptyBlocks i)).length.toNat = 2 ^ k ∧
      size.toNat ≤ 2 ^ k) ∨
    (finRange 32).find? (fun i => size ≤ 1#32 <<< i.val && emptyBlocks i != 0) = none ∧
      ¬ Suitable v ys size.toNat := by
  cases hfind : (finRange 32).find? fun i => size ≤ 1#32 <<< i.val && emptyBlocks i != 0 with
  | some i =>
    have hsome := find?_some hfind
    simp only [and_eq_true, decide_eq_true_eq, bne_iff_ne, le_def, toNat_one_shiftLeft] at hsome
    obtain ⟨hmem, hfree, hlength⟩ := h.sound i hsome.2
    exact .inl ⟨i, i.val, rfl, hmem, hfree, hlength, hsome.1⟩
  | none =>
    refine .inr ⟨rfl, ?_⟩
    rintro ⟨y, hy, hfree, hle⟩
    obtain ⟨k, hk⟩ := (hsound y hy).power
    have hk32 : k < 32 := (Nat.pow_lt_pow_iff_right Nat.one_lt_two).mp (hk ▸ (v y).length.isLt)
    have hnone := find?_eq_none.mp hfind ⟨k, hk32⟩ (mem_finRange _)
    have hne := h.complete y hy hfree ⟨k, hk32⟩ hk
    rw [hk] at hle
    simp only [and_eq_true, decide_eq_true_eq, bne_iff_ne, le_def] at hnone
    exact hnone ⟨hle.trans (toNat_one_shiftLeft ⟨k, hk32⟩).ge, hne⟩

/-- The part of `hddAddPartitionHere` that appends, on a table. -/
theorem At.appendPartition {f : ℤ × Option Word → ApaProg α} {Q : α → Known Word Header → Prop} {device : Device}
    {params : Params} {j : ℕ} (h : At (2 ^ 18) v xs H t) (hxs : 0 :: xs = l ++ [p])
    (hsize : params.size.toNat = 2 ^ j) (hj : 18 ≤ j)
    (hfits : ¬ device.refuses (p.toNat + (v p).length.toNat) (2 ^ j) →
      alignUp (p.toNat + (v p).length.toNat) (2 ^ j) < 2 ^ 32) (hroom : H.card + 2 < n)
    (hcreated : ∀ v' xs' ys x t created prev, At (2 ^ 18) v' xs' (x ::ₘ H) t → 0 :: xs' = (0 :: xs) ++ ys ++ [x] →
      blocks v' (0 :: xs) = blocks v (0 :: xs) → (∀ b ∈ blocks v' ys, b.part = none) →
      v' x = params.header x 0 prev params.size created →
      ¬ device.refuses (p.toNat + (v p).length.toNat) (2 ^ j) →
      x.toNat = alignUp (p.toNat + (v p).length.toNat) (2 ^ j) → (f (0, some x)).wp (tableRules n (2 ^ 18)) Q t)
    (hrefused : device.refuses (p.toNat + (v p).length.toNat) (2 ^ j) → ∀ t, At (2 ^ 18) v xs H t →
      (f (-28, none)).wp (tableRules n (2 ^ 18)) Q t) :
    (appendPartition device params p >>= f).wp (tableRules n (2 ^ 18)) Q t := by
  have hpmem : p ∈ 0 :: xs := by rw [hxs]; simp
  have hsound := h.table.sound p hpmem
  have hpos := Nat.two_pow_pos j
  refine Prog.wp_bind ?_
  refine h.got hpmem (by omega) fun t ht => ?_
  refine ht.draft.read (by simp) ?_
  have hne : params.size ≠ 0 := fun hzero => by
    rw [hzero] at hsize
    have : (0 : Word).toNat = 0 := rfl
    omega
  rw [hsound.start, if_neg hne]
  have hiff := refuses_iff device hsize hsound.positive hsound.fits
  by_cases href : device.refuses (p.toNat + (v p).length.toNat) (2 ^ j)
  · rw [if_pos (hiff.mpr href)]
    refine ht.freeHead fun t ht => ?_
    exact hrefused href t ht
  · rw [if_neg (mt hiff.mp href)]
    refine ht.got mem_cons_self (by rw [card_cons]; omega) fun t ht => ?_
    rw [cons_swap] at ht
    obtain ⟨hmultiple, hle, hlt⟩ := alignUp_spec (e := p.toNat + (v p).length.toNat) hpos
    have hj32 : j < 32 := (Nat.pow_lt_pow_iff_right Nat.one_lt_two).mp (hsize ▸ params.size.isLt)
    refine Prog.wp_bind ?_
    refine padLoop_wp (i := 18) sizeTurns ht hxs hsize rfl (toNat_add ..) (le_refl 18)
      (Nat.dvd_add hsound.place hsound.coarse) (by rw [sizeTurns]; omega) (by rw [sizeTurns]; omega) hmultiple hle
        hlt
      hroom fun v1 xs1 ys q partEnd t ht hxs1 hlast hblocks1 hys hq hpart => ?_
    obtain ⟨l', hlast⟩ := hlast
    rw [Nat.mod_eq_of_lt (hfits href)] at hpart
    have hqsound := ht.table.sound q (by rw [hlast]; simp)
    refine ht.draft.read (by simp) ?_
    rw [hqsound.start]
    have hcoarse : 2 ^ 18 ∣ 2 ^ j := pow_dvd_pow 2 hj
    refine ht.draft.fillHeader (by rw [hpart]; exact hcoarse.trans hmultiple)
      (.inr (by simp only [card_cons]; omega)) fun created v2 t hv2x hv2 hd => ?_
    refine hd.link ht.table hlast hv2 ?_ (by rw [hv2x]; rfl) (by rw [hv2x]; rfl) (hpart.trans hq.symm)
      fun v3 xs3 t ht' hxs3 hblocks3 hv3x => ?_
    · rw [hv2x]
      exact Params.header_sound hsize (by rw [hpart]; exact hmultiple) hcoarse
    have hxq : partEnd ≠ q := by
      rintro rfl
      have := hqsound.positive
      omega
    have hx0 : partEnd ≠ 0 := by
      rintro rfl
      have : (0 : Word).toNat = 0 := rfl
      have := hsound.positive
      omega
    refine ht'.free (by simp) fun t ht' => ?_
    rw [Multiset.erase_cons_tail _ hxq, Multiset.erase_cons_head] at ht'
    refine ht'.free (by simp) fun t ht' => ?_
    rw [Multiset.erase_cons_tail _ hx0, Multiset.erase_cons_head] at ht'
    rw [hxs1, blocks_append, blocks_append] at hblocks3
    obtain ⟨hold, hnew⟩ := append_inj' hblocks3 (by simp [blocks])
    exact hcreated v3 xs3 ys partEnd t created q ht' (by rw [hxs3, hxs1]) (hold.trans hblocks1) (by rwa [hnew])
      (hv3x.trans hv2x) href hpart

/-- `hddAddPartitionHere` on a table that does not end in free space. -/
theorem At.addPartitionHere {f : ℤ × Option Word → ApaProg α} {Q : α → Known Word Header → Prop} {device : Device}
    {params : Params} {j : ℕ} (h : At (2 ^ 18) v xs H t) (hxs : 0 :: xs = l ++ [p]) (hp : (v p).type ≠ apaTypeFree)
    (hsize : params.size.toNat = 2 ^ j) (hj : 18 ≤ j)
    (hfits : ¬ Suitable v (0 :: xs) (2 ^ j) → ¬ device.refuses (p.toNat + (v p).length.toNat) (2 ^ j) →
      alignUp (p.toNat + (v p).length.toNat) (2 ^ j) < 2 ^ 32) (hroom : H.card + 2 < n)
    (hcreated : ∀ v' xs' x t, At (2 ^ 18) v' xs' (x ::ₘ H) t →
      Created (blocks v (0 :: xs)) (v' x).block (blocks v' (0 :: xs')) → x ∈ 0 :: xs' → x ≠ 0 →
      (∃ next prev created, v' x = params.header x next prev params.size created) →
      (Suitable v (0 :: xs) (2 ^ j) ∧ x ∈ 0 :: xs ∧ x ≠ p ∨
        ¬ Suitable v (0 :: xs) (2 ^ j) ∧ ¬ device.refuses (p.toNat + (v p).length.toNat) (2 ^ j) ∧
        x.toNat = alignUp (p.toNat + (v p).length.toNat) (2 ^ j)) → (f (0, some x)).wp (tableRules n (2 ^ 18)) Q t)
    (hrefused : ¬ Suitable v (0 :: xs) (2 ^ j) → device.refuses (p.toNat + (v p).length.toNat) (2 ^ j) →
      ∀ t, At (2 ^ 18) v xs H t → (f (-28, none)).wp (tableRules n (2 ^ 18)) Q t) :
    (hddAddPartitionHere device params (addEmptyBlocks v (0 :: xs) fun _ => 0) p >>= f).wp
      (tableRules n (2 ^ 18)) Q t := by
  have hcoarse : 2 ^ 18 ∣ 2 ^ j := pow_dvd_pow 2 hj
  unfold hddAddPartitionHere
  rcases h.table.names.find params.size h.table.sound with
    ⟨i, k, hfind, hmem, hfree, hlength, hle⟩ | ⟨hfind, hnone⟩
  · rw [hfind]
    dsimp only
    generalize addEmptyBlocks v (0 :: xs) (fun _ => 0) i = x at *
    have hjk : j ≤ k := by
      rw [hsize] at hle
      exact (Nat.pow_le_pow_iff_right Nat.one_lt_two).mp hle
    obtain ⟨l', r', hsplit⟩ := append_of_mem hmem
    refine h.insertPartition hsplit hfree hsize hcoarse hlength hjk hroom
      fun v' xs' m t created next prev ht hxs' hl hr hm hvx => ?_
    have hr' : r' ≠ [] := by
      rintro rfl
      obtain ⟨-, hlast⟩ := append_inj' (hsplit.symm.trans hxs) rfl
      exact hp ((cons.inj hlast).1 ▸ hfree)
    obtain ⟨z, r'', rfl⟩ := exists_cons_of_ne_nil hr'
    have hx : x ∈ 0 :: xs' := by rw [hxs']; simp
    refine hcreated v' xs' x t ht ?_ hx (h.table.free_ne_zero hfree) ⟨next, prev, created, hvx⟩
      (.inl ⟨⟨x, hmem, hfree, ?_⟩, hmem, fun hxp => hp (hxp ▸ hfree)⟩)
    · rw [hxs', hsplit, blocks_append, blocks_append, blocks_append, hl, hr, blocks_cons, blocks_cons]
      refine Created.insert (Header.block_part_none.mpr hfree) ?_ ?_ ?_
      · show (v' x).start.toNat = (v x).start.toNat
        rw [(ht.table.sound x hx).start, (h.table.sound x hmem).start]
      · intro c hc
        obtain ⟨w, hw, rfl⟩ := mem_map.mp hc
        exact Header.block_part_none.mpr (hm w hw)
      · intro c hc
        change c ∈ blocks v' (x :: m) at hc
        obtain ⟨w, hw, rfl⟩ := mem_map.mp hc
        have hwmem : w ∈ 0 :: xs' := by
          rw [hxs']
          exact mem_append_left _ (mem_append_right l' hw)
        have hend := ht.table.end_le_of_mem hxs' hw
        obtain ⟨-, -, hz⟩ := h.table.next_eq hsplit
        show (v' w).start.toNat + (v' w).length.toNat ≤ (v x).start.toNat + (v x).length.toNat
        rw [(ht.table.sound w hwmem).start, (h.table.sound x hmem).start]
        omega
    · rw [hlength]
      exact Nat.pow_le_pow_right (by decide) hjk
  · rw [hfind]
    rw [hsize] at hnone
    refine h.appendPartition hxs hsize hj (hfits hnone) hroom
      (fun v' xs' ys x t created prev ht hxs' hblocks hys hvx href hx => ?_) (hrefused hnone)
    refine hcreated v' xs' x t ht ?_ (by rw [hxs']; simp) ?_ ⟨0, prev, created, hvx⟩ (.inr ⟨hnone, href, hx⟩)
    · rw [hxs', blocks_append, blocks_append, hblocks]
      exact Created.append hys
    · rintro rfl
      obtain ⟨-, hle, -⟩ := alignUp_spec (e := p.toNat + (v p).length.toNat) (Nat.two_pow_pos j)
      have := (h.table.sound p (by rw [hxs]; simp)).positive
      have : (0 : Word).toNat = 0 := rfl
      omega

/-- What `apaOpen` returns for a partition. -/
def openRv (params : Params) (flags : OpenFlags) (h : Header) : ℤ :=
  if apaPassCmp h.fpwd params.fpwd ≠ 0 then if flags.wronly then -13 else apaPassCmp h.rpwd params.rpwd else 0

/-- The end of `apaOpen`. -/
theorem openFound_wp {intact : (Word → Header) → Prop} {Q : ℤ × FileSlot → Known Word Header → Prop}
    {slot : FileSlot} {params : Params} {flags : OpenFlags} (hx : x ∈ t.held) (hclean : x ∉ t.dirty)
    (hdone : Q (openRv params flags (t.record x), slot.load (t.record x))
      { t with held := t.held.erase x, last := some x }) :
    (openFound slot params flags x).wp (rules n unit intact) Q t :=
  ⟨hx, hx, fun hdirty => absurd hdirty hclean, hdone⟩

theorem aside_inside {intact : (Word → Header) → Prop} {offset : Word} (hx : 2 ^ 18 ∣ x.toNat)
    (hlow : 2 ≤ offset.toNat) (hhigh : offset.toNat + 1 < 2 ^ 18) :
    (rules n (2 ^ 18) intact).aside (x + offset).toNat := by
  intro y hy
  obtain ⟨a, ha⟩ := hx
  obtain ⟨b, hb⟩ := hy
  rw [toNat_add, Nat.mod_eq_of_lt (by omega)]
  omega

/-- The part of `apaOpen` that creates a partition, on a table that does not end in free space. -/
theorem At.openCreate {f : ℤ × Option Word → ApaProg α} {Q : α → Known Word Header → Prop} {device : Device}
    {params : Params} {j : ℕ} (h : At (2 ^ 18) v xs H t) (hxs : 0 :: xs = l ++ [p]) (hp : (v p).type ≠ apaTypeFree)
    (hsize : params.size.toNat = 2 ^ j) (hj : 18 ≤ j)
    (hfits : ¬ Suitable v (0 :: xs) (2 ^ j) → ¬ device.refuses (p.toNat + (v p).length.toNat) (2 ^ j) →
      alignUp (p.toNat + (v p).length.toNat) (2 ^ j) < 2 ^ 32) (hroom : H.card + 2 < n)
    (hcreated : ∀ v' xs' x t, At (2 ^ 18) v' xs' (x ::ₘ H) t →
      Created (blocks v (0 :: xs)) (v' x).block (blocks v' (0 :: xs')) → x ∈ 0 :: xs' →
      (∃ next prev created, v' x = params.header x next prev params.size created) →
      (f (0, some x)).wp (tableRules n (2 ^ 18)) Q { t with last := none, erased := true })
    (hlarge : device.partitionMaxSize < params.size → (f (-22, none)).wp (tableRules n (2 ^ 18)) Q t)
    (hrefused : ∀ t, At (2 ^ 18) v xs H t → (f (-28, none)).wp (tableRules n (2 ^ 18)) Q t) :
    (openCreate device params (addEmptyBlocks v (0 :: xs) fun _ => 0) p >>= f).wp (tableRules n (2 ^ 18)) Q t := by
  refine Prog.wp_bind ?_
  unfold Apa.openCreate hddCheckPartitionMax
  by_cases hmax : params.size ≤ device.partitionMaxSize
  · rw [if_pos hmax, if_neg (by decide)]
    refine h.addPartitionHere hxs hp hsize hj hfits hroom (fun v' xs' x t ht hcreate hx _ hvx _ => ?_)
      fun _ _ t ht => hrefused t ht
    have hsound := ht.table.sound x hx
    refine ht.draft.read (by simp) ?_
    rw [hsound.start]
    refine ⟨ht.draft.erased, ?_, fun sector hsector => ?_, hcreated v' xs' x t ht hcreate hx hvx⟩
    · show t.held.card < n
      rw [ht.draft.held, Multiset.card_cons]
      omega
    · rcases mem_cons.mp hsector with rfl | hsector
      · exact aside_inside hsound.place (by decide) (by decide)
      · rw [List.mem_singleton.mp hsector]
        exact aside_inside hsound.place (by decide) (by decide)
  · rw [if_neg hmax, if_pos (by decide)]
    exact hlarge (BitVec.not_le.mp hmax)

/-- The request reaches the creation of a partition. -/
structure Creates (device : Device) (v : Word → Header) (xs : List Word) (params : Params) (flags : OpenFlags) :
    Prop where
  missing : ∀ w ∈ 0 :: xs, ¬ (v w).Named params.id
  creat : flags.creat = true
  small : params.size ≤ device.partitionMaxSize

/-- `apaOpen` on a table that does not end in free space. -/
theorem At.open {Q : ℤ × FileSlot → Known Word Header → Prop} {device : Device} {slot : FileSlot} {params : Params}
    {flags : OpenFlags} (h : At (2 ^ 18) v xs 0 t) (hxs : 0 :: xs = l ++ [p]) (hp : (v p).type ≠ apaTypeFree)
    (hsize : Creates device v xs params flags → ∃ j, 18 ≤ j ∧ params.size.toNat = 2 ^ j)
    (hfits : Creates device v xs params flags → ¬ Suitable v (0 :: xs) params.size.toNat →
      ¬ device.refuses (p.toNat + (v p).length.toNat) params.size.toNat →
      alignUp (p.toNat + (v p).length.toNat) params.size.toNat < 2 ^ 32) (hn : 3 ≤ n)
    (hfound : ∀ y ∈ 0 :: xs, (v y).Named params.id →
      ∀ t, At (2 ^ 18) v xs 0 t → Q (openRv params flags (v y), slot.load (v y)) t)
    (hcreated : Creates device v xs params flags → ∀ v' xs' x t, Settled (2 ^ 18) v' xs' t →
      Created (blocks v (0 :: xs)) (v' x).block (blocks v' (0 :: xs')) → x ∈ 0 :: xs' →
      (∃ next prev created, v' x = params.header x next prev params.size created) →
      Q (openRv params flags (v' x), slot.load (v' x)) t)
    (hfailed : ∀ rv t, rv < 0 → At (2 ^ 18) v xs 0 t → Q (rv, slot) t) :
    (apaOpen device slot params flags).wp (tableRules n (2 ^ 18)) Q t := by
  have hzero : (0 : Word) ∈ 0 :: xs := mem_cons_self
  have hcard : (0 : Multiset Word).card + 2 < n := by
    rw [Multiset.card_zero]
    omega
  refine h.got hzero (by omega) fun t ht => ?_
  refine Prog.wp_bind ?_
  refine openLoop_wp params.id walkTurns (fun _ => 0) ht (l := []) rfl
    (h.table.length_lt (pow_dvd_pow 2 (by decide)) (l := []) rfl) (by omega)
    (fun l' y r' hsplit hy _ e t ht => ?_) fun hall l' y hsplit t ht => ?_
  · dsimp only
    rw [if_neg (not_not.mpr rfl)]
    refine openFound_wp (by rw [ht.draft.held]; simp) (by rw [ht.draft.dirty]; exact Finset.notMem_empty y) ?_
    rw [show t.record y = v y from congrFun ht.draft.record y]
    refine hfound y (by rw [hsplit]; simp) hy _ ⟨ht.table, ht.draft.record, ?_, ht.draft.dirty, ht.draft.erased,
      ht.draft.sound⟩
    rw [ht.draft.held, Multiset.erase_cons_head]
  · dsimp only
    rw [if_neg (not_not.mpr rfl)]
    obtain rfl : y = p := by
      obtain ⟨-, hlast⟩ := append_inj' (hsplit.symm.trans hxs) rfl
      exact (cons.inj hlast).1
    cases hcreat : flags.creat with
    | false => exact hfailed (-2) t (by decide) ht
    | true =>
      by_cases hmax : params.size ≤ device.partitionMaxSize
      · have hcreates : Creates device v xs params flags := ⟨hall, hcreat, hmax⟩
        obtain ⟨j, hj, hsizej⟩ := hsize hcreates
        have hfits' := hfits hcreates
        rw [hsizej] at hfits'
        refine ht.openCreate hxs hp hsizej hj hfits' hcard (fun v' xs' x t ht hcreate hx hvx => ?_)
          (fun hlarge => absurd hmax (BitVec.not_le.mpr hlarge)) fun t ht => hfailed (-28) t (by decide) ht
        refine openFound_wp (show x ∈ t.held by rw [ht.draft.held]; simp)
          (show x ∉ t.dirty by rw [ht.draft.dirty]; exact Finset.notMem_empty x) ?_
        rw [show t.record x = v' x from congrFun ht.draft.record x]
        refine hcreated hcreates v' xs' x _ ⟨ht.table, ht.draft.record, ?_, ht.draft.dirty, rfl, ht.draft.sound⟩
          hcreate hx hvx
        rw [ht.draft.held, Multiset.erase_cons_head]
      · refine Prog.wp_bind ?_
        unfold Apa.openCreate hddCheckPartitionMax
        rw [if_neg hmax, if_pos (by decide)]
        exact hfailed (-22) t (by decide) ht

end Ps2sdk.Apa
