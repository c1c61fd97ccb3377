import Ps2sdk.Apa.Create
import Ps2sdk.Apa.Merge

/-!
# Deleting a partition and the partitions of a table

`apaDelete` on a table does to its blocks what `deleteBlock` says. Creating, deleting and changing a partition
change `partsOf`, the map from start sectors to partitions, at one place, and leave no free space at the end of the
table.
-/

namespace Ps2sdk.Apa

section Cutting

open Lib ApaProg List Multiset BitVec

variable {n unit : ℕ} {α : Type} {v v' : Word → Header} {xs l r : List Word} {x z : Word} {H : Multiset Word}
  {t : Known Word Header}

/-- The last header is cut off. -/
theorem Table.cut {p : Word} (ht : Table unit v xs) (v' : Word → Header) (hxs : 0 :: xs = l ++ p :: [x])
    (hother : ∀ w, w ≠ p → w ≠ 0 → v' w = v w) (hnext : (v' p).next = 0) (hlast : (v' 0).prev = p)
    (hbody : ∀ w, (v' w).body = (v w).body) (hprev : p ≠ 0 → (v' p).prev = (v p).prev)
    (hzero : p ≠ 0 → ∃ q, v' 0 = { v 0 with prev := q }) :
    ∃ xs', 0 :: xs' = l ++ [p] ∧ Table unit v' xs' := by
  obtain ⟨xs', hxs', htable, -, -⟩ := @Table.rewrite unit v v' xs l [x] [] [] p 0 ht [] (by rw [hxs]; simp) rfl
    (fun w hw hwz => hother w (by
      rintro rfl
      exact (ht.not_mem_around hxs).1 (by rwa [append_nil] at hw)) hwz)
    (fun hne => hzero hne.symm) (fun hne => hprev hne.symm)
    (isChain_cons_cons.mpr ⟨⟨hnext, hlast, fun hne => absurd rfl hne⟩, isChain_singleton 0⟩)
    (fun w hw => (ht.sound w (by
      rw [hxs, List.mem_singleton.mp hw]
      simp)).congr (hbody w))
    not_mem_nil
    (fun _ => by
      have hfields := congrArg (fun h : Header => (h.type, h.mbr)) (hbody 0)
      simpa only [Header.body, Prod.mk.injEq] using hfields)
  exact ⟨xs', by rw [hxs']; simp, htable⟩

/-- The loop of `apaDelete` that cuts off the end of the list. -/
theorem deleteTail_wp {Q : ℤ × Option Word → Known Word Header → Prop} (turns : ℕ)
    (h : At unit v xs (x ::ₘ 0 ::ₘ H) t) (hxs : 0 :: xs = l ++ [x]) (hl : l ≠ []) (hturns : l.length ≤ turns)
    (hroom : H.card + 1 < n) (hdone : ∀ v' xs' y t, At unit v' xs' (y ::ₘ 0 ::ₘ H) t →
      blocks v' (0 :: xs') = (deleteLast (blocks v l).reverse).reverse → Q (0, some y) t) :
    (deleteTail turns x).wp (tableRules n unit) Q t := by
  induction turns generalizing v xs l x t with
  | zero => exact absurd (length_eq_zero_iff.mp (Nat.le_zero.mp hturns)) hl
  | succ turns ih =>
    rcases eq_nil_or_concat' l with rfl | ⟨l, p, rfl⟩
    · exact absurd rfl hl
    have hxs' : 0 :: xs = l ++ p :: [x] := hxs.trans (append_cons ..).symm
    obtain ⟨-, hprev, -⟩ := h.table.next_eq hxs'
    have hp : p ∈ 0 :: xs := by rw [hxs']; simp
    have hsound := h.table.sound p hp
    refine h.draft.read (by simp) ?_
    refine h.freeHead fun t ht => ?_
    rw [hprev]
    refine ht.got hp (by rw [card_cons]; exact hroom) fun t ht => ?_
    refine ht.draft.change (by simp) _ fun v1 t hv1p hv1 ht => ?_
    refine ht.read (by simp) ?_
    refine ht.change (by simp) _ fun v2 t hv2z hv2 ht => ?_
    have hstart : (v1 p).start = p := by rw [hv1p]; exact hsound.start
    have hbody1 : ∀ w, (v1 w).body = (v w).body := by
      intro w
      by_cases hw : w = p
      · rw [hw, hv1p]
        rfl
      · rw [hv1 w hw]
    have hbody : ∀ w, (v2 w).body = (v w).body := by
      intro w
      by_cases hw : w = 0
      · rw [hw, hv2z, ← hbody1 0]
        rfl
      · rw [hv2 w hw, hbody1 w]
    obtain ⟨xs', hxs'', htable⟩ := h.table.cut v2 hxs' (fun w hwp hwz => by rw [hv2 w hwz, hv1 w hwp])
      (by
        by_cases hpz : p = 0
        · have hnext : (v1 p).next = 0 := by rw [hv1p]
          rw [hpz] at hnext
          rw [hpz, hv2z]
          exact hnext
        · rw [hv2 p hpz, hv1p])
      (by rw [hv2z]; exact hstart) hbody (fun hpz => by rw [hv2 p hpz, hv1p])
      (fun hpz => ⟨(v1 p).start, by rw [hv2z, hv1 0 (Ne.symm hpz)]⟩)
    refine ht.flush htable (card_two_le 0 p) (fun w hw => .inl ?_) fun t ht => ?_
    · rw [hxs''] at hw
      rw [hxs']
      simp only [mem_append, List.mem_cons] at hw ⊢
      tauto
    have hblocks : ∀ ys, blocks v2 ys = blocks v ys := fun ys => blocks_congr fun w _ => hbody w
    have hreverse : (blocks v (l ++ [p])).reverse = (v p).block :: (blocks v l).reverse := by
      rw [blocks_append, List.reverse_append]
      rfl
    have htype : (v1 p).type = (v p).type := by rw [hv1p]
    by_cases hfree : (v p).type = apaTypeFree
    · rw [if_pos (htype.trans hfree)]
      have hlne : l ≠ [] := by
        rintro rfl
        obtain ⟨rfl, -⟩ := cons.inj hxs'
        exact h.table.boot hfree
      refine ih ht hxs'' hlne (by rw [length_append] at hturns; simpa using hturns) fun v' xs3 y t ht hresult => ?_
      refine hdone v' xs3 y t ht ?_
      rw [hresult, hblocks, hreverse, deleteLast, if_pos (isNone_block.mpr hfree)]
    · rw [if_neg (fun heq => hfree (htype.symm.trans heq))]
      refine hdone v2 xs' p t ht ?_
      rw [hreverse, deleteLast, if_neg (fun hnone => hfree (isNone_block.mp hnone)), hblocks, hxs'', ← hreverse,
        reverse_reverse]

/-- One pass of `apaDelete`. -/
theorem At.deleteFix {f : Option Word → ApaProg α} {Q : α → Known Word Header → Prop}
    (h : At unit v xs (x ::ₘ H) t) (hxs : 0 :: xs = l ++ x :: r) (hl : l ≠ []) (hr : r ≠ [])
    (hunit : 2 ^ 13 ∣ unit) (hroom : H.card + 1 < n)
    (hnext : ∀ v' xs' l' y r' t, At unit v' xs' (y ::ₘ H) t → 0 :: xs' = l' ++ y :: r' → l' ≠ [] →
      Place.fix ⟨(blocks v l).reverse, (v x).block, blocks v r⟩ =
        ⟨(blocks v' l').reverse, (v' y).block, blocks v' r'⟩ → (f (some y)).wp (tableRules n unit) Q t) :
    (deleteFix x >>= f).wp (tableRules n unit) Q t := by
  obtain ⟨z, r, rfl⟩ := exists_cons_of_ne_nil hr
  refine Prog.wp_bind ?_
  refine h.deleteFixPrev hxs hunit hroom fun v1 xs1 l1 y t ht hxs1 hplace1 => ?_
  have hl1 : l1 ≠ [] := by
    rintro rfl
    obtain ⟨rfl, -⟩ := cons.inj hxs1
    -- the first block is not free, so it has not been joined with the deleted one
    have hhere : (v1 0).block.part ≠ none := mt Header.block_part_none.mp ht.table.boot
    have hfix : (Place.fixPrev ⟨(blocks v l).reverse, (v x).block, blocks v (z :: r)⟩).here = (v1 0).block := by
      rw [hplace1]
    unfold Place.fixPrev at hfix
    dsimp only at hfix
    split at hfix
    · have hstart := congrArg Block.start hfix
      have hx := h.table.sound x (by rw [hxs]; simp)
      have hzero := (ht.table.sound 0 mem_cons_self).start
      have : x = 0 := by
        rw [← hx.start]
        refine eq_of_toNat_eq (hstart.trans ?_)
        exact congrArg BitVec.toNat hzero
      exact h.table.ne_zero hxs hl this
    · exact hhere (by rw [← hfix]; rfl)
  refine ht.deleteFixNext hxs1 hl1 hunit hroom fun v2 xs2 r2 t ht hxs2 hplace2 => ?_
  refine hnext v2 xs2 l1 y r2 t ht hxs2 hl1 ?_
  rw [Place.fix, hplace1, hplace2]

/-- `apaDelete` on a table. -/
theorem At.delete {f : ℤ → ApaProg α} {Q : α → Known Word Header → Prop}
    (h : At unit v xs (x ::ₘ H) t) (hxs : 0 :: xs = l ++ x :: r) (hl : l ≠ [])
    (hr : r ≠ [] → parts (blocks v r) ≠ [])
    (hunit : 2 ^ 13 ∣ unit) (hroom : H.card + 1 < n) (hnext : ∀ v' xs' t, At unit v' xs' H t →
      blocks v' (0 :: xs') = deleteBlock (blocks v l) (v x).block (blocks v r) → (f 0).wp (tableRules n unit) Q t) :
    (apaDelete x >>= f).wp (tableRules n unit) Q t := by
  have hx := h.table.sound x (by rw [hxs]; simp)
  refine Prog.wp_bind ?_
  refine h.draft.read (by simp) ?_
  rw [if_neg (fun hzero => h.table.ne_zero hxs hl (hx.start.symm.trans hzero))]
  by_cases hnil : r = []
  · subst hnil
    rw [if_pos ((h.table.next_eq_zero hxs).mpr rfl)]
    refine h.got mem_cons_self (by rw [card_cons]; exact hroom) fun t ht => ?_
    rw [cons_swap] at ht
    refine Prog.wp_bind ?_
    refine deleteTail_wp walkTurns ht hxs hl ?_ hroom fun v' xs' y t ht hblocks => ?_
    · have := h.table.length_lt hunit (l := []) rfl
      have hlength := congrArg length hxs
      simp only [length_cons, length_append, length_nil] at hlength
      omega
    · refine ht.free (by simp) fun t ht => ?_
      refine ht.free ?_ fun t ht => ?_
      · by_cases hy : y = 0
        · rw [hy, Multiset.erase_cons_head]
          exact Multiset.mem_cons_self 0 H
        · rw [Multiset.erase_cons_tail _ hy]
          exact Multiset.mem_cons_self y _
      refine hnext v' xs' t ?_ hblocks
      have hheld : ((y ::ₘ 0 ::ₘ H).erase 0).erase y = H := by
        rw [Multiset.erase_comm, Multiset.erase_cons_head, Multiset.erase_cons_head]
      rwa [hheld] at ht
  · rw [if_neg (mt (h.table.next_eq_zero hxs).mp hnil)]
    refine h.deleteFix hxs hl hnil hunit hroom fun v1 xs1 l1 y1 r1 t ht hxs1 hl1 hplace1 => ?_
    have hr1 : r1 ≠ [] := by
      rintro rfl
      have hafter := @Place.after_fix_ne_nil ⟨(blocks v l).reverse, (v x).block, blocks v r⟩ (hr hnil)
      rw [hplace1] at hafter
      exact hafter rfl
    refine ht.deleteFix hxs1 hl1 hr1 hunit hroom fun v2 xs2 l2 y r2 t ht hxs2 hl2 hplace2 => ?_
    have hfix : Place.fix (Place.fix ⟨(blocks v l).reverse, (v x).block, blocks v r⟩) =
        ⟨(blocks v2 l2).reverse, (v2 y).block, blocks v2 r2⟩ := by rw [hplace1, hplace2]
    have hresult : ∀ b : Block, b = .empty (v2 y).block.start (v2 y).block.length →
        blocks v2 l2 ++ b :: blocks v2 r2 = deleteBlock (blocks v l) (v x).block (blocks v r) := by
      rintro b rfl
      rw [deleteBlock, if_neg (by simpa [blocks] using hnil), Place.delete, hfix]
      show _ = (blocks v2 l2).reverse.reverse ++ _
      rw [reverse_reverse]
      rfl
    have hy := ht.table.sound y (by rw [hxs2]; simp)
    refine ht.draft.read (by simp) ?_
    by_cases hsame : (v2 y).start = (v x).start ∧ (v2 y).length = (v x).length
    · rw [if_pos hsame]
      refine ht.draft.makeEmpty (by simp) fun created v3 t hv3y hv3 hdraft => ?_
      have htable : Table unit v3 xs2 := by
        refine ht.table.replaced hv3 (by rw [hv3y]; rfl) (by rw [hv3y]; rfl) (by rw [hv3y]; rfl) (fun _ => ?_)
          fun hzero => ?_
        · rw [hv3y]
          exact ⟨rfl, hy.start, hy.power, hy.aligned, hy.coarse, fun _ => rfl⟩
        · exact absurd hzero (ht.table.ne_zero hxs2 hl2)
      refine hdraft.flush htable (by simp) (fun w hw => .inl hw) fun t ht' => ?_
      refine ht'.freeHead fun t ht' => ?_
      refine hnext v3 xs2 t ht' ?_
      have hother : ∀ ys, y ∉ ys → blocks v3 ys = blocks v2 ys := fun ys hys =>
        blocks_congr fun w hw => by rw [hv3 w fun heq => hys (heq ▸ hw)]
      obtain ⟨hbefore, hbehind⟩ := ht.table.not_mem_around hxs2
      rw [hxs2, blocks_append, blocks_cons, hother l2 hbefore, hother r2 hbehind]
      refine hresult _ ?_
      rw [hv3y, Header.block_free rfl]
      rfl
    · rw [if_neg hsame]
      refine ht.freeHead fun t ht' => ?_
      refine hnext v2 xs2 t ht' ?_
      rw [hxs2, blocks_append, blocks_cons]
      refine hresult _ ?_
      have hfree : (v2 y).block.part = none := by
        have hhere : (Place.fix (Place.fix ⟨(blocks v l).reverse, (v x).block, blocks v r⟩)).here =
          (v2 y).block := by
          rw [hfix]
        rw [← hhere]
        rcases Place.fix_here (Place.fix ⟨(blocks v l).reverse, (v x).block, blocks v r⟩) with heq | hnone
        · rcases Place.fix_here ⟨(blocks v l).reverse, (v x).block, blocks v r⟩ with heq' | hnone
          · rw [heq, heq'] at hhere
            exact absurd ⟨eq_of_toNat_eq (congrArg Block.start hhere).symm,
              eq_of_toNat_eq (congrArg Block.length hhere).symm⟩ hsame
          · rw [heq]
            exact hnone
        · exact hnone
      rw [Header.block_free (Header.block_part_none.mp hfree)]
      rfl

end Cutting

section Maps

open Lib Function List Option Header

variable {unit : ℕ} {v v' : Word → Header} {xs xs' l r : List Word} {x y : Word} {h : Header}

/-- The last block is not free. -/
def Ended (bs : List Block) : Prop := ∀ b ∈ bs.getLast?, b.part ≠ none

theorem ended_blocks : Ended (blocks v (0 :: xs)) ↔ (v (lastOf xs)).type ≠ apaTypeFree := by
  obtain ⟨l, hxs⟩ := exists_lastOf xs
  rw [Ended, hxs, blocks_append, blocks_cons, blocks_nil, getLast?_concat]
  simp only [mem_def, some.injEq, forall_eq']
  exact not_congr block_part_none

/-- The block before those that `apaDelete` cuts off is not free. -/
theorem head_deleteLast (before : List Block) : ∀ b ∈ (deleteLast before).head?, b.part ≠ none := by
  induction before with
  | nil => exact fun b hb => absurd hb (not_mem_none b)
  | cons a before ih =>
    rw [deleteLast]
    split
    · exact ih
    · next ha =>
      intro b hb hfree
      obtain rfl : a = b := mem_some.mp hb
      exact ha (isNone_iff_eq_none.mpr hfree)

theorem Ended.parts_ne_nil {bs : List Block} (h : Ended bs) (hbs : bs ≠ []) : parts bs ≠ [] := by
  intro hnil
  exact h _ (getLast?_eq_some_getLast hbs) (filterMap_eq_nil_iff.mp hnil _ (getLast_mem hbs))

theorem ended_append_cons {bs cs : List Block} {b : Block} (hcs : cs ≠ []) : Ended (bs ++ b :: cs) ↔ Ended cs := by
  obtain ⟨c, cs, rfl⟩ := exists_cons_of_ne_nil hcs
  rw [Ended, Ended, getLast?_append_cons, getLast?_cons_cons]

/-- Deleting a block does not leave free space at the end. -/
theorem Ended.deleteBlock {before after : List Block} {b : Block} (h : Ended (before ++ b :: after)) :
    Ended (deleteBlock before b after) := by
  rw [Apa.deleteBlock]
  split
  · intro c hc
    rw [getLast?_reverse] at hc
    exact head_deleteLast before.reverse c hc
  · next hempty =>
    have hafter : after ≠ [] := fun hnil => hempty (isEmpty_iff.mpr hnil)
    have hended := (ended_append_cons hafter).mp h
    have hparts := hended.parts_ne_nil hafter
    have hfix : ∀ p : Place, parts p.after ≠ [] → p.fix.after ≠ [] ∧ p.fix.after <:+ p.after ∧
        parts p.fix.after ≠ [] := fun p hp =>
      ⟨Place.after_fix_ne_nil hp, absorbNext_suffix ..,
        by rwa [show parts p.fix.after = _ from parts_absorbNext ..]⟩
    obtain ⟨-, hsuffix, hparts1⟩ := hfix ⟨before.reverse, b, after⟩ hparts
    obtain ⟨hne, hsuffix2, -⟩ := hfix _ hparts1
    refine (ended_append_cons hne).mpr fun c hc => hended c ?_
    obtain ⟨front, hfront⟩ := hsuffix2.trans hsuffix
    rw [show after = _ from hfront.symm]
    exact mem_getLast?_append_of_mem_getLast? hc

/-- A partition that is created is not free space at the end. -/
theorem Created.ended {bs bs' : List Block} {new : Block} (hcreated : Created bs new bs') (hbs : Ended bs)
    (hnew : new.part ≠ none) : Ended bs' := by
  cases hcreated with
  | @insert bl br cs b new hfree hstart hcs hinside =>
    by_cases hbr : br = []
    · subst hbr
      refine absurd hfree (hbs b ?_)
      rw [getLast?_concat]
      exact rfl
    · rw [ended_append_cons hbr] at hbs
      intro c hc
      rw [getLast?_append_of_ne_nil _ hbr] at hc
      exact hbs c hc
  | append hcs =>
    intro c hc
    rw [getLast?_concat] at hc
    obtain rfl := some.inj hc
    exact hnew

/-- The partition at a sector is the one in the list that starts there. -/
theorem Table.partsOf_eq_some (ht : Table unit v xs) :
    partsOf v xs x = some h ↔ h ∈ parts (blocks v (0 :: xs)) ∧ h.start = x := by
  rw [mem_parts_blocks, partsOf]
  constructor
  · intro hsome
    split at hsome
    · next hx =>
      obtain rfl := some.inj hsome
      exact ⟨⟨x, hx.1, hx.2, rfl⟩, (ht.sound x hx.1).start⟩
    · cases hsome
  · rintro ⟨⟨y, hy, htype, rfl⟩, hstart⟩
    obtain rfl : y = x := (ht.sound y hy).start.symm.trans hstart
    rw [if_pos ⟨hy, htype⟩]

theorem partsOf_ext {P : Word → Option Header} (ht : Table unit v xs)
    (hP : ∀ x h, P x = some h ↔ h ∈ parts (blocks v (0 :: xs)) ∧ h.start = x) : partsOf v xs = P := by
  funext x
  refine ext fun h => ?_
  rw [ht.partsOf_eq_some, hP]

/-- Deleting a block takes its partition out. -/
theorem Table.partsOf_delete (ht : Table unit v xs) (ht' : Table unit v' xs') (hxs : 0 :: xs = l ++ x :: r)
    (hblocks : blocks v' (0 :: xs') = deleteBlock (blocks v l) (v x).block (blocks v r)) :
    partsOf v' xs' = update (partsOf v xs) x none := by
  have hparts : parts (blocks v' (0 :: xs')) = parts (blocks v l) ++ parts (blocks v r) := by
    rw [hblocks, parts_deleteBlock]
  obtain ⟨hl, hr⟩ := ht.not_mem_around hxs
  have hother : ∀ h, h ∈ parts (blocks v l) ++ parts (blocks v r) ↔
      h ∈ parts (blocks v (0 :: xs)) ∧ h.start ≠ x := by
    intro h
    rw [← parts_append, ← blocks_append, mem_parts_blocks, mem_parts_blocks]
    constructor
    · rintro ⟨y, hy, htype, rfl⟩
      have hmem : y ∈ 0 :: xs := by
        rw [hxs]
        rcases mem_append.mp hy with hy | hy <;> simp [hy]
      refine ⟨⟨y, hmem, htype, rfl⟩, fun hstart => ?_⟩
      obtain rfl : y = x := (ht.sound y hmem).start.symm.trans hstart
      rcases mem_append.mp hy with hy | hy
      · exact hl hy
      · exact hr hy
    · rintro ⟨⟨y, hy, htype, rfl⟩, hstart⟩
      have hne : y ≠ x := fun heq => hstart ((ht.sound y hy).start.trans heq)
      rw [hxs] at hy
      refine ⟨y, ?_, htype, rfl⟩
      rcases mem_append.mp hy with hy | hy
      · exact mem_append_left _ hy
      · exact mem_append_right _ ((mem_cons.mp hy).resolve_left hne)
  refine partsOf_ext ht' fun y h => ?_
  rw [hparts, hother, update_apply]
  split
  · next heq => simp [heq]
  · next hne =>
    rw [ht.partsOf_eq_some]
    refine ⟨fun ⟨hmem, hstart⟩ => ⟨⟨hmem, hstart.trans_ne hne⟩, hstart⟩, fun ⟨⟨hmem, _⟩, hstart⟩ => ⟨hmem, hstart⟩⟩

/-- The partitions start at some of the headers, in their order. -/
theorem starts_sublist {ys : List Word} (hstart : ∀ y ∈ ys, (v y).start = y) :
    ((parts (blocks v ys)).map start).Sublist ys := by
  induction ys with
  | nil => exact List.Sublist.slnil
  | cons y ys ih =>
    have hrest := ih fun z hz => hstart z (mem_cons_of_mem y hz)
    by_cases hfree : (v y).type = apaTypeFree
    · rw [blocks_cons, show parts ((v y).block :: blocks v ys) = parts (blocks v ys) from
        filterMap_cons_none (block_part_none.mpr hfree)]
      exact hrest.cons y
    · rw [blocks_cons, show parts ((v y).block :: blocks v ys) = (v y).body :: parts (blocks v ys) from
        filterMap_cons_some (block_part hfree), map_cons,
        show (v y).body.start = y from hstart y mem_cons_self]
      exact hrest.cons_cons y

/-- Creating a partition enters it. -/
theorem Table.partsOf_create (ht : Table unit v xs) (ht' : Table unit v' xs') (hx : x ∈ 0 :: xs')
    (htype : (v' x).type ≠ apaTypeFree)
    (hcreated : Created (blocks v (0 :: xs)) (v' x).block (blocks v' (0 :: xs'))) :
    partsOf v xs x = none ∧ partsOf v' xs' = update (partsOf v xs) x (some (v' x).body) := by
  obtain ⟨ps, qs, hold, hnew⟩ := hcreated.parts (block_part htype)
  have hstart : (v' x).body.start = x := (ht'.sound x hx).start
  have hfresh : ∀ h ∈ ps ++ qs, h.start ≠ x := by
    have hnodup := (starts_sublist fun y hy => (ht'.sound y hy).start).nodup ht'.ring.nodup
    rw [hnew, map_append, map_cons, hstart, nodup_middle, nodup_cons, ← map_append] at hnodup
    exact fun h hh heq => hnodup.1 (heq ▸ mem_map_of_mem hh)
  have hnone : partsOf v xs x = none := by
    refine eq_none_iff_forall_ne_some.mpr fun h hsome => ?_
    obtain ⟨hmem, heq⟩ := ht.partsOf_eq_some.mp hsome
    exact hfresh h (hold ▸ hmem) heq
  refine ⟨hnone, partsOf_ext ht' fun y h => ?_⟩
  rw [hnew, update_apply]
  split
  · next heq =>
    subst heq
    simp only [mem_append, mem_cons, some.injEq]
    constructor
    · rintro rfl
      exact ⟨.inr (.inl rfl), hstart⟩
    · rintro ⟨hmem | rfl | hmem, hy⟩
      · exact absurd hy (hfresh h (mem_append_left _ hmem))
      · rfl
      · exact absurd hy (hfresh h (mem_append_right _ hmem))
  · next hne =>
    rw [ht.partsOf_eq_some, hold]
    simp only [mem_append, mem_cons]
    constructor
    · rintro ⟨hmem, hy⟩
      exact ⟨hmem.imp id .inr, hy⟩
    · rintro ⟨hmem | rfl | hmem, hy⟩
      · exact ⟨.inl hmem, hy⟩
      · exact absurd (hy.symm.trans hstart) hne
      · exact ⟨.inr hmem, hy⟩

theorem partsOf_change (hx : x ∈ 0 :: xs) (htype : (v' x).type ≠ apaTypeFree) (hother : ∀ w, w ≠ x → v' w = v w) :
    partsOf v' xs = update (partsOf v xs) x (some (v' x).body) := by
  funext y
  rw [update_apply]
  split
  · next heq =>
    rw [heq, partsOf, if_pos ⟨hx, htype⟩]
  · next hne => rw [partsOf, partsOf, hother y hne]

theorem partsOf_eq (hx : x ∈ 0 :: xs) (htype : (v x).type ≠ apaTypeFree) : partsOf v xs x = some (v x).body :=
  if_pos ⟨hx, htype⟩

theorem mem_of_partsOf (h' : partsOf v xs x = some h) :
    x ∈ 0 :: xs ∧ (v x).type ≠ apaTypeFree ∧ (v x).body = h := by
  rw [partsOf] at h'
  split at h'
  · next hx => exact ⟨hx.1, hx.2, some.inj h'⟩
  · cases h'

/-- What of a header a table depends on, but for the length of the list of free space. -/
def Header.frame (h : Header) : Word × Word × Word × Word × Word × BitVec 16 × Mbr :=
  (h.magic, h.next, h.prev, h.start, h.length, h.type, h.mbr)

/-- Changing what a table does not depend on in one of its headers, and writing it. -/
theorem At.rewrite {n : ℕ} {α : Type} {H : Multiset Word} {t : Known Word Header} {f : Unit → ApaProg α}
    {Q : α → Known Word Header → Prop} (h : At unit v xs H t) (hx : x ∈ 0 :: xs) (hheld : x ∈ H)
    (change : Header → Header) (hframe : ∀ h, (change h).frame = h.frame)
    (hempty : (v x).type = apaTypeFree → (change (v x)).nsub = 0)
    (hnext : ∀ v' t, At unit v' xs H t → v' x = change (v x) → (∀ w, w ≠ x → v' w = v w) →
      (∀ w, (v' w).type = (v w).type) → (Ended (blocks v (0 :: xs)) → Ended (blocks v' (0 :: xs))) →
      (f ()).wp (tableRules n unit) Q t) :
    (ApaProg.setHeader x change >>= fun _ => ApaProg.flushAllDirty >>= f).wp (tableRules n unit) Q t := by
  have hsound := h.table.sound x hx
  refine h.draft.change hheld change fun v1 t hv1 hother hd => ?_
  have hframe1 := hframe (v x)
  rw [← hv1] at hframe1
  simp only [frame, Prod.mk.injEq] at hframe1
  obtain ⟨hmagic, hlinks, hprev, hstart, hlength, htype, hmbr⟩ := hframe1
  have htypes : ∀ w, (v1 w).type = (v w).type := by
    intro w
    by_cases hw : w = x
    · rw [hw, htype]
    · rw [hother w hw]
  have ht1 : Table unit v1 xs := by
    refine h.table.replaced hother hlinks hprev hlength (fun _ => ?_) fun heq => heq ▸ ⟨htype, hmbr⟩
    refine ⟨hmagic.trans hsound.magic, hstart.trans hsound.start, hlength ▸ hsound.power, hlength ▸ hsound.aligned,
      hlength ▸ hsound.coarse, fun hfree => ?_⟩
    rw [hv1]
    exact hempty (htype.symm.trans hfree)
  refine hd.flush ht1 (by simp) (fun w hw => .inl hw) fun t ht => hnext v1 t ht hv1 hother htypes fun hended => ?_
  rw [ended_blocks, htypes]
  exact ended_blocks.mp hended

end Maps

end Ps2sdk.Apa
