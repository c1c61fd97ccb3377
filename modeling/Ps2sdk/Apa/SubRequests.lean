import Ps2sdk.Apa.Parts
import Ps2sdk.Apa.Requests
import Ps2sdk.Apa.Subs

/-!
# Removing partitions, adding and deleting sub-partitions

`apaRemove` deletes the sub-partitions of a main partition from the last one on. `ioctl2AddSub` and
`ioctl2DeleteLastSub` work on a slot that agrees with the header of its partition.
-/

namespace Ps2sdk.Apa

open Lib ApaProg Multiset List Function

variable {n : ℕ} {α : Type} {v v' : Word → Header} {xs xs' l r : List Word} {a x y : Word} {H : Multiset Word}
  {t : Known Word Header} {m m' : Header} {P : Word → Option Header}

/-- `apaDelete` takes a partition out of the table. -/
theorem At.take {f : ℤ → ApaProg α} {Q : α → Known Word Header → Prop} (h : At (2 ^ 18) v xs (x ::ₘ H) t)
    (hended : Ended (blocks v (0 :: xs))) (hx : x ∈ 0 :: xs) (hzero : x ≠ 0) (hroom : H.card + 1 < n)
    (hnext : ∀ v' xs' t, At (2 ^ 18) v' xs' H t → Ended (blocks v' (0 :: xs')) →
      partsOf v' xs' = update (partsOf v xs) x none → (f 0).wp (tableRules n (2 ^ 18)) Q t) :
    (apaDelete x >>= f).wp (tableRules n (2 ^ 18)) Q t := by
  obtain ⟨l, r, hxs⟩ := append_of_mem hx
  have hl : l ≠ [] := by
    rintro rfl
    exact hzero (cons.inj hxs).1.symm
  have hsplit : blocks v (0 :: xs) = blocks v l ++ (v x).block :: blocks v r := by
    rw [hxs, blocks_append, blocks_cons]
  rw [hsplit] at hended
  refine h.delete hxs hl (fun hr => ?_) (pow_dvd_pow 2 (by decide)) hroom fun v' xs' t ht hblocks => ?_
  · have hne : blocks v r ≠ [] := fun hnil => hr (map_eq_nil_iff.mp hnil)
    exact ((ended_append_cons hne).mp hended).parts_ne_nil hne
  · refine hnext v' xs' t ht ?_ (h.table.partsOf_delete ht.table hxs hblocks)
    rw [hblocks]
    exact hended.deleteBlock

/-- A sub-partition that is still in the table. -/
theorem Consistent.sub_kept {P' : Word → Option Header} {k : ℕ} (hP : Consistent P) (hm : P a = some m)
    (hmain : m.isSub = false) (hcut : Cut P P' a m m' (k + 1)) (hk : k < m.nsub.toNat) :
    (m.sub k).start ≠ a ∧ (m.sub k).start ≠ 0 ∧ ∃ s, P' (m.sub k).start = some s := by
  have hne := hP.sub_ne hm hmain hk hm hmain
  obtain ⟨s, hs, hsub, -⟩ := hP.listed a m hm hmain k hk
  refine ⟨hne, fun hzero => ?_, s, ?_⟩
  · rw [hzero] at hs
    rw [hP.first s hs] at hsub
    cases hsub
  · rw [hcut.kept _ hne, hs]
    intro i hle hlt heq
    have := hP.sub_inj hm hmain hlt hk heq
    omega

/-- The loop of `apaRemove` deletes the sub-partitions. -/
theorem At.removeSubs {Q : Bool × ℤ → Known Word Header → Prop} (hP : Consistent P) (hm : P a = some m)
    (hmain : m.isSub = false) (hsubs : m'.subs = m.subs) (k : ℕ) (hk : k ≤ m.nsub.toNat)
    (h : At (2 ^ 18) v xs {a} t) (hended : Ended (blocks v (0 :: xs))) (hcut : Cut P (partsOf v xs) a m m' k)
    (hn : 3 ≤ n) (hdone : ∀ v' xs' t, At (2 ^ 18) v' xs' {a} t → Ended (blocks v' (0 :: xs')) →
      Cut P (partsOf v' xs') a m m' 0 → Q (false, 0) t) :
    (Apa.removeSubs a k 0).wp (tableRules n (2 ^ 18)) Q t := by
  induction k generalizing v xs t with
  | zero => exact hdone v xs t h hended hcut
  | succ k ih =>
    obtain ⟨-, -, hbody⟩ := mem_of_partsOf hcut.main
    have hsub : (v a).subs = m.subs := (congrArg Header.subs hbody).trans hsubs
    obtain ⟨hne, hzero, s, hs⟩ := hP.sub_kept hm hmain hcut hk
    obtain ⟨hmem, -⟩ := mem_of_partsOf hs
    rw [Apa.removeSubs]
    refine h.draft.read (Multiset.mem_singleton_self a) ?_
    rw [hsub]
    refine h.got hmem (by rw [card_singleton]; omega) fun t ht => ?_
    refine ht.take hended hmem hzero (by rw [card_singleton]; omega) fun v' xs' t ht' hended' hparts => ?_
    rw [if_neg (not_not.mpr rfl)]
    refine ih (by omega) ht' hended' ?_
    rw [hparts]
    exact hcut.next hk hne

/-- What `apaRemove` leaves of the partitions where it removes the one at a sector: free space goes, a partition
goes with its sub-partitions, and the first one stays without them. -/
inductive Removed (P : Word → Option Header) (a : Word) : ℤ → (Word → Option Header) → Prop
  | free (hfree : P a = none) : Removed P a 0 P
  | first {P' : Word → Option Header} {m : Header} (hm : P a = some m) (hfirst : a = 0)
    (hcut : Cut P P' a m { m with nsub := 0 } 0) : Removed P a (-13) P'
  | part {P' : Word → Option Header} {m : Header} (hm : P a = some m) (hfirst : a ≠ 0)
    (hcut : Cut P P' a m { m with nsub := 0 } 0) : Removed P a 0 (Function.update P' a none)

/-- What is left is consistent. -/
theorem Removed.consistent {P' : Word → Option Header} {rv : ℤ} (hremoved : Removed P a rv P') (hP : Consistent P)
    (hmain : ∀ m, P a = some m → m.isSub = false) : Consistent P' := by
  have hclear : ∀ {P' : Word → Option Header} {m : Header}, P a = some m → Cut P P' a m { m with nsub := 0 } 0 →
      Consistent P' := fun {_ m} hm hcut => hP.cut hm (hmain m hm) hcut (hmain m hm) rfl (Nat.zero_le _) rfl
  cases hremoved with
  | free hfree => exact hP
  | first hm hfirst hcut => exact hclear hm hcut
  | @part P1 m hm hfirst hcut =>
    have hmain' : m.isSub = false := hmain m hm
    exact (hclear hm hcut).delete hcut.main hmain' rfl

variable {Q : ℤ → Known Word Header → Prop}

/-- `apaDelete` of the header that is held last. -/
theorem At.deleteHeld (h : At (2 ^ 18) v xs {a} t)
    (hended : Ended (blocks v (0 :: xs))) (ha : a ∈ 0 :: xs) (hn : 3 ≤ n)
    (hfirst : a = 0 → ∀ t, At (2 ^ 18) v xs 0 t → Q (-13) t)
    (hdone : a ≠ 0 → ∀ v' xs' t, At (2 ^ 18) v' xs' 0 t → Ended (blocks v' (0 :: xs')) →
      partsOf v' xs' = update (partsOf v xs) a none → Q 0 t) :
    (apaDelete a).wp (tableRules n (2 ^ 18)) Q t := by
  by_cases hzero : a = 0
  · unfold apaDelete
    refine h.draft.read (Multiset.mem_singleton_self a) ?_
    rw [if_pos ((h.table.sound a ha).start.trans hzero)]
    refine h.free (Multiset.mem_singleton_self a) fun t ht => ?_
    rw [erase_singleton] at ht
    exact hfirst hzero t ht
  · rw [← Prog.bind_done (apaDelete a)]
    exact At.take (H := 0) h hended ha hzero (by rw [card_zero]; omega) (hdone hzero)

/-- The part of `apaRemove` behind its checks of the name. -/
theorem At.removeFound {id : Id} {fpwd : Password} (h : At (2 ^ 18) v xs 0 t)
    (hended : Ended (blocks v (0 :: xs))) (hP : Consistent (partsOf v xs)) (hn : 3 ≤ n)
    (hfailed : ∀ rv t, At (2 ^ 18) v xs 0 t → Q rv t)
    (hdone : ∀ y, (v y).Named id → ∀ rv v' xs' t, At (2 ^ 18) v' xs' 0 t → Ended (blocks v' (0 :: xs')) →
      Removed (partsOf v xs) y rv (partsOf v' xs') → Q rv t) :
    (Apa.removeFound id fpwd).wp (tableRules n (2 ^ 18)) Q t := by
  have hcard : (0 : Multiset Word).card = 0 := card_zero
  refine h.findPartition (pow_dvd_pow 2 (by decide)) (by omega) id (fun l y r hxs hnamed _ t ht => ?_)
    fun _ t ht => hfailed (-2) t ht
  have hmem : y ∈ 0 :: xs := by rw [hxs]; simp
  refine ht.draft.read (mem_cons_self y 0) ?_
  by_cases hpass : (v y).fpwd = fpwd
  · rw [if_neg (by rw [apaPassCmp, if_pos hpass]; decide)]
    refine ht.rewrite hmem (mem_cons_self y 0) _ (fun _ => rfl) (fun _ => rfl)
      fun v1 t ht1 hy hother htype hended' => ?_
    have hended1 := hended' hended
    refine Prog.wp_bind ?_
    by_cases hfree : (v y).type = apaTypeFree
    · -- free space has no sub-partitions
      have hnsub : (v y).nsub = 0 := (h.table.sound y hmem).empty hfree
      have hsame : v1 = v := by
        funext w
        by_cases hw : w = y
        · rw [hw, hy, ← hnsub]
        · exact hother w hw
      have hnone : partsOf v xs y = none := if_neg fun hpart => hpart.2 hfree
      rw [hnsub]
      rw [hsame] at ht1
      refine ht1.deleteHeld hended hmem hn (fun heq => absurd heq (h.table.free_ne_zero hfree))
        fun _ v' xs' t ht' he hp => hdone y hnamed 0 v' xs' t ht' he ?_
      rw [hp, update_eq_self_iff.mpr hnone.symm]
      exact .free hnone
    · have hm := partsOf_eq hmem hfree
      have hcut : Cut (partsOf v xs) (partsOf v1 xs) y (v y).body { (v y).body with nsub := 0 }
        (v y).nsub.toNat := by
        rw [partsOf_change hmem (by rwa [htype]) hother, hy]
        exact Cut.start ..
      refine At.removeSubs hP hm hnamed.1 (show ({ (v y).body with nsub := 0 } : Header).subs = _ from rfl) _
        (le_refl _) ht1 hended1 hcut hn fun v' xs' t ht' hended' hcut' => ?_
      obtain ⟨hmem', -⟩ := mem_of_partsOf hcut'.main
      dsimp only
      rw [if_pos rfl]
      refine ht'.deleteHeld hended' hmem' hn (fun hzero t ht => ?_) fun hzero v2 xs2 t ht he hp => ?_
      · exact hdone y hnamed (-13) v' xs' t ht hended' (.first hm hzero hcut')
      · refine hdone y hnamed 0 v2 xs2 t ht he ?_
        rw [hp]
        exact .part hm hzero hcut'
  · rw [if_pos (by rw [apaPassCmp, if_neg hpass]; decide)]
    refine ht.freeHead fun t ht => ?_
    exact hfailed (-13) t ht

/-- `apaRemove`. -/
theorem At.remove {slots : List FileSlot} {id : Id} {fpwd : Password}
    (h : At (2 ^ 18) v xs 0 t) (hended : Ended (blocks v (0 :: xs))) (hP : Consistent (partsOf v xs)) (hn : 3 ≤ n)
    (hfailed : ∀ rv t, At (2 ^ 18) v xs 0 t → Q rv t)
    (hdone : slots.any (·.named id) = false → ∀ y, (v y).Named id → ∀ rv v' xs' t, At (2 ^ 18) v' xs' 0 t →
      Ended (blocks v' (0 :: xs')) → Removed (partsOf v xs) y rv (partsOf v' xs') → Q rv t) :
    (apaRemove slots id fpwd).wp (tableRules n (2 ^ 18)) Q t := by
  unfold apaRemove
  cases hbusy : slots.any (·.named id) with
  | true => exact hfailed (-16) t h
  | false =>
    cases isSystem id with
    | true => exact hfailed (-13) t h
    | false => exact h.removeFound hended hP hn hfailed (hdone hbusy)

open BitVec Nat Header Fin

variable {slot : FileSlot} {Q : ℤ × FileSlot → Known Word Header → Prop}

/-- The slot agrees with the header of its partition. -/
structure FileSlot.Agrees (slot : FileSlot) (P : Word → Option Header) (m : Header) : Prop where
  part : P (slot.parts 0).start = some m
  main : m.isSub = false
  id : slot.id = m.id
  type : slot.type = m.type
  nsub : slot.nsub.toNat = m.nsub.toNat
  parts : ∀ i < m.nsub.toNat, slot.parts (Fin.ofNat 65 (i + 1)) = m.sub i

/-- A main partition with another sub-partition in its list. -/
def Header.enter (m : Header) (sub : Sub) : Header :=
  { m with subs := Function.update m.subs (Fin.ofNat 64 m.nsub.toNat) sub, nsub := m.nsub + 1 }

/-- A slot with another sub-partition in its list. -/
def FileSlot.enter (slot : FileSlot) (sub : Sub) : FileSlot :=
  { slot with
    nsub := slot.nsub + 1
    parts := Function.update slot.parts (Fin.ofNat 65 (slot.nsub.toNat + 1)) sub }

/-- The list of a main partition with another entry. -/
theorem Header.enter_spec (hroom : m.nsub.toNat < 64) (sub : Sub) : (m.enter sub).nsub.toNat = m.nsub.toNat + 1 ∧
    (∀ i < m.nsub.toNat, (m.enter sub).sub i = m.sub i) ∧ (m.enter sub).sub m.nsub.toNat = sub := by
  refine ⟨?_, fun i hi => ?_, update_self ..⟩
  · show (m.nsub + 1).toNat = m.nsub.toNat + 1
    rw [toNat_add, show (1 : Word).toNat = 1 from rfl, mod_eq_of_lt (by omega)]
  · refine update_of_ne (fun heq => ?_) ..
    have := congrArg Fin.val heq
    simp only [Fin.ofNat, Fin.val_mk] at this
    rw [mod_eq_of_lt (by omega), mod_eq_of_lt hroom] at this
    omega

/-- The slot still agrees when an entry is made in both. -/
theorem FileSlot.Agrees.enter {P' : Word → Option Header} {sub : Sub} (h : slot.Agrees P m)
    (hroom : m.nsub.toNat < 64) (hpart : P' (slot.parts 0).start = some (m.enter sub)) :
    (slot.enter sub).Agrees P' (m.enter sub) := by
  obtain ⟨hnsub, hsame, hlast⟩ := enter_spec hroom sub
  have hval : ∀ i < 65, (Fin.ofNat 65 i).val = i := fun i hi => mod_eq_of_lt hi
  have hslot := h.nsub
  have hother : ∀ i, i < 65 → i ≠ slot.nsub.toNat + 1 →
      (slot.enter sub).parts (Fin.ofNat 65 i) = slot.parts (Fin.ofNat 65 i) := by
    intro i hi hne
    refine update_of_ne (fun heq => hne ?_) ..
    have := congrArg Fin.val heq
    rwa [hval i hi, hval _ (by omega)] at this
  refine ⟨?_, h.main, h.id, h.type, ?_, fun i hi => ?_⟩
  · rw [show (slot.enter sub).parts 0 = slot.parts 0 from hother 0 (by decide) (by omega)]
    exact hpart
  · rw [hnsub, ← hslot]
    show (slot.nsub + 1).toNat = _
    rw [toNat_add, show (1 : BitVec 16).toNat = 1 from rfl, mod_eq_of_lt (by omega)]
  · by_cases hlt : i < m.nsub.toNat
    · rw [hsame i hlt, hother (i + 1) (by omega) (by omega)]
      exact h.parts i hlt
    · obtain rfl : i = m.nsub.toNat := by omega
      rw [hlast, ← hslot]
      exact update_self ..

/-- The walk of `ioctl2AddSub` comes to where a sub-partition does not fit below the end of the address range. -/
def AddSafe (device : Device) (v : Word → Header) (xs : List Word) (size : Word) : Prop :=
  ¬ Suitable v (0 :: xs) size.toNat →
    ¬ device.refuses ((lastOf xs).toNat + (v (lastOf xs)).length.toNat) size.toNat →
    alignUp ((lastOf xs).toNat + (v (lastOf xs)).length.toNat) size.toNat < 2 ^ 32

/-- What the header of a new sub-partition says of its main partition. -/
theorem subParams_header (slot : FileSlot) (size x next prev length : Word) (created : Time) :
    ((slot.subParams size).header x next prev length created).isSub = true ∧
      ((slot.subParams size).header x next prev length created).main = (slot.parts 0).start ∧
      ((slot.subParams size).header x next prev length created).number = slot.nsub.setWidth 32 + 1 := by
  have hsub : ((slot.subParams size).flags &&& apaFlagSub != 0) = true := by
    show (apaFlagSub &&& apaFlagSub != 0) = true
    decide
  exact ⟨hsub, if_pos hsub, if_pos hsub⟩

/-- Entering a new sub-partition. -/
theorem At.enterSub {sector length : Word}
    (h : At (2 ^ 18) v xs 0 t) (hm : partsOf v xs (slot.parts 0).start = some m) (hn : 0 < n)
    (hdone : ∀ v' t, At (2 ^ 18) v' xs 0 t → (∀ w, (v' w).type = (v w).type) →
      partsOf v' xs = update (partsOf v xs) (slot.parts 0).start (some (m.enter ⟨sector, length⟩)) →
      Q (0, slot.enter ⟨sector, length⟩) t) :
    (Apa.enterSub slot sector length).wp (tableRules n (2 ^ 18)) Q t := by
  obtain ⟨hmem, htype, hbody⟩ := mem_of_partsOf hm
  unfold Apa.enterSub
  generalize (slot.parts 0).start = a at *
  refine h.got hmem (by rw [card_zero]; omega) fun t ht => ?_
  refine ht.rewrite hmem (mem_cons_self a 0) _ (fun _ => rfl) (fun hfree => absurd hfree htype)
    fun v1 t ht1 ha hother htypes _ => ?_
  refine ht1.freeHead fun t ht1 => ?_
  refine hdone v1 t ht1 htypes ?_
  rw [partsOf_change hmem (by rwa [htypes]) hother, ha, ← hbody]
  rfl

/-- `ioctl2AddSub` on a slot that agrees with its partition. -/
theorem At.addSub {device : Device} {arg : Str}
    (h : At (2 ^ 18) v xs 0 t) (hended : Ended (blocks v (0 :: xs))) (hslot : slot.Agrees (partsOf v xs) m)
    (hn : 3 ≤ n)
    (hsafe : ∀ size, fioPartitionSizeLookUp arg = .ok size → size ≤ device.partitionMaxSize →
      AddSafe device v xs size)
    (hfailed : ∀ rv t, At (2 ^ 18) v xs 0 t → Q (rv, slot) t)
    (hdone : m.nsub.toNat < 64 → ∀ v' xs' x new t, At (2 ^ 18) v' xs' 0 t → Ended (blocks v' (0 :: xs')) → x ≠ 0 →
      partsOf v xs x = none → new.isSub = true → new.main = (slot.parts 0).start →
      new.number.toNat = m.nsub.toNat + 1 → partsOf v' xs' = update (update (partsOf v xs) x (some new))
        (slot.parts 0).start (some (m.enter ⟨x, new.length⟩)) → Q (0, slot.enter ⟨x, new.length⟩) t) :
    (ioctl2AddSub device slot arg).wp (tableRules n (2 ^ 18)) Q t := by
  have hcard : (0 : Multiset Word).card = 0 := card_zero
  have hnsub := hslot.nsub
  obtain ⟨-, hpart, hbody⟩ := mem_of_partsOf hslot.part
  unfold ioctl2AddSub
  split
  · exact hfailed (-13) t h
  · split
    · exact hfailed (-27) t h
    · next hroom =>
      cases harg : fioPartitionSizeLookUp arg with
      | error rv => exact hfailed rv t h
      | ok size =>
        dsimp only
        obtain ⟨-, j, hj, hsize⟩ := toNat_size harg
        unfold hddCheckPartitionMax
        by_cases hmax : size ≤ device.partitionMaxSize
        · rw [if_pos hmax, if_neg (by decide)]
          have hsafe := hsafe size harg hmax
          refine h.got mem_cons_self (by omega) fun t ht => ?_
          refine Prog.wp_bind ?_
          refine emptyLoop_wp walkTurns (fun _ => 0) ht (l := []) rfl
            (h.table.length_lt (pow_dvd_pow 2 (by decide)) (l := []) rfl) (by omega)
            fun l y hlast t ht => ?_
          rw [if_neg (not_not.mpr rfl)]
          obtain ⟨l', hl'⟩ := exists_lastOf xs
          obtain rfl : y = lastOf xs := by
            obtain ⟨-, heq⟩ := append_inj' (hlast.symm.trans hl') rfl
            exact (cons.inj heq).1
          rw [AddSafe, hsize] at hsafe
          refine ht.addPartitionHere hlast (ended_blocks.mp hended)
            (show (slot.subParams size).size.toNat = 2 ^ j from hsize) hj hsafe (by omega)
            (fun v1 xs1 x t ht1 hcreated hx hzero hvx _ => ?_) fun _ _ t ht => hfailed (-28) t ht
          obtain ⟨next, prev, created, hvx⟩ := hvx
          have htype : (v1 x).type ≠ apaTypeFree := by
            rw [hvx, show ((slot.subParams size).header x next prev (slot.subParams size).size created).type =
              slot.type from rfl, hslot.type, ← hbody]
            exact hpart
          obtain ⟨hnone, hparts⟩ := h.table.partsOf_create ht1.table hx htype hcreated
          have hax : (slot.parts 0).start ≠ x := by
            intro heq
            have := hslot.part
            rw [heq, hnone] at this
            cases this
          refine ht1.draft.read (mem_cons_self x 0) ?_
          refine ht1.freeHead fun t ht1 => ?_
          rw [(ht1.table.sound x hx).start]
          refine ht1.enterSub (m := m) ?_ (by omega) fun v2 t ht2 htypes hparts2 =>
            hdone (by omega) v2 xs1 x (v1 x).body t ht2 ?_ hzero hnone ?_ ?_ ?_ ?_
          · rw [hparts, update_of_ne hax, hslot.part]
          · rw [ended_blocks, htypes, ← ended_blocks]
            refine hcreated.ended hended fun hnone' => htype (block_part_none.mp hnone')
          · rw [hvx]
            exact (subParams_header ..).1
          · rw [hvx]
            exact (subParams_header ..).2.1
          · rw [hvx, ← hnsub, show ((slot.subParams size).header x next prev (slot.subParams size).size
              created).body.number = _ from (subParams_header ..).2.2]
            rw [toNat_add, toNat_setWidth, show (1 : Word).toNat = 1 from rfl]
            omega
          · rw [hparts2, hparts]
            rfl
        · rw [if_neg hmax, if_pos (by decide)]
          exact hfailed (-22) t h

/-- A main partition without the last of its sub-partitions. -/
def Header.dropSub (m : Header) : Header := { m with nsub := m.nsub - 1 }

/-- A slot without the last of the sub-partitions. -/
def FileSlot.dropSub (slot : FileSlot) : FileSlot := { slot with nsub := slot.nsub - 1 }

/-- The slot still agrees when the last sub-partition is taken out of both. -/
theorem FileSlot.Agrees.dropSub {P' : Word → Option Header} {k : ℕ} (h : slot.Agrees P m)
    (hk : m.nsub.toNat = k + 1) (hpart : P' (slot.parts 0).start = some m.dropSub) :
    m.dropSub.nsub.toNat = k ∧ slot.dropSub.Agrees P' m.dropSub := by
  have hslot := h.nsub
  have hnsub : m.dropSub.nsub.toNat = k := by
    show (m.nsub - 1).toNat = k
    rw [toNat_sub, show (1 : Word).toNat = 1 from rfl]
    omega
  refine ⟨hnsub, hpart, h.main, h.id, h.type, ?_, fun i hi => h.parts i (by omega)⟩
  rw [hnsub]
  show (slot.nsub - 1).toNat = k
  rw [toNat_sub, show (1 : BitVec 16).toNat = 1 from rfl]
  omega

/-- `ioctl2DeleteLastSub` on a slot that agrees with its partition. -/
theorem At.deleteLastSub (h : At (2 ^ 18) v xs 0 t)
    (hended : Ended (blocks v (0 :: xs))) (hP : Consistent (partsOf v xs)) (hslot : slot.Agrees (partsOf v xs) m)
    (hn : 3 ≤ n) (hfailed : ∀ rv t, At (2 ^ 18) v xs 0 t → Q (rv, slot) t)
    (hdone : ∀ k v' xs' t, m.nsub.toNat = k + 1 → At (2 ^ 18) v' xs' 0 t → Ended (blocks v' (0 :: xs')) →
      Cut (partsOf v xs) (partsOf v' xs') (slot.parts 0).start m m.dropSub k → Q (0, slot.dropSub) t) :
    (ioctl2DeleteLastSub slot).wp (tableRules n (2 ^ 18)) Q t := by
  have hcard : (0 : Multiset Word).card = 0 := card_zero
  have hm := hslot.part
  unfold ioctl2DeleteLastSub
  split
  · exact hfailed (-13) t h
  · split
    · exact hfailed (-2) t h
    · next hzero =>
      obtain ⟨k, hk⟩ : ∃ k, m.nsub.toNat = k + 1 := by
        refine exists_eq_succ_of_ne_zero fun heq => hzero (eq_of_toNat_eq ?_)
        rw [hslot.nsub, heq]
        rfl
      obtain ⟨hmem, htype, hbody⟩ := mem_of_partsOf hm
      generalize ha : (slot.parts 0).start = a at *
      have hnsub : (v a).nsub = m.nsub := by rw [← hbody]; rfl
      have hsub : ((v a).subs (Fin.ofNat 64 ((v a).nsub - 1).toNat)).start = (m.sub k).start := by
        have hsubs : (v a).subs = m.subs := by rw [← hbody]; rfl
        rw [hnsub, hsubs, sub, toNat_sub, show (1 : Word).toNat = 1 from rfl,
          show (2 ^ 32 - 1 + m.nsub.toNat) % 2 ^ 32 = k by omega]
      obtain ⟨s, hs, hissub, -⟩ := hP.listed a m hm hslot.main k (by omega)
      obtain ⟨hsmem, -⟩ := mem_of_partsOf hs
      have hsa : (m.sub k).start ≠ a := hP.sub_ne hm hslot.main (by omega) hm hslot.main
      have hs0 : (m.sub k).start ≠ 0 := by
        intro heq
        rw [heq] at hs
        rw [hP.first s hs] at hissub
        cases hissub
      refine h.got hmem (by omega) fun t ht => ?_
      refine ht.draft.read (mem_cons_self a 0) ?_
      rw [hsub]
      refine ht.got hsmem (by rw [card_cons]; omega) fun t ht => ?_
      refine ht.rewrite hmem (by simp) _ (fun _ => rfl) (fun hfree => absurd hfree htype)
        fun v1 t ht1 ha1 hother htypes hended1 => ?_
      have hcut : Cut (partsOf v xs) (partsOf v1 xs) a m m.dropSub (k + 1) := by
        rw [partsOf_change hmem (by rwa [htypes]) hother, ha1, ← hk, ← hbody]
        exact Cut.start ..
      refine ht1.take (hended1 hended) hsmem hs0 (by rw [card_cons]; omega) fun v2 xs2 t ht2 hended2 hparts => ?_
      refine ht2.freeHead fun t ht2 => ?_
      refine hdone k v2 xs2 t hk ht2 hended2 ?_
      rw [hparts]
      exact hcut.next (by omega) hsa

end Ps2sdk.Apa
