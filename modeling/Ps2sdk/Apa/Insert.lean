import Ps2sdk.Apa.Walk

/-!
# Creating a partition in free space or at the end of the table

`apaInsertPartition` halves a free block until it has the size of the partition: the upper halves stay behind as
free blocks. Without a free block that is large enough, free blocks fill the space up to a multiple of the size. All
sectors are 32-bit numbers, so the end of the table may be sector 0.
-/

namespace Ps2sdk.Apa

open Lib ApaProg List Nat

variable {n unit : ℕ} {α : Type} {v v' : Word → Header} {xs l r : List Word} {x : Word} {H : Multiset Word}
  {t : Known Word Header}

variable {k : ℕ} {created : Time}

theorem toNat_half {a : Word} (ha : a.toNat = 2 ^ (k + 1)) : (a >>> 1).toNat = 2 ^ k := by
  rw [BitVec.toNat_ushiftRight, ha, shiftRight_one, pow_succ]
  omega

theorem Sound.toNat_middle {h : Header} {half : Word} (hs : Sound unit x h)
    (hlength : h.length.toNat = 2 ^ (k + 1)) (hhalf : half.toNat = 2 ^ k) : (x + half).toNat = x.toNat + 2 ^ k := by
  have hfits := hs.fits
  rw [hlength, pow_succ] at hfits
  rw [BitVec.toNat_add, hhalf, mod_eq_of_lt (by omega)]

/-- A free header of a power of two of sectors at one of its multiples is sound. -/
theorem emptyHeader_aligned {y next prev length : Word} (hlength : length.toNat = 2 ^ k)
    (haligned : 2 ^ k ∣ y.toNat) (hcoarse : unit ∣ 2 ^ k) :
    Sound unit y (emptyHeader y next prev length created) where
  magic := rfl
  start := rfl
  power := ⟨k, hlength⟩
  aligned := by rwa [← hlength] at haligned
  coarse := by rwa [← hlength] at hcoarse
  empty := fun _ => rfl

/-- A free block is split in two halves. -/
theorem Table.halve {z mid half : Word} {r' : List Word} (ht : Table unit v xs)
    (v' : Word → Header) (hxs : 0 :: xs = l ++ x :: r) (hx : x ≠ 0) (hz : r ++ [0] = z :: r')
    (hlength : (v x).length.toNat = 2 ^ (k + 1)) (hcoarse : unit ∣ 2 ^ k) (hhalf : half.toNat = 2 ^ k)
    (hmid : mid.toNat = x.toNat + 2 ^ k) (hother : ∀ w, w ≠ x → w ≠ mid → w ≠ z → v' w = v w)
    (hlow : v' x = { v x with length := half, next := mid })
    (hhigh : v' mid = emptyHeader mid z x half created) (hback : v' z = { v z with prev := mid }) :
    ∃ xs', 0 :: xs' = l ++ x :: [mid] ++ r ∧ Table unit v' xs' ∧ blocks v' l = blocks v l ∧
      blocks v' r = blocks v r := by
  have hsound := ht.sound x (by rw [hxs]; simp)
  have haligned := hsound.aligned
  rw [hlength] at haligned
  have hdvd : 2 ^ k ∣ x.toNat := (pow_dvd_pow 2 (le_succ k)).trans haligned
  obtain ⟨hnext, hprev, hadjacent⟩ := ht.ring.around hxs hz
  have hzero : mid ≠ 0 := by
    rintro rfl
    have : (0 : Word).toNat = 0 := rfl
    omega
  refine @Table.rewrite unit v v' xs l [] [mid] r x z ht r' (by rw [hxs]; simp) hz ?_ (fun _ => ⟨mid, hback⟩)
    (fun _ => by rw [hlow]) ?_ ?_ (by simpa using hzero.symm) (fun heq => absurd heq hx)
  · intro w hw hwz
    refine hother w ?_ ?_ hwz
    · rintro rfl
      rcases mem_append.mp hw with hw | hw
      · exact (ht.not_mem_around hxs).1 hw
      · exact (ht.not_mem_around hxs).2 hw
    · rintro rfl
      rcases mem_append.mp hw with hw | hw
      · have := ht.lt_start hxs hw
        omega
      · have hle := ht.end_le hxs hw
        rw [hlength, pow_succ] at hle
        omega
  · refine isChain_cons_cons.mpr ⟨⟨?_, ?_, fun _ => ?_⟩, isChain_cons_cons.mpr
      ⟨⟨?_, ?_, fun hne => ?_⟩, isChain_singleton z⟩⟩
    · show (v' x).next = mid
      rw [hlow]
    · show (v' mid).prev = x
      rw [hhigh]
      rfl
    · show mid.toNat = x.toNat + (v' x).length.toNat
      rw [hlow, hmid]
      exact congrArg _ hhalf.symm
    · show (v' mid).next = z
      rw [hhigh]
      rfl
    · show (v' z).prev = mid
      rw [hback]
    · show z.toNat = mid.toNat + (v' mid).length.toNat
      have hz := hadjacent hne
      change z.toNat = x.toNat + (v x).length.toNat at hz
      have hhigh' : (v' mid).length.toNat = 2 ^ k := by
        rw [hhigh]
        exact hhalf
      rw [hz, hlength, hhigh', hmid, pow_succ]
      omega
  · intro w hw
    rcases mem_cons.mp hw with rfl | hw
    · rw [hlow]
      exact ⟨hsound.magic, hsound.start, ⟨k, hhalf⟩, by rwa [← hhalf] at hdvd, by rwa [← hhalf] at hcoarse,
        hsound.empty⟩
    · rw [mem_singleton.mp hw, hhigh]
      refine emptyHeader_aligned hhalf ?_ hcoarse
      rw [hmid]
      exact Nat.dvd_add hdvd (dvd_refl _)

/-- The loop of `apaInsertPartition` on a table: behind the block there is new free space. -/
theorem insertLoop_wp {Q : ℤ → Known Word Header → Prop} {size : Word} {j : ℕ} (d turns : ℕ)
    (h : At unit v xs (x ::ₘ H) t) (hxs : 0 :: xs = l ++ x :: r) (hx : x ≠ 0)
    (hsize : size.toNat = 2 ^ j) (hcoarse : unit ∣ 2 ^ j) (hlength : (v x).length.toNat = 2 ^ (j + d))
    (hturns : d < turns) (hroom : H.card + 2 < n)
    (hdone : ∀ v' xs' m t, At unit v' xs' (x ::ₘ H) t → 0 :: xs' = l ++ x :: m ++ r → blocks v' l = blocks v l →
      blocks v' r = blocks v r → (∀ w ∈ m, (v' w).type = apaTypeFree) → (v' x).length = size →
      (v' x).type = (v x).type → Q 0 t) :
    (insertLoop size x turns).wp (tableRules n unit) Q t := by
  induction turns generalizing v xs r d t with
  | zero => omega
  | succ turns ih =>
    have hsound := h.table.sound x (by rw [hxs]; simp)
    refine h.draft.read (by simp) ?_
    cases d with
    | zero =>
      have heq : (v x).length = size := BitVec.eq_of_toNat_eq (hlength.trans hsize.symm)
      rw [if_pos heq]
      exact hdone v xs [] t h (by rw [hxs]; simp) rfl rfl (by simp) heq rfl
    | succ d =>
      have hne : (v x).length ≠ size := by
        intro heq
        rw [heq, hsize] at hlength
        have := (Nat.pow_right_injective (le_refl 2)) hlength
        omega
      rw [if_neg hne]
      obtain ⟨z, r', hz, hnext, hzmem, hzx, hplace⟩ := h.table.successor hxs
      replace hzx := hzx hx
      rw [hnext]
      refine h.got hzmem (by rw [Multiset.card_cons]; omega) fun t ht => ?_
      have hlength' : (v x).length.toNat = 2 ^ ((j + d) + 1) := hlength
      have hhalf := toNat_half hlength'
      have hmid := hsound.toNat_middle hlength' hhalf
      have hcoarse' : unit ∣ 2 ^ (j + d) := hcoarse.trans (pow_dvd_pow 2 (le_add_right j d))
      have hdvd : 2 ^ (j + d) ∣ (x + (v x).length >>> 1).toNat := by
        rw [hmid]
        have haligned := hsound.aligned
        rw [hlength'] at haligned
        exact Nat.dvd_add ((pow_dvd_pow 2 (Nat.le_succ _)).trans haligned) (dvd_refl _)
      have hmidx : x + (v x).length >>> 1 ≠ x := fun heq => by
        rw [heq] at hmid
        omega
      have hmidz : x + (v x).length >>> 1 ≠ z := by
        intro heq
        rw [heq] at hmid
        rcases hplace with ⟨-, rfl⟩ | hplace
        · rw [show (0 : Word).toNat = 0 from rfl] at hmid
          omega
        · rw [hlength', pow_succ] at hplace
          omega
      rw [hsound.start]
      generalize (v x).length >>> 1 = half at *
      dsimp only
      generalize x + half = mid at *
      refine ht.draft.change (by simp) _ fun v1 t hv1x hv1 hd => ?_
      refine hd.removePartition (hcoarse'.trans hdvd) (.inr (by simp only [Multiset.card_cons]; omega))
        fun created v2 t hv2m hv2 hd => ?_
      refine hd.change (by simp) _ fun v3 t hv3x hv3 hd => ?_
      refine hd.change (by simp) _ fun v4 t hv4z hv4 hd => ?_
      have hlow : v4 x = { v x with length := half, next := mid } := by
        rw [hv4 x hzx.symm, hv3x, hv2 x hmidx.symm, hv1x]
      have hhigh : v4 mid = emptyHeader mid z x half created := by
        rw [hv4 mid hmidz, hv3 mid hmidx, hv2m]
      have hback : v4 z = { v z with prev := mid } := by
        rw [hv4z, hv3 z hzx, hv2 z hmidz.symm, hv1 z hzx]
      obtain ⟨xs', hxs', htable, hbl, hbr⟩ := h.table.halve v4 hxs hx hz hlength' hcoarse' hhalf hmid
        (fun w hwx hwm hwz => by rw [hv4 w hwz, hv3 w hwx, hv2 w hwm, hv1 w hwx]) hlow hhigh hback
      refine hd.flush htable ?_ (fun w hw => ?_) fun t ht => ?_
      · exact (Finset.card_le_four (a := z) (b := x) (c := mid) (d := x)).trans (by decide)
      · rw [hxs'] at hw
        rw [hxs]
        simp only [mem_append, mem_cons, not_mem_nil, or_false, Finset.mem_insert,
          Finset.notMem_empty] at hw ⊢
        tauto
      refine ht.freeHead fun t ht => ?_
      refine ht.freeHead fun t ht => ?_
      have hxs'' : 0 :: xs' = l ++ x :: (mid :: r) := by
        rw [hxs']
        simp
      refine ih d ht hxs'' (by rw [hlow]; exact hhalf) (by omega)
        fun v' xs3 m t ht hxs3 hl3 hr3 hm3 hlen3 htype3 => ?_
      obtain ⟨hfree, hrest⟩ := List.cons.inj hr3
      refine hdone v' xs3 (m ++ [mid]) t ht (by rw [hxs3]; simp) (hl3.trans hbl) (hrest.trans hbr) ?_ hlen3
        (htype3.trans (by rw [hlow]))
      intro w hw
      rcases mem_append.mp hw with hw | hw
      · exact hm3 w hw
      · rw [mem_singleton.mp hw]
        have hpart : (v4 mid).block.part = none := Header.block_part_none.mpr (by rw [hhigh]; rfl)
        exact Header.block_part_none.mp ((congrArg Block.part hfree).trans hpart)

theorem Params.header_sound {params : Params} {y next prev length : Word}
    (hlength : length.toNat = 2 ^ k) (haligned : 2 ^ k ∣ y.toNat) (hcoarse : unit ∣ 2 ^ k) :
    Sound unit y (params.header y next prev length created) where
  magic := rfl
  start := rfl
  power := ⟨k, hlength⟩
  aligned := by rwa [← hlength] at haligned
  coarse := by rwa [← hlength] at hcoarse
  empty := fun _ => rfl

/-- `apaInsertPartition` on a table. -/
theorem At.insertPartition {f : ℤ × Option Word → ApaProg α} {Q : α → Known Word Header → Prop} {params : Params}
    {j k : ℕ} (h : At unit v xs H t) (hxs : 0 :: xs = l ++ x :: r) (hfree : (v x).type = apaTypeFree)
    (hsize : params.size.toNat = 2 ^ j) (hcoarse : unit ∣ 2 ^ j) (hlength : (v x).length.toNat = 2 ^ k)
    (hjk : j ≤ k) (hroom : H.card + 2 < n)
    (hnext : ∀ v' xs' m t created next prev, At unit v' xs' (x ::ₘ H) t → 0 :: xs' = l ++ x :: m ++ r →
      blocks v' l = blocks v l → blocks v' r = blocks v r → (∀ w ∈ m, (v' w).type = apaTypeFree) →
      v' x = params.header x next prev params.size created → (f (0, some x)).wp (tableRules n unit) Q t) :
    (apaInsertPartition params x >>= f).wp (tableRules n unit) Q t := by
  have hx := h.table.free_ne_zero hfree
  refine Prog.wp_bind ?_
  refine h.got (by rw [hxs]; simp) (by omega) fun t ht => ?_
  refine Prog.wp_bind ?_
  have hk : k < 32 := (Nat.pow_lt_pow_iff_right Nat.one_lt_two).mp (hlength ▸ (v x).length.isLt)
  refine insertLoop_wp (k - j) sizeTurns ht hxs hx hsize hcoarse (by rw [hlength, Nat.add_sub_cancel' hjk])
    (by rw [sizeTurns]; omega) hroom fun v1 xs1 m t ht hxs1 hl1 hr1 hm1 hlen1 htype1 => ?_
  rw [if_neg (not_not.mpr rfl)]
  have hsound := ht.table.sound x (by rw [hxs1]; simp)
  refine ht.draft.read (by simp) ?_
  refine ht.freeHead fun t ht => ?_
  rw [hsound.start]
  have haligned := hsound.aligned
  rw [hlen1, hsize] at haligned
  refine ht.draft.fillHeader hsound.place (.inr (by omega)) fun created v2 t hv2x hv2 hd => ?_
  have htable : Table unit v2 xs1 := by
    refine ht.table.replaced hv2 (by rw [hv2x]; rfl) (by rw [hv2x]; rfl) (by rw [hv2x]; exact hlen1.symm)
      (fun _ => ?_) fun heq => absurd heq hx
    rw [hv2x]
    exact Params.header_sound hsize haligned hcoarse
  refine hd.flush htable (by simp) (fun w hw => .inl hw) fun t ht => ?_
  have hkept : ∀ ys, x ∉ ys → blocks v2 ys = blocks v1 ys := fun ys hys =>
    blocks_congr fun w hw => by rw [hv2 w fun heq => hys (heq ▸ hw)]
  have haround := htable.not_mem_around (show 0 :: xs1 = l ++ x :: (m ++ r) by rw [hxs1]; simp)
  rw [mem_append, not_or] at haround
  refine hnext v2 xs1 m t created _ _ ht hxs1 ((hkept l haround.1).trans hl1) ((hkept r haround.2.2).trans hr1)
    (fun w hw => ?_) hv2x
  rw [hv2 w fun heq => haround.2.1 (heq ▸ hw)]
  exact hm1 w hw

open BitVec Header

variable {n unit : ℕ} {α : Type} {v v' : Word → Header} {xs l r : List Word} {x p : Word} {H : Multiset Word}
  {t : Known Word Header}

/-- A header is linked in behind the last one. -/
theorem Table.append (ht : Table unit v xs) (v' : Word → Header) (hxs : 0 :: xs = l ++ [p])
    (hother : ∀ w, w ≠ x → w ≠ p → w ≠ 0 → v' w = v w) (hbody : ∀ w, w ≠ x → (v' w).body = (v w).body)
    (hnext : (v' p).next = x) (hlast : (v' 0).prev = x) (hprev : p ≠ 0 → (v' p).prev = (v p).prev)
    (hzero : p ≠ 0 → ∃ q, v' 0 = { v 0 with prev := q }) (hsound : Sound unit x (v' x)) (hxprev : (v' x).prev = p)
    (hxnext : (v' x).next = 0) (hplace : x.toNat = p.toNat + (v p).length.toNat) :
    ∃ xs', 0 :: xs' = (0 :: xs) ++ [x] ∧ Table unit v' xs' ∧ blocks v' (0 :: xs) = blocks v (0 :: xs) := by
  have hpmem : p ∈ 0 :: xs := by rw [hxs]; simp
  have hpos := (ht.sound p hpmem).positive
  have hle : ∀ w ∈ 0 :: xs, w.toNat ≤ p.toNat := by
    intro w hw
    rw [hxs] at hw
    rcases mem_append.mp hw with hw | hw
    · exact (ht.lt_start hxs hw).le
    · rw [mem_singleton.mp hw]
  have hnew : ∀ w ∈ 0 :: xs, w ≠ x := by
    rintro w hw rfl
    have := hle w hw
    omega
  have hlength : (v' p).length = (v p).length :=
    (congrArg Header.length (hbody p (hnew p hpmem)) : (v' p).body.length = (v p).body.length)
  obtain ⟨xs', hxs', htable, -, -⟩ := @Table.rewrite unit v v' xs l [] [x] [] p 0 ht [] (by rw [hxs]; simp) rfl
    (fun w hw hwz => hother w (hnew w (by rw [hxs]; simpa using Or.inl hw)) (by
      rintro rfl
      exact (ht.not_mem_around hxs).1 (by simpa using hw)) hwz)
    (fun hne => hzero hne.symm) (fun hne => hprev hne.symm)
    (isChain_cons_cons.mpr ⟨⟨hnext, hxprev, fun _ => by
      show x.toNat = p.toNat + (v' p).length.toNat
      rw [hlength, hplace]⟩,
      isChain_cons_cons.mpr ⟨⟨hxnext, hlast, fun hne => absurd rfl hne⟩, isChain_singleton 0⟩⟩)
    (fun w hw => by
      rcases mem_cons.mp hw with rfl | hw
      · exact (ht.sound w hpmem).congr (hbody w (hnew w hpmem))
      · rw [mem_singleton.mp hw]
        exact hsound)
    (fun hmem => hnew 0 mem_cons_self (mem_singleton.mp hmem))
    (fun _ => by
      have hfields := congrArg (fun h : Header => (h.type, h.mbr)) (hbody 0 (hnew 0 mem_cons_self))
      simpa only [body, Prod.mk.injEq] using hfields)
  exact ⟨xs', by rw [hxs', hxs]; simp, htable, blocks_congr fun w hw => hbody w (hnew w hw)⟩

/-- Linking in a header that has been written behind the last one. -/
theorem Draft.link {f : Unit → ApaProg α} {Q : α → Known Word Header → Prop} {v1 : Word → Header}
    (ht : Table unit v xs) (hxs : 0 :: xs = l ++ [p])
    (h : Draft v1 (x ::ₘ p ::ₘ 0 ::ₘ H) (insert x ∅) (0 :: xs) t) (hother : ∀ w, w ≠ x → v1 w = v w)
    (hsound : Sound unit x (v1 x)) (hxprev : (v1 x).prev = p) (hxnext : (v1 x).next = 0)
    (hplace : x.toNat = p.toNat + (v p).length.toNat)
    (hnext : ∀ v' xs' t, At unit v' xs' (x ::ₘ p ::ₘ 0 ::ₘ H) t → 0 :: xs' = (0 :: xs) ++ [x] →
      blocks v' (0 :: xs) = blocks v (0 :: xs) → v' x = v1 x → (f ()).wp (tableRules n unit) Q t) :
    (setHeader p (fun header => { header with next := x }) >>= fun _ =>
      setHeader 0 (fun header => { header with prev := x }) >>= fun _ => flushAllDirty >>= f).wp
        (tableRules n unit) Q t := by
  have hpos := (ht.sound p (by rw [hxs]; simp)).positive
  have hxp : x ≠ p := by
    rintro rfl
    omega
  have hx0 : x ≠ 0 := by
    rintro rfl
    have : (0 : Word).toNat = 0 := rfl
    omega
  refine h.change (by simp) _ fun v2 t hv2p hv2 h => ?_
  refine h.change (by simp) _ fun v3 t hv3z hv3 h => ?_
  have hbody2 : ∀ w, (v2 w).body = (v1 w).body := by
    intro w
    by_cases hw : w = p
    · rw [hw, hv2p]
      rfl
    · rw [hv2 w hw]
  have hbody3 : ∀ w, (v3 w).body = (v2 w).body := by
    intro w
    by_cases hw : w = 0
    · rw [hw, hv3z]
      rfl
    · rw [hv3 w hw]
  have hv3x : v3 x = v1 x := by rw [hv3 x hx0, hv2 x hxp]
  have hpnext : (v2 p).next = x := by rw [hv2p]
  obtain ⟨xs', hxs', htable, hblocks⟩ := ht.append v3 hxs
    (fun w hwx hwp hwz => by rw [hv3 w hwz, hv2 w hwp, hother w hwx])
    (fun w hw => by rw [hbody3, hbody2, hother w hw])
    (by
      by_cases hp : p = 0
      · rw [hp] at hpnext ⊢
        rw [hv3z]
        exact hpnext
      · rw [hv3 p hp]
        exact hpnext)
    (by rw [hv3z]) (fun hp => by rw [hv3 p hp, hv2p, hother p hxp.symm])
    (fun hp => ⟨x, by rw [hv3z, hv2 0 (Ne.symm hp), hother 0 hx0.symm]⟩)
    (by rw [hv3x]; exact hsound) (by rw [hv3x]; exact hxprev) (by rw [hv3x]; exact hxnext) hplace
  refine h.flush htable ?_ (fun w hw => ?_) fun t ht => hnext v3 xs' t ht hxs' hblocks hv3x
  · exact (Finset.card_le_three (a := 0) (b := p) (c := x)).trans (by decide)
  · rw [hxs', mem_append, mem_singleton] at hw
    rcases hw with hw | rfl
    · exact .inl hw
    · exact .inr (by simp)

/-- The largest free block that may start at the end of the table. -/
theorem padSize_eq {partEnd tempSize : Word} {m : ℕ} (turns : ℕ) (htemp : tempSize.toNat = 2 ^ m) (hm : 18 ≤ m)
    (hturns : m < 18 + turns) (hdvd : 2 ^ 18 ∣ partEnd.toNat) (hnot : ¬ 2 ^ (m + 1) ∣ partEnd.toNat) :
    ∃ (i : ℕ) (size : Word), padSize partEnd turns tempSize = some size ∧ size.toNat = 2 ^ i ∧ 18 ≤ i ∧ i ≤ m ∧
      2 ^ i ∣ partEnd.toNat ∧ ¬ 2 ^ (i + 1) ∣ partEnd.toNat := by
  induction turns generalizing tempSize m with
  | zero => omega
  | succ turns ih =>
    have hlarge : ¬ tempSize ≤ 0x3FFFF := by
      rw [le_def, htemp]
      have hle : 2 ^ 18 ≤ 2 ^ m := Nat.pow_le_pow_right (by decide) hm
      have : (0x3FFFF : Word).toNat = 0x3FFFF := rfl
      omega
    rw [padSize, if_neg hlarge]
    have hmod : partEnd % tempSize = 0 ↔ 2 ^ m ∣ partEnd.toNat := by
      rw [← toNat_inj, toNat_umod, htemp, dvd_iff_mod_eq_zero]
      exact Iff.rfl
    by_cases hdiv : 2 ^ m ∣ partEnd.toNat
    · rw [if_pos (hmod.mpr hdiv)]
      exact ⟨m, tempSize, rfl, htemp, hm, le_refl m, hdiv, hnot⟩
    · rw [if_neg (mt hmod.mp hdiv)]
      have hm18 : m ≠ 18 := by
        rintro rfl
        exact hdiv hdvd
      obtain ⟨m, rfl⟩ : ∃ m', m = m' + 1 := ⟨m - 1, by omega⟩
      obtain ⟨i, size, hsome, hsize, hi, him, hrest⟩ := ih (toNat_half htemp) (by omega) (by omega) hdiv
      exact ⟨i, size, hsome, hsize, hi, by omega, hrest⟩

/-- Twice the largest power of two that divides a number divides their sum. -/
theorem dvd_add_odd {a i : ℕ} (hdvd : 2 ^ i ∣ a) (hnot : ¬ 2 ^ (i + 1) ∣ a) : 2 ^ (i + 1) ∣ a + 2 ^ i := by
  obtain ⟨c, rfl⟩ := hdvd
  have hodd : c % 2 = 1 := by
    by_contra heven
    refine hnot ?_
    obtain ⟨e, rfl⟩ : 2 ∣ c := by omega
    exact ⟨e, by rw [pow_succ, mul_assoc]⟩
  refine ⟨(c + 1) / 2, ?_⟩
  rw [Nat.pow_succ, Nat.mul_assoc, show 2 * ((c + 1) / 2) = c + 1 by omega, Nat.mul_succ]

theorem add_le_of_dvd {a b c : ℕ} (ha : c ∣ a) (hb : c ∣ b) (hlt : a < b) : a + c ≤ b := by
  obtain ⟨d, rfl⟩ := ha
  obtain ⟨e, rfl⟩ := hb
  have : d < e := Nat.lt_of_mul_lt_mul_left hlt
  calc c * d + c = c * (d + 1) := (Nat.mul_succ c d).symm
    _ ≤ c * e := Nat.mul_le_mul_left c this

theorem umod_eq_zero_iff {partEnd size : Word} {e j : ℕ} (hsize : size.toNat = 2 ^ j)
    (hend : partEnd.toNat = e % 2 ^ 32) : partEnd % size = 0 ↔ 2 ^ j ∣ e := by
  have hj : j < 32 := (Nat.pow_lt_pow_iff_right Nat.one_lt_two).mp (hsize ▸ size.isLt)
  have hdvd : 2 ^ j ∣ 2 ^ 32 := pow_dvd_pow 2 hj.le
  rw [← toNat_inj, toNat_umod, hsize, hend, Nat.mod_mod_of_dvd _ hdvd, Nat.dvd_iff_mod_eq_zero]
  exact Iff.rfl

/-- The loop of `hddAddPartitionHere` on a table: free space is added up to the multiple of the size. -/
theorem padLoop_wp {Q : Word × Word → Known Word Header → Prop} {size partEnd : Word} {i j e target : ℕ}
    (turns : ℕ) (h : At (2 ^ 18) v xs (p ::ₘ 0 ::ₘ H) t) (hxs : 0 :: xs = l ++ [p])
    (hsize : size.toNat = 2 ^ j) (he : p.toNat + (v p).length.toNat = e) (hend : partEnd.toNat = e % 2 ^ 32)
    (hi : 18 ≤ i) (hdvd : 2 ^ i ∣ e) (hturns : j < i + turns) (hpositive : 0 < turns) (htarget : 2 ^ j ∣ target)
    (hle : e ≤ target) (hlt : target < e + 2 ^ j) (hroom : H.card + 2 < n)
    (hdone : ∀ v' xs' ys q partEnd' t, At (2 ^ 18) v' xs' (q ::ₘ 0 ::ₘ H) t → 0 :: xs' = (0 :: xs) ++ ys →
      (∃ l', 0 :: xs' = l' ++ [q]) → blocks v' (0 :: xs) = blocks v (0 :: xs) →
      (∀ b ∈ blocks v' ys, b.part = none) → q.toNat + (v' q).length.toNat = target →
      partEnd'.toNat = target % 2 ^ 32 → Q (q, partEnd') t) :
    (padLoop size turns p partEnd).wp (tableRules n (2 ^ 18)) Q t := by
  induction turns generalizing v xs l p partEnd i e t with
  | zero => omega
  | succ turns ih =>
    rw [padLoop]
    by_cases hdiv : 2 ^ j ∣ e
    · rw [if_pos ((umod_eq_zero_iff hsize hend).mpr hdiv)]
      have heq : e = target := by
        rcases hle.lt_or_eq with hlt' | heq
        · have := add_le_of_dvd hdiv htarget hlt'
          omega
        · exact heq
      exact hdone v xs [] p partEnd t h (append_nil _).symm ⟨l, hxs⟩ rfl (by simp) (he.trans heq)
        (by rw [← heq]; exact hend)
    · rw [if_neg (mt (umod_eq_zero_iff hsize hend).mp hdiv)]
      have hsound := h.table.sound p (by rw [hxs]; simp)
      have hj : j < 32 := (Nat.pow_lt_pow_iff_right Nat.one_lt_two).mp (hsize ▸ size.isLt)
      have hij : i < j := by
        by_contra hle
        exact hdiv ((pow_dvd_pow 2 (by omega)).trans hdvd)
      have hfits := hsound.fits
      rw [he] at hfits
      have hsmall : e < 2 ^ 32 := by
        rcases hfits.lt_or_eq with hlt | heq
        · exact hlt
        · exact absurd (heq ▸ pow_dvd_pow 2 hj.le) hdiv
      rw [mod_eq_of_lt hsmall] at hend
      obtain ⟨m, rfl⟩ : ∃ m, j = m + 1 := ⟨j - 1, by omega⟩
      obtain ⟨k, tempSize, hsome, htemp, hk, hkm, hkdvd, hknot⟩ := padSize_eq sizeTurns (toNat_half hsize)
        (by omega)
        (by rw [sizeTurns]; omega) (by rw [hend]; exact (pow_dvd_pow 2 hi).trans hdvd) (by rw [hend]; exact hdiv)
      rw [hsome]
      rw [hend] at hkdvd hknot
      have hik : i ≤ k := by
        by_contra hlt
        exact hknot ((pow_dvd_pow 2 (by omega)).trans hdvd)
      refine h.draft.read (by simp) ?_
      rw [hsound.start]
      refine h.draft.removePartition (by rw [hend]; exact (pow_dvd_pow 2 hi).trans hdvd)
        (.inr (by simp only [Multiset.card_cons]; omega)) fun created v1 t hv1x hv1 hd => ?_
      have hpne : partEnd ≠ p := by
        rintro rfl
        have := hsound.positive
        omega
      refine hd.link h.table hxs hv1 ?_ (by rw [hv1x]; rfl) (by rw [hv1x]; rfl) (hend.trans he.symm)
        fun v2 xs2 t ht hxs2 hblocks2 hv2x => ?_
      · rw [hv1x]
        exact emptyHeader_aligned htemp (by rw [hend]; exact hkdvd) (pow_dvd_pow 2 hk)
      refine ht.free (by simp) fun t ht => ?_
      rw [Multiset.erase_cons_tail _ hpne, Multiset.erase_cons_head] at ht
      have hlength2 : (v2 partEnd).length = tempSize := by
        rw [hv2x, hv1x]
        rfl
      have hne : e ≠ target := by
        rintro rfl
        exact hdiv htarget
      have hstep : e + 2 ^ k ≤ target :=
        add_le_of_dvd hkdvd ((pow_dvd_pow 2 (by omega)).trans htarget) (by omega)
      refine ih (i := k + 1) (e := e + 2 ^ k) ht (l := 0 :: xs) hxs2 (by rw [hlength2, htemp, hend]) ?_ (by omega)
        (dvd_add_odd hkdvd hknot) (by omega) (by omega) hstep (by omega) ?_
      · rw [toNat_add, hend, htemp]
      · intro v' xs' ys q partEnd' t ht hxs' hlast hblocks hys hq hpart
        rw [hxs2] at hxs' hblocks
        rw [blocks_append, blocks_append] at hblocks
        obtain ⟨hold, hnew⟩ := append_inj' hblocks (by simp [blocks])
        refine hdone v' xs' (partEnd :: ys) q partEnd' t ht (by rw [hxs']; simp) hlast (hold.trans hblocks2) ?_
          hq hpart
        intro b hb
        rw [blocks_cons] at hb
        rcases mem_cons.mp hb with rfl | hb
        · have hpart : (v' partEnd).block = (v2 partEnd).block := (cons.inj hnew).1
          rw [hpart, hv2x, hv1x]
          exact block_part_none.mpr rfl
        · exact hys b hb

/-- The first multiple of the size from the end of the table on. -/
def alignUp (e size : ℕ) : ℕ := if e % size = 0 then e else e + (size - e % size)

theorem alignUp_spec {e size : ℕ} (hpos : 0 < size) :
    size ∣ alignUp e size ∧ e ≤ alignUp e size ∧ alignUp e size < e + size := by
  have hlt := mod_lt e hpos
  rw [alignUp]
  split
  · next hzero => exact ⟨dvd_of_mod_eq_zero hzero, le_refl e, by omega⟩
  · next hne =>
    have hsum : e + (size - e % size) = size * (e / size) + size := by
      have := div_add_mod e size
      omega
    refine ⟨?_, by omega, by omega⟩
    rw [hsum]
    exact Nat.dvd_add (Nat.dvd_mul_right ..) (dvd_refl size)

theorem alignUp_le_of_dvd {e p size : ℕ} (hpos : 0 < size) (hdvd : size ∣ p) (hle : e ≤ p) :
    alignUp e size ≤ p := by
  obtain ⟨hmultiple, -, hlt⟩ := alignUp_spec (e := e) hpos
  by_contra hgt
  have := add_le_of_dvd hdvd hmultiple (not_le.mp hgt)
  omega

/-- The test of `hddAddPartitionHere` whether there is no space behind the table. -/
def Device.refuses (device : Device) (e size : ℕ) : Prop :=
  device.totalLBA.toNat < (alignUp e size + size) % 2 ^ 32 ∨ e = 2 ^ 32

/-- The test on 32-bit numbers. -/
theorem refuses_iff (device : Device) {p length size : Word} {j : ℕ} (hsize : size.toNat = 2 ^ j)
    (hpos : 0 < length.toNat) (hfits : p.toNat + length.toNat ≤ 2 ^ 32) :
    (device.totalLBA < p + length + size + (if (p + length) % size ≠ 0 then size - (p + length) % size else 0) ∨
      p + length < p) ↔ device.refuses (p.toNat + length.toNat) (2 ^ j) := by
  have hend : (p + length).toNat = (p.toNat + length.toNat) % 2 ^ 32 := toNat_add ..
  have hj : j < 32 := (Nat.pow_lt_pow_iff_right Nat.one_lt_two).mp (hsize ▸ size.isLt)
  have hdvd : 2 ^ j ∣ 2 ^ 32 := pow_dvd_pow 2 hj.le
  refine or_congr ?_ ?_
  · rw [lt_def]
    refine iff_of_eq (congrArg _ ?_)
    have hmod : ((p + length) % size).toNat = (p.toNat + length.toNat) % 2 ^ j := by
      rw [toNat_umod, hsize, hend, mod_mod_of_dvd _ hdvd]
    have hzero : (p + length) % size = 0 ↔ (p.toNat + length.toNat) % 2 ^ j = 0 := by
      rw [umod_eq_zero_iff hsize hend, dvd_iff_mod_eq_zero]
    rw [alignUp]
    split
    · next hne =>
      have hlt := Nat.mod_lt (p.toNat + length.toNat) (Nat.two_pow_pos j)
      rw [if_neg (mt hzero.mpr hne), toNat_add, toNat_add, hend, toNat_sub_of_le, hsize, hmod]
      · omega
      · rw [le_def, hmod, hsize]
        exact hlt.le
    · next heq =>
      rw [if_pos (hzero.mp (not_not.mp heq)), toNat_add, toNat_add, hend, hsize]
      have : (0 : Word).toNat = 0 := rfl
      omega
  · rw [lt_def, hend]
    constructor
    · intro hlt
      by_contra hne
      rw [mod_eq_of_lt (by omega)] at hlt
      omega
    · intro heq
      rw [heq]
      omega

end Ps2sdk.Apa
