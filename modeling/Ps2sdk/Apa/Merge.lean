import Ps2sdk.Apa.Walk

/-!
# Merging with free space before and behind

`apaDeleteFixPrev` and `apaDeleteFixNext` on a table do to its blocks what `Place.fixPrev` and `Place.fixNext` say.
Each merges in one flush, and the headers form a table again after it.
-/

namespace Ps2sdk.Apa

open Lib ApaProg List Nat

variable {n unit : ℕ} {α : Type} {v : Word → Header} {xs l r : List Word} {x z : Word} {H : Multiset Word}
  {t : Known Word Header}

theorem joined_iff {start length : Word} (hlength : length ≠ 0) :
    (start % length ≠ 0 ∨ length &&& (length - 1) ≠ 0) ↔ ¬ Joined start.toNat length.toNat := by
  have hpositive : 0 < length.toNat := Nat.pos_of_ne_zero fun hzero => hlength (BitVec.eq_of_toNat_eq hzero)
  have hpred : (length - 1).toNat = length.toNat - 1 := by
    rw [BitVec.toNat_sub_of_le (by rw [BitVec.le_def]; exact hpositive)]
    rfl
  rw [Joined, not_and_or, ← BitVec.toNat_umod, ← hpred, ← BitVec.toNat_and]
  exact or_congr (not_congr BitVec.toNat_eq) (not_congr BitVec.toNat_eq)

theorem isNone_block {h : Header} : h.block.part.isNone = true ↔ h.type = apaTypeFree := by
  rw [Option.isNone_iff_eq_none, Header.block_part_none]

/-- The loop of `apaDeleteFixPrev` finds the space that is joined. -/
theorem fixPrevLoop_wp {Q : ℤ × Option (Word × Word) → Known Word Header → Prop} (turns : ℕ) {length : Word}
    (h : At unit v xs (x ::ₘ H) t) (hxs : 0 :: xs = l ++ x :: r) (hturns : l.length < turns)
    (hroom : H.card + 1 < n) (hend : x.toNat + length.toNat ≤ 2 ^ 32)
    (hdone : ∀ l' y m length', l ++ [x] = l' ++ y :: m → y.toNat + length'.toNat = x.toNat + length.toNat →
      absorbPrev (blocks v l).reverse x.toNat length.toNat = ((blocks v l').reverse, y.toNat, length'.toNat) →
      (m = [] → length' = length) → (m ≠ [] → (v y).type = apaTypeFree ∧ Joined y.toNat length'.toNat) →
      ∀ t, At unit v xs (y ::ₘ H) t → Q (0, some (y, length')) t) :
    (fixPrevLoop turns x length).wp (tableRules n unit) Q t := by
  induction turns generalizing x l r t length with
  | zero => omega
  | succ turns ih =>
    have hstart := (h.table.sound x (by rw [hxs]; simp)).start
    refine h.draft.read (Multiset.mem_cons_self x H) ?_
    rcases eq_nil_or_concat' l with rfl | ⟨l, p, rfl⟩
    · obtain ⟨rfl, -⟩ := cons.inj hxs
      rw [if_pos hstart]
      exact hdone [] 0 [] length rfl rfl rfl (fun _ => rfl) (fun hne => absurd rfl hne) t h
    · have hxs' : 0 :: xs = l ++ p :: x :: r := hxs.trans (append_cons ..).symm
      obtain ⟨-, hprev, hadjacent⟩ := h.table.next_eq hxs'
      have hp : p ∈ 0 :: xs := by rw [hxs']; simp
      have hsound := h.table.sound p hp
      have hpx : p ≠ x := by
        rintro rfl
        have := hsound.positive
        omega
      rw [if_neg (fun hzero => h.table.ne_zero hxs (by simp) (hstart.symm.trans hzero)), hprev]
      refine h.got hp (by rw [Multiset.card_cons]; exact hroom) fun t ht => ?_
      refine ht.draft.read (Multiset.mem_cons_self p _) ?_
      have hstop : ∀ b : Block, absorbPrev (b :: (blocks v l).reverse) x.toNat length.toNat =
            (b :: (blocks v l).reverse, x.toNat, length.toNat) → b = (v p).block →
          (ApaProg.free p >>= fun _ => pure (0, some (x, length))).wp (tableRules n unit) Q t := by
        rintro b habsorb rfl
        refine ht.freeHead fun t ht => ?_
        refine hdone (l ++ [p]) x [] length rfl rfl ?_ (fun _ => rfl) (fun hne => absurd rfl hne) t ht
        rw [blocks_append, reverse_append]
        exact habsorb
      by_cases hfree : (v p).type = apaTypeFree
      · have hpositive : 0 < p.toNat :=
          Nat.pos_of_ne_zero fun hzero => h.table.free_ne_zero hfree (BitVec.eq_of_toNat_eq hzero)
        have hsum : ((v p).length + length).toNat = (v p).length.toNat + length.toNat := by
          rw [BitVec.toNat_add]
          exact Nat.mod_eq_of_lt (by omega)
        have hne : (v p).length + length ≠ 0 := by
          intro hzero
          have := congrArg BitVec.toNat hzero
          have := hsound.positive
          rw [hsum] at *
          simp at *
          omega
        rw [if_neg (not_not.mpr hfree), if_neg hne]
        have hblock : (v p).block = .empty p.toNat (v p).length.toNat :=
          by rw [Header.block_free hfree, hsound.start]
        by_cases hjoined : Joined p.toNat ((v p).length.toNat + length.toNat)
        · rw [if_neg (by rw [joined_iff hne, hsound.start, hsum, not_not]; exact hjoined)]
          refine ht.free (by simp) fun t ht => ?_
          rw [Multiset.erase_cons_tail _ hpx, Multiset.erase_cons_head] at ht
          refine ih ht hxs' (by rw [length_append, length_singleton] at hturns; omega) (by omega) ?_
          intro l' y m length' hl' hend' habsorb hsame hjoin t ht
          refine hdone l' y (m ++ [x]) length' (by rw [hl']; simp) (by omega) ?_ (fun hnil => by simp at hnil)
            (fun _ => ?_) t ht
          · rw [blocks_append, reverse_append]
            show absorbPrev ((v p).block :: (blocks v l).reverse) _ _ = _
            rw [hblock, absorbPrev, if_pos ⟨rfl, hjoined⟩]
            rw [hsum] at habsorb
            exact habsorb
          · cases m with
            | nil =>
              obtain ⟨-, hy⟩ := append_inj' hl' rfl
              obtain rfl := singleton_inj.mp hy
              rw [hsame rfl, hsum]
              exact ⟨hfree, hjoined⟩
            | cons w m => exact hjoin (cons_ne_nil w m)
        · rw [if_pos (by rw [joined_iff hne, hsound.start, hsum]; exact hjoined)]
          refine hstop _ ?_ rfl
          rw [hblock, absorbPrev, if_neg fun hboth => hjoined hboth.2]
      · rw [if_pos hfree]
        refine hstop _ ?_ rfl
        rw [absorbPrev, if_neg fun hboth => hfree (isNone_block.mp hboth.1)]

theorem Sound.joined {h : Header} {length : Word} (hsound : Sound unit x h) (hfree : h.type = apaTypeFree)
    (hpositive : 0 < length.toNat) (hjoined : Joined x.toNat length.toNat) (hcoarse : unit ∣ length.toNat)
    (next : Word) : Sound unit x { h with length := length, next := next } where
  magic := hsound.magic
  start := hsound.start
  power := (and_sub_one_eq_zero_iff_isPowerOfTwo hpositive.ne').mp hjoined.2
  aligned := dvd_of_mod_eq_zero hjoined.1
  coarse := hcoarse
  empty _ := hsound.empty hfree

theorem card_two_le (x y : Word) : (insert x (insert y ∅) : Finset Word).card ≤ 126 := by
  have hone := Finset.card_insert_le y (∅ : Finset Word)
  have htwo := Finset.card_insert_le x (insert y ∅ : Finset Word)
  rw [Finset.card_empty] at hone
  omega

/-- `apaDeleteFixPrev` on a table. -/
theorem At.deleteFixPrev {f : ℤ × Option Word → ApaProg α} {Q : α → Known Word Header → Prop}
    (h : At unit v xs (x ::ₘ H) t) (hxs : 0 :: xs = l ++ x :: z :: r) (hunit : 2 ^ 13 ∣ unit)
    (hroom : H.card + 1 < n) (hnext : ∀ v' xs' l' y t, At unit v' xs' (y ::ₘ H) t → 0 :: xs' = l' ++ y :: z :: r →
      Place.fixPrev ⟨(blocks v l).reverse, (v x).block, blocks v (z :: r)⟩ =
        ⟨(blocks v' l').reverse, (v' y).block, blocks v' (z :: r)⟩ → (f (0, some y)).wp (tableRules n unit) Q t) :
    (apaDeleteFixPrev x >>= f).wp (tableRules n unit) Q t := by
  have hx := h.table.sound x (by rw [hxs]; simp)
  obtain ⟨hxnext, -, hzend⟩ := h.table.next_eq hxs
  refine Prog.wp_bind ?_
  refine h.draft.read (Multiset.mem_cons_self x H) ?_
  refine Prog.wp_bind ?_
  refine fixPrevLoop_wp walkTurns h hxs ?_ hroom hx.fits ?_
  · have := h.table.length_lt hunit (l := []) rfl
    have hlength := congrArg length hxs
    simp only [length_cons, length_append] at hlength
    omega
  intro l' y m length' hl hend habsorb hsame hjoin t ht
  have hxs' : 0 :: xs = l' ++ y :: m ++ z :: r := by
    rw [hxs, ← singleton_append, ← append_assoc, hl]
  dsimp only
  have hplace : Place.fixPrev ⟨(blocks v l).reverse, (v x).block, blocks v (z :: r)⟩ =
      ⟨(blocks v l').reverse, if length' = (v x).length then (v x).block else .empty y.toNat length'.toNat,
        blocks v (z :: r)⟩ := by
    unfold Place.fixPrev
    rw [show (v x).block.start = x.toNat from congrArg BitVec.toNat hx.start,
      show (v x).block.length = (v x).length.toNat from rfl, habsorb]
    simp only [← BitVec.toNat_eq]
  by_cases hlen : length' = (v x).length
  · rw [if_neg (not_not.mpr hlen)]
    have hm : m = [] := by
      rcases eq_nil_or_concat' m with rfl | ⟨m, w, rfl⟩
      · rfl
      · have hlast := (append_inj' (show l ++ [x] = (l' ++ y :: m) ++ [w] by rw [hl]; simp) rfl).2
        obtain rfl := singleton_inj.mp hlast
        have hlt := h.table.start_lt (x := y) (l := l') (r := m ++ [x] ++ z :: r) (by rw [hxs']; simp) (y := x)
          (by simp)
        rw [hlen] at hend
        omega
    subst hm
    obtain ⟨rfl, hy⟩ := append_inj' hl rfl
    obtain rfl := singleton_inj.mp hy
    refine hnext v xs l x t ht hxs ?_
    rw [hplace, if_pos hlen]
  · rw [if_pos hlen, hxnext]
    obtain ⟨hfree, hjoined⟩ := hjoin fun hnil => hlen (hsame hnil)
    have hz : z ∈ 0 :: xs := by rw [hxs]; simp
    have hy := h.table.sound y (by rw [hxs']; simp)
    have hyz : y.toNat < z.toNat := h.table.start_lt (l := l') (r := m ++ z :: r) (by rw [hxs']; simp) (by simp)
    have hne : y ≠ z := fun heq => by rw [heq] at hyz; omega
    refine ht.got hz (by rw [Multiset.card_cons]; exact hroom) fun t ht => ?_
    refine ht.draft.read (by simp) ?_
    refine ht.draft.change (by simp) _ fun v1 t hv1y hv1 ht => ?_
    refine ht.change (by simp) _ fun v' t hvz hv2 ht => ?_
    have hvy : v' y = { v y with length := length', next := (v y).start + length' } := (hv2 y hne).trans hv1y
    rw [hv1 z hne.symm] at hvz
    have hnextz : (v y).start + length' = z := by
      refine BitVec.eq_of_toNat_eq ?_
      rw [hy.start, BitVec.toNat_add, mod_eq_of_lt (by omega)]
      omega
    obtain ⟨xs', hxs'', htable, hleft, hright⟩ := @Table.rewrite unit v v' xs l' m [] (z :: r) y z h.table
      (r ++ [0]) hxs' rfl
      (fun w hw hwz => by rw [hv2 w hwz, hv1 w (h.table.ne_around hxs' w hw)])
      (fun _ => ⟨_, hvz⟩) (fun _ => by rw [hvy])
      (by
        refine isChain_cons_cons.mpr ⟨⟨?_, ?_, fun _ => ?_⟩, isChain_singleton z⟩
        · show (v' y).next = z
          rw [hvy, ← hnextz]
        · show (v' z).prev = y
          rw [hvz]
          exact hy.start
        · show z.toNat = y.toNat + (v' y).length.toNat
          rw [hvy]
          exact hzend.trans hend.symm)
      (fun w hw => by
        rw [mem_singleton.mp hw, hvy]
        refine hy.joined hfree (by omega) hjoined ?_ _
        refine (Nat.dvd_add_right hy.place).mp ?_
        rw [hend, ← hzend]
        exact (h.table.sound z hz).place)
      not_mem_nil (fun hzero => absurd hzero (h.table.free_ne_zero hfree))
    refine ht.flush htable (card_two_le z y) (fun w hw => .inl ?_) fun t ht => ?_
    · rw [hxs''] at hw
      rw [hxs']
      simp only [mem_append, mem_cons] at hw ⊢
      tauto
    refine ht.freeHead fun t ht => ?_
    refine hnext v' xs' l' y t ht (by rw [hxs'']; simp) ?_
    rw [hplace, if_neg hlen, hleft, hright, Header.block_free (show (v' y).type = apaTypeFree by
      rw [hvy]; exact hfree), hvy, hy.start]

/-- The loop of `apaDeleteFixNext` finds the space that is joined. -/
theorem fixNextLoop_wp {Q : ℤ × Option (Word × Word) → Known Word Header → Prop} (turns : ℕ) {y length : Word}
    {r' : List Word} (h : At unit v xs (x ::ₘ H) t) (hx : x ≠ 0) (hxs : 0 :: xs = l ++ r) (hl : l ≠ [])
    (hy : r ++ [0] = y :: r') (hturns : r.length < turns) (hroom : H.card + 1 < n)
    (hend : r ≠ [] → x.toNat + length.toNat = y.toNat) (hcoarse : unit ∣ length.toNat)
    (hdone : ∀ m r₁ r₁' y₁ length₁, r = m ++ r₁ → r₁ ++ [0] = y₁ :: r₁' →
      (r₁ ≠ [] → x.toNat + length₁.toNat = y₁.toNat) → unit ∣ length₁.toNat → length.toNat ≤ length₁.toNat →
      absorbNext x.toNat (blocks v r) length.toNat = (blocks v r₁, length₁.toNat) →
      (m = [] ∧ length₁ = length ∨ m ≠ [] ∧ length.toNat < length₁.toNat ∧ Joined x.toNat length₁.toNat) →
      ∀ t, At unit v xs (x ::ₘ H) t → Q (0, some (y₁, length₁)) t) :
    (fixNextLoop x x turns y length).wp (tableRules n unit) Q t := by
  induction turns generalizing l r y r' t length with
  | zero => omega
  | succ turns ih =>
    unfold fixNextLoop
    cases r with
    | nil =>
      obtain ⟨rfl, -⟩ := cons.inj hy
      rw [if_pos rfl]
      exact hdone [] [] r' 0 length rfl hy hend hcoarse (le_refl _) rfl (.inl ⟨rfl, rfl⟩) t h
    | cons b r =>
      obtain ⟨rfl, rfl⟩ := cons.inj hy
      have hb : b ∈ 0 :: xs := by rw [hxs]; simp
      have hsound := h.table.sound b hb
      have hbend := hend (cons_ne_nil b r)
      have hfits := hsound.fits
      have hpositive := hsound.positive
      have hxpositive : 0 < x.toNat := Nat.pos_of_ne_zero fun hzero => hx (BitVec.eq_of_toNat_eq hzero)
      rw [if_neg (h.table.ne_zero hxs hl)]
      refine h.got hb (by rw [Multiset.card_cons]; exact hroom) fun t ht => ?_
      refine ht.draft.read (Multiset.mem_cons_self b _) ?_
      have hstop : absorbNext x.toNat ((v b).block :: blocks v r) length.toNat =
            ((v b).block :: blocks v r, length.toNat) →
          (ApaProg.free b >>= fun _ => pure (0, some (b, length))).wp (tableRules n unit) Q t := by
        intro habsorb
        refine ht.freeHead fun t ht => ?_
        exact hdone [] (b :: r) (r ++ [0]) b length rfl rfl hend hcoarse (le_refl _) habsorb (.inl ⟨rfl, rfl⟩) t ht
      have hsum : ((v b).length + length).toNat = (v b).length.toNat + length.toNat := by
        rw [BitVec.toNat_add]
        exact mod_eq_of_lt (by omega)
      have hne : (v b).length + length ≠ 0 := fun hzero => by
        have := congrArg BitVec.toNat hzero
        rw [hsum] at this
        simp at this
        omega
      by_cases hfree : (v b).type = apaTypeFree
      · rw [if_neg (not_not.mpr hfree), if_neg hne, BitVec.and_comm]
        by_cases hjoined : Joined x.toNat ((v b).length.toNat + length.toNat)
        · rw [if_neg (by rw [joined_iff hne, hsum, not_not]; exact hjoined)]
          refine ht.freeHead fun t ht => ?_
          obtain ⟨y, r'', hnext, hbnext, -, -, hadjacent⟩ := h.table.successor hxs
          rw [hbnext]
          refine ih ht (hxs.trans (append_cons ..)) (by simp) hnext
            (by rw [length_cons] at hturns; omega) (fun hr => ?_)
              (by rw [hsum]; exact Nat.dvd_add hsound.coarse hcoarse)
            ?_
          · have hadj := hadjacent.resolve_left fun hlast => hr hlast.1
            rw [hsum]
            omega
          · intro m r₁ r₁' y₁ length₁ hr hy₁ hend₁ hcoarse₁ hle habsorb hjoin t ht
            rw [hsum] at hle habsorb
            refine hdone (b :: m) r₁ r₁' y₁ length₁ (by rw [hr]; rfl) hy₁ hend₁ hcoarse₁ (by omega) ?_
              (.inr ⟨cons_ne_nil b m, by omega, ?_⟩) t ht
            · show absorbNext x.toNat ((v b).block :: blocks v r) length.toNat = _
              rw [absorbNext, if_pos ⟨isNone_block.mpr hfree, hjoined⟩]
              exact habsorb
            · rcases hjoin with ⟨-, heq⟩ | ⟨-, -, hjoin⟩
              · rw [heq, hsum]
                exact hjoined
              · exact hjoin
        · rw [if_pos (by rw [joined_iff hne, hsum]; exact hjoined)]
          refine hstop ?_
          rw [absorbNext, if_neg fun hboth => hjoined hboth.2]
      · rw [if_pos hfree]
        refine hstop ?_
        rw [absorbNext, if_neg fun hboth => hfree (isNone_block.mp hboth.1)]

theorem emptyHeader_sound {start next prev length : Word} {created : Time} (hpositive : 0 < length.toNat)
    (hjoined : Joined start.toNat length.toNat) (hcoarse : unit ∣ length.toNat) :
    Sound unit start (emptyHeader start next prev length created) where
  magic := rfl
  start := rfl
  power := (and_sub_one_eq_zero_iff_isPowerOfTwo hpositive.ne').mp hjoined.2
  aligned := dvd_of_mod_eq_zero hjoined.1
  coarse := hcoarse
  empty _ := rfl

/-- `apaDeleteFixNext` on a table. -/
theorem At.deleteFixNext {f : ℤ × Option Word → ApaProg α} {Q : α → Known Word Header → Prop}
    (h : At unit v xs (x ::ₘ H) t) (hxs : 0 :: xs = l ++ x :: r) (hl : l ≠ []) (hunit : 2 ^ 13 ∣ unit)
    (hroom : H.card + 1 < n) (hnext : ∀ v' xs' r' t, At unit v' xs' (x ::ₘ H) t → 0 :: xs' = l ++ x :: r' →
      Place.fixNext ⟨(blocks v l).reverse, (v x).block, blocks v r⟩ =
        ⟨(blocks v' l).reverse, (v' x).block, blocks v' r'⟩ → (f (0, some x)).wp (tableRules n unit) Q t) :
    (apaDeleteFixNext x >>= f).wp (tableRules n unit) Q t := by
  have hx := h.table.sound x (by rw [hxs]; simp)
  have hxzero := h.table.ne_zero hxs hl
  obtain ⟨y, r', hy, hxnext, -, -, hadjacent⟩ := h.table.successor hxs
  refine Prog.wp_bind ?_
  refine h.draft.read (Multiset.mem_cons_self x H) ?_
  refine Prog.wp_bind ?_
  rw [hx.start, hxnext]
  refine fixNextLoop_wp walkTurns h hxzero (hxs.trans (append_cons ..)) (by simp)
    hy (h.table.length_lt hunit hxs) hroom (fun hr => ?_) hx.coarse ?_
  · exact (hadjacent.resolve_left fun hlast => hr hlast.1).symm
  intro m r₁ r₁' y₁ length₁ hr hy₁ hend hcoarse hle habsorb hjoin t ht
  have hxs' : 0 :: xs = l ++ x :: m ++ r₁ := by rw [hxs, hr]; simp
  dsimp only
  have hplace : Place.fixNext ⟨(blocks v l).reverse, (v x).block, blocks v r⟩ =
      ⟨(blocks v l).reverse, if length₁ = (v x).length then (v x).block else .empty x.toNat length₁.toNat,
        blocks v r₁⟩ := by
    unfold Place.fixNext
    rw [show (v x).block.start = x.toNat from congrArg BitVec.toNat hx.start,
      show (v x).block.length = (v x).length.toNat from rfl, habsorb]
    simp only [← BitVec.toNat_eq]
  rcases hjoin with ⟨rfl, hlen⟩ | ⟨-, hlt, hjoined⟩
  · rw [if_neg (not_not.mpr hlen)]
    refine hnext v xs r₁ t ht (by rw [hxs']; simp) ?_
    rw [hplace, if_pos hlen]
  · have hlen : length₁ ≠ (v x).length := fun heq => by rw [heq] at hlt; omega
    rw [if_pos hlen]
    have hy₁mem : y₁ ∈ 0 :: xs ∧ y₁ ≠ x := by
      cases r₁ with
      | nil =>
        obtain ⟨rfl, -⟩ := cons.inj hy₁
        exact ⟨mem_cons_self, hxzero.symm⟩
      | cons c r₁ =>
        obtain ⟨rfl, -⟩ := cons.inj hy₁
        refine ⟨by rw [hxs']; simp, fun heq => ?_⟩
        have := h.table.start_lt (x := x) (l := l) (r := m ++ c :: r₁) (by rw [hxs']; simp) (y := c) (by simp)
        rw [heq] at this
        omega
    obtain ⟨hmem, hne⟩ := hy₁mem
    refine ht.got hmem (by rw [Multiset.card_cons]; exact hroom) fun t ht => ?_
    refine ht.draft.change (by simp) _ fun v1 t hv1x hv1 ht => ?_
    refine ht.makeEmpty (by simp) fun created v2 t hv2x hv2 ht => ?_
    refine ht.change (by simp) _ fun v' t hvy hv' ht => ?_
    have hvx : v' x = emptyHeader x y₁ (v x).prev length₁ created := by
      rw [hv' x hne.symm, hv2x, hv1x]
      simp only [hx.start]
    replace hvy : v' y₁ = { v y₁ with prev := x } := by
      rw [hvy, hv2 y₁ hne, hv1 y₁ hne]
    obtain ⟨xs', hxs'', htable, hleft, hright⟩ := @Table.rewrite unit v v' xs l m [] r₁ x y₁ h.table r₁' hxs' hy₁
      (fun w hw hwy => by
        have hwx := h.table.ne_around hxs' w hw
        rw [hv' w hwy, hv2 w hwx, hv1 w hwx])
      (fun _ => ⟨x, hvy⟩) (fun _ => by rw [hvx]; rfl)
      (by
        refine isChain_cons_cons.mpr ⟨⟨?_, ?_, fun hyz => ?_⟩, isChain_singleton y₁⟩
        · show (v' x).next = y₁
          rw [hvx]
          rfl
        · show (v' y₁).prev = x
          rw [hvy]
        · show y₁.toNat = x.toNat + (v' x).length.toNat
          rw [hvx]
          refine (hend fun hnil => hyz ?_).symm
          subst hnil
          exact (cons.inj hy₁).1.symm)
      (fun w hw => by
        rw [mem_singleton.mp hw, hvx]
        exact emptyHeader_sound (by omega) hjoined hcoarse)
      not_mem_nil (fun hzero => absurd hzero hxzero)
    refine ht.flush htable ?_ (fun w hw => .inl ?_) fun t ht => ?_
    · rw [Finset.insert_idem]
      exact card_two_le y₁ x
    · rw [hxs''] at hw
      rw [hxs']
      simp only [mem_append, mem_cons] at hw ⊢
      tauto
    refine ht.freeHead fun t ht => ?_
    refine hnext v' xs' r₁ t ht (by rw [hxs'']; simp) ?_
    rw [hplace, if_neg hlen, hleft, hright, Header.block_free (show (v' x).type = apaTypeFree by rw [hvx]; rfl),
      hvx]
    rfl

end Ps2sdk.Apa
