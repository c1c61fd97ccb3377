import Ps2sdk.Apa.Hdd
import Ps2sdk.Apa.Rules

/-!
# Walking over a table

The walks over the headers of a table end, since a table has no more headers than there are places for them,
and leave the table alone: `apaFindPartition` and the walks of `apaOpen` and `ioctl2AddSub`.
-/

namespace Ps2sdk.Apa

open Lib ApaProg List Nat

variable {n unit : ℕ} {α : Type} {v : Word → Header} {xs l r : List Word} {x : Word} {H : Multiset Word}
  {t : Known Word Header}

/-- Each header of a table lies a unit behind the one before it. -/
theorem Table.room (ht : Table unit v xs) (hxs : 0 :: xs = l ++ x :: r) : x.toNat + unit * r.length < 2 ^ 32 := by
  induction r generalizing l x with
  | nil => exact x.isLt
  | cons y r ih =>
    have hrest := ih (hxs.trans (append_cons ..))
    obtain ⟨-, -, hadjacent⟩ := ht.next_eq hxs
    have hx := ht.sound x (by rw [hxs]; simp)
    have hle := le_of_dvd hx.positive hx.coarse
    rw [length_cons, mul_succ]
    omega

/-- A walk over a table ends. -/
theorem Table.length_lt (ht : Table unit v xs) (hunit : 2 ^ 13 ∣ unit) (hxs : 0 :: xs = l ++ x :: r) :
    r.length < walkTurns := by
  have hroom := ht.room hxs
  have hpositive : 0 < unit := by
    obtain ⟨k, hk⟩ := (ht.sound 0 mem_cons_self).coarse
    have := (ht.sound 0 mem_cons_self).positive
    exact Nat.pos_of_ne_zero fun hzero => by rw [hk, hzero, Nat.zero_mul] at this; omega
  have hle := Nat.le_of_dvd hpositive hunit
  have hmul : 2 ^ 13 * r.length ≤ unit * r.length := Nat.mul_le_mul_right _ hle
  rw [walkTurns]
  omega

/-- Going on to the next header of a table. -/
theorem At.nextHeader {f : ℤ × Option Word → ApaProg α} {Q : α → Known Word Header → Prop}
    (h : At unit v xs (x ::ₘ H) t) (hxs : 0 :: xs = l ++ x :: r) (hroom : H.card < n)
    (hnil : r = [] → ∀ t, At unit v xs H t → (f (0, none)).wp (tableRules n unit) Q t)
    (hcons : ∀ y r', r = y :: r' → ∀ t, At unit v xs (y ::ₘ H) t → (f (0, some y)).wp (tableRules n unit) Q t) :
    (apaGetNextHeader x >>= f).wp (tableRules n unit) Q t := by
  refine Prog.wp_bind ?_
  refine h.draft.read (Multiset.mem_cons_self x H) ?_
  refine h.freeHead fun t ht => ?_
  cases r with
  | nil =>
    rw [if_pos ((h.table.next_eq_zero hxs).mpr rfl)]
    exact hnil rfl t ht
  | cons y r =>
    rw [if_neg (mt (h.table.next_eq_zero hxs).mp (cons_ne_nil y r))]
    obtain ⟨hnext, hprev, -⟩ := h.table.next_eq hxs
    rw [hnext]
    refine ht.got (by rw [hxs]; simp) hroom fun t ht => ?_
    refine ht.draft.read (Multiset.mem_cons_self y H) ?_
    rw [if_neg (not_not.mpr ((h.table.sound x (by rw [hxs]; simp)).start.trans hprev.symm))]
    exact hcons y r rfl t ht

/-- The header is one of a partition with the name. -/
abbrev Header.Named (h : Header) (id : Id) : Prop := h.isSub = false ∧ h.id = id

/-- The walk of `apaFindPartition` finds the first partition with the name. -/
theorem findLoop_wp {Q : ℤ × Option Word → Known Word Header → Prop} (id : Id) (turns : ℕ)
    (h : At unit v xs (x ::ₘ H) t) (hxs : 0 :: xs = l ++ x :: r) (hturns : r.length < turns) (hroom : H.card < n)
    (hfound : ∀ l' y r', x :: r = l' ++ y :: r' → (v y).Named id → (∀ w ∈ l', ¬ (v w).Named id) →
      ∀ t, At unit v xs (y ::ₘ H) t → Q (0, some y) t)
    (hnone : (∀ w ∈ x :: r, ¬ (v w).Named id) → ∀ t, At unit v xs H t → Q (-2, none) t) :
    (findLoop id turns x).wp (tableRules n unit) Q t := by
  induction turns generalizing x l r t with
  | zero => omega
  | succ turns ih =>
    refine h.draft.read (Multiset.mem_cons_self x H) ?_
    by_cases hnamed : (v x).Named id
    · rw [if_pos hnamed]
      exact hfound [] x r rfl hnamed (fun w hw => absurd hw not_mem_nil) t h
    · rw [if_neg hnamed]
      refine h.nextHeader hxs hroom (fun hr t ht => ?_) fun y r' hr t ht => ?_
      · refine hnone (fun w hw => ?_) t ht
        rw [hr] at hw
        rwa [mem_singleton.mp hw]
      · subst hr
        refine ih ht (hxs.trans (append_cons ..))
          (by rw [length_cons] at hturns; omega) (fun l' z r'' heq hz hbefore => ?_) fun hall => ?_
        · exact hfound (x :: l') z r'' (by rw [heq]; rfl) hz (forall_mem_cons.mpr ⟨hnamed, hbefore⟩)
        · exact hnone (forall_mem_cons.mpr ⟨hnamed, hall⟩)

/-- `apaFindPartition` finds the first partition with the name. -/
theorem At.findPartition {f : ℤ × Option Word → ApaProg α} {Q : α → Known Word Header → Prop} (h : At unit v xs H t)
    (hunit : 2 ^ 13 ∣ unit) (hroom : H.card < n) (id : Id)
    (hfound : ∀ l y r, 0 :: xs = l ++ y :: r → (v y).Named id → (∀ w ∈ l, ¬ (v w).Named id) →
      ∀ t, At unit v xs (y ::ₘ H) t → (f (0, some y)).wp (tableRules n unit) Q t)
    (hnone : (∀ w ∈ 0 :: xs, ¬ (v w).Named id) → ∀ t, At unit v xs H t → (f (-2, none)).wp (tableRules n unit) Q
      t) :
    (apaFindPartition id >>= f).wp (tableRules n unit) Q t := by
  refine Prog.wp_bind ?_
  refine h.got mem_cons_self hroom fun t ht => ?_
  exact findLoop_wp id walkTurns ht (l := []) rfl (h.table.length_lt hunit (l := []) rfl) hroom
    (fun l' y r' heq => hfound l' y r' heq) hnone

/-- The table of free blocks after a walk over some headers. -/
def addEmptyBlocks (v : Word → Header) (ys : List Word) (emptyBlocks : Fin 32 → Word) : Fin 32 → Word :=
  ys.foldl (fun emptyBlocks y => apaAddEmptyBlock (v y) emptyBlocks) emptyBlocks

/-- The walk of `apaOpen` finds the first partition with the name, or the last header and the free blocks. -/
theorem openLoop_wp {Q : ℤ × Option Word × Word × (Fin 32 → Word) → Known Word Header → Prop} (id : Id) (turns : ℕ)
    (emptyBlocks : Fin 32 → Word)
    (h : At unit v xs (x ::ₘ H) t) (hxs : 0 :: xs = l ++ x :: r) (hturns : r.length < turns) (hroom : H.card < n)
    (hfound : ∀ l' y r', x :: r = l' ++ y :: r' → (v y).Named id → (∀ w ∈ l', ¬ (v w).Named id) →
      ∀ e t, At unit v xs (y ::ₘ H) t → Q (0, some y, y, e) t)
    (hnone : (∀ w ∈ x :: r, ¬ (v w).Named id) → ∀ l' y, x :: r = l' ++ [y] →
      ∀ t, At unit v xs H t → Q (0, none, y, addEmptyBlocks v (x :: r) emptyBlocks) t) :
    (openLoop id turns x emptyBlocks).wp (tableRules n unit) Q t := by
  induction turns generalizing x l r t emptyBlocks with
  | zero => omega
  | succ turns ih =>
    refine h.draft.read (Multiset.mem_cons_self x H) ?_
    by_cases hnamed : (v x).Named id
    · rw [if_pos hnamed]
      exact hfound [] x r rfl hnamed (fun w hw => absurd hw not_mem_nil) _ t h
    · rw [if_neg hnamed]
      refine h.nextHeader hxs hroom (fun hr t ht => ?_) fun y r' hr t ht => ?_
      · subst hr
        refine hnone (fun w hw => ?_) [] x rfl t ht
        rwa [mem_singleton.mp hw]
      · subst hr
        refine ih (apaAddEmptyBlock (v x) emptyBlocks) ht
          (hxs.trans (append_cons ..))
          (by rw [length_cons] at hturns; omega) (fun l' z r'' heq hz hbefore => ?_) fun hall l' z heq => ?_
        · exact hfound (x :: l') z r'' (by rw [heq]; rfl) hz (forall_mem_cons.mpr ⟨hnamed, hbefore⟩)
        · exact hnone (forall_mem_cons.mpr ⟨hnamed, hall⟩) (x :: l') z (by rw [heq]; rfl)

/-- The walk of `ioctl2AddSub` ends with the last header and the free blocks. -/
theorem emptyLoop_wp {Q : ℤ × Word × (Fin 32 → Word) → Known Word Header → Prop} (turns : ℕ)
    (emptyBlocks : Fin 32 → Word)
    (h : At unit v xs (x ::ₘ H) t) (hxs : 0 :: xs = l ++ x :: r) (hturns : r.length < turns) (hroom : H.card < n)
    (hdone : ∀ l' y, x :: r = l' ++ [y] →
      ∀ t, At unit v xs H t → Q (0, y, addEmptyBlocks v (x :: r) emptyBlocks) t) :
    (emptyLoop turns x emptyBlocks).wp (tableRules n unit) Q t := by
  induction turns generalizing x l r t emptyBlocks with
  | zero => omega
  | succ turns ih =>
    refine h.draft.read (Multiset.mem_cons_self x H) ?_
    refine h.nextHeader hxs hroom (fun hr t ht => ?_) fun y r' hr t ht => ?_
    · subst hr
      exact hdone [] x rfl t ht
    · subst hr
      refine ih (apaAddEmptyBlock (v x) emptyBlocks) ht
        (hxs.trans (append_cons ..))
        (by rw [length_cons] at hturns; omega) fun l' z heq => ?_
      exact hdone (x :: l') z (by rw [heq]; rfl)

end Ps2sdk.Apa
