import Ps2sdk.Apa.Blocks

/-!
# Main partitions and sub-partitions

A main partition lists its sub-partitions, and each sub-partition names its main partition and its number there. The
operations of the driver, seen as changes of the map of partitions, keep the two in agreement.
-/

namespace Ps2sdk.Apa

open Function Option

/-- An entry of the list of sub-partitions. -/
def Header.sub (h : Header) (i : ℕ) : Sub := h.subs (Fin.ofNat 64 i)

/-- The lists of the main partitions and what the sub-partitions say agree. -/
structure Consistent (P : Word → Option Header) : Prop where
  first : ∀ h, P 0 = some h → h.isSub = false
  few : ∀ x m, P x = some m → m.isSub = false → m.nsub.toNat ≤ 64
  listed : ∀ x m, P x = some m → m.isSub = false → ∀ i < m.nsub.toNat, ∃ s, P (m.sub i).start = some s ∧
    s.isSub = true ∧ s.length = (m.sub i).length ∧ s.main = x ∧ s.number.toNat = i + 1
  owned : ∀ y s, P y = some s → s.isSub = true → ∃ m, P s.main = some m ∧ m.isSub = false ∧
    ∃ i < m.nsub.toNat, m.sub i = ⟨y, s.length⟩

variable {P : Word → Option Header} {a x y : Word} {m m' s new : Header} {i k : ℕ}

variable (h : Consistent P)

include h

theorem Consistent.sub_inj {j : ℕ} (hm : P a = some m) (hmain : m.isSub = false)
    (hi : i < m.nsub.toNat) (hj : j < m.nsub.toNat) (heq : (m.sub i).start = (m.sub j).start) : i = j := by
  obtain ⟨s, hs, -, -, -, hnumber⟩ := h.listed a m hm hmain i hi
  obtain ⟨s', hs', -, -, -, hnumber'⟩ := h.listed a m hm hmain j hj
  rw [heq, hs'] at hs
  obtain rfl := some.inj hs
  omega

theorem Consistent.sub_ne (hm : P a = some m) (hmain : m.isSub = false) (hi : i < m.nsub.toNat)
    (hx : P x = some new) (hnew : new.isSub = false) : (m.sub i).start ≠ x := by
  rintro rfl
  obtain ⟨s, hs, hsub, -⟩ := h.listed a m hm hmain i hi
  rw [hx] at hs
  obtain rfl := some.inj hs
  rw [hnew] at hsub
  cases hsub

/-- Creating a main partition. -/
theorem Consistent.create (hx : P x = none) (hnew : new.isSub = false) (hnsub : new.nsub = 0) :
    Consistent (update P x (some new)) := by
  have hold : ∀ y s, P y = some s → update P x (some new) y = some s := by
    intro y s hs
    rw [update_of_ne, hs]
    rintro rfl
    rw [hx] at hs
    cases hs
  have hcases : ∀ y s, update P x (some new) y = some s → s = new ∧ y = x ∨ P y = some s := by
    intro y s hs
    rw [update_apply] at hs
    split at hs
    · next heq => exact .inl ⟨(some.inj hs).symm, heq⟩
    · exact .inr hs
  have hzero : new.nsub.toNat = 0 := by rw [hnsub]; rfl
  refine ⟨fun s hs => ?_, fun y m hm hmain => ?_, fun y m hm hmain i hi => ?_, fun y s hs hsub => ?_⟩
  · rcases hcases 0 s hs with ⟨rfl, -⟩ | hs
    · exact hnew
    · exact h.first s hs
  · rcases hcases y m hm with ⟨rfl, -⟩ | hm
    · omega
    · exact h.few y m hm hmain
  · rcases hcases y m hm with ⟨rfl, -⟩ | hm
    · omega
    · obtain ⟨s, hs, hrest⟩ := h.listed y m hm hmain i hi
      exact ⟨s, hold _ s hs, hrest⟩
  · rcases hcases y s hs with ⟨rfl, -⟩ | hs
    · rw [hnew] at hsub
      cases hsub
    · obtain ⟨m, hm, hrest⟩ := h.owned y s hs hsub
      exact ⟨m, hold _ m hm, hrest⟩

/-- Creating a sub-partition and entering it in its main partition. -/
theorem Consistent.addSub (hm : P a = some m) (hmain : m.isSub = false) (hroom : m.nsub.toNat < 64)
    (hx : P x = none) (hzero : x ≠ 0) (hsub : new.isSub = true) (hof : new.main = a)
    (hnumber : new.number.toNat = m.nsub.toNat + 1) (hmain' : m'.isSub = false)
    (hnsub : m'.nsub.toNat = m.nsub.toNat + 1) (hsame : ∀ i < m.nsub.toNat, m'.sub i = m.sub i)
    (hlast : m'.sub m.nsub.toNat = ⟨x, new.length⟩) : Consistent (update (update P x (some new)) a (some m')) := by
  have hax : x ≠ a := by
    rintro rfl
    rw [hm] at hx
    cases hx
  have hself : update (update P x (some new)) a (some m') a = some m' := update_self ..
  have hatx : update (update P x (some new)) a (some m') x = some new := by
    rw [update_of_ne hax, update_self]
  have hold : ∀ y s, y ≠ a → P y = some s → update (update P x (some new)) a (some m') y = some s := by
    intro y s hya hs
    rw [update_of_ne hya, update_of_ne, hs]
    rintro rfl
    rw [hx] at hs
    cases hs
  have hcases : ∀ y s, update (update P x (some new)) a (some m') y = some s →
      s = m' ∧ y = a ∨ s = new ∧ y = x ∨ y ≠ a ∧ P y = some s := by
    intro y s hs
    rw [update_apply] at hs
    split at hs
    · next heq => exact .inl ⟨(some.inj hs).symm, heq⟩
    · next hya =>
      rw [update_apply] at hs
      split at hs
      · next heq => exact .inr (.inl ⟨(some.inj hs).symm, heq⟩)
      · exact .inr (.inr ⟨hya, hs⟩)
  refine ⟨fun s hs => ?_, fun y s hs hs' => ?_, fun y s hs hs' i hi => ?_, fun y s hs hs' => ?_⟩
  · rcases hcases 0 s hs with ⟨rfl, -⟩ | ⟨-, heq⟩ | ⟨-, hs⟩
    · exact hmain'
    · exact absurd heq.symm hzero
    · exact h.first s hs
  · rcases hcases y s hs with ⟨rfl, -⟩ | ⟨rfl, -⟩ | ⟨-, hs⟩
    · omega
    · rw [hsub] at hs'
      cases hs'
    · exact h.few y s hs hs'
  · rcases hcases y s hs with ⟨rfl, rfl⟩ | ⟨rfl, -⟩ | ⟨hya, hs⟩
    · by_cases hlt : i < m.nsub.toNat
      · obtain ⟨t, ht, hrest⟩ := h.listed y m hm hmain i hlt
        rw [hsame i hlt]
        exact ⟨t, hold _ t (h.sub_ne hm hmain hlt hm hmain) ht, hrest⟩
      · obtain rfl : i = m.nsub.toNat := by omega
        rw [hlast]
        exact ⟨new, hatx, hsub, rfl, hof, hnumber⟩
    · rw [hsub] at hs'
      cases hs'
    · obtain ⟨t, ht, hrest⟩ := h.listed y s hs hs' i hi
      exact ⟨t, hold _ t (h.sub_ne hs hs' hi hm hmain) ht, hrest⟩
  · rcases hcases y s hs with ⟨rfl, -⟩ | ⟨rfl, rfl⟩ | ⟨hya, hs⟩
    · rw [hmain'] at hs'
      cases hs'
    · exact ⟨m', hof ▸ hself, hmain', m.nsub.toNat, by omega, hlast⟩
    · obtain ⟨t, ht, hmaint, i, hi, hsubi⟩ := h.owned y s hs hs'
      by_cases heq : s.main = a
      · rw [heq, hm] at ht
        obtain rfl := some.inj ht
        exact ⟨m', heq ▸ hself, hmain', i, by omega, by rw [hsame i hi, hsubi]⟩
      · exact ⟨t, hold _ t heq ht, hmaint, i, hi, hsubi⟩

omit h

/-- A main partition has been changed, and its sub-partitions from a number on are gone. -/
structure Cut (P P' : Word → Option Header) (a : Word) (m m' : Header) (k : ℕ) : Prop where
  main : P' a = some m'
  gone : ∀ i, k ≤ i → i < m.nsub.toNat → P' (m.sub i).start = none
  kept : ∀ x, x ≠ a → (∀ i, k ≤ i → i < m.nsub.toNat → (m.sub i).start ≠ x) → P' x = P x

theorem Cut.start (P : Word → Option Header) (a : Word) (m m' : Header) :
    Cut P (update P a (some m')) a m m' m.nsub.toNat :=
  ⟨update_self .., fun _ hle hlt => absurd hlt (not_lt.mpr hle), fun _ hx _ => update_of_ne hx ..⟩

/-- Another sub-partition goes. -/
theorem Cut.next {P' : Word → Option Header} (h : Cut P P' a m m' (k + 1)) (hk : k < m.nsub.toNat)
    (hne : (m.sub k).start ≠ a) : Cut P (update P' (m.sub k).start none) a m m' k := by
  refine ⟨?_, fun i hle hlt => ?_, fun x hx hother => ?_⟩
  · rw [update_of_ne hne.symm, h.main]
  · rw [update_apply]
    split
    · rfl
    · next hstart =>
      refine h.gone i (Nat.lt_of_le_of_ne hle fun heq => hstart ?_) hlt
      rw [heq]
  · rw [update_of_ne (hother k (le_refl k) hk).symm, h.kept x hx fun i hle => hother i (by omega)]

/-- Cutting the list of a main partition. -/
theorem Consistent.cut {P' : Word → Option Header} (h : Consistent P) (hm : P a = some m) (hmain : m.isSub = false)
    (hcut : Cut P P' a m m' k) (hmain' : m'.isSub = false) (hnsub : m'.nsub.toNat = k) (hk : k ≤ m.nsub.toNat)
    (hsame : m'.subs = m.subs) : Consistent P' := by
  have hsub : ∀ i, m'.sub i = m.sub i := fun i => by rw [Header.sub, hsame]; rfl
  have hkept : ∀ y s, y ≠ a → P y = some s → (s.isSub = true → s.main ≠ a) → P' y = some s := by
    intro y s hya hs hof
    rw [hcut.kept y hya, hs]
    rintro i - hi rfl
    obtain ⟨s', hs', hsub', -, hmain', -⟩ := h.listed a m hm hmain i hi
    rw [hs] at hs'
    obtain rfl := some.inj hs'
    exact hof hsub' hmain'
  have hcases : ∀ y s, P' y = some s → s = m' ∧ y = a ∨
      y ≠ a ∧ P y = some s ∧ ∀ i, k ≤ i → i < m.nsub.toNat → (m.sub i).start ≠ y := by
    intro y s hs
    by_cases hya : y = a
    · rw [hya, hcut.main] at hs
      exact .inl ⟨(some.inj hs).symm, hya⟩
    · have hother : ∀ i, k ≤ i → i < m.nsub.toNat → (m.sub i).start ≠ y := by
        rintro i hle hlt rfl
        rw [hcut.gone i hle hlt] at hs
        cases hs
      rw [hcut.kept y hya hother] at hs
      exact .inr ⟨hya, hs, hother⟩
  refine ⟨fun s hs => ?_, fun y s hs hs' => ?_, fun y s hs hs' i hi => ?_, fun y s hs hs' => ?_⟩
  · rcases hcases 0 s hs with ⟨rfl, -⟩ | ⟨-, hs, -⟩
    · exact hmain'
    · exact h.first s hs
  · rcases hcases y s hs with ⟨rfl, -⟩ | ⟨-, hs, -⟩
    · have := h.few a m hm hmain
      omega
    · exact h.few y s hs hs'
  · rcases hcases y s hs with ⟨rfl, rfl⟩ | ⟨hya, hs, -⟩
    · obtain ⟨t, ht, hrest⟩ := h.listed y m hm hmain i (by omega)
      rw [hsub]
      refine ⟨t, ?_, hrest⟩
      rw [hcut.kept _ (h.sub_ne hm hmain (by omega) hm hmain), ht]
      intro j hle hlt heq
      have := h.sub_inj hm hmain hlt (by omega) heq
      omega
    · obtain ⟨t, ht, hrest⟩ := h.listed y s hs hs' i hi
      refine ⟨t, hkept _ t (h.sub_ne hs hs' hi hm hmain) ht fun _ heq => hya ?_, hrest⟩
      rw [← hrest.2.2.1, heq]
  · rcases hcases y s hs with ⟨rfl, -⟩ | ⟨hya, hs, hother⟩
    · rw [hmain'] at hs'
      cases hs'
    · obtain ⟨t, ht, hmaint, i, hi, hsubi⟩ := h.owned y s hs hs'
      by_cases heq : s.main = a
      · rw [heq, hm] at ht
        obtain rfl := some.inj ht
        refine ⟨m', heq ▸ hcut.main, hmain', i, ?_, by rw [hsub, hsubi]⟩
        by_contra hge
        exact hother i (by omega) hi (by rw [hsubi])
      · refine ⟨t, hkept _ t heq ht fun hsub' => ?_, hmaint, i, hi, hsubi⟩
        rw [hmaint] at hsub'
        cases hsub'

/-- Deleting a main partition that lists no sub-partitions. -/
theorem Consistent.delete (h : Consistent P) (hm : P a = some m) (hmain : m.isSub = false) (hnsub : m.nsub = 0) :
    Consistent (update P a none) := by
  have hcases : ∀ y s, update P a none y = some s → y ≠ a ∧ P y = some s := by
    intro y s hs
    rw [update_apply] at hs
    split at hs
    · cases hs
    · next hne => exact ⟨hne, hs⟩
  have hkept : ∀ y s, y ≠ a → P y = some s → update P a none y = some s := by
    intro y s hne hs
    rw [update_of_ne hne, hs]
  refine ⟨fun s hs => h.first s (hcases 0 s hs).2, fun y s hs => h.few y s (hcases y s hs).2,
    fun y s hs hs' i hi => ?_, fun y s hs hs' => ?_⟩
  · obtain ⟨-, hs⟩ := hcases y s hs
    obtain ⟨t, ht, hrest⟩ := h.listed y s hs hs' i hi
    exact ⟨t, hkept _ t (h.sub_ne hs hs' hi hm hmain) ht, hrest⟩
  · obtain ⟨-, hs⟩ := hcases y s hs
    obtain ⟨t, ht, hmaint, i, hi, hsubi⟩ := h.owned y s hs hs'
    refine ⟨t, hkept _ t (fun heq => ?_) ht, hmaint, i, hi, hsubi⟩
    rw [heq, hm] at ht
    obtain rfl := some.inj ht
    rw [hnsub] at hi
    exact absurd hi (Nat.not_lt_zero i)

end Ps2sdk.Apa
