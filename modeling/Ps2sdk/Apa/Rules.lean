import Ps2sdk.Apa.Blocks
import Ps2sdk.Apa.Simulation

/-!
# Rules for programs over a table

Between two flushes a program knows a draft: headers, those it holds and those it has changed. A flush makes a
draft that is a table the state of the driver. The rules below are for each request a program makes. Between two
requests no header is held or changed, and the headers on the drive form a table: `Driver.Stores`.
-/

namespace Ps2sdk.Apa

open Lib ApaProg Function Multiset

variable {n unit : ℕ} {α β : Type} {v v' : Word → Header} {xs xs' l r : List Word} {x y : Word}
  {H : Multiset Word} {D : Finset Word} {S : List Word} {t : Known Word Header}

/-- The headers form a table. -/
def Intact (unit : ℕ) (v : Word → Header) : Prop := ∃ xs, Table unit v xs

/-- The rules for programs over a table. -/
abbrev tableRules (n unit : ℕ) : Discipline Word Header := rules n unit (Intact unit)

/-- What is known between two flushes: the headers, the references held, the headers changed, and places where
sound headers are stored. -/
structure Draft (v : Word → Header) (H : Multiset Word) (D : Finset Word) (S : List Word) (t : Known Word Header) :
    Prop where
  record : t.record = v
  held : t.held = H
  dirty : t.dirty = D
  erased : t.erased = false
  sound : ∀ y ∈ S, y ∈ t.sound

/-- What is known after a flush: the headers form a table that is stored. -/
structure At (unit : ℕ) (v : Word → Header) (xs : List Word) (H : Multiset Word) (t : Known Word Header) :
    Prop where
  table : Table unit v xs
  draft : Draft v H ∅ (0 :: xs) t

section Rules

variable {f : ℤ → ApaProg α} {Q : α → Known Word Header → Prop} {intact : (Word → Header) → Prop}

/-- Taking a header of a table. -/
theorem At.get (h : At unit v xs H t) (hx : x ∈ 0 :: xs) (hroom : x ∈ H ∨ H.card < n)
    (hnext : ∀ t, At unit v xs (x ::ₘ H) t → (f 0).wp (rules n unit intact) Q t) :
    (getHeader x >>= f).wp (rules n unit intact) Q t := by
  have hsound := h.table.sound x hx
  refine ⟨hsound.place, ?_, hnext _ ⟨h.table, h.draft.record, ?_, h.draft.dirty, h.draft.erased, h.draft.sound⟩⟩
  · rw [h.draft.held, h.draft.record]
    refine hroom.imp id fun hlt => .inr ⟨hlt, h.draft.sound x hx, hsound.magic, ?_⟩
    rintro rfl
    exact h.table.mbr
  · show x ::ₘ t.held = x ::ₘ H
    rw [h.draft.held]

theorem At.got {f : ApaProg α} {g : ℤ → ApaProg α} (h : At unit v xs H t) (hx : x ∈ 0 :: xs) (hroom : H.card < n)
    (hnext : ∀ t, At unit v xs (x ::ₘ H) t → f.wp (rules n unit intact) Q t) :
    (getHeader x >>= fun err => if err ≠ 0 then g err else f).wp (rules n unit intact) Q t := by
  refine h.get hx (.inr hroom) fun t ht => ?_
  rw [if_neg (not_not.mpr rfl)]
  exact hnext t ht

theorem Draft.read {f : Header → ApaProg α} (h : Draft v H D S t) (hx : x ∈ H)
    (hnext : (f (v x)).wp (rules n unit intact) Q t) : (header x >>= f).wp (rules n unit intact) Q t := by
  refine ⟨h.held ▸ hx, ?_⟩
  rwa [h.record]

variable {f : Unit → ApaProg α}

/-- Changing a header that is held. -/
theorem Draft.change (h : Draft v H D S t) (hx : x ∈ H) (change : Header → Header)
    (hnext : ∀ v' t, v' x = change (v x) → (∀ w, w ≠ x → v' w = v w) → Draft v' H (insert x D) S t →
      (f ()).wp (rules n unit intact) Q t) : (setHeader x change >>= f).wp (rules n unit intact) Q t := by
  refine ⟨h.held ▸ hx, hnext (update v x (change (v x))) _ (update_self ..)
    (fun w hw => update_of_ne hw ..) ⟨?_, h.held, ?_, h.erased, h.sound⟩⟩
  · show update t.record x (change (t.record x)) = _
    rw [h.record]
  · show insert x t.dirty = _
    rw [h.dirty]

theorem Draft.free (h : Draft v H D S t) (hx : x ∈ H) (hclean : x ∈ D → x ∈ H.erase x)
    (hnext : ∀ t, Draft v (H.erase x) D S t → (f ()).wp (rules n unit intact) Q t) :
    (ApaProg.free x >>= f).wp (rules n unit intact) Q t := by
  refine ⟨h.held ▸ hx, ?_, hnext _ ⟨h.record, ?_, h.dirty, h.erased, h.sound⟩⟩
  · rw [h.held, h.dirty]
    exact hclean
  · show t.held.erase x = _
    rw [h.held]

theorem At.free (h : At unit v xs H t) (hx : x ∈ H)
    (hnext : ∀ t, At unit v xs (H.erase x) t → (f ()).wp (rules n unit intact) Q t) :
    (ApaProg.free x >>= f).wp (rules n unit intact) Q t :=
  h.draft.free hx (fun hdirty => absurd hdirty (Finset.notMem_empty x)) fun t ht => hnext t ⟨h.table, ht⟩

theorem At.freeHead (h : At unit v xs (x ::ₘ H) t)
    (hnext : ∀ t, At unit v xs H t → (f ()).wp (rules n unit intact) Q t) :
    (ApaProg.free x >>= f).wp (rules n unit intact) Q t := by
  refine h.free (mem_cons_self x H) fun t ht => ?_
  rw [erase_cons_head] at ht
  exact hnext t ht

/-- Writing a header at a place. -/
theorem Draft.fresh {f : ℤ → ApaProg α} (h : Draft v H D S t) (hplace : unit ∣ x.toNat)
    (hroom : x ∈ H ∨ H.card < n) (record : Header)
    (hnext : ∀ v' t, v' x = record → (∀ w, w ≠ x → v' w = v w) → Draft v' (x ::ₘ H) (insert x D) S t →
      (f 0).wp (rules n unit intact) Q t) : (newHeader x record >>= f).wp (rules n unit intact) Q t := by
  refine ⟨hplace, ?_, hnext (update v x record) _ (update_self ..)
    (fun w hw => update_of_ne hw ..) ⟨?_, ?_, ?_, h.erased, h.sound⟩⟩
  · rw [h.held]
    exact hroom
  · show update t.record x record = _
    rw [h.record]
  · show x ::ₘ t.held = _
    rw [h.held]
  · show insert x t.dirty = _
    rw [h.dirty]

theorem Draft.commit (h : Draft v H D S t) (hintact : intact v) (hcard : D.card ≤ 126)
    (hnext : ∀ t, Draft v H ∅ S t → (f ()).wp (rules n unit intact) Q t) :
    (flushAllDirty >>= f).wp (rules n unit intact) Q t := by
  refine ⟨h.erased, h.dirty ▸ hcard, ?_, hnext _ ⟨h.record, h.held, rfl, h.erased, fun y hy => .inl (h.sound y hy)⟩⟩
  rw [h.record]
  exact hintact

/-- Flushing a draft that is a table. -/
theorem Draft.flush (h : Draft v H D S t) (ht : Table unit v xs) (hcard : D.card ≤ 126)
    (hstored : ∀ y ∈ 0 :: xs, y ∈ S ∨ y ∈ D) (hnext : ∀ t, At unit v xs H t → (f ()).wp (tableRules n unit) Q t) :
    (flushAllDirty >>= f).wp (tableRules n unit) Q t := by
  refine ⟨h.erased, h.dirty ▸ hcard, ⟨xs, h.record ▸ ht⟩, hnext _ ⟨ht, h.record, h.held, rfl, h.erased, ?_⟩⟩
  intro y hy
  rcases hstored y hy with hold | hnew
  · exact .inl (h.sound y hold)
  · refine .inr ?_
    rw [h.dirty]
    exact hnew

theorem wp_getTime {f : Time → ApaProg α} (hnext : ∀ time, (f time).wp (rules n unit intact) Q t) :
    (getTime >>= f).wp (rules n unit intact) Q t := hnext

theorem Draft.removePartition {f : Option Word → ApaProg α} (h : Draft v H D S t) (hplace : unit ∣ x.toNat)
    (hroom : x ∈ H ∨ H.card < n) {next prev length : Word}
    (hnext : ∀ created v' t, v' x = emptyHeader x next prev length created → (∀ w, w ≠ x → v' w = v w) →
      Draft v' (x ::ₘ H) (insert x D) S t → (f (some x)).wp (rules n unit intact) Q t) :
    (apaRemovePartition x next prev length >>= f).wp (rules n unit intact) Q t :=
  wp_getTime fun created => h.fresh hplace hroom _ fun v' t hx hother ht => hnext created v' t hx hother ht

theorem Draft.fillHeader {f : ℤ × Option Word → ApaProg α} (h : Draft v H D S t) (hplace : unit ∣ x.toNat)
    (hroom : x ∈ H ∨ H.card < n) {params : Params} {next prev length : Word}
    (hnext : ∀ created v' t, v' x = params.header x next prev length created → (∀ w, w ≠ x → v' w = v w) →
      Draft v' (x ::ₘ H) (insert x D) S t → (f (0, some x)).wp (rules n unit intact) Q t) :
    (apaFillHeader params x next prev length >>= f).wp (rules n unit intact) Q t :=
  wp_getTime fun created => h.fresh hplace hroom _ fun v' t hx hother ht => hnext created v' t hx hother ht

theorem Draft.makeEmpty (h : Draft v H D S t) (hx : x ∈ H)
    (hnext : ∀ created v' t, v' x = emptyHeader (v x).start (v x).next (v x).prev (v x).length created →
      (∀ w, w ≠ x → v' w = v w) → Draft v' H (insert x D) S t → (f ()).wp (rules n unit intact) Q t) :
    (apaMakeEmpty x >>= f).wp (rules n unit intact) Q t :=
  wp_getTime fun created => h.change hx _ fun v' t hx hother ht => hnext created v' t hx hother ht

end Rules

open List

variable {n unit : ℕ} {α : Type} {s : Driver n} {v v' : Word → Header} {xs xs' : List Word} {t : Known Word Header}

/-- The headers on the drive. -/
def Driver.headers (s : Driver n) : Word → Header := headerAt s.dev.contents

/-- What is known of a driver at rest on a table. -/
def Driver.atRest (s : Driver n) (xs : List Word) : Known Word Header where
  record := s.headers
  sound := { x | x ∈ 0 :: xs }
  held := 0
  dirty := ∅
  last := none
  erased := false

/-- The driver is at rest on a table. -/
structure Driver.Stores (unit : ℕ) (s : Driver n) (xs : List Word) : Prop where
  table : Table unit s.headers xs
  shows : Shows unit s (s.atRest xs)

theorem Driver.Stores.at (h : s.Stores unit xs) : At unit s.headers xs 0 (s.atRest xs) :=
  ⟨h.table, rfl, rfl, rfl, rfl, fun _ hy => hy⟩

/-- A ring depends on its own headers only. -/
theorem Table.congr (ht : Table unit v xs) (heq : ∀ x ∈ 0 :: xs, v' x = v x) : Table unit v' xs := by
  refine ⟨⟨Layout.follows_congr ht.ring.follows (fun w hw => ?_) fun w hw => ?_, fun x hx => ?_, ht.ring.first⟩,
    fun x hx => ?_, ?_, ?_⟩
  · rw [dropLast_concat] at hw
    show (v' w).next = (v w).next ∧ (v' w).length.toNat = (v w).length.toNat
    rw [heq w hw]
    exact ⟨rfl, rfl⟩
  · have hmem : w ∈ 0 :: xs := by
      rcases mem_append.mp hw with hw | hw
      · exact mem_cons_of_mem 0 hw
      · rw [List.mem_singleton.mp hw]
        exact mem_cons_self
    show (v' w).prev = (v w).prev
    rw [heq w hmem]
  · have hpositive := ht.ring.positive x hx
    show 0 < (v' x).length.toNat
    rwa [heq x hx]
  · rw [heq x hx]
    exact ht.sound x hx
  · rw [heq 0 mem_cons_self]
    exact ht.boot
  · rw [heq 0 mem_cons_self]
    exact ht.mbr

/-- A driver that holds nothing and has flushed all changes is at rest. -/
theorem Shows.stores (h : Shows unit s t) (ht : Table unit v xs) (hrecord : t.record = v) (hheld : t.held = 0)
    (hdirty : t.dirty = ∅) (hsound : ∀ y ∈ 0 :: xs, y ∈ t.sound) :
    s.Stores unit xs ∧ ∀ x ∈ 0 :: xs, s.headers x = v x := by
  have hsame : ∀ x : Word, unit ∣ x.toNat → s.headers x = t.record x := fun x hx =>
    h.stored x hx (by rw [hdirty]; exact Finset.notMem_empty x)
  have heq : ∀ x ∈ 0 :: xs, s.headers x = v x := fun x hx => by
    rw [hsame x (ht.sound x hx).place, hrecord]
  refine ⟨⟨ht.congr heq, ⟨h.unique, h.place, ?_, ?_, h.idle, ?_, ?_, ?_, h.freeNodup, h.memFree, ?_, ?_,
    h.journal⟩⟩, heq⟩
  · intro i x hi
    exact (h.header i x hi).trans (hsame x (h.place i x hi)).symm
  · intro i x hi
    rw [h.nused i x hi, hheld]
    rfl
  · intro i x hi
    rw [h.dirty i x hi, hdirty]
    rfl
  · intro x hx
    rcases hx with hx | hx
    · exact absurd hx (Multiset.notMem_zero x)
    · exact absurd hx (by simp [Driver.atRest])
  · intro x hx
    exact absurd hx (Finset.notMem_empty x)
  · intro x _ _
    rfl
  · intro x hx
    obtain ⟨hplace, hsum⟩ := h.sound x (hsound x hx)
    refine ⟨hplace, fun _ => ?_⟩
    rw [hsum (by rw [hdirty]; exact Finset.notMem_empty x), ← hsame x hplace]
    rfl

/-- What is known when a program returns: a table, nothing held. -/
def Settled (unit : ℕ) (v : Word → Header) (xs : List Word) (t : Known Word Header) : Prop :=
  At unit v xs 0 { t with erased := false }

theorem At.settled (h : At unit v xs 0 t) : Settled unit v xs t :=
  ⟨h.table, h.draft.record, h.draft.held, h.draft.dirty, rfl, h.draft.sound⟩

theorem Shows.stores_of_settled (h : Shows unit s t) (hs : Settled unit v xs t) :
    s.Stores unit xs ∧ ∀ x ∈ 0 :: xs, s.headers x = v x :=
  h.stores hs.table hs.draft.record hs.draft.held hs.draft.dirty hs.draft.sound

theorem Driver.Stores.run {intact : (Word → Header) → Prop} {p : ApaProg α}
    {Q : α → (Word → Header) → List Word → Prop} (h : s.Stores unit xs) (hunit : 512 ∣ unit)
    (hp : p.wp (rules n unit intact) (fun a t => ∃ v' xs', Settled unit v' xs' t ∧ Q a v' xs') (s.atRest xs)) :
    ∃ a v' xs', (p.run s).1 = some a ∧ (p.run s).2.Stores unit xs' ∧
      (∀ x ∈ 0 :: xs', (p.run s).2.headers x = v' x) ∧ Q a v' xs' := by
  obtain ⟨a, t', ha, hshows, v', xs', hs, hQ⟩ := ApaProg.run_of_wp hunit h.shows hp
  obtain ⟨hstores, hsame⟩ := hshows.stores_of_settled hs
  exact ⟨a, v', xs', ha, hstores, hsame, hQ⟩

theorem Table.list_unique (ht : Table unit v xs) (ht' : Table unit v xs') : xs = xs' :=
  chain_unique (ht.ring.follows.imp fun _ _ hfollows => hfollows.next)
    (ht'.ring.follows.imp fun _ _ hfollows => hfollows.next) ht.ring.first ht'.ring.first

/-- The last header of a table. -/
def lastOf (xs : List Word) : Word := xs.getLastD 0

theorem exists_lastOf (xs : List Word) : ∃ l, 0 :: xs = l ++ [lastOf xs] := by
  rcases eq_nil_or_concat' xs with rfl | ⟨l, x, rfl⟩
  · exact ⟨[], rfl⟩
  · refine ⟨0 :: l, ?_⟩
    rw [lastOf, getLastD_concat]
    rfl

/-- The driver is at rest on a table that does not end in free space. -/
structure Driver.WellFormed (s : Driver n) (xs : List Word) : Prop where
  stores : s.Stores (2 ^ 18) xs
  ended : (s.headers (lastOf xs)).type ≠ apaTypeFree

/-- The end of the table. -/
def Driver.tableEnd (s : Driver n) (xs : List Word) : ℕ := (lastOf xs).toNat + (s.headers (lastOf xs)).length.toNat

end Ps2sdk.Apa
