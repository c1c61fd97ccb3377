import Mathlib.Data.Finset.Card

/-!
# Programs over a cache of records

Programs take records from a reference-counted write-back cache, read and change them, flush all
changed records together and give them back. They are trees of requests with the rest of the
program as a function of the answer, so that one text has two meanings: a run on an actual cache,
and the weakest precondition `wp` over what the records are, which are held and which are changed.

The weakest precondition asks for everything a run relies on: room in the cache, records that can
be read, changed records that are not given back before a flush, and an invariant of the stored
records at every flush. A ledger keeps account of the references alone, whatever the records are.
-/

namespace Ps2sdk.Lib

/-- A program over a cache with records `H` at places `A` and a clock with readings `T`. -/
inductive Prog (A H T α : Type) where
  | done (a : α)
  | trap
  | get (place : A) (next : ℤ → Prog A H T α)
  | fresh (place : A) (record : H) (next : ℤ → Prog A H T α)
  | read (place : A) (next : H → Prog A H T α)
  | update (place : A) (change : H → H) (next : Prog A H T α)
  | release (place : A) (next : Prog A H T α)
  | flush (next : Prog A H T α)
  | erase (sectors : List ℕ) (next : Prog A H T α)
  | now (next : T → Prog A H T α)

namespace Prog

variable {A H T α β : Type}

/-- Sequencing. -/
def bind : Prog A H T α → (α → Prog A H T β) → Prog A H T β
  | .done a, f => f a
  | .trap, _ => .trap
  | .get place next, f => .get place fun result => (next result).bind f
  | .fresh place record next, f => .fresh place record fun result => (next result).bind f
  | .read place next, f => .read place fun record => (next record).bind f
  | .update place change next, f => .update place change (next.bind f)
  | .release place next, f => .release place (next.bind f)
  | .flush next, f => .flush (next.bind f)
  | .erase sectors next, f => .erase sectors (next.bind f)
  | .now next, f => .now fun time => (next time).bind f

instance : Monad (Prog A H T) where
  pure := .done
  bind := bind

/-- Returning the result of a program does nothing. -/
theorem bind_done (p : Prog A H T α) : p >>= Prog.done = p := by
  induction p with
  | done a => rfl
  | trap => rfl
  | get x next ih => exact congrArg _ (funext ih)
  | fresh x record next ih => exact congrArg _ (funext ih)
  | read x next ih => exact congrArg _ (funext ih)
  | update x change next ih => exact congrArg _ ih
  | release x next ih => exact congrArg _ ih
  | flush next ih => exact congrArg _ ih
  | erase sectors next ih => exact congrArg _ ih
  | now next ih => exact congrArg _ (funext ih)

end Prog

/-- What a program may rely on: the number of buffers and of records in one flush, the places
records have, the records that can be read, the sectors that may be erased, and what holds of the
stored records at every flush. -/
structure Discipline (A H : Type) where
  capacity : ℕ
  batch : ℕ
  place : A → Prop
  readable : A → H → Prop
  aside : ℕ → Prop
  intact : (A → H) → Prop

/-- What a program knows of the cache and the disk: the records, those whose stored form is
sound, references held, changed records, the place given back last, and whether sectors have been
erased since the last flush. -/
structure Known (A H : Type) where
  record : A → H
  sound : Set A
  held : Multiset A
  dirty : Finset A
  last : Option A
  erased : Bool

namespace Prog

variable {A H T α β : Type} [DecidableEq A] (d : Discipline A H)

/-- The weakest precondition of a program. -/
def wp (Q : α → Known A H → Prop) : Prog A H T α → Known A H → Prop
  | .done a, t => Q a t
  | .trap, _ => False
  | .get x next, t =>
    d.place x ∧ (x ∈ t.held ∨ t.last = some x ∨
      t.held.card < d.capacity ∧ x ∈ t.sound ∧ d.readable x (t.record x)) ∧
      (next 0).wp Q { t with held := x ::ₘ t.held, last := none }
  | .fresh x record next, t =>
    d.place x ∧ (x ∈ t.held ∨ t.held.card < d.capacity) ∧
      (next 0).wp Q { t with
        record := Function.update t.record x record
        held := x ::ₘ t.held
        dirty := insert x t.dirty
        last := none }
  | .read x next, t => x ∈ t.held ∧ (next (t.record x)).wp Q t
  | .update x change next, t =>
    x ∈ t.held ∧ next.wp Q { t with
      record := Function.update t.record x (change (t.record x))
      dirty := insert x t.dirty }
  | .release x next, t =>
    x ∈ t.held ∧ (x ∈ t.dirty → x ∈ t.held.erase x) ∧
      next.wp Q { t with held := t.held.erase x, last := some x }
  | .flush next, t =>
    t.erased = false ∧ t.dirty.card ≤ d.batch ∧ d.intact t.record ∧
      next.wp Q { t with sound := t.sound ∪ t.dirty, dirty := ∅ }
  | .erase sectors next, t =>
    t.erased = false ∧ t.held.card < d.capacity ∧ (∀ sector ∈ sectors, d.aside sector) ∧
      next.wp Q { t with last := none, erased := true }
  | .now next, t => ∀ time, (next time).wp Q t

variable {d} {Q : α → Known A H → Prop} {t : Known A H}

variable {p : Prog A H T α}

/-- Sequencing composes preconditions, and a weaker invariant at flushes is easier to keep. -/
theorem wp_then {f : α → Prog A H T β} {R : β → Known A H → Prop} {intact : (A → H) → Prop}
    (h : p.wp d Q t) (hintact : ∀ record, d.intact record → intact record)
    (hnext : ∀ a t, Q a t → (f a).wp { d with intact := intact } R t) :
    (p >>= f).wp { d with intact := intact } R t := by
  induction p generalizing t with
  | done a => exact hnext a t h
  | trap => exact h
  | get x next ih => exact ⟨h.1, h.2.1, ih 0 h.2.2⟩
  | fresh x record next ih => exact ⟨h.1, h.2.1, ih 0 h.2.2⟩
  | read x next ih => exact ⟨h.1, ih _ h.2⟩
  | update x change next ih => exact ⟨h.1, ih h.2⟩
  | release x next ih => exact ⟨h.1, h.2.1, ih h.2.2⟩
  | flush next ih => exact ⟨h.1, h.2.1, hintact _ h.2.2.1, ih h.2.2.2⟩
  | erase sectors next ih => exact ⟨h.1, h.2.1, h.2.2.1, ih h.2.2.2⟩
  | now next ih => exact fun time => ih time (h time)

/-- The precondition of a sequence. -/
theorem wp_bind {f : α → Prog A H T β} {R : β → Known A H → Prop}
    (h : p.wp d (fun a => (f a).wp d R) t) : (p >>= f).wp d R t :=
  wp_then h (fun _ => id) fun _ _ => id

/-- A weaker invariant at flushes. -/
theorem wp_intact {intact : (A → H) → Prop} (h : p.wp d Q t)
    (hintact : ∀ record, d.intact record → intact record) : p.wp { d with intact := intact } Q t := by
  rw [← bind_done p]
  exact wp_then h hintact fun _ _ => id

end Prog

open Function Multiset Finset

/-- What a program has to reckon with: the number of buffers, whether records may fail to be read, and the records
that may be written. -/
structure Ledger (H : Type) where
  capacity : ℕ
  fails : Prop
  good : H → Prop

namespace Prog

variable {A H T α β : Type} [DecidableEq A] (e : Ledger H)

/-- The references a program ends with, whatever it reads. -/
def accounts (Q : α → Multiset A → Prop) : Prog A H T α → Multiset A → Prop
  | .done a, held => Q a held
  | .trap, _ => True
  | .get x next, held => (next 0).accounts Q (x ::ₘ held) ∧
    (e.fails ∨ x ∉ held ∧ e.capacity ≤ held.card → ∀ err < 0, (next err).accounts Q held)
  | .fresh x record next, held => e.good record ∧ (next 0).accounts Q (x ::ₘ held) ∧
    (x ∉ held ∧ e.capacity ≤ held.card → ∀ err < 0, (next err).accounts Q held)
  | .read _ next, held => ∀ record, e.good record → (next record).accounts Q held
  | .update _ change next, held => (∀ record, e.good record → e.good (change record)) ∧ next.accounts Q held
  | .release x next, held => x ∈ held ∧ next.accounts Q (held.erase x)
  | .flush next, held => next.accounts Q held
  | .erase _ next, held => next.accounts Q held
  | .now next, held => ∀ time, (next time).accounts Q held

variable {e} {Q : α → Multiset A → Prop} {held : Multiset A}

variable {p : Prog A H T α}

/-- Sequencing composes accounts. -/
theorem accounts_then {f : α → Prog A H T β} {R : β → Multiset A → Prop}
    (h : p.accounts e Q held) (hnext : ∀ a held, Q a held → (f a).accounts e R held) :
    (p >>= f).accounts e R held := by
  induction p generalizing held with
  | done a => exact hnext a held h
  | trap => trivial
  | get x next ih => exact ⟨ih 0 h.1, fun hfails err herr => ih err (h.2 hfails err herr)⟩
  | fresh x record next ih => exact ⟨h.1, ih 0 h.2.1, fun hfull err herr => ih err (h.2.2 hfull err herr)⟩
  | read x next ih => exact fun record hrecord => ih record (h record hrecord)
  | update x change next ih => exact ⟨h.1, ih h.2⟩
  | release x next ih => exact ⟨h.1, ih h.2⟩
  | flush next ih => exact ih h
  | erase sectors next ih => exact ih h
  | now next ih => exact fun time => ih time (h time)

/-- The accounts of a sequence are those of its first part, up to the accounts of the rest. -/
theorem accounts_bind {f : α → Prog A H T β} {R : β → Multiset A → Prop}
    (h : p.accounts e (fun a => (f a).accounts e R) held) : (p >>= f).accounts e R held :=
  accounts_then h fun _ _ => id

/-- The records a program knows of are good. -/
def Good (e : Ledger H) (t : Known A H) : Prop :=
  ∀ x, x ∈ t.sound ∨ x ∈ t.held ∨ x ∈ t.dirty ∨ t.last = some x → e.good (t.record x)

/-- A program that writes good records only leaves good records. -/
theorem wp_accounts {d : Discipline A H} {R : α → Known A H → Prop} {t : Known A H}
    (h : p.wp d R t) (haccounts : p.accounts e Q t.held) (hgood : Good e t) :
    p.wp d (fun a t => R a t ∧ Good e t) t := by
  induction p generalizing t with
  | done a => exact ⟨h, hgood⟩
  | trap => exact h
  | get x next ih =>
    refine ⟨h.1, h.2.1, ih 0 h.2.2 haccounts.1 fun y hy => ?_⟩
    have hx : e.good (t.record x) := hgood x (by
      rcases h.2.1 with hx | hx | hx
      · exact .inr (.inl hx)
      · exact .inr (.inr (.inr hx))
      · exact .inl hx.2.1)
    rcases hy with hy | hy | hy | hy
    · exact hgood y (.inl hy)
    · rcases mem_cons.mp hy with rfl | hy
      · exact hx
      · exact hgood y (.inr (.inl hy))
    · exact hgood y (.inr (.inr (.inl hy)))
    · cases hy
  | fresh x record next ih =>
    refine ⟨h.1, h.2.1, ih 0 h.2.2 haccounts.2.1 fun y hy => ?_⟩
    show e.good (Function.update t.record x record y)
    by_cases hyx : y = x
    · rw [hyx, update_self]
      exact haccounts.1
    · rw [update_of_ne hyx]
      rcases hy with hy | hy | hy | hy
      · exact hgood y (.inl hy)
      · exact hgood y (.inr (.inl ((mem_cons.mp hy).resolve_left hyx)))
      · exact hgood y (.inr (.inr (.inl ((mem_insert.mp hy).resolve_left hyx))))
      · cases hy
  | read x next ih =>
    exact ⟨h.1, ih _ h.2 (haccounts _ (hgood x (.inr (.inl h.1)))) hgood⟩
  | update x change next ih =>
    refine ⟨h.1, ih h.2 haccounts.2 fun y hy => ?_⟩
    show e.good (Function.update t.record x (change (t.record x)) y)
    by_cases hyx : y = x
    · rw [hyx, update_self]
      exact haccounts.1 _ (hgood x (.inr (.inl h.1)))
    · rw [update_of_ne hyx]
      rcases hy with hy | hy | hy | hy
      · exact hgood y (.inl hy)
      · exact hgood y (.inr (.inl hy))
      · exact hgood y (.inr (.inr (.inl ((mem_insert.mp hy).resolve_left hyx))))
      · exact hgood y (.inr (.inr (.inr hy)))
  | release x next ih =>
    refine ⟨h.1, h.2.1, ih h.2.2 haccounts.2 fun y hy => ?_⟩
    rcases hy with hy | hy | hy | hy
    · exact hgood y (.inl hy)
    · exact hgood y (.inr (.inl (mem_of_mem_erase hy)))
    · exact hgood y (.inr (.inr (.inl hy)))
    · obtain rfl := Option.some.inj hy
      exact hgood x (.inr (.inl h.1))
  | flush next ih =>
    refine ⟨h.1, h.2.1, h.2.2.1, ih h.2.2.2 haccounts fun y hy => ?_⟩
    rcases hy with (hy | hy) | hy | hy | hy
    · exact hgood y (.inl hy)
    · exact hgood y (.inr (.inr (.inl hy)))
    · exact hgood y (.inr (.inl hy))
    · exact absurd hy (notMem_empty y)
    · exact hgood y (.inr (.inr (.inr hy)))
  | erase sectors next ih =>
    refine ⟨h.1, h.2.1, h.2.2.1, ih h.2.2.2 haccounts fun y hy => ?_⟩
    rcases hy with hy | hy | hy | hy
    · exact hgood y (.inl hy)
    · exact hgood y (.inr (.inl hy))
    · exact hgood y (.inr (.inr (.inl hy)))
    · cases hy
  | now next ih => exact fun time => ih time (h time) (haccounts time) hgood

end Prog

end Ps2sdk.Lib
