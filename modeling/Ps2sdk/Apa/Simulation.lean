import Ps2sdk.Apa.Shows

/-!
# Programs on the cache mean what their preconditions say

A flush and the clearing of sectors keep what the cache shows, as the other requests do, so a
program whose weakest precondition holds returns, in a state that satisfies its postcondition. Whatever a
program does to the other headers, a header that it holds stays in its buffer; this needs no table.
-/

namespace Ps2sdk.Apa

open Lib List Function Header CacheBuf

variable {n : ℕ} {α : Type} {unit : ℕ} {s : Driver n} {t : Known Word Header} {i : Fin n} {x : Word}

variable {intact : (Word → Header) → Prop}

theorem Driver.mem_pending {entry : Word × Header} :
    entry ∈ s.pending ↔ ∃ i, (s.cacheBuf i).pending = some entry := by
  simp [Driver.pending, Driver.pendingOf]

variable (h : Shows unit s t)

include h

/-- The dirty headers are the ones known to be dirty. -/
theorem Shows.mem_pending {header : Header} : (x, header) ∈ s.pending ↔ x ∈ t.dirty ∧ header = t.record x := by
  rw [Driver.mem_pending]
  constructor
  · rintro ⟨i, hi⟩
    obtain ⟨hsector, hdirty, hheader⟩ := pending_eq hi
    exact ⟨(h.dirty i x hsector).mp hdirty, hheader.symm.trans (h.header i x hsector)⟩
  · rintro ⟨hx, rfl⟩
    obtain ⟨i, -, hi⟩ := h.find_held (h.dirtyHeld x hx)
    refine ⟨i, ?_⟩
    simp [pending, hi, (h.dirty i x hi).mpr hx, h.header i x hi]

/-- No two dirty headers are of one sector. -/
theorem Shows.pending_nodup : (s.pending.map Prod.fst).Nodup := by
  have hmap : s.pending.map Prod.fst =
      (finRange n).filterMap fun i => (s.cacheBuf i).pending.map Prod.fst := by
    simp [Driver.pending, Driver.pendingOf, map_filterMap]
  rw [hmap]
  refine (nodup_finRange n).filterMap fun i j x hi hj => ?_
  obtain ⟨⟨_, header⟩, hpending, rfl⟩ := Option.map_eq_some_iff.mp hi
  obtain ⟨⟨_, header'⟩, hpending', heq⟩ := Option.map_eq_some_iff.mp hj
  subst heq
  exact h.unique i j _ (pending_eq hpending).1 (pending_eq hpending').1

theorem Shows.pending_length : s.pending.length ≤ t.dirty.card := by
  have hsubset : (s.pending.map Prod.fst).toFinset ⊆ t.dirty := by
    intro x hx
    obtain ⟨⟨_, header⟩, hmem, rfl⟩ := mem_map.mp (mem_toFinset.mp hx)
    exact (h.mem_pending.mp hmem).1
  have hcard := Finset.card_le_card hsubset
  rwa [toFinset_card_of_nodup h.pending_nodup, length_map] at hcard

theorem Shows.pending_place (hunit : 512 ∣ unit) : ∀ entry ∈ s.pending, 512 ∣ entry.1.toNat := by
  rintro ⟨x, header⟩ hmem
  obtain ⟨i, -, hi⟩ := h.find_held (h.dirtyHeld x (h.mem_pending.mp hmem).1)
  exact hunit.trans (h.place i x hi)

omit h

theorem perform_flushCommands (dev : BlockDev) {headers : List (Word × Header)} (hroom : headers.length ≤ 126) :
    apaLog.Agrees (dev.perform (flushCommands headers)).contents (storeAll dev.contents (homeWrites headers)) ∧
      apaLog.Idle (dev.perform (flushCommands headers)).contents := by
  rw [flushCommands, BlockDev.perform_transaction]
  refine RedoLog.performed_spec (logWrites_inside 0 (by omega)) fun cell hcell => ?_
  simp only [mem_singleton] at hcell
  subst hcell
  exact ⟨rfl, Nat.le_refl 8, show 8 < 264 by decide⟩

theorem readBlock_agrees {disk disk' : Disk} (h : apaLog.Agrees disk disk') (hx : 512 ∣ x.toNat) :
    readBlock disk 0 x.toNat = readBlock disk' 0 x.toNat := by
  refine readBlock_congr (h _ ?_) (h _ ?_) <;>
  · rintro ⟨-, hlow, hhigh⟩
    omega

/-- The header stored at a place after a flush. -/
theorem Shows.readBlock_flush (h : Shows unit s t) (hunit : 512 ∣ unit) (hroom : t.dirty.card ≤ 126)
    (hx : unit ∣ x.toNat) : readBlock (s.dev.perform (flushCommands s.pending)).contents 0 x.toNat =
      if x ∈ t.dirty then (t.record x).image (apaCheckSum (t.record x)) else readBlock
        s.dev.contents 0 x.toNat := by
  have hagrees := (perform_flushCommands s.dev (h.pending_length.trans hroom)).1
  rw [readBlock_agrees hagrees (hunit.trans hx)]
  split
  · next hdirty =>
    exact readBlock_homeWrites (h.pending_place hunit) h.pending_nodup (h.mem_pending.mpr ⟨hdirty, rfl⟩)
  · next hclean =>
    refine readBlock_homeWrites_other (hunit.trans hx) (h.pending_place hunit) fun hmem => hclean ?_
    obtain ⟨⟨_, header⟩, hentry, rfl⟩ := mem_map.mp hmem
    exact (h.mem_pending.mp hentry).1

/-- The state that is known after a flush. -/
def flushed (t : Known Word Header) : Known Word Header := { t with sound := t.sound ∪ t.dirty, dirty := ∅ }

/-- A flush makes no buffer dirty and changes no header. -/
theorem CacheBuf.sealed_cleaned (buf : CacheBuf) : buf.sealed.cleaned.sector = buf.sector ∧
    buf.sealed.cleaned.header = buf.header ∧ buf.sealed.cleaned.nused = buf.nused ∧
      (buf.sealed.cleaned.dirty = true → buf.sector = none) := by
  have hsector : buf.sealed.sector = buf.sector := by
    unfold sealed
    split <;> rfl
  have hheader : buf.sealed.header = buf.header := by
    unfold sealed
    split <;> rfl
  have hnused : buf.sealed.nused = buf.nused := by
    unfold sealed
    split <;> rfl
  unfold cleaned
  split
  · exact ⟨hsector, hheader, hnused, fun hdirty => by simp at hdirty⟩
  · next hnone =>
    refine ⟨hsector, hheader, hnused, fun hdirty => ?_⟩
    rw [← hsector]
    cases hcase : buf.sealed.sector with
    | none => rfl
    | some x => exact absurd (by simp [pending, hcase, hdirty]) hnone

/-- A flush. -/
theorem Shows.flush (h : Shows unit s t) (hunit : 512 ∣ unit) (hroom : t.dirty.card ≤ 126) :
    Shows unit (apaCacheFlushAllDirty s) (flushed t) := by
  rw [apaCacheFlushAllDirty_eq s h.journal (h.pending_length.trans hroom)]
  have hbuf : ∀ i, (({ s with cacheBuf := fun i => (s.cacheBuf i).sealed.cleaned } : Driver n).issue
      (flushCommands s.pending)).cacheBuf i = (s.cacheBuf i).sealed.cleaned := fun _ => rfl
  have hread := fun x => h.readBlock_flush (x := x) hunit hroom
  refine ⟨?_, ?_, ?_, ?_, ?_, ?_, ?_, ?_, h.freeNodup, ?_, ?_, ?_, h.journal⟩
  · intro i j x hi hj
    rw [hbuf, (sealed_cleaned _).1] at hi hj
    exact h.unique i j x hi hj
  · intro i x hi
    rw [hbuf, (sealed_cleaned _).1] at hi
    exact h.place i x hi
  · intro i x hi
    rw [hbuf, (sealed_cleaned _).1] at hi
    rw [hbuf, (sealed_cleaned _).2.1]
    exact h.header i x hi
  · intro i x hi
    rw [hbuf, (sealed_cleaned _).1] at hi
    rw [hbuf, (sealed_cleaned _).2.2.1]
    exact h.nused i x hi
  · intro i hi
    rw [hbuf, (sealed_cleaned _).1] at hi
    rw [hbuf, (sealed_cleaned _).2.2.1]
    exact h.idle i hi
  · intro i x hi
    rw [hbuf, (sealed_cleaned _).1] at hi
    rw [hbuf]
    refine ⟨fun hdirty => ?_, fun hx => absurd hx (Finset.notMem_empty x)⟩
    rw [(sealed_cleaned _).2.2.2 hdirty] at hi
    simp at hi
  · intro x hx
    obtain ⟨i, hi⟩ := h.cached x hx
    exact ⟨i, by rw [hbuf, (sealed_cleaned _).1, hi]⟩
  · exact fun x hx => absurd hx (Finset.notMem_empty x)
  · intro i
    rw [hbuf, (sealed_cleaned _).2.2.1]
    exact h.memFree i
  · intro x hx _
    change ofImage (readBlock (s.dev.perform (flushCommands s.pending)).contents 0 x.toNat) = t.record x
    rw [hread x hx]
    split
    · exact ofImage_image _ _
    · next hclean => exact h.stored x hx hclean
  · intro x hx
    have hplace : unit ∣ x.toNat := by
      rcases hx with hx | hx
      · exact (h.sound x hx).1
      · obtain ⟨i, -, hi⟩ := h.find_held (h.dirtyHeld x hx)
        exact h.place i x hi
    refine ⟨hplace, fun _ => ?_⟩
    change readBlock (s.dev.perform (flushCommands s.pending)).contents 0 x.toNat 0 = apaCheckSum (t.record x)
    rw [hread x hplace]
    split
    · exact image_zero _ _
    · next hclean => exact (h.sound x (hx.resolve_right hclean)).2 hclean

/-- The writes that clear some sectors. -/
def eraseWrites (sectors : List ℕ) : List (List ((ℕ × ℕ) × Sector)) := sectors.map fun lba =>
    headerCells lba 0 .zero

theorem foldl_erase (s : Driver n) (sectors : List ℕ) :
    sectors.foldl (fun s lba => s.write (headerCells lba 0 .zero)) s = s.issue
      ((eraseWrites sectors).map .write) := by
  induction sectors generalizing s with
  | nil => rfl
  | cons lba rest ih =>
    rw [foldl_cons, ih]
    rfl

theorem readBlock_eraseWrites {disk : Disk} {sectors : List ℕ}
    (haside : ∀ lba ∈ sectors, (rules n unit intact).aside lba) (hx : unit ∣ x.toNat) :
    readBlock (storeAll disk (eraseWrites sectors)) 0 x.toNat = readBlock disk 0 x.toNat := by
  exact readBlock_storeAll_apart (p := (0, x.toNat)) (q := fun lba : ℕ => (0, lba)) disk
    fun lba hlba _ => (haside lba hlba x hx).symm

/-- The state that is known after sectors have been cleared. -/
def erased (t : Known Word Header) : Known Word Header := { t with last := none, erased := true }

theorem Driver.eraseAt_eq {rest : List (Fin n)} (hfree : s.free = i :: rest) (sectors : List ℕ) :
    s.eraseAt sectors = some (({ s with free := rest ++ [i] }.setBuf i ⟨false, 0, none, 0, .zero⟩).issue
      ((eraseWrites sectors).map .write)) := by
  unfold Driver.eraseAt apaCacheAlloc
  rw [hfree]
  simp only [Driver.setBuf_setBuf, Driver.setBuf_cacheBuf, foldl_erase]
  simp [Driver.returnBuf, Driver.issue, Driver.setBuf]

/-- Clearing sectors. -/
theorem Shows.erase {sectors : List ℕ} (h : Shows unit s t)
    (hroom : t.held.card < n) (haside : ∀ lba ∈ sectors, (rules n unit intact).aside lba) :
    ∃ s', s.eraseAt sectors = some s' ∧ s'.dev = s.dev.perform ((eraseWrites sectors).map .write) ∧
      Shows unit s' (erased t) := by
  cases hfree : s.free with
  | nil => exact absurd hfree (h.free_ne_nil hroom)
  | cons i rest =>
    refine ⟨_, Driver.eraseAt_eq hfree sectors, rfl, ?_⟩
    obtain ⟨s', hs'⟩ : ∃ s' : Driver n, s' = ({ s with free := rest ++ [i] }.setBuf i
      ⟨false, 0, none, 0, .zero⟩).issue ((eraseWrites sectors).map .write) := ⟨_, rfl⟩
    rw [← hs']
    have hself : s'.cacheBuf i = ⟨false, 0, none, 0, .zero⟩ := by
      rw [hs']
      exact update_self ..
    have hother : ∀ j, j ≠ i → s'.cacheBuf j = s.cacheBuf j := by
      intro j hj
      rw [hs']
      exact update_of_ne hj ..
    have hzero : (s.cacheBuf i).nused = 0 := (h.memFree i).mp (hfree ▸ mem_cons_self)
    have hread : ∀ x : Word, unit ∣ x.toNat →
        readBlock s'.dev.contents 0 x.toNat = readBlock s.dev.contents 0 x.toNat := by
      intro x hx
      have hdev : s'.dev = s.dev.perform ((eraseWrites sectors).map .write) := by
        rw [hs']
        rfl
      rw [hdev, BlockDev.perform_writes_contents, readBlock_eraseWrites haside hx]
    have hback : ∀ {j x}, (s'.cacheBuf j).sector = some x → j ≠ i := by
      rintro j x hj rfl
      rw [hself] at hj
      simp at hj
    refine ⟨?_, ?_, ?_, ?_, ?_, ?_, ?_, h.dirtyHeld, ?_, ?_, ?_, ?_, ?_⟩
    · intro j k x hj hk
      rw [hother j (hback hj)] at hj
      rw [hother k (hback hk)] at hk
      exact h.unique j k x hj hk
    · intro j x hj
      rw [hother j (hback hj)] at hj
      exact h.place j x hj
    · intro j x hj
      have hsame := hother j (hback hj)
      rw [hsame] at hj ⊢
      exact h.header j x hj
    · intro j x hj
      have hsame := hother j (hback hj)
      rw [hsame] at hj ⊢
      exact h.nused j x hj
    · intro j hj
      by_cases hji : j = i
      · rw [hji, hself]
      · rw [hother j hji] at hj ⊢
        exact h.idle j hj
    · intro j x hj
      have hsame := hother j (hback hj)
      rw [hsame] at hj ⊢
      exact h.dirty j x hj
    · intro x hx
      have hheld : x ∈ t.held := hx.resolve_right fun hlast => by simp [erased] at hlast
      obtain ⟨j, hj⟩ := h.cached x (.inl hheld)
      have hji : j ≠ i := by
        rintro rfl
        rw [h.nused j x hj, Multiset.count_eq_zero] at hzero
        exact hzero hheld
      exact ⟨j, by rw [hother j hji, hj]⟩
    · rw [hs']
      have hnodup := nodup_cons.mp (hfree ▸ h.freeNodup)
      exact nodup_append.mpr ⟨hnodup.2, nodup_singleton i, fun a ha b hb heq =>
        hnodup.1 (mem_singleton.mp hb ▸ heq ▸ ha)⟩
    · intro j
      have hmem : j ∈ s'.free ↔ j ∈ rest ∨ j = i := by
        rw [hs']
        change j ∈ rest ++ [i] ↔ _
        simp
      rw [hmem]
      by_cases hji : j = i
      · simp [hji, hself]
      · rw [hother j hji, ← h.memFree j, hfree]
        simp [hji]
    · intro x hx hclean
      change ofImage _ = _
      rw [hread x hx]
      exact h.stored x hx hclean
    · intro x hx
      obtain ⟨hplace, hsum⟩ := h.sound x hx
      refine ⟨hplace, fun hclean => ?_⟩
      change readBlock _ 0 x.toNat 0 = _
      rw [hread x hplace]
      exact hsum hclean
    · rw [hs']
      exact h.journal

theorem Shows.tick (h : Shows unit s t) : Shows unit { s with ticks := s.ticks + 1 } t :=
  ⟨h.unique, h.place, h.header, h.nused, h.idle, h.dirty, h.cached, h.dirtyHeld, h.freeNodup, h.memFree, h.stored,
    h.sound, h.journal⟩

/-- Taking a header whose precondition holds. -/
theorem Shows.get (h : Shows unit s t) (hplace : (rules n unit intact).place x)
    (hready : x ∈ t.held ∨ t.last = some x ∨ t.held.card < (rules n unit intact).capacity ∧ x ∈ t.sound ∧
      (rules n unit intact).readable x (t.record x)) :
    (apaCacheGetHeader s x .read).1 = 0 ∧ Shows unit (apaCacheGetHeader s x .read).2 (taken t x) := by
  cases hfind : s.find x with
  | some i => exact h.hit hfind .read
  | none =>
    obtain ⟨hheld, hlast, -⟩ := h.notCached hfind
    obtain ⟨hroom, hsound, hmagic, hmbr⟩ := (hready.resolve_left hheld).resolve_left hlast
    exact h.miss hfind hplace hroom hsound hmagic hmbr

theorem apaCacheTransferRead_dev (h : (apaCacheTransferRead s i x).1 = 0) :
    (apaCacheTransferRead s i x).2.dev = s.dev := by
  unfold apaCacheTransferRead at h ⊢
  dsimp only at h ⊢
  rw [if_neg (not_not.mpr h)]
  rfl

/-- Taking a header without an error issues nothing. -/
theorem apaCacheGetHeader_dev {mode : IoMode} (h : (apaCacheGetHeader s x mode).1 = 0) :
    (apaCacheGetHeader s x mode).2.dev = s.dev := by
  unfold apaCacheGetHeader at h ⊢
  cases hfind : s.find x with
  | some i =>
    dsimp only
    split <;> rfl
  | none =>
    cases hfree : s.free with
    | nil => rfl
    | cons i rest =>
      cases mode with
      | write => rfl
      | read =>
        rw [hfind, hfree] at h
        dsimp only at h ⊢
        obtain ⟨s', hs'⟩ : ∃ s', s' = { s with free := rest }.setBuf i
          { s.cacheBuf i with dirty := false, nused := 1, sector := some x } := ⟨_, rfl⟩
        have hdev : s'.dev = s.dev := by
          rw [hs']
          rfl
        rw [← hs'] at h ⊢
        by_cases hneg : (apaCacheTransferRead s' i x).1 < 0
        · rw [if_pos hneg] at h
          rw [h] at hneg
          exact absurd hneg (lt_irrefl 0)
        · rw [if_neg hneg] at h ⊢
          exact (apaCacheTransferRead_dev h).trans hdev

theorem apaCacheFree_dev (s : Driver n) (x : Word) : (apaCacheFree s x).dev = s.dev := by
  unfold apaCacheFree
  split
  · rfl
  · dsimp only
    split
    · rfl
    · split <;> rfl

/-- To show something of how a program runs where its precondition holds: what it returns, that requests which leave
the disk alone do not matter, and what a flush and the clearing of sectors do. -/
theorem ApaProg.run_induction {Q : α → Known Word Header → Prop}
    {M : Driver n → Known Word Header → Option α × Driver n → Prop}
    (hdone : ∀ s t a, Shows unit s t → Q a t → M s t (some a, s))
    (hsame : ∀ s t {s' t' outcome}, M s' t' outcome → s'.dev = s.dev → t'.erased = t.erased → M s t outcome)
    (hflush : ∀ s t outcome, Shows unit s t → t.dirty.card ≤ 126 → intact t.record → t.erased = false →
      (Shows unit (apaCacheFlushAllDirty s) (flushed t) → M (apaCacheFlushAllDirty s) (flushed t) outcome) →
      M s t outcome)
    (herase : ∀ s t s' sectors outcome, t.erased = false → (∀ lba ∈ sectors, (rules n unit intact).aside lba) →
      s'.dev = s.dev.perform ((eraseWrites sectors).map .write) → M s' (erased t) outcome → M s t outcome)
    (p : ApaProg α) (h : Shows unit s t) (hp : p.wp (rules n unit intact) Q t) : M s t (p.run s) := by
  induction p generalizing s t with
  | done a => exact hdone s t a h hp
  | trap => exact hp.elim
  | get x next ih =>
    obtain ⟨hplace, hready, hnext⟩ := hp
    obtain ⟨hresult, hshows⟩ := h.get hplace hready
    have hgoal := hsame s t (ih 0 hshows hnext) (apaCacheGetHeader_dev hresult) rfl
    rw [← hresult] at hgoal
    exact hgoal
  | fresh x header next ih =>
    obtain ⟨hplace, hroom, hnext⟩ := hp
    obtain ⟨i, hresult, hfind, hshows⟩ := h.fresh hplace hroom header
    have hgoal := hsame s t (ih 0 hshows hnext) (apaCacheGetHeader_dev hresult) rfl
    rw [← hresult] at hgoal
    simpa only [ApaProg.run, hfind] using hgoal
  | read x next ih =>
    obtain ⟨hx, hnext⟩ := hp
    obtain ⟨i, hfind, hi⟩ := h.find_held hx
    have hgoal := ih (t.record x) h hnext
    rw [← h.header i x hi] at hgoal
    simpa only [ApaProg.run, hfind] using hgoal
  | update x change next ih =>
    obtain ⟨hx, hnext⟩ := hp
    obtain ⟨i, hfind, hi⟩ := h.find_held hx
    rw [← h.header i x hi] at hnext
    have hgoal := hsame s t (ih (h.put hi hx (s.cacheBuf i).checksum (change (s.cacheBuf i).header)) hnext) rfl rfl
    simpa only [ApaProg.run, hfind] using hgoal
  | release x next ih =>
    obtain ⟨hx, hdirty, hnext⟩ := hp
    exact hsame s t (ih (h.release hx hdirty) hnext) (apaCacheFree_dev s x) rfl
  | flush next ih =>
    obtain ⟨herased, hroom, hintact, hnext⟩ := hp
    exact hflush s t _ h hroom hintact herased fun hshows => ih hshows hnext
  | erase sectors next ih =>
    obtain ⟨herased, hroom, haside, hnext⟩ := hp
    obtain ⟨s', heq, hdev, hshows⟩ := h.erase hroom haside
    have hgoal := herase s t s' sectors _ herased haside hdev (ih hshows hnext)
    simpa only [ApaProg.run, heq] using hgoal
  | now next ih => exact hsame s t (ih _ h.tick (hp _)) rfl rfl

theorem ApaProg.run_of_wp {p : ApaProg α} {Q : α → Known Word Header → Prop}
    (hunit : 512 ∣ unit) (h : Shows unit s t) (hp : p.wp (rules n unit intact) Q t) :
    ∃ a t', (p.run s).1 = some a ∧ Shows unit (p.run s).2 t' ∧ Q a t' :=
  ApaProg.run_induction (M := fun _ _ outcome => ∃ a t', outcome.1 = some a ∧ Shows unit outcome.2 t' ∧ Q a t')
    (fun _ t a h hQ => ⟨a, t, rfl, h, hQ⟩) (fun _ _ _ _ _ h _ _ => h)
    (fun _ _ _ h hroom _ _ hrest => hrest (h.flush hunit hroom)) (fun _ _ _ _ _ _ _ _ => id) p h hp

open Option Driver

variable {n : ℕ} {α β : Type} {s s' : Driver n} {x y : Word} {i j : Fin n} {c : ℕ} {h : Header}

/-- A buffer holds a header with a number of references. -/
structure Pins (s : Driver n) (x : Word) (i : Fin n) (c : ℕ) (h : Header) : Prop where
  sector : (s.cacheBuf i).sector = some x
  unique : ∀ j, (s.cacheBuf j).sector = some x → j = i
  header : (s.cacheBuf i).header = h
  nused : (s.cacheBuf i).nused = c
  once : s.free.count i + min c 1 ≤ 1

theorem Pins.find (hp : Pins s x i c h) : s.find x = some i := by
  cases hfind : s.find x with
  | none => exact absurd hp.sector (find_none hfind i)
  | some j => rw [hp.unique j (find_some hfind)]

theorem Pins.taken (hp : Pins s x i (c + 1) h) : i ∉ s.free := by
  have := hp.once
  exact count_eq_zero.mp (by omega)

variable (hp : Pins s x i c h)

include hp

theorem Pins.other (hbuf : s'.cacheBuf i = s.cacheBuf i)
    (hsector : ∀ j, j ≠ i → (s'.cacheBuf j).sector ≠ some x) (hfree : s'.free.count i ≤ s.free.count i) :
    Pins s' x i c h := by
  refine ⟨by rw [hbuf, hp.sector], fun j hj => ?_, by rw [hbuf, hp.header], by rw [hbuf, hp.nused], ?_⟩
  · by_contra hne
    exact hsector j hne hj
  · have := hp.once
    omega

theorem Pins.setFree (free : List (Fin n)) (hfree : free.count i ≤ s.free.count i) :
    Pins ({ s with free := free } : Driver n) x i c h :=
  hp.other rfl (fun k hk hkx => hk (hp.unique k hkx)) hfree

/-- A change to another buffer that does not come to hold the header. -/
theorem Pins.setBuf (hj : j ≠ i) (buf : CacheBuf) (hbuf : buf.sector ≠ some x) : Pins (s.setBuf j buf) x i c h := by
  refine hp.other (update_of_ne hj.symm ..) (fun k hk => ?_) (le_refl _)
  by_cases hkj : k = j
  · rw [hkj]
    show (update s.cacheBuf j buf j).sector ≠ some x
    rwa [update_self]
  · show (update s.cacheBuf j buf k).sector ≠ some x
    rw [update_of_ne hkj]
    exact fun hkx => hk (hp.unique k hkx)

/-- A change of the buffer that goes on holding the header. -/
theorem Pins.setSelf (buf : CacheBuf) (free : List (Fin n)) (hbuf : buf.sector = some x)
    (hfree : free.count i + min buf.nused 1 ≤ 1) :
    Pins (({ s with free := free } : Driver n).setBuf i buf) x i buf.nused buf.header := by
  have hself : (({ s with free := free } : Driver n).setBuf i buf).cacheBuf i = buf := update_self ..
  refine ⟨by rw [hself, hbuf], fun j hj => ?_, by rw [hself], by rw [hself], hfree⟩
  by_contra hne
  have hother : (({ s with free := free } : Driver n).setBuf i buf).cacheBuf j = s.cacheBuf j :=
    update_of_ne hne ..
  rw [hother] at hj
  exact hne (hp.unique j hj)

omit hp

/-- Reading a header changes one buffer, and not the sector it is for. -/
theorem apaCacheTransferRead_buf (s : Driver n) (j : Fin n) (y : Word) :
    ∃ buf, (apaCacheTransferRead s j y).2.cacheBuf = update s.cacheBuf j buf ∧
      buf.sector = (s.cacheBuf j).sector ∧ (apaCacheTransferRead s j y).2.free = s.free := by
  unfold apaCacheTransferRead apaSaveError
  dsimp only
  split <;> simp only [setBuf, write, flushCache, update_idem, update_self]
  · exact ⟨_, rfl, rfl, trivial⟩
  · exact ⟨_, rfl, rfl, trivial⟩

/-- Reading another header. -/
theorem Pins.transferRead (hp : Pins s x i c h) (hj : j ≠ i) (hsector : (s.cacheBuf j).sector ≠ some x) :
    Pins (apaCacheTransferRead s j y).2 x i c h := by
  obtain ⟨buf, hbuf, hsame, hfree⟩ := apaCacheTransferRead_buf s j y
  refine hp.other (by rw [hbuf, update_of_ne hj.symm]) (fun k hk => ?_) (by rw [hfree])
  rw [hbuf]
  by_cases hkj : k = j
  · rw [hkj, update_self, hsame]
    exact hsector
  · rw [update_of_ne hkj]
    exact fun hkx => hk (hp.unique k hkx)

/-- Taking another header. -/
theorem Pins.get (hp : Pins s x i (c + 1) h) (hy : y ≠ x) (mode : IoMode) :
    Pins (apaCacheGetHeader s y mode).2 x i (c + 1) h := by
  have hself : ∀ (s : Driver n) j buf, (s.setBuf j buf).cacheBuf j = buf := fun s j buf => update_self ..
  have hyx : some y ≠ some x := fun heq => hy (some.inj heq)
  unfold apaCacheGetHeader
  split
  · next j hfind =>
    have hjy := find_some hfind
    have hj : j ≠ i := by
      rintro rfl
      exact hyx (hjy.symm.trans hp.sector)
    dsimp only
    split
    · exact (hp.setFree _ (erase_sublist.count_le i)).setBuf hj _ (by rw [hjy]; exact hyx)
    · exact hp.setBuf hj _ (by rw [hjy]; exact hyx)
  · split
    · exact hp
    · next j rest hfree =>
      have hj : j ≠ i := by
        rintro rfl
        exact hp.taken (by rw [hfree]; exact mem_cons_self)
      have hrest := hp.setFree rest (by rw [hfree]; exact (sublist_cons_self j rest).count_le i)
      have hset := hrest.setBuf hj { s.cacheBuf j with dirty := false, nused := 1, sector := some y } hyx
      cases mode with
      | write => exact hset
      | read =>
        have hread := hset.transferRead (y := y) hj (by rw [hself]; exact hyx)
        dsimp only
        split
        · refine Pins.setBuf ?_ hj _ (by simp)
          exact hread.setFree _ (by rw [count_cons_of_ne hj])
        · exact hread

/-- Taking the header once more. -/
theorem Pins.getSelf (hp : Pins s x i c h) (mode : IoMode) :
    (apaCacheGetHeader s x mode).1 = 0 ∧ Pins (apaCacheGetHeader s x mode).2 x i (c + 1) h := by
  unfold apaCacheGetHeader
  rw [hp.find]
  refine ⟨rfl, ?_⟩
  dsimp only
  have honce := hp.once
  rw [hp.nused]
  obtain rfl := hp.header
  split
  · next hzero =>
    refine hp.setSelf { s.cacheBuf i with nused := c + 1 } (s.free.erase i) hp.sector ?_
    rw [count_erase_self]
    omega
  · refine hp.setSelf { s.cacheBuf i with nused := c + 1 } s.free hp.sector ?_
    omega

/-- Giving another header back. -/
theorem Pins.freeOther (hp : Pins s x i c h) (hy : y ≠ x) : Pins (apaCacheFree s y) x i c h := by
  unfold apaCacheFree
  split
  · exact hp
  · next j hfind =>
    have hjy := find_some hfind
    have hj : j ≠ i := by
      rintro rfl
      exact hy (some.inj (hjy.symm.trans hp.sector))
    have hyx : some y ≠ some x := fun heq => hy (some.inj heq)
    dsimp only
    split
    · exact hp
    · have hset : Pins (s.setBuf j { s.cacheBuf j with nused := (s.cacheBuf j).nused - 1 }) x i c h :=
        hp.setBuf hj _ (by rw [hjy]; exact hyx)
      split
      · refine hset.setFree _ ?_
        rw [count_append, count_singleton, if_neg (by simpa using hj)]
        exact le_refl _
      · exact hset

/-- Giving the header back. -/
theorem Pins.freeSelf (hp : Pins s x i (c + 1) h) : Pins (apaCacheFree s x) x i c h := by
  have honce := hp.once
  unfold apaCacheFree
  rw [hp.find]
  dsimp only
  rw [hp.nused, if_neg (by omega), Nat.add_sub_cancel]
  obtain rfl := hp.header
  split
  · next hone =>
    obtain rfl : c = 0 := by omega
    refine hp.setSelf { s.cacheBuf i with nused := 0 } (s.free ++ [i]) hp.sector ?_
    show (s.free ++ [i]).count i + min 0 1 ≤ 1
    rw [count_append, count_singleton_self]
    omega
  · refine hp.setSelf { s.cacheBuf i with nused := c } s.free hp.sector ?_
    omega

theorem apaCacheFlushAllDirty_buf (s : Driver n) :
    (apaCacheFlushAllDirty s).cacheBuf = (fun i => (s.cacheBuf i).sealed.cleaned) ∧
      (apaCacheFlushAllDirty s).free = s.free := by
  rw [apaCacheFlushAllDirty, foldl_journalWrite]
  rw [foldl_transferWrite _ fun i => (s.cacheBuf i).sealed_sealed]
  exact ⟨rfl, rfl⟩

/-- A flush. -/
theorem Pins.flush (hp : Pins s x i c h) : Pins (apaCacheFlushAllDirty s) x i c h := by
  obtain ⟨hbuf, hfree⟩ := apaCacheFlushAllDirty_buf s
  obtain ⟨hsector, hheader, hnused, -⟩ := sealed_cleaned (s.cacheBuf i)
  refine ⟨?_, fun j hj => ?_, ?_, ?_, ?_⟩
  · rw [hbuf, hsector, hp.sector]
  · rw [hbuf, (sealed_cleaned (s.cacheBuf j)).1] at hj
    exact hp.unique j hj
  · rw [hbuf, hheader, hp.header]
  · rw [hbuf, hnused, hp.nused]
  · rw [hfree]
    exact hp.once

/-- Clearing sectors. -/
theorem Pins.erase (hp : Pins s x i (c + 1) h) {sectors : List ℕ} (hs : s.eraseAt sectors = some s') :
    Pins s' x i (c + 1) h := by
  cases hfree : s.free with
  | nil =>
    rw [eraseAt, apaCacheAlloc, hfree] at hs
    simp at hs
  | cons j rest =>
    have hj : j ≠ i := by
      rintro rfl
      exact hp.taken (by rw [hfree]; exact mem_cons_self)
    rw [eraseAt_eq hfree] at hs
    obtain rfl := some.inj hs
    have hset : Pins (({ s with free := rest ++ [j] } : Driver n).setBuf j ⟨false, 0, none, 0, .zero⟩) x i
      (c + 1) h := by
      refine (hp.setFree _ ?_).setBuf hj _ (by simp)
      rw [hfree, count_append, count_singleton, if_neg (by simpa using hj), count_cons_of_ne hj]
      exact le_refl _
    exact ⟨hset.sector, hset.unique, hset.header, hset.nused, hset.once⟩

/-- A header that is held is in a buffer. -/
theorem Shows.pins {unit : ℕ} {t : Known Word Header} (hs : Shows unit s t) (hx : x ∈ t.held) :
    ∃ i, Pins s x i (t.held.count x) (t.record x) := by
  obtain ⟨i, -, hi⟩ := hs.find_held hx
  refine ⟨i, hi, fun j hj => hs.unique j i x hj hi, hs.header i x hi, hs.nused i x hi, ?_⟩
  have hpos : 0 < t.held.count x := Multiset.count_pos.mpr hx
  have hnot : i ∉ s.free := fun hmem => by
    have := (hs.memFree i).mp hmem
    rw [hs.nused i x hi] at this
    omega
  rw [count_eq_zero.mpr hnot]
  omega

end Ps2sdk.Apa
