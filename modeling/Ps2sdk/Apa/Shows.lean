import Ps2sdk.Apa.Flush

/-!
# What the cache shows

`Shows` relates the cache and the drive to what a program knows: which headers there are, which
are held and which are dirty. Taking a header, changing it and giving it back keep the relation.
-/

namespace Ps2sdk.Apa

open Lib Function Multiset Finset Option Nat Driver

variable {n : ℕ}

/-- The rules for programs over `n` buffers, with headers at multiples of `unit`. -/
def rules (n unit : ℕ) (intact : (Word → Header) → Prop) : Discipline Word Header where
  capacity := n
  batch := 126
  place x := unit ∣ x.toNat
  readable x h := h.magic = apaMagic ∧ (x = 0 → h.mbr.magic = apaMBRMagic)
  aside lba := ∀ x : Word, unit ∣ x.toNat → lba + 1 < x.toNat ∨ x.toNat + 1 < lba
  intact := intact

/-- The cache and the drive show what is known. -/
structure Shows (unit : ℕ) (s : Driver n) (t : Known Word Header) : Prop where
  unique : ∀ i j x, (s.cacheBuf i).sector = some x → (s.cacheBuf j).sector = some x → i = j
  place : ∀ i x, (s.cacheBuf i).sector = some x → unit ∣ x.toNat
  header : ∀ i x, (s.cacheBuf i).sector = some x → (s.cacheBuf i).header = t.record x
  nused : ∀ i x, (s.cacheBuf i).sector = some x → (s.cacheBuf i).nused = t.held.count x
  idle : ∀ i, (s.cacheBuf i).sector = none → (s.cacheBuf i).nused = 0
  dirty : ∀ i x, (s.cacheBuf i).sector = some x → ((s.cacheBuf i).dirty = true ↔ x ∈ t.dirty)
  cached : ∀ x, x ∈ t.held ∨ t.last = some x → ∃ i, (s.cacheBuf i).sector = some x
  dirtyHeld : ∀ x ∈ t.dirty, x ∈ t.held
  freeNodup : s.free.Nodup
  memFree : ∀ i, i ∈ s.free ↔ (s.cacheBuf i).nused = 0
  stored : ∀ x : Word, unit ∣ x.toNat → x ∉ t.dirty → headerAt s.dev.contents x = t.record x
  sound : ∀ x ∈ t.sound, unit ∣ x.toNat ∧ (x ∉ t.dirty → checksumAt s.dev.contents x = apaCheckSum (t.record x))
  journal : s.journalBuf = .cleared

variable {unit : ℕ} {s : Driver n} {t t' : Known Word Header} {i : Fin n} {x : Word}

theorem Driver.find_some (h : s.find x = some i) : (s.cacheBuf i).sector = some x := by
  have hfound := List.find?_some (p := fun i => (s.cacheBuf i).sector == some x) h
  simpa using hfound

theorem Driver.find_none (h : s.find x = none) (j : Fin n) : (s.cacheBuf j).sector ≠ some x := by
  have hnone := List.find?_eq_none.mp h j (List.mem_finRange j)
  simpa using hnone

variable (h : Shows unit s t)

include h

theorem Shows.find_eq (hi : (s.cacheBuf i).sector = some x) : s.find x = some i := by
  cases hfind : s.find x with
  | none => exact absurd hi (find_none hfind i)
  | some j => rw [h.unique i j x hi (find_some hfind)]

theorem Shows.find_held (hx : x ∈ t.held) : ∃ i, s.find x = some i ∧ (s.cacheBuf i).sector = some x := by
  obtain ⟨i, hi⟩ := h.cached x (.inl hx)
  exact ⟨i, h.find_eq hi, hi⟩

/-- One buffer changes, and nothing else. -/
theorem Shows.change {buf : CacheBuf} {free : List (Fin n)} (hplace : unit ∣ x.toNat) (hbuf : buf.sector = some x)
    (hold : (s.cacheBuf i).sector = some x ∨
      (s.cacheBuf i).nused = 0 ∧ ∀ j, (s.cacheBuf j).sector ≠ some x)
    (hrecord : t'.record = update t.record x buf.header)
    (hheld : t'.held.count x = buf.nused) (hheldOther : ∀ y, y ≠ x → t'.held.count y = t.held.count y)
    (hdirty : x ∈ t'.dirty ↔ buf.dirty = true) (hdirtyOther : ∀ y, y ≠ x → (y ∈ t'.dirty ↔ y ∈ t.dirty))
    (hused : buf.dirty = true → buf.nused ≠ 0)
    (hlast : ∀ y, t'.last = some y → y = x ∨ (s.cacheBuf i).sector = some x ∧ t.last = some y)
    (hsound : t'.sound = t.sound) (hfree : free.Nodup)
    (hmem : i ∈ free ↔ buf.nused = 0) (hmemOther : ∀ j, j ≠ i → (j ∈ free ↔ j ∈ s.free))
    (hstored : x ∉ t'.dirty → headerAt s.dev.contents x = buf.header)
    (hsum : x ∈ t.sound → x ∉ t'.dirty → checksumAt s.dev.contents x = apaCheckSum buf.header) :
    Shows unit ({ s with free := free }.setBuf i buf) t' := by
  have hself : ({ s with free := free }.setBuf i buf).cacheBuf i = buf := update_self ..
  have hother : ∀ j, j ≠ i → ({ s with free := free }.setBuf i buf).cacheBuf j = s.cacheBuf j :=
    fun j hj => update_of_ne hj ..
  have hsector : ∀ j y, (({ s with free := free }.setBuf i buf).cacheBuf j).sector = some y →
      j = i ∧ y = x ∨ (j ≠ i ∧ y ≠ x) ∧ (s.cacheBuf j).sector = some y := by
    intro j y hj
    by_cases hji : j = i
    · rw [hji, hself, hbuf] at hj
      exact .inl ⟨hji, (some.inj hj).symm⟩
    · rw [hother j hji] at hj
      refine .inr ⟨⟨hji, ?_⟩, hj⟩
      rintro rfl
      rcases hold with hix | ⟨-, hnone⟩
      · exact hji (h.unique j i y hj hix)
      · exact hnone j hj
  have hrecordOther : ∀ y, y ≠ x → t'.record y = t.record y := fun y hy => by
    rw [hrecord, update_of_ne hy]
  refine ⟨?_, ?_, ?_, ?_, ?_, ?_, ?_, ?_, hfree, ?_, ?_, ?_, h.journal⟩
  · intro j k y hj hk
    rcases hsector j y hj with ⟨rfl, hyx⟩ | ⟨⟨-, hyx⟩, hj⟩ <;>
      rcases hsector k y hk with ⟨rfl, hyx'⟩ | ⟨⟨-, hyx'⟩, hk⟩
    · rfl
    · exact absurd hyx hyx'
    · exact absurd hyx' hyx
    · exact h.unique j k y hj hk
  · intro j y hj
    rcases hsector j y hj with ⟨-, rfl⟩ | ⟨-, hj⟩
    · exact hplace
    · exact h.place j y hj
  · intro j y hj
    rcases hsector j y hj with ⟨rfl, rfl⟩ | ⟨⟨hji, hyx⟩, hj⟩
    · rw [hself, hrecord, update_self]
    · rw [hother j hji, h.header j y hj, hrecordOther y hyx]
  · intro j y hj
    rcases hsector j y hj with ⟨rfl, rfl⟩ | ⟨⟨hji, hyx⟩, hj⟩
    · rw [hself, hheld]
    · rw [hother j hji, h.nused j y hj, hheldOther y hyx]
  · intro j hj
    by_cases hji : j = i
    · subst hji
      rw [hself, hbuf] at hj
      simp at hj
    · rw [hother j hji] at hj ⊢
      exact h.idle j hj
  · intro j y hj
    rcases hsector j y hj with ⟨rfl, rfl⟩ | ⟨⟨hji, hyx⟩, hj⟩
    · rw [hself, hdirty]
    · rw [hother j hji, h.dirty j y hj, hdirtyOther y hyx]
  · intro y hy
    by_cases hyx : y = x
    · exact ⟨i, by rw [hself, hbuf, hyx]⟩
    · have hknown : y ∈ t.held ∨ (s.cacheBuf i).sector = some x ∧ t.last = some y := by
        rcases hy with hy | hy
        · rw [← count_pos, hheldOther y hyx, count_pos] at hy
          exact .inl hy
        · exact .inr ((hlast y hy).resolve_left hyx)
      have hcached : ∃ j, (s.cacheBuf j).sector = some y := by
        rcases hknown with hy | ⟨-, hy⟩
        · exact h.cached y (.inl hy)
        · exact h.cached y (.inr hy)
      obtain ⟨j, hj⟩ := hcached
      have hji : j ≠ i := by
        rintro rfl
        rcases hknown with hheldy | ⟨hix, -⟩
        · rcases hold with hix | ⟨hzero, -⟩
          · exact hyx (some.inj (hj.symm.trans hix))
          · rw [h.nused j y hj, count_eq_zero] at hzero
            exact hzero hheldy
        · exact hyx (some.inj (hj.symm.trans hix))
      exact ⟨j, by rw [hother j hji, hj]⟩
  · intro y hy
    rw [← count_pos]
    by_cases hyx : y = x
    · rw [hyx] at hy ⊢
      rw [hheld]
      exact Nat.pos_of_ne_zero (hused (hdirty.mp hy))
    · rw [hheldOther y hyx]
      exact count_pos.mpr (h.dirtyHeld y ((hdirtyOther y hyx).mp hy))
  · intro j
    by_cases hji : j = i
    · rw [hji, hself]
      exact hmem
    · rw [hother j hji]
      exact (hmemOther j hji).trans (h.memFree j)
  · intro y hy hclean
    by_cases hyx : y = x
    · subst hyx
      rw [hrecord, update_self]
      exact hstored hclean
    · rw [hrecordOther y hyx]
      exact h.stored y hy (mt (hdirtyOther y hyx).mpr hclean)
  · intro y hy
    rw [hsound] at hy
    refine ⟨(h.sound y hy).1, fun hclean => ?_⟩
    by_cases hyx : y = x
    · subst hyx
      rw [hrecord, update_self]
      exact hsum hy hclean
    · rw [hrecordOther y hyx]
      exact (h.sound y hy).2 (mt (hdirtyOther y hyx).mpr hclean)

/-- A buffer that holds nothing in use is free to be taken. -/
theorem Shows.free_ne_nil (hroom : t.held.card < n) : s.free ≠ [] := by
  intro hnil
  have hall : ∀ i, ∃ x, (s.cacheBuf i).sector = some x ∧ x ∈ t.held := by
    intro i
    have hused : (s.cacheBuf i).nused ≠ 0 := fun hzero => by
      have hmem := (h.memFree i).mpr hzero
      rw [hnil] at hmem
      exact List.not_mem_nil hmem
    cases hsector : (s.cacheBuf i).sector with
    | none => exact absurd (h.idle i hsector) hused
    | some x =>
      rw [h.nused i x hsector] at hused
      exact ⟨x, rfl, count_ne_zero.mp hused⟩
  choose place hplace hheld using hall
  have hinj : Function.Injective place := fun i j hij =>
    h.unique i j (place i) (hplace i) (hij ▸ hplace j)
  have hcard : n ≤ t.held.toFinset.card := by
    have himage : univ.image place ⊆ t.held.toFinset := by
      intro y hy
      obtain ⟨i, -, rfl⟩ := mem_image.mp hy
      exact mem_toFinset.mpr (hheld i)
    have hle := card_le_card himage
    rwa [card_image_of_injective _ hinj, Finset.card_univ, Fintype.card_fin] at hle
  have := toFinset_card_le t.held
  omega

theorem Shows.notCached (hnone : s.find x = none) : x ∉ t.held ∧ t.last ≠ some x ∧ x ∉ t.dirty := by
  have hnot : ¬ (x ∈ t.held ∨ t.last = some x) := fun hx => by
    obtain ⟨i, hi⟩ := h.cached x hx
    exact find_none hnone i hi
  exact ⟨fun hx => hnot (.inl hx), fun hx => hnot (.inr hx), fun hx => hnot (.inl (h.dirtyHeld x hx))⟩

omit h

/-- The state that is known after a header has been taken. -/
def taken (t : Known Word Header) (x : Word) : Known Word Header := { t with held := x ::ₘ t.held, last := none }

/-- Taking a header that a buffer holds. -/
theorem Shows.hit (h : Shows unit s t) (hfind : s.find x = some i) (mode : IoMode) :
    (apaCacheGetHeader s x mode).1 = 0 ∧ Shows unit (apaCacheGetHeader s x mode).2 (taken t x) := by
  have hi := find_some hfind
  unfold apaCacheGetHeader
  rw [hfind]
  refine ⟨rfl, ?_⟩
  dsimp only
  have hstate : ∀ s' : Driver n, s' =
    { s with free := if (s.cacheBuf i).nused = 0 then s.free.erase i else s.free } →
      Shows unit (s'.setBuf i { s.cacheBuf i with nused := (s.cacheBuf i).nused + 1 }) (taken t x) := by
    rintro s' rfl
    refine h.change (h.place i x hi) hi (.inl hi) ?_ ?_ (fun y hyx => count_cons_of_ne hyx t.held)
      (h.dirty i x hi).symm (fun _ _ => Iff.rfl) (fun _ => succ_ne_zero _) ?_ rfl ?_ ?_ (fun j hji => ?_) ?_ ?_
    · rw [show (taken t x).record = t.record from rfl]
      exact (update_eq_self_iff.mpr (h.header i x hi)).symm
    · rw [h.nused i x hi]
      exact count_cons_self x t.held
    · intro y hy
      exact absurd hy (by simp [taken])
    · split
      · exact h.freeNodup.erase i
      · exact h.freeNodup
    · split
      · simp [h.freeNodup.mem_erase_iff]
      · next hused => simpa [h.memFree i] using hused
    · split
      · simp [h.freeNodup.mem_erase_iff, hji]
      · rfl
    · exact fun hclean => by rw [h.header i x hi]; exact h.stored x (h.place i x hi) hclean
    · exact fun hx hclean => by rw [h.header i x hi]; exact (h.sound x hx).2 hclean
  split
  · next hzero => exact hstate _ (by rw [if_pos hzero])
  · next hused => exact hstate _ (by rw [if_neg hused])

theorem Driver.setBuf_setBuf (s : Driver n) (i : Fin n) (buf buf' : CacheBuf) :
    (s.setBuf i buf).setBuf i buf' = s.setBuf i buf' := by
  simp [setBuf]

theorem Driver.setBuf_cacheBuf (s : Driver n) (i : Fin n) (buf : CacheBuf) : (s.setBuf i buf).cacheBuf i = buf :=
  update_self ..

/-- The only buffer with a sector is found. -/
theorem Driver.find_setBuf {buf : CacheBuf} (hbuf : buf.sector = some x)
    (hother : ∀ j, (s.cacheBuf j).sector ≠ some x) : (s.setBuf i buf).find x = some i := by
  cases hfind : (s.setBuf i buf).find x with
  | none => exact absurd (by rw [setBuf_cacheBuf, hbuf]) (find_none hfind i)
  | some j =>
    by_cases hji : j = i
    · rw [hji]
    · have hj := find_some hfind
      rw [show (s.setBuf i buf).cacheBuf j = s.cacheBuf j from update_of_ne hji ..] at hj
      exact absurd hj (hother j)

/-- A free buffer that is given to a header no buffer holds. -/
theorem Shows.replace {buf : CacheBuf} {rest : List (Fin n)} (h : Shows unit s t) (hplace : unit ∣ x.toNat)
    (hnone : s.find x = none) (hfree : s.free = i :: rest) (hsector : buf.sector = some x) (hnused : buf.nused = 1)
    (hrecord : t'.record = update t.record x buf.header) (hheld : t'.held = x ::ₘ t.held)
    (hdirty : x ∈ t'.dirty ↔ buf.dirty = true) (hdirtyOther : ∀ y, y ≠ x → (y ∈ t'.dirty ↔ y ∈ t.dirty))
    (hlast : t'.last = none) (hsound : t'.sound = t.sound)
    (hstored : x ∉ t'.dirty → headerAt s.dev.contents x = buf.header)
    (hsum : x ∈ t.sound → x ∉ t'.dirty → checksumAt s.dev.contents x = apaCheckSum buf.header) :
    Shows unit ({ s with free := rest }.setBuf i buf) t' := by
  have hzero : (s.cacheBuf i).nused = 0 := (h.memFree i).mp (hfree ▸ List.mem_cons_self)
  have hnodup : (i :: rest).Nodup := hfree ▸ h.freeNodup
  obtain ⟨hheldx, -, -⟩ := h.notCached hnone
  refine h.change hplace hsector (.inr ⟨hzero, find_none hnone⟩) hrecord ?_ (fun y hyx => ?_)
    hdirty hdirtyOther ?_ ?_ hsound (List.nodup_cons.mp hnodup).2 ?_ (fun j hji => ?_) hstored hsum
  · rw [hheld, hnused, count_cons_self, count_eq_zero_of_notMem hheldx]
  · rw [hheld, count_cons_of_ne hyx]
  · rw [hnused]
    exact fun _ => one_ne_zero
  · intro y hy
    rw [hlast] at hy
    simp at hy
  · rw [hnused]
    exact iff_of_false (List.nodup_cons.mp hnodup).1 one_ne_zero
  · rw [hfree, List.mem_cons, or_iff_right hji]

/-- Taking a header from the drive. -/
theorem Shows.miss (h : Shows unit s t) (hnone : s.find x = none) (hplace : unit ∣ x.toNat)
    (hroom : t.held.card < n) (hsound : x ∈ t.sound) (hmagic : (t.record x).magic = apaMagic)
    (hmbr : x = 0 → (t.record x).mbr.magic = apaMBRMagic) :
    (apaCacheGetHeader s x .read).1 = 0 ∧ Shows unit (apaCacheGetHeader s x .read).2 (taken t x) := by
  obtain ⟨-, -, hclean⟩ := h.notCached hnone
  have hheader := h.stored x hplace hclean
  have hchecksum := (h.sound x hsound).2 hclean
  have hread : apaReadHeader x (checksumAt s.dev.contents x) (headerAt s.dev.contents x) = 0 := by
    rw [hheader, hchecksum, apaReadHeader, if_neg (by simp [hmagic]), if_neg (by simp)]
    by_cases hx : x = 0
    · rw [if_pos hx, if_pos (hmbr hx)]
    · rw [if_neg hx]
  cases hfree : s.free with
  | nil => exact absurd hfree (h.free_ne_nil hroom)
  | cons i rest =>
    have hget : apaCacheGetHeader s x .read = (0, { s with free := rest }.setBuf i
        ⟨false, 1, some x, checksumAt s.dev.contents x, headerAt s.dev.contents x⟩) := by
      unfold apaCacheGetHeader
      rw [hnone, hfree]
      simp only [apaCacheTransferRead, setBuf_setBuf, setBuf_cacheBuf]
      have hdev : ({ s with free := rest }.setBuf i { s.cacheBuf i with
          dirty := false
          nused := 1
          sector := some x }).dev = s.dev := rfl
      rw [hdev, hread]
      simp [setBuf_cacheBuf, setBuf_setBuf]
    rw [hget]
    refine ⟨rfl, h.replace hplace hnone hfree rfl rfl ?_ rfl (iff_of_false hclean Bool.false_ne_true)
      (fun _ _ => Iff.rfl) rfl rfl (fun _ => rfl) fun _ _ => ?_⟩
    · rw [show (taken t x).record = t.record from rfl]
      exact (update_eq_self_iff.mpr hheader).symm
    · change checksumAt s.dev.contents x = apaCheckSum (headerAt s.dev.contents x)
      rw [hheader, hchecksum]

/-- The state that is known after a header has been changed. -/
def changed (t : Known Word Header) (x : Word) (header : Header) : Known Word Header :=
  { t with
    record := Function.update t.record x header
    dirty := insert x t.dirty }

theorem mem_changed (t : Known Word Header) (header : Header) (y : Word) (hyx : y ≠ x) :
    y ∈ (changed t x header).dirty ↔ y ∈ t.dirty :=
  mem_insert.trans (or_iff_right hyx)

/-- Changing a header that is held. -/
theorem Shows.put (h : Shows unit s t) (hi : (s.cacheBuf i).sector = some x) (hx : x ∈ t.held) (checksum : Word)
    (header : Header) : Shows unit
      (s.setBuf i { s.cacheBuf i with dirty := true, checksum := checksum, header := header })
      (changed t x header) := by
  have hcount : (s.cacheBuf i).nused ≠ 0 := by
    rw [h.nused i x hi]
    exact count_ne_zero.mpr hx
  have hdirty : x ∈ (changed t x header).dirty := mem_insert_self x t.dirty
  exact h.change (h.place i x hi) hi (.inl hi) rfl (h.nused i x hi).symm (fun _ _ => rfl) (iff_of_true hdirty rfl)
    (mem_changed t header) (fun _ => hcount) (fun y hy => .inr ⟨hi, hy⟩) rfl h.freeNodup (h.memFree i)
    (fun _ _ => Iff.rfl) (fun hclean => absurd hdirty hclean) (fun _ hclean => absurd hdirty hclean)

/-- A new header in a buffer that is taken for it. -/
theorem Shows.fresh (h : Shows unit s t) (hplace : unit ∣ x.toNat) (hroom : x ∈ t.held ∨ t.held.card < n)
    (header : Header) : ∃ i, (apaCacheGetHeader s x .write).1 = 0 ∧
      (apaCacheGetHeader s x .write).2.find x = some i ∧
      Shows unit ((apaCacheGetHeader s x .write).2.setBuf i
        { (apaCacheGetHeader s x .write).2.cacheBuf i with dirty := true, checksum := 0, header := header })
        (changed (taken t x) x header) := by
  cases hfind : s.find x with
  | some i =>
    obtain ⟨hresult, hshows⟩ := h.hit hfind .write
    obtain ⟨j, hj, hsector⟩ := hshows.find_held (mem_cons_self x t.held)
    exact ⟨j, hresult, hj, hshows.put hsector (mem_cons_self x t.held) 0 header⟩
  | none =>
    obtain ⟨hheld, -, -⟩ := h.notCached hfind
    cases hfree : s.free with
    | nil => exact absurd hfree (h.free_ne_nil (hroom.resolve_left hheld))
    | cons i rest =>
      have hget : apaCacheGetHeader s x .write = (0, { s with free := rest }.setBuf i
          { s.cacheBuf i with dirty := false, nused := 1, sector := some x }) := by
        unfold apaCacheGetHeader
        rw [hfind, hfree]
      rw [hget]
      refine ⟨i, rfl, find_setBuf rfl (find_none hfind), ?_⟩
      rw [setBuf_cacheBuf, setBuf_setBuf]
      have hdirty : x ∈ (changed (taken t x) x header).dirty := mem_insert_self x t.dirty
      exact h.replace hplace hfind hfree rfl rfl rfl rfl (iff_of_true hdirty rfl) (mem_changed (taken t x) header)
        rfl rfl (fun hclean => absurd hdirty hclean) (fun _ hclean => absurd hdirty hclean)

/-- The state that is known after a header has been given back. -/
def returned (t : Known Word Header) (x : Word) : Known Word Header :=
  { t with held := t.held.erase x, last := some x }

/-- Giving a header back. -/
theorem Shows.release (h : Shows unit s t) (hx : x ∈ t.held) (hdirty : x ∈ t.dirty → x ∈ t.held.erase x) :
    Shows unit (apaCacheFree s x) (returned t x) := by
  obtain ⟨i, hfind, hi⟩ := h.find_held hx
  have hnused := h.nused i x hi
  have hpos : t.held.count x ≠ 0 := count_ne_zero.mpr hx
  have hchange : ∀ free : List (Fin n), free.Nodup → (i ∈ free ↔ (s.cacheBuf i).nused - 1 = 0) →
      (∀ j, j ≠ i → (j ∈ free ↔ j ∈ s.free)) →
      Shows unit ({ s with free := free }.setBuf i { s.cacheBuf i with nused := (s.cacheBuf i).nused - 1 })
        (returned t x) := by
    intro free hnodup hmem hmemOther
    refine h.change (h.place i x hi) hi (.inl hi) ?_ ?_ (fun y hyx => count_erase_of_ne hyx t.held)
      (h.dirty i x hi).symm (fun _ _ => Iff.rfl) ?_ ?_ rfl hnodup hmem hmemOther ?_ ?_
    · exact (update_eq_self_iff.mpr (h.header i x hi)).symm
    · rw [hnused]
      exact count_erase_self x t.held
    · intro hisdirty hzero
      have hstill := hdirty ((h.dirty i x hi).mp hisdirty)
      rw [← count_pos, count_erase_self, ← hnused] at hstill
      dsimp only at hzero
      omega
    · intro y hy
      exact .inl (some.inj hy).symm
    · exact fun hclean => by rw [h.header i x hi]; exact h.stored x (h.place i x hi) hclean
    · exact fun hxs hclean => by rw [h.header i x hi]; exact (h.sound x hxs).2 hclean
  unfold apaCacheFree
  rw [hfind]
  dsimp only
  rw [if_neg (by rw [hnused]; exact hpos)]
  have hnotFree : i ∉ s.free := by
    rw [h.memFree, hnused]
    exact hpos
  split
  · next hone =>
    refine hchange (s.free ++ [i]) ?_ (by simp [hone]) fun j hji => by simp [hji]
    exact List.nodup_append.mpr ⟨h.freeNodup, List.nodup_singleton i, fun a ha b hb heq =>
        hnotFree (List.mem_singleton.mp hb ▸ heq ▸ ha)⟩
  · next hmore =>
    refine hchange s.free h.freeNodup (iff_of_false hnotFree ?_) fun _ _ => Iff.rfl
    rw [hnused] at hmore ⊢
    omega

end Ps2sdk.Apa
