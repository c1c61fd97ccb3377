import Ps2sdk.Apa.Create
import Ps2sdk.Apa.Simulation

/-!
# Requests that destroy the table

`apaOpen` creates a partition without checking that the name gave a size, and checks in 32-bit arithmetic that there
is space behind the table. Without a size nothing is left of a free block, or the driver divides by zero; the
headers written on the way overlap, so this is about runs on any cache. Where the space behind the table ends at
sector 2³², the new header takes the place of the first one.
-/

namespace Ps2sdk.Apa

open Lib ApaProg List BitVec Multiset Option

variable {n : ℕ} {α β : Type} {s s' : Driver n} {x y : Word} {i j : Fin n} {c : ℕ} {h : Header}

/-- Running one program after another. -/
theorem ApaProg.run_bind (p : ApaProg α) (f : α → ApaProg β) (s : Driver n) : (p >>= f).run s = match p.run s with
      | (some a, s') => (f a).run s'
      | (none, s') => (none, s') := by
  change ApaProg.run (p.bind f) s = _
  induction p generalizing s with
  | done a => rfl
  | trap => rfl
  | get x next ih => exact ih _ _
  | fresh x header next ih =>
    simp only [Prog.bind, run]
    split
    · exact ih _ _
    · exact ih _ _
  | read x next ih =>
    simp only [Prog.bind, run]
    split
    · exact ih _ _
    · rfl
  | update x change next ih =>
    simp only [Prog.bind, run]
    split
    · exact ih _
    · rfl
  | release x next ih => exact ih _
  | flush next ih => exact ih _
  | erase sectors next ih =>
    simp only [Prog.bind, run]
    split
    · exact ih _
    · rfl
  | now next ih => exact ih _ _

/-- If a program returns, its result and the driver are as told. -/
def Ends (Post : α → Driver n → Prop) (p : ApaProg α) (s : Driver n) : Prop :=
  ∀ a, (p.run s).1 = some a → Post a (p.run s).2

variable {Post : α → Driver n → Prop}

/-- One program after another. -/
theorem Ends.bind {p : ApaProg β} {f : β → ApaProg α} (hp : Ends (fun b s' => Ends Post (f b) s') p s) :
    Ends Post (p >>= f) s := by
  intro a ha
  rw [run_bind] at ha ⊢
  cases hrun : p.run s with
  | mk result s' =>
    rw [hrun] at ha
    cases result with
    | none => simp at ha
    | some b =>
      have hb := hp b (by rw [hrun])
      rw [hrun] at hb
      exact hb a ha

theorem Ends.pure {a : α} (h : Post a s) : Ends Post (Pure.pure a : ApaProg α) s := by
  intro b hb
  obtain rfl := some.inj hb
  exact h

theorem Ends.trap : Ends Post (.trap : ApaProg α) s := fun _ ha => absurd ha (some_ne_none _).symm

section Rules

variable (hp : Pins s x i (c + 1) h)

include hp

theorem Pins.endsGet {f : ℤ → ApaProg α} (hy : y ≠ x)
    (hnext : ∀ s', Pins s' x i (c + 1) h → Ends Post (f (apaCacheGetHeader s y .read).1) s') :
    Ends Post (getHeader y >>= f) s := hnext _ (hp.get hy .read)

theorem Pins.endsRead {f : Header → ApaProg α} (hnext : Ends Post (f h) s) :
    Ends Post (ApaProg.header x >>= f) s := by
  intro a ha
  change (ApaProg.run (.read x f) s).1 = some a at ha
  change Post a (ApaProg.run (.read x f) s).2
  simp only [ApaProg.run, hp.find, hp.header] at ha ⊢
  exact hnext a ha

variable {f : Unit → ApaProg α}

/-- Changing the header. -/
theorem Pins.endsChange (change : Header → Header)
    (hnext : ∀ s', Pins s' x i (c + 1) (change h) → Ends Post (f ()) s') :
    Ends Post (setHeader x change >>= f) s := by
  intro a ha
  change (ApaProg.run (.update x change (f ())) s).1 = some a at ha
  change Post a (ApaProg.run (.update x change (f ())) s).2
  simp only [ApaProg.run, hp.find] at ha ⊢
  refine hnext _ ?_ a ha
  have hset := hp.setSelf { s.cacheBuf i with dirty := true, header := change (s.cacheBuf i).header } s.free
    hp.sector (by rw [hp.nused]; exact hp.once)
  exact ⟨hset.sector, hset.unique, hset.header.trans (congrArg change hp.header), hset.nused.trans hp.nused,
    hp.once⟩

/-- Changing another header. -/
theorem Pins.endsChangeOther (hy : y ≠ x) (change : Header → Header)
    (hnext : ∀ s', Pins s' x i (c + 1) h → Ends Post (f ()) s') : Ends Post (setHeader y change >>= f) s := by
  intro a ha
  change (ApaProg.run (.update y change (f ())) s).1 = some a at ha
  change Post a (ApaProg.run (.update y change (f ())) s).2
  cases hfind : s.find y with
  | none =>
    simp only [ApaProg.run, hfind] at ha
    simp at ha
  | some j =>
    have hjy := Driver.find_some hfind
    have hj : j ≠ i := by
      rintro rfl
      exact hy (some.inj (hjy.symm.trans hp.sector))
    simp only [ApaProg.run, hfind] at ha ⊢
    exact hnext _ (hp.setBuf hj _ (by rw [hjy]; exact fun heq => hy (some.inj heq))) a ha

/-- Writing another header. -/
theorem Pins.endsFresh {f : ℤ → ApaProg α} (hy : y ≠ x) (record : Header)
    (hnext : ∀ err s', Pins s' x i (c + 1) h → Ends Post (f err) s') : Ends Post (newHeader y record >>= f) s := by
  intro a ha
  change (ApaProg.run (.fresh y record f) s).1 = some a at ha
  change Post a (ApaProg.run (.fresh y record f) s).2
  have hget := hp.get hy .write
  cases hfind : (apaCacheGetHeader s y .write).2.find y with
  | none =>
    simp only [ApaProg.run, hfind] at ha ⊢
    exact hnext _ _ hget a ha
  | some j =>
    have hjy := Driver.find_some hfind
    have hj : j ≠ i := by
      rintro rfl
      exact hy (some.inj (hjy.symm.trans hget.sector))
    simp only [ApaProg.run, hfind] at ha ⊢
    exact hnext _ _ (hget.setBuf hj _ (by rw [hjy]; exact fun heq => hy (some.inj heq))) a ha

theorem Pins.endsFree (hy : y ≠ x)
    (hnext : ∀ s', Pins s' x i (c + 1) h → Ends Post (f ()) s') : Ends Post (ApaProg.free y >>= f) s :=
  hnext _ (hp.freeOther hy)

theorem Pins.endsFreeSelf (hnext : ∀ s', Pins s' x i c h → Ends Post (f ()) s') :
    Ends Post (ApaProg.free x >>= f) s :=
  hnext _ hp.freeSelf

theorem Pins.endsFlush (hnext : ∀ s', Pins s' x i (c + 1) h → Ends Post (f ()) s') :
    Ends Post (flushAllDirty >>= f) s :=
  hnext _ hp.flush

/-- Clearing sectors. -/
theorem Pins.endsErase (sectors : List ℕ)
    (hnext : ∀ s', Pins s' x i (c + 1) h → Ends Post (f ()) s') : Ends Post (eraseSectors sectors >>= f) s := by
  intro a ha
  change (ApaProg.run (.erase sectors (f ())) s).1 = some a at ha
  change Post a (ApaProg.run (.erase sectors (f ())) s).2
  cases herase : s.eraseAt sectors with
  | none =>
    simp only [ApaProg.run, herase] at ha
    simp at ha
  | some s' =>
    simp only [ApaProg.run, herase] at ha ⊢
    exact hnext s' (hp.erase herase) a ha

end Rules

/-- Writing the header anew. -/
theorem Pins.endsFreshSelf {f : ℤ → ApaProg α} (hp : Pins s x i c h) (record : Header)
    (hnext : ∀ s', Pins s' x i (c + 1) record → Ends Post (f 0) s') : Ends Post (newHeader x record >>= f) s := by
  obtain ⟨hzero, hget⟩ := hp.getSelf .write
  intro a ha
  change (ApaProg.run (.fresh x record f) s).1 = some a at ha
  change Post a (ApaProg.run (.fresh x record f) s).2
  simp only [ApaProg.run, hget.find, hzero] at ha ⊢
  refine hnext _ ?_ a ha
  have hset := hget.setSelf { (apaCacheGetHeader s x .write).2.cacheBuf i with
    dirty := true, checksum := 0, header := record } _ hget.sector (by rw [hget.nused]; exact hget.once)
  exact ⟨hset.sector, hset.unique, hset.header, hset.nused.trans hget.nused, hget.once⟩

theorem Pins.endsTime {f : Time → ApaProg α} (hp : Pins s x i c h)
    (hnext : ∀ time s', Pins s' x i c h → Ends Post (f time) s') : Ends Post (getTime >>= f) s :=
  hnext _ { s with ticks := s.ticks + 1 } ⟨hp.sector, hp.unique, hp.header, hp.nused, hp.once⟩

/-- The errors of `apaCacheGetHeader`. -/
theorem apaCacheGetHeader_code (s : Driver n) (y : Word) (mode : IoMode) :
    (apaCacheGetHeader s y mode).1 = 0 ∨ (apaCacheGetHeader s y mode).1 = -5 ∨ (apaCacheGetHeader s y mode).1 =
      -12 := by
  have hread : ∀ (s : Driver n) j, (apaCacheTransferRead s j y).1 = 0 ∨ (apaCacheTransferRead s j y).1 = -5 := by
    intro s j
    show apaReadHeader y _ _ = 0 ∨ apaReadHeader y _ _ = -5
    unfold apaReadHeader
    split
    · exact .inr rfl
    · split
      · exact .inr rfl
      · split
        · split
          · exact .inl rfl
          · exact .inr rfl
        · exact .inl rfl
  unfold apaCacheGetHeader
  split
  · exact .inl rfl
  · split
    · exact .inr (.inr rfl)
    · cases mode with
      | write => exact .inl rfl
      | read =>
        dsimp only
        split
        · exact (hread _ (by assumption)).imp id .inl
        · exact (hread _ (by assumption)).imp id .inl

/-- One turn of the loop of `apaInsertPartition` without a size. -/
theorem insertLoop_turn {Post : ℤ → Driver n → Prop} {turns : ℕ} (hp : Pins s x i 1 h) (hlength : h.length ≠ 0)
    (hnext : h.next ≠ x) (hstart : h.start = x)
    (hfail : (apaCacheGetHeader s h.next .read).1 ≠ 0 → ∀ s', Pins s' x i 0 h →
      Post (apaCacheGetHeader s h.next .read).1 s')
    (hloop : ∀ s' h', Pins s' x i 1 h' → h'.length = h.length >>> 1 → h'.start = x → (h'.length = 0 ∨ h'.next ≠ x) →
      Ends Post (insertLoop 0 x turns) s') : Ends Post (insertLoop 0 x (turns + 1)) s := by
  refine hp.endsRead ?_
  rw [if_neg hlength]
  refine hp.endsGet hnext fun s1 hp1 => ?_
  by_cases herr : (apaCacheGetHeader s h.next .read).1 = 0
  · rw [herr, if_neg (not_not.mpr rfl), hstart]
    refine hp1.endsChange _ fun s2 hp2 => ?_
    by_cases hhalf : h.length >>> 1 = 0
    · -- the header of the upper half takes the place of the block itself
      rw [hhalf, show x + (0 : Word) = x from BitVec.add_zero x]
      refine Ends.bind ?_
      refine hp2.endsTime fun created s3 hp3 => ?_
      refine hp3.endsFreshSelf _ fun s4 hp4 => ?_
      rw [if_pos rfl]
      refine Ends.pure ?_
      refine hp4.endsChange _ fun s5 hp5 => ?_
      refine hp5.endsChangeOther hnext _ fun s6 hp6 => ?_
      refine hp6.endsFlush fun s7 hp7 => ?_
      refine hp7.endsFreeSelf fun s8 hp8 => ?_
      refine hp8.endsFree hnext fun s9 hp9 => ?_
      exact hloop s9 _ hp9 hhalf.symm rfl (.inl rfl)
    · have hmid : x + h.length >>> 1 ≠ x := fun heq => hhalf (eq_of_toNat_eq (by
        have hsum := congrArg BitVec.toNat heq
        rw [toNat_add] at hsum
        show (h.length >>> 1).toNat = 0
        omega))
      refine Ends.bind ?_
      refine hp2.endsTime fun created s3 hp3 => ?_
      refine hp3.endsFresh hmid _ fun err s4 hp4 => ?_
      split
      · refine Ends.pure ?_
        refine hp4.endsChange _ fun s5 hp5 => ?_
        refine hp5.endsChangeOther hnext _ fun s6 hp6 => ?_
        refine hp6.endsFlush fun s7 hp7 => ?_
        refine hp7.endsFree hmid fun s8 hp8 => ?_
        refine hp8.endsFree hnext fun s9 hp9 => ?_
        exact hloop s9 _ hp9 rfl hstart (.inr hmid)
      · exact Ends.pure Ends.trap
  · rw [if_pos herr]
    exact hp1.endsFreeSelf fun s2 hp2 => Ends.pure (hfail herr s2 hp2)

/-- The loop of `apaInsertPartition` without a size: nothing is left of the block. -/
theorem insertLoop_zero (turns : ℕ) (hp : Pins s x i 1 h) (hnext : h.length = 0 ∨ h.next ≠ x)
    (hstart : h.start = x) : Ends (fun err s' => err = 0 ∧ (∃ h', Pins s' x i 1 h' ∧ h'.length = 0 ∧ h'.start = x) ∨
      (err = -5 ∨ err = -12) ∧ ∃ h', Pins s' x i 0 h' ∧ h'.length.toNat ≤ h.length.toNat)
        (insertLoop 0 x turns) s := by
  induction turns generalizing s h with
  | zero => exact Ends.trap
  | succ turns ih =>
    by_cases hlength : h.length = 0
    · unfold insertLoop
      refine hp.endsRead ?_
      rw [if_pos hlength]
      exact Ends.pure (.inl ⟨rfl, h, hp, hlength, hstart⟩)
    · refine insertLoop_turn hp hlength (hnext.resolve_left hlength) hstart (fun herr s' hp' => ?_)
        fun s' h' hp' hlength' hstart' hnext' => ?_
      · exact .inr ⟨(apaCacheGetHeader_code s h.next .read).resolve_left herr, h, hp', le_refl _⟩
      · intro a ha
        rcases ih hp' hnext' hstart' a ha with hdone | ⟨herr, h'', hp'', hle⟩
        · exact .inl hdone
        · refine .inr ⟨herr, h'', hp'', hle.trans ?_⟩
          rw [hlength', toNat_ushiftRight]
          exact Nat.shiftRight_le _ _

theorem Shows.ends_bind {unit : ℕ} {t : Known Word Header} {p : ApaProg β} {f : β → ApaProg α}
    {Q : β → Known Word Header → Prop} (hs : Shows unit s t) (hunit : 512 ∣ unit)
    (hp : p.wp (tableRules n unit) Q t)
    (hnext : ∀ a t' s', Shows unit s' t' → Q a t' → Ends Post (f a) s') : Ends Post (p >>= f) s := by
  refine Ends.bind fun a ha => ?_
  obtain ⟨b, t', hb, hs', hQ⟩ := ApaProg.run_of_wp hunit hs hp
  obtain rfl := some.inj (hb.symm.trans ha)
  exact hnext b t' _ hs' hQ

variable {v : Word → Header} {xs : List Word} {t : Known Word Header}

/-- `apaInsertPartition` without a size. -/
theorem Shows.insertPartition_zero {params : Params} {f : ℤ × Option Word → ApaProg α} (hs : Shows (2 ^ 18) s t)
    (h : At (2 ^ 18) v xs 0 t) (hx : x ∈ 0 :: xs) (hfree : (v x).type = apaTypeFree) (hsize : params.size = 0)
    (hn : 2 ≤ n)
    (hfail : ∀ err i h' s', err = -5 ∨ err = -12 → Pins s' x i 0 h' → h'.length.toNat < (v x).length.toNat →
      Ends Post (f (err, none)) s')
    (hdone : ∀ i h' s', Pins s' x i 1 h' → h'.length = 0 → Ends Post (f (0, some x)) s') :
    Ends Post (apaInsertPartition params x >>= f) s := by
  have hsound := h.table.sound x hx
  have hx0 := h.table.free_ne_zero hfree
  have hlength : 2 ^ 18 ≤ (v x).length.toNat := Nat.le_of_dvd hsound.positive hsound.coarse
  have hunit : 512 ∣ 2 ^ 18 := pow_dvd_pow 2 (show 9 ≤ 18 by decide)
  obtain ⟨l, r, hxs⟩ := append_of_mem hx
  obtain ⟨z, r', -, hnext, hztable, hzx, -⟩ := h.table.successor hxs
  unfold apaInsertPartition
  rw [hsize]
  refine Ends.bind ?_
  refine hs.ends_bind hunit (h.get (f := .done) (Q := fun err t => err = 0 ∧ At (2 ^ 18) v xs {x} t) hx
    (.inr (by rw [card_zero]; omega)) fun t ht => ⟨rfl, ht⟩) ?_
  rintro err t1 s1 hs1 ⟨rfl, ht1⟩
  rw [if_neg (not_not.mpr rfl)]
  obtain ⟨i, hp⟩ := hs1.pins (x := x) (by rw [ht1.draft.held]; exact Multiset.mem_singleton_self x)
  rw [ht1.draft.held, Multiset.count_singleton_self, ht1.draft.record] at hp
  have hread : (apaCacheGetHeader s1 (v x).next .read).1 = 0 := by
    rw [hnext]
    have hzsound := h.table.sound z hztable
    refine (hs1.get (show (tableRules n (2 ^ 18)).place z from hzsound.place)
      (.inr (.inr ⟨?_, ht1.draft.sound z hztable, ?_, ?_⟩))).1
    · rw [ht1.draft.held]
      exact hn
    · rw [ht1.draft.record]
      exact hzsound.magic
    · rintro rfl
      rw [ht1.draft.record]
      exact h.table.mbr
  refine Ends.bind ?_
  -- the first turn does not fail, so every result is smaller than the block was
  have hloop : Ends (fun err s' => err = 0 ∧ (∃ h', Pins s' x i 1 h' ∧ h'.length = 0 ∧ h'.start = x) ∨
      (err = -5 ∨ err = -12) ∧ ∃ h', Pins s' x i 0 h' ∧ h'.length.toNat < (v x).length.toNat)
      (insertLoop 0 x sizeTurns) s1 := by
    refine insertLoop_turn hp (fun hzero => ?_) (by rw [hnext]; exact hzx hx0) hsound.start
      (fun hne => absurd hread hne) fun s' h' hp' hlength' hstart' hnext' => ?_
    · rw [hzero] at hlength
      exact absurd hlength (by decide)
    · intro a ha
      rcases insertLoop_zero _ hp' hnext' hstart' a ha with hzero | ⟨herr, h'', hp'', hle⟩
      · exact .inl hzero
      · refine .inr ⟨herr, h'', hp'', lt_of_le_of_lt hle ?_⟩
        rw [hlength', toNat_ushiftRight, Nat.shiftRight_one]
        omega
  intro err herr
  rcases hloop err herr with ⟨rfl, h', hp', hlength', hstart'⟩ | ⟨hcode, h', hp', hlt⟩
  · rw [if_neg (not_not.mpr rfl)]
    refine hp'.endsRead ?_
    refine hp'.endsFreeSelf fun s2 hp2 => ?_
    refine Ends.bind ?_
    refine hp2.endsTime fun created s3 hp3 => ?_
    rw [hstart']
    refine hp3.endsFreshSelf _ fun s4 hp4 => ?_
    rw [if_pos rfl]
    refine Ends.pure ?_
    exact hp4.endsFlush fun s5 hp5 => Ends.pure (hdone i _ s5 hp5 rfl)
  · rw [if_pos (by rcases hcode with rfl | rfl <;> decide)]
    exact Ends.pure (hfail err i h' _ hcode hp' hlt)

open Nat

variable {n : ℕ} {α β : Type} {s : Driver n} {x p : Word} {i : Fin n} {v : Word → Header} {xs l : List Word}
  {t : Known Word Header} {device : Device} {slot : FileSlot} {params : Params} {flags : OpenFlags}

/-- What is left of a block when a partition without a size has been created in it, or has not. -/
def Shrunk (s : Driver n) (x : Word) (length : ℕ) (rv : ℤ) : Prop :=
  ∃ i h, Pins s x i 0 h ∧ (h.length = 0 ∨ (rv = -5 ∨ rv = -12) ∧ h.length.toNat < length)

/-- `apaOpen` without a size. -/
theorem Driver.Stores.open_zero (slot : FileSlot) (h : s.Stores (2 ^ 18) xs) (hn : 3 ≤ n)
    (hcreates : Creates device s.headers xs params flags) (hsize : params.size = 0) :
    Ends (fun result s' => ∃ x ∈ 0 :: xs, Shrunk s' x (s.headers x).length.toNat result.1)
      (apaOpen device slot params flags) s := by
  have hunit : 512 ∣ 2 ^ 18 := pow_dvd_pow 2 (show 9 ≤ 18 by decide)
  have hat := h.at
  have hs := h.shows
  generalize s.headers = v at *
  refine hs.ends_bind hunit (hat.get (f := .done) (Q := fun err t => err = 0 ∧ At (2 ^ 18) v xs {0} t) mem_cons_self
    (.inr (by rw [card_zero]; omega)) fun t ht => ⟨rfl, ht⟩) ?_
  rintro err t1 s1 hs1 ⟨rfl, ht1⟩
  rw [if_neg (not_not.mpr rfl)]
  refine hs1.ends_bind hunit (openLoop_wp (Q := fun a t => ∃ p, (∃ l', 0 :: xs = l' ++ [p]) ∧
      a = (0, none, p, addEmptyBlocks v (0 :: xs) fun _ => 0) ∧ At (2 ^ 18) v xs 0 t) params.id walkTurns
        (fun _ => 0) ht1
    (l := []) rfl
    (ht1.table.length_lt (pow_dvd_pow 2 (by decide)) (l := []) rfl)
    (by rw [card_zero]; omega) (fun l' y r' hsplit hy => absurd hy (hcreates.missing y (by rw [hsplit]; simp)))
    fun _ l' y hsplit t ht => ⟨y, ⟨l', hsplit⟩, rfl, ht⟩) ?_
  rintro _ t2 s2 hs2 ⟨p, ⟨l', hxs⟩, rfl, ht2⟩
  dsimp only
  rw [if_neg (not_not.mpr rfl), if_pos hcreates.creat]
  refine Ends.bind ?_
  unfold openCreate hddCheckPartitionMax
  rw [if_pos hcreates.small, if_neg (by decide)]
  unfold hddAddPartitionHere
  rcases ht2.table.names.find params.size ht2.table.sound with ⟨j, k, hfind, hmem, hfree, -, -⟩ | ⟨hfind, -⟩
  · rw [hfind]
    dsimp only
    generalize addEmptyBlocks v (0 :: xs) (fun _ => 0) j = x at *
    refine hs2.insertPartition_zero ht2 hmem hfree hsize (by omega) (fun err i h' s3 herr hp hlt => ?_)
      fun i h' s3 hp hlength => ?_
    · exact Ends.pure (Ends.pure ⟨x, hmem, i, h', hp, .inr ⟨herr, hlt⟩⟩)
    · dsimp only
      refine hp.endsRead ?_
      refine hp.endsErase _ fun s4 hp4 => Ends.pure ?_
      refine hp4.endsRead ?_
      exact hp4.endsFreeSelf fun s5 hp5 => Ends.pure ⟨x, hmem, i, h', hp5, .inl hlength⟩
  · rw [hfind]
    refine Ends.bind ?_
    refine hs2.ends_bind hunit (ht2.get (f := .done) (Q := fun err t => err = 0 ∧ At (2 ^ 18) v xs {p} t)
      (by rw [hxs]; simp) (.inr (by rw [card_zero]; omega)) fun t ht => ⟨rfl, ht⟩) ?_
    rintro err t3 s3 hs3 ⟨rfl, ht3⟩
    rw [if_neg (not_not.mpr rfl)]
    refine hs3.ends_bind hunit (ht3.draft.read (f := .done) (Q := fun _ _ => True)
      (Multiset.mem_singleton_self p) trivial) ?_
    intro h' t4 s4 _ _
    rw [if_pos hsize]
    exact Ends.trap

/-- The rules without a table. -/
abbrev anyRules (n : ℕ) : Discipline Word Header := rules n (2 ^ 18) fun _ => True

theorem Params.header_mbr (params : Params) (x next prev length : Word) (created : Time) :
    (params.header x next prev length created).mbr.magic ≠ apaMBRMagic := by
  intro heq
  have hzero : (0 : Word) = apaMBRMagic 0 := congrFun heq 0
  exact absurd hzero (by decide)

/-- The part of `hddAddPartitionHere` that appends, where the new header takes the place of the first one. -/
theorem At.append_wraps {Q : ℤ × Option Word → Known Word Header → Prop} {j : ℕ} (h : At (2 ^ 18) v xs 0 t)
    (hxs : 0 :: xs = l ++ [p]) (hsize : params.size.toNat = 2 ^ j) (hj : 18 ≤ j)
    (href : ¬ device.refuses (p.toNat + (v p).length.toNat) (2 ^ j))
    (hwrap : alignUp (p.toNat + (v p).length.toNat) (2 ^ j) = 2 ^ 32) (hn : 3 ≤ n)
    (hdone : ∀ v' t, Draft v' {0} ∅ (0 :: xs) t → (v' 0).start = 0 → (v' 0).mbr.magic ≠ apaMBRMagic →
      Q (0, some 0) t) :
    (Apa.appendPartition device params p).wp (anyRules n) Q t := by
  have hpmem : p ∈ 0 :: xs := by rw [hxs]; simp
  have hsound := h.table.sound p hpmem
  have hpos := Nat.two_pow_pos j
  have hcard : (0 : Multiset Word).card + 2 < n := by
    rw [card_zero]
    omega
  refine h.got hpmem (by omega) fun t ht => ?_
  refine ht.draft.read (by simp) ?_
  have hne : params.size ≠ 0 := fun hzero => by
    rw [hzero] at hsize
    have : (0 : Word).toNat = 0 := rfl
    omega
  rw [hsound.start, if_neg hne]
  rw [if_neg (mt (refuses_iff device hsize hsound.positive hsound.fits).mp href)]
  refine ht.got mem_cons_self (by rw [card_cons]; omega) fun t ht => ?_
  rw [cons_swap] at ht
  obtain ⟨hmultiple, hle, hlt⟩ := alignUp_spec (e := p.toNat + (v p).length.toNat) hpos
  have hj32 : j < 32 := (Nat.pow_lt_pow_iff_right Nat.one_lt_two).mp (hsize ▸ params.size.isLt)
  refine Prog.wp_bind (Prog.wp_intact (d := tableRules n (2 ^ 18)) ?_ fun _ _ => trivial)
  refine padLoop_wp (i := 18) sizeTurns ht hxs hsize rfl (BitVec.toNat_add ..) (le_refl 18)
    (Nat.dvd_add hsound.place hsound.coarse) (by rw [sizeTurns]; omega) (by rw [sizeTurns]; omega) hmultiple hle hlt
    hcard fun v1 xs1 ys q partEnd t ht hxs1 hlast hblocks1 hys hq hpart => ?_
  obtain ⟨l', hlast⟩ := hlast
  rw [hwrap, Nat.mod_self] at hpart
  obtain rfl : partEnd = 0 := BitVec.eq_of_toNat_eq hpart
  have hq0 : q ≠ 0 := by
    rintro rfl
    rw [hwrap] at hq
    omega
  refine ht.draft.read (by simp) ?_
  refine ht.draft.fillHeader ⟨0, rfl⟩ (.inl (by simp)) fun created v2 t hv2x hv2 hd => ?_
  refine hd.change (by simp) _ fun v3 t hv3q hv3 hd => ?_
  refine hd.change (by simp) _ fun v4 t hv4z hv4 hd => ?_
  have hzero : v4 0 = { params.header 0 0 (v1 q).start params.size created with prev := 0 } := by
    rw [hv4z, hv3 0 hq0.symm, hv2x]
  refine hd.commit trivial ((Finset.card_le_three (a := 0) (b := q) (c := 0)).trans (by decide)) fun t hd => ?_
  refine hd.free (by simp) (fun hdirty => absurd hdirty (Finset.notMem_empty q)) fun t hd => ?_
  rw [Multiset.erase_cons_tail _ hq0.symm, Multiset.erase_cons_head] at hd
  refine hd.free (by simp) (fun hdirty => absurd hdirty (Finset.notMem_empty 0)) fun t hd => ?_
  rw [Multiset.erase_cons_head] at hd
  refine hdone v4 t ⟨hd.record, hd.held, hd.dirty, hd.erased, fun y hy => ?_⟩ ?_ ?_
  · exact hd.sound y (by rw [hxs1]; exact mem_append_left ys hy)
  · rw [hzero]
    rfl
  · rw [hzero]
    exact params.header_mbr 0 0 (v1 q).start params.size created

/-- `apaOpen` where the new header takes the place of the first one. -/
theorem At.open_wraps {j : ℕ} (slot : FileSlot) (h : At (2 ^ 18) v xs 0 t) (hxs : 0 :: xs = l ++ [p])
    (hcreates : Creates device v xs params flags) (hsize : params.size.toNat = 2 ^ j) (hj : 18 ≤ j)
    (hnone : ¬ Suitable v (0 :: xs) (2 ^ j)) (href : ¬ device.refuses (p.toNat + (v p).length.toNat) (2 ^ j))
    (hwrap : alignUp (p.toNat + (v p).length.toNat) (2 ^ j) = 2 ^ 32) (hn : 3 ≤ n) :
    (apaOpen device slot params flags).wp (anyRules n)
      (fun _ t => t.dirty = ∅ ∧ (t.record 0).mbr.magic ≠ apaMBRMagic) t := by
  refine h.got mem_cons_self (by rw [card_zero]; omega) fun t ht => ?_
  refine Prog.wp_bind (Prog.wp_intact (d := tableRules n (2 ^ 18)) ?_ fun _ _ => trivial)
  refine openLoop_wp params.id walkTurns (fun _ => 0) ht (l := []) rfl
    (h.table.length_lt (pow_dvd_pow 2 (by decide)) (l := []) rfl)
    (by rw [card_zero]; omega) (fun l' y r' hsplit hy => absurd hy (hcreates.missing y (by rw [hsplit]; simp)))
    fun _ l' y hsplit t ht => ?_
  obtain rfl : y = p := by
    obtain ⟨-, hlast⟩ := append_inj' (hsplit.symm.trans hxs) rfl
    exact (cons.inj hlast).1
  dsimp only
  rw [if_neg (not_not.mpr rfl), if_pos hcreates.creat]
  refine Prog.wp_bind ?_
  unfold Apa.openCreate hddCheckPartitionMax
  rw [if_pos hcreates.small, if_neg (by decide)]
  refine Prog.wp_bind ?_
  unfold hddAddPartitionHere
  have hfind := (ht.table.names.find params.size ht.table.sound).resolve_left (by
    rintro ⟨i, k, -, hmem, hfree, hlength, hle⟩
    exact hnone ⟨_, hmem, hfree, by rw [hlength, ← hsize]; exact hle⟩)
  rw [hfind.1]
  refine ht.append_wraps hxs hsize hj href hwrap hn fun v' t hd hstart hmbr => ?_
  refine hd.read (Multiset.mem_singleton_self 0) ?_
  rw [hstart]
  refine ⟨hd.erased, ?_, fun sector hsector => ?_, ?_⟩
  · show t.held.card < n
    rw [hd.held, card_singleton]
    omega
  · rcases mem_cons.mp hsector with rfl | hsector
    · exact aside_inside ⟨0, rfl⟩ (by decide) (by decide)
    · rw [List.mem_singleton.mp hsector]
      exact aside_inside ⟨0, rfl⟩ (by decide) (by decide)
  · refine openFound_wp (show (0 : Word) ∈ t.held by rw [hd.held]; exact Multiset.mem_singleton_self 0)
      (show (0 : Word) ∉ t.dirty by rw [hd.dirty]; exact Finset.notMem_empty 0) ⟨hd.dirty, ?_⟩
    rw [hd.record]
    exact hmbr

end Ps2sdk.Apa
