import Ps2sdk.Fat.Chain12

/-!
# Storing cluster records

A stored record changes the bytes of its entry in every copy of the table, and nothing else
on the volume. The FAT12 record over the edge of a sector is stored in two halves; on the
bytes of the table this is the same edit.
-/

namespace Ps2sdk.Fat

open Function List Nat Vol

/-- The geometry a table needs: sectors hold whole records of the wider kinds, and byte
offsets in the table fit a signed integer. -/
structure FatBpb.TableFits (bpb : FatBpb) : Prop where
  sector : 0 < bpb.sectorSize
  aligned : 4 ∣ bpb.sectorSize
  offsets : bpb.fatSize * bpb.sectorSize ≤ 2 ^ 31

/-- The bytes of one copy of the table. -/
def FatBpb.tableSize (bpb : FatBpb) : ℕ := bpb.fatSize * bpb.sectorSize

/-- One copy of the table was edited, and the sectors outside it are as before. -/
structure CopySaved (fatNumber : ℕ) (edit : (ℕ → UInt8) → ℕ → UInt8) (v v' : Vol) : Prop where
  bpb : v'.partBpb = v.partBpb
  bad : v'.bad = v.bad
  bytes : v'.fatBytes fatNumber = edit (v.fatBytes fatNumber)
  frame : ∀ s, (s < v.partBpb.fatStart fatNumber ∨
    v.partBpb.fatStart fatNumber + v.partBpb.fatSize ≤ s) → v'.sectors s = v.sectors s

/-- The listed copies were edited, and the rest of the volume is as before. -/
structure CopiesSaved (copies : List ℕ) (edit : (ℕ → UInt8) → ℕ → UInt8) (v v' : Vol) : Prop where
  bpb : v'.partBpb = v.partBpb
  bad : v'.bad = v.bad
  edited : ∀ f ∈ copies, ∀ k < v.partBpb.tableSize, v'.fatBytes f k = edit (v.fatBytes f) k
  kept : ∀ f ∉ copies, ∀ k < v.partBpb.tableSize, v'.fatBytes f k = v.fatBytes f k
  frame : ∀ s, (∀ f ∈ copies, s < v.partBpb.fatStart f ∨
    v.partBpb.fatStart f + v.partBpb.fatSize ≤ s) → v'.sectors s = v.sectors s

section Copies

variable {v v' : Vol} {copies : List ℕ} {edit : (ℕ → UInt8) → ℕ → UInt8}

/-- Two copies of the table have no sector in common. -/
theorem FatBpb.fatStart_apart (bpb : FatBpb) {f g s : ℕ} (hfg : g ≠ f)
    (hs : s < bpb.fatSize) : bpb.fatStart g + s < bpb.fatStart f ∨
      bpb.fatStart f + bpb.fatSize ≤ bpb.fatStart g + s := by
  unfold FatBpb.fatStart
  obtain h | h := lt_or_gt_of_ne hfg
  · left
    have hmul := mul_le_mul_right bpb.fatSize (show g + 1 ≤ f from h)
    rw [add_mul, one_mul] at hmul
    omega
  · right
    have hmul := mul_le_mul_right bpb.fatSize (show f + 1 ≤ g from h)
    rw [add_mul, one_mul] at hmul
    omega

theorem FatBpb.ne_of_outside (bpb : FatBpb) {f s q : ℕ} (hq : q < bpb.fatSize)
    (hs : s < bpb.fatStart f ∨ bpb.fatStart f + bpb.fatSize ≤ s) : s ≠ bpb.fatStart f + q := by
  omega

theorem CopySaved.other {f g k : ℕ} (h : CopySaved f edit v v') (hgf : g ≠ f)
    (hk : k < v.partBpb.tableSize) : v'.fatBytes g k = v.fatBytes g k := by
  have hsector := div_lt_of_lt_mul hk
  rw [fatBytes, h.bpb, flat, h.frame _ (v.partBpb.fatStart_apart hgf hsector)]
  rfl

/-- The loop over the copies edits each of them once. -/
theorem saveCopies_spec {save : ℕ → Vol → ℤ × Vol}
    (hedit : ∀ row row' : ℕ → UInt8, (∀ k < v.partBpb.tableSize, row k = row' k) →
      ∀ k < v.partBpb.tableSize, edit row k = edit row' k)
    (hsave : ∀ f (u : Vol), u.partBpb = v.partBpb → 0 ≤ (save f u).1 →
      CopySaved f edit u (save f u).2) :
    ∀ (copies : List ℕ) (ret : ℤ) (u : Vol), u.partBpb = v.partBpb → copies.Nodup →
      0 ≤ (saveCopies save copies ret u).1 →
      CopiesSaved copies edit u (saveCopies save copies ret u).2 := by
  intro copies
  induction copies with
  | nil =>
    intro ret u hu _ _
    exact ⟨rfl, rfl, fun f hf => absurd hf not_mem_nil, fun _ _ _ _ => rfl, fun _ _ => rfl⟩
  | cons f rest ih =>
    intro ret u hu hnodup hret
    obtain ⟨hf, hrest⟩ := nodup_cons.1 hnodup
    simp only [saveCopies] at hret ⊢
    by_cases hneg : (save f u).1 < 0
    · rw [if_pos hneg] at hret
      exact absurd hret (show ¬ (0 : ℤ) ≤ -5 by decide)
    · rw [if_neg hneg] at hret ⊢
      have hfirst := hsave f u hu (by omega)
      have hthen := ih (save f u).1 (save f u).2 (hfirst.bpb.trans hu) hrest hret
      have htable : (save f u).2.partBpb.tableSize = u.partBpb.tableSize := by rw [hfirst.bpb]
      constructor
      · exact hthen.bpb.trans hfirst.bpb
      · exact hthen.bad.trans hfirst.bad
      · intro g hg k hk
        obtain rfl | hg := mem_cons.1 hg
        · rw [hthen.kept g hf k (by rwa [htable]), hfirst.bytes]
        · have hgf : g ≠ f := fun h => hf (h ▸ hg)
          rw [hthen.edited g hg k (by rwa [htable])]
          rw [hu] at hk
          refine hedit _ _ (fun i hi => hfirst.other hgf ?_) k hk
          rwa [hu]
      · intro g hg k hk
        have hgf : g ≠ f := fun h => hg (h ▸ mem_cons_self)
        have hgrest : g ∉ rest := fun h => hg (mem_cons_of_mem _ h)
        rw [hthen.kept g hgrest k (by rwa [htable]), hfirst.other hgf hk]
      · intro s hs
        rw [hthen.frame s, hfirst.frame s (hs f mem_cons_self)]
        intro g hg
        rw [hfirst.bpb]
        exact hs g (mem_cons_of_mem _ hg)

/-- Where nothing is bad, the loop over at least one copy succeeds. -/
theorem saveCopies_reads {save : ℕ → Vol → ℤ × Vol}
    (hsave : ∀ f (u : Vol), u.bad = v.bad → 0 ≤ (save f u).1 ∧ (save f u).2.bad = v.bad) :
    ∀ (copies : List ℕ) (ret : ℤ) (u : Vol), u.bad = v.bad → (0 ≤ ret ∨ copies ≠ []) →
      0 ≤ (saveCopies save copies ret u).1 := by
  intro copies
  induction copies with
  | nil => exact fun ret u _ hret => hret.resolve_right fun h => h rfl
  | cons f rest ih =>
    intro ret u hu _
    obtain ⟨hpos, hbad⟩ := hsave f u hu
    simp only [saveCopies]
    rw [if_neg (by omega)]
    exact ih _ _ hbad (.inl hpos)

end Copies

/-! ## The records of the three kinds -/

theorem localEdit_setClusterRecord12 (value type : ℕ) :
    LocalEdit 2 fun row o => setClusterRecord12 row o value type where
  inside row row' o o' h k hk := by
    have h0 : row o = row' o' := h 0 (by decide)
    have h1 : row (o + 1) = row' (o' + 1) := h 1 (by decide)
    obtain rfl | rfl : k = 0 ∨ k = 1 := by omega
    · simp [setClusterRecord12, h0]
    · simp [setClusterRecord12, h1]
  outside row o j hj := by
    rw [setClusterRecord12, update_of_ne (by omega), update_of_ne (by omega)]

theorem localEdit_setClusterRecord16 (value : ℕ) : LocalEdit 2 fun row o => setClusterRecord16 row o value where
  inside row row' o o' h k hk := by
    obtain rfl | rfl : k = 0 ∨ k = 1 := by omega
    · simp [setClusterRecord16]
    · simp [setClusterRecord16]
  outside row o j hj := by
    rw [setClusterRecord16, update_of_ne (by omega), update_of_ne (by omega)]

theorem localEdit_setClusterRecord32 (value : ℕ) : LocalEdit 4 fun row o => setClusterRecord32 row o value where
  inside row row' o o' h k hk := by
    have h3 : row (o + 3) = row' (o' + 3) := h 3 (by decide)
    obtain rfl | rfl | rfl | rfl : k = 0 ∨ k = 1 ∨ k = 2 ∨ k = 3 := by omega
    · simp [setClusterRecord32]
    · simp [setClusterRecord32]
    · simp [setClusterRecord32]
    · simp [setClusterRecord32, h3]
  outside row o j hj := setClusterRecord32_of_ne row value (by omega)

theorem Vol.modifySector_of_nonneg {v : Vol} {sector : ℕ} {change : (ℕ → UInt8) → ℕ → UInt8}
    (h : 0 ≤ (v.modifySector sector change).1) : (v.modifySector sector change).2 =
      { v with sectors := update v.sectors sector (change (v.sectors sector)) } := by
  unfold modifySector at h ⊢
  by_cases hbad : v.bad sector = true
  · rw [if_pos hbad] at h
    exact absurd h (show ¬ (0 : ℤ) ≤ -5 by decide)
  · rw [if_neg hbad]

theorem Vol.modifySector_reads {v u : Vol} (hread : ∀ s, v.bad s = false) (hu : u.bad = v.bad)
    (sector : ℕ) (change : (ℕ → UInt8) → ℕ → UInt8) :
    0 ≤ (u.modifySector sector change).1 ∧ (u.modifySector sector change).2.bad = v.bad := by
  simp [modifySector, hu, hread]

section Copy

variable {v : Vol} {w o f : ℕ} {set : (ℕ → UInt8) → ℕ → ℕ → UInt8}

/-- A record inside one sector is stored by one change of that sector. -/
theorem CopySaved.within (hset : LocalEdit w set)
    (hfit : o % v.partBpb.sectorSize + w ≤ v.partBpb.sectorSize) (hin : o < v.partBpb.tableSize)
    (hret : 0 ≤ (v.modifySector (v.partBpb.fatStart f + o / v.partBpb.sectorSize) fun sbuf =>
      set sbuf (o % v.partBpb.sectorSize)).1) :
    CopySaved f (fun row => set row o) v
      (v.modifySector (v.partBpb.fatStart f + o / v.partBpb.sectorSize) fun sbuf =>
        set sbuf (o % v.partBpb.sectorSize)).2 := by
  have hsector := div_lt_of_lt_mul hin
  rw [modifySector_of_nonneg hret]
  refine ⟨rfl, rfl, hset.flat hfit, fun s hs => ?_⟩
  exact update_of_ne (v.partBpb.ne_of_outside hsector hs) _ _

/-- A FAT12 record over the edge of a sector is stored by a change of each of the two. -/
theorem CopySaved.across (value type : ℕ) (hss : 0 < v.partBpb.sectorSize)
    (hspan : o % v.partBpb.sectorSize = v.partBpb.sectorSize - 1) (hin : o + 1 < v.partBpb.tableSize) {v₁ v₂ : Vol}
    (h₁ : v₁ = { v with
      sectors := poke v.sectors (v.partBpb.fatStart f + o / v.partBpb.sectorSize)
        (o % v.partBpb.sectorSize) (setClusterRecord12part1 (v.fatBytes f o) value type) })
    (h₂ : v₂ = { v₁ with
      sectors := poke v₁.sectors (v.partBpb.fatStart f + o / v.partBpb.sectorSize + 1) 0
        (setClusterRecord12part2 (v.fatBytes f (o + 1)) value type) }) :
    CopySaved f (fun row => setClusterRecord12 row o value type) v v₂ := by
  obtain ⟨hdiv, hmod⟩ := split_across hss hspan
  have hfirst := div_lt_of_lt_mul (show o < _ from lt_of_succ_lt hin)
  have hsecond := div_lt_of_lt_mul hin
  have hnext : v.partBpb.fatStart f + o / v.partBpb.sectorSize + 1 =
      v.partBpb.fatStart f + (o + 1) / v.partBpb.sectorSize := by rw [hdiv, add_assoc]
  rw [hnext, ← hmod] at h₂
  subst h₁ h₂
  refine ⟨rfl, rfl, ?_, fun s hs => ?_⟩
  · simp only [fatBytes, setClusterRecord12, flat_poke]
  · change poke (poke v.sectors _ _ _) _ _ _ s = _
    rw [poke_of_ne (v.partBpb.ne_of_outside hsecond hs),
      poke_of_ne (v.partBpb.ne_of_outside hfirst hs)]

end Copy

/-- The entry of a cluster in the bytes of a table. -/
def FatType.entry : FatType → (ℕ → UInt8) → ℕ → ℕ
  | .fat12 => entry12
  | .fat16 => entry16
  | .fat32 => entry32

/-- The number of values an entry can have. -/
def FatType.entryLimit : FatType → ℕ
  | .fat12 => 0x1000
  | .fat16 => 0x10000
  | .fat32 => 2 ^ 28

/-- The first byte after the record of a cluster. -/
def FatType.recordEnd : FatType → ℕ → ℕ
  | .fat12, c => 3 * c / 2 + 2
  | .fat16, c => 2 * c + 2
  | .fat32, c => 4 * c + 4

/-- The bytes of a table with one record stored. -/
def FatType.setRecord : FatType → ℕ → ℕ → (ℕ → UInt8) → ℕ → UInt8
  | .fat12, c, value, row => setClusterRecord12 row (3 * c / 2) value (c % 2)
  | .fat16, c, value, row => setClusterRecord16 row (2 * c) value
  | .fat32, c, value, row => setClusterRecord32 row (4 * c) value

/-- The driver's function for a kind of table. -/
def FatType.saveClusterRecord : FatType → Vol → ℕ → ℕ → ℤ × Vol
  | .fat12 => Vol.saveClusterRecord12
  | .fat16 => Vol.saveClusterRecord16
  | .fat32 => Vol.saveClusterRecord32

theorem FatType.entry_setRecord (t : FatType) (row : ℕ → UInt8) (c : ℕ) {value : ℕ}
    (hv : value < t.entryLimit) : t.entry (t.setRecord c value row) c = value := by
  cases t with
  | fat12 => exact entry12_setClusterRecord12 row c hv
  | fat16 => exact entry16_setClusterRecord16 row c hv
  | fat32 => exact entry32_setClusterRecord32 row c hv

theorem FatType.entry_setRecord_of_ne (t : FatType) (row : ℕ → UInt8) {c d : ℕ} (value : ℕ)
    (hd : d ≠ c) : t.entry (t.setRecord c value row) d = t.entry row d := by
  cases t with
  | fat12 => exact entry12_setClusterRecord12_of_ne row value hd
  | fat16 => exact entry16_setClusterRecord16_of_ne row value hd
  | fat32 => exact congrArg (· &&& 0xFFFFFFF) (record32_setClusterRecord32_of_ne row value hd)

section Kinds

variable {v : Vol} {c value f : ℕ}

theorem FatBpb.TableFits.recordOffset12 {bpb : FatBpb} (h : bpb.TableFits)
    (hc : 3 * c / 2 + 2 ≤ bpb.tableSize) : recordOffset12 c = 3 * c / 2 := by
  have hbound : bpb.tableSize ≤ 2 ^ 31 := h.offsets
  have hlt : c * 3 < 2 ^ 32 := by omega
  rw [Fat.recordOffset12, mod_eq_of_lt hlt, mul_comm]

/-- `fat_saveClusterRecord12` edits one copy. -/
theorem saveCopy12_saved (hfit : v.partBpb.TableFits) (hc : 3 * c / 2 + 2 ≤ v.partBpb.tableSize)
    (hret : 0 ≤ (saveCopy12 c value f v).1) :
    CopySaved f (FatType.fat12.setRecord c value) v (saveCopy12 c value f v).2 := by
  have hss := hfit.sector
  have hoff := hfit.recordOffset12 hc
  by_cases hspan : v.partBpb.sectorSpan c = true
  · have hlast : 3 * c / 2 % v.partBpb.sectorSize = v.partBpb.sectorSize - 1 :=
      hoff ▸ of_decide_eq_true hspan
    obtain ⟨hdiv, hmod⟩ := split_across hss hlast
    simp only [saveCopy12, hspan, FatBpb.fatSector12, hoff, if_true] at hret ⊢
    split at hret
    · exact absurd hret (show ¬ (0 : ℤ) ≤ -5 by decide)
    · rename_i hfirst
      rw [if_neg hfirst]
      have h₁ := modifySector_of_nonneg (Int.not_lt.1 hfirst)
      have h₂ := modifySector_of_nonneg hret
      refine CopySaved.across value (c % 2) hss hlast (by omega) h₁ (h₂.trans ?_)
      rw [h₁]
      simp [poke, fatBytes, flat, hdiv, hmod, add_assoc]
  · have hin : 3 * c / 2 % v.partBpb.sectorSize ≠ v.partBpb.sectorSize - 1 :=
      fun h => hspan (decide_eq_true (hoff.symm ▸ h))
    have hlt := mod_lt (3 * c / 2) hss
    simp only [saveCopy12, hspan, FatBpb.fatSector12, hoff, Bool.false_eq_true, if_false] at hret ⊢
    exact CopySaved.within (localEdit_setClusterRecord12 value (c % 2)) (by omega) (by omega) hret

/-- Records of two or four bytes lie in one sector. -/
theorem aligned_record {ss width : ℕ} (hss : 0 < ss) (hwidth : width ∣ ss) (c : ℕ) :
    c / (ss / width) = width * c / ss ∧ c % (ss / width) * width = width * c % ss ∧
      width * c % ss + width ≤ ss := by
  obtain ⟨m, rfl⟩ := hwidth
  have hwpos : 0 < width := Nat.pos_of_mul_pos_right hss
  have hmpos : 0 < m := Nat.pos_of_mul_pos_left hss
  rw [Nat.mul_div_cancel_left m hwpos, Nat.mul_div_mul_left _ _ hwpos, Nat.mul_mod_mul_left]
  refine ⟨rfl, Nat.mul_comm _ _, ?_⟩
  have hlt := Nat.mod_lt c hmpos
  calc width * (c % m) + width = width * (c % m + 1) := by rw [Nat.mul_add, Nat.mul_one]
    _ ≤ width * m := mul_le_mul_left _ hlt

/-- `fat_saveClusterRecord16` and `fat_saveClusterRecord32` edit one copy. -/
theorem saveCopy_saved {width : ℕ} {set : (ℕ → UInt8) → ℕ → ℕ → ℕ → UInt8}
    (hfit : v.partBpb.TableFits) (hwidth : width ∣ v.partBpb.sectorSize)
    (hset : LocalEdit width fun row o => set row o value) (hc : width * c + width ≤ v.partBpb.tableSize)
    (hret : 0 ≤ (saveCopy width set c value f v).1) :
    CopySaved f (fun row => set row (width * c) value) v (saveCopy width set c value f v).2 := by
  obtain ⟨hdiv, hmod, hlast⟩ := aligned_record hfit.sector hwidth c
  have hpos := pos_of_dvd_of_pos hwidth hfit.sector
  simp only [saveCopy, hdiv, hmod] at hret ⊢
  exact CopySaved.within hset hlast (by omega) hret

variable (t : FatType)

/-- A successful store edits every copy of the table and nothing else. -/
theorem FatType.saveClusterRecord_saved (hfit : v.partBpb.TableFits)
    (hc : t.recordEnd c ≤ v.partBpb.tableSize) (hret : 0 ≤ (t.saveClusterRecord v c value).1) :
    CopiesSaved (range v.partBpb.fatCount) (t.setRecord c value) v
      (t.saveClusterRecord v c value).2 := by
  have hfits : ∀ u : Vol, u.partBpb = v.partBpb → u.partBpb.TableFits := fun u hu => hu ▸ hfit
  have hcu : ∀ u : Vol, u.partBpb = v.partBpb → t.recordEnd c ≤ u.partBpb.tableSize :=
    fun u hu => hu ▸ hc
  cases t with
  | fat12 =>
    exact saveCopies_spec
      (fun _ _ hrow => (localEdit_setClusterRecord12 value (c % 2)).congr hc hrow)
      (fun f u hu => saveCopy12_saved (hfits u hu) (hcu u hu)) _ _ _ rfl nodup_range hret
  | fat16 =>
    exact saveCopies_spec (fun _ _ hrow => (localEdit_setClusterRecord16 value).congr hc hrow)
      (fun f u hu => saveCopy_saved (hfits u hu) ((by decide : 2 ∣ 4).trans (hfits u hu).aligned)
        (localEdit_setClusterRecord16 value) (hcu u hu)) _ _ _ rfl nodup_range hret
  | fat32 =>
    exact saveCopies_spec (fun _ _ hrow => (localEdit_setClusterRecord32 value).congr hc hrow)
      (fun f u hu => saveCopy_saved (hfits u hu) (hfits u hu).aligned
        (localEdit_setClusterRecord32 value) (hcu u hu)) _ _ _ rfl nodup_range hret

theorem saveCopy12_reads (hread : ∀ s, v.bad s = false) (f : ℕ) {u : Vol} (hu : u.bad = v.bad) :
    0 ≤ (saveCopy12 c value f u).1 ∧ (saveCopy12 c value f u).2.bad = v.bad := by
  simp only [saveCopy12]
  split
  · rw [if_neg (Int.not_lt.2 (modifySector_reads hread hu _ _).1)]
    exact modifySector_reads hread (modifySector_reads hread hu _ _).2 _ _
  · exact modifySector_reads hread hu _ _

/-- A store succeeds where every sector can be read and there is a copy to store in. -/
theorem FatType.saveClusterRecord_reads (hread : ∀ s, v.bad s = false)
    (hcount : 0 < v.partBpb.fatCount) (c value : ℕ) : 0 ≤ (t.saveClusterRecord v c value).1 := by
  have hcopies : range v.partBpb.fatCount ≠ [] := by
    rw [Ne, range_eq_nil]
    omega
  have hwide : ∀ width set f (u : Vol), u.bad = v.bad →
      0 ≤ (saveCopy width set c value f u).1 ∧ (saveCopy width set c value f u).2.bad = v.bad :=
    fun width set f u hu => modifySector_reads hread hu _ _
  cases t with
  | fat12 => exact saveCopies_reads (fun f u hu => saveCopy12_reads hread f hu) _ _ _ rfl (.inr hcopies)
  | fat16 => exact saveCopies_reads (hwide _ _) _ _ _ rfl (.inr hcopies)
  | fat32 => exact saveCopies_reads (hwide _ _) _ _ _ rfl (.inr hcopies)

/-- An entry is decoded from bytes before the end of its record. -/
theorem FatType.entry_congr {row row' : ℕ → UInt8} {d n : ℕ}
    (hd : t.recordEnd d ≤ n) (hrow : ∀ k < n, row k = row' k) : t.entry row d = t.entry row' d := by
  cases t with
  | fat12 =>
    have hbytes : ∀ i < 3, nibble row (3 * d + i) = nibble row' (3 * d + i) := fun i hi => by
      have hin : (3 * d + i) / 2 < n := by
        have : 3 * d / 2 + 2 ≤ n := hd
        omega
      simp only [nibble, hrow _ hin]
    have h0 := hbytes 0 (by decide)
    have h1 := hbytes 1 (by decide)
    have h2 := hbytes 2 (by decide)
    simp only [add_zero] at h0
    simp only [FatType.entry, entry12, h0, h1, h2]
  | fat16 =>
    have hd : 2 * d + 2 ≤ n := hd
    simp only [FatType.entry, entry16_eq]
    rw [hrow (2 * d) (by omega), hrow (2 * d + 1) (by omega)]
  | fat32 =>
    have hd : 4 * d + 4 ≤ n := hd
    simp only [FatType.entry, entry32_eq, record32_eq]
    rw [hrow (4 * d) (by omega), hrow (4 * d + 1) (by omega), hrow (4 * d + 2) (by omega),
      hrow (4 * d + 3) (by omega)]

theorem CopiesSaved.entry {t : FatType} {copies : List ℕ} {v' : Vol}
    (h : CopiesSaved copies (t.setRecord c value) v v') (hf : f ∈ copies) (hv : value < t.entryLimit)
    {d : ℕ} (hd : t.recordEnd d ≤ v.partBpb.tableSize) :
    t.entry (v'.fatBytes f) d = if d = c then value else t.entry (v.fatBytes f) d := by
  rw [t.entry_congr hd (h.edited f hf)]
  by_cases hdc : d = c
  · rw [hdc, if_pos rfl, t.entry_setRecord _ c hv]
  · rw [if_neg hdc, t.entry_setRecord_of_ne _ value hdc]

/-- The reserved bits of an edited FAT32 copy. -/
theorem CopiesSaved.reserved {copies : List ℕ} {v' : Vol}
    (h : CopiesSaved copies (FatType.fat32.setRecord c value) v v') (hf : f ∈ copies) {d : ℕ}
    (hd : FatType.fat32.recordEnd d ≤ v.partBpb.tableSize) :
    reserved32 (v'.fatBytes f) d = reserved32 (v.fatBytes f) d := by
  have hlast : 4 * d + 4 ≤ v.partBpb.tableSize := hd
  rw [reserved32_eq, h.edited f hf _ (by omega), ← reserved32_eq]
  by_cases hdc : d = c
  · rw [hdc]
    exact reserved32_setClusterRecord32 _ c value
  · exact congrArg (· >>> 28) (record32_setClusterRecord32_of_ne _ value hdc)

end Kinds

/-- Storing the record of a cluster of the table, for each kind of table: it succeeds where
every sector can be read, and when it succeeds the entry has the value in every copy, every
other entry of every copy is as before, and so are the reserved bits of a FAT32 table. -/
theorem saveClusterRecord_exact (t : FatType) (v : Vol) (hfit : v.partBpb.TableFits) {c value : ℕ}
    (hc : t.recordEnd c ≤ v.partBpb.tableSize) (hv : value < t.entryLimit) :
    ((∀ s, v.bad s = false) → 0 < v.partBpb.fatCount → 0 ≤ (t.saveClusterRecord v c value).1) ∧
      (0 ≤ (t.saveClusterRecord v c value).1 → ∀ f < v.partBpb.fatCount,
        t.entry ((t.saveClusterRecord v c value).2.fatBytes f) c = value ∧
          (∀ d ≠ c, t.recordEnd d ≤ v.partBpb.tableSize →
            t.entry ((t.saveClusterRecord v c value).2.fatBytes f) d = t.entry (v.fatBytes f) d) ∧
          (t = .fat32 → ∀ d, t.recordEnd d ≤ v.partBpb.tableSize →
            reserved32 ((t.saveClusterRecord v c value).2.fatBytes f) d =
              reserved32 (v.fatBytes f) d)) := by
  refine ⟨fun hread hcount => t.saveClusterRecord_reads hread hcount c value, fun hret f hf => ?_⟩
  have hsaved := t.saveClusterRecord_saved hfit hc hret
  have hcopy := mem_range.2 hf
  refine ⟨?_, fun d hd hin => ?_, fun ht d hin => ?_⟩
  · rw [hsaved.entry hcopy hv hc, if_pos rfl]
  · rw [hsaved.entry hcopy hv hin, if_neg hd]
  · subst ht
    exact hsaved.reserved hcopy hin

/-- The record of cluster 341 of the FAT12 volume, which spans two sectors, set to 6. -/
theorem saveClusterRecord_exact_edgeVolume :
    let v' := (FatType.fat12.saveClusterRecord edgeVolume 341 6).2
    0 ≤ (FatType.fat12.saveClusterRecord edgeVolume 341 6).1 ∧
      entry12 (v'.fatBytes 0) 341 = 6 ∧ entry12 (v'.fatBytes 1) 341 = 6 ∧
      entry12 (v'.fatBytes 0) 340 = 0 := by
  have hfit : edgeVolume.partBpb.TableFits := ⟨by decide, by decide, by decide⟩
  obtain ⟨hreads, hexact⟩ := saveClusterRecord_exact .fat12 edgeVolume hfit
    (show FatType.fat12.recordEnd 341 ≤ _ by decide) (show 6 < _ by decide)
  have hret := hreads (fun _ => rfl) (by decide)
  refine ⟨hret, (hexact hret 0 (by decide)).1, (hexact hret 1 (by decide)).1, ?_⟩
  exact ((hexact hret 0 (by decide)).2.1 340 (by decide) (by decide)).trans (by decide +kernel)

end Ps2sdk.Fat
