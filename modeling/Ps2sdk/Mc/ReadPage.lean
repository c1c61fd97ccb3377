import Mathlib.Data.Fintype.Basic
import Mathlib.Tactic.FinCases
import Ps2sdk.Mc.Card

/-!
# Reading a page that does not always come through

The checksum of a group is linear: flipping a data bit changes the code by a syndrome that depends on the position
of the bit only. `mcman_correctdata` tells a wrong data bit, two of them and a wrong code bit apart by it, but it
repairs through the code pointer, which may lead behind the 32 bytes that `McReadPage` has for the codes.
`McReadPage` tries a transfer up to five times and keeps the worst result of the code over all attempts.
-/

namespace Ps2sdk.Mc

open List Function BitVec

variable (buf : ℕ → BitVec 8)

/-- Data with one bit flipped. -/
def flipBit (i a : ℕ) : ℕ → BitVec 8 := Function.update buf i (buf i ^^^ 1#8 <<< a)

/-- What may go wrong between writing and reading a group and its code. -/
inductive Fault
  | none
  | dataBit (i : Fin 128) (a : Fin 8)
  | dataBits (i : Fin 128) (a : Fin 8) (j : Fin 128) (b : Fin 8) (hne : ¬ (i = j ∧ a = b))
  | codeBit (k : Fin 3) (a : Fin 8)

/-- The data that is read. -/
def Fault.data : Fault → ℕ → BitVec 8
  | .dataBit i a => flipBit buf i a
  | .dataBits i a j b _ => flipBit (flipBit buf i a) j b
  | _ => buf

/-- The code that is read. -/
def Fault.code (ecc : ℕ → BitVec 8) : Fault → ℕ → BitVec 8
  | .codeBit k a => flipBit ecc k a
  | _ => ecc

/-- The result the fault calls for. -/
def Fault.result : Fault → ℤ
  | .none => 0
  | .dataBit .. => -1
  | .dataBits .. => -3
  | .codeBit .. => -2

/-- The data the fault calls for: a single wrong bit is corrected. -/
def Fault.corrected : Fault → ℕ → BitVec 8
  | .dataBit .. => buf
  | fault => fault.data buf

variable (buf ecc : ℕ → BitVec 8)

/-- `mcman_correctdata` with both of its buffers; it does not write to the data. -/
def correctBuffers : ℤ × (ℕ → BitVec 8) × (ℕ → BitVec 8) :=
  ((mcmanCorrectdata buf ecc).1, buf, (mcmanCorrectdata buf ecc).2)

/-- `mcman_correctdata` does what the fault calls for, and keeps the code. -/
def Handled (fault : Fault) : Prop :=
  let (result, data, code) := correctBuffers (fault.data buf) (fault.code ecc)
  result = fault.result ∧ data = fault.corrected buf ∧ ∀ k < 3, code k = fault.code ecc k

variable (acc d : BitVec 8 × BitVec 8 × BitVec 8)

/-- The sums of `McDataChecksum` with others added. -/
def addSums : BitVec 8 × BitVec 8 × BitVec 8 :=
  (acc.1 ^^^ d.1, acc.2.1 ^^^ d.2.1, acc.2.2 ^^^ d.2.2)

/-- What flipping a bit adds to the sums. -/
def bitSums (i : ℕ) (a : Fin 8) : BitVec 8 × BitVec 8 × BitVec 8 :=
  (xortable.getD (2 ^ a.val) 0, ~~~ BitVec.ofNat 8 i, BitVec.ofNat 8 i)

theorem xortable_flip : ∀ (x : Fin (2 ^ 8)) (a : Fin 8), xortable.getD (ofFin x ^^^ 1#8 <<< a.val).toNat 0 =
      xortable.getD x.val 0 ^^^ xortable.getD (2 ^ a.val) 0 := by
  decide +kernel

theorem parity_flip : ∀ (v : Fin (2 ^ 8)) (a : Fin 8),
    ((ofFin v ^^^ xortable.getD (2 ^ a.val) 0) &&& 0x80 ≠ 0 ↔ ¬ (ofFin v : BitVec 8) &&& 0x80 ≠ 0) := by
  decide +kernel

theorem checksumStep_addSums (i : ℕ) (byte : BitVec 8) :
    checksumStep (addSums acc d) i byte = addSums (checksumStep acc i byte) d := by
  have hcomm : ∀ x y z : BitVec 8, x ^^^ y ^^^ z = x ^^^ z ^^^ y := fun x y z => by ac_rfl
  unfold checksumStep addSums
  dsimp only
  split
  · exact Prod.ext (hcomm ..) (Prod.ext (hcomm ..) (hcomm ..))
  · exact Prod.ext (hcomm ..) rfl

/-- A flipped bit in a turn of the loop. -/
theorem checksumStep_flip (acc : BitVec 8 × BitVec 8 × BitVec 8) (i : ℕ) (byte : BitVec 8) (a : Fin 8) :
    checksumStep acc i (byte ^^^ 1#8 <<< a.val) = addSums (checksumStep acc i byte) (bitSums i a) := by
  have hflip : xortable.getD (byte ^^^ 1#8 <<< a.val).toNat 0 = xortable.getD byte.toNat 0 ^^^ _ :=
    xortable_flip byte.toFin a
  have hparity := parity_flip (xortable.getD byte.toNat 0).toFin a
  have hcancel : ∀ x y : BitVec 8, x = x ^^^ y ^^^ y := fun x y => by
    rw [BitVec.xor_assoc, BitVec.xor_self, BitVec.xor_zero]
  obtain ⟨a2, a3, t0⟩ := acc
  unfold checksumStep addSums bitSums
  rw [hflip]
  dsimp only
  by_cases hv : xortable.getD byte.toNat 0 &&& 0x80 ≠ 0
  · rw [if_pos hv, if_neg (mt hparity.mp (not_not.mpr hv))]
    exact Prod.ext (xor_assoc ..).symm (Prod.ext (hcancel ..) (hcancel ..))
  · rw [if_neg hv, if_pos (hparity.mpr hv)]
    exact Prod.ext (xor_assoc ..).symm rfl

/-- Flipping a bit adds to the sums. -/
theorem foldl_flipBit (i : Fin 128) (a : Fin 8) :
    (range 128).foldl (fun acc k => checksumStep acc k (flipBit buf i a k)) (0, 0, 0) =
      addSums ((range 128).foldl (fun acc k => checksumStep acc k (buf k)) (0, 0, 0)) (bitSums i a) := by
  obtain ⟨l, r, hrange⟩ := append_of_mem (mem_range.mpr i.isLt)
  have hnodup := nodup_range (n := 128)
  rw [hrange, nodup_append, nodup_cons] at hnodup
  have hsame : ∀ (ks : List ℕ) acc, i.val ∉ ks → ks.foldl (fun acc k => checksumStep acc k (flipBit buf i a k))
    acc =
      ks.foldl (fun acc k => checksumStep acc k (buf k)) acc := by
    intro ks acc hi
    refine foldl_ext _ _ _ fun acc k hk => ?_
    rw [flipBit, update_of_ne (ne_of_mem_of_not_mem hk hi)]
  have hadd : ∀ (ks : List ℕ) acc, ks.foldl (fun acc k => checksumStep acc k (buf k)) (addSums acc (bitSums i a)) =
      addSums (ks.foldl (fun acc k => checksumStep acc k (buf k)) acc) (bitSums i a) := by
    intro ks
    induction ks with
    | nil => exact fun _ => rfl
    | cons k ks ih =>
      intro acc
      rw [foldl_cons, foldl_cons, checksumStep_addSums, ih]
  rw [hrange, foldl_append, foldl_append, foldl_cons, foldl_cons, hsame r _ hnodup.2.1.1,
    hsame l _ fun hl => hnodup.2.2 _ hl _ mem_cons_self rfl, ← hadd]
  rw [flipBit, update_self, checksumStep_flip]

/-- The sum of two codes. -/
def Code.add (c d : Code) : Code := ⟨c.column ^^^ d.column, c.odd ^^^ d.odd, c.even ^^^ d.even⟩

/-- What flipping a bit adds to the code. -/
def syndrome (i : Fin 128) (a : Fin 8) : Code :=
  ⟨(bitSums i a).1 &&& 0x77, (bitSums i a).2.1 &&& 0x7F, (bitSums i a).2.2 &&& 0x7F⟩

/-- Flipping a bit adds its syndrome to the code. -/
theorem mcDataChecksum_flipBit (i : Fin 128) (a : Fin 8) :
    mcDataChecksum (flipBit buf i a) = (mcDataChecksum buf).add (syndrome i a) := by
  have hmask : ∀ x d m : BitVec 8, ~~~ (x ^^^ d) &&& m = (~~~ x &&& m) ^^^ (d &&& m) := by
    intro x d m
    ext k
    simp only [getElem_and, getElem_not, getElem_xor]
    cases x[k] <;> cases d[k] <;> cases m[k] <;> rfl
  unfold mcDataChecksum
  rw [foldl_flipBit]
  generalize (range 128).foldl (fun acc k => checksumStep acc k (buf k)) (0, 0, 0) = sums
  unfold addSums Code.add syndrome
  dsimp only
  rw [hmask, hmask, hmask]

/-- The result of `mcman_correctdata` for a code that is off by a syndrome. -/
def verdict (d : Code) : ℤ :=
  let xor3 := d.odd ^^^ d.even
  let xor4 := (d.column &&& 0xF) ^^^ (d.column >>> 4)
  if d.column = 0 ∧ d.odd = 0 ∧ d.even = 0 then 0
  else if xor3 = 0x7F ∧ xor4 = 0x7 then -1
  else if countBits xor3 8 + countBits xor4 4 = 1 then -2
  else -3

/-- `mcman_correctdata` sees the syndrome only, and keeps the code unless it finds a single wrong data bit. -/
theorem mcmanCorrectdata_verdict (d : Code) (hd : (mcDataChecksum buf).add d = ⟨ecc 0, ecc 1, ecc 2⟩) :
    (mcmanCorrectdata buf ecc).1 = verdict d ∧ (verdict d ≠ -1 → (mcmanCorrectdata buf ecc).2 = ecc) := by
  have hcancel : ∀ x y : BitVec 8, x ^^^ y ^^^ x = y := fun x y => by
    rw [BitVec.xor_comm, ← BitVec.xor_assoc, BitVec.xor_self, BitVec.zero_xor]
  unfold mcmanCorrectdata verdict
  generalize mcDataChecksum buf = code at hd ⊢
  obtain ⟨h0, h1, h2⟩ := Code.mk.inj hd
  dsimp only
  rw [← h0, ← h1, ← h2, hcancel, hcancel, hcancel]
  split_ifs
  · exact ⟨rfl, fun _ => rfl⟩
  · exact ⟨rfl, fun hne => absurd rfl hne⟩
  · exact ⟨rfl, fun _ => rfl⟩
  · exact ⟨rfl, fun _ => rfl⟩

/-- Two wrong data bits agree in the rows and in the parity of the columns. -/
theorem verdict_two {i j : Fin 128} {a b : Fin 8} (hne : ¬ (i = j ∧ a = b)) :
    verdict ((syndrome i a).add (syndrome j b)) = -3 := by
  have hcolumn : ∀ a b : Fin 8,
      let column := (xortable.getD (2 ^ a.val) 0 &&& 0x77) ^^^ (xortable.getD (2 ^ b.val) 0 &&& 0x77)
      (column &&& 0xF) ^^^ (column >>> 4) = 0 ∧ (column = 0 → a = b) := by
    decide +kernel
  have hrow : ∀ i : Fin 128, (BitVec.ofNat 8 i &&& 0x7F).toNat = i := by
    decide +kernel
  have hzero : (BitVec.ofNat 8 i &&& 0x7F) ^^^ (BitVec.ofNat 8 j &&& 0x7F) = 0 → i = j := fun h => by
    rw [Fin.ext_iff, ← hrow i, ← hrow j, BitVec.xor_eq_zero_iff.mp h]
  have heven : ∀ x y m : BitVec 8, (~~~ x &&& m) ^^^ (~~~ y &&& m) = (x &&& m) ^^^ (y &&& m) := by
    intro x y m
    ext k
    simp only [getElem_and, getElem_not, getElem_xor]
    cases x[k] <;> cases y[k] <;> cases m[k] <;> rfl
  obtain ⟨hparity, hsame⟩ := hcolumn a b
  unfold verdict Code.add syndrome bitSums
  rw [heven, BitVec.xor_self, hparity, if_neg fun h => hne ⟨hzero h.2.2, hsame h.1⟩]
  rfl

/-- How far the code is off that is read with the data. -/
def Fault.syndrome : Fault → Code
  | .none => ⟨0, 0, 0⟩
  | .dataBit i a => Mc.syndrome i a
  | .dataBits i a j b _ => (Mc.syndrome i a).add (Mc.syndrome j b)
  | .codeBit k a => ⟨if k = 0 then 1#8 <<< a.val else 0, if k = 1 then 1#8 <<< a.val else 0,
      if k = 2 then 1#8 <<< a.val else 0⟩

/-- The result for each fault. -/
theorem verdict_syndrome (fault : Fault) : verdict fault.syndrome = fault.result := by
  have hdata : ∀ i a, verdict (syndrome i a) = -1 := by
    decide +kernel
  have hcode : ∀ k a, verdict (Fault.codeBit k a).syndrome = -2 := by
    decide +kernel
  cases fault with
  | none => rfl
  | dataBit i a => exact hdata i a
  | dataBits i a j b hne => exact verdict_two hne
  | codeBit k a => exact hcode k a

/-- The code that is read is off by the syndrome. -/
theorem add_syndrome {buf ecc : ℕ → BitVec 8} (hecc : mcDataChecksum buf = ⟨ecc 0, ecc 1, ecc 2⟩) (fault : Fault) :
    (mcDataChecksum (fault.data buf)).add fault.syndrome =
      ⟨fault.code ecc 0, fault.code ecc 1, fault.code ecc 2⟩ := by
  have hassoc : ∀ c d e : Code, (c.add d).add e = c.add (d.add e) := fun c d e => by
    simp only [Code.add, BitVec.xor_assoc]
  have hself : ∀ c d : Code, (c.add d).add d = c := fun c d => by
    simp only [Code.add, BitVec.xor_assoc, BitVec.xor_self, BitVec.xor_zero]
  cases fault with
  | none => simp [Fault.data, Fault.code, Fault.syndrome, hecc, Code.add]
  | dataBit i a => simp only [Fault.data, Fault.code, Fault.syndrome, mcDataChecksum_flipBit, hself, hecc]
  | dataBits i a j b hne =>
    simp only [Fault.data, Fault.code, Fault.syndrome, mcDataChecksum_flipBit]
    rw [hassoc _ _ (syndrome j b), hself, hecc]
  | codeBit k a =>
    simp only [Fault.data, Fault.code, Fault.syndrome, hecc]
    fin_cases k <;> simp [Code.add, flipBit]

/-- Every fault is handled but a single wrong data bit, which stays in the data. -/
theorem handled_iff (hecc : mcDataChecksum buf = ⟨ecc 0, ecc 1, ecc 2⟩) (fault : Fault) :
    Handled buf ecc fault ↔ ∀ i a, fault ≠ .dataBit i a := by
  obtain ⟨hresult, hcode⟩ := mcmanCorrectdata_verdict (fault.data buf) (fault.code ecc) fault.syndrome
    (add_syndrome hecc fault)
  rw [verdict_syndrome] at hresult hcode
  refine ⟨?_, fun hfault => ?_⟩
  · rintro ⟨-, hdata, -⟩ i a rfl
    have hbit : ∀ a : Fin 8, 1#8 <<< a.val ≠ 0 := by
      decide
    have hsame : buf i ^^^ 1#8 <<< a.val = buf i ^^^ 0#8 := by
      rw [← update_self i.val (buf i ^^^ 1#8 <<< a.val) buf, xor_zero]
      exact congrFun hdata i
    exact hbit a ((xor_right_inj _).1 hsame)
  · cases fault with
    | none => exact ⟨hresult, rfl, fun k _ => congrFun (hcode (show (0 : ℤ) ≠ -1 by decide)) k⟩
    | dataBit i a => exact absurd rfl (hfault i a)
    | dataBits i a j b hne => exact ⟨hresult, rfl, fun k _ => congrFun (hcode (show (-3 : ℤ) ≠ -1 by decide)) k⟩
    | codeBit k a => exact ⟨hresult, rfl, fun k _ => congrFun (hcode (show (-2 : ℤ) ≠ -1 by decide)) k⟩

/-- The code of a group of zeros. -/
def zeroCode : ℕ → BitVec 8
  | 0 => 0x77
  | _ => 0x7f

/-- Two wrong bits in a group of zeros. -/
theorem handled_iff_dataBits : Handled (fun _ => 0) zeroCode (.dataBits 0 0 5 3 (by decide)) ↔
      ∀ i a, Fault.dataBits 0 0 5 3 (by decide) ≠ .dataBit i a :=
  handled_iff (fun _ => 0) zeroCode (by decide +kernel) (.dataBits 0 0 5 3 (by decide))

/-- A wrong bit in byte 5 of a group of zeros is reported as corrected and is still there: byte 5 after the code is
changed instead. -/
theorem dataBit_kept : mcDataChecksum (fun _ => 0) = ⟨zeroCode 0, zeroCode 1, zeroCode 2⟩ ∧
      (let (result, data, code) := correctBuffers (flipBit (fun _ => 0) 5 0) zeroCode
       result = -1 ∧ data 5 = 1 ∧ code 5 = 0x7e) := by
  decide +kernel

open Option

/-- What `mcman_readpage` makes of the five attempts: nothing, or the page it transfers. -/
structure Attempts where
  outcomes : List (Option Page)
  five : outcomes.length = 5

/-- The retry loop of `McReadPage` over the attempts that are left: the result and the buffer, or nothing when a
repair is stored behind the code buffer. -/
def readOutcomes (mcdi : DevInfo) : List (Option Page) → ℤ → Words → Option (ℤ × Words)
  | [], ecres, buf => some (if ecres ≠ 0 then -2 else -1, buf)
  | none :: rest, ecres, buf => readOutcomes mcdi rest ecres buf
  | some page :: rest, ecres, _ =>
    if mcdi.useEcc then
      if page.spare (mcdi.sparesize - 1) = mcdi.eraseByte then some (0, page.words)
      else do
        let ecres ← eccScan page.words mcdi.groups 0 (ecres, page.spare)
        if ecres = 0 then some (0, page.words)
        -- `retries == 4`
        else if rest.isEmpty ∧ ¬ ecres < -2 then some (0, page.words)
        else readOutcomes mcdi rest ecres page.words
    else readOutcomes mcdi rest ecres page.words

/-- `McReadPage`. -/
def readPage (mcdi : DevInfo) (attempts : Attempts) (buf : Words) : Option (ℤ × Words) :=
  readOutcomes mcdi attempts.outcomes 0 buf

variable {mcdi : DevInfo}

/-- The page is marked as erased. -/
def DevInfo.Erased (mcdi : DevInfo) (page : Page) : Prop := page.spare (mcdi.sparesize - 1) = mcdi.eraseByte

/-- The worst result of the code of a page, if its repairs stay in the code buffer. -/
def DevInfo.codeResult (mcdi : DevInfo) (page : Page) : Option ℤ := eccScan page.words mcdi.groups 0 (0, page.spare)

/-- The code loop keeps what was worse before. -/
theorem eccScan_min (words : Words) (a : ℤ) (n group : ℕ) (b : ℤ) (ecc : ℕ → BitVec 8) :
    eccScan words n group (min a b, ecc) = (eccScan words n group (b, ecc)).map (min a) := by
  induction n generalizing group b ecc with
  | zero => rfl
  | succ n ih =>
    unfold eccScan
    dsimp only
    split
    · rfl
    · rw [min_left_comm, ih]

theorem DevInfo.eccScan_eq (page : Page) {ecres : ℤ} (hle : ecres ≤ 0) :
    eccScan page.words mcdi.groups 0 (ecres, page.spare) = (mcdi.codeResult page).map (min ecres) := by
  rw [← min_eq_left hle, eccScan_min, min_eq_left hle]
  rfl

theorem DevInfo.codeResult_le {page : Page} {r : ℤ} (h : mcdi.codeResult page = some r) : r ≤ 0 := by
  have hmin := mcdi.eccScan_eq page le_rfl
  rw [h] at hmin
  have heq : r = min 0 r := some.inj (h.symm.trans hmin)
  omega

/-- How the loop is left early: by an erased page, by a first page that is clean, or in the last attempt if no page
was worse than the code tells; the repairs made before stay in the code buffer. -/
def DevInfo.Succeeds (mcdi : DevInfo) (ecres : ℤ) (outcomes : List (Option Page)) : Prop :=
  ∃ before page after, outcomes = before ++ some page :: after ∧
    (∀ earlier, some earlier ∈ before → mcdi.codeResult earlier ≠ none) ∧
    (mcdi.Erased page ∨
      (ecres = 0 ∧ (∀ outcome ∈ before, outcome = none) ∧ mcdi.codeResult page = some 0) ∨
      (-2 ≤ ecres ∧ after = [] ∧ ∀ other, some other ∈ outcomes → ∃ r ∈ mcdi.codeResult other, -2 ≤ r))

/-- An attempt without a transfer does not count. -/
theorem DevInfo.succeeds_none_cons {ecres : ℤ} {rest : List (Option Page)} :
    mcdi.Succeeds ecres (none :: rest) ↔ mcdi.Succeeds ecres rest := by
  constructor
  · rintro ⟨before, page, after, hsplit, hbefore, hpage⟩
    cases before with
    | nil => cases hsplit
    | cons outcome before =>
      obtain ⟨rfl, rfl⟩ := cons.inj hsplit
      refine ⟨before, page, after, rfl, fun p hp => hbefore p (mem_cons_of_mem _ hp), ?_⟩
      simpa using hpage
  · rintro ⟨before, page, after, rfl, hbefore, hpage⟩
    refine ⟨none :: before, page, after, rfl, by simpa using hbefore, ?_⟩
    simpa using hpage

/-- A page that leaves the loop running: the worst result goes on. -/
theorem DevInfo.succeeds_some_cons {ecres r : ℤ} {page : Page} {rest : List (Option Page)} (hle : ecres ≤ 0)
    (hcode : mcdi.codeResult page = some r) (herased : ¬ mcdi.Erased page) (hclean : min ecres r ≠ 0)
    (hlast : ¬ (rest = [] ∧ ¬ min ecres r < -2)) :
    mcdi.Succeeds ecres (some page :: rest) ↔ mcdi.Succeeds (min ecres r) rest := by
  have hr := codeResult_le hcode
  constructor
  · rintro ⟨before, last, after, hsplit, hbefore, hpage⟩
    cases before with
    | nil =>
      obtain ⟨hfirst, rfl⟩ := cons.inj hsplit
      obtain rfl := some.inj hfirst
      rcases hpage with hpage | ⟨hzero, -, hpage⟩ | ⟨hres, rfl, hall⟩
      · exact absurd hpage herased
      · obtain rfl := some.inj (hcode.symm.trans hpage)
        omega
      · obtain ⟨r', hr', hge⟩ := hall page mem_cons_self
        obtain rfl := some.inj (hcode.symm.trans hr')
        exact absurd ⟨rfl, by omega⟩ hlast
    | cons outcome before =>
      obtain ⟨rfl, rfl⟩ := cons.inj hsplit
      refine ⟨before, last, after, rfl, fun p hp => hbefore p (mem_cons_of_mem _ hp), hpage.imp_right ?_⟩
      rintro (⟨-, hnone, -⟩ | ⟨hres, rfl, hall⟩)
      · cases hnone _ mem_cons_self
      · obtain ⟨r', hr', hge⟩ := hall page mem_cons_self
        obtain rfl := some.inj (hcode.symm.trans hr')
        exact .inr ⟨by omega, rfl, fun p hp => hall p (mem_cons_of_mem _ hp)⟩
  · rintro ⟨before, last, after, rfl, hbefore, hpage⟩
    refine ⟨some page :: before, last, after, rfl, ?_, hpage.imp_right ?_⟩
    · rintro p (_ | ⟨_, hp⟩)
      · simp [hcode]
      · exact hbefore p hp
    · rintro (⟨hzero, -⟩ | ⟨hres, rfl, hall⟩)
      · exact absurd hzero hclean
      · refine .inr ⟨by omega, rfl, ?_⟩
        rintro p (_ | ⟨_, hp⟩)
        · exact ⟨r, hcode, by omega⟩
        · exact hall p hp

/-- On a card with codes the loop is left early in these cases only. -/
theorem readOutcomes_eq_zero (hecc : mcdi.useEcc = true) (outcomes : List (Option Page)) (ecres : ℤ)
    (hle : ecres ≤ 0)
    (buf : Words) : (∃ data, readOutcomes mcdi outcomes ecres buf = some (0, data)) ↔
    mcdi.Succeeds ecres outcomes := by
  induction outcomes generalizing ecres buf with
  | nil =>
    refine iff_of_false ?_ fun ⟨before, page, after, hsplit, _⟩ => by simp at hsplit
    rintro ⟨data, hdata⟩
    rw [readOutcomes] at hdata
    split at hdata <;> simp at hdata
  | cons outcome rest ih =>
    cases outcome with
    | none => rw [readOutcomes, ih ecres hle, DevInfo.succeeds_none_cons]
    | some page =>
      rw [readOutcomes, if_pos hecc, DevInfo.eccScan_eq page hle]
      by_cases herased : page.spare (mcdi.sparesize - 1) = mcdi.eraseByte
      · rw [if_pos herased]
        exact iff_of_true ⟨_, rfl⟩ ⟨[], page, rest, rfl, by simp, .inl herased⟩
      rw [if_neg herased]
      cases hcode : mcdi.codeResult page with
      | none =>
        refine iff_of_false (by simp) ?_
        rintro ⟨before, last, after, hsplit, hbefore, hpage⟩
        cases before with
        | nil =>
          obtain rfl := some.inj (cons.inj hsplit).1
          simp [DevInfo.Erased, herased, hcode] at hpage
        | cons outcome before =>
          obtain rfl := (cons.inj hsplit).1
          exact hbefore page mem_cons_self hcode
      | some r =>
        have hr := DevInfo.codeResult_le hcode
        simp only [Option.map_some, bind_eq_bind, bind_some]
        split_ifs with hclean hlast
        · exact iff_of_true ⟨_, rfl⟩ ⟨[], page, rest, rfl, by simp, .inr (.inl
            ⟨by omega, by simp, hcode.trans (congrArg some (by omega))⟩)⟩
        · obtain rfl := isEmpty_iff.mp hlast.1
          refine iff_of_true ⟨_, rfl⟩ ⟨[], page, [], rfl, by simp, .inr (.inr ⟨by omega, rfl, ?_⟩)⟩
          rintro p (_ | ⟨_, hp⟩)
          · exact ⟨r, hcode, by omega⟩
          · cases hp
        · rw [ih _ (by omega), DevInfo.succeeds_some_cons hle hcode herased hclean (by simpa using hlast)]

/-- The loop is left early on a card with codes only, and the buffer then holds the page of an attempt. -/
theorem readOutcomes_words (outcomes : List (Option Page)) (ecres : ℤ) (buf data : Words)
    (hzero : readOutcomes mcdi outcomes ecres buf = some (0, data)) : mcdi.useEcc = true ∧
      ∃ page, some page ∈ outcomes ∧ data = page.words := by
  induction outcomes generalizing ecres buf with
  | nil =>
    rw [readOutcomes] at hzero
    split at hzero <;> simp at hzero
  | cons outcome rest ih =>
    have hrest : ∀ ecres buf, readOutcomes mcdi rest ecres buf = some (0, data) → mcdi.useEcc = true ∧
        ∃ page, some page ∈ outcome :: rest ∧ data = page.words :=
      fun ecres buf hzero => (ih ecres buf hzero).imp id fun ⟨page, hmem, hwords⟩ =>
        ⟨page, mem_cons_of_mem _ hmem, hwords⟩
    cases outcome with
    | none => exact hrest ecres buf hzero
    | some page =>
      have hfound : some (0, page.words) = some ((0 : ℤ), data) → ∃ p, some p ∈ some page :: rest ∧ data =
        p.words := fun heq => ⟨page, mem_cons_self, (Prod.mk.inj (some.inj heq)).2.symm⟩
      rw [readOutcomes] at hzero
      by_cases hecc : mcdi.useEcc = true
      · refine ⟨hecc, ?_⟩
        rw [if_pos hecc] at hzero
        split at hzero
        · exact hfound hzero
        · obtain ⟨r, -, hzero⟩ := bind_eq_some_iff.mp hzero
          split_ifs at hzero
          · exact hfound hzero
          · exact hfound hzero
          · exact (hrest _ _ hzero).2
      · rw [if_neg hecc] at hzero
        exact hrest _ _ hzero

/-- Some attempt transfers a page that agrees with its code; without codes every page does. -/
def Attempts.SomeGood (mcdi : DevInfo) (attempts : Attempts) : Prop :=
  ∃ page, some page ∈ attempts.outcomes ∧ (mcdi.useEcc = true → page.Coded mcdi.groups)

/-- A good attempt is enough for a result, which is the page of an attempt; without any transfer there is none. -/
def Recovers (mcdi : DevInfo) (attempts : Attempts) (buf : Words) : Prop :=
  (attempts.SomeGood mcdi → ∃ data, readPage mcdi attempts buf = some (0, data) ∧
      ∃ page, some page ∈ attempts.outcomes ∧ data = page.words) ∧
    ((∀ outcome ∈ attempts.outcomes, outcome = none) → ∃ result ≠ 0, readPage mcdi attempts buf = some
      (result, buf))

/-- `McReadPage` recovers exactly when no attempt is good, or the card has codes and an attempt transfers an erased
page, the first page transferred agrees with its code, or the fifth attempt transfers and no page has two wrong
bits, and no repair before is stored behind the code buffer. -/
theorem readPage_recovers_iff (mcdi : DevInfo) (attempts : Attempts) (buf : Words) : Recovers mcdi attempts buf ↔
      (attempts.SomeGood mcdi → mcdi.useEcc = true ∧ mcdi.Succeeds 0 attempts.outcomes) := by
  have hwords := @readOutcomes_words mcdi attempts.outcomes 0 buf
  have hnone : ∀ outcomes : List (Option Page), (∀ outcome ∈ outcomes, outcome = none) →
      readOutcomes mcdi outcomes 0 buf = some (-1, buf) := by
    intro outcomes hall
    induction outcomes with
    | nil => rfl
    | cons outcome rest ih =>
      rw [hall outcome mem_cons_self]
      exact ih fun o ho => hall o (mem_cons_of_mem _ ho)
  refine ⟨fun h hgood => ?_, fun h => ⟨fun hgood => ?_, fun hall => ⟨-1, by decide, hnone _ hall⟩⟩⟩
  · obtain ⟨data, hread, -⟩ := h.1 hgood
    have hecc := (hwords data hread).1
    exact ⟨hecc, (readOutcomes_eq_zero hecc _ 0 le_rfl buf).mp ⟨data, hread⟩⟩
  · obtain ⟨hecc, hsucceeds⟩ := h hgood
    obtain ⟨data, hread⟩ := (readOutcomes_eq_zero hecc _ 0 le_rfl buf).mpr hsucceeds
    exact ⟨data, hread, (hwords data hread).2⟩

/-- A card without codes whose transfers all succeed is reported as changed. -/
theorem readPage_noEcc :
    (readPage ⟨4, 2, 8, false, false, 1, 2, by decide, by decide, by decide, by decide, by decide, by decide⟩
      ⟨List.replicate 5 (some ⟨fun _ => 0, fun _ => 0⟩), rfl⟩ fun _ => 0) = some (-1, fun _ => 0) := by
  rfl

end Ps2sdk.Mc
