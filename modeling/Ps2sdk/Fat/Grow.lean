import Ps2sdk.Fat.Alloc
import Ps2sdk.Fat.Driver

/-!
# Growing a file

`fat_writeFile` appends the clusters a write needs one by one. When they run out, it returns
`-ENOSPC` and leaves the clusters it got linked behind the old last cluster, while the record of
the file keeps the old one as its last. Only a write that got no cluster leaves the file as it was.
-/

namespace Ps2sdk.Fat

open Function List Option Nat Vol FatDriver

/-- The first entry that ends a chain. -/
def FatType.endLimit : FatType → ℕ
  | .fat12 => 0xFF8
  | .fat16 => 0xFFF8
  | .fat32 => 0xFFFFFF8

/-- The cluster behind `c`. -/
def Vol.link (v : Vol) (c : ℕ) : Option ℕ :=
  toLink v.partBpb.fatType.endLimit (v.entry c)

/-- The chain of a file: data clusters without repetition, linked to the end, and its last. -/
structure Vol.FileChain (v : Vol) (start : ℕ) (l : List ℕ) (last : ℕ) : Prop where
  linked : Linked v.link start l
  nodup : (start :: l).Nodup
  data : ∀ c ∈ start :: l, v.partBpb.IsData c
  last_eq : last = (start :: l).getLast (cons_ne_nil start l)

variable {v v' : Vol} {d d' : FatDriver} {start last fuel count c result : ℕ} {l : List ℕ}

theorem Vol.FileChain.last_data (h : v.FileChain start l last) : v.partBpb.IsData last :=
  h.data last (h.last_eq ▸ getLast_mem _)

theorem Vol.FileChain.last_entry (h : v.FileChain start l last) : v.partBpb.fatType.endLimit ≤ v.entry last := by
  have hnone := h.linked.last
  rw [← h.last_eq, link, toLink] at hnone
  by_contra hlt
  simp [hlt] at hnone

theorem FatBpb.WellFormed.lt_endLimit {bpb : FatBpb} (h : bpb.WellFormed) (hc : bpb.IsData c) :
    c < bpb.fatType.endLimit := by
  have hnum := h.numbers
  have hlt := hc.2
  have hmark : bpb.fatType.badMark < bpb.fatType.endLimit := by cases bpb.fatType <;> decide
  omega

/-! ## The allocation loop -/

theorem growFile_some {d₁ : FatDriver} (heq : d.getFreeCluster fuel last = some (result, d₁))
    (hne : result ≠ 0) : growFile fuel (count + 1) d last = growFile fuel count d₁ result := by
  cases result with
  | zero => exact absurd rfl hne
  | succ k => simp only [growFile, heq]

theorem growFile_zero {d₁ : FatDriver} (heq : d.getFreeCluster fuel last = some (0, d₁)) :
    growFile fuel (count + 1) d last = some (0, d₁) := by
  simp only [growFile, heq]

/-- The entries after an allocation behind `last`. -/
theorem FatDriver.Took.entry (h : d.Took d' last result) (hlast : last ≠ 0) (hc : d.vol.partBpb.InTable c) :
    d'.vol.entry c = update (update d.vol.entry last result) result
      d.vol.partBpb.fatType.endMark c := by
  have hentry := h.vol.entry c hc
  rwa [if_pos hlast] at hentry

/-- Growing a file leaves the other entries in use alone. -/
theorem FatDriver.AllocOk.growFile_entry (count : ℕ) : ∀ {d d' : FatDriver} {last r : ℕ},
    d.AllocOk → d.vol.Spotless → d.vol.partBpb.fatType ≠ .fat12 → d.vol.partBpb.IsData last → d.vol.entry last ≠ 0 →
    growFile fuel count d last = some (r, d') → d'.vol.partBpb = d.vol.partBpb ∧
      ∀ c, d.vol.partBpb.IsData c → c ≠ last → d.vol.entry c ≠ 0 → d'.vol.entry c = d.vol.entry c := by
  induction count with
  | zero =>
    intro d d' last r _ _ _ _ _ heq
    cases heq
    exact ⟨rfl, fun _ _ _ _ => rfl⟩
  | succ count ih =>
    intro d d' last r hok hspotless h12 hlast hused heq
    obtain ⟨result, d₁, hget, hok₁, htook | ⟨rfl, hvol, -⟩⟩ :=
      hok.getFreeCluster (.inr ⟨hlast, hused⟩) (fun ht => absurd ht h12) (hspotless.scansData hok.wf)
    · have hne : result ≠ 0 := by have := htook.data.1; omega
      have hlastne : last ≠ 0 := by have := hlast.1; omega
      have hbpb := htook.vol.bpb
      have hmark : d.vol.partBpb.fatType.endMark ≠ 0 := by cases d.vol.partBpb.fatType <;> decide
      rw [growFile_some hget hne] at heq
      have hresult : d₁.vol.entry result ≠ 0 := by
        rwa [htook.entry hlastne (hok.wf.inTable htook.data), update_self]
      have hspotless₁ := hspotless.allocates hok.wf (.inr ⟨hlast, hused⟩) htook.data htook.vol
      obtain ⟨hbpb', hrest⟩ := ih hok₁ hspotless₁ (hbpb ▸ h12) (hbpb ▸ htook.data) hresult heq
      refine ⟨hbpb'.trans hbpb, fun c hc hcl hcu => ?_⟩
      have hcr : c ≠ result := fun h => hcu (h ▸ htook.free)
      have hsame : d₁.vol.entry c = d.vol.entry c := by
        rw [htook.entry hlastne (hok.wf.inTable hc), update_of_ne hcr, update_of_ne hcl]
      rw [hrest c (hbpb ▸ hc) hcr (hsame ▸ hcu), hsame]
    · rw [growFile_zero hget] at heq
      cases heq
      exact ⟨by rw [hvol], fun c _ _ _ => by rw [hvol]⟩

/-! ## FAT12

The FAT12 scan goes on behind the data area until the stack is full, so that it never runs out.
-/

/-- Where every sector can be read, the FAT12 scan fills the stack. -/
theorem Vol.scan12_fills (hss : 0 < v.partBpb.sectorSize) (hread : ∀ s, v.bad s = false) (fuel : ℕ) :
    ∀ {c room buffered lastFatSector sbuf found failed}, v.Buffers buffered lastFatSector sbuf →
      v.scan12 fuel c lastFatSector sbuf room = some (found, failed) →
      failed = false ∧ found.length = room ∧
        (∀ x ∈ found, c ≤ x) ∧ (v.seen12 buffered c ≠ 0 → c ∉ found) := by
  induction fuel with
  | zero =>
    intro c room buffered lastFatSector sbuf found failed _ heq
    cases room with
    | zero =>
      cases heq
      simp
    | succ room => cases heq
  | succ fuel ih =>
    intro c room buffered lastFatSector sbuf found failed hbuf heq
    cases room with
    | zero =>
      cases heq
      simp
    | succ room =>
      obtain ⟨sbuf', hget, hbuf'⟩ := hbuf.getRecord12 hss hread c
      simp only [scan12, hget] at heq
      by_cases hzero : v.seen12 buffered c = 0
      · rw [if_pos hzero, map_eq_some_iff] at heq
        obtain ⟨⟨more, failed'⟩, hmore, hpair⟩ := heq
        cases hpair
        obtain ⟨hfailed, hlength, hle, -⟩ := ih hbuf' hmore
        refine ⟨hfailed, by simp [hlength], fun x hx => ?_, fun hne => absurd hzero hne⟩
        obtain rfl | hx := mem_cons.1 hx
        · exact le_refl x
        · exact le_of_succ_le (hle x hx)
      · rw [if_neg hzero] at heq
        obtain ⟨hfailed, hlength, hle, -⟩ := ih hbuf' heq
        exact ⟨hfailed, hlength, fun x hx => le_of_succ_le (hle x hx),
          fun _ hin => not_succ_le_self c (hle c hin)⟩

/-- A FAT12 driver past its first scan, whatever clusters it has found. -/
structure FatDriver.Scanned12 (d : FatDriver) : Prop where
  fat12 : d.vol.partBpb.fatType = .fat12
  sector : 0 < d.vol.partBpb.sectorSize
  copies : 0 < d.vol.partBpb.fatCount
  read : ∀ s, d.vol.bad s = false
  stack : 0 ∉ d.clStack
  mark : d.clStackLast ≠ 0

/-- The loop over the copies keeps what storing in one copy keeps. -/
theorem saveCopies_keeps {save : ℕ → Vol → ℤ × Vol} {P : Vol → Prop} (hsave : ∀ f u, P u → P (save f u).2) :
    ∀ (copies : List ℕ) (ret : ℤ) (u : Vol), P u → P (saveCopies save copies ret u).2 := by
  intro copies
  induction copies with
  | nil => exact fun _ _ hu => hu
  | cons f rest ih =>
    intro ret u hu
    simp only [saveCopies]
    split
    · exact hsave f u hu
    · exact ih _ _ (hsave f u hu)

/-- Storing a FAT12 record succeeds for any cluster, and keeps the geometry. -/
theorem Vol.modifyClusterChain_fat12 (ht : v.partBpb.fatType = .fat12) (hread : ∀ s, v.bad s = false)
    (hcount : 0 < v.partBpb.fatCount) (c value : ℕ) : 0 ≤ (v.modifyClusterChain c value).1 ∧
      (v.modifyClusterChain c value).2.partBpb = v.partBpb ∧
      (v.modifyClusterChain c value).2.bad = v.bad := by
  have heq : v.modifyClusterChain c value = v.saveClusterRecord12 c value := by
    rw [modifyClusterChain, ht]
  have hsector : ∀ (u : Vol) sector change, (u.modifySector sector change).2.partBpb = u.partBpb := by
    intro u sector change
    unfold modifySector
    split <;> rfl
  rw [heq]
  refine ⟨FatType.saveClusterRecord_reads .fat12 hread hcount c value,
    saveCopies_keeps (P := fun u => u.partBpb = v.partBpb ∧ u.bad = v.bad) (fun f u hu => ⟨?_, ?_⟩) _ _ v
      ⟨rfl, rfl⟩⟩
  · simp only [saveCopy12]
    split
    · split
      · exact (hsector _ _ _).trans hu.1
      · exact (hsector _ _ _).trans ((hsector _ _ _).trans hu.1)
    · exact (hsector _ _ _).trans hu.1
  · exact (saveCopy12_reads hread f hu.2).2

/-- Popping a FAT12 stack gives the cluster on its top. -/
theorem FatDriver.Scanned12.pop (h : d.Scanned12) (hstack : d.clStack ≠ []) (last : ℕ) :
    (d.popFreeCluster last).1 ≠ 0 ∧ (d.popFreeCluster last).2.Scanned12 := by
  obtain ⟨result, rest, hcons⟩ := exists_cons_of_ne_nil hstack
  have hzero := h.stack
  rw [hcons, mem_cons, not_or] at hzero
  have hsave : ∀ {u : Vol}, u.partBpb = d.vol.partBpb → u.bad = d.vol.bad → ∀ c value,
      0 ≤ (u.modifyClusterChain c value).1 ∧
        (u.modifyClusterChain c value).2.partBpb = d.vol.partBpb ∧
        (u.modifyClusterChain c value).2.bad = d.vol.bad := by
    intro u hbpb hbad c value
    rw [← hbpb, ← hbad]
    exact u.modifyClusterChain_fat12 (hbpb ▸ h.fat12) (hbad ▸ h.read) (hbpb ▸ h.copies) c value
  have hlink : ∀ answer : ℤ × Vol, answer = (if last ≠ 0 then d.vol.appendClusterChain last result
      else d.vol.createClusterChain result) →
      0 ≤ answer.1 ∧ answer.2.partBpb = d.vol.partBpb ∧ answer.2.bad = d.vol.bad := by
    rintro answer rfl
    split
    · obtain ⟨hret, hbpb, hbad⟩ := hsave rfl rfl last result
      simp only [appendClusterChain, Int.not_lt.2 hret, if_false]
      exact hsave hbpb hbad _ _
    · exact hsave rfl rfl _ _
  obtain ⟨hret, hbpb, hbad⟩ := hlink _ rfl
  simp only [popFreeCluster, hcons, onVol, Int.not_lt.2 hret, if_false]
  exact ⟨fun h => hzero.1 h.symm, hbpb ▸ h.fat12, hbpb ▸ h.sector, hbpb ▸ h.copies, hbad ▸ h.read, hzero.2, h.mark⟩

/-- The FAT12 scan fills the stack with clusters other than 0. -/
theorem FatDriver.scanned12_refill {ret : ℤ} (ht : d.vol.partBpb.fatType = .fat12)
    (hss : 0 < d.vol.partBpb.sectorSize) (hcopies : 0 < d.vol.partBpb.fatCount)
    (hread : ∀ s, d.vol.bad s = false) (hfirst : d.clStackLast ≠ 0 ∨ d.vol.entry 0 ≠ 0)
    (heq : d.readEmptyClusters fuel = some (ret, d')) : 0 < ret ∧ d'.Scanned12 ∧ d'.clStack ≠ [] := by
  rw [readEmptyClusters, ht, map_eq_some_iff] at heq
  obtain ⟨⟨found, failed⟩, hscan, hpair⟩ := heq
  have hbuf : d.vol.Buffers none none fun _ => 0 := ⟨rfl, fun _ _ h => by cases h⟩
  obtain ⟨rfl, hlength, hle, hnot⟩ := d.vol.scan12_fills hss hread fuel hbuf hscan
  have hzero : 0 ∉ found := by
    intro hin
    obtain hmark | hentry := hfirst
    · exact hmark (le_zero.1 (hle 0 hin))
    · have hlast := le_zero.1 (hle 0 hin)
      rw [hlast] at hnot
      refine hnot (fun hseen => hentry ?_) hin
      have hsame : d.vol.seen12 none 0 = entry12 (d.vol.fatBytes 0) 0 :=
        seen12_eq one_pos (by decide) (by simp)
      rw [entry, ht]
      exact hsame.symm.trans hseen
  have hpos : found ≠ [] := by
    rintro rfl
    cases hlength
  cases hpair
  refine ⟨by simp [hlength, maxClusterStack], ⟨ht, hss, hcopies, hread, hzero, ?_⟩, hpos⟩
  rw [getLastD_eq_getLast?, getLast?_eq_some_getLast hpos]
  exact fun hlast => hzero (hlast ▸ getLast_mem hpos)

/-- The FAT12 allocation loop never runs out. -/
theorem growFile_fat12 (count : ℕ) : ∀ {d d' : FatDriver} {last : ℕ},
    d.vol.partBpb.fatType = .fat12 → d.AllocOk ∧ d.vol.Spotless ∧ d.vol.Links last ∨ d.Scanned12 → last ≠ 0 →
    growFile fuel count d last ≠ some (0, d') := by
  induction count with
  | zero =>
    intro d d' last _ _ hlast heq
    cases heq
    exact hlast rfl
  | succ count ih =>
    intro d d' last ht hd hlast heq
    -- what one allocation gives, before the table is full and after
    have hstep : ∀ {result d₁}, d.getFreeCluster fuel last = some (result, d₁) →
        result ≠ 0 ∧ d₁.vol.partBpb.fatType = .fat12 ∧
          (d₁.AllocOk ∧ d₁.vol.Spotless ∧ d₁.vol.Links result ∨ d₁.Scanned12) := by
      intro result d₁ hget
      by_cases hstack : d.clStack = []
      · rw [getFreeCluster, if_pos hstack, map_eq_some_iff] at hget
        obtain ⟨⟨ret, d₂⟩, hrefill, hpair⟩ := hget
        obtain ⟨hret, hscanned, hne⟩ : 0 < ret ∧ d₂.Scanned12 ∧ d₂.clStack ≠ [] := by
          obtain ⟨hok, hspotless, -⟩ | hs := hd
          · refine scanned12_refill ht hok.wf.sector hok.wf.copies hok.read (.inr ?_) hrefill
            exact hspotless.strays 0 (by simp [scanEnd, ht]) fun hdata => absurd hdata.1 (by decide)
          · exact scanned12_refill ht hs.sector hs.copies hs.read (.inl hs.mark) hrefill
        dsimp only at hpair
        rw [if_neg (by omega)] at hpair
        have hpop := hscanned.pop hne last
        rw [hpair] at hpop
        exact ⟨hpop.1, hpop.2.fat12, .inr hpop.2⟩
      · rw [getFreeCluster, if_neg hstack, map_some, some.injEq] at hget
        dsimp only at hget
        rw [if_neg (by decide)] at hget
        obtain ⟨hok, hspotless, hlinks⟩ | hs := hd
        · obtain ⟨hok', htook⟩ := hok.popFreeCluster hlinks hstack
          rw [hget] at hok' htook
          have hpos := htook.data.1
          have hbpb := htook.vol.bpb
          have hspotless' := hspotless.allocates hok.wf hlinks htook.data htook.vol
          refine ⟨by omega, hbpb ▸ ht, .inl ⟨hok', hspotless', .inr ⟨hbpb ▸ htook.data, ?_⟩⟩⟩
          rw [htook.entry hlast (hok.wf.inTable htook.data), update_self, ht]
          decide
        · have hpop := hs.pop hstack last
          rw [hget] at hpop
          exact ⟨hpop.1, hpop.2.fat12, .inr hpop.2⟩
    cases hget : d.getFreeCluster fuel last with
    | none =>
      simp only [growFile, hget] at heq
      cases heq
    | some answer =>
      obtain ⟨hne, ht₁, hd₁⟩ := hstep hget
      rw [growFile_some hget hne] at heq
      exact ih ht₁ hd₁ hne heq

/-! ## Writes that do not fit -/

/-- When the loop runs out, either no cluster was free, or the last cluster is now linked to the
first one that was. -/
theorem FatDriver.AllocOk.growFile_full (h : d.AllocOk) (hspotless : d.vol.Spotless)
    (hlast : d.vol.partBpb.IsData last)
    (hused : d.vol.entry last ≠ 0) (heq : growFile fuel count d last = some (0, d')) :
    (d'.vol = d.vol ∧ ∀ c, d.vol.partBpb.IsData c → d.vol.entry c ≠ 0) ∨
      ∃ g, d.vol.partBpb.IsData g ∧ d.vol.entry g = 0 ∧ d'.vol.partBpb = d.vol.partBpb ∧
        d'.vol.entry last = g := by
  have hlastne : last ≠ 0 := by have := hlast.1; omega
  have hlinks : d.vol.Links last := .inr ⟨hlast, hused⟩
  have h12 : d.vol.partBpb.fatType ≠ .fat12 := fun ht =>
    growFile_fat12 count ht (.inl ⟨h, hspotless, hlinks⟩) hlastne heq
  cases count with
  | zero =>
    cases heq
    exact absurd rfl hlastne
  | succ count =>
    obtain ⟨g, d₁, hget, hok₁, htook | ⟨rfl, hvol, hnone⟩⟩ :=
      h.getFreeCluster hlinks (fun ht => absurd ht h12) (hspotless.scansData h.wf)
    · have hg := htook.data.1
      have hbpb := htook.vol.bpb
      have hlg : last ≠ g := fun h => hused (h ▸ htook.free)
      have hentry : d₁.vol.entry last = g := by
        rw [htook.entry hlastne (h.wf.inTable hlast), update_of_ne hlg, update_self]
      have hmark : d₁.vol.entry g ≠ 0 := by
        rw [htook.entry hlastne (h.wf.inTable htook.data), update_self]
        cases d.vol.partBpb.fatType <;> decide
      rw [growFile_some hget (by omega)] at heq
      have hspotless₁ := hspotless.allocates h.wf hlinks htook.data htook.vol
      obtain ⟨hbpb', hrest⟩ := hok₁.growFile_entry count hspotless₁ (hbpb ▸ h12) (hbpb ▸ htook.data) hmark heq
      refine .inr ⟨g, htook.data, htook.free, hbpb'.trans hbpb, ?_⟩
      rw [hrest last (hbpb ▸ hlast) hlg (by omega), hentry]
    · rw [growFile_zero hget] at heq
      cases heq
      exact .inl ⟨hvol, hnone⟩

/-- What copying to sectors moves and leaves is no more than there was. -/
theorem Vol.writeSectors_le (m : ℕ) (sectors : List ℕ) : ∀ (v : Vol) (data : List UInt8) (skip : ℕ),
    (v.writeSectors m sectors data skip).1.1 + (v.writeSectors m sectors data skip).1.2.1.length ≤
      data.length := by
  induction sectors with
  | nil => simp [writeSectors]
  | cons sector rest ih =>
    intro v data skip
    have hn : transferSize m data.length skip ≤ data.length := by
      simp only [transferSize]
      split <;> split <;> omega
    simp only [writeSectors]
    generalize v.modifySector sector _ = answer
    split
    · simp
    · split
      · simp
      · have hrest := ih answer.2 (data.drop (transferSize m data.length skip)) 0
        rw [length_drop] at hrest
        generalize answer.2.writeSectors m rest _ 0 = tail at hrest ⊢
        obtain ⟨⟨moved, left, more⟩, vol⟩ := tail
        dsimp only at hrest ⊢
        omega

/-- A write moves no more bytes than it was given. -/
theorem writeWindows_le (lookup : ChainLookup) (n : ℕ) : ∀ (d : FatDriver) (cluster : ℕ) (flag : Bool)
    (clusterSkip sectorSkip dataSkip : ℕ) (data : List UInt8),
    (writeWindows lookup n d cluster flag clusterSkip sectorSkip dataSkip data).1 ≤ data.length := by
  induction n with
  | zero => simp [writeWindows]
  | succ n ih =>
    intro d cluster flag clusterSkip sectorSkip dataSkip data
    simp only [writeWindows]
    generalize ((Window.fetch lookup d cluster true flag).skip lookup (clusterSkip / maxDirCluster)) = w
    have hle := writeSectors_le d.massSectorSize (w.sectors (clusterSkip % maxDirCluster) sectorSkip) w.d.vol
      data dataSkip
    split
    · exact zero_le _
    · split
      · exact Nat.le_trans (Nat.le_add_right _ _) hle
      · exact Nat.le_trans (Nat.add_le_add_left (ih _ _ _ _ _ _ _) _) hle

/-- After a write that found no space: the table is as before, or the file has one chain with
all the clusters taken, and its record names the last of them. -/
def Vol.KeepsFile (v v' : Vol) (fatDir : FatDir) : Prop :=
  (∀ c, v.partBpb.InTable c → v'.entry c = v.entry c) ∨
    ∃ l, v'.FileChain fatDir.startCluster l fatDir.lastCluster ∧
      ∀ c, v.partBpb.IsData c → v.entry c = 0 → v'.entry c ≠ 0 → c ∈ fatDir.startCluster :: l

variable {lookup : ChainLookup} {fatDir : FatDir} {filePos : ℕ} {data : List UInt8} {r : WriteResult}

theorem asInt_ne {n : ℕ} (hn : n < 2 ^ 32 - 28) : asInt n ≠ -28 := by
  unfold asInt
  split <;> omega

/-- A write returns `-ENOSPC` when the file cannot be grown. -/
theorem writeFile_full (hsize : data.length < 2 ^ 32 - 28)
    (hwrite : writeFile lookup fuel d fatDir filePos data = some r) (hret : r.ret = -28) :
    ∃ d', r = ⟨-28, d', fatDir, false⟩ ∧ (fatDir.lastCluster = 0 ∧ d' = d ∨
      fatDir.lastCluster ≠ 0 ∧ ∃ count, growFile fuel count d fatDir.lastCluster = some (0, d')) := by
  rw [writeFile, map_eq_some_iff] at hwrite
  obtain ⟨grown, hgrow, rfl⟩ := hwrite
  cases grown with
  | error d' =>
    refine ⟨d', rfl, ?_⟩
    unfold growForWrite at hgrow
    split at hgrow
    · cases hgrow
    · split at hgrow
      · cases hgrow
        exact .inl ⟨‹_›, rfl⟩
      · obtain ⟨⟨lastCluster, d₁⟩, hgrown, hpair⟩ := map_eq_some_iff.1 hgrow
        dsimp only at hpair
        split at hpair
        · cases hpair
          exact .inr ⟨‹_›, _, by rw [hgrown, ‹lastCluster = 0›]⟩
        · cases hpair
  | ok answer =>
    dsimp only at hret
    split at hret
    · cases hret
    · exact absurd hret (asInt_ne (lt_of_le_of_lt (writeWindows_le _ _ _ _ _ _ _ _ _) hsize))

/-- On a volume without I/O errors whose scans meet free data clusters only, a write to a file that
returns `-ENOSPC` keeps the file's chain exactly when it took no cluster: the file had none, or none was free. -/
theorem writeFile_enospc_iff (h : d.AllocOk) (hspotless : d.vol.Spotless)
    (hfile : fatDir.lastCluster = 0 ∨ ∃ l, d.vol.FileChain fatDir.startCluster l fatDir.lastCluster)
    (hsize : data.length < 2 ^ 32 - 28)
    (hwrite : writeFile lookup fuel d fatDir filePos data = some r) (hret : r.ret = -28) :
    d.vol.KeepsFile r.d.vol r.fatDir ↔
      fatDir.lastCluster = 0 ∨ ∀ c, d.vol.partBpb.IsData c → d.vol.entry c ≠ 0 := by
  obtain ⟨d', rfl, ⟨hzero, rfl⟩ | ⟨hne, count, heq⟩⟩ := writeFile_full hsize hwrite hret
  · exact ⟨fun _ => .inl hzero, fun _ => .inl fun _ _ => rfl⟩
  · obtain ⟨l, hchain⟩ := hfile.resolve_left hne
    have hlast := hchain.last_data
    have hend := hchain.last_entry
    have hlimit : d.vol.partBpb.fatType.endLimit ≠ 0 := by cases d.vol.partBpb.fatType <;> decide
    obtain ⟨hvol, hnone⟩ | ⟨g, hg, hfree, hbpb, hlink⟩ := h.growFile_full hspotless hlast (by omega) heq
    · exact ⟨fun _ => .inr hnone, fun _ => .inl fun c _ => by rw [hvol]⟩
    · have hlt := h.wf.lt_endLimit hg
      refine ⟨fun hkeeps => ?_, fun hcond => absurd hfree (hcond.resolve_left hne g hg)⟩
      obtain hsame | ⟨l', hchain', -⟩ := hkeeps
      · have heq := hsame fatDir.lastCluster (h.wf.inTable hlast)
        dsimp only at heq
        omega
      · have hend' := hchain'.last_entry
        rw [hbpb, hlink] at hend'
        omega

/-- A table of this size has no record outside the data area but the first two. -/
theorem strays_roomyVolume (hbpb : v.partBpb = roomyVolume.partBpb) (h0 : v.entry 0 ≠ 0)
    (h1 : v.entry 1 ≠ 0) : ∀ c < v.scanEnd, ¬ v.partBpb.IsData c → v.entry c ≠ 0 := by
  intro c hc hdata
  rw [scanEnd, hbpb] at hc
  rw [hbpb] at hdata
  have hlow : c < 2 := by
    by_contra hge
    exact hdata ⟨by omega, hc⟩
  obtain rfl | rfl : c = 0 ∨ c = 1 := by omega
  · exact h0
  · exact h1

/-- A FAT16 volume on which every data cluster is a file of one cluster, but for
cluster 4094, which is free. -/
def shortVolume : Vol where
  partBpb := roomyVolume.partBpb
  sectors := fun s k => if 1 ≤ s ∧ s ≤ 16 ∧ ¬ (s = 16 ∧ (k = 508 ∨ k = 509)) then 0xFF else 0
  bad := fun _ => false

/-- The file of cluster 2. -/
def shortFile : FatDir where
  size := 512
  startCluster := 2
  lastCluster := 2
  chain := fun _ => ⟨2, 0⟩

theorem writeFile_enospc_iff_shortVolume : ∃ r, writeFile FatDriver.getClusterChain 0
    (FatDriver.fresh shortVolume) shortFile 512 (List.replicate 1024 0) = some r ∧ r.ret = -28 ∧
      (shortVolume.KeepsFile r.d.vol r.fatDir ↔ shortFile.lastCluster = 0 ∨
        ∀ c, shortVolume.partBpb.IsData c → shortVolume.entry c ≠ 0) := by
  have hok : (fresh shortVolume).AllocOk :=
    allocOk_mount (v := shortVolume) wellFormed_roomyVolume (fun _ => rfl) _ _
  have hspotless : shortVolume.Spotless :=
    ⟨strays_roomyVolume rfl (by decide) (by decide), fun ht => absurd ht (by decide)⟩
  have hchain : shortVolume.FileChain 2 [] 2 :=
    ⟨(by decide +kernel : shortVolume.link 2 = none), by decide, by decide, rfl⟩
  have hret : (writeFile getClusterChain 0 (fresh shortVolume) shortFile 512
      (replicate 1024 0)).map WriteResult.ret = some (-28) := by decide +kernel
  obtain ⟨r, hr, hret⟩ := map_eq_some_iff.1 hret
  exact ⟨r, hr, hret, writeFile_enospc_iff hok hspotless (.inr ⟨[], hchain⟩)
    (by rw [length_replicate]; decide) hr hret⟩

/-- A write of two clusters takes the only free one and returns `-ENOSPC`. When the file of
cluster 4095 is deleted and one cluster is written, cluster 4094 is cut off from the chain. -/
theorem writeFile_loses_cluster :
    ((writeFile FatDriver.getClusterChain 0 (FatDriver.fresh shortVolume) shortFile 512
        (List.replicate 1024 0)).bind fun r =>
      (r.d.deleteClusterChain 1 4095).bind fun (_, d) =>
        (writeFile FatDriver.getClusterChain 0 d r.fatDir 512 (List.replicate 512 0)).map fun r' =>
          (r.ret, r.d.vol.entry 2, r'.ret, r'.d.vol.entry 2, r'.d.vol.entry 4094)) =
      some (-28, 4094, 512, 4095, 0xFFFF) := by
  decide +kernel

end Ps2sdk.Fat
