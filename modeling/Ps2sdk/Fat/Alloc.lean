import Ps2sdk.Lib.Run
import Ps2sdk.Fat.Scan

/-!
# Allocating clusters

The stack of free clusters is sound: it holds distinct free data clusters. It is complete as
long as no cluster behind the search mark is freed: every other free data cluster lies at or
above the mark. Both are kept by every allocation whose scan meets free data clusters only, and
by every deletion that frees clusters ahead of the mark only.
-/

namespace Ps2sdk.Fat

open Lib Function List Nat Vol FatDriver

/-- What allocation relies on. -/
structure FatDriver.AllocOk (d : FatDriver) : Prop where
  wf : d.vol.partBpb.WellFormed
  read : ∀ s, d.vol.bad s = false
  sound : ∀ c ∈ d.clStack, d.vol.partBpb.IsData c ∧ d.vol.entry c = 0
  nodup : d.clStack.Nodup
  complete : ∀ c, d.vol.partBpb.IsData c → d.vol.entry c = 0 → c ∈ d.clStack ∨ d.clStackLast ≤ c

/-- What a scan meets if the stack is empty: the records it takes are data clusters, and no free data
cluster from the mark on has reserved bits. -/
def FatDriver.ScansData (d : FatDriver) : Prop :=
  d.clStack = [] → (∀ c ∈ d.freeAhead, d.vol.partBpb.IsData c) ∧ (d.vol.partBpb.fatType = .fat32 →
    ∀ c < d.vol.partBpb.clusterCount + 2, 2 ≤ c → d.clStackLast ≤ c → d.vol.entry c = 0 → d.vol.looksFree c = true)

/-- No record outside the data area is zero where a scan passes, and no reserved bits are set. -/
structure Vol.Spotless (v : Vol) : Prop where
  strays : ∀ c < v.scanEnd, ¬ v.partBpb.IsData c → v.entry c ≠ 0
  reserved : v.partBpb.fatType = .fat32 → ∀ c, v.partBpb.InTable c → reserved32 (v.fatBytes 0) c = 0

variable {d : FatDriver} {v : Vol} {c fuel currentCluster : ℕ}

theorem FatBpb.lt_records {bpb : FatBpb} {w : ℕ} (hw : w ∣ bpb.sectorSize) (hpos : 0 < w) :
    c < bpb.fatSize * (bpb.sectorSize / w) ↔ w * c + w ≤ bpb.tableSize := by
  rw [← Nat.mul_div_assoc _ hw, ← Nat.succ_le_iff, Nat.le_div_iff_mul_le hpos, Nat.succ_mul, Nat.mul_comm]
  rfl

/-- The scan stays inside the table. -/
theorem FatBpb.WellFormed.inTable_of_lt (hw : v.partBpb.WellFormed) (hc : c < v.scanEnd) : v.partBpb.InTable c := by
  have hcovers := hw.covers
  unfold scanEnd at hc
  unfold FatBpb.InTable at hcovers ⊢
  cases ht : v.partBpb.fatType with
  | fat12 =>
    rw [ht] at hc hcovers
    exact (FatType.fat12.recordEnd_mono (le_of_lt_succ hc)).trans hcovers
  | fat16 =>
    rw [ht] at hc
    exact (FatBpb.lt_records ((by decide : 2 ∣ 4).trans hw.aligned) (by decide)).mp hc
  | fat32 =>
    rw [ht] at hc
    exact (FatBpb.lt_records hw.aligned (by decide)).mp hc

/-- The scan reaches every data cluster. -/
theorem FatBpb.WellFormed.lt_scanEnd (hw : v.partBpb.WellFormed) (hc : v.partBpb.IsData c) : c < v.scanEnd := by
  have hin := hw.inTable hc
  unfold scanEnd
  unfold FatBpb.InTable at hin
  cases ht : v.partBpb.fatType with
  | fat12 => exact hc.2
  | fat16 =>
    rw [ht] at hin
    exact (FatBpb.lt_records ((by decide : 2 ∣ 4).trans hw.aligned) (by decide)).mpr hin
  | fat32 =>
    rw [ht] at hin
    exact (FatBpb.lt_records hw.aligned (by decide)).mpr hin

/-- What looks free to the scan has a zero entry. -/
theorem Vol.entry_eq_zero_of_looksFree (h : v.looksFree c = true) : v.entry c = 0 := by
  unfold looksFree at h
  unfold entry
  cases ht : v.partBpb.fatType with
  | fat12 => simpa [ht, FatType.entry] using h
  | fat16 => simpa [ht, FatType.entry] using h
  | fat32 =>
    rw [ht] at h
    have hrecord : record32 (v.fatBytes 0) c = 0 := by
      simp only [Bool.and_eq_true, decide_eq_true_eq] at h
      exact h.1
    simp [FatType.entry, entry32, hrecord]

theorem FatDriver.ScansData.looksFree (h : d.ScansData) (hempty : d.clStack = []) (hc : d.vol.partBpb.IsData c)
    (hmark : d.clStackLast ≤ c) (hfree : d.vol.entry c = 0) : d.vol.looksFree c = true := by
  cases ht : d.vol.partBpb.fatType with
  | fat12 => simpa [Vol.looksFree, Vol.entry, ht, FatType.entry] using hfree
  | fat16 => simpa [Vol.looksFree, Vol.entry, ht, FatType.entry] using hfree
  | fat32 => exact (h hempty).2 ht c hc.2 hc.1 hmark hfree

/-- The scans of a table without strays meet data clusters. -/
theorem Vol.Spotless.scansData (h : d.vol.Spotless) (hw : d.vol.partBpb.WellFormed) : d.ScansData := by
  refine fun _ => ⟨fun c hc => ?_, fun ht c hlt hlow _ hfree => ?_⟩
  · obtain ⟨⟨-, hend⟩, hlooks⟩ := of_mem_firstFrom hc
    by_contra hstray
    exact h.strays c hend hstray (entry_eq_zero_of_looksFree hlooks)
  · have hnum := hw.numbers
    have hreserved := h.reserved ht c (hw.inTable ⟨hlow, hlt⟩)
    unfold Vol.entry at hfree
    unfold Vol.looksFree
    rw [ht] at hfree hnum ⊢
    have hbound : c < 0xFFFFFF7 := lt_of_lt_of_le hlt hnum
    have hrecord : record32 (d.vol.fatBytes 0) c = 0 := by
      simp only [FatType.entry, entry32_eq, reserved32, shiftRight_eq_div_pow] at hfree hreserved
      omega
    simp [hrecord, hbound]

/-- The refilled stack is as good as the empty one was. -/
theorem FatDriver.AllocOk.refill (h : d.AllocOk) (hscan : d.ScansData) (hempty : d.clStack = []) :
    ({ d with clStack := d.freeAhead, clStackLast := d.freeAhead.getLastD d.clStackLast } :
      FatDriver).AllocOk := by
  refine { h with
    sound := fun c hc => ⟨(hscan hempty).1 c hc, entry_eq_zero_of_looksFree (of_mem_firstFrom hc).2⟩
    nodup := nodup_firstFrom
    complete := ?_ }
  intro c hc hfree
  have hmark : d.clStackLast ≤ c := by simpa [hempty] using h.complete c hc hfree
  exact mem_firstFrom_or_mark_le ⟨⟨hmark, h.wf.lt_scanEnd hc⟩, hscan.looksFree hempty hc hmark hfree⟩

/-- The volume after an allocation: the cluster ends its chain, and is linked from the old end. -/
def Vol.Allocates (v v' : Vol) (currentCluster result : ℕ) : Prop :=
  v.Retabled v' (Function.update
    (if currentCluster ≠ 0 then Function.update v.entry currentCluster result else v.entry)
    result v.partBpb.fatType.endMark)

/-- An allocated cluster can be linked from a cluster in use. -/
def Vol.Links (v : Vol) (currentCluster : ℕ) : Prop :=
  currentCluster = 0 ∨ v.partBpb.IsData currentCluster ∧ v.entry currentCluster ≠ 0

/-- Taking the top of the stack links it and marks it as the end. -/
theorem FatDriver.AllocOk.link (h : d.AllocOk) (hcur : d.vol.Links currentCluster) {result : ℕ}
    (hresult : d.vol.partBpb.IsData result) {ret : ℤ} {vol' : Vol}
    (heq : (if currentCluster ≠ 0 then d.vol.appendClusterChain currentCluster result
      else d.vol.createClusterChain result) = (ret, vol')) :
    0 ≤ ret ∧ d.vol.Allocates vol' currentCluster result := by
  unfold Vol.Allocates
  by_cases hzero : currentCluster = 0
  · obtain ⟨hret, htable⟩ := createClusterChain_retabled h.wf h.read (h.wf.inTable hresult)
    simp only [hzero, ne_eq, not_true_eq_false, if_false] at heq ⊢
    rw [heq] at hret htable
    exact ⟨hret, htable⟩
  · obtain ⟨hdata, -⟩ := hcur.resolve_left hzero
    obtain ⟨hret, htable⟩ := appendClusterChain_retabled h.wf h.read (h.wf.inTable hdata) hresult
    simp only [hzero, ne_eq, not_false_eq_true, if_true] at heq ⊢
    rw [heq] at hret htable
    exact ⟨hret, htable⟩

/-- Changes of the table that fit the stack. -/
theorem FatDriver.AllocOk.retabled (h : d.AllocOk) {vol' : Vol} {entries : ℕ → ℕ}
    (htable : d.vol.Retabled vol' entries) {stack : List ℕ} {mark : ℕ}
    (hsound : ∀ c ∈ stack, d.vol.partBpb.IsData c ∧ entries c = 0) (hnodup : stack.Nodup)
    (hcomplete : ∀ c, d.vol.partBpb.IsData c → entries c = 0 → c ∈ stack ∨ mark ≤ c)
    {d' : FatDriver} (hvol : d'.vol = vol') (hstack : d'.clStack = stack)
    (hmark : d'.clStackLast = mark) : d'.AllocOk := by
  subst hvol hstack hmark
  have hbpb := htable.bpb
  constructor
  · exact hbpb ▸ h.wf
  · exact fun s => htable.bad ▸ h.read s
  · intro c hc
    obtain ⟨hdata, hfree⟩ := hsound c hc
    rw [hbpb, htable.entry c (h.wf.inTable hdata)]
    exact ⟨hdata, hfree⟩
  · exact hnodup
  · intro c hdata hfree
    rw [hbpb] at hdata
    rw [htable.entry c (h.wf.inTable hdata)] at hfree
    exact hcomplete c hdata hfree

/-- An allocation leaves the records outside the data area. -/
theorem Vol.Spotless.allocates (h : v.Spotless) (hw : v.partBpb.WellFormed) (hcur : v.Links currentCluster)
    {result : ℕ}
    (hresult : v.partBpb.IsData result) {v' : Vol} (hvol : v.Allocates v' currentCluster result) : v'.Spotless := by
  have hend : v'.scanEnd = v.scanEnd := by simp only [scanEnd, hvol.bpb]
  constructor
  · intro c hc hdata
    rw [hend] at hc
    rw [hvol.bpb] at hdata
    have hne := h.strays c hc hdata
    have hcr : c ≠ result := fun heq => hdata (heq ▸ hresult)
    rw [hvol.entry c (hw.inTable_of_lt hc), update_of_ne hcr]
    by_cases hzero : currentCluster = 0
    · simpa [hzero] using hne
    · have hcc : c ≠ currentCluster := fun heq => hdata (heq ▸ (hcur.resolve_left hzero).1)
      simpa [hzero, update_of_ne hcc] using hne
  · intro ht c hc
    rw [hvol.bpb] at ht hc
    rw [hvol.reserved ht c hc, h.reserved ht c hc]

/-- After the top of the stack was taken and linked, the rest of the stack is as before. -/
theorem FatDriver.AllocOk.pop (h : d.AllocOk) {result : ℕ} {rest : List ℕ}
    (hstack : d.clStack = result :: rest) (hcur : d.vol.Links currentCluster) {vol' : Vol}
    (hvol : d.vol.Allocates vol' currentCluster result) :
    ({ d with clStack := rest, vol := vol' } : FatDriver).AllocOk := by
  obtain ⟨hresult, hfree⟩ := h.sound result (hstack ▸ mem_cons_self)
  have hnodup := h.nodup
  rw [hstack, nodup_cons] at hnodup
  have hmark : d.vol.partBpb.fatType.endMark ≠ 0 := by cases d.vol.partBpb.fatType <;> decide
  have hentry : ∀ c, d.vol.partBpb.IsData c → c ≠ result →
      ((if currentCluster ≠ 0 then update d.vol.entry currentCluster result
        else d.vol.entry) c = 0 ↔ d.vol.entry c = 0) := by
    intro c _ _
    by_cases hzero : currentCluster = 0
    · simp [hzero]
    · have hused := (hcur.resolve_left hzero).2
      by_cases hc : c = currentCluster
      · have hpos := hresult.1
        subst hc
        simp only [ne_eq, hzero, not_false_eq_true, if_true, update_self]
        omega
      · simp [hzero, update_of_ne hc]
  refine h.retabled hvol ?_ hnodup.2 ?_ rfl rfl rfl
  · intro c hc
    obtain ⟨hdata, hcfree⟩ := h.sound c (hstack ▸ mem_cons_of_mem _ hc)
    have hcr : c ≠ result := fun h => hnodup.1 (h ▸ hc)
    exact ⟨hdata, by rw [update_of_ne hcr]; exact (hentry c hdata hcr).2 hcfree⟩
  · intro c hdata hcfree
    by_cases hcr : c = result
    · rw [hcr, update_self] at hcfree
      exact absurd hcfree hmark
    · rw [update_of_ne hcr, hentry c hdata hcr] at hcfree
      obtain hin | hle := h.complete c hdata hcfree
      · rw [hstack] at hin
        exact .inl ((mem_cons.1 hin).resolve_left hcr)
      · exact .inr hle

/-- The FAT12 scan, when the stack is empty, finds enough in the data area to fill it. -/
def FatDriver.Fills (d : FatDriver) (fuel : ℕ) : Prop :=
  d.vol.partBpb.fatType = .fat12 → d.clStack = [] →
    d.freeAhead.length = maxClusterStack ∧ d.vol.partBpb.clusterCount + 2 ≤ d.clStackLast + fuel

/-- What an allocation that had a cluster to give has done. -/
structure FatDriver.Took (d d' : FatDriver) (currentCluster result : ℕ) : Prop where
  data : d.vol.partBpb.IsData result
  free : d.vol.entry result = 0
  vol : d.vol.Allocates d'.vol currentCluster result

theorem FatDriver.AllocOk.popFreeCluster (h : d.AllocOk) (hcur : d.vol.Links currentCluster)
    (hstack : d.clStack ≠ []) : (d.popFreeCluster currentCluster).2.AllocOk ∧
      d.Took (d.popFreeCluster currentCluster).2 currentCluster (d.popFreeCluster currentCluster).1 := by
  obtain ⟨result, rest, hcons⟩ := exists_cons_of_ne_nil hstack
  obtain ⟨hdata, hfree⟩ := h.sound result (hcons ▸ mem_cons_self)
  obtain ⟨hret, hallocates⟩ := h.link hcur hdata (Prod.mk.eta).symm
  simp only [FatDriver.popFreeCluster, hcons, FatDriver.onVol, Int.not_lt.2 hret, if_false]
  exact ⟨h.pop hcons hcur hallocates, hdata, hfree, hallocates⟩

/-- An allocation gives a free data cluster, or 0 when there is none. -/
theorem FatDriver.AllocOk.getFreeCluster (h : d.AllocOk) (hcur : d.vol.Links currentCluster)
    (hfills : d.Fills fuel) (hscan : d.ScansData) : ∃ result d', d.getFreeCluster fuel currentCluster =
    some (result, d') ∧ d'.AllocOk ∧
      (d.Took d' currentCluster result ∨
        (result = 0 ∧ d'.vol = d.vol ∧ ∀ c, d.vol.partBpb.IsData c → d.vol.entry c ≠ 0)) := by
  unfold FatDriver.getFreeCluster
  by_cases hstack : d.clStack = []
  · have hrefill := h.refill hscan hstack
    rw [if_pos hstack, d.readEmptyClusters_eq h.wf h.read fun ht => hfills ht hstack, Option.map_some]
    dsimp only
    by_cases hfound : d.freeAhead = []
    · rw [if_pos (by simp [hfound])]
      refine ⟨0, _, rfl, hrefill, .inr ⟨rfl, rfl, fun c hdata hfree => ?_⟩⟩
      have hmark : d.clStackLast ≤ c := by simpa [hstack] using h.complete c hdata hfree
      have hnone := firstFrom_eq_nil (by decide) hfound c hmark (h.wf.lt_scanEnd hdata)
      rw [hscan.looksFree hstack hdata hmark hfree] at hnone
      exact absurd hnone (by decide)
    · have hpos := length_pos_of_ne_nil hfound
      rw [if_neg (by omega)]
      obtain ⟨hok, htook⟩ := hrefill.popFreeCluster hcur hfound
      exact ⟨_, _, rfl, hok, .inl ⟨htook.data, htook.free, htook.vol⟩⟩
  · rw [if_neg hstack, Option.map_some]
    dsimp only
    rw [if_neg (by decide)]
    obtain ⟨hok, htook⟩ := h.popFreeCluster hcur hstack
    exact ⟨_, _, rfl, hok, .inl htook⟩

/-! ## Deletions -/

/-- The clusters the loop of `fat_deleteClusterChain` frees. -/
def FatDriver.deletedFrom : ℕ → FatDriver → ℕ → List ℕ
  | 0, _, _ => []
  | fuel + 1, d, cluster =>
    match d.deleteRound cluster with
    | none => []
    | some (freed, next, d) =>
      let d := (d.onVol fun vol => vol.freeAll freed).2
      match next with
      | some cluster => freed ++ deletedFrom fuel d.invalidateLastChainResult cluster
      | none => freed

/-- The clusters `fat_deleteClusterChain` frees. -/
def FatDriver.deletedClusters (d : FatDriver) (fuel cluster : ℕ) : List ℕ :=
  if cluster < 2 then [] else d.deletedFrom fuel cluster

/-- A lookup changes the memo and `cbuf` only. -/
theorem FatDriver.getClusterChain_fields (d : FatDriver) (cluster : ℕ) (startFlag : Bool) :
    (d.getClusterChain cluster startFlag).2.vol = d.vol ∧
      (d.getClusterChain cluster startFlag).2.clStack = d.clStack ∧
      (d.getClusterChain cluster startFlag).2.clStackLast = d.clStackLast := by
  unfold getClusterChain
  split <;> exact ⟨rfl, rfl, rfl⟩

/-- The lookup of a deletion round changes the memo and `cbuf` only. -/
theorem FatDriver.deleteRound_fields {d d₁ : FatDriver} {cluster : ℕ} {freed : List ℕ}
    {next : Option ℕ} (h : d.deleteRound cluster = some (freed, next, d₁)) :
    d₁.vol = d.vol ∧ d₁.clStack = d.clStack ∧ d₁.clStackLast = d.clStackLast := by
  have hfields := d.getClusterChain_fields cluster true
  unfold deleteRound at h
  dsimp only at h
  split at h
  · cases h
  · split at h
    · cases h
      exact hfields
    · cases h
      exact hfields

/-- A deletion sets the entries of the clusters it frees to zero and keeps the stack. -/
theorem FatDriver.deleteLoop_spec (fuel : ℕ) : ∀ {d d' : FatDriver} {cluster : ℕ} {ret : ℤ},
    d.vol.partBpb.WellFormed → (∀ s, d.vol.bad s = false) →
    (∀ c ∈ deletedFrom fuel d cluster, d.vol.partBpb.InTable c) → deleteLoop fuel d cluster = some (ret, d') →
    d.vol.Retabled d'.vol (zeroed d.vol.entry (deletedFrom fuel d cluster)) ∧
      d'.clStack = d.clStack ∧ d'.clStackLast = d.clStackLast := by
  induction fuel with
  | zero => exact fun _ _ _ h => absurd h (by simp [deleteLoop])
  | succ fuel ih =>
    intro d d' cluster ret hw hread hall heq
    rw [deleteLoop] at heq
    rw [deletedFrom] at hall ⊢
    cases hround : d.deleteRound cluster with
    | none => simp [hround] at heq
    | some round =>
      obtain ⟨freed, next, d₁⟩ := round
      obtain ⟨hvol, hstack, hmark⟩ := deleteRound_fields hround
      have hfreed : ∀ c ∈ freed, d.vol.partBpb.InTable c := by
        intro c hc
        refine hall c ?_
        rw [hround]
        cases next with
        | none => exact hc
        | some cluster => exact mem_append_left _ hc
      obtain ⟨hret, htable⟩ := freeAll_retabled freed hw hread hfreed
      simp only [hround, onVol, hvol, Int.not_lt.2 hret, if_false] at heq hall ⊢
      cases next with
      | none =>
        cases heq
        exact ⟨htable, hstack, hmark⟩
      | some cluster =>
        have hbpb := htable.bpb
        obtain ⟨htable', hstack', hmark'⟩ := ih (hbpb.symm ▸ hw) (fun s => htable.bad ▸ hread s)
          (fun c hc => hbpb.symm ▸ hall c (mem_append_right _ hc)) heq
        refine ⟨(htable.trans htable').congr fun c hc => ?_, hstack'.trans hstack, hmark'.trans hmark⟩
        simp only [zeroed, mem_append]
        rw [show (invalidateLastChainResult _).vol = (d.vol.freeAll freed).2 from rfl,
          htable.entry c hc, zeroed]
        by_cases hc₁ : c ∈ freed
        · simp [hc₁]
        · simp [hc₁]

/-! ## Histories -/

/-- What happens to the table after mounting: allocations behind a cluster, and deletions. -/
inductive AllocRequest
  | allocate (currentCluster : ℕ)
  | delete (cluster : ℕ)

/-- Serve a request; one that runs on for ever is answered by nothing. -/
def FatDriver.serveAlloc (fuel : ℕ) (d : FatDriver) : AllocRequest → Option ℤ × FatDriver
  | .allocate currentCluster =>
    match d.getFreeCluster fuel currentCluster with
    | some (result, d) => (some result, d)
    | none => (none, d)
  | .delete cluster =>
    match d.deleteClusterChain fuel cluster with
    | some (ret, d) => (some ret, d)
    | none => (none, d)

/-- A request the allocator is prepared for: a cluster in use is extended, with enough free
clusters ahead to end a FAT12 scan and no stray record in the way of the scan, or clusters ahead of
the mark are freed. -/
def FatDriver.AllocSafe (fuel : ℕ) (d : FatDriver) : AllocRequest → Prop
  | .allocate currentCluster => d.vol.Links currentCluster ∧ d.Fills fuel ∧ d.ScansData
  | .delete cluster => ∀ c ∈ d.deletedClusters fuel cluster,
      d.vol.partBpb.IsData c ∧ (c ∈ d.clStack ∨ d.clStackLast ≤ c)

instance (fuel : ℕ) (d : FatDriver) : (request : AllocRequest) → Decidable (d.AllocSafe fuel request)
  | .allocate currentCluster =>
    inferInstanceAs (Decidable ((currentCluster = 0 ∨ _ ∧ d.vol.entry currentCluster ≠ 0) ∧ (_ → _ → _) ∧
      (_ → (∀ c ∈ d.freeAhead, d.vol.partBpb.IsData c) ∧ (_ → ∀ c < _, _ → _ → d.vol.entry c = 0 → _))))
  | .delete cluster =>
    inferInstanceAs (Decidable (∀ c ∈ d.deletedClusters fuel cluster, d.vol.partBpb.IsData c ∧ (_ ∨ _)))

/-- A deletion ahead of the mark keeps the stack sound and complete. -/
theorem FatDriver.AllocOk.deleteClusterChain (h : d.AllocOk) {d' : FatDriver} {cluster : ℕ} {ret : ℤ}
    (hsafe : d.AllocSafe fuel (.delete cluster))
    (heq : d.deleteClusterChain fuel cluster = some (ret, d')) : d'.AllocOk := by
  unfold FatDriver.deleteClusterChain at heq
  simp only [FatDriver.AllocSafe, FatDriver.deletedClusters] at hsafe
  by_cases hcluster : cluster < 2
  · rw [if_pos hcluster] at heq
    cases heq
    exact h
  · rw [if_neg hcluster] at heq hsafe
    obtain ⟨htable, hstack, hmark⟩ := deleteLoop_spec fuel h.wf h.read
      (fun c hc => h.wf.inTable (hsafe c hc).1) heq
    refine h.retabled htable ?_ h.nodup ?_ rfl hstack hmark
    · intro c hc
      obtain ⟨hdata, hfree⟩ := h.sound c hc
      exact ⟨hdata, by simp [zeroed, hfree]⟩
    · intro c hdata hfree
      by_cases hc : c ∈ d.deletedFrom fuel cluster
      · exact (hsafe c hc).2
      · rw [zeroed, if_neg hc] at hfree
        exact h.complete c hdata hfree

/-- Every safe request keeps the stack sound and complete. -/
theorem FatDriver.AllocOk.serveAlloc (h : d.AllocOk) (request : AllocRequest)
    (hsafe : d.AllocSafe fuel request) : (d.serveAlloc fuel request).2.AllocOk := by
  cases request with
  | allocate currentCluster =>
    obtain ⟨result, d', heq, hok, -⟩ := h.getFreeCluster hsafe.1 hsafe.2.1 hsafe.2.2
    simpa [FatDriver.serveAlloc, heq] using hok
  | delete cluster =>
    cases heq : d.deleteClusterChain fuel cluster with
    | none => simpa [FatDriver.serveAlloc, heq] using h
    | some answer => simpa [FatDriver.serveAlloc, heq] using h.deleteClusterChain hsafe heq

theorem FatDriver.allocOk_mount (hw : v.partBpb.WellFormed) (hread : ∀ s, v.bad s = false) (massSectorSize : ℕ)
    (cbuf : ℕ → ℕ) : (mount v massSectorSize cbuf).AllocOk where
  wf := hw
  read := hread
  sound _ hc := absurd hc not_mem_nil
  nodup := nodup_nil
  complete c _ _ := .inr (zero_le c)

/-- The next allocation returns a data cluster that is free, or 0 when no data cluster is. -/
def FatDriver.AllocatesFree (d : FatDriver) (fuel currentCluster : ℕ) : Prop :=
  ∃ result d', d.getFreeCluster fuel currentCluster = some (result, d') ∧
    ((d.vol.partBpb.IsData result ∧ d.vol.entry result = 0) ∨
      (result = 0 ∧ ∀ c, d.vol.partBpb.IsData c → d.vol.entry c ≠ 0))

/-- After mounting a well-formed volume, and after any safe allocations and deletions, a safe
allocation returns a data cluster that was free, or 0 when no data cluster was free. -/
theorem getFreeCluster_sound_complete (v : Vol) (hw : v.partBpb.WellFormed) (hread : ∀ s, v.bad s = false)
    (massSectorSize : ℕ) (cbuf : ℕ → ℕ) (fuel : ℕ) (requests : List AllocRequest) (currentCluster : ℕ)
    (hmeet : AllMeet (FatDriver.serveAlloc fuel) (FatDriver.AllocSafe fuel)
      (FatDriver.mount v massSectorSize cbuf) (requests ++ [.allocate currentCluster])) :
    (run (FatDriver.serveAlloc fuel) (FatDriver.mount v massSectorSize cbuf) requests).2.AllocatesFree fuel
      currentCluster := by
  obtain ⟨hbefore, ⟨hcur, hfills, hscan⟩, -⟩ := allMeet_append.1 hmeet
  have hmount := allocOk_mount hw hread massSectorSize cbuf
  have hok := run_invariant (serveAlloc fuel) (FatDriver.AllocSafe fuel)
    FatDriver.AllocOk (fun d request h hsafe => h.serveAlloc request hsafe) requests _ hmount hbefore
  obtain ⟨result, d', heq, -, htook | hnone⟩ := hok.getFreeCluster hcur hfills hscan
  · exact ⟨result, d', heq, .inl ⟨htook.data, htook.free⟩⟩
  · exact ⟨result, d', heq, .inr ⟨hnone.1, hnone.2.2⟩⟩

/-- A FAT16 volume of 4094 data clusters whose table has no room to spare. Cluster 300 is a
chain of its own, the other data clusters are free. -/
def roomyVolume : Vol where
  partBpb :=
    { sectorSize := 512, clusterSize := 1, resSectors := 1, fatCount := 1, rootSize := 16
      fatSize := 16, sectorCount := 4112, partStart := 0, rootDirStart := 17, rootDirCluster := 0
      fatType := .fat16, dataStart := 18 }
  sectors := fun s k =>
    if s = 1 ∧ k < 4 then 0xFF else if s = 2 ∧ (k = 88 ∨ k = 89) then 0xFF else 0
  bad := fun _ => false

theorem wellFormed_roomyVolume : roomyVolume.partBpb.WellFormed :=
  ⟨⟨by decide, by decide, by decide⟩, by decide, by decide, by decide, by decide, by decide, by decide⟩

/-- The volume just mounted, with an empty buffer. -/
def FatDriver.fresh (v : Vol) : FatDriver := .mount v v.partBpb.sectorSize fun _ => 0

/-- A first cluster, the deletion of cluster 300, and a second cluster behind the first. -/
theorem getFreeCluster_sound_complete_roomyVolume : (run (FatDriver.serveAlloc 1) (FatDriver.fresh roomyVolume)
      [.allocate 0, .delete 300]).2.AllocatesFree 1 2 := by
  have hmeet : AllMeet (serveAlloc 1) (FatDriver.AllocSafe 1) (fresh roomyVolume)
      ([.allocate 0, .delete 300] ++ [.allocate 2]) := by decide +kernel
  exact getFreeCluster_sound_complete roomyVolume wellFormed_roomyVolume (fun _ => rfl)
    roomyVolume.partBpb.sectorSize (fun _ => 0) 1 [.allocate 0, .delete 300] 2 hmeet

/-- A FAT12 volume of one data cluster, which is in use. -/
def tinyVolume : Vol where
  partBpb :=
    { sectorSize := 512, clusterSize := 1, resSectors := 1, fatCount := 1, rootSize := 16
      fatSize := 1, sectorCount := 4, partStart := 0, rootDirStart := 2, rootDirCluster := 0
      fatType := .fat12, dataStart := 3 }
  sectors := fun s k =>
    if s = 1 ∧ k = 0 then 0xF8 else if s = 1 ∧ k < 4 then 0xFF else if s = 1 ∧ k = 4 then 0x0F else 0
  bad := fun _ => false

/-- With no free cluster left, the FAT12 allocation returns cluster 3 of a volume that ends
with cluster 2. -/
theorem getFreeCluster_tinyVolume : tinyVolume.partBpb.clusterCount = 1 ∧ tinyVolume.entry 2 = 0xFFF ∧
      ((FatDriver.fresh tinyVolume).getFreeCluster 200 0).map Prod.fst = some 3 := by
  decide +kernel

end Ps2sdk.Fat
