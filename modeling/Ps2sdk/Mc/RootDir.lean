import Mathlib.Data.List.Chain
import Ps2sdk.Lib.Run

/-!
# The position cache of the root directory

`mcman_readdirentry` notes in `mcman_fatcache` the clusters of the root directory it has walked over. Every noted
cluster is the one so many links behind cluster 0, and growth of the root directory leaves it there, so that a
look-up answers as the walk over the FAT alone would.
-/

namespace Ps2sdk.Mc

open Lib Function List Option

/-- `cl_data` of a cluster, as words. -/
abbrev Cluster := ℕ → BitVec 32

/-- A card as look-ups see it: the fields of `MCDevInfo` they use, the contents of the clusters, and which of them
`mcman_readcluster` can read. -/
structure Volume where
  ifcList : ℕ → BitVec 32
  allocOffset : BitVec 32
  contents : BitVec 32 → Cluster
  readable : BitVec 32 → Bool

variable (v : Volume)

/-- `mcman_readcluster`. -/
def Volume.readcluster (cluster : BitVec 32) : Option Cluster :=
  if v.readable cluster then some (v.contents cluster) else none

/-- `mcman_getFATentry`. -/
def getFATentry (fatIndex : ℕ) : Except ℤ (BitVec 32) :=
  let indirectIndex := fatIndex / 256
  match v.readcluster (v.ifcList (indirectIndex / 256)) with
  | none => .error (-78)
  | some fc =>
    match v.readcluster (fc (indirectIndex % 256)) with
    | none => .error (-79)
    | some fc => .ok (fc (fatIndex % 256))

/-- The entries of `McFatCache`; a cluster of 1024 bytes has two directory entries. -/
def maxent : ℕ := 0x402 / 2

/-- The pass over `mcman_fatcache`: the number of entries passed, and the last of them. -/
def knownLoop (entry : ℕ → ℤ) (index i : ℕ) (clust : ℤ) : ℕ × ℤ :=
  if maxent ≤ i ∨ entry i < 0 then (i, clust)
  else if i + 1 < index then knownLoop entry index (i + 1) (entry i)
  else (i + 1, entry i)
termination_by index - i

variable (entry : ℕ → ℤ)

/-- Where the walk to a cluster of a directory starts: the place behind a cluster, and that cluster. -/
def walkStart (cluster index : ℕ) : ℕ × ℤ :=
  if cluster = 0 ∧ index ≠ 0 then
    knownLoop entry index 0 (if index < maxent ∧ 0 ≤ entry index then entry index else cluster)
  else (1, cluster)

/-- The walk over the FAT; the next cluster belongs at `place`. -/
def walkFAT (v : Volume) (root : Bool) : ℕ → ℕ → ℕ → (ℕ → ℤ) → Except ℤ ℕ × (ℕ → ℤ)
  | 0, _, clust, entry => (.ok clust, entry)
  | steps + 1, place, clust, entry =>
    match getFATentry v clust with
    | .error _ => (.error (-70), entry)
    | .ok link =>
      if link = 0xffffffff then (.error (-4), entry)
      else
        let clust := (link &&& 0x7fffffff).toNat
        walkFAT v root steps (place + 1) clust (if root ∧ place < maxent then update entry place clust else entry)

/-- `mcman_readdirentry`. -/
def readdirentry (cluster fsindex : ℕ) : Except ℤ Cluster × (ℕ → ℤ) :=
  let index := fsindex / 2
  let (place, clust) := walkStart entry cluster index
  match walkFAT v (cluster == 0) (index + 1 - place) place clust.toNat entry with
  | (.error err, entry) => (.error err, entry)
  | (.ok clust, entry) =>
    match v.readcluster (v.allocOffset + BitVec.ofNat 32 clust) with
    | none => (.error (-71), entry)
    | some data => (.ok fun k => data (fsindex % 2 * 128 + k), entry)

/-- An entry of the FAT. -/
def Volume.fat (i : ℕ) : BitVec 32 :=
  v.contents (v.contents (v.ifcList (i / 256 / 256)) (i / 256 % 256)) (i % 256)

/-- One step along the FAT. -/
def Volume.step (clust : Option ℕ) : Option ℕ :=
  clust.bind fun c => if v.fat c = 0xffffffff then none else some (v.fat c &&& 0x7fffffff).toNat

/-- The clusters of the root directory. -/
def Volume.rootCluster (k : ℕ) : Option ℕ := v.step^[k] (some 0)

/-- The entry of the root directory that the walk over the FAT finds. -/
def Volume.rootEntry (fsindex : ℕ) : Except ℤ Cluster :=
  match v.rootCluster (fsindex / 2) with
  | none => .error (-4)
  | some c => .ok fun k => v.contents (v.allocOffset + BitVec.ofNat 32 c) (fsindex % 2 * 128 + k)

/-- The root directory has the clusters it had, and maybe more. -/
def Volume.Grows (v v' : Volume) : Prop := ∀ k c, v.rootCluster k = some c → v'.rootCluster k = some c

/-- The root directory grows when no entry of its chain changes but the one that ends it. -/
theorem Volume.grows_of_fat {v v' : Volume}
    (h : ∀ k c, v.rootCluster k = some c → v.fat c = 0xffffffff ∨ v'.fat c = v.fat c) : v.Grows v' := by
  intro k
  induction k with
  | zero => exact fun c hc => hc
  | succ k ih =>
    intro c hc
    rw [Volume.rootCluster, iterate_succ_apply'] at hc ⊢
    obtain ⟨b, hb, hlink⟩ := bind_eq_some_iff.mp hc
    rw [show v'.step^[k] (some 0) = some b from ih b hb]
    rcases h k b hb with hend | hsame
    · rw [if_pos hend] at hlink
      cases hlink
    · rw [Volume.step, bind_some, hsame]
      exact hlink

/-- Every noted cluster is the one so many links behind the first. -/
structure Known : Prop where
  first : entry 0 = 0
  noted : ∀ i, 0 ≤ entry i → v.rootCluster i = some (entry i).toNat

variable {v v' : Volume} {entry : ℕ → ℤ}

theorem Known.grows (h : Known v entry) (hgrows : v.Grows v') : Known v' entry :=
  ⟨h.first, fun i hi => hgrows i _ (h.noted i hi)⟩

/-- A look-up in the FAT that succeeds gives the entry, and it succeeds where clusters can be read. -/
theorem getFATentry_spec (v : Volume) (i : ℕ) : (∀ link, getFATentry v i = .ok link → link = v.fat i) ∧
    ((∀ c, v.readable c = true) → getFATentry v i = .ok (v.fat i)) := by
  constructor
  · intro link h
    unfold getFATentry Volume.readcluster at h
    dsimp only at h
    split at h
    · cases h
    · next hifc =>
      split at h
      · cases h
      · next hfc =>
        rw [ite_none_right_eq_some] at hifc hfc
        cases hifc.2
        cases hfc.2
        cases h
        rfl
  · intro hread
    simp [getFATentry, Volume.readcluster, hread, Volume.fat]

/-- The pass ends behind a noted cluster. -/
theorem knownLoop_spec (entry : ℕ → ℤ) {index i : ℕ} (hi : i < index) (hroom : i < maxent) (hnoted : 0 ≤ entry i)
    (clust : ℤ) : ∃ j < index, 0 ≤ entry j ∧ knownLoop entry index i clust = (j + 1, entry j) := by
  induction hn : index - i generalizing i clust with
  | zero => omega
  | succ n ih =>
    rw [knownLoop, if_neg (by omega)]
    split
    · next hmore =>
      by_cases hstop : maxent ≤ i + 1 ∨ entry (i + 1) < 0
      · exact ⟨i, hi, hnoted, by rw [knownLoop, if_pos hstop]⟩
      · exact ih hmore (by omega) (by omega) _ (by omega)
    · exact ⟨i, hi, hnoted, rfl⟩

theorem Known.note (h : Known v entry) {j d : ℕ} (hd : v.rootCluster (j + 1) = some d) :
    Known v (update entry (j + 1) d) := by
  refine ⟨(update_of_ne (by omega) _ _).trans h.first, fun i hi => ?_⟩
  by_cases heq : i = j + 1
  · rw [heq, update_self]
    exact hd
  · rw [update_of_ne heq] at hi ⊢
    exact h.noted i hi

/-- The walk from a cluster of the root directory notes what is true, and ends with the cluster so many links
behind, or at the end of the chain. -/
theorem walkFAT_spec (steps : ℕ) {j c : ℕ} (h : Known v entry) (hc : v.rootCluster j = some c) :
    Known v (walkFAT v true steps (j + 1) c entry).2 ∧ ((∀ c, v.readable c = true) →
      (walkFAT v true steps (j + 1) c entry).1 = (v.rootCluster (j + steps)).elim (.error (-4)) .ok) := by
  induction steps generalizing j c entry with
  | zero => exact ⟨h, fun _ => (congrArg (Option.elim · _ _) hc).symm⟩
  | succ steps ih =>
    obtain ⟨hlink, hread⟩ := getFATentry_spec v c
    have hnext : v.rootCluster (j + 1) = v.step (some c) := by
      rw [Volume.rootCluster, iterate_succ_apply']
      exact congrArg v.step hc
    rw [Volume.step, bind_some] at hnext
    rw [walkFAT]
    cases hget : getFATentry v c with
    | error err =>
      refine ⟨h, fun hreads => ?_⟩
      rw [hread hreads] at hget
      cases hget
    | ok link =>
      obtain rfl := hlink link hget
      dsimp only
      split
      · next hend =>
        rw [if_pos hend] at hnext
        refine ⟨h, fun _ => ?_⟩
        have hnone : v.rootCluster (j + (steps + 1)) = none := by
          rw [show j + (steps + 1) = steps + (j + 1) by omega, Volume.rootCluster, iterate_add_apply]
          rw [Volume.rootCluster] at hnext
          rw [hnext]
          exact iterate_fixed rfl steps
        rw [hnone]
        rfl
      · next hmore =>
        rw [if_neg hmore] at hnext
        rw [show j + (steps + 1) = j + 1 + steps by omega]
        refine ih ?_ hnext
        split
        · exact h.note hnext
        · exact h

/-- The walk in the root directory starts behind a noted cluster. -/
theorem walkStart_spec (h : Known v entry) (index : ℕ) :
    ∃ j c, j ≤ index ∧ walkStart entry 0 index = (j + 1, c) ∧ v.rootCluster j = some c.toNat := by
  unfold walkStart
  split
  · next hroot =>
    obtain ⟨j, hj, hnoted, hloop⟩ :=
      knownLoop_spec entry (Nat.pos_of_ne_zero hroot.2) (by decide) (Int.le_of_eq h.first.symm) _
    exact ⟨j, _, hj.le, hloop, h.noted j hnoted⟩
  · exact ⟨0, 0, Nat.zero_le _, rfl, rfl⟩

/-- A look-up in the root directory notes what is true, and answers as the walk over the FAT. -/
theorem readdirentry_spec (h : Known v entry) (fsindex : ℕ) : Known v (readdirentry v entry 0 fsindex).2 ∧
    ((∀ c, v.readable c = true) → (readdirentry v entry 0 fsindex).1 = v.rootEntry fsindex) := by
  obtain ⟨j, clust, hle, hstart, hc⟩ := walkStart_spec h (fsindex / 2)
  obtain ⟨hknown, hwalk⟩ := walkFAT_spec (fsindex / 2 + 1 - (j + 1)) h hc
  rw [show j + (fsindex / 2 + 1 - (j + 1)) = fsindex / 2 by omega] at hwalk
  simp only [readdirentry, hstart, beq_self_eq_true]
  generalize walkFAT v true _ (j + 1) clust.toNat entry = walked at hknown hwalk ⊢
  obtain ⟨found, entry'⟩ := walked
  constructor
  · cases found with
    | error err => exact hknown
    | ok d =>
      dsimp only
      split <;> exact hknown
  · intro hread
    obtain rfl : found = _ := hwalk hread
    rw [Volume.rootEntry]
    cases v.rootCluster (fsindex / 2) with
    | none => rfl
    | some d => simp [Volume.readcluster, hread]

/-- `mcman_clearcache` leaves the first cluster noted. -/
def clearedFatcache : ℕ → ℤ := fun i => if i = 0 then 0 else -1

theorem known_clearedFatcache (v : Volume) : Known v clearedFatcache := by
  refine ⟨rfl, fun i hi => ?_⟩
  unfold clearedFatcache at hi ⊢
  split at hi
  · next h => rw [h]; rfl
  · omega

/-- After any look-ups in the root directory while it grew, some of which may have failed, a look-up that can read
the card answers as the walk over the FAT alone does. -/
theorem readdirentry_transparent (before : List (Volume × ℕ)) (v : Volume) (fsindex : ℕ)
    (hgrows : (before.map Prod.fst ++ [v]).IsChain Volume.Grows) (hread : ∀ c, v.readable c = true) :
    (readdirentry v (run (fun entry call => readdirentry call.1 entry 0 call.2) clearedFatcache before).2 0
      fsindex).1 = v.rootEntry fsindex := by
  suffices h : ∀ entry : ℕ → ℤ, (∀ w ∈ (before.map Prod.fst ++ [v]).head?, Known w entry) →
      Known v (run (fun entry call => readdirentry call.1 entry 0 call.2) entry before).2 from
    (readdirentry_spec (h _ fun w _ => known_clearedFatcache w) fsindex).2 hread
  induction before with
  | nil => exact fun entry hentry => hentry v rfl
  | cons call before ih =>
    intro entry hentry
    rw [map_cons, cons_append, isChain_cons] at hgrows
    have hknown := (readdirentry_spec (hentry call.1 rfl) call.2).1
    exact ih hgrows.2 _ fun w hw => hknown.grows (hgrows.1 w hw)

/-- A card whose root directory has the first clusters of the card. -/
def growingCard (clusters : ℕ) : Volume where
  ifcList _ := 8
  allocOffset := 41
  contents c := if c = 8 then fun _ => 9 else fun i =>
    if i + 1 < clusters then BitVec.ofNat 32 (i + 1) ||| 0x80000000 else 0xffffffff
  readable _ := true

/-- A look-up that ran off the end of a chain of one cluster, then one in the cluster that was added. -/
theorem readdirentry_transparent_growingCard :
    (readdirentry (growingCard 2) (run (fun entry call => readdirentry call.1 entry 0 call.2) clearedFatcache
      [(growingCard 1, 2)]).2 0 3).1 = (growingCard 2).rootEntry 3 := by
  refine readdirentry_transparent [(growingCard 1, 2)] (growingCard 2) 3 ?_ fun _ => rfl
  refine isChain_pair.mpr (Volume.grows_of_fat fun k c _ => .inl ?_)
  simp [Volume.fat, growingCard]

end Ps2sdk.Mc
