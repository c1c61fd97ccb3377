import Ps2sdk.Apa.Hdd
import Ps2sdk.Apa.Rules

/-!
# Drivers that have just been started

A driver with empty buffers is at rest on the table of its drive, if the headers carry their checksums. `diskOf`
writes headers to a drive, and `checkTable` tests that they form a table.
-/

namespace Ps2sdk.Apa

open Lib List Header Driver Bool

variable {n unit : ℕ} {xs : List Word} {v : Word → Header} {hs : List Header}

/-- A driver with empty buffers and a cleared journal. -/
def Driver.fresh (n : ℕ) (disk : Disk) : Driver n :=
  { apaCacheInit n (fun _ => (0, .zero)) ⟨disk, []⟩ (fun _ _ => 0) with journalBuf := .cleared }

/-- A driver that has just been started is at rest. -/
theorem Driver.stores_fresh (disk : Disk) (htable : Table unit (headerAt disk) xs)
    (hsum : ∀ x ∈ 0 :: xs, checksumAt disk x = apaCheckSum (headerAt disk x)) : (fresh n disk).Stores unit xs := by
  refine ⟨htable, ⟨?_, ?_, ?_, ?_, fun _ _ => rfl, ?_, ?_, ?_, nodup_finRange n, ?_, fun _ _ _ => rfl, ?_, rfl⟩⟩
  · intro i j x hi
    cases hi
  · intro i x hi
    cases hi
  · intro i x hi
    cases hi
  · intro i x hi
    cases hi
  · intro i x hi
    cases hi
  · rintro x (hx | hx)
    · exact absurd hx (Multiset.notMem_zero x)
    · cases hx
  · intro x hx
    exact absurd hx (Finset.notMem_empty x)
  · intro i
    exact iff_of_true (mem_finRange i) rfl
  · intro x hx
    exact ⟨(htable.sound x hx).place, fun _ => hsum x hx⟩

/-- A drive that holds some headers at their places. -/
def diskOf : List Header → Disk
  | [] => fun _ _ => 0
  | h :: hs => store (diskOf hs) (headerCells h.start.toNat (apaCheckSum h) h)

theorem diskOf_eq (hs : List Header) : diskOf hs =
    storeAll (fun _ _ => 0) (hs.reverse.map fun h => headerCells h.start.toNat (apaCheckSum h) h) := by
  induction hs with
  | nil => rfl
  | cons h hs ih =>
    rw [diskOf, ih, storeAll, storeAll, reverse_cons, map_append, foldl_append]
    rfl

theorem readBlock_diskOf {h : Header} (hplace : ∀ h ∈ hs, 512 ∣ h.start.toNat) (hnodup : (hs.map start).Nodup)
    (hmem : h ∈ hs) : readBlock (diskOf hs) 0 h.start.toNat = h.image (apaCheckSum h) := by
  rw [diskOf_eq]
  refine readBlock_storeAll (q := fun h : Header => (0, h.start.toNat)) _ (pairwise_reverse.mpr ?_)
    (mem_reverse.mpr hmem)
  exact (pairwise_map.mp hnodup).imp_of_mem fun hi hj hne => places_apart (hplace _ hj) (hplace _ hi) hne.symm

/-- The test for one header of a table. -/
def Header.check (unit : ℕ) (h : Header) : Bool :=
  h.magic == apaMagic && (List.range 32).any (fun k => h.length.toNat == 2 ^ k) &&
    h.start.toNat % h.length.toNat == 0 && h.length.toNat % unit == 0 && (h.type != apaTypeFree || h.nsub == 0)

/-- The test that headers follow each other, and that the last one is linked to the first. -/
def chained (first : Header) : List Header → Bool
  | [] => true
  | [h] => h.next == first.start && first.prev == h.start
  | h :: k :: hs => h.next == k.start && k.prev == h.start && k.start.toNat == h.start.toNat + h.length.toNat &&
    chained first (k :: hs)

/-- The test for a table. -/
def checkTable (unit : ℕ) : List Header → Bool
  | [] => false
  | first :: rest => first.start == 0 && first.type != apaTypeFree && first.mbr.magic == apaMBRMagic &&
    (first :: rest).all (Header.check unit) && rest.all (·.start != 0) && chained first (first :: rest)

theorem Header.check_sound {h : Header} (hcheck : h.check unit) : Sound unit h.start h := by
  simp only [check, and_eq_true, beq_iff_eq, any_eq_true, mem_range, or_eq_true,
    bne_iff_ne] at hcheck
  obtain ⟨⟨⟨⟨hmagic, k, -, hk⟩, haligned⟩, hcoarse⟩, hempty⟩ := hcheck
  exact ⟨hmagic, rfl, ⟨k, hk⟩, Nat.dvd_of_mod_eq_zero haligned, Nat.dvd_of_mod_eq_zero hcoarse,
    fun hfree => hempty.resolve_left (not_not.mpr hfree)⟩

/-- Headers that pass the test follow each other. -/
theorem isChain_of_chained {first : Header} (hv : ∀ h ∈ hs, v h.start = h) (hfirst : v 0 = first)
    (hstart : first.start = 0) (hchained : chained first hs) :
    List.IsChain ((layout v).Follows BitVec.toNat 0) (hs.map start ++ [0]) := by
  induction hs with
  | nil => exact isChain_singleton 0
  | cons h hs ih =>
    cases hs with
    | nil =>
      simp only [chained, and_eq_true, beq_iff_eq] at hchained
      refine isChain_cons_cons.mpr ⟨⟨?_, ?_, fun hne => absurd rfl hne⟩, isChain_singleton 0⟩
      · show (v h.start).next = 0
        rw [hv h mem_cons_self, hchained.1, hstart]
      · show (v 0).prev = h.start
        rw [hfirst, hchained.2]
    | cons k hs =>
      simp only [chained, and_eq_true, beq_iff_eq] at hchained
      obtain ⟨⟨⟨hnext, hprev⟩, hadjacent⟩, hrest⟩ := hchained
      refine isChain_cons_cons.mpr ⟨⟨?_, ?_, fun _ => ?_⟩, ih (fun h hh => hv h (mem_cons_of_mem _ hh)) hrest⟩
      · show (v h.start).next = k.start
        rw [hv h mem_cons_self, hnext]
      · show (v k.start).prev = h.start
        rw [hv k (by simp), hprev]
      · show k.start.toNat = h.start.toNat + (v h.start).length.toNat
        rw [hv h mem_cons_self, hadjacent]

/-- Headers that pass the test form a table. -/
theorem Table.of_check {first : Header} {rest : List Header} (hcheck : checkTable unit (first :: rest))
    (hv : ∀ h ∈ first :: rest, v h.start = h) : Table unit v (rest.map start) := by
  simp only [checkTable, and_eq_true, beq_iff_eq, bne_iff_ne, all_eq_true] at hcheck
  obtain ⟨⟨⟨⟨⟨hstart, htype⟩, hmbr⟩, hall⟩, hnonzero⟩, hchained⟩ := hcheck
  have hfirst : v 0 = first := by
    rw [← hstart]
    exact hv first mem_cons_self
  have hlist : 0 :: rest.map start = (first :: rest).map start := by rw [map_cons, hstart]
  have hsound : ∀ x ∈ 0 :: rest.map start, Sound unit x (v x) := by
    intro x hx
    rw [hlist] at hx
    obtain ⟨h, hh, rfl⟩ := mem_map.mp hx
    rw [hv h hh]
    exact check_sound (hall h hh)
  refine ⟨⟨?_, fun x hx => (hsound x hx).positive, fun hmem => ?_⟩, hsound, ?_, ?_⟩
  · rw [hlist]
    exact isChain_of_chained hv hfirst hstart hchained
  · obtain ⟨h, hh, hzero⟩ := mem_map.mp hmem
    exact hnonzero h hh hzero
  · rw [hfirst]
    exact htype
  · rw [hfirst]
    exact hmbr

/-- A driver that has just been started on headers that pass the test. -/
theorem Driver.wellFormed_fresh (n : ℕ) (hs : List Header) (hcheck : checkTable (2 ^ 18) hs)
    (hnodup : (hs.map start).Nodup) (hlast : (hs.getLast?.map type) ≠ some apaTypeFree) :
    (fresh n (diskOf hs)).WellFormed (hs.tail.map start) ∧
      ∀ h ∈ hs, (fresh n (diskOf hs)).headers h.start = h := by
  cases hs with
  | nil => exact absurd hcheck (by decide)
  | cons first rest =>
    have hall := hcheck
    simp only [checkTable, and_eq_true, all_eq_true, beq_iff_eq] at hall
    obtain ⟨⟨⟨⟨⟨hstart, -⟩, -⟩, hall⟩, -⟩, -⟩ := hall
    have hplace : ∀ h ∈ first :: rest, 512 ∣ h.start.toNat := fun h hh =>
      (pow_dvd_pow 2 (show 9 ≤ 18 by decide)).trans (check_sound (hall h hh)).place
    have hread : ∀ h ∈ first :: rest, readBlock (diskOf (first :: rest)) 0 h.start.toNat = h.image
      (apaCheckSum h) := fun h hh => readBlock_diskOf hplace hnodup hh
    have hv : ∀ h ∈ first :: rest, headerAt (diskOf (first :: rest)) h.start = h := fun h hh => by
      rw [headerAt, hread h hh, ofImage_image]
    have hlist : 0 :: rest.map start = (first :: rest).map start := by rw [map_cons, hstart]
    refine ⟨⟨stores_fresh _ (Table.of_check hcheck hv) fun x hx => ?_, ?_⟩, hv⟩
    · rw [tail_cons, hlist] at hx
      obtain ⟨h, hh, rfl⟩ := mem_map.mp hx
      rw [hv h hh, checksumAt, hread h hh, image_zero]
    · show (headerAt (diskOf (first :: rest)) (lastOf (rest.map start))).type ≠ apaTypeFree
      rcases eq_nil_or_concat' rest with rfl | ⟨l, h, rfl⟩
      · rw [show lastOf (([] : List Header).map start) = first.start from hstart.symm, hv first mem_cons_self]
        simpa using hlast
      · rw [lastOf, map_append, map_singleton, getLastD_concat, hv h (by simp)]
        rw [← cons_append, getLast?_concat] at hlast
        exact fun heq => hlast (congrArg some heq)

/-- The master boot record of a drive with no other partition. -/
def soloHeader : Header :=
  { Header.zero with
    magic := apaMagic
    length := 0x40000
    type := apaTypeMbr
    mbr := { Header.zero.mbr with magic := apaMBRMagic } }

/-- The driver on a drive of 512 MB with no other partition. -/
def soloHdd : Hdd 3 := ⟨.fresh 3 (diskOf [soloHeader]), ⟨0x100000, 0x40000, 2, 0⟩, [.zero, .zero]⟩

theorem soloHdd_wellFormed : soloHdd.driver.WellFormed [] :=
  (wellFormed_fresh 3 [soloHeader] (by decide) (by decide) (by decide)).1

theorem soloHdd_headers : soloHdd.driver.headers 0 = soloHeader :=
  (wellFormed_fresh 3 [soloHeader] (by decide) (by decide) (by decide)).2 soloHeader mem_cons_self

end Ps2sdk.Apa
