import Ps2sdk.Apa.Deletion
import Ps2sdk.Apa.Perform
import Ps2sdk.Lib.Run

/-!
# Runs of the driver

The lists of sub-partitions, their headers and the open files agree with the table along every run of requests that
open, close, remove, extend and shrink partitions, as long as new partitions are safe and no sub-partition is added
through a file that is open on free space.
-/

namespace Ps2sdk.Apa

section Serving

open Lib ApaProg List Option Header Bool Hdd

variable {n : ℕ} {encrypt : Id → Password → Password} {hdd : Hdd n} {xs : List Word} {free : Prop}
  {slot slot' : FileSlot} {fd : ℕ} {rv : ℤ}

/-- The driver is at rest on a consistent table, and the open files agree with it. -/
structure Hdd.Session (free : Prop) (hdd : Hdd n) (xs : List Word) : Prop where
  holds : hdd.driver.Holds xs
  slots : SlotsOk free (partsOf hdd.driver.headers xs) hdd.slots

/-- Partitions that are created are safe, files are opened on free space only where that is possible, and no
sub-partition is added there. No partition is open whose name is exchanged. -/
def Hdd.Safe (encrypt : Id → Password → Password) (free : Prop) (hdd : Hdd n) (xs : List Word) : Request → Prop
  | .open name flags => ∀ params, fioGetInput encrypt name = .ok params →
    OpenSafe hdd.device hdd.driver.headers xs params flags ∧ (NamesFree hdd.driver.headers xs params.id → free)
  | .addSub fd arg => (∀ slot, hdd.slots[fd]? = some slot → slot.IsFile → slot.type ≠ apaTypeFree) ∧
    ∀ size, fioPartitionSizeLookUp arg = .ok size → size ≤ hdd.device.partitionMaxSize →
      AddSafe hdd.device hdd.driver.headers xs size
  | .swapTmp name => ∀ params, fioGetInput encrypt name = .ok params → ∀ (i : ℕ) (slot : FileSlot),
    hdd.slots[i]? = some slot → slot.IsFile → slot.id ≠ tmpId ∧ slot.id ≠ params.id
  | _ => True

/-- A request has returned, and the open files agree with the table. -/
def Hdd.Answered (free : Prop) (result : Option ℤ × Hdd n) : Prop :=
  ∃ rv xs, result.1 = some rv ∧ result.2.Session free xs

variable {p : FileSlot → ApaProg (ℤ × FileSlot)}

/-- A program that returns, run on a slot. -/
theorem Hdd.execSlot_eq (finish : ℤ → FileSlot → FileSlot)
    (hslot : hdd.slots[fd]? = some slot) (hrun : ((p slot).run hdd.driver).1 = some (rv, slot')) :
    hdd.execSlot fd p finish = (some rv, { hdd with
      driver := ((p slot).run hdd.driver).2
      slots := hdd.slots.set fd (finish rv slot') }) := by
  unfold execSlot
  rw [hslot]
  dsimp only
  cases heq : (p slot).run hdd.driver with
  | mk result driver =>
    rw [heq] at hrun
    obtain rfl : result = some (rv, slot') := hrun
    rfl

/-- `getFileSlot` finds a slot that is not used, if no slot has the name. -/
theorem getFileSlot_ok {slots : List FileSlot} {id : Id} (h : getFileSlot slots id = .ok fd) :
    slots.any (·.named id) = false ∧ ∃ slot, slots[fd]? = some slot ∧ slot.f = none := by
  unfold getFileSlot at h
  split at h
  · cases h
  · next hbusy =>
    cases hfind : slots.findIdx? (·.f.isNone) with
    | none =>
      rw [hfind] at h
      cases h
    | some i =>
      rw [hfind] at h
      obtain rfl := Except.ok.inj h
      obtain ⟨hi, hnone, -⟩ := findIdx?_eq_some_iff_getElem.mp hfind
      exact ⟨eq_false_iff.mpr hbusy, _, getElem?_eq_getElem hi, isNone_iff_eq_none.mp hnone⟩

theorem FileSlot.IsFile.id_ne {slots : List FileSlot} {id : Id} {i : ℕ} (hfile : slot.IsFile)
    (hbusy : slots.any (·.named id) = false) (hslot : slots[i]? = some slot) : slot.id ≠ id := by
  rintro rfl
  obtain ⟨f, hf, -⟩ := hfile
  refine eq_false_iff.mp hbusy (any_eq_true.mpr ⟨slot, mem_of_getElem? hslot, ?_⟩)
  simp [FileSlot.named, hf]

section

variable (h : hdd.Session free xs)
include h

theorem Hdd.Session.replace (hfile : ¬ slot.IsFile)
    (hdir : ∀ f, slot.f = some f → f.dir = true → f.wronly = false) :
    { hdd with slots := hdd.slots.set fd slot : Hdd n }.Session free xs :=
  ⟨h.holds, h.slots.replace (fun _ _ _ _ _ hon => hon) (fun hnew => absurd hnew hfile) hdir⟩

/-- `hddOpen` of a partition. -/
theorem Hdd.Session.hddOpen (hn : 3 ≤ n) (name : Str) (flags : OpenFlags)
    (hsafe : hdd.Safe encrypt free xs (.open name flags)) : Hdd.Answered free (hddOpen encrypt hdd name flags) := by
  unfold Apa.hddOpen
  split
  · exact ⟨-19, xs, rfl, h⟩
  · rcases fioGetInput_cases encrypt name with hinput | ⟨params, hinput, hgiven⟩
    · rw [hinput]
      exact ⟨-22, xs, rfl, h⟩
    · rw [hinput]
      dsimp only
      cases hfd : getFileSlot hdd.slots params.id with
      | error rv => exact ⟨rv, xs, rfl, h⟩
      | ok fd =>
        obtain ⟨hsafe, himp⟩ := hsafe params hinput
        obtain ⟨hbusy, slot, hslot, hnone⟩ := getFileSlot_ok hfd
        obtain ⟨⟨rv, slot'⟩, xs', hrun, hholds, hmore, hf, hdone⟩ := h.holds.open hn slot hgiven hsafe
        dsimp only
        rw [execSlot_eq _ hslot hrun]
        refine ⟨rv, xs', rfl, hholds, h.slots.replace (fun j slot _ _ _ hon => hon.mono hmore.mono)
          (fun hfile => ?_) ?_⟩
        · split at hfile
          · next hzero =>
            rw [if_pos hzero]
            obtain ⟨-, hid, hon⟩ := hdone hzero
            refine ⟨(hon.imp himp).withFile _, fun j other _ hother hfile' => ?_⟩
            rw [hid]
            exact hfile'.id_ne hbusy hother
          · obtain ⟨f, hfile, -⟩ := hfile
            rw [hf, hnone] at hfile
            cases hfile
        · intro f hnew hdir
          split at hnew
          · obtain rfl := some.inj hnew
            cases hdir
          · rw [hf, hnone] at hnew
            cases hnew

/-- `hddOpen` of the directory. -/
theorem Hdd.Session.hddDopen (id : Id) : Hdd.Answered free (hddDopen hdd id) := by
  unfold Apa.hddDopen
  split
  · exact ⟨-19, xs, rfl, h⟩
  · cases hfd : getFileSlot hdd.slots id with
    | error rv => exact ⟨rv, xs, rfl, h⟩
    | ok fd =>
      obtain ⟨-, slot, hslot, -⟩ := getFileSlot_ok hfd
      dsimp only
      rw [execSlot_eq _ hslot rfl]
      refine ⟨0, xs, rfl, h.replace ?_ ?_⟩
      · rintro ⟨f, hf, hdir⟩
        obtain rfl := some.inj hf
        cases hdir
      · intro f hf _
        obtain rfl := some.inj hf
        rfl

/-- `hddRemove`. -/
theorem Hdd.Session.hddRemove (hn : 3 ≤ n) (name : Str) : Hdd.Answered free (hddRemove encrypt hdd name) := by
  unfold Apa.hddRemove
  rcases fioGetInput_cases encrypt name with hinput | ⟨params, hinput, -⟩
  · rw [hinput]
    exact ⟨-22, xs, rfl, h⟩
  · rw [hinput]
    obtain ⟨rv, xs', hrun, hholds, hparts⟩ := h.holds.remove hn hdd.slots params.id params.fpwd
    refine ⟨rv, xs', hrun, hholds, h.slots.change fun j slot hslot hfile hon => ?_⟩
    rcases hparts with hsame | ⟨hbusy, a, hnamed, hremoved⟩
    · exact hon.mono fun x m hm => hsame ▸ hm
    · refine hon.remove h.holds.parts hremoved (fun m hm => (hnamed m hm).1) fun m hm => ?_
      rw [(hnamed m hm).2]
      exact hfile.id_ne hbusy hslot

end

theorem FileSlot.On.kept {P P' : Word → Option Header} (h : slot.On free P)
    (hkept : ∀ x, (∀ m, P x = some m → m.isSub = false → m.id = slot.id) → P' x = P x) : slot.On free P' := by
  rcases h with ⟨m, hm⟩ | hfree
  · refine .inl ⟨m, hm.congr (hkept _ fun m' hm' _ => ?_)⟩
    rw [← some.inj (hm.part.symm.trans hm'), hm.id]
  · exact .inr hfree

section

variable (h : hdd.Session free xs)
include h

/-- `hddReName`. -/
theorem Hdd.Session.hddReName (hn : 3 ≤ n) (oldname newname : Str) :
    Hdd.Answered free (hddReName encrypt hdd oldname newname) := by
  unfold Apa.hddReName
  split
  · next oldParams newParams _ _ =>
    obtain ⟨rv, xs', hrun, hholds, hparts⟩ := h.holds.rename hn hdd.slots oldParams newParams
    refine ⟨rv, xs', hrun, hholds, h.slots.change fun j slot hslot hfile hon => ?_⟩
    rcases hparts with hsame | ⟨hbusy, hrenamed⟩
    · exact hon.mono fun x m hm => hsame ▸ hm
    · refine hon.kept fun x hx => hrenamed.kept x fun m hm hmain => ?_
      rw [hx m hm hmain]
      exact hfile.id_ne hbusy hslot
  · exact ⟨_, xs, rfl, h⟩
  · exact ⟨_, xs, rfl, h⟩

/-- `HDIOC_SWAPTMP`. -/
theorem Hdd.Session.hddSwapTmp (hn : 3 ≤ n) (name : Str)
    (hsafe : hdd.Safe encrypt free xs (.swapTmp name)) : Hdd.Answered free (hddSwapTmp encrypt hdd name) := by
  unfold Apa.hddSwapTmp
  split
  · exact ⟨_, xs, rfl, h⟩
  · next params hinput =>
    obtain ⟨rv, xs', hrun, hholds, hparts⟩ := h.holds.swapTemp hn params
    refine ⟨rv, xs', hrun, hholds, h.slots.change fun j slot hslot hfile hon => ?_⟩
    rcases hparts with hsame | ⟨-, hswapped⟩
    · exact hon.mono fun x m hm => hsame ▸ hm
    · refine hon.kept fun x hx => hswapped.kept x fun m hm hmain => ?_
      rw [hx m hm hmain]
      exact hsafe params hinput j slot hslot hfile

theorem Hdd.Session.id_ne {other : FileSlot} {m : Header} {j : ℕ}
    (hslot : hdd.slots[fd]? = some slot) (hfile : slot.IsFile) (hm : slot.Agrees (partsOf hdd.driver.headers xs) m)
    (hne : j ≠ fd) (hother : hdd.slots[j]? = some other) (hfile' : other.IsFile) : other.id ≠ m.id := by
  intro heq
  exact hne (h.slots.distinct j fd other slot hother hslot hfile' hfile (heq.trans hm.id.symm))

/-- A file is replaced by one with the same name, and the partitions change. -/
theorem Hdd.Session.update {driver : Driver n} {xs' : List Word} (hholds : driver.Holds xs')
    (hslot : hdd.slots[fd]? = some slot) (hfile : slot.IsFile) (hf : slot'.f = slot.f) (hid : slot'.id = slot.id)
    (hon : slot'.On free (partsOf driver.headers xs'))
    (hkeep : ∀ (j : ℕ) (other : FileSlot), j ≠ fd → hdd.slots[j]? = some other → other.IsFile →
      other.On free (partsOf hdd.driver.headers xs) → other.On free (partsOf driver.headers xs')) :
    { hdd with driver := driver, slots := hdd.slots.set fd slot' : Hdd n }.Session free xs' := by
  refine ⟨hholds, h.slots.replace hkeep (fun _ => ⟨hon, fun j other hne hother hfile' heq => ?_⟩) fun f hnew => ?_⟩
  · exact hne (h.slots.distinct j fd other slot hother hslot hfile' hfile (heq.trans hid))
  · exact h.slots.dirs fd slot hslot f (hf.symm.trans hnew)

theorem Hdd.Session.same {driver : Driver n} {xs' : List Word} (hholds : driver.Holds xs')
    (hslot : hdd.slots[fd]? = some slot) (hfile : slot.IsFile)
    (hsame : partsOf driver.headers xs' = partsOf hdd.driver.headers xs) :
    { hdd with driver := driver, slots := hdd.slots.set fd slot : Hdd n }.Session free xs' := by
  refine h.update hholds hslot hfile rfl rfl ?_ fun j other _ _ _ hon => ?_
  · rw [hsame]
    exact h.slots.on fd slot hslot hfile
  · rwa [hsame]

end

theorem Hdd.isOpen_iff : hdd.isOpen fd = true ↔ ∃ slot f, hdd.slots[fd]? = some slot ∧ slot.f = some f := by
  unfold isOpen
  cases hdd.slots[fd]? with
  | none => simp
  | some slot => simp [isSome_iff_exists]

section

variable (h : hdd.Session free xs)
include h

/-- A request on a slot that is refused. -/
theorem Hdd.Session.refuse (hslot : hdd.slots[fd]? = some slot) (rv : ℤ) (hp : p slot = pure (rv, slot)) :
    Hdd.Answered free (hdd.execSlot fd p fun _ slot => slot) := by
  have hrun : (p slot).run hdd.driver = (some (rv, slot), hdd.driver) := by
    rw [hp]
    rfl
  have hsame : hdd.slots.set fd slot = hdd.slots := by
    obtain ⟨hfd, rfl⟩ := List.getElem?_eq_some_iff.mp hslot
    exact List.set_getElem_self hfd
  rw [execSlot_eq _ hslot (congrArg Prod.fst hrun), hrun, hsame]
  exact ⟨rv, xs, rfl, h⟩

/-- A request on the slot of a file, which is refused on the slot of a directory. -/
theorem Hdd.Session.onFile (hread : ∀ slot, slot.f.all (·.wronly) = false → p slot = pure (-13, slot))
    (hfile : ∀ slot, hdd.slots[fd]? = some slot → slot.IsFile →
      Hdd.Answered free (hdd.execSlot fd p fun _ slot => slot)) :
    Hdd.Answered free (if hdd.isOpen fd then hdd.execSlot fd p fun _ slot => slot else (some (-9), hdd)) := by
  split
  · next hopen =>
    obtain ⟨slot, f, hslot, hf⟩ := isOpen_iff.mp hopen
    cases hdir : f.dir with
    | true =>
      refine h.refuse hslot (-13) (hread slot ?_)
      rw [hf]
      exact h.slots.dirs fd slot hslot f hf hdir
    | false => exact hfile slot hslot ⟨f, hf, hdir⟩
  · exact ⟨-9, xs, rfl, h⟩

/-- `HIOCADDSUB`. -/
theorem Hdd.Session.addSub (hn : 3 ≤ n) (fd : ℕ) (arg : Str)
    (hsafe : hdd.Safe encrypt free xs (.addSub fd arg)) : Hdd.Answered free
    (hdd.serve encrypt (.addSub fd arg)) := by
  refine h.onFile (fun _ hread => if_pos hread) fun slot hslot hfile => ?_
  obtain ⟨m, hm⟩ := (h.slots.on fd slot hslot hfile).resolve_right fun hfree => hsafe.1 slot hslot hfile hfree.1
  obtain ⟨⟨rv, slot'⟩, xs', hrun, hholds, hparts⟩ := h.holds.addSub hn hm hsafe.2
  rw [execSlot_eq _ hslot hrun]
  refine ⟨rv, xs', rfl, ?_⟩
  rcases hparts with ⟨rfl, hsame⟩ | ⟨x, new, hroom, hnone, -, rfl, hparts⟩
  · exact h.same hholds hslot hfile hsame
  · refine h.update hholds hslot hfile rfl rfl (.inl ⟨m.enter ⟨x, new.length⟩, hm.enter hroom ?_⟩)
      fun j other hne hother hfile' hon => ?_
    · rw [hparts, Function.update_self]
    · rw [hparts]
      exact hon.addSub hnone (h.id_ne hslot hfile hm hne hother hfile') hm.part

/-- `HIOCDELSUB`. -/
theorem Hdd.Session.deleteSub (hn : 3 ≤ n) (fd : ℕ) : Hdd.Answered free (hdd.serve encrypt (.deleteSub fd)) := by
  refine h.onFile (fun _ hread => if_pos hread) fun slot hslot hfile => ?_
  rcases h.slots.on fd slot hslot hfile with ⟨m, hm⟩ | ⟨htype, hnsub, hfree⟩
  · obtain ⟨⟨rv, slot'⟩, xs', hrun, hholds, hparts⟩ := h.holds.deleteLastSub hn hm
    rw [execSlot_eq _ hslot hrun]
    refine ⟨rv, xs', rfl, ?_⟩
    rcases hparts with ⟨rfl, hsame⟩ | ⟨k, hk, rfl, hcut⟩
    · exact h.same hholds hslot hfile hsame
    · refine h.update hholds hslot hfile rfl rfl (.inl ⟨m.dropSub, (hm.dropSub hk hcut.main).2⟩)
        fun j other hne hother hfile' hon => ?_
      exact hon.cut h.holds.parts hm.part hm.main hcut (h.id_ne hslot hfile hm hne hother hfile')
  · by_cases hwrite : slot.f.all (·.wronly) = false
    · exact h.refuse hslot (-13) (if_pos hwrite)
    · exact h.refuse hslot (-2) ((if_neg hwrite).trans (if_pos hnsub))

/-- Every safe request returns, and leaves the open files in agreement with the table. -/
theorem Hdd.Session.serve (hn : 3 ≤ n) (request : Request)
    (hsafe : hdd.Safe encrypt free xs request) : Hdd.Answered free (hdd.serve encrypt request) := by
  cases request with
  | «open» name flags => exact h.hddOpen hn name flags hsafe
  | dopen id => exact h.hddDopen id
  | close fd =>
    rw [Hdd.serve]
    split
    · refine ⟨0, xs, rfl, h.replace ?_ fun f hf => ?_⟩
      · rintro ⟨f, hf, -⟩
        cases hf
      · cases hf
    · exact ⟨-9, xs, rfl, h⟩
  | remove name => exact h.hddRemove hn name
  | rename oldname newname => exact h.hddReName hn oldname newname
  | addSub fd size => exact h.addSub hn fd size hsafe
  | deleteSub fd => exact h.deleteSub hn fd
  | swapTmp name => exact h.hddSwapTmp hn name hsafe

end

/-- Every request of a run of safe requests returns, and the open files agree with the table at its end. -/
theorem Hdd.Session.run (hn : 3 ≤ n) (requests : List Request) (h : hdd.Session free xs)
    (hsafe : AllMeet (Hdd.serve encrypt) (fun hdd request => ∀ xs, hdd.driver.WellFormed xs →
      hdd.Safe encrypt free xs request) hdd requests) :
    ∃ xs', (Lib.run (Hdd.serve encrypt) hdd requests).2.Session free xs' := by
  refine run_invariant (Hdd.serve encrypt) _ (fun hdd => ∃ xs, hdd.Session free xs)
    (fun hdd request hinv hmeet => ?_) requests hdd ⟨xs, h⟩ hsafe
  obtain ⟨xs, h⟩ := hinv
  obtain ⟨-, xs', -, hsession⟩ := h.serve hn request (hmeet xs h.holds.well)
  exact ⟨xs', hsession⟩

theorem mem_of_checkTable {hs : List Header} {x : Word} (hcheck : checkTable (2 ^ 18) hs)
    (hx : x ∈ 0 :: hs.tail.map start) : ∃ h ∈ hs, h.start = x := by
  cases hs with
  | nil => exact absurd hcheck (by decide)
  | cons first rest =>
    simp only [checkTable, and_eq_true, beq_iff_eq] at hcheck
    rw [tail_cons, ← hcheck.1.1.1.1.1, ← map_cons] at hx
    exact mem_map.mp hx

/-- A driver that has just been started on a table without sub-partitions, before any file is opened. -/
theorem Hdd.session_fresh (free : Prop) (device : Device) {hs : List Header} {slots : List FileSlot}
    (hcheck : checkTable (2 ^ 18) hs) (hnodup : (hs.map start).Nodup)
    (hlast : hs.getLast?.map type ≠ some apaTypeFree) (hmain : ∀ h ∈ hs, h.isSub = false ∧ h.nsub = 0)
    (hclosed : ∀ slot ∈ slots, slot.f = none) :
    Hdd.Session free ⟨.fresh n (diskOf hs), device, slots⟩ (hs.tail.map start) := by
  obtain ⟨hwell, hheaders⟩ := Driver.wellFormed_fresh n hs hcheck hnodup hlast
  have hparts : ∀ x m, partsOf (Driver.fresh n (diskOf hs)).headers (hs.tail.map start) x = some m →
      m.isSub = false ∧ m.nsub = 0 := by
    intro x m hm
    obtain ⟨hx, -, rfl⟩ := mem_of_partsOf hm
    obtain ⟨h, hh, rfl⟩ := mem_of_checkTable hcheck hx
    rw [hheaders h hh]
    exact hmain h hh
  refine ⟨⟨hwell, fun x hx _ => ?_, ⟨fun h hh => (hparts 0 h hh).1, fun x m hm _ => ?_, fun x m hm _ i hi => ?_,
    fun y s hs hsub => ?_⟩⟩, .closed hclosed⟩
  · obtain ⟨h, hh, rfl⟩ := mem_of_checkTable hcheck hx
    exact (congrArg isSub (hheaders h hh)).trans (hmain h hh).1
  · rw [(hparts x m hm).2]
    exact Nat.zero_le 64
  · rw [(hparts x m hm).2] at hi
    exact absurd hi (Nat.not_lt_zero i)
  · rw [(hparts y s hs).1] at hsub
    cases hsub

end Serving

section Lists

open Lib List Hdd

variable {n : ℕ} {encrypt : Id → Password → Password} {s : Driver n} {hdd : Hdd n} {xs ys : List Word} {x : Word}

/-- The links on the drive, followed from sector 0, visit these headers and come back. -/
structure Driver.Visits (s : Driver n) (xs : List Word) : Prop where
  follows : List.IsChain (fun x y => (s.headers x).next = y) (0 :: xs ++ [0])
  first : 0 ∉ xs

theorem Driver.WellFormed.visits (h : s.WellFormed xs) : s.Visits xs :=
  ⟨h.stores.table.ring.follows.imp fun _ _ hfollows => hfollows.next, h.stores.table.ring.first⟩

theorem Driver.Visits.unique (h : s.Visits xs) (h' : s.Visits ys) : xs = ys :=
  chain_unique h.follows h'.follows h.first h'.first

/-- The lists of sub-partitions, the sub-partitions and the open files agree. -/
structure Hdd.ListsAgree (hdd : Hdd n) (xs : List Word) : Prop where
  listed : ∀ a ∈ 0 :: xs, (hdd.driver.headers a).isSub = false → ∀ i < (hdd.driver.headers a).nsub.toNat,
    ∃ x ∈ 0 :: xs, ((hdd.driver.headers a).sub i).start = x ∧ (hdd.driver.headers x).isSub = true ∧
      (hdd.driver.headers x).length = ((hdd.driver.headers a).sub i).length ∧
      (hdd.driver.headers x).main = (hdd.driver.headers a).start ∧ (hdd.driver.headers x).number.toNat = i + 1
  owned : ∀ x ∈ 0 :: xs, (hdd.driver.headers x).isSub = true → ∃! a, a ∈ 0 :: xs ∧
    (hdd.driver.headers a).isSub = false ∧
      ∃ i < (hdd.driver.headers a).nsub.toNat, ((hdd.driver.headers a).sub i).start = x
  slots : ∀ slot ∈ hdd.slots, slot.IsFile → (slot.parts 0).start ∈ 0 :: xs ∧
    slot.nsub.toNat = (hdd.driver.headers (slot.parts 0).start).nsub.toNat ∧
    ∀ i < slot.nsub.toNat, slot.parts (Fin.ofNat 65 (i + 1)) = (hdd.driver.headers (slot.parts 0).start).sub i

/-- In a consistent table the lists agree with the headers. -/
theorem Hdd.Session.listsAgree (h : hdd.Session False xs) : hdd.ListsAgree xs := by
  obtain ⟨⟨hwell, hplain, hparts⟩, hslots⟩ := h
  have hsound := hwell.stores.table.sound
  -- what a header without partition cannot be
  have hpart : ∀ x ∈ 0 :: xs, (hdd.driver.headers x).isSub = true →
      partsOf hdd.driver.headers xs x = some (hdd.driver.headers x).body := by
    intro x hx hsub
    refine partsOf_eq hx fun hfree => ?_
    rw [hplain x hx hfree] at hsub
    cases hsub
  have hmain : ∀ a ∈ 0 :: xs, ∀ i < (hdd.driver.headers a).nsub.toNat,
      partsOf hdd.driver.headers xs a = some (hdd.driver.headers a).body := by
    intro a ha i hi
    refine partsOf_eq ha fun hfree => ?_
    rw [(hsound a ha).empty hfree] at hi
    exact absurd hi (Nat.not_lt_zero i)
  refine ⟨fun a ha hsub i hi => ?_, fun x hx hsub => ?_, fun slot hslot hfile => ?_⟩
  · obtain ⟨sub, hs, hissub, hlength, hback, hnumber⟩ := hparts.listed a _ (hmain a ha i hi) hsub i hi
    obtain ⟨hmem, -, rfl⟩ := mem_of_partsOf hs
    exact ⟨_, hmem, rfl, hissub, hlength, hback.trans (hsound a ha).start.symm, hnumber⟩
  · obtain ⟨m, hm, hmsub, i, hi, hentry⟩ := hparts.owned x _ (hpart x hx hsub) hsub
    obtain ⟨hmem, -, rfl⟩ := mem_of_partsOf hm
    refine ⟨_, ⟨hmem, hmsub, i, hi, congrArg Sub.start hentry⟩, ?_⟩
    rintro b ⟨hb, hbsub, j, hj, hbx⟩
    obtain ⟨sub, hs, -, -, hback, -⟩ := hparts.listed b _ (hmain b hb j hj) hbsub j hj
    obtain ⟨-, -, rfl⟩ := mem_of_partsOf hs
    rw [← hbx]
    exact hback.symm
  · obtain ⟨i, hi⟩ := mem_iff_getElem?.mp hslot
    rcases hslots.on i slot hi hfile with ⟨m, hm⟩ | ⟨-, -, hfalse⟩
    · obtain ⟨hmem, -, rfl⟩ := mem_of_partsOf hm.part
      exact ⟨hmem, hm.nsub, fun i hi => hm.parts i (hm.nsub ▸ hi)⟩
    · exact hfalse.elim

/-- Requests that create partitions do so safely, and open no free space. Requests that change names are left
out. -/
def Hdd.Extends (encrypt : Id → Password → Password) (hdd : Hdd n) (xs : List Word) : Request → Prop
  | .open name flags => ∀ params, fioGetInput encrypt name = .ok params →
    OpenSafe hdd.device hdd.driver.headers xs params flags ∧ ¬ NamesFree hdd.driver.headers xs params.id
  | .addSub _ arg => ∀ size, fioPartitionSizeLookUp arg = .ok size → size ≤ hdd.device.partitionMaxSize →
    AddSafe hdd.device hdd.driver.headers xs size
  | .rename _ _ => False
  | .swapTmp _ => False
  | _ => True

/-- No file is open on free space, so such requests are safe. -/
theorem Hdd.Session.safe_of_extends (h : hdd.Session False xs) {request : Request}
    (hextends : hdd.Extends encrypt xs request) : hdd.Safe encrypt False xs request := by
  cases request with
  | «open» name flags => exact hextends
  | addSub fd arg =>
    refine ⟨fun slot hslot hfile hfree => ?_, hextends⟩
    rcases h.slots.on fd slot hslot hfile with ⟨m, hm⟩ | ⟨-, -, hfalse⟩
    · obtain ⟨-, htype, rfl⟩ := mem_of_partsOf hm.part
      exact htype (hm.type.symm.trans hfree)
    · exact hfalse
  | dopen _ | close _ | remove _ | rename _ _ | deleteSub _ => trivial
  | swapTmp _ => exact hextends.elim

/-- The lists of sub-partitions and the open files agree with the table at the end of every run of requests that
create, extend, shrink and remove partitions, if all partitions that are created are safe and no free space is
opened. -/
theorem subLists_agree (hn : 3 ≤ n) (h : hdd.Session False xs) (requests : List Request)
    (hmeet : AllMeet (Hdd.serve encrypt) (fun hdd request => ∀ xs, hdd.driver.WellFormed xs →
      hdd.Extends encrypt xs request) hdd requests) :
    ∃ xs', (run (Hdd.serve encrypt) hdd requests).2.driver.Visits xs' ∧
      (run (Hdd.serve encrypt) hdd requests).2.ListsAgree xs' := by
  obtain ⟨xs', hsession⟩ := run_invariant (serve encrypt) _ (fun hdd => ∃ xs, hdd.Session False xs)
    (fun hdd request hinv hmeet => by
      obtain ⟨xs, h⟩ := hinv
      obtain ⟨-, xs', -, hsession⟩ := h.serve hn request (h.safe_of_extends (hmeet xs h.holds.well))
      exact ⟨xs', hsession⟩) requests hdd ⟨xs, h⟩ hmeet
  exact ⟨xs', hsession.holds.well.visits, hsession.listsAgree⟩

theorem soloHdd_session (free : Prop) : soloHdd.Session free [] :=
  session_fresh free _ (by decide) (by decide) (by decide) (by decide) (by simp [FileSlot.zero])

/-- Create a partition, give it a sub-partition and take that away. -/
def shortSession : List Request := [.open (str "PP.DATA,,,128M,PFS") ⟨true, true⟩, .addSub 0 (str "128M"),
    .deleteSub 0]

/-- The lists agree after these requests. -/
theorem subLists_agree_shortSession : ∃ xs', (run (Hdd.serve fun _ pwd => pwd) soloHdd shortSession).2.driver.Visits
    xs' ∧ (run (Hdd.serve fun _ pwd => pwd) soloHdd shortSession).2.ListsAgree xs' := by
  refine subLists_agree (by decide) (soloHdd_session False) shortSession
    ⟨fun xs hxs params hinput => ?_, fun xs hxs size hsize _ => ?_, fun _ _ => trivial, trivial⟩
  · obtain rfl := hxs.visits.unique soloHdd_wellFormed.visits
    obtain rfl := Except.ok.inj hinput
    refine ⟨fun _ => ⟨by decide, fun _ _ => by decide⟩, ?_⟩
    rintro ⟨y, hy, -, hfree⟩
    obtain rfl := mem_singleton.mp hy
    rw [soloHdd_headers] at hfree
    exact absurd hfree (by decide)
  · obtain rfl := hxs.visits.unique (show Driver.Visits _ [0x40000] from ⟨by decide +kernel, by decide⟩)
    obtain rfl := Except.ok.inj hsize
    exact fun _ _ => by decide +kernel

/-- A table with free space between two partitions. -/
def gapTable : List Header :=
  [{ soloHeader with next := 0x40000, prev := 0x80000 },
    { headerOf apaTypeFree 0x40000 0x40000 0x80000 0 with id := fill 8 (str "__empty") },
    headerOf 0x0100 0x80000 0x40000 0 0x40000]

/-- The driver on that table. -/
def gapHdd : Hdd 3 := ⟨.fresh 3 (diskOf gapTable), ⟨0x100000, 0x40000, 2, 0⟩, [.zero, .zero]⟩

/-- Open the free space, and add a sub-partition to it. -/
def freeSession : List Request := [.open (str "__empty") ⟨true, false⟩, .addSub 0 (str "128M")]

theorem freeSession_run : (run (serve fun _ pwd => pwd) gapHdd freeSession).1 = [some 0, some 0] ∧
    List.IsChain (fun x y => ((run (serve fun _ pwd => pwd) gapHdd freeSession).2.driver.headers x).next = y)
      [0, 0x40000, 0x80000, 0] ∧
    ((run (serve fun _ pwd => pwd) gapHdd freeSession).2.driver.headers 0x40000).isSub = true ∧
    ((run (serve fun _ pwd => pwd) gapHdd freeSession).2.driver.headers 0).nsub = 0 ∧
    ((run (serve fun _ pwd => pwd) gapHdd freeSession).2.driver.headers 0x80000).nsub = 0 := by
  decide +kernel

/-- The sub-partition takes the place of the free space. It is its own main partition, and in no list. -/
theorem subLists_disagree : gapHdd.Session False [0x40000, 0x80000] ∧
    (run (Hdd.serve fun _ pwd => pwd) gapHdd freeSession).1 = [some 0, some 0] ∧
    ¬ ∃ xs', (run (Hdd.serve fun _ pwd => pwd) gapHdd freeSession).2.driver.Visits xs' ∧
      (run (Hdd.serve fun _ pwd => pwd) gapHdd freeSession).2.ListsAgree xs' := by
  obtain ⟨hreply, hchain, hsub, hfirst, hlast⟩ := freeSession_run
  refine ⟨session_fresh False _ (by decide) (by decide) (by decide) (by decide) (by simp [FileSlot.zero]),
    hreply, ?_⟩
  generalize (run (serve fun _ pwd => pwd) gapHdd freeSession).2 = hdd at *
  rintro ⟨xs', hvisits, hagree⟩
  obtain rfl := hvisits.unique (show hdd.driver.Visits [0x40000, 0x80000] from ⟨hchain, by decide⟩)
  obtain ⟨a, ⟨ha, hmain, i, hi, -⟩, -⟩ := hagree.owned 0x40000 (by decide) hsub
  simp only [mem_cons, not_mem_nil, or_false] at ha
  rcases ha with rfl | rfl | rfl
  · rw [hfirst] at hi
    exact Nat.not_lt_zero i hi
  · rw [hsub] at hmain
    cases hmain
  · rw [hlast] at hi
    exact Nat.not_lt_zero i hi

end Lists

end Ps2sdk.Apa
