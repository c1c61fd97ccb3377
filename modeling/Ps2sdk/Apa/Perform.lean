import Ps2sdk.Apa.Accounts
import Ps2sdk.Apa.SubRequests
import Ps2sdk.Apa.Transfer

/-!
# Operations on a consistent table

What the requests that create, delete and rename partitions do on a drive whose partitions and sub-partitions
agree, as changes of the map of partitions. `apaRename` gives a partition a new name and new passwords, and
`devctlSwapTemp` exchanges the names of two partitions.
-/

namespace Ps2sdk.Apa

open Lib ApaProg Header Multiset

section Slots

variable {P P' : Word → Option Header} {slot new : FileSlot} {slots : List FileSlot} {m m' : Header} {a x : Word}
  {i : ℕ} {free : Prop}

/-- The slot is open on a partition. -/
def FileSlot.IsFile (slot : FileSlot) : Prop := ∃ f, slot.f = some f ∧ f.dir = false

/-- The slot agrees with a partition or, where that is possible, was opened on free space. -/
def FileSlot.On (free : Prop) (slot : FileSlot) (P : Word → Option Header) : Prop :=
  (∃ m, slot.Agrees P m) ∨ slot.type = apaTypeFree ∧ slot.nsub = 0 ∧ free

/-- All slots that are open on partitions do, and no two of them have the same name; directories are not written. -/
structure SlotsOk (free : Prop) (P : Word → Option Header) (slots : List FileSlot) : Prop where
  on : ∀ (i : ℕ) (slot : FileSlot), slots[i]? = some slot → slot.IsFile → slot.On free P
  distinct : ∀ (i j : ℕ) (slot slot' : FileSlot), slots[i]? = some slot → slots[j]? = some slot' → slot.IsFile →
    slot'.IsFile → slot.id = slot'.id → i = j
  dirs : ∀ (i : ℕ) (slot : FileSlot), slots[i]? = some slot → ∀ f, slot.f = some f → f.dir = true → f.wronly = false

theorem FileSlot.On.imp {free' : Prop} (h : slot.On free P) (himp : free → free') : slot.On free' P :=
  Or.imp_right (fun hfree => ⟨hfree.1, hfree.2.1, himp hfree.2.2⟩) h

theorem FileSlot.On.withFile (h : slot.On free P) (f : Option File) : { slot with f := f : FileSlot }.On free P :=
  Or.imp_left (fun ⟨m, hm⟩ => ⟨m, hm.part, hm.main, hm.id, hm.type, hm.nsub, hm.parts⟩) h

theorem FileSlot.Agrees.congr (h : slot.Agrees P m) (hsame : P' (slot.parts 0).start = P (slot.parts 0).start) :
    slot.Agrees P' m :=
  ⟨hsame.trans h.part, h.main, h.id, h.type, h.nsub, h.parts⟩

theorem FileSlot.Agrees.start_ne (h : slot.Agrees P m) (hm : P a = some m') (hid : slot.id ≠ m'.id) :
    (slot.parts 0).start ≠ a := by
  intro heq
  have hpart := h.part
  rw [heq, hm] at hpart
  exact hid (h.id.trans (congrArg Header.id (Option.some.inj hpart).symm))

theorem SlotsOk.closed (h : ∀ slot ∈ slots, slot.f = none) : SlotsOk free P slots := by
  have hfile : ∀ (i : ℕ) (slot : FileSlot), slots[i]? = some slot → ∀ f, slot.f ≠ some f := by
    intro i slot hslot f hf
    rw [h slot (List.mem_of_getElem? hslot)] at hf
    cases hf
  exact ⟨fun i slot hslot ⟨f, hf, _⟩ => absurd hf (hfile i slot hslot f),
    fun i _ slot _ hslot _ ⟨f, hf, _⟩ => absurd hf (hfile i slot hslot f),
    fun i slot hslot f hf => absurd hf (hfile i slot hslot f)⟩

/-- The partitions change, and one slot is replaced. -/
theorem SlotsOk.replace (h : SlotsOk free P slots)
    (hkeep : ∀ (j : ℕ) (slot : FileSlot), j ≠ i → slots[j]? = some slot → slot.IsFile → slot.On free P →
      slot.On free P')
    (hnew : new.IsFile → new.On free P' ∧
      ∀ (j : ℕ) (slot : FileSlot), j ≠ i → slots[j]? = some slot → slot.IsFile → slot.id ≠ new.id)
    (hdir : ∀ f, new.f = some f → f.dir = true → f.wronly = false) : SlotsOk free P' (slots.set i new) := by
  have hcases : ∀ j slot, (slots.set i new)[j]? = some slot → j = i ∧ slot = new ∨ j ≠ i ∧ slots[j]? =
    some slot := by
    intro j slot hslot
    rw [List.getElem?_set] at hslot
    split at hslot
    · next heq =>
      split at hslot
      · exact .inl ⟨heq.symm, (Option.some.inj hslot).symm⟩
      · cases hslot
    · next hne => exact .inr ⟨Ne.symm hne, hslot⟩
  refine ⟨fun j slot hslot hfile => ?_, fun j k slot slot' hj hk hfile hfile' hid => ?_, fun j slot hslot => ?_⟩
  · rcases hcases j slot hslot with ⟨-, rfl⟩ | ⟨hne, hslot⟩
    · exact (hnew hfile).1
    · exact hkeep j slot hne hslot hfile (h.on j slot hslot hfile)
  · rcases hcases j slot hj with ⟨rfl, rfl⟩ | ⟨hjne, holdj⟩
    · rcases hcases k slot' hk with ⟨rfl, rfl⟩ | ⟨hkne, holdk⟩
      · rfl
      · exact absurd hid.symm ((hnew hfile).2 k slot' hkne holdk hfile')
    · rcases hcases k slot' hk with ⟨rfl, rfl⟩ | ⟨hkne, holdk⟩
      · exact absurd hid ((hnew hfile').2 j slot hjne holdj hfile)
      · exact h.distinct j k slot slot' holdj holdk hfile hfile' hid
  · rcases hcases j slot hslot with ⟨-, rfl⟩ | ⟨-, hslot⟩
    · exact hdir
    · exact h.dirs j slot hslot

theorem SlotsOk.change (h : SlotsOk free P slots)
    (hkeep : ∀ (j : ℕ) (slot : FileSlot), slots[j]? = some slot → slot.IsFile → slot.On free P → slot.On free P') :
    SlotsOk free P' slots :=
  ⟨fun j slot hslot hfile => hkeep j slot hslot hfile (h.on j slot hslot hfile), h.distinct, h.dirs⟩

variable (h : slot.On free P)

include h

theorem FileSlot.On.mono (hsub : ∀ x m, P x = some m → P' x = some m) : slot.On free P' := by
  rcases h with ⟨m, hm⟩ | hfree
  · exact .inl ⟨m, hm.congr ((hsub _ m hm.part).trans hm.part.symm)⟩
  · exact .inr hfree

/-- A slot agrees with its partition when another one is removed. -/
theorem FileSlot.On.remove {rv : ℤ} (hP : Consistent P) (hremoved : Removed P a rv P')
    (hmain : ∀ m, P a = some m → m.isSub = false) (hid : ∀ m, P a = some m → slot.id ≠ m.id) : slot.On free P' := by
  rcases h with ⟨m, hm⟩ | hfree
  · have hcut : ∀ {P' : Word → Option Header} {m1 : Header}, P a = some m1 → Cut P P' a m1 { m1 with nsub := 0 } 0 →
        (slot.parts 0).start ≠ a ∧ P' (slot.parts 0).start = P (slot.parts 0).start := by
      intro P' m1 hm1 hcut
      have hne := hm.start_ne hm1 (hid m1 hm1)
      exact ⟨hne, hcut.kept _ hne fun j _ hj => hP.sub_ne hm1 (hmain m1 hm1) hj hm.part hm.main⟩
    refine .inl ⟨m, hm.congr ?_⟩
    cases hremoved with
    | free hfree => rfl
    | first hm1 hfirst hcut1 => exact (hcut hm1 hcut1).2
    | part hm1 hfirst hcut1 =>
      obtain ⟨hne, hsame⟩ := hcut hm1 hcut1
      rw [Function.update_of_ne hne, hsame]
  · exact .inr hfree

/-- A slot agrees with its partition when a sub-partition is entered in another one. -/
theorem FileSlot.On.addSub {sub : Header} (hx : P x = none) (hid : slot.id ≠ m.id)
    (hm : P a = some m) : slot.On free (Function.update (Function.update P x (some sub)) a (some m')) := by
  rcases h with ⟨m1, hm1⟩ | hfree
  · have hne := hm1.start_ne hm hid
    have hnx : (slot.parts 0).start ≠ x := by
      intro heq
      have hpart := hm1.part
      rw [heq, hx] at hpart
      cases hpart
    refine .inl ⟨m1, hm1.congr ?_⟩
    rw [Function.update_of_ne hne, Function.update_of_ne hnx]
  · exact .inr hfree

theorem FileSlot.On.cut {k : ℕ} (hP : Consistent P) (hm : P a = some m) (hmain : m.isSub = false)
    (hcut : Cut P P' a m m' k) (hid : slot.id ≠ m.id) : slot.On free P' := by
  rcases h with ⟨m1, hm1⟩ | hfree
  · have hne := hm1.start_ne hm hid
    exact .inl ⟨m1, hm1.congr (hcut.kept _ hne fun j _ hj => hP.sub_ne hm hmain hj hm1.part hm1.main)⟩
  · exact .inr hfree

omit h

end Slots

section Table

open Fin

variable {n : ℕ} {α : Type} {s : Driver n} {v v' : Word → Header} {xs xs' : List Word} {x : Word} {slot : FileSlot}
  {device : Device} {params : Params} {m : Header}

/-- Free space does not have the flag of a sub-partition. -/
def Plain (h : Header) : Prop := h.type = apaTypeFree → h.isSub = false

theorem noFlags : ((0 : BitVec 16) &&& apaFlagSub != 0) = false := by decide

theorem closed_plain : Closed Plain := by
  refine ⟨fun _ _ _ _ _ _ => noFlags, fun h h' htype hflags _ hplain hfree => ?_⟩
  have := hplain (htype.symm.trans hfree)
  rwa [isSub, hflags]

/-- The driver is at rest on a table in which main partitions and sub-partitions agree. -/
structure Driver.Holds (s : Driver n) (xs : List Word) : Prop where
  well : s.WellFormed xs
  plain : ∀ x ∈ 0 :: xs, Plain (s.headers x)
  parts : Consistent (partsOf s.headers xs)

theorem partsOf_congr (heq : ∀ x ∈ 0 :: xs, v' x = v x) : partsOf v' xs = partsOf v xs := by
  funext x
  by_cases hx : x ∈ 0 :: xs
  · rw [partsOf, partsOf, heq x hx]
  · rw [partsOf, partsOf, if_neg fun h => hx h.1, if_neg fun h => hx h.1]

/-- What a program is to reach: a table of blocks whose partitions agree and are as told. -/
def Reached (Q : α → (Word → Option Header) → Prop) (a : α) (t : Known Word Header) : Prop :=
  ∃ v' xs', Settled (2 ^ 18) v' xs' t ∧ Ended (blocks v' (0 :: xs')) ∧ Consistent (partsOf v' xs') ∧
    Q a (partsOf v' xs')

/-- A program run on the driver returns and leaves a table whose partitions agree and are as told. -/
def Driver.Serves (s : Driver n) (p : ApaProg α) (Q : α → (Word → Option Header) → Prop) : Prop :=
  ∃ a xs', (p.run s).1 = some a ∧ (p.run s).2.Holds xs' ∧ Q a (partsOf (p.run s).2.headers xs')

theorem Driver.good_atRest {good : Header → Prop} (h : ∀ x ∈ 0 :: xs, good (s.headers x)) :
    Prog.Good ⟨n, False, good⟩ (s.atRest xs) := by
  rintro y (hy | hy | hy | hy)
  · exact h y hy
  · exact absurd hy (Multiset.notMem_zero y)
  · exact absurd hy (Finset.notMem_empty y)
  · cases hy

/-- A program that is right about the table and writes plain headers, run on the driver. -/
theorem Driver.Holds.perform {p : ApaProg α} {Q : α → (Word → Option Header) → Prop} {R : α → Multiset Word → Prop}
    (h : s.Holds xs) (hwp : p.wp (tableRules n (2 ^ 18)) (Reached Q) (s.atRest xs))
    (haccounts : p.accounts ⟨n, False, Plain⟩ R 0) : s.Serves p Q := by
  obtain ⟨a, t, ha, hshows, ⟨v', xs', hsettled, hended, hparts, hQ⟩, hplain⟩ :=
    ApaProg.run_of_wp (pow_dvd_pow 2 (show 9 ≤ 18 by decide)) h.well.stores.shows
      (Prog.wp_accounts hwp haccounts (good_atRest h.plain))
  obtain ⟨hstores, hsame⟩ := hshows.stores_of_settled hsettled
  refine ⟨a, xs', ha, ⟨⟨hstores, ?_⟩, fun x hx => ?_, ?_⟩, ?_⟩
  · rw [← ended_blocks, blocks_eq hsame]
    exact hended
  · rw [hsame x hx, ← show t.record x = v' x from congrFun hsettled.draft.record x]
    exact hplain x (.inl (hsettled.draft.sound x hx))
  · rw [partsOf_congr hsame]
    exact hparts
  · rw [partsOf_congr hsame]
    exact hQ

/-- A slot that has been filled in from a header agrees with it. -/
theorem FileSlot.load_on (ht : Table (2 ^ 18) v xs) (hP : Consistent (partsOf v xs)) (hx : x ∈ 0 :: xs)
    (hmain : (v x).isSub = false) : (slot.load (v x)).On ((v x).type = apaTypeFree) (partsOf v xs) := by
  have hsound := ht.sound x hx
  by_cases hfree : (v x).type = apaTypeFree
  · refine .inr ⟨hfree, ?_, hfree⟩
    show (v x).nsub.setWidth 16 = 0
    rw [hsound.empty hfree]
    rfl
  · have hpart := partsOf_eq hx hfree
    have hfew : (v x).nsub.toNat ≤ 64 := hP.few x (v x).body hpart hmain
    refine .inl ⟨(v x).body, ?_, hmain, rfl, rfl, ?_, fun i hi => ?_⟩
    · show partsOf v xs (v x).start = _
      rw [hsound.start, hpart]
    · show ((v x).nsub.setWidth 16).toNat = (v x).nsub.toNat
      rw [BitVec.toNat_setWidth, Nat.mod_eq_of_lt (by omega)]
    · have hi : i < (v x).nsub.toNat := hi
      have hval : (Fin.ofNat 65 (i + 1)).val = i + 1 := Nat.mod_eq_of_lt (by omega)
      show (if (Fin.ofNat 65 (i + 1)).val = 0 then _ else (v x).subs
        (Fin.ofNat 64 ((Fin.ofNat 65 (i + 1)).val - 1))) = _
      rw [hval, if_neg (Nat.succ_ne_zero i)]
      rfl

/-- A partition that comes to be created is safe. -/
def OpenSafe (device : Device) (v : Word → Header) (xs : List Word) (params : Params) (flags : OpenFlags) : Prop :=
  Creates device v xs params flags → params.size ≠ 0 ∧ AddSafe device v xs params.size

/-- The name is that of free space. -/
def NamesFree (v : Word → Header) (xs : List Word) (id : Id) : Prop :=
  ∃ y ∈ 0 :: xs, (v y).Named id ∧ (v y).type = apaTypeFree

/-- A partition with a name that no other has is added, or all partitions are as they were. -/
def Opened (P P' : Word → Option Header) (id : Id) : Prop :=
  P' = P ∨ ∃ x new, P x = none ∧ new.id = id ∧ (∀ y m, P y = some m → m.isSub = false → m.id ≠ id) ∧
    P' = Function.update P x (some new)

theorem Opened.mono {P P' : Word → Option Header} {id : Id} (h : Opened P P' id) (x : Word) (m : Header)
    (hm : P x = some m) : P' x = some m := by
  rcases h with rfl | ⟨y, new, hnone, -, -, rfl⟩
  · exact hm
  · rw [Function.update_of_ne, hm]
    rintro rfl
    rw [hnone] at hm
    cases hm

/-- `apaOpen` adds a partition or leaves the partitions alone; the slot agrees with the one it is opened on, and
reads, writes and transfers may start on it. -/
theorem Driver.Holds.open {flags : OpenFlags} (h : s.Holds xs) (hn : 3 ≤ n) (slot : FileSlot)
    (hgiven : params.Given) (hsafe : OpenSafe device s.headers xs params flags) :
    s.Serves (apaOpen device slot params flags) fun result P' => Opened (partsOf s.headers xs) P' params.id ∧
      result.2.f = slot.f ∧
      (result.1 = 0 → OpenFile.Valid ⟨result.2, 0⟩ ∧ result.2.id = params.id ∧
        result.2.On (NamesFree s.headers xs params.id) P') := by
  obtain ⟨l, hxs⟩ := exists_lastOf xs
  have hended := ended_blocks.mpr h.well.ended
  have hplain : ∀ x next prev length created, Plain (params.header x next prev length created) := by
    intro x next prev length created _
    show (params.flags &&& apaFlagSub != 0) = false
    rw [hgiven.1]
    exact noFlags
  refine h.perform ?_ (closed_plain.open (e := ⟨n, False, Plain⟩) hplain)
  refine h.well.stores.at.open hxs h.well.ended (fun hcreates => ?_) (fun hcreates => (hsafe hcreates).2) hn
    (fun y hmem hy t ht => ?_) (fun hcreates v' xs' x t ht hcreated hx hvx => ?_)
    fun rv t hrv ht => ?_
  · obtain ⟨-, -, hj⟩ := hgiven.2.resolve_left (hsafe hcreates).1
    exact hj
  · exact ⟨_, xs, ht.settled, hended, h.parts, .inl rfl, rfl, fun _ => ⟨
      FileSlot.load_valid ht.table h.parts hmem hy.1 slot, hy.2, (FileSlot.load_on ht.table h.parts hmem hy.1).imp
        fun hfree => ⟨y, hmem, hy, hfree⟩⟩⟩
  · obtain ⟨htype, -, -⟩ := hgiven.2.resolve_left (hsafe hcreates).1
    obtain ⟨next, prev, created, hvx⟩ := hvx
    have htype' : (v' x).type ≠ apaTypeFree := by
      rw [hvx]
      exact htype
    have hmain : (v' x).isSub = false := by
      rw [hvx]
      show (params.flags &&& apaFlagSub != 0) = false
      rw [hgiven.1]
      exact noFlags
    obtain ⟨hnone, hparts⟩ := h.well.stores.table.partsOf_create ht.table hx htype' hcreated
    have hnsub : (v' x).body.nsub = 0 := by
      rw [hvx]
      rfl
    have hconsistent : Consistent (partsOf v' xs') := by
      rw [hparts]
      exact h.parts.create hnone hmain hnsub
    refine ⟨v', xs', ht, hcreated.ended hended fun hpart => htype' (block_part_none.mp hpart), hconsistent,
      .inr ⟨x, _, hnone, ?_, fun y m hm hsub hid => ?_, hparts⟩, rfl,
      fun _ => ⟨FileSlot.load_valid ht.table hconsistent hx hmain slot, ?_,
        (FileSlot.load_on ht.table hconsistent hx hmain).imp fun hfree => absurd hfree htype'⟩⟩
    · rw [hvx]
      rfl
    · obtain ⟨hy, -, rfl⟩ := mem_of_partsOf hm
      exact hcreates.missing y hy ⟨hsub, hid⟩
    · show (v' x).id = params.id
      rw [hvx]
      rfl
  · refine ⟨_, xs, ht.settled, hended, h.parts, .inl rfl, rfl, fun hzero => ?_⟩
    omega

/-- `apaRemove` removes a partition with the name, which is not open, or leaves the partitions alone. -/
theorem Driver.Holds.remove (h : s.Holds xs) (hn : 3 ≤ n) (slots : List FileSlot) (id : Id) (fpwd : Password) :
    s.Serves (apaRemove slots id fpwd) fun rv P' => P' = partsOf s.headers xs ∨ slots.any (·.named id) = false ∧
      ∃ a, (∀ m, partsOf s.headers xs a = some m → m.isSub = false ∧ m.id = id) ∧
        Removed (partsOf s.headers xs) a rv P' := by
  have hended := ended_blocks.mpr h.well.ended
  refine h.perform ?_ (closed_plain.remove (e := ⟨n, False, Plain⟩))
  refine h.well.stores.at.remove hended h.parts hn (fun rv t ht => ?_)
    fun hbusy y hnamed rv v' xs' t ht hended' hremoved => ?_
  · exact ⟨_, xs, ht.settled, hended, h.parts, .inl rfl⟩
  · have hpart : ∀ m, partsOf s.headers xs y = some m → m.isSub = false ∧ m.id = id := by
      intro m hm
      obtain ⟨-, -, rfl⟩ := mem_of_partsOf hm
      exact hnamed
    exact ⟨v', xs', ht.settled, hended', hremoved.consistent h.parts fun m hm => (hpart m hm).1,
      .inr ⟨hbusy, y, hpart, hremoved⟩⟩

/-- A new sub-partition at a free address has been entered in a partition and in the slot open on it. -/
def Entered (P : Word → Option Header) (slot : FileSlot) (m : Header) (slot' : FileSlot)
    (P' : Word → Option Header) : Prop :=
  ∃ x new, m.nsub.toNat < 64 ∧ P x = none ∧ new.isSub = true ∧ slot' = slot.enter ⟨x, new.length⟩ ∧
    P' = Function.update (Function.update P x (some new)) (slot.parts 0).start (some (m.enter ⟨x, new.length⟩))

/-- `ioctl2AddSub` enters a new sub-partition in the partition and in the slot, or leaves both alone. -/
theorem Driver.Holds.addSub {arg : Str} (h : s.Holds xs) (hn : 3 ≤ n) (hslot : slot.Agrees (partsOf s.headers xs) m)
    (hsafe : ∀ size, fioPartitionSizeLookUp arg = .ok size → size ≤ device.partitionMaxSize →
      AddSafe device s.headers xs size) : s.Serves (ioctl2AddSub device slot arg) fun result P' =>
      result.2 = slot ∧ P' = partsOf s.headers xs ∨ Entered (partsOf s.headers xs) slot m result.2 P' := by
  have hended := ended_blocks.mpr h.well.ended
  obtain ⟨-, htype, hbody⟩ := mem_of_partsOf hslot.part
  have hplain : ∀ size x next prev length created,
      Plain ((slot.subParams size).header x next prev length created) := by
    intro size x next prev length created hfree
    have hfree : slot.type = apaTypeFree := hfree
    rw [hslot.type, ← hbody] at hfree
    exact absurd hfree htype
  refine h.perform ?_ (closed_plain.addSub (e := ⟨n, False, Plain⟩) hplain)
  refine h.well.stores.at.addSub hended hslot hn hsafe (fun rv t ht => ?_)
    fun hroom v' xs' x new t ht hended' hzero hnone hsub hmain hnumber hparts => ?_
  · exact ⟨_, xs, ht.settled, hended, h.parts, .inl ⟨rfl, rfl⟩⟩
  · obtain ⟨hnsub, hsame, hlast⟩ := enter_spec hroom ⟨x, new.length⟩
    refine ⟨v', xs', ht.settled, hended', ?_, .inr ⟨x, new, hroom, hnone, hsub, rfl, hparts⟩⟩
    rw [hparts]
    exact h.parts.addSub hslot.part hslot.main hroom hnone hzero hsub hmain hnumber hslot.main hnsub hsame hlast

/-- `ioctl2DeleteLastSub` deletes the last sub-partition, or leaves the partitions alone. -/
theorem Driver.Holds.deleteLastSub (h : s.Holds xs) (hn : 3 ≤ n) (hslot : slot.Agrees (partsOf s.headers xs) m) :
    s.Serves (ioctl2DeleteLastSub slot) fun result P' => result.2 = slot ∧ P' = partsOf s.headers xs ∨
      ∃ k, m.nsub.toNat = k + 1 ∧ result.2 = slot.dropSub ∧
        Cut (partsOf s.headers xs) P' (slot.parts 0).start m m.dropSub k := by
  have hended := ended_blocks.mpr h.well.ended
  refine h.perform ?_ (closed_plain.deleteLastSub (e := ⟨n, False, Plain⟩))
  refine h.well.stores.at.deleteLastSub hended h.parts hslot hn (fun rv t ht => ?_)
    fun k v' xs' t hk ht hended' hcut => ?_
  · exact ⟨_, xs, ht.settled, hended, h.parts, .inl ⟨rfl, rfl⟩⟩
  · refine ⟨v', xs', ht.settled, hended', ?_, .inr ⟨k, hk, rfl, hcut⟩⟩
    exact h.parts.cut hslot.part hslot.main hcut hslot.main (hslot.dropSub hk hcut.main).1 (by omega) rfl

end Table

section Labels

variable {n : ℕ} {α : Type} {s : Driver n} {v v' : Word → Header} {xs : List Word} {x y : Word}
  {t : Known Word Header} {m m' : Header} {P P' : Word → Option Header}

/-- A header with another name and other passwords. -/
def Header.relabel (h : Header) (id : Id) (rpwd fpwd : Password) : Header :=
  { h with id := id, rpwd := rpwd, fpwd := fpwd }

/-- The headers are the same but for their labels. -/
structure Header.Like (h' h : Header) : Prop where
  magic : h'.magic = h.magic
  next : h'.next = h.next
  prev : h'.prev = h.prev
  start : h'.start = h.start
  length : h'.length = h.length
  type : h'.type = h.type
  isSub : h'.isSub = h.isSub
  main : h'.main = h.main
  number : h'.number = h.number
  nsub : h'.nsub = h.nsub
  subs : h'.subs = h.subs
  mbr : h'.mbr = h.mbr

theorem Header.Like.refl (h : Header) : h.Like h := ⟨rfl, rfl, rfl, rfl, rfl, rfl, rfl, rfl, rfl, rfl, rfl, rfl⟩

theorem Header.relabel_like (h : Header) (id : Id) (rpwd fpwd : Password) : (h.relabel id rpwd fpwd).Like h :=
  ⟨rfl, rfl, rfl, rfl, rfl, rfl, rfl, rfl, rfl, rfl, rfl, rfl⟩

theorem Header.Like.trans {h h' k : Header} (hk : k.Like h') (hh : h'.Like h) : k.Like h :=
  ⟨hk.magic.trans hh.magic, hk.next.trans hh.next, hk.prev.trans hh.prev, hk.start.trans hh.start,
    hk.length.trans hh.length, hk.type.trans hh.type, hk.isSub.trans hh.isSub, hk.main.trans hh.main,
    hk.number.trans hh.number, hk.nsub.trans hh.nsub, hk.subs.trans hh.subs, hk.mbr.trans hh.mbr⟩

theorem Header.Like.body {h h' : Header} (hlike : h'.Like h) : h'.body.Like h.body :=
  ⟨hlike.magic, rfl, rfl, hlike.start, hlike.length, hlike.type, hlike.isSub, hlike.main, hlike.number, hlike.nsub,
    hlike.subs, hlike.mbr⟩

/-- Headers that are the same but for their labels form the same table. -/
theorem Table.relabel {unit : ℕ} (ht : Table unit v xs) (hlike : ∀ w, (v' w).Like (v w)) : Table unit v' xs := by
  have hlayout : layout v' = layout v := by
    unfold layout
    congr 1
    · exact funext fun w => (hlike w).next
    · exact funext fun w => (hlike w).prev
    · exact funext fun w => congrArg BitVec.toNat (hlike w).length
  refine ⟨by rw [hlayout]; exact ht.ring, fun w hw => ?_, by rw [(hlike 0).type]; exact ht.boot,
    by rw [(hlike 0).mbr]; exact ht.mbr⟩
  have hsound := ht.sound w hw
  have hlength := (hlike w).length
  exact ⟨(hlike w).magic.trans hsound.magic, (hlike w).start.trans hsound.start, hlength ▸ hsound.power,
    hlength ▸ hsound.aligned, hlength ▸ hsound.coarse,
    fun hfree => (hlike w).nsub.trans (hsound.empty ((hlike w).type.symm.trans hfree))⟩

theorem partsOf_free (htype : (v x).type = apaTypeFree) : partsOf v xs x = none := if_neg fun hpart => hpart.2 htype

/-- The partitions are the same but for their labels. -/
structure Relabelled (P P' : Word → Option Header) : Prop where
  before : ∀ x m', P' x = some m' → ∃ m, P x = some m ∧ m'.Like m
  after : ∀ x m, P x = some m → ∃ m', P' x = some m' ∧ m'.Like m

/-- The partitions of headers that are the same but for their labels. -/
theorem relabelled_partsOf (xs : List Word) (hlike : ∀ w, (v' w).Like (v w)) :
    Relabelled (partsOf v xs) (partsOf v' xs) := by
  refine ⟨fun x m' hm' => ?_, fun x m hm => ?_⟩
  · obtain ⟨hx, htype, rfl⟩ := mem_of_partsOf hm'
    exact ⟨(v x).body, partsOf_eq hx (by rwa [← (hlike x).type]), (hlike x).body⟩
  · obtain ⟨hx, htype, rfl⟩ := mem_of_partsOf hm
    exact ⟨(v' x).body, partsOf_eq hx (by rwa [(hlike x).type]), (hlike x).body⟩

/-- Lists of sub-partitions do not depend on labels. -/
theorem Consistent.relabel (hP : Consistent P) (h : Relabelled P P') : Consistent P' := by
  refine ⟨fun m' hm' => ?_, fun x m' hm' hmain => ?_, fun x m' hm' hmain i hi => ?_, fun y s' hs' hsub => ?_⟩
  · obtain ⟨m, hm, hlike⟩ := h.before 0 m' hm'
    exact hlike.isSub.trans (hP.first m hm)
  · obtain ⟨m, hm, hlike⟩ := h.before x m' hm'
    rw [hlike.nsub]
    exact hP.few x m hm (hlike.isSub.symm.trans hmain)
  · obtain ⟨m, hm, hlike⟩ := h.before x m' hm'
    rw [hlike.nsub] at hi
    obtain ⟨s, hs, hsub, hlength, hback, hnumber⟩ := hP.listed x m hm (hlike.isSub.symm.trans hmain) i hi
    obtain ⟨s', hs', hlike'⟩ := h.after _ s hs
    rw [show m'.sub i = m.sub i from congrFun hlike.subs _]
    exact ⟨s', hs', hlike'.isSub.trans hsub, hlike'.length.trans hlength, hlike'.main.trans hback,
      (congrArg BitVec.toNat hlike'.number).trans hnumber⟩
  · obtain ⟨s, hs, hlike⟩ := h.before y s' hs'
    obtain ⟨m, hm, hmain, i, hi, hentry⟩ := hP.owned y s hs (hlike.isSub.symm.trans hsub)
    obtain ⟨m', hm', hlike'⟩ := h.after _ m hm
    refine ⟨m', by rw [hlike.main, hm'], hlike'.isSub.trans hmain, i, by rwa [hlike'.nsub], ?_⟩
    rw [show m'.sub i = m.sub i from congrFun hlike'.subs _, hentry, hlike.length]

/-- Giving a header that is held another label. -/
theorem Draft.relabel {f : Unit → ApaProg α} {Q : α → Known Word Header → Prop} {H : Multiset Word}
    {D : Finset Word} {S : List Word} {unit : ℕ} (h : Draft v H D S t) (hx : x ∈ H) (id : Id) (rpwd fpwd : Password)
    (hnext : ∀ v' t, v' x = (v x).relabel id rpwd fpwd → (∀ w, w ≠ x → v' w = v w) →
      (∀ w, (v' w).Like (v w)) → Draft v' H (insert x D) S t → (f ()).wp (tableRules n unit) Q t) :
    (setHeader x (·.relabel id rpwd fpwd) >>= f).wp (tableRules n unit) Q t := by
  refine h.change hx _ fun v' t hv' hother hd => hnext v' t hv' hother (fun w => ?_) hd
  by_cases hw : w = x
  · rw [hw, hv']
    exact Header.relabel_like ..
  · rw [hother w hw]
    exact Header.Like.refl _

/-- `apaRename` on a table. -/
theorem At.rename {Q : ℤ → Known Word Header → Prop} {slots : List FileSlot} {oldParams newParams : Params}
    (h : At (2 ^ 18) v xs 0 t) (hn : 0 < n) (hfailed : ∀ rv t, At (2 ^ 18) v xs 0 t → Q rv t)
    (hdone : (∀ w ∈ 0 :: xs, ¬ (v w).Named newParams.id) → slots.any (·.named oldParams.id) = false →
      isSystem oldParams.id = false → ∀ y ∈ 0 :: xs, (v y).Named oldParams.id → ∀ v' t, At (2 ^ 18) v' xs 0 t →
        v' y = (v y).relabel newParams.id newParams.rpwd newParams.fpwd → (∀ w, w ≠ y → v' w = v w) →
        (∀ w, (v' w).Like (v w)) → Q 0 t) :
    (apaRename slots oldParams newParams).wp (tableRules n (2 ^ 18)) Q t := by
  have hunit : 2 ^ 13 ∣ 2 ^ 18 := pow_dvd_pow 2 (by decide)
  refine h.findPartition hunit (by rwa [card_zero]) _ (fun l y r hxs _ _ t ht => ?_) fun hnew t ht => ?_
  · refine ht.freeHead fun t ht => ?_
    exact hfailed (-17) t ht
  · dsimp only
    cases hbusy : slots.any (·.named oldParams.id) with
    | true => exact hfailed (-16) t ht
    | false =>
      cases hsystem : isSystem oldParams.id with
      | true => exact hfailed (-13) t ht
      | false =>
        refine ht.findPartition hunit (by rwa [card_zero]) _ (fun l y r hxs hnamed _ t ht => ?_)
          fun _ t ht => hfailed (-2) t ht
        refine ht.draft.read (mem_cons_self y 0) ?_
        split
        · refine ht.freeHead fun t ht => ?_
          exact hfailed (-13) t ht
        · refine ht.draft.relabel (mem_cons_self y 0) newParams.id newParams.rpwd newParams.fpwd
            fun v' t hv' hother hlike hd => ?_
          refine hd.flush (ht.table.relabel hlike) (by simp) (fun w hw => .inl hw) fun t ht => ?_
          refine ht.freeHead fun t ht => ?_
          exact hdone hnew hbusy hsystem y (by rw [hxs]; simp) hnamed v' t ht hv' hother hlike

/-- The name of the partition that is exchanged. -/
def tmpId : Id := fill 8 (str "_tmp")

/-- `devctlSwapTemp` on a table. -/
theorem At.swapTemp {Q : ℤ → Known Word Header → Prop} {params : Params} (h : At (2 ^ 18) v xs 0 t) (hn : 1 < n)
    (hfailed : ∀ rv t, At (2 ^ 18) v xs 0 t → Q rv t)
    (hdone : isSystem params.id = false → ∀ x ∈ 0 :: xs, (v x).Named tmpId → ∀ y ∈ 0 :: xs, (v y).Named params.id →
      ∀ (v1 v' : Word → Header) t, At (2 ^ 18) v' xs 0 t →
      v1 x = (v x).relabel (v y).id (v y).rpwd (v y).fpwd → (∀ w, w ≠ x → v1 w = v w) →
      v' y = (v1 y).relabel tmpId (fun _ => 0) (fun _ => 0) → (∀ w, w ≠ y → v' w = v1 w) →
      (∀ w, (v' w).Like (v w)) → Q 0 t) :
    (devctlSwapTemp params).wp (tableRules n (2 ^ 18)) Q t := by
  have hunit : 2 ^ 13 ∣ 2 ^ 18 := pow_dvd_pow 2 (by decide)
  unfold devctlSwapTemp
  split
  · exact hfailed (-22) t h
  · next hsystem =>
    unfold Apa.swapTemp
    refine h.findPartition hunit (by rw [card_zero]; omega) _ (fun l x r hxs hx _ t ht => ?_)
      fun _ t ht => hfailed (-2) t ht
    refine ht.findPartition hunit (by simpa using hn) _ (fun l' y r' hys hy _ t ht => ?_) fun _ t ht => ?_
    · have hmemy : y ∈ y ::ₘ x ::ₘ 0 := mem_cons_self y _
      have hmemx : x ∈ y ::ₘ x ::ₘ 0 := mem_cons_of_mem (mem_cons_self x 0)
      refine ht.draft.read hmemy ?_
      dsimp only
      split
      · refine ht.freeHead fun t ht => ?_
        refine ht.freeHead fun t ht => ?_
        exact hfailed _ t ht
      · refine ht.draft.relabel hmemx (v y).id (v y).rpwd (v y).fpwd fun v1 t hv1 hother1 hlike1 hd => ?_
        refine hd.relabel hmemy tmpId (fun _ => 0) (fun _ => 0) fun v' t hv' hother' hlike' hd => ?_
        have hlike : ∀ w, (v' w).Like (v w) := fun w => (hlike' w).trans (hlike1 w)
        refine hd.flush (ht.table.relabel hlike) ((Finset.card_insert_le ..).trans (by simp)) (fun w hw => .inl hw)
          fun t ht => ?_
        refine ht.freeHead fun t ht => ?_
        refine ht.freeHead fun t ht => ?_
        exact hdone (eq_false_of_ne_true hsystem) x (by rw [hxs]; simp) hx y (by rw [hys]; simp) hy v1 v' t ht hv1
          hother1 hv' hother' hlike
    · refine ht.freeHead fun t ht => ?_
      exact hfailed (-2) t ht

/-- One partition has been given a name that no other had. -/
structure Renamed (P P' : Word → Option Header) (id id' : Id) : Prop where
  like : Relabelled P P'
  absent : ∀ x m, P x = some m → m.isSub = false → m.id ≠ id'
  kept : ∀ x, (∀ m, P x = some m → m.isSub = false → m.id ≠ id) → P' x = P x
  one : ∃ a, (∀ x, x ≠ a → P' x = P x) ∧ ∀ m, P' a = some m → m.id = id'

/-- The labels of two headers have been exchanged. -/
structure Swapped (P P' : Word → Option Header) (id : Id) (parts : Prop) : Prop where
  like : Relabelled P P'
  kept : ∀ x, (∀ m, P x = some m → m.isSub = false → m.id ≠ tmpId ∧ m.id ≠ id) → P' x = P x
  two : parts → ∃ a b ma mb, P a = some ma ∧ ma.isSub = false ∧ ma.id = tmpId ∧
    P b = some mb ∧ mb.isSub = false ∧ mb.id = id ∧ (∀ m, P' b = some m → m.id = tmpId) ∧
    (a ≠ b → ∀ m, P' a = some m → m.id = id) ∧ ∀ x, x ≠ a → x ≠ b → P' x = P x

/-- `apaRename` renames one partition, which is not open, or leaves the partitions alone. -/
theorem Driver.Holds.rename (h : s.Holds xs) (hn : 3 ≤ n) (slots : List FileSlot) (oldParams newParams : Params) :
    s.Serves (apaRename slots oldParams newParams) fun _ P' => P' = partsOf s.headers xs ∨
      slots.any (·.named oldParams.id) = false ∧ Renamed (partsOf s.headers xs) P' oldParams.id newParams.id := by
  have hended := ended_blocks.mpr h.well.ended
  refine h.perform ?_ (closed_plain.rename (e := ⟨n, False, Plain⟩) fun _ _ _ _ => id)
  refine h.well.stores.at.rename (by omega) (fun rv t ht => ?_)
    fun hnew hbusy _ y hy hnamed v' t ht hv' hother hlike => ?_
  · exact ⟨_, xs, ht.settled, hended, h.parts, .inl rfl⟩
  · have hlabels := relabelled_partsOf xs hlike
    have hsame : ∀ x, x ≠ y → partsOf v' xs x = partsOf s.headers xs x := by
      intro x hx
      rw [partsOf, partsOf, hother x hx]
    refine ⟨v', xs, ht.settled, ?_, h.parts.relabel hlabels, .inr ⟨hbusy, hlabels, fun x m hm hmain => ?_,
      fun x hx => ?_, y, hsame, fun m hm => ?_⟩⟩
    · rw [ended_blocks, (hlike _).type]
      exact h.well.ended
    · obtain ⟨hx, -, rfl⟩ := mem_of_partsOf hm
      exact fun hid => hnew x hx ⟨hmain, hid⟩
    · by_cases hxy : x = y
      · subst hxy
        have hfree : (s.headers x).type = apaTypeFree := by
          by_contra htype
          exact hx _ (partsOf_eq hy htype) hnamed.1 hnamed.2
        rw [partsOf_free hfree, partsOf_free ((hlike x).type.trans hfree)]
      · exact hsame x hxy
    · obtain ⟨-, -, rfl⟩ := mem_of_partsOf hm
      rw [hv']
      rfl

/-- `devctlSwapTemp` exchanges two labels, or leaves the partitions alone. -/
theorem Driver.Holds.swapTemp (h : s.Holds xs) (hn : 3 ≤ n) (params : Params) :
    s.Serves (devctlSwapTemp params) fun _ P' => P' = partsOf s.headers xs ∨ isSystem params.id = false ∧
      Swapped (partsOf s.headers xs) P' params.id
        (¬ NamesFree s.headers xs tmpId ∧ ¬ NamesFree s.headers xs params.id) := by
  have hended := ended_blocks.mpr h.well.ended
  refine h.perform ?_ (closed_plain.swapTemp (e := ⟨n, False, Plain⟩) fun _ _ _ _ => id)
  refine h.well.stores.at.swapTemp (by omega) (fun rv t ht => ?_)
    fun hsystem a ha hatmp b hb hbid v1 v' t ht hv1 hother1 hv' hother' hlike => ?_
  · exact ⟨_, xs, ht.settled, hended, h.parts, .inl rfl⟩
  · have hlabels := relabelled_partsOf xs hlike
    have hsame : ∀ x, x ≠ a → x ≠ b → partsOf v' xs x = partsOf s.headers xs x := by
      intro x hxa hxb
      rw [partsOf, partsOf, hother' x hxb, hother1 x hxa]
    have hfree : ∀ x, (s.headers x).type = apaTypeFree → partsOf v' xs x = partsOf s.headers xs x := by
      intro x hx
      rw [partsOf_free hx, partsOf_free ((hlike x).type.trans hx)]
    refine ⟨v', xs, ht.settled, ?_, h.parts.relabel hlabels,
      .inr ⟨hsystem, hlabels, fun x hx => ?_, fun hnames => ?_⟩⟩
    · rw [ended_blocks, (hlike _).type]
      exact h.well.ended
    · by_cases hxa : x = a
      · subst hxa
        refine hfree x ?_
        by_contra htype
        exact (hx _ (partsOf_eq ha htype) hatmp.1).1 hatmp.2
      · by_cases hxb : x = b
        · subst hxb
          refine hfree x ?_
          by_contra htype
          exact (hx _ (partsOf_eq hb htype) hbid.1).2 hbid.2
        · exact hsame x hxa hxb
    · obtain ⟨htmp, hid⟩ := hnames
      refine ⟨a, b, _, _, partsOf_eq ha fun htype => htmp ⟨a, ha, hatmp, htype⟩, hatmp.1, hatmp.2,
        partsOf_eq hb fun htype => hid ⟨b, hb, hbid, htype⟩, hbid.1, hbid.2, fun m hm => ?_, fun hne m hm => ?_,
          hsame⟩
      · obtain ⟨-, -, rfl⟩ := mem_of_partsOf hm
        rw [hv']
        rfl
      · obtain ⟨-, -, rfl⟩ := mem_of_partsOf hm
        rw [hother' a hne, hv1]
        exact hbid.2

end Labels

end Ps2sdk.Apa
