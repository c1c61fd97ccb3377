import Ps2sdk.Apa.Sessions

/-!
# Names of partitions

Names stay unique along every run of requests that create, remove and rename partitions, if new partitions are safe
and all free space has the name the driver gives it, or at least no name of free space is exchanged. A partition
that is open stays in the table under its name, and is open only once, unless its name is exchanged or free space is
opened.
-/

namespace Ps2sdk.Apa

open Lib Function Option Header Hdd

variable {n : ℕ} {encrypt : Id → Password → Password} {hdd : Hdd n} {xs : List Word} {P P' : Word → Option Header}
  {id id' : Id} {a : Word} {marked : Prop}

/-- No two main partitions have the same name. -/
def Distinct (P : Word → Option Header) : Prop :=
  ∀ x y m m', P x = some m → P y = some m' → m.isSub = false → m'.isSub = false → m.id = m'.id → x = y

theorem Distinct.of_kept (h : Distinct P) (hkept : ∀ x m', P' x = some m' → m'.isSub = false →
    ∃ m, P x = some m ∧ m.isSub = false ∧ m.id = m'.id) : Distinct P' := by
  intro x y m m' hm hm' hmain hmain' hid
  obtain ⟨k, hk, hkmain, hkid⟩ := hkept x m hm hmain
  obtain ⟨k', hk', hkmain', hkid'⟩ := hkept y m' hm' hmain'
  exact h x y k k' hk hk' hkmain hkmain' (by rw [hkid, hkid', hid])

/-- A partition with a new name is added. -/
theorem Distinct.opened (h : Distinct P) (hopened : Opened P P' id) : Distinct P' := by
  rcases hopened with rfl | ⟨a, new, hnone, rfl, hnew, rfl⟩
  · exact h
  · intro x y m m' hm hm' hmain hmain' hid
    rw [update_apply] at hm hm'
    split at hm <;> split at hm'
    · next hx hy => rw [hx, hy]
    · obtain rfl := some.inj hm
      exact absurd hid.symm (hnew y m' hm' hmain')
    · obtain rfl := some.inj hm'
      exact absurd hid (hnew x m hm hmain)
    · exact h x y m m' hm hm' hmain hmain' hid

/-- Deleting sub-partitions leaves the names alone. -/
theorem Cut.kept_name {m m' : Header} {k : ℕ} (hcut : Cut P P' a m m' k) (hm : P a = some m)
    (hmain : m'.isSub = m.isSub)
    (hid : m'.id = m.id) (x : Word) (h : Header) (hx : P' x = some h) (hsub : h.isSub = false) :
    ∃ h', P x = some h' ∧ h'.isSub = false ∧ h'.id = h.id := by
  by_cases hxa : x = a
  · subst hxa
    obtain rfl := some.inj (hcut.main.symm.trans hx)
    exact ⟨m, hm, hmain.symm.trans hsub, hid.symm⟩
  · by_cases hgone : ∃ j, k ≤ j ∧ j < m.nsub.toNat ∧ (m.sub j).start = x
    · obtain ⟨j, hj, hjn, rfl⟩ := hgone
      rw [hcut.gone j hj hjn] at hx
      cases hx
    · refine ⟨h, ?_, hsub, rfl⟩
      rw [← hcut.kept x hxa fun j hj hjn heq => hgone ⟨j, hj, hjn, heq⟩, hx]

/-- A partition is removed. -/
theorem Distinct.removed {rv : ℤ} (h : Distinct P) (hremoved : Removed P a rv P') : Distinct P' := by
  cases hremoved with
  | free hfree => exact h
  | first hm hfirst hcut => exact h.of_kept (hcut.kept_name hm rfl rfl)
  | @part P1 m hm hfirst hcut =>
    refine h.of_kept fun x m' hm' hmain => ?_
    by_cases hxa : x = a
    · rw [hxa, update_self] at hm'
      cases hm'
    · rw [update_of_ne hxa] at hm'
      exact hcut.kept_name hm rfl rfl x m' hm' hmain

/-- A partition is given a new name. -/
theorem Distinct.renamed (h : Distinct P) (hrenamed : Renamed P P' id id') : Distinct P' := by
  obtain ⟨a, hother, hname⟩ := hrenamed.one
  have habsent : ∀ y m m', y ≠ a → P' a = some m → P' y = some m' → m'.isSub = false → m.id ≠ m'.id := by
    intro y m m' hy hm hm' hmain hid
    rw [hother y hy] at hm'
    exact hrenamed.absent y m' hm' hmain (hid.symm.trans (hname m hm))
  intro x y m m' hm hm' hmain hmain' hid
  by_cases hx : x = a
  · by_cases hy : y = a
    · rw [hx, hy]
    · exact absurd hid (habsent y m m' hy (hx ▸ hm) hm' hmain')
  · by_cases hy : y = a
    · exact absurd hid.symm (habsent x m' m hx (hy ▸ hm') hm hmain)
    · rw [hother x hx] at hm
      rw [hother y hy] at hm'
      exact h x y m m' hm hm' hmain hmain' hid

/-- Two partitions exchange their names. -/
theorem Distinct.swapped {parts : Prop} (h : Distinct P) (hparts : parts) (hswapped : Swapped P P' id parts) :
    Distinct P' := by
  obtain ⟨a, b, ma, mb, hma, hamain, hatmp, hmb, hbmain, hbid, hb, ha, hother⟩ := hswapped.two hparts
  -- the place that had the name before
  have hplace : ∀ x m, P' x = some m → m.isSub = false → (x = b ∧ m.id = tmpId) ∨ (x = a ∧ x ≠ b ∧ m.id = id) ∨
      (x ≠ a ∧ x ≠ b ∧ m.id ≠ tmpId ∧ m.id ≠ id ∧ P x = some m) := by
    intro x m hm hmain
    by_cases hxb : x = b
    · exact .inl ⟨hxb, hb m (hxb ▸ hm)⟩
    · by_cases hxa : x = a
      · exact .inr (.inl ⟨hxa, hxb, ha (fun hab => hxb (hxa.trans hab)) m (hxa ▸ hm)⟩)
      · rw [hother x hxa hxb] at hm
        refine .inr (.inr ⟨hxa, hxb, fun heq => hxa ?_, fun heq => hxb ?_, hm⟩)
        · exact h x a m ma hm hma hmain hamain (heq.trans hatmp.symm)
        · exact h x b m mb hm hmb hmain hbmain (heq.trans hbid.symm)
  have hnames : a ≠ b → tmpId ≠ id := fun hab heq => hab (h a b ma mb hma hmb hamain hbmain
    (hatmp.trans (heq.trans hbid.symm)))
  intro x y m m' hm hm' hmain hmain' hid
  rcases hplace x m hm hmain with ⟨rfl, hx⟩ | ⟨rfl, hxb, hx⟩ | ⟨hxa, hxb, hxtmp, hxid, hPx⟩ <;>
    rcases hplace y m' hm' hmain' with ⟨rfl, hy⟩ | ⟨rfl, hyb, hy⟩ | ⟨hya, hyb, hytmp, hyid, hPy⟩
  · rfl
  · exact absurd (hx.symm.trans (hid.trans hy)) (hnames hyb)
  · exact absurd (hid.symm.trans hx) hytmp
  · exact absurd (hy.symm.trans (hid.symm.trans hx)) (hnames hxb)
  · rfl
  · exact absurd (hid.symm.trans hx) hyid
  · exact absurd (hid.trans hy) hxtmp
  · exact absurd (hid.trans hy) hxid
  · exact h x y m m' hPx hPy hmain hmain' hid

/-- The names on the drive are unique. -/
def Driver.NamesUnique (s : Driver n) (xs : List Word) : Prop :=
  ∀ x ∈ 0 :: xs, ∀ y ∈ 0 :: xs, (s.headers x).type ≠ apaTypeFree → (s.headers y).type ≠ apaTypeFree →
    (s.headers x).isSub = false → (s.headers y).isSub = false → (s.headers x).id = (s.headers y).id → x = y

theorem namesUnique_iff {s : Driver n} : s.NamesUnique xs ↔ Distinct (partsOf s.headers xs) := by
  constructor
  · intro h x y m m' hm hm' hmain hmain' hid
    obtain ⟨hx, htype, rfl⟩ := mem_of_partsOf hm
    obtain ⟨hy, htype', rfl⟩ := mem_of_partsOf hm'
    exact h x hx y hy htype htype' hmain hmain' hid
  · intro h x hx y hy htype htype' hmain hmain' hid
    exact h x y _ _ (partsOf_eq hx htype) (partsOf_eq hy htype') hmain hmain' hid

/-- Free space has the name that the driver gives it. -/
def Marked (h : Header) : Prop := h.type = apaTypeFree → h.id = emptyId

/-- All free space of the drive has. -/
def Driver.FreeMarked (s : Driver n) (xs : List Word) : Prop := ∀ x ∈ 0 :: xs, Marked (s.headers x)

theorem closed_marked : Closed Marked :=
  ⟨fun _ _ _ _ _ _ => rfl, fun _ _ htype _ hid hmarked hfree => hid.trans (hmarked (htype.symm.trans hfree))⟩

section FreeMarked

variable {α : Type} {s : Driver n} {p : ApaProg α} {xs' : List Word} (h : s.Holds xs)
include h

theorem Driver.Holds.marks (hwp : p.wp (tableRules n (2 ^ 18)) (fun _ t => ∃ v' ys, Settled (2 ^ 18) v' ys t ∧
      ∀ x ∈ 0 :: ys, Marked (v' x)) (s.atRest xs)) (h' : (p.run s).2.Holds xs') : (p.run s).2.FreeMarked xs' := by
  obtain ⟨-, v', ys, -, hstores, hsame, hmarked⟩ := h.well.stores.run (pow_dvd_pow 2 (show 9 ≤ 18 by decide)) hwp
  obtain rfl := h'.well.stores.table.list_unique hstores.table
  intro x hx
  rw [hsame x hx]
  exact hmarked x hx

variable (hmarked : s.FreeMarked xs)
include hmarked

/-- A program that writes marked headers only does. -/
theorem Driver.Holds.marks_of_accounts {R : α → Multiset Word → Prop}
    (hwp : p.wp (tableRules n (2 ^ 18)) (fun _ t => ∃ v' ys, Settled (2 ^ 18) v' ys t) (s.atRest xs))
    (haccounts : p.accounts ⟨n, False, Marked⟩ R 0) (h' : (p.run s).2.Holds xs') : (p.run s).2.FreeMarked xs' := by
  refine h.marks ?_ h'
  rw [← Prog.bind_done p]
  refine Prog.wp_then (Prog.wp_accounts hwp haccounts (good_atRest hmarked)) (fun _ => id) fun _ t hpost => ?_
  obtain ⟨⟨v', ys, hsettled⟩, hgood⟩ := hpost
  refine ⟨v', ys, hsettled, fun x hx => ?_⟩
  rw [← show t.record x = v' x from congrFun hsettled.draft.record x]
  exact hgood x (.inl (hsettled.draft.sound x hx))

/-- `apaOpen` gives a name to partitions only. -/
theorem Driver.Holds.marks_open {device : Device} {params : Params} {flags : OpenFlags} (hn : 3 ≤ n)
    {slot : FileSlot} (hgiven : params.Given) (hsafe : OpenSafe device s.headers xs params flags)
    (h' : ((apaOpen device slot params flags).run s).2.Holds xs') :
    ((apaOpen device slot params flags).run s).2.FreeMarked xs' := by
  obtain ⟨l, hxs⟩ := exists_lastOf xs
  by_cases hsize : params.size = 0
  · have hnone : ¬ Creates device s.headers xs params flags := fun hcreates => (hsafe hcreates).1 hsize
    exact h.marks (h.well.stores.at.open hxs h.well.ended (fun hcreates => absurd hcreates hnone)
      (fun hcreates => absurd hcreates hnone) hn (fun _ _ _ _ ht => ⟨_, xs, ht.settled, hmarked⟩)
      (fun hcreates => absurd hcreates hnone) fun _ _ _ ht => ⟨_, xs, ht.settled, hmarked⟩) h'
  · obtain ⟨htype, -, hj⟩ := hgiven.2.resolve_left hsize
    exact h.marks_of_accounts hmarked (h.well.stores.at.open hxs h.well.ended (fun _ => hj)
      (fun hcreates => (hsafe hcreates).2) hn (fun _ _ _ _ ht => ⟨_, xs, ht.settled⟩)
      (fun _ v' ys _ _ ht _ _ _ => ⟨v', ys, ht⟩) fun _ _ _ ht => ⟨_, xs, ht.settled⟩)
      (closed_marked.open (e := ⟨n, False, Marked⟩) fun _ _ _ _ _ hfree => absurd hfree htype) h'

/-- `apaRemove` makes free space with the name. -/
theorem Driver.Holds.marks_remove (hn : 3 ≤ n) (slots : List FileSlot) (id : Id) (fpwd : Password)
    (h' : ((apaRemove slots id fpwd).run s).2.Holds xs') : ((apaRemove slots id fpwd).run s).2.FreeMarked xs' :=
  h.marks_of_accounts hmarked (h.well.stores.at.remove (ended_blocks.mpr h.well.ended) h.parts hn
    (fun _ _ ht => ⟨_, xs, ht.settled⟩) fun _ _ _ _ v' ys _ ht _ _ => ⟨v', ys, ht.settled⟩)
    (closed_marked.remove (e := ⟨n, False, Marked⟩)) h'

omit h in
theorem Driver.FreeMarked.not_namesFree {id : Id} (hsystem : isSystem id = false) :
    ¬ NamesFree s.headers xs id := by
  rintro ⟨x, hx, hnamed, hfree⟩
  rw [← hnamed.2, hmarked x hx hfree] at hsystem
  exact absurd hsystem (by decide)

/-- `apaRename` does not rename free space. -/
theorem Driver.Holds.marks_rename (hn : 3 ≤ n) (slots : List FileSlot) (oldParams newParams : Params)
    (h' : ((apaRename slots oldParams newParams).run s).2.Holds xs') :
    ((apaRename slots oldParams newParams).run s).2.FreeMarked xs' := by
  refine h.marks (h.well.stores.at.rename (by omega) (fun _ _ ht => ⟨_, xs, ht.settled, hmarked⟩)
    fun _ _ hsystem y hy hnamed v' _ ht _ hother hlike => ⟨v', xs, ht.settled, fun x hx hfree => ?_⟩) h'
  rw [(hlike x).type] at hfree
  rw [hother x fun heq => hmarked.not_namesFree hsystem ⟨y, hy, hnamed, heq ▸ hfree⟩]
  exact hmarked x hx hfree

/-- `devctlSwapTemp` does not either. -/
theorem Driver.Holds.marks_swapTemp (hn : 3 ≤ n) (params : Params)
    (h' : ((devctlSwapTemp params).run s).2.Holds xs') : ((devctlSwapTemp params).run s).2.FreeMarked xs' := by
  refine h.marks (h.well.stores.at.swapTemp (by omega) (fun _ _ ht => ⟨_, xs, ht.settled, hmarked⟩)
    fun hsystem a ha hatmp b hb hbid v1 v' _ ht _ hother1 _ hother' hlike =>
      ⟨v', xs, ht.settled, fun x hx hfree => ?_⟩) h'
  rw [(hlike x).type] at hfree
  rw [hother' x fun heq => hmarked.not_namesFree hsystem ⟨b, hb, hbid, heq ▸ hfree⟩,
    hother1 x fun heq => hmarked.not_namesFree (show isSystem tmpId = false by decide)
      ⟨a, ha, hatmp, heq ▸ hfree⟩]
  exact hmarked x hx hfree

end FreeMarked

/-- The driver is at rest on a consistent table with unique names, and marked free space if told so. -/
def Hdd.Labelled (marked : Prop) (hdd : Hdd n) : Prop := ∃ xs, hdd.driver.Holds xs ∧
  Distinct (partsOf hdd.driver.headers xs) ∧ (marked → hdd.driver.FreeMarked xs)

/-- Partitions that are created are safe, and no name of free space is exchanged where free space may have any name.
Requests on sub-partitions are left out. -/
def Hdd.Labels (encrypt : Id → Password → Password) (marked : Prop) (hdd : Hdd n) (xs : List Word) : Request → Prop
  | .open name flags => ∀ params, fioGetInput encrypt name = .ok params →
    OpenSafe hdd.device hdd.driver.headers xs params flags
  | .swapTmp name => ¬ marked → ∀ params, fioGetInput encrypt name = .ok params →
    ¬ NamesFree hdd.driver.headers xs tmpId ∧ ¬ NamesFree hdd.driver.headers xs params.id
  | .addSub _ _ => False
  | .deleteSub _ => False
  | _ => True

/-- `hddOpen` keeps names unique. -/
theorem Hdd.labelled_hddOpen (h : hdd.driver.Holds xs) (hdistinct : Distinct (partsOf hdd.driver.headers xs))
    (hmarked : marked → hdd.driver.FreeMarked xs) (hn : 3 ≤ n) (name : Str) (flags : OpenFlags)
    (hsafe : hdd.Labels encrypt marked xs (.open name flags)) :
    (hddOpen encrypt hdd name flags).2.Labelled marked := by
  have hsame : hdd.Labelled marked := ⟨xs, h, hdistinct, hmarked⟩
  by_cases hstatus : hdd.device.status = 0
  · rcases fioGetInput_cases encrypt name with hinput | ⟨params, hinput, hgiven⟩
    · simpa [hddOpen, hstatus, hinput] using hsame
    · rcases getFileSlot_cases hdd.slots params.id with ⟨rv, hfd, -⟩ | ⟨fd, slot, hfd, hslot⟩
      · simpa [hddOpen, hstatus, hinput, hfd] using hsame
      · obtain ⟨-, hdriver⟩ := hddOpen_run flags hstatus hinput hfd hslot
        obtain ⟨⟨rv, slot'⟩, xs', -, hholds, hopened, -⟩ := h.open hn slot hgiven (hsafe params hinput)
        refine ⟨xs', ?_⟩
        rw [hdriver]
        exact ⟨hholds, hdistinct.opened hopened, fun hyes => h.marks_open (hmarked hyes) hn hgiven
          (hsafe params hinput) hholds⟩
  · simpa [hddOpen, hstatus] using hsame

/-- Every such request keeps names unique. -/
theorem Hdd.Labelled.serve (h : hdd.Labelled marked) (hn : 3 ≤ n) (request : Request)
    (hsafe : ∀ xs, hdd.driver.WellFormed xs → hdd.Labels encrypt marked xs request) :
    (hdd.serve encrypt request).2.Labelled marked := by
  obtain ⟨xs, hholds, hdistinct, hmarked⟩ := h
  have hsafe := hsafe xs hholds.well
  have hsame : ∀ slots, Hdd.Labelled marked { hdd with slots := slots } := fun _ => ⟨xs, hholds, hdistinct, hmarked⟩
  cases request with
  | «open» name flags => exact labelled_hddOpen hholds hdistinct hmarked hn name flags hsafe
  | dopen id =>
    rw [Hdd.serve, hddDopen]
    split
    · exact hsame hdd.slots
    · cases hfd : getFileSlot hdd.slots id with
      | error rv => exact hsame hdd.slots
      | ok fd =>
        obtain ⟨-, slot, hslot, -⟩ := getFileSlot_ok hfd
        dsimp only
        rw [execSlot_eq _ hslot rfl]
        exact hsame _
  | close fd =>
    rw [Hdd.serve]
    split
    · exact hsame _
    · exact hsame hdd.slots
  | remove name =>
    rw [Hdd.serve, hddRemove]
    split
    · exact hsame hdd.slots
    · next params _ =>
      obtain ⟨rv, xs', -, hholds', hparts⟩ := hholds.remove hn hdd.slots params.id params.fpwd
      refine ⟨xs', hholds', ?_, fun hyes => hholds.marks_remove (hmarked hyes) hn _ _ _ hholds'⟩
      rcases hparts with hsame | ⟨-, a, -, hremoved⟩
      · exact hsame ▸ hdistinct
      · exact hdistinct.removed hremoved
  | rename oldname newname =>
    rw [Hdd.serve, hddReName]
    split
    · next oldParams newParams _ _ =>
      obtain ⟨rv, xs', -, hholds', hparts⟩ := hholds.rename hn hdd.slots oldParams newParams
      refine ⟨xs', hholds', ?_, fun hyes => hholds.marks_rename (hmarked hyes) hn _ _ _ hholds'⟩
      rcases hparts with hsame | ⟨-, hrenamed⟩
      · exact hsame ▸ hdistinct
      · exact hdistinct.renamed hrenamed
    · exact hsame hdd.slots
    · exact hsame hdd.slots
  | addSub fd size => exact hsafe.elim
  | deleteSub fd => exact hsafe.elim
  | swapTmp name =>
    rw [Hdd.serve, hddSwapTmp]
    split
    · exact hsame hdd.slots
    · next params hinput =>
      obtain ⟨rv, xs', -, hholds', hparts⟩ := hholds.swapTemp hn params
      refine ⟨xs', hholds', ?_, fun hyes => hholds.marks_swapTemp (hmarked hyes) hn _ hholds'⟩
      rcases hparts with hsame | ⟨hsystem, hswapped⟩
      · exact hsame ▸ hdistinct
      · refine hdistinct.swapped ?_ hswapped
        by_cases hyes : marked
        · exact ⟨(hmarked hyes).not_namesFree (by decide), (hmarked hyes).not_namesFree hsystem⟩
        · exact hsafe hyes params hinput

/-- Names stay unique along every run of requests that create, open, remove, rename and exchange partitions, if new
partitions are safe, and free space has the name the driver gives it at the start, or no name of free space is
exchanged. -/
theorem names_unique (hn : 3 ≤ n) (h : hdd.driver.Holds xs) (hunique : hdd.driver.NamesUnique xs) {marked : Prop}
    (hmarked : marked → hdd.driver.FreeMarked xs) (requests : List Request)
    (hmeet : AllMeet (Hdd.serve encrypt) (fun hdd request => ∀ xs, hdd.driver.WellFormed xs →
      hdd.Labels encrypt marked xs request) hdd requests) :
    ∃ xs', (run (Hdd.serve encrypt) hdd requests).2.driver.Visits xs' ∧
      (run (Hdd.serve encrypt) hdd requests).2.driver.NamesUnique xs' := by
  obtain ⟨xs', hholds, hdistinct, -⟩ := run_invariant (serve encrypt) _ (Hdd.Labelled marked)
    (fun hdd request h hmeet => h.serve hn request hmeet) requests hdd ⟨xs, h, namesUnique_iff.mp hunique, hmarked⟩
      hmeet
  exact ⟨xs', hholds.well.visits, namesUnique_iff.mpr hdistinct⟩

/-- Create a partition, rename it and ask for an exchange of names. -/
def renameSession : List Request := [.open (str "PP.DATA,,,128M,PFS") ⟨true, true⟩, .close 0,
  .rename (str "PP.DATA") (str "PP.NEW"), .swapTmp (str "PP.NEW")]

/-- Names are unique after these requests. -/
theorem names_unique_renameSession :
    ∃ xs', (run (Hdd.serve fun _ pwd => pwd) soloHdd renameSession).2.driver.Visits xs' ∧
      (run (Hdd.serve fun _ pwd => pwd) soloHdd renameSession).2.driver.NamesUnique xs' := by
  refine names_unique (by decide) (soloHdd_session True).holds (fun x hx y hy _ _ _ _ _ => ?_)
    (fun _ x hx hfree => ?_)
    renameSession ⟨fun xs hxs params hinput _ => ?_, fun _ _ => trivial, fun _ _ => trivial,
      fun _ _ hnot => absurd trivial hnot, trivial⟩
  · rw [List.mem_singleton.mp hx, List.mem_singleton.mp hy]
  · rw [List.mem_singleton.mp hx] at hfree
    exact absurd hfree soloHdd_wellFormed.stores.table.boot
  · obtain rfl := hxs.visits.unique soloHdd_wellFormed.visits
    obtain rfl := Except.ok.inj hinput
    exact ⟨by decide, fun _ _ => by decide⟩

/-- A table in which free space has the name of a partition. -/
def sharedTable : List Header :=
  [{ soloHeader with next := 0x40000, prev := 0xC0000 },
    { headerOf apaTypeFree 0x40000 0x40000 0x80000 0 with id := fill 8 (str "PP.DATA") },
    { headerOf 0x0100 0x80000 0x40000 0xC0000 0x40000 with id := fill 8 (str "PP.DATA") },
    { headerOf 0x0100 0xC0000 0x40000 0 0x80000 with id := tmpId }]

/-- The driver on that table. -/
def sharedHdd : Hdd 3 := ⟨.fresh 3 (diskOf sharedTable), ⟨0x100000, 0x40000, 2, 0⟩, [.zero, .zero]⟩

/-- Names of a table that has been written to a drive. -/
theorem namesUnique_fresh {hs : List Header} (hcheck : checkTable (2 ^ 18) hs) (hnodup : (hs.map start).Nodup)
    (hlast : hs.getLast?.map type ≠ some apaTypeFree)
    (hunique : ∀ h ∈ hs, ∀ k ∈ hs, h.type ≠ apaTypeFree → k.type ≠ apaTypeFree → h.id = k.id → h.start = k.start) :
    (Driver.fresh n (diskOf hs)).NamesUnique (hs.tail.map start) := by
  obtain ⟨-, hheaders⟩ := Driver.wellFormed_fresh n hs hcheck hnodup hlast
  intro x hx y hy htype htype' _ _ hid
  obtain ⟨h, hh, rfl⟩ := mem_of_checkTable hcheck hx
  obtain ⟨k, hk, rfl⟩ := mem_of_checkTable hcheck hy
  rw [hheaders h hh] at htype hid
  rw [hheaders k hk] at htype' hid
  exact hunique h hh k hk htype htype' hid

/-- Exchange the name of the free space. -/
def sharedSession : List Request := [.swapTmp (str "PP.DATA")]

/-- The reply to this request, and what it leaves on the drive. -/
theorem sharedSession_run : (run (serve fun _ pwd => pwd) sharedHdd sharedSession).1 = [some 0] ∧
    List.IsChain (fun x y => ((run (serve fun _ pwd => pwd) sharedHdd sharedSession).2.driver.headers x).next = y)
      [0, 0x40000, 0x80000, 0xC0000, 0] ∧
    ((run (serve fun _ pwd => pwd) sharedHdd sharedSession).2.driver.headers 0x80000).Named
      (fill 8 (str "PP.DATA")) ∧
    ((run (serve fun _ pwd => pwd) sharedHdd sharedSession).2.driver.headers 0xC0000).Named
      (fill 8 (str "PP.DATA")) ∧
    ((run (serve fun _ pwd => pwd) sharedHdd sharedSession).2.driver.headers 0x80000).type = 0x0100 ∧
    ((run (serve fun _ pwd => pwd) sharedHdd sharedSession).2.driver.headers 0xC0000).type = 0x0100 := by
  decide +kernel

/-- The temporary partition gets the name that the free space shares with another partition. -/
theorem names_not_unique : sharedHdd.driver.Holds [0x40000, 0x80000, 0xC0000] ∧
    sharedHdd.driver.NamesUnique [0x40000, 0x80000, 0xC0000] ∧
    (run (Hdd.serve fun _ pwd => pwd) sharedHdd sharedSession).1 = [some 0] ∧
    ¬ ∃ xs', (run (Hdd.serve fun _ pwd => pwd) sharedHdd sharedSession).2.driver.Visits xs' ∧
      (run (Hdd.serve fun _ pwd => pwd) sharedHdd sharedSession).2.driver.NamesUnique xs' := by
  have hfresh : sharedHdd.Session True [0x40000, 0x80000, 0xC0000] :=
    session_fresh True _ (by decide) (by decide) (by decide) (by decide) (by simp [FileSlot.zero])
  obtain ⟨hreply, hchain, hsecond, hthird, htype, htype'⟩ := sharedSession_run
  refine ⟨hfresh.holds, namesUnique_fresh (by decide) (by decide) (by decide) (by decide), hreply, ?_⟩
  generalize (run (serve fun _ pwd => pwd) sharedHdd sharedSession).2.driver = s at *
  rintro ⟨xs', hvisits, hunique⟩
  obtain rfl := hvisits.unique (show s.Visits [0x40000, 0x80000, 0xC0000] from ⟨hchain, by decide⟩)
  have heq := hunique 0x80000 (by decide) 0xC0000
    (by decide) (by rw [htype]; decide) (by rw [htype']; decide) hsecond.1
    hthird.1 (hsecond.2.trans hthird.2.symm)
  exact absurd heq (by decide)

/-- Files are open on main partitions of their names, and no two of them on the same partition. -/
structure Hdd.FilesStand (hdd : Hdd n) (xs : List Word) : Prop where
  stand : ∀ slot ∈ hdd.slots, slot.IsFile → (slot.parts 0).start ∈ 0 :: xs ∧
    (hdd.driver.headers (slot.parts 0).start).type ≠ apaTypeFree ∧
    (hdd.driver.headers (slot.parts 0).start).isSub = false ∧ (hdd.driver.headers (slot.parts 0).start).id = slot.id
  apart : ∀ (i j : ℕ) (slot slot' : FileSlot), hdd.slots[i]? = some slot → hdd.slots[j]? = some slot' →
    slot.IsFile → slot'.IsFile → (slot.parts 0).start = (slot'.parts 0).start → i = j

/-- The files of a session stand. -/
theorem Hdd.Session.standing (h : hdd.Session False xs) : hdd.FilesStand xs := by
  have hagrees : ∀ (i : ℕ) (slot : FileSlot), hdd.slots[i]? = some slot → slot.IsFile →
      ∃ m, slot.Agrees (partsOf hdd.driver.headers xs) m :=
    fun i slot hslot hfile => (h.slots.on i slot hslot hfile).resolve_right fun hfree => hfree.2.2
  refine ⟨fun slot hslot hfile => ?_, fun i j slot slot' hslot hslot' hfile hfile' hstart => ?_⟩
  · obtain ⟨i, hi⟩ := List.mem_iff_getElem?.mp hslot
    obtain ⟨m, hm⟩ := hagrees i slot hi hfile
    obtain ⟨hmem, htype, rfl⟩ := mem_of_partsOf hm.part
    exact ⟨hmem, htype, hm.main, hm.id.symm⟩
  · obtain ⟨m, hm⟩ := hagrees i slot hslot hfile
    obtain ⟨m', hm'⟩ := hagrees j slot' hslot' hfile'
    have hpart := hm'.part
    rw [← hstart, hm.part] at hpart
    refine h.slots.distinct i j slot slot' hslot hslot' hfile hfile' ?_
    rw [hm.id, hm'.id, Option.some.inj hpart]

/-- The files that are open stand at the end of every run of requests, if new partitions are safe, no free space is
opened and no name of an open partition is exchanged. -/
theorem filesStand (hn : 3 ≤ n) (h : hdd.Session False xs) (requests : List Request)
    (hmeet : AllMeet (Hdd.serve encrypt) (fun hdd request => ∀ xs, hdd.driver.WellFormed xs →
      hdd.Safe encrypt False xs request) hdd requests) :
    ∃ xs', (run (Hdd.serve encrypt) hdd requests).2.driver.Visits xs' ∧
      (run (Hdd.serve encrypt) hdd requests).2.FilesStand xs' := by
  obtain ⟨xs', hsession⟩ := h.run hn requests hmeet
  exact ⟨xs', hsession.holds.well.visits, hsession.standing⟩

/-- A partition is created, which then cannot be removed or renamed. -/
def busySession : List Request := [.open (str "PP.DATA,,,128M,PFS") ⟨true, true⟩, .remove (str "PP.DATA"),
  .rename (str "PP.DATA") (str "PP.NEW")]

/-- The file that is open stands after these requests. -/
theorem filesStand_busySession : ∃ xs', (run (Hdd.serve fun _ pwd => pwd) soloHdd busySession).2.driver.Visits xs' ∧
      (run (Hdd.serve fun _ pwd => pwd) soloHdd busySession).2.FilesStand xs' := by
  refine filesStand (by decide) (soloHdd_session False) busySession
    ⟨fun xs hxs params hinput => ?_, fun _ _ => trivial, fun _ _ => trivial, trivial⟩
  obtain rfl := hxs.visits.unique soloHdd_wellFormed.visits
  obtain rfl := Except.ok.inj hinput
  refine ⟨fun _ => ⟨by decide, fun _ _ => by decide⟩, ?_⟩
  rintro ⟨y, hy, -, hfree⟩
  obtain rfl := List.mem_singleton.mp hy
  rw [soloHdd_headers] at hfree
  exact absurd hfree (by decide)

/-- A table with the temporary partition and another one. -/
def tmpTable : List Header :=
  [{ soloHeader with next := 0x40000, prev := 0x80000 },
    { headerOf 0x0100 0x40000 0x40000 0x80000 0 with id := tmpId },
    { headerOf 0x0100 0x80000 0x40000 0 0x40000 with id := fill 8 (str "PP.DATA") }]

/-- The driver on that table. -/
def tmpHdd : Hdd 3 := ⟨.fresh 3 (diskOf tmpTable), ⟨0x100000, 0x40000, 2, 0⟩, [.zero, .zero]⟩

/-- Open a partition, and exchange its name. -/
def swapSession : List Request := [.open (str "PP.DATA") ⟨true, false⟩, .swapTmp (str "PP.DATA")]

theorem swapSession_run : (run (Hdd.serve fun _ pwd => pwd) tmpHdd swapSession).1 = [some 0, some 0] ∧
    ((run (Hdd.serve fun _ pwd => pwd) tmpHdd swapSession).2.slots.head?.map fun slot =>
      (slot.f, (slot.parts 0).start, slot.id)) = some (some ⟨true, false⟩, 0x80000, fill 8 (str "PP.DATA")) ∧
    ((run (Hdd.serve fun _ pwd => pwd) tmpHdd swapSession).2.driver.headers 0x80000).id = tmpId := by
  decide +kernel

/-- The file is open on the temporary partition then. -/
theorem filesStand_swapSession : tmpHdd.Session False [0x40000, 0x80000] ∧
    (run (Hdd.serve fun _ pwd => pwd) tmpHdd swapSession).1 = [some 0, some 0] ∧
    ¬ ∃ xs', (run (Hdd.serve fun _ pwd => pwd) tmpHdd swapSession).2.driver.Visits xs' ∧
      (run (Hdd.serve fun _ pwd => pwd) tmpHdd swapSession).2.FilesStand xs' := by
  obtain ⟨hreply, hslot, hid⟩ := swapSession_run
  refine ⟨Hdd.session_fresh False _ (by decide) (by decide) (by decide) (by decide) (by simp [FileSlot.zero]),
    hreply, ?_⟩
  generalize (run (Hdd.serve fun _ pwd => pwd) tmpHdd swapSession).2 = hdd at *
  rintro ⟨xs', -, hstand⟩
  obtain ⟨slot, hhead, hfields⟩ := Option.map_eq_some_iff.mp hslot
  simp only [Prod.mk.injEq] at hfields
  obtain ⟨hf, hstart, hname⟩ := hfields
  obtain ⟨-, -, -, heq⟩ := hstand.stand slot (List.mem_of_head? hhead) ⟨_, hf, rfl⟩
  rw [hstart, hid, hname] at heq
  exact absurd heq (by decide)

end Ps2sdk.Apa
