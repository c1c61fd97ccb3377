import Mathlib.Data.Set.Insert
import Ps2sdk.Erl.Linker

/-!
# Live records and unloading

The invariant of the loader: every entry of its lists and tables refers to a record of the list. `unload_erl`
follows the lists of dependencies, which may be cyclic, before it destroys its own record. A module that is
unloaded again while it is still being unloaded is never done.
-/

namespace Ps2sdk.Erl

open List

variable (s : Linker)

/-- The numbers of the records of the list. -/
def Linker.ids : List ℕ := s.records.map Record.id

/-- Every entry refers to a record of the list, and no record of the list has been destroyed. -/
structure Live : Prop where
  nodup : s.ids.Nodup
  fresh : ∀ k ∈ s.ids, k < s.nextId
  past : ∀ k ∈ s.destroyed, k < s.nextId
  once : s.destroyed.Nodup
  alive : ∀ k ∈ s.ids, k ∉ s.destroyed
  depender : ∀ d ∈ s.dependancies, d.depender ∈ s.ids
  provider : ∀ d ∈ s.dependancies, ∀ p, d.provider = some p → p ∈ s.ids
  symbol : ∀ r ∈ s.records, ∀ entry ∈ r.symbols, entry.2.provider = some r.id
  globalSymbol : ∀ entry ∈ s.globalSymbols, entry.2.provider = none
  loosy : ∀ entry ∈ s.loosyRelocs, entry.2.erl ∈ s.ids
  strayWrite : s.strayWrite = false

/-- What linking leaves alone. -/
structure Unmoved (s s' : Linker) : Prop where
  ids : s'.ids = s.ids
  nextId : s'.nextId = s.nextId
  destroyed : s'.destroyed = s.destroyed

theorem Unmoved.refl : Unmoved s s := ⟨rfl, rfl, rfl⟩

theorem Unmoved.trans {s s' s'' : Linker} (h : Unmoved s s') (h' : Unmoved s' s'') : Unmoved s s'' :=
  ⟨h'.ids.trans h.ids, h'.nextId.trans h.nextId, h'.destroyed.trans h.destroyed⟩

/-- Relocating a module touches its words only. -/
theorem relocate_spec (erl reloc type : ℕ) (addr : BitVec 32) :
    (relocate s erl reloc type addr).2.records = s.records ∧
      (relocate s erl reloc type addr).2.dependancies = s.dependancies ∧
      (relocate s erl reloc type addr).2.loosyRelocs = s.loosyRelocs ∧
      (relocate s erl reloc type addr).2.globalSymbols = s.globalSymbols ∧
      Unmoved s (relocate s erl reloc type addr).2 ∧
      ((relocate s erl reloc type addr).2.strayWrite = true →
        s.strayWrite = true ∨ erl ∈ s.destroyed) := by
  unfold relocate
  split
  · exact ⟨rfl, rfl, rfl, rfl, Unmoved.refl s, .inl⟩
  · refine ⟨rfl, rfl, rfl, rfl, ⟨rfl, rfl, rfl⟩, fun h => ?_⟩
    simpa using h

variable {s : Linker}

/-- A relocation of a live module. -/
theorem Live.relocate (h : Live s) {erl : ℕ} (herl : erl ∈ s.ids) (reloc type : ℕ)
    (addr : BitVec 32) : Live (relocate s erl reloc type addr).2 := by
  obtain ⟨hrecords, hdep, hloosy, hglobal, hsame, hstray⟩ := relocate_spec s erl reloc type addr
  generalize (Erl.relocate s erl reloc type addr).2 = s' at *
  obtain ⟨hids, hnext, hdestroyed⟩ := hsame
  refine ⟨?_, ?_, ?_, ?_, ?_, ?_, ?_, ?_, ?_, ?_, ?_⟩
  · rw [hids]
    exact h.nodup
  · rw [hids, hnext]
    exact h.fresh
  · rw [hdestroyed, hnext]
    exact h.past
  · rw [hdestroyed]
    exact h.once
  · rw [hids, hdestroyed]
    exact h.alive
  · rw [hdep, hids]
    exact h.depender
  · rw [hdep, hids]
    exact h.provider
  · rw [hrecords]
    exact h.symbol
  · rw [hglobal]
    exact h.globalSymbol
  · rw [hloosy, hids]
    exact h.loosy
  · cases hwrite : s'.strayWrite with
    | false => rfl
    | true =>
      rcases hstray hwrite with hold | hdead
      · rw [h.strayWrite] at hold
        exact absurd hold (by decide)
      · exact absurd hdead (h.alive erl herl)

theorem addDependancy_spec (s : Linker) (depender : ℕ) (provider : Option ℕ) :
    (addDependancy s depender provider).records = s.records ∧ Unmoved s (addDependancy s depender provider) ∧
      ∀ d ∈ (addDependancy s depender provider).dependancies, d ∈ s.dependancies ∨ d = ⟨depender, provider⟩ := by
  unfold addDependancy
  split
  · exact ⟨rfl, Unmoved.refl s, fun d hd => .inl hd⟩
  · exact ⟨rfl, ⟨rfl, rfl, rfl⟩, fun d hd => (mem_cons.mp hd).symm⟩

/-- A dependency between live modules. -/
theorem Live.addDependancy (h : Live s) {depender : ℕ} {provider : Option ℕ}
    (hdepender : depender ∈ s.ids) (hprovider : ∀ p, provider = some p → p ∈ s.ids) :
    Live (addDependancy s depender provider) := by
  have hadd := (addDependancy_spec s depender provider).2.2
  unfold Erl.addDependancy at hadd ⊢
  split
  · exact h
  · next hne =>
    rw [if_neg hne] at hadd
    refine { h with depender := fun d hd => ?_, provider := fun d hd p hp => ?_ }
    · rcases hadd d hd with hold | rfl
      · exact h.depender d hold
      · exact hdepender
    · rcases hadd d hd with hold | rfl
      · exact h.provider d hold p hp
      · exact hprovider p hp

theorem Live.addLoosy (h : Live s) {erl : ℕ} (herl : erl ∈ s.ids) (reloc type : ℕ)
    (symbol : String) : Live (addLoosy s erl reloc type symbol) := by
  refine { h with loosy := fun entry hentry => ?_ }
  rcases mem_cons.mp hentry with rfl | hold
  · exact herl
  · exact h.loosy entry hold

variable (provider : Option ℕ)

theorem unmoved_fixOne (address : BitVec 32) (s : Linker) (l : Loosy) :
    Unmoved s (fixOne provider address s l) := by
  obtain ⟨-, -, -, -, hsame, -⟩ := relocate_spec s l.erl l.reloc l.type address
  exact hsame.trans (addDependancy_spec (relocate s l.erl l.reloc l.type address).2 l.erl provider).2.1

/-- Fixing some waiting relocations moves nothing, and keeps the invariant if they are of live modules. -/
theorem foldl_fixOne_spec (address : BitVec 32) (waiting : List Loosy) (s : Linker) :
    Unmoved s (waiting.foldl (fixOne provider address) s) ∧
      (Live s → (∀ p, provider = some p → p ∈ s.ids) → (∀ l ∈ waiting, l.erl ∈ s.ids) →
        Live (waiting.foldl (fixOne provider address) s)) := by
  induction waiting generalizing s with
  | nil => exact ⟨Unmoved.refl s, fun h _ _ => h⟩
  | cons l rest ih =>
    rw [foldl_cons]
    have hsame := unmoved_fixOne provider address s l
    obtain ⟨hsame', hrest⟩ := ih (fixOne provider address s l)
    refine ⟨hsame.trans hsame', fun h hprovider hwaiting => ?_⟩
    have herl := hwaiting l mem_cons_self
    have hids := (relocate_spec s l.erl l.reloc l.type address).2.2.2.2.1.ids
    refine hrest ((h.relocate herl l.reloc l.type address).addDependancy (hids ▸ herl)
      fun p hp => hids ▸ hprovider p hp) ?_ ?_
    · rw [hsame.ids]
      exact hprovider
    · rw [hsame.ids]
      exact fun l hl => hwaiting l (mem_cons_of_mem _ hl)

/-- A new symbol fixes the relocations that wait for it. -/
theorem fixLoosy_spec (s : Linker) (provider : Option ℕ) (symbol : String) (address : BitVec 32) :
    Unmoved s (fixLoosy s provider symbol address) ∧
      (Live s → (∀ p, provider = some p → p ∈ s.ids) → Live (fixLoosy s provider symbol address)) := by
  obtain ⟨hsame, hlive⟩ := foldl_fixOne_spec provider address
    ((s.loosyRelocs.filter fun entry => entry.1 == symbol).map Prod.snd) s
  refine ⟨⟨hsame.ids, hsame.nextId, hsame.destroyed⟩, fun h hprovider => ?_⟩
  have hwaiting : ∀ l ∈ (s.loosyRelocs.filter fun entry => entry.1 == symbol).map Prod.snd, l.erl ∈ s.ids := by
    intro l hl
    obtain ⟨entry, hentry, rfl⟩ := mem_map.mp hl
    exact h.loosy entry (mem_filter.mp hentry).1
  have hfixed := hlive h hprovider hwaiting
  exact { hfixed with loosy := fun entry hentry => hfixed.loosy entry (mem_filter.mp hentry).1 }

/-- Changing a record without its number moves nothing. -/
theorem unmoved_setRecord (s : Linker) (erl : ℕ) {f : Record → Record} (hid : ∀ r, (f r).id = r.id) :
    Unmoved s (s.setRecord erl f) := by
  refine ⟨?_, rfl, rfl⟩
  unfold Linker.ids Linker.setRecord
  rw [map_map]
  refine map_congr_left fun r _ => ?_
  simp only [Function.comp]
  split
  · exact hid r
  · rfl

/-- Changing a record keeps the invariant when its symbols stay its own. -/
theorem Live.setRecord (h : Live s) (erl : ℕ) {f : Record → Record} (hid : ∀ r, (f r).id = r.id)
    (hsymbols : ∀ r ∈ s.records, r.id = erl → ∀ entry ∈ (f r).symbols, entry.2.provider = some r.id) :
    Live (s.setRecord erl f) := by
  have hids := (unmoved_setRecord s erl hid).ids
  refine ⟨hids ▸ h.nodup, hids ▸ h.fresh, h.past, h.once, hids ▸ h.alive, hids ▸ h.depender,
    hids ▸ h.provider, ?_, h.globalSymbol, hids ▸ h.loosy, h.strayWrite⟩
  intro r hr entry hentry
  obtain ⟨old, hold, rfl⟩ := mem_map.mp hr
  by_cases heq : old.id = erl
  · rw [if_pos heq] at hentry ⊢
    rw [hid]
    exact hsymbols old hold heq entry hentry
  · rw [if_neg heq] at hentry ⊢
    exact h.symbol old hold entry hentry

/-- `hadd` adds at most one symbol. -/
theorem mem_hadd {symbols : List (String × Symbol)} {symbol : String} {s : Symbol} {entry : String × Symbol}
    (h : entry ∈ hadd symbols symbol s) : entry ∈ symbols ∨ entry = (symbol, s) := by
  unfold hadd at h
  split at h
  · exact .inl h
  · exact (mem_cons.mp h).symm

/-- A symbol of a live module, or a global one, is added. -/
theorem addSymbol_spec (s : Linker) (erl : Option ℕ) (symbol : String) (address : BitVec 32) :
    Unmoved s (addSymbol s erl symbol address).2 ∧
      (Live s → (∀ k, erl = some k → k ∈ s.ids) → Live (addSymbol s erl symbol address).2) := by
  unfold addSymbol
  split
  · exact ⟨Unmoved.refl s, fun h _ => h⟩
  · obtain ⟨hsame, hlive⟩ := fixLoosy_spec s erl symbol address
    cases erl with
    | none =>
      refine ⟨⟨hsame.ids, hsame.nextId, hsame.destroyed⟩, fun h herl => ?_⟩
      have hfixed := hlive h herl
      refine { hfixed with globalSymbol := fun entry hentry => ?_ }
      rcases mem_hadd hentry with hold | rfl
      · exact hfixed.globalSymbol entry hold
      · rfl
    | some k =>
      refine ⟨hsame.trans (unmoved_setRecord _ k fun _ => rfl), fun h herl => ?_⟩
      have hfixed := hlive h herl
      refine hfixed.setRecord k (fun _ => rfl) fun r hr hid entry hentry => ?_
      rcases mem_hadd hentry with hold | rfl
      · exact hfixed.symbol r hr entry hold
      · exact congrArg some hid.symm

open Option

variable {S C : Set ℕ} {s s' : Linker} {u w erl top : ℕ} {records : List Record}

/-- `unload_erl` of the module goes on to its dependencies. -/
def Enters (s : Linker) (erl : ℕ) : Prop :=
  ∃ r, s.record erl = some r ∧ r.sticky = false ∧ ∀ d ∈ s.dependancies, d.provider ≠ some erl

/-- `unload_erl` of the module unloads another one first. -/
def Calls (s : Linker) (erl other : ℕ) : Prop :=
  ∃ r, s.record erl = some r ∧ ∃ d ∈ r.dependancies, findErl s d = some other

/-- What an unloading leaves to the modules of a set. -/
structure Keeps (S : Set ℕ) (s s' : Linker) : Prop where
  record : ∀ u ∈ S, s'.record u = s.record u
  dependancies : ∀ d ∈ s'.dependancies, d ∈ s.dependancies
  found : ∀ name, ∀ u ∈ S, findErl s name = some u → findErl s' name = some u
  loosyRelocs : s'.loosyRelocs = s.loosyRelocs

theorem Keeps.refl (S : Set ℕ) (s : Linker) : Keeps S s s := ⟨fun _ _ => rfl, fun _ h => h, fun _ _ _ h => h, rfl⟩

theorem Keeps.trans {s'' : Linker} (h : Keeps S s s') (h' : Keeps S s' s'') : Keeps S s s'' :=
  ⟨fun u hu => (h'.record u hu).trans (h.record u hu), fun d hd => h.dependancies d (h'.dependancies d hd),
    fun name u hu hfound => h'.found name u hu (h.found name u hu hfound), h'.loosyRelocs.trans h.loosyRelocs⟩

theorem Keeps.mono {T : Set ℕ} (h : Keeps T s s') (hsub : S ⊆ T) : Keeps S s s' :=
  ⟨fun u hu => h.record u (hsub hu), h.dependancies, fun name u hu => h.found name u (hsub hu), h.loosyRelocs⟩

theorem Keeps.enters (h : Keeps S s s') (hu : u ∈ S) (henters : Enters s u) : Enters s' u := by
  obtain ⟨r, hr, hsticky, hdep⟩ := henters
  exact ⟨r, (h.record u hu).trans hr, hsticky, fun d hd => hdep d (h.dependancies d hd)⟩

theorem Keeps.calls (h : Keeps S s s') {v : ℕ} (hu : u ∈ S) (hv : v ∈ S) (hcalls : Calls s u v) : Calls s' u v := by
  obtain ⟨r, hr, d, hd, hfound⟩ := hcalls
  exact ⟨r, (h.record u hu).trans hr, d, hd, h.found d v hv hfound⟩

theorem record_filter (hne : u ≠ w) :
    (records.filter fun r => r.id != w).find? (fun r => r.id == u) = records.find? fun r => r.id == u := by
  rw [find?_filter]
  refine congrArg (records.find? ·) (funext fun r => ?_)
  by_cases hu : r.id = u
  · simp [hu, hne]
  · simp [hu]

/-- The first record with a name is still the first one when another is destroyed. -/
theorem findErl_filter (hne : u ≠ w) (name : String)
    (h : (records.find? fun r => r.name == some name).map Record.id = some u) :
    ((records.filter fun r => r.id != w).find? fun r => r.name == some name).map Record.id = some u := by
  induction records with
  | nil => exact h
  | cons r rest ih =>
    by_cases hname : r.name = some name
    · rw [find?_cons_of_pos (by simpa using hname)] at h
      have hid : r.id = u := by simpa using h
      rw [filter_cons_of_pos (by simpa [hid] using hne), find?_cons_of_pos (by simpa using hname)]
      exact h
    · rw [find?_cons_of_neg (by simpa using hname)] at h
      by_cases hw : r.id = w
      · rw [filter_cons_of_neg (by simpa using hw)]
        exact ih h
      · rw [filter_cons_of_pos (by simpa using hw), find?_cons_of_neg (by simpa using hname)]
        exact ih h

/-- Flushing the symbols of a record changes no other one. -/
theorem filter_erlFlushSymbols (s : Linker) (erl : ℕ) :
    ((erlFlushSymbols s erl).records.filter fun r => r.id != erl) = s.records.filter fun r => r.id != erl := by
  unfold erlFlushSymbols Linker.setRecord
  induction s.records with
  | nil => rfl
  | cons r rest ih =>
    rw [map_cons]
    by_cases hid : r.id = erl
    · rw [if_pos hid, filter_cons_of_neg (by simpa using hid), filter_cons_of_neg (by simpa using hid), ih]
    · rw [if_neg hid, filter_cons_of_pos (by simpa using hid), filter_cons_of_pos (by simpa using hid), ih]

theorem records_destroyErlRecord (s : Linker) (erl : ℕ) :
    (destroyErlRecord s erl).records = s.records.filter fun r => r.id != erl :=
  filter_erlFlushSymbols s erl

theorem records_finishUnload (s : Linker) (erl : ℕ) :
    (finishUnload s erl).records = s.records.filter fun r => r.id != erl := by
  unfold finishUnload
  rw [records_destroyErlRecord]
  exact filter_erlFlushSymbols _ erl

theorem keeps_finishUnload (h : erl ∉ S) : Keeps S s (finishUnload s erl) := by
  refine ⟨fun u hu => ?_, fun d hd => (mem_filter.mp hd).1, fun name u hu hfound => ?_, rfl⟩
  · unfold Linker.record
    rw [records_finishUnload]
    exact record_filter (show u ≠ erl from fun heq => h (heq ▸ hu))
  · unfold findErl
    rw [records_finishUnload]
    exact findErl_filter (show u ≠ erl from fun heq => h (heq ▸ hu)) name hfound

/-- Every module of the set is unloaded by way of another one of the set. -/
def Closed (s : Linker) (C : Set ℕ) : Prop := ∀ u ∈ C, Enters s u ∧ ∃ v ∈ C, Calls s u v

theorem Closed.keeps (h : Closed s C) (hkeeps : Keeps C s s') : Closed s' C := by
  intro u hu
  obtain ⟨henters, v, hv, hcalls⟩ := h u hu
  exact ⟨hkeeps.enters hu henters, v, hv, hkeeps.calls hu hv hcalls⟩

/-- Dependencies that are unloaded to the end lead to no module of a closed set. -/
theorem rUnloadDependancies_closed {unload : Linker → ℕ → Option Bool × Linker}
    (hunload : ∀ s, Closed s C → ∀ w b s', unload s w = (some b, s') → w ∉ C ∧ Keeps C s s')
    (names : List String) (hclosed : Closed s C) (h : rUnloadDependancies unload names s = (some (), s')) :
    Keeps C s s' ∧ ∀ d ∈ names, ∀ v ∈ C, findErl s d ≠ some v := by
  induction names generalizing s' with
  | nil =>
    obtain rfl : s = s' := congrArg Prod.snd h
    exact ⟨Keeps.refl C s, by simp⟩
  | cons d rest ih =>
    rw [rUnloadDependancies] at h
    generalize hrest : rUnloadDependancies unload rest s = result at h
    obtain ⟨done, s₁⟩ := result
    cases done with
    | none => simp at h
    | some _ =>
      obtain ⟨hkeeps, hnames⟩ := ih hrest
      dsimp only at h
      cases hfind : findErl s₁ d with
      | none =>
        rw [hfind] at h
        obtain rfl : s₁ = s' := congrArg Prod.snd h
        refine ⟨hkeeps, forall_mem_cons.mpr ⟨fun v hv hfound => ?_, hnames⟩⟩
        rw [hkeeps.found d v hv hfound] at hfind
        exact absurd hfind (by simp)
      | some erl =>
        rw [hfind] at h
        obtain ⟨b, hb⟩ : ∃ b, (unload s₁ erl).1 = some b := by
          have hfst := congrArg Prod.fst h
          exact isSome_iff_exists.mp (by simpa using congrArg isSome hfst)
        obtain rfl : (unload s₁ erl).2 = s' := congrArg Prod.snd h
        obtain ⟨hnot, hkeeps'⟩ := hunload s₁ (hclosed.keeps hkeeps) erl b _ (Prod.ext hb rfl)
        refine ⟨hkeeps.trans hkeeps', forall_mem_cons.mpr ⟨fun v hv hfound => ?_, hnames⟩⟩
        rw [hkeeps.found d v hv hfound] at hfind
        exact hnot (some.inj hfind ▸ hv)

variable (depth : ℕ)

/-- The two ways of `unload_erl`: the record is not unloaded, or its dependencies are unloaded first. -/
theorem unloadErl_succ (s : Linker) (w : ℕ) : (¬ Enters s w ∧ (unloadErl (depth + 1) s w = (some false, s) ∨
      w ∉ s.ids ∧ unloadErl (depth + 1) s w = (some true, { s with destroyed := w :: s.destroyed }))) ∨
    ∃ r, s.record w = some r ∧ Enters s w ∧ unloadErl (depth + 1) s w =
      match rUnloadDependancies (unloadErl depth) r.dependancies s with
      | (none, s) => (none, s)
      | (some (), s) => (some true, finishUnload s w) := by
  rw [unloadErl]
  cases hrecord : s.record w with
  | none =>
    refine .inl ⟨?_, .inr ⟨fun hmem => ?_, rfl⟩⟩
    · rintro ⟨r, hr, -⟩
      rw [hrecord] at hr
      exact absurd hr (by simp)
    · obtain ⟨r, hr, hid⟩ := mem_map.mp hmem
      exact find?_eq_none.mp hrecord r hr (by simpa using hid)
  | some r =>
    dsimp only
    split
    · next hsticky =>
      refine .inl ⟨?_, .inl rfl⟩
      rintro ⟨r', hr', hfree, -⟩
      obtain rfl : r = r' := some.inj (hrecord.symm.trans hr')
      rw [hfree] at hsticky
      exact absurd hsticky (by decide)
    · next hsticky =>
      split
      · next hprovides =>
        refine .inl ⟨?_, .inl rfl⟩
        rintro ⟨-, -, -, hdep⟩
        obtain ⟨d, hd, hprovider⟩ := any_eq_true.mp hprovides
        exact hdep d hd (by simpa using hprovider)
      · next hprovides =>
        refine .inr ⟨r, rfl, ⟨r, hrecord, by simpa using hsticky, fun d hd hprovider => hprovides ?_⟩, rfl⟩
        exact any_eq_true.mpr ⟨d, hd, by simpa using hprovider⟩

/-- A call that returns was not about a module of a closed set, and destroyed none of them. -/
theorem unloadErl_closed (hclosed : Closed s C) (w : ℕ) (b : Bool)
    (s' : Linker) (h : unloadErl depth s w = (some b, s')) : w ∉ C ∧ Keeps C s s' := by
  induction depth generalizing s w b s' with
  | zero => simp [unloadErl] at h
  | succ depth ih =>
    rcases unloadErl_succ depth s w with ⟨hnot, hsame⟩ | ⟨r, hrecord, -, hbody⟩
    · refine ⟨fun hw => hnot (hclosed w hw).1, ?_⟩
      rcases hsame with hsame | ⟨-, hsame⟩
      · obtain rfl := congrArg Prod.snd (hsame.symm.trans h)
        exact Keeps.refl C s
      · obtain rfl := congrArg Prod.snd (hsame.symm.trans h)
        exact ⟨fun _ _ => rfl, fun _ hd => hd, fun _ _ _ hf => hf, rfl⟩
    · rw [hbody] at h
      generalize hdeps : rUnloadDependancies (unloadErl depth) r.dependancies s = result at h
      obtain ⟨done, s₁⟩ := result
      cases done with
      | none => simp at h
      | some _ =>
        obtain rfl := congrArg Prod.snd h
        obtain ⟨hkeeps, hnames⟩ := rUnloadDependancies_closed
          (fun s hclosed w b s' hw => ih hclosed w b s' hw) r.dependancies hclosed hdeps
        have hw : w ∉ C := by
          intro hw
          obtain ⟨-, v, hv, r', hr', d, hd, hfound⟩ := hclosed w hw
          obtain rfl : r = r' := some.inj (hrecord.symm.trans hr')
          exact hnames d hd v hv hfound
        exact ⟨hw, hkeeps.trans (keeps_finishUnload hw)⟩

/-- The modules that are being unloaded, and the one that unloads its dependencies now. -/
structure Open (s : Linker) (S : Set ℕ) (top : ℕ) : Prop where
  mem : top ∈ S
  enters : ∀ u ∈ S, Enters s u
  calls : ∀ u ∈ S, u ≠ top → ∃ v ∈ S, Calls s u v

theorem Open.keeps (h : Open s S top) (hkeeps : Keeps S s s') : Open s' S top := by
  refine ⟨h.mem, fun u hu => hkeeps.enters hu (h.enters u hu), fun u hu hne => ?_⟩
  obtain ⟨v, hv, hcalls⟩ := h.calls u hu hne
  exact ⟨v, hv, hkeeps.calls hu hv hcalls⟩

/-- A dependency that is unloaded next. -/
theorem Open.push (h : Open s S top) (hcalls : Calls s top w) (henters : Enters s w) : Open s (insert w S) w := by
  refine ⟨Set.mem_insert w S, fun u hu => ?_, fun u hu hne => ?_⟩
  · rcases Set.mem_insert_iff.mp hu with rfl | hu
    · exact henters
    · exact h.enters u hu
  · rcases Set.mem_insert_iff.mp hu with rfl | hu
    · exact absurd rfl hne
    · by_cases htop : u = top
      · exact ⟨w, Set.mem_insert w S, htop ▸ hcalls⟩
      · obtain ⟨v, hv, hv'⟩ := h.calls u hu htop
        exact ⟨v, Set.mem_insert_of_mem w hv, hv'⟩

theorem Open.closed (h : Open s S top) (hcalls : Calls s top w) (hw : w ∈ S) : Closed s S := by
  intro u hu
  refine ⟨h.enters u hu, ?_⟩
  by_cases htop : u = top
  · exact ⟨w, hw, htop ▸ hcalls⟩
  · exact h.calls u hu htop

/-- The module waits for a symbol. -/
def Linker.Waits (s : Linker) (erl : ℕ) : Prop := ∃ entry ∈ s.loosyRelocs, entry.2.erl = erl

/-- No module that waits for a symbol is named as a dependency. -/
def Linker.Unnamed (s : Linker) : Prop :=
  ∀ r ∈ s.records, s.Waits r.id → ∀ q ∈ s.records, ∀ d ∈ q.dependancies, r.name ≠ some d

/-- The invariant, with no module to be destroyed that waits for a symbol. -/
structure Settled (s : Linker) : Prop where
  live : Live s
  unnamed : s.Unnamed

theorem Settled.not_waits (h : Settled s) (hcalls : Calls s top w) : w ∈ s.ids ∧ ¬ s.Waits w := by
  obtain ⟨q, hq, d, hd, hfound⟩ := hcalls
  obtain ⟨r, hr, rfl⟩ := map_eq_some_iff.mp hfound
  have hmem := mem_of_find?_eq_some hr
  have hname : r.name = some d := by simpa using find?_some hr
  exact ⟨mem_map_of_mem hmem, fun hwaits =>
    h.unnamed r hmem hwaits q (mem_of_find?_eq_some hq) d hd hname⟩

/-- The numbers of the records that are left. -/
theorem mem_ids_filter {k : ℕ} :
    k ∈ (records.filter fun r => r.id != erl).map Record.id ↔ k ∈ records.map Record.id ∧ k ≠ erl := by
  constructor
  · intro hk
    obtain ⟨r, hr, rfl⟩ := mem_map.mp hk
    obtain ⟨hr, hne⟩ := mem_filter.mp hr
    exact ⟨mem_map_of_mem hr, by simpa using hne⟩
  · rintro ⟨hk, hne⟩
    obtain ⟨r, hr, rfl⟩ := mem_map.mp hk
    exact mem_map_of_mem (mem_filter.mpr ⟨hr, by simpa using hne⟩)

/-- Destroying a record that no entry refers to. -/
theorem Live.destroy (h : Live s) (herl : erl ∈ s.ids)
    (hrecords : s'.records = s.records.filter fun r => r.id != erl) (hnext : s'.nextId = s.nextId)
    (hdestroyed : s'.destroyed = erl :: s.destroyed) (hglobal : s'.globalSymbols = s.globalSymbols)
    (hdep : ∀ d ∈ s'.dependancies, d ∈ s.dependancies ∧ d.depender ≠ erl ∧ d.provider ≠ some erl)
    (hloosy : s'.loosyRelocs = s.loosyRelocs) (hwaits : ¬ s.Waits erl) (hstray : s'.strayWrite = s.strayWrite) :
    Live s' := by
  have hids : ∀ k, k ∈ s'.ids ↔ k ∈ s.ids ∧ k ≠ erl := by
    intro k
    unfold Linker.ids
    rw [hrecords]
    exact mem_ids_filter
  refine ⟨?_, fun k hk => ?_, fun k hk => ?_, ?_, fun k hk => ?_, fun d hd => ?_, fun d hd p hp => ?_,
    fun r hr => ?_, hglobal ▸ h.globalSymbol, fun entry hentry => ?_, hstray.trans h.strayWrite⟩
  · unfold Linker.ids
    rw [hrecords]
    exact (filter_sublist.map Record.id).nodup h.nodup
  · rw [hnext]
    exact h.fresh k ((hids k).mp hk).1
  · rw [hdestroyed] at hk
    rw [hnext]
    rcases mem_cons.mp hk with rfl | hk
    · exact h.fresh _ herl
    · exact h.past k hk
  · rw [hdestroyed]
    exact nodup_cons.mpr ⟨h.alive erl herl, h.once⟩
  · rw [hdestroyed]
    obtain ⟨hold, hne⟩ := (hids k).mp hk
    exact fun hmem => (mem_cons.mp hmem).elim hne (h.alive k hold)
  · obtain ⟨hold, hne, -⟩ := hdep d hd
    exact (hids _).mpr ⟨h.depender d hold, hne⟩
  · obtain ⟨hold, -, hne⟩ := hdep d hd
    exact (hids p).mpr ⟨h.provider d hold p hp, fun heq => hne (heq ▸ hp)⟩
  · rw [hrecords] at hr
    exact h.symbol r (mem_filter.mp hr).1
  · rw [hloosy] at hentry
    exact (hids _).mpr ⟨h.loosy entry hentry, fun heq => hwaits ⟨entry, hentry, heq⟩⟩

/-- A module that provides nothing and does not wait may be destroyed. -/
theorem Settled.finishUnload (h : Settled s) (herl : erl ∈ s.ids)
    (hprovides : ∀ d ∈ s.dependancies, d.provider ≠ some erl) (hwaits : ¬ s.Waits erl) :
    Settled (finishUnload s erl) := by
  refine ⟨h.live.destroy herl (records_finishUnload s erl) rfl rfl rfl (fun d hd => ?_) rfl hwaits rfl,
    fun r hr hwaits q hq => ?_⟩
  · obtain ⟨hold, hne⟩ := mem_filter.mp hd
    exact ⟨hold, by simpa using hne, hprovides d hold⟩
  · rw [records_finishUnload] at hr hq
    exact h.unnamed r (mem_filter.mp hr).1 hwaits q (mem_filter.mp hq).1

/-- What is needed of a way to unload dependencies. -/
def Unloads (unload : Linker → ℕ → Option Bool × Linker) : Prop :=
  ∀ s S top w, Open s S top → Calls s top w →
    (Settled s → Settled (unload s w).2) ∧
      ∀ b, (unload s w).1 = some b → w ∉ S ∧ Keeps S s (unload s w).2

/-- Unloading the dependencies of the module at the top. -/
theorem rUnloadDependancies_open {unload : Linker → ℕ → Option Bool × Linker} (hunload : Unloads unload)
    {r : Record} (hopen : Open s S top) (hrecord : s.record top = some r)
    (names : List String) (hnames : ∀ d ∈ names, d ∈ r.dependancies) :
    (Settled s → Settled (rUnloadDependancies unload names s).2) ∧
      ((rUnloadDependancies unload names s).1 = some () →
        Keeps S s (rUnloadDependancies unload names s).2) := by
  induction names with
  | nil => exact ⟨id, fun _ => Keeps.refl S s⟩
  | cons d rest ih =>
    obtain ⟨hsettled, hkeeps⟩ := ih fun d hd => hnames d (mem_cons_of_mem _ hd)
    rw [rUnloadDependancies]
    generalize rUnloadDependancies unload rest s = result at hsettled hkeeps ⊢
    obtain ⟨done, s₁⟩ := result
    cases done with
    | none => exact ⟨hsettled, fun h => absurd h (by simp)⟩
    | some _ =>
      have hkeeps := hkeeps rfl
      dsimp only at hsettled hkeeps ⊢
      cases hfind : findErl s₁ d with
      | none => exact ⟨hsettled, fun _ => hkeeps⟩
      | some erl =>
        have hcalls : Calls s₁ top erl :=
          ⟨r, (hkeeps.record top hopen.mem).trans hrecord, d, hnames d mem_cons_self, hfind⟩
        obtain ⟨hsettled', hkeeps'⟩ := hunload s₁ S top erl (hopen.keeps hkeeps) hcalls
        refine ⟨fun h => hsettled' (hsettled h), fun hdone => ?_⟩
        obtain ⟨b, hb⟩ : ∃ b, (unload s₁ erl).1 = some b :=
          isSome_iff_exists.mp (by simpa using congrArg isSome hdone)
        exact hkeeps.trans (hkeeps' b hb).2

theorem Enters.mem_ids (h : Enters s w) : w ∈ s.ids := by
  obtain ⟨r, hr, -⟩ := h
  have hid : r.id = w := by simpa using find?_some hr
  exact hid ▸ mem_map_of_mem (mem_of_find?_eq_some hr)

/-- Unloading a module whose record is the top of those being unloaded. -/
theorem unload_top {depth : ℕ} (hunload : Unloads (unloadErl depth))
    {r : Record} (hopen : Open s S w) (hrecord : s.record w = some r) (hsettled : Settled s)
    (hwaits : ¬ s.Waits w) : Settled (match rUnloadDependancies (unloadErl depth) r.dependancies s with
      | (none, s) => (none, s)
      | (some (), s) => (some true, finishUnload s w) : Option Bool × Linker).2 := by
  obtain ⟨hsettled', hkeeps⟩ := rUnloadDependancies_open hunload hopen hrecord r.dependancies fun _ hd => hd
  generalize rUnloadDependancies (unloadErl depth) r.dependancies s = result at hsettled' hkeeps ⊢
  obtain ⟨done, s₁⟩ := result
  cases done with
  | none => exact hsettled' hsettled
  | some _ =>
    have hkeeps := hkeeps rfl
    have henters := hkeeps.enters hopen.mem (hopen.enters w hopen.mem)
    have hmem := henters.mem_ids
    obtain ⟨-, -, -, hprovides⟩ := henters
    exact (hsettled' hsettled).finishUnload hmem hprovides (by rwa [Linker.Waits, hkeeps.loosyRelocs])

/-- Every unloading of a dependency keeps the invariant and the modules further up. -/
theorem unloads_unloadErl : Unloads (unloadErl depth) := by
  induction depth with
  | zero =>
    intro s S top w _ _
    exact ⟨id, fun b hb => absurd hb (by simp [unloadErl])⟩
  | succ depth ih =>
    intro s S top w hopen hcalls
    have hkept : ∀ b, (unloadErl (depth + 1) s w).1 = some b → w ∈ S → False := fun b hb hw =>
      (unloadErl_closed (depth + 1) (hopen.closed hcalls hw) w b _ (Prod.ext hb rfl)).1 hw
    rcases unloadErl_succ depth s w with ⟨-, hsame | ⟨hgone, hsame⟩⟩ | ⟨r, hrecord, henters, hbody⟩
    · exact ⟨fun h => by rw [hsame]; exact h, fun b hb => ⟨hkept b hb, by rw [hsame]; exact Keeps.refl S s⟩⟩
    · refine ⟨fun h => absurd (h.not_waits hcalls).1 hgone, fun b hb => ⟨hkept b hb, ?_⟩⟩
      rw [hsame]
      exact ⟨fun _ _ => rfl, fun _ hd => hd, fun _ _ _ hf => hf, rfl⟩
    · have hpush := hopen.push hcalls henters
      refine ⟨fun hsettled => ?_, fun b hb => ⟨hkept b hb, ?_⟩⟩
      · rw [hbody]
        exact unload_top ih hpush hrecord hsettled (hsettled.not_waits hcalls).2
      have hw : w ∉ S := hkept b hb
      obtain ⟨-, hkeeps⟩ := rUnloadDependancies_open ih hpush hrecord r.dependancies fun _ hd => hd
      rw [hbody] at hb ⊢
      generalize rUnloadDependancies (unloadErl depth) r.dependancies s = result at hkeeps hb ⊢
      obtain ⟨done, s₁⟩ := result
      cases done with
      | none => simp at hb
      | some _ => exact ((hkeeps rfl).mono (Set.subset_insert w S)).trans (keeps_finishUnload hw)

/-- `unload_erl` of a record of the list that does not wait keeps the invariant. -/
theorem Settled.unloadErl (h : Settled s) (depth : ℕ) (hmem : w ∈ s.ids) (hwaits : ¬ s.Waits w) :
    Settled (unloadErl depth s w).2 := by
  cases depth with
  | zero => exact h
  | succ depth =>
    rcases unloadErl_succ depth s w with ⟨-, hsame | ⟨hgone, -⟩⟩ | ⟨r, hrecord, henters, hbody⟩
    · rw [hsame]
      exact h
    · exact absurd hmem hgone
    · have hopen : Open s {w} w := by
        refine ⟨rfl, fun u hu => ?_, fun u hu hne => absurd hu hne⟩
        rw [Set.mem_singleton_iff.mp hu]
        exact henters
      rw [hbody]
      exact unload_top (unloads_unloadErl depth) hopen hrecord h hwaits

end Ps2sdk.Erl
