import Ps2sdk.Lib.Run
import Ps2sdk.Erl.Unload

/-!
# The loader and destroyed modules

The loader never touches a destroyed module as long as the files it loads can be relocated and started, and no
module is unloaded, or named as a dependency when one is unloaded, that waits for a symbol.
-/

namespace Ps2sdk.Erl

open List Option Nat

variable {symbol : String} {found : Symbol} {s : Linker} {erl : ℕ}

theorem mem_of_lookup {symbols : List (String × Symbol)}
    (h : lookup symbols symbol = some found) : ∃ entry ∈ symbols, entry.2 = found := by
  obtain ⟨entry, hentry, rfl⟩ := map_eq_some_iff.mp h
  exact ⟨entry, mem_of_find?_eq_some hentry, rfl⟩

/-- A symbol that some record has is in the table of that record. -/
theorem mem_of_rFindSymbol {records : List Record}
    (h : rFindSymbol symbol records = some found) : ∃ r ∈ records, ∃ entry ∈ r.symbols, entry.2 = found := by
  induction records with
  | nil => exact absurd h (by simp [rFindSymbol])
  | cons r rest ih =>
    rw [rFindSymbol] at h
    split at h
    · next s hlookup =>
      obtain ⟨entry, hentry, heq⟩ := mem_of_lookup hlookup
      exact ⟨r, mem_cons_self, entry, hentry, heq.trans (some.inj h)⟩
    · obtain ⟨r', hr', hentry⟩ := ih h
      exact ⟨r', mem_cons_of_mem _ hr', hentry⟩

/-- A symbol that is found is global, or provided by a record of the list. -/
theorem Live.provider_of_found (h : Live s)
    (hfound : erlFindSymbol s symbol = some found) (p : ℕ) (hp : found.provider = some p) : p ∈ s.ids := by
  unfold erlFindSymbol at hfound
  split at hfound
  · next global hlookup =>
    obtain ⟨entry, hentry, heq⟩ := mem_of_lookup hlookup
    have hglobal := h.globalSymbol entry hentry
    rw [heq, some.inj hfound, hp] at hglobal
    exact absurd hglobal (by simp)
  · obtain ⟨r, hr, entry, hentry, heq⟩ := mem_of_rFindSymbol hfound
    have hprovider := h.symbol r hr entry hentry
    rw [heq, hp] at hprovider
    exact some.inj hprovider ▸ mem_map_of_mem hr

/-- What one relocation may do to the linker. -/
theorem readReloc_cases {P : Linker → Prop} {reloc : Reloc} (bytes : BitVec 32) (hsame : P s)
    (hloosy : ∀ symbol, P (addLoosy s erl reloc.offset reloc.type symbol))
    (hrelocate : ∀ addr, P (relocate s erl reloc.offset reloc.type addr).2)
    (hlink : ∀ symbol found, erlFindSymbol s symbol = some found →
      P (addDependancy (relocate s erl reloc.offset reloc.type found.address).2 erl found.provider)) :
    P (readReloc s erl bytes reloc).2 := by
  have hfound : ∀ symbol found, erlFindSymbol s symbol = some found → ∀ ok s',
      relocate s erl reloc.offset reloc.type found.address = (ok, s') → P s' ∧
        P (addDependancy s' erl found.provider) := by
    intro symbol found hfound ok s' hrun
    have hlinked := hlink symbol found hfound
    have hrelocated := hrelocate found.address
    rw [hrun] at hlinked hrelocated
    exact ⟨hrelocated, hlinked⟩
  unfold readReloc
  split
  · next symbol _ =>
    split
    · exact hloosy symbol
    · next found hsymbol =>
      split
      · next hrun => exact (hfound symbol found hsymbol _ _ hrun).1
      · next hrun => exact (hfound symbol found hsymbol _ _ hrun).2
  · exact hrelocate _
  · next symbol offset _ =>
    split
    · next found hsymbol =>
      split
      · next hrun => exact (hfound symbol found hsymbol _ _ hrun).1
      · next hrun => exact (hfound symbol found hsymbol _ _ hrun).2
    · exact hrelocate _
  · exact hsame

/-- What every relocation keeps, the relocation sections keep. -/
theorem readSections_induction {P : Linker → Prop} {bytes : BitVec 32}
    (hone : ∀ s reloc, P s → P (readReloc s erl bytes reloc).2) (sections : List (Option (List Reloc))) (hs : P s) :
    P (readSections erl bytes sections s).2 := by
  have hrelocs : ∀ (relocs : List Reloc) (s : Linker), P s → P (readRelocs erl bytes relocs s).2 := by
    intro relocs
    induction relocs with
    | nil => exact fun _ hs => hs
    | cons reloc rest ih =>
      intro s hs
      have hone := hone s reloc hs
      rw [readRelocs]
      generalize readReloc s erl bytes reloc = result at hone ⊢
      obtain ⟨ok, s'⟩ := result
      cases ok with
      | false => exact hone
      | true => exact ih s' hone
  induction sections generalizing s with
  | nil => exact hs
  | cons relocs rest ih =>
    cases relocs with
    | none => exact hs
    | some relocs =>
      have hone := hrelocs relocs s hs
      rw [readSections]
      generalize readRelocs erl bytes relocs s = result at hone ⊢
      obtain ⟨ok, s'⟩ := result
      cases ok with
      | false => exact hone
      | true => exact ih hone

/-- The relocations of a module that is read. -/
theorem Live.readSections (bytes : BitVec 32) (sections : List (Option (List Reloc))) (h : Live s)
    (herl : erl ∈ s.ids) : Live (readSections erl bytes sections s).2 ∧ erl ∈
    (readSections erl bytes sections s).2.ids := by
  refine readSections_induction (P := fun s => Live s ∧ erl ∈ s.ids) (fun s reloc ⟨h, herl⟩ => ?_) sections
    ⟨h, herl⟩
  have hids := fun addr => (relocate_spec s erl reloc.offset reloc.type addr).2.2.2.2.1.ids
  refine readReloc_cases (P := fun s => Live s ∧ erl ∈ s.ids) bytes ⟨h, herl⟩
    (fun symbol => ⟨h.addLoosy herl _ _ symbol, herl⟩) (fun addr => ⟨h.relocate herl _ _ addr, hids addr ▸ herl⟩)
    fun symbol found hfound => ?_
  rw [(addDependancy_spec _ erl found.provider).2.1.ids]
  exact ⟨(h.relocate herl _ _ found.address).addDependancy (hids _ ▸ herl) fun p hp =>
    hids found.address ▸ h.provider_of_found hfound p hp, hids _ ▸ herl⟩

/-- The loader can apply all relocations of the file, or rejects it before. -/
def Elf.Applicable (elf : Elf) : Prop :=
  elf.accepted = true → ∀ relocs ∈ elf.relocations, ∃ list, relocs = some list ∧
    ∀ reloc ∈ list, reloc.type ∈ [2, 4, 5, 6] ∧ reloc.target ≠ .unknown

/-- One relocation that can be applied. -/
theorem readReloc_applies {reloc : Reloc} (htype : reloc.type ∈ [2, 4, 5, 6]) (htarget : reloc.target ≠ .unknown)
    (s : Linker) (erl : ℕ) (bytes : BitVec 32) : (readReloc s erl bytes reloc).1 = true := by
  have hrelocate : ∀ addr, (relocate s erl reloc.offset reloc.type addr).1 = true := by
    intro addr
    simp only [mem_cons, not_mem_nil, or_false] at htype
    rcases htype with h | h | h | h <;> simp [relocate, applyReloc, h]
  unfold readReloc
  split
  · split
    · rfl
    · next found _ =>
      have hone := hrelocate found.address
      split
      · next hrun => rw [hrun] at hone; exact hone
      · rfl
  · exact hrelocate _
  · split
    · next found _ =>
      have hone := hrelocate found.address
      split
      · next hrun => rw [hrun] at hone; exact hone
      · rfl
    · exact hrelocate _
  · next hunknown => exact absurd hunknown htarget

/-- Relocations that can all be applied. -/
theorem readSections_applies {sections : List (Option (List Reloc))} (h : ∀ relocs ∈ sections, ∃ list,
      relocs = some list ∧ ∀ reloc ∈ list, reloc.type ∈ [2, 4, 5, 6] ∧ reloc.target ≠ .unknown)
    (erl : ℕ) (bytes : BitVec 32) (s : Linker) : (readSections erl bytes sections s).1 = true := by
  have hrelocs : ∀ (list : List Reloc), (∀ reloc ∈ list, reloc.type ∈ [2, 4, 5, 6] ∧ reloc.target ≠ .unknown) →
      ∀ s, (readRelocs erl bytes list s).1 = true := by
    intro list hlist
    induction list with
    | nil => exact fun _ => rfl
    | cons reloc rest ih =>
      intro s
      obtain ⟨htype, htarget⟩ := hlist reloc mem_cons_self
      have hone := readReloc_applies htype htarget s erl bytes
      rw [readRelocs]
      split
      · next hrun => rw [hrun] at hone; exact hone
      · exact ih (fun reloc hreloc => hlist reloc (mem_cons_of_mem _ hreloc)) _
  induction sections generalizing s with
  | nil => rfl
  | cons relocs rest ih =>
    obtain ⟨list, rfl, hlist⟩ := h relocs mem_cons_self
    have hone := hrelocs list hlist s
    rw [readSections]
    split
    · next hrun => rw [hrun] at hone; exact hone
    · exact ih (fun relocs hmem => h relocs (mem_cons_of_mem _ hmem)) _

/-- The symbols of a live module are exported. -/
theorem exportSymbols_spec (erl : ℕ) (bytes : BitVec 32) (symbols : List (String × BitVec 32)) (s : Linker) :
    Unmoved s (exportSymbols erl bytes symbols s) ∧
      (Live s → erl ∈ s.ids → Live (exportSymbols erl bytes symbols s)) := by
  induction symbols generalizing s with
  | nil => exact ⟨Unmoved.refl s, fun h _ => h⟩
  | cons entry rest ih =>
    obtain ⟨symbol, offset⟩ := entry
    obtain ⟨hsame, hlive⟩ := addSymbol_spec s (some erl) symbol (bytes + offset)
    obtain ⟨hsame', hlive'⟩ := ih (addSymbol s (some erl) symbol (bytes + offset)).2
    refine ⟨hsame.trans hsame', fun h herl => hlive' (hlive h fun k hk => ?_) (hsame.ids ▸ herl)⟩
    exact some.inj hk ▸ herl

/-- A new record. -/
theorem Live.allocate (h : Live s) (bytes : BitVec 32) (image : ℕ → BitVec 32) :
    Live (allocateErlRecord s bytes image) := by
  have hids : (allocateErlRecord s bytes image).ids = s.nextId :: s.ids := rfl
  have hfresh : s.nextId ∉ s.ids := fun hmem => lt_irrefl _ (h.fresh _ hmem)
  refine ⟨?_, ?_, fun k hk => lt_succ_of_lt (h.past k hk), h.once, ?_, ?_, ?_, ?_, h.globalSymbol, ?_, h.strayWrite⟩
  · rw [hids]
    exact nodup_cons.mpr ⟨hfresh, h.nodup⟩
  · rw [hids]
    exact forall_mem_cons.mpr ⟨lt_succ_self _, fun k hk => lt_succ_of_lt (h.fresh k hk)⟩
  · rw [hids]
    exact forall_mem_cons.mpr ⟨fun hmem => lt_irrefl _ (h.past _ hmem), h.alive⟩
  · exact fun d hd => mem_cons_of_mem _ (h.depender d hd)
  · exact fun d hd p hp => mem_cons_of_mem _ (h.provider d hd p hp)
  · exact forall_mem_cons.mpr ⟨by simp, h.symbol⟩
  · exact fun entry hentry => mem_cons_of_mem _ (h.loosy entry hentry)

/-- A file that is rejected leaves nothing behind. -/
theorem Live.reject (h : Live s) (bytes : BitVec 32) (image : ℕ → BitVec 32) (fromFile : Bool) :
    Live (failRead (allocateErlRecord s bytes image) s.nextId fromFile) := by
  have hfresh : s.nextId ∉ s.ids := fun hmem => lt_irrefl _ (h.fresh _ hmem)
  have hnew := h.allocate bytes image
  unfold failRead
  split
  · have hmem : s.nextId ∈ (allocateErlRecord s bytes image).ids := mem_cons_self
    refine hnew.destroy hmem (records_destroyErlRecord _ _) rfl rfl rfl (fun d hd => ⟨hd, ?_, ?_⟩) rfl ?_ rfl
    · exact fun heq => hfresh (heq ▸ h.depender d hd)
    · exact fun hp => hfresh (h.provider d hd _ hp)
    · rintro ⟨entry, hentry, heq⟩
      exact hfresh (heq ▸ h.loosy entry hentry)
  · exact hnew

/-- `read_erl` keeps the invariant; a failure to relocate a module in memory leaves its record. -/
theorem Live.readErl (h : Live s) (env : Env) {elf : Elf} {fromFile : Bool}
    (happlies : fromFile = true → elf.Applicable) : Live (readErl env s elf fromFile).2 := by
  unfold Erl.readErl
  dsimp only
  split
  · exact h.reject _ _ fromFile
  · next haccepted =>
    obtain ⟨hread, hmem⟩ := (h.allocate (env.base s.nextId) elf.image).readSections (env.base s.nextId)
      elf.relocations (show s.nextId ∈ _ from mem_cons_self)
    have hone : elf.Applicable → (Erl.readSections s.nextId (env.base s.nextId) elf.relocations
        (allocateErlRecord s (env.base s.nextId) elf.image)).1 = true :=
      fun happlies => readSections_applies (happlies (by simpa using haccepted)) _ _ _
    generalize Erl.readSections s.nextId (env.base s.nextId) elf.relocations
      (allocateErlRecord s (env.base s.nextId) elf.image) = result at hread hmem hone ⊢
    obtain ⟨ok, s₂⟩ := result
    cases ok with
    | false =>
      cases fromFile with
      | false => exact hread
      | true => exact absurd (hone (happlies rfl)) (by simp)
    | true => exact (exportSymbols_spec s.nextId (env.base s.nextId) elf.exports s₂).2 hread hmem

/-- The files that may be loaded as dependencies can be relocated and started. -/
def Env.Sound (env : Env) : Prop := ∀ name elf, env.files name = some elf → elf.Applicable ∧ elf.startResult = 0

/-- Loading dependencies keeps the invariant. -/
theorem Live.loadDependancies {env : Env} {load : Linker → Elf → Option (Option ℕ) × Linker}
    (hload : ∀ s name elf, env.files name = some elf → Live s → Live (load s elf).2) (names : List String)
    (h : Live s) : Live (loadDependancies env load names s).2 := by
  induction names generalizing s with
  | nil => exact h
  | cons d rest ih =>
    rw [Erl.loadDependancies]
    split
    · next elf _ helf =>
      have hone := hload s d elf helf h
      generalize load s elf = result at hone ⊢
      obtain ⟨done, s'⟩ := result
      cases done with
      | none => exact hone
      | some _ => exact ih hone
    · exact ih h

/-- `load_erl` keeps the invariant. -/
theorem Live.loadErl {env : Env} (henv : env.Sound) (depth : ℕ) {fromFile : Bool} {elf : Elf}
    (happlies : fromFile = true → elf.Applicable) (hstart : elf.startResult = 0) (h : Live s) :
    Live (loadErl env depth fromFile s elf).2 := by
  induction depth generalizing fromFile s elf with
  | zero => exact h
  | succ depth ih =>
    have hread := h.readErl env happlies
    rw [Erl.loadErl]
    generalize Erl.readErl env s elf fromFile = result at hread ⊢
    obtain ⟨done, s₁⟩ := result
    cases done with
    | none => exact hread
    | some erl =>
      have hnamed : Live (nameErl s₁ erl elf) :=
        hread.setRecord erl (fun _ => rfl) fun r hr _ entry hentry => hread.symbol r hr entry hentry
      dsimp only
      generalize nameErl s₁ erl elf = s₂ at hnamed ⊢
      have hload : ∀ s name file, env.files name = some file → Live s →
        Live (Erl.loadErl env depth true s file).2 :=
        fun s name file hfile hs => ih (fun _ => (henv name file hfile).1) (henv name file hfile).2 hs
      have hdeps := hnamed.loadDependancies hload (((s₂.record erl).map Record.dependancies).getD [])
      generalize Erl.loadDependancies env (Erl.loadErl env depth true)
        (((s₂.record erl).map Record.dependancies).getD []) s₂ = result at hdeps ⊢
      obtain ⟨done, s₃⟩ := result
      cases done with
      | none => exact hdeps
      | some _ =>
        dsimp only
        rw [startErl, hstart, if_neg (by simp)]
        exact hdeps

theorem Live.finish {A : Type} {result : Option A × Linker} (h : Live result.2) : Live (finish result).2 := by
  obtain ⟨done, s⟩ := result
  cases done with
  | none => exact { h with }
  | some _ => exact h

/-- Files that are loaded can be relocated and started. What is unloaded is in the list and waits for no symbol, and
no module that waits is named as a dependency. -/
def Careful (env : Env) (s : Linker) : Event → Prop
  | .loadErl elf fromFile => (fromFile = true → elf.Applicable) ∧ elf.startResult = 0 ∧ env.Sound
  | .unloadErl erl => erl ∈ s.ids ∧ ¬ s.Waits erl ∧ s.Unnamed
  | _ => True

/-- Every careful call keeps the invariant. -/
theorem Live.step {env : Env} {e : Event} (h : Live s) (depth : ℕ) (hcareful : Careful env s e) :
    Live (step env depth s e).2 := by
  unfold Erl.step
  split
  · exact h
  · cases e with
    | loadErl elf fromFile =>
      obtain ⟨happlies, hstart, henv⟩ := hcareful
      exact (h.loadErl henv depth happlies hstart).finish
    | unloadErl erl =>
      obtain ⟨hmem, hwaits, hunnamed⟩ := hcareful
      have hunloaded : Settled (Erl.unloadErl depth s erl).2 := Settled.unloadErl ⟨h, hunnamed⟩ depth hmem hwaits
      exact hunloaded.live.finish
    | addGlobalSymbol symbol address =>
      exact (addSymbol_spec s none symbol address).2 h fun k hk => absurd hk (by simp)
    | setSticky erl sticky =>
      exact h.setRecord erl (fun _ => rfl) fun r hr _ entry hentry => h.symbol r hr entry hentry

end Ps2sdk.Erl
