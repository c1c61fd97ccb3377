import Ps2sdk.Erl.Unload

/-!
# What read_erl does to instructions and lists

`apply_reloc` relocates the two halves of an address one by one, with a carry that depends on the address only. A
`read_erl` that fails leaves behind the entries that its relocations have made in the lists of the linker, and the
record of a module in memory.
-/

namespace Ps2sdk.Erl

open BitVec

variable (word : BitVec 32)

/-- The immediate of an instruction. -/
def immediate : BitVec 16 := word.setWidth 16

/-- The rest of an instruction. -/
def opcode : BitVec 16 := word.extractLsb' 16 16

/-- The addend that the immediates of two instructions encode. -/
def addend (hi lo : BitVec 32) : BitVec 32 :=
  ((immediate hi).setWidth 32 <<< 16) + (immediate lo).signExtend 32

/-- An instruction with a new immediate. -/
theorem withImmediate (word x : BitVec 32) :
    (word &&& 0xffff0000) ||| (x &&& 0xffff) = opcode word ++ immediate x := by
  have hupper : ∀ i : Fin 32, (0xffff0000 : BitVec 32)[i.1] = decide (16 ≤ i.1) := by decide
  have hlower : ∀ i : Fin 32, (0xffff : BitVec 32)[i.1] = decide (i.1 < 16) := by decide
  ext i hi
  rw [getElem_or, getElem_and, getElem_and, hupper ⟨i, hi⟩, hlower ⟨i, hi⟩, getElem_append]
  split
  · next hlow => simp [immediate, hlow, Nat.not_le.mpr hlow, getLsbD_eq_getElem hi]
  · next hhigh =>
    simp only [opcode, getElem_extractLsb', hhigh, Nat.not_lt.mp hhigh]
    grind

theorem immediate_signed : immediate ((word <<< 16).sshiftRight 16) = immediate word := by
  ext i hi
  simp only [immediate, getElem_setWidth, getLsbD_sshiftRight]
  grind

theorem toNat_lower (addr : BitVec 32) : (addr &&& 0xffff).toNat = (immediate addr).toNat := by
  simp [immediate, Nat.and_two_pow_sub_one_eq_mod _ 16]

theorem immediate_add (x y : BitVec 32) : immediate (x + y) = immediate x + immediate y := setWidth_add x y
    (by decide)

variable (word addr : BitVec 32)

/-- `R_MIPS_HI16` adds the upper half of the address, and one if its lower half is negative. -/
theorem applyReloc_hi16 : applyReloc word 5 addr = some (opcode word ++
    (immediate word + opcode addr + if 0x8000 ≤ (immediate addr).toNat then 1 else 0)) := by
  have hupper : immediate (addr >>> 16) = opcode addr := setWidth_ushiftRight_eq_extractLsb
  refine congrArg some ((withImmediate ..).trans ?_)
  rw [toNat_lower, immediate_add, immediate_add, immediate_signed, hupper, apply_ite immediate]
  rfl

/-- `R_MIPS_LO16` adds the lower half of the address. -/
theorem applyReloc_lo16 : applyReloc word 6 addr = some (opcode word ++ (immediate word + immediate addr)) := by
  have hlower : immediate (addr &&& 0xffff) = immediate addr := by
    rw [toNat_eq, immediate, toNat_setWidth, toNat_lower]
    exact Nat.mod_eq_of_lt (immediate addr).isLt
  refine congrArg some ((withImmediate ..).trans ?_)
  rw [immediate_add, immediate_signed, hlower]

/-- The pair of relocations gives the right address exactly when the low halves of the addend and of the address
do not overflow as signed numbers; the rest of both instructions stays. -/
theorem hi_lo_iff (hi lo addr : BitVec 32) :
    ∃ hi' lo', applyReloc hi 5 addr = some hi' ∧ applyReloc lo 6 addr = some lo' ∧
      opcode hi' = opcode hi ∧ opcode lo' = opcode lo ∧
      (addend hi' lo' = addr + addend hi lo ↔ saddOverflow (immediate addr) (immediate lo) = false) := by
  refine ⟨_, _, applyReloc_hi16 hi addr, applyReloc_lo16 lo addr, extractLsb'_append_eq_left,
    extractLsb'_append_eq_left, ?_⟩
  have himm : ∀ x y : BitVec 16, immediate (x ++ y) = y := fun _ _ => setWidth_append_eq_right
  rw [addend, himm, himm]
  have ha : addr.toNat = (opcode addr).toNat * 2 ^ 16 + (immediate addr).toNat := by
    simp [opcode, immediate]; omega
  simp only [addend, saddOverflow, toNat_eq, toNat_add, toNat_signExtend, toNat_shiftLeft, toInt_eq_toNat_cond,
    msb_eq_decide, toNat_setWidth, ha, Nat.shiftLeft_eq, decide_eq_true_eq]
  generalize opcode addr = a, immediate addr = b, immediate hi = h, immediate lo = l
  split_ifs <;> simp <;> omega

/-- `lui a0, 0` and `addiu a0, a0, 1` with an address whose lower half is the largest positive one: the result is
`0xffff8000` instead of `0x8000`. -/
theorem carry_lost : ∃ hi' lo', applyReloc 0x3c040000 5 0x7fff = some hi' ∧ applyReloc 0x24840001 6 0x7fff =
    some lo' ∧ addend hi' lo' = 0xffff8000 ∧ (0x7fff : BitVec 32) + addend 0x3c040000 0x24840001 = 0x8000 :=
  ⟨0x3c040000, 0x24848000, by decide, by decide, by decide, by decide⟩

/-- Whether `apply_reloc` knows the type. -/
def supported (type : ℕ) : Bool := type ∈ [2, 4, 5, 6]

/-- Whether a relocation can be carried out. -/
def Linker.carriesOut (s : Linker) (reloc : Reloc) : Bool :=
  match reloc.target with
  | .external symbol => (erlFindSymbol s symbol).isNone || supported reloc.type
  | .unknown => false
  | _ => supported reloc.type

/-- Whether a relocation of a module leaves an entry: it waits for a symbol or uses one of another module. -/
def Linker.notes (s : Linker) (erl : ℕ) (reloc : Reloc) : Bool :=
  match reloc.target with
  | .external symbol => (erlFindSymbol s symbol).all (·.provider != some erl)
  | .internal symbol _ => (erlFindSymbol s symbol).any (·.provider != some erl)
  | _ => false

/-- Whether one of the relocations before the first failure leaves an entry. -/
def notedBefore (carriesOut notes : Reloc → Bool) : List (Option (List Reloc)) → Bool
  | [] => false
  | none :: _ => false
  | some relocs :: rest => (relocs.takeWhile carriesOut).any notes ||
      (relocs.all carriesOut && notedBefore carriesOut notes rest)

/-- What a load that fails should leave as it was. -/
structure Unaffected (s s' : Linker) : Prop where
  records : s'.records = s.records
  dependancies : s'.dependancies = s.dependancies
  loosyRelocs : s'.loosyRelocs = s.loosyRelocs
  symbols : erlFindSymbol s' = erlFindSymbol s

/-- The symbols stay, and entries are added or not. -/
structure Noted (noted : Bool) (s s' : Linker) : Prop where
  records : s'.records = s.records
  globalSymbols : s'.globalSymbols = s.globalSymbols
  same : noted = false → s'.dependancies = s.dependancies ∧ s'.loosyRelocs = s.loosyRelocs
  more : noted = true → s.dependancies.length + s.loosyRelocs.length <
    s'.dependancies.length + s'.loosyRelocs.length

variable {s s' s'' : Linker} {a b : Bool}

theorem Noted.trans (h : Noted a s s') (h' : Noted b s' s'') : Noted (a || b) s s'' where
  records := h'.records.trans h.records
  globalSymbols := h'.globalSymbols.trans h.globalSymbols
  same hor := by grind [Noted]
  more hor := by grind [Noted]

theorem Noted.symbols (h : Noted a s s') : erlFindSymbol s' = erlFindSymbol s := by
  funext symbol
  rw [erlFindSymbol, erlFindSymbol, h.records, h.globalSymbols]

theorem Noted.reads (h : Noted a s s') (erl : ℕ) : s'.carriesOut = s.carriesOut ∧ s'.notes erl = s.notes erl := by
  constructor <;> funext reloc <;> simp only [Linker.carriesOut, Linker.notes, h.symbols]

theorem noted_relocate (s : Linker) (erl reloc type : ℕ) (addr : BitVec 32) :
    (relocate s erl reloc type addr).1 = supported type ∧ Noted false s (relocate s erl reloc type addr).2 := by
  obtain ⟨hrecords, hdependancies, hloosy, hglobal, -, -⟩ := relocate_spec s erl reloc type addr
  refine ⟨?_, hrecords, hglobal, fun _ => ⟨hdependancies, hloosy⟩, fun h => absurd h (by decide)⟩
  unfold relocate applyReloc supported
  grind

variable (erl : ℕ) (bytes : BitVec 32)

theorem readReloc_spec (reloc : Reloc) (s : Linker) : (readReloc s erl bytes reloc).1 = s.carriesOut reloc ∧
      Noted (s.carriesOut reloc && s.notes erl reloc) s (readReloc s erl bytes reloc).2 := by
  have hrelocate := noted_relocate s erl reloc.offset reloc.type
  unfold readReloc Linker.carriesOut Linker.notes addDependancy addLoosy
  grind [Noted]

/-- What the relocations of a section do. -/
theorem readRelocs_spec (relocs : List Reloc) (s : Linker) :
    (readRelocs erl bytes relocs s).1 = relocs.all s.carriesOut ∧
      Noted ((relocs.takeWhile s.carriesOut).any (s.notes erl)) s (readRelocs erl bytes relocs s).2 := by
  induction relocs generalizing s with
  | nil => exact ⟨rfl, rfl, rfl, fun _ => ⟨rfl, rfl⟩, nofun⟩
  | cons reloc rest ih =>
    obtain ⟨hok, hnoted⟩ := readReloc_spec erl bytes reloc s
    have hreads := hnoted.reads erl
    rw [readRelocs]
    generalize readReloc s erl bytes reloc = result at *
    obtain ⟨ok, s'⟩ := result
    cases ok with
    | false => simpa [← hok] using hnoted
    | true =>
      obtain ⟨hrest, hmore⟩ := ih s'
      rw [hreads.1] at hrest hmore
      rw [hreads.2] at hmore
      rw [← hok, Bool.true_and] at hnoted
      simpa [← hok] using ⟨hrest, hnoted.trans hmore⟩

/-- What the relocation sections do. -/
theorem readSections_spec (sections : List (Option (List Reloc))) (s : Linker) :
    Noted (notedBefore s.carriesOut (s.notes erl) sections) s (readSections erl bytes sections s).2 := by
  induction sections generalizing s with
  | nil => exact ⟨rfl, rfl, fun _ => ⟨rfl, rfl⟩, nofun⟩
  | cons relocs rest ih =>
    cases relocs with
    | none => exact ⟨rfl, rfl, fun _ => ⟨rfl, rfl⟩, nofun⟩
    | some relocs =>
      have hone := readRelocs_spec erl bytes relocs s
      have hreads := hone.2.reads erl
      have hrest := ih (readRelocs erl bytes relocs s).2
      unfold readSections notedBefore
      grind [Noted.trans]

/-- The state in which `read_erl` fails. -/
theorem readErl_failed (env : Env) (s : Linker) (elf : Elf) (fromFile : Bool)
    (hfail : (readErl env s elf fromFile).1 = none) :
    ∃ t, (readErl env s elf fromFile).2 = failRead t s.nextId fromFile ∧
      Noted (elf.accepted && notedBefore s.carriesOut (s.notes s.nextId) elf.relocations)
        (allocateErlRecord s (env.base s.nextId) elf.image) t := by
  have hnoted := readSections_spec s.nextId (env.base s.nextId) elf.relocations
    (allocateErlRecord s (env.base s.nextId) elf.image)
  revert hfail
  unfold readErl
  dsimp only
  cases elf.accepted with
  | false => exact fun _ => ⟨_, rfl, rfl, rfl, fun _ => ⟨rfl, rfl⟩, nofun⟩
  | true =>
    generalize readSections s.nextId _ elf.relocations _ = result at hnoted ⊢
    obtain ⟨ok, t⟩ := result
    cases ok with
    | false => exact fun _ => ⟨t, rfl, hnoted⟩
    | true => exact nofun

/-- A failed load leaves the linker as it was exactly when it was one of a file and no relocation before the failure
was linked to a symbol of another module or left waiting for one. -/
theorem failed_load_iff (env : Env) (depth : ℕ) (s : Linker) (elf : Elf) (fromFile : Bool)
    (hfresh : s.nextId ∉ s.ids) (hfail : (readErl env s elf fromFile).1 = none) :
    Unaffected s (loadErl env (depth + 1) fromFile s elf).2 ↔ fromFile = true ∧
      (elf.accepted && notedBefore s.carriesOut (s.notes s.nextId) elf.relocations) = false := by
  obtain ⟨t, ht, hnoted⟩ := readErl_failed env s elf fromFile hfail
  have hload : (loadErl env (depth + 1) fromFile s elf).2 = failRead t s.nextId fromFile := by
    rw [← ht, loadErl]
    generalize readErl env s elf fromFile = result at hfail
    obtain ⟨_, s'⟩ := result
    subst hfail
    rfl
  obtain ⟨hdependancies, hloosy, hglobal⟩ : (failRead t s.nextId fromFile).dependancies = t.dependancies ∧
      (failRead t s.nextId fromFile).loosyRelocs = t.loosyRelocs ∧
      (failRead t s.nextId fromFile).globalSymbols = t.globalSymbols := by
    unfold failRead
    split_ifs <;> exact ⟨rfl, rfl, rfl⟩
  rw [hload]
  constructor
  · intro h
    refine ⟨?_, ?_⟩
    · by_contra hmemory
      have hrecords := h.records
      rw [failRead, if_neg hmemory, hnoted.records] at hrecords
      exact List.cons_ne_self _ _ hrecords
    · by_contra hnotes
      have hmore := hnoted.more (Bool.eq_true_of_not_eq_false hnotes)
      rw [← hdependancies, ← hloosy, h.dependancies, h.loosyRelocs] at hmore
      exact Nat.lt_irrefl _ hmore
  · rintro ⟨rfl, hnone⟩
    have hrecords : (failRead t s.nextId true).records = s.records := by
      rw [failRead, if_pos rfl, records_destroyErlRecord, hnoted.records]
      refine (List.filter_cons_of_neg (by simp)).trans (List.filter_eq_self.mpr fun r hr => ?_)
      simpa using fun heq => hfresh (List.mem_map.mpr ⟨r, hr, heq⟩)
    obtain ⟨hsame, hsame'⟩ := hnoted.same hnone
    refine ⟨hrecords, hdependancies.trans hsame, hloosy.trans hsame', funext fun symbol => ?_⟩
    rw [erlFindSymbol, erlFindSymbol, hrecords, hglobal, hnoted.globalSymbols]
    rfl

/-- A file whose only relocation has an unknown type. -/
theorem failed_load_file : Unaffected {} (loadErl ⟨fun _ => none, fun _ => 0⟩ 1 true {}
    { relocations := [some [⟨0, 3, .section 0⟩]] }).2 :=
  (failed_load_iff _ 0 {} _ true (by decide) rfl).mpr ⟨rfl, rfl⟩

/-- A file whose first relocation waits for a symbol and whose second one has an unknown type: the relocation that
waits stays in the table although the module is gone. -/
theorem failed_load_waits : ¬ Unaffected {} (loadErl ⟨fun _ => none, fun _ => 0⟩ 1 true {}
    { relocations := [some [⟨0, 2, .external "foo"⟩, ⟨4, 3, .section 0⟩]] }).2 :=
  fun h => absurd (congrArg List.length h.loosyRelocs) (by decide)

end Ps2sdk.Erl
