import Mathlib.Data.List.Basic
import Mathlib.Data.Int.Notation

/-!
# The relocatable ELF loader

erl.c keeps a list of loaded modules, a list of which module was linked against which, a table of
global symbols, and a table of relocations that wait for a symbol. A record is named by a number that
is never used again, so that an entry which refers to a destroyed record can be recognised.

An ELF file is given by what the loader takes from it: the relocations with the symbol each refers to,
the symbols it exports, and what its code does. Modules may fail to load at any point. The words of a
module are addressed by their offset into it. Allocation failures and the symbol strings are left out,
and the `_init` and `_fini` functions of a module do not call the loader.

Loading and unloading follow the lists of dependencies recursively; a recursion that does not end has no
result. The history variables `destroyed` and `strayWrite` are not read.
-/

namespace Ps2sdk.Erl

/-- `symbol_t`; a global symbol has no provider. -/
structure Symbol where
  provider : Option ℕ
  address : BitVec 32

/-- `erl_record_t`. -/
structure Record where
  id : ℕ
  bytes : BitVec 32
  name : Option String := none
  dependancies : List String := []
  sticky : Bool := false
  symbols : List (String × Symbol) := []

/-- `loosy_t`. -/
structure Loosy where
  erl : ℕ
  reloc : ℕ
  type : ℕ

/-- `dependancy_t`; a module that uses a global symbol depends on no record. -/
structure Dependancy where
  depender : ℕ
  provider : Option ℕ

/-- The global variables of the loader, the words of the modules, and the history. -/
structure Linker where
  records : List Record := []
  dependancies : List Dependancy := []
  globalSymbols : List (String × Symbol) := []
  loosyRelocs : List (String × Loosy) := []
  words : ℕ → ℕ → BitVec 32 := fun _ _ => 0
  nextId : ℕ := 0
  hung : Bool := false
  destroyed : List ℕ := []
  strayWrite : Bool := false

/-- What a relocation refers to: an external symbol, a section, or an object or function of the module
with its offset. -/
inductive Target
  | external (symbol : String)
  | section (offset : BitVec 32)
  | internal (symbol : String) (offset : BitVec 32)
  | unknown

/-- An entry of a relocation section. -/
structure Reloc where
  offset : ℕ
  type : ℕ
  target : Target

/-- What the loader takes from an ELF file. A file that is not `accepted` is rejected before it is
relocated; a relocation section may have an inconsistent size. -/
structure Elf where
  accepted : Bool := true
  image : ℕ → BitVec 32 := fun _ => 0
  relocations : List (Option (List Reloc)) := []
  exports : List (String × BitVec 32) := []
  erlId : String := ""
  erlDependancies : List String := []
  startResult : ℤ := 0

/-- The files that can be loaded as dependencies, and the addresses at which modules are placed. -/
structure Env where
  files : String → Option Elf
  base : ℕ → BitVec 32

/-- `apply_reloc`, on the word to be changed. -/
def applyReloc (word : BitVec 32) (type : ℕ) (addr : BitVec 32) : Option (BitVec 32) :=
  let low := (word <<< 16).sshiftRight 16
  match type with
  | 2 => some (word + addr)
  | 4 => some ((word &&& 0xfc000000) ||| (((word &&& 0x03ffffff) + (addr >>> 2)) &&& 0x3ffffff))
  | 5 => some ((word &&& 0xffff0000) |||
      ((low + (addr >>> 16) + (if 0x8000 ≤ (addr &&& 0xffff).toNat then 1 else 0)) &&& 0xffff))
  | 6 => some ((word &&& 0xffff0000) ||| ((low + (addr &&& 0xffff)) &&& 0xffff))
  | _ => none

variable (s : Linker)

/-- Apply a relocation to a word of a module. -/
def relocate (erl reloc type : ℕ) (addr : BitVec 32) : Bool × Linker :=
  match applyReloc (s.words erl reloc) type addr with
  | none => (false, s)
  | some word =>
    (true, { s with words := Function.update s.words erl (Function.update (s.words erl) reloc word)
                    strayWrite := s.strayWrite || s.destroyed.contains erl })

variable (symbols : List (String × Symbol)) (symbol : String)

/-- `hfind`. -/
def lookup : Option Symbol :=
  (symbols.find? fun entry => entry.1 == symbol).map Prod.snd

/-- The record with a number. -/
def Linker.record (s : Linker) (erl : ℕ) : Option Record := s.records.find? fun r => r.id == erl

variable (erl : ℕ)

/-- Change the record with a number. -/
def Linker.setRecord (f : Record → Record) : Linker :=
  { s with records := s.records.map fun r => if r.id = erl then f r else r }

/-- `r_find_symbol`. -/
def rFindSymbol (symbol : String) : List Record → Option Symbol
  | [] => none
  | r :: rest =>
    match lookup r.symbols symbol with
    | some s => some s
    | none => rFindSymbol symbol rest

/-- `erl_find_symbol`. -/
def erlFindSymbol : Option Symbol :=
  match lookup s.globalSymbols symbol with
  | some found => some found
  | none => rFindSymbol symbol s.records

/-- `erl_find_local_symbol`. -/
def erlFindLocalSymbol (erl : ℕ) : Option Symbol :=
  match s.record erl with
  | none => none
  | some r => lookup r.symbols symbol

/-- `find_erl`. -/
def findErl (name : String) : Option ℕ :=
  (s.records.find? fun r => r.name == some name).map Record.id

/-- `add_dependancy`. -/
def addDependancy (depender : ℕ) (provider : Option ℕ) : Linker :=
  if some depender = provider then s
  else { s with dependancies := ⟨depender, provider⟩ :: s.dependancies }

/-- `destroy_dependancy_r`. -/
def destroyDependancyR : Linker :=
  { s with dependancies := s.dependancies.filter fun d => d.depender != erl }

/-- `add_loosy`. -/
def addLoosy (erl reloc type : ℕ) (symbol : String) : Linker :=
  { s with loosyRelocs := (symbol, ⟨erl, reloc, type⟩) :: s.loosyRelocs }

variable (provider : Option ℕ)

/-- One round of the loop of `fix_loosy`, which ignores whether the relocation can be applied. -/
def fixOne (address : BitVec 32) (s : Linker) (l : Loosy) : Linker :=
  addDependancy (relocate s l.erl l.reloc l.type address).2 l.erl provider

/-- `fix_loosy`. -/
def fixLoosy (symbol : String) (address : BitVec 32) : Linker :=
  let waiting := (s.loosyRelocs.filter fun entry => entry.1 == symbol).map Prod.snd
  let s := waiting.foldl (fixOne provider address) s
  { s with loosyRelocs := s.loosyRelocs.filter fun entry => entry.1 != symbol }

/-- `local_names`. -/
def localNames : List String :=
  ["_init", "_fini", "erl_id", "erl_dependancies", "erl_copyright", "erl_version", "_start"]

/-- `hadd`: a symbol that is there already stays. -/
def hadd (s : Symbol) : List (String × Symbol) :=
  if (lookup symbols symbol).isSome then symbols else (symbol, s) :: symbols

/-- `add_symbol`. -/
def addSymbol (erl : Option ℕ) (symbol : String) (address : BitVec 32) : Bool × Linker :=
  if !localNames.contains symbol && (erlFindSymbol s symbol).isSome then (false, s)
  else
    let s := fixLoosy s erl symbol address
    match erl with
    | none => (true, { s with globalSymbols := hadd s.globalSymbols symbol ⟨none, address⟩ })
    | some id =>
      (true, s.setRecord id fun r => { r with symbols := hadd r.symbols symbol ⟨some id, address⟩ })

/-- `erl_add_global_symbol`. -/
def erlAddGlobalSymbol (address : BitVec 32) : Bool × Linker :=
  addSymbol s none symbol address

/-- `allocate_erl_record`, with the module at its place. -/
def allocateErlRecord (bytes : BitVec 32) (image : ℕ → BitVec 32) : Linker :=
  { s with records := { id := s.nextId, bytes := bytes } :: s.records, nextId := s.nextId + 1
           words := Function.update s.words s.nextId image }

/-- `erl_flush_symbols`. -/
def erlFlushSymbols : Linker := s.setRecord erl fun r => { r with symbols := [] }

/-- `destroy_erl_record`. -/
def destroyErlRecord : Linker :=
  let s := erlFlushSymbols s erl
  { s with records := s.records.filter fun r => r.id != erl, destroyed := erl :: s.destroyed }

/-- One relocation of `read_erl`; the result says whether it could be applied. -/
def readReloc (bytes : BitVec 32) (reloc : Reloc) : Bool × Linker :=
  match reloc.target with
  | .external symbol =>
    match erlFindSymbol s symbol with
    | none => (true, addLoosy s erl reloc.offset reloc.type symbol)
    | some found =>
      match relocate s erl reloc.offset reloc.type found.address with
      | (false, s) => (false, s)
      | (true, s) => (true, addDependancy s erl found.provider)
  | .section offset => relocate s erl reloc.offset reloc.type (bytes + offset)
  | .internal symbol offset =>
    match erlFindSymbol s symbol with
    | some found =>
      match relocate s erl reloc.offset reloc.type found.address with
      | (false, s) => (false, s)
      | (true, s) => (true, addDependancy s erl found.provider)
    | none => relocate s erl reloc.offset reloc.type (bytes + offset)
  | .unknown => (false, s)

/-- The relocations of one section. -/
def readRelocs (erl : ℕ) (bytes : BitVec 32) : List Reloc → Linker → Bool × Linker
  | [], s => (true, s)
  | reloc :: rest, s =>
    match readReloc s erl bytes reloc with
    | (false, s) => (false, s)
    | (true, s) => readRelocs erl bytes rest s

/-- The relocation sections. -/
def readSections (erl : ℕ) (bytes : BitVec 32) : List (Option (List Reloc)) → Linker → Bool × Linker
  | [], s => (true, s)
  | none :: _, s => (false, s)
  | some relocs :: rest, s =>
    match readRelocs erl bytes relocs s with
    | (false, s) => (false, s)
    | (true, s) => readSections erl bytes rest s

/-- The symbols that a module exports; one that exists already is skipped. -/
def exportSymbols (erl : ℕ) (bytes : BitVec 32) : List (String × BitVec 32) → Linker → Linker
  | [], s => s
  | (symbol, offset) :: rest, s => exportSymbols erl bytes rest (addSymbol s (some erl) symbol (bytes + offset)).2

/-- A failed `read_erl`: the record of a file is destroyed, the one of a module in memory stays. -/
def failRead (fromFile : Bool) : Linker :=
  if fromFile then destroyErlRecord s erl else s

/-- `read_erl`. -/
def readErl (env : Env) (s : Linker) (elf : Elf) (fromFile : Bool) : Option ℕ × Linker :=
  let erl := s.nextId
  let bytes := env.base erl
  let s := allocateErlRecord s bytes elf.image
  if !elf.accepted then (none, failRead s erl fromFile)
  else
    match readSections erl bytes elf.relocations s with
    | (false, s) => (none, failRead s erl fromFile)
    | (true, s) => (some erl, exportSymbols erl bytes elf.exports s)

/-- `r_unload_dependancies`: the last one first. -/
def rUnloadDependancies (unload : Linker → ℕ → Option Bool × Linker) : List String → Linker → Option Unit × Linker
  | [], s => (some (), s)
  | d :: rest, s =>
    match rUnloadDependancies unload rest s with
    | (none, s) => (none, s)
    | (some (), s) =>
      match findErl s d with
      | none => (some (), s)
      | some erl => ((unload s erl).1.map fun _ => (), (unload s erl).2)

/-- The end of `unload_erl`, once the dependencies are unloaded. -/
def finishUnload : Linker :=
  destroyErlRecord (destroyDependancyR (erlFlushSymbols s erl) erl) erl

/-- `unload_erl`, to a depth of recursion. A record that is not in the list any more is destroyed once more. -/
def unloadErl : ℕ → Linker → ℕ → Option Bool × Linker
  | 0, s, _ => (none, s)
  | depth + 1, s, erl =>
    match s.record erl with
    | none => (some true, { s with destroyed := erl :: s.destroyed })
    | some r =>
      if r.sticky then (some false, s)
      else if s.dependancies.any fun d => d.provider == some erl then (some false, s)
      else
        match rUnloadDependancies (unloadErl depth) r.dependancies s with
        | (none, s) => (none, s)
        | (some (), s) => (some true, finishUnload s erl)

/-- The name and the dependencies of a module, if it has the symbols for them. -/
def nameErl (elf : Elf) : Linker :=
  let name := if (erlFindLocalSymbol s "erl_id" erl).isSome then some elf.erlId else none
  let dependancies := if (erlFindLocalSymbol s "erl_dependancies" erl).isSome then elf.erlDependancies else []
  s.setRecord erl fun r => { r with name := name, dependancies := dependancies }

/-- Load the dependencies of a module that are not there yet. -/
def loadDependancies (env : Env) (load : Linker → Elf → Option (Option ℕ) × Linker) :
    List String → Linker → Option Unit × Linker
  | [], s => (some (), s)
  | d :: rest, s =>
    match findErl s d, env.files d with
    | none, some elf =>
      match load s elf with
      | (none, s) => (none, s)
      | (some _, s) => loadDependancies env load rest s
    | _, _ => loadDependancies env load rest s

/-- The end of `load_erl`: a module whose `_start` fails is unloaded. -/
def startErl (depth : ℕ) (s : Linker) (erl : ℕ) (elf : Elf) : Option (Option ℕ) × Linker :=
  if (erlFindLocalSymbol s "_start" erl).isSome && elf.startResult != 0 then
    match unloadErl depth s erl with
    | (none, s) => (none, s)
    | (some true, s) => (some none, s)
    | (some false, s) => (some (some erl), s)
  else (some (some erl), s)

/-- `load_erl`, to a depth of recursion. -/
def loadErl (env : Env) : ℕ → Bool → Linker → Elf → Option (Option ℕ) × Linker
  | 0, _, s, _ => (none, s)
  | depth + 1, fromFile, s, elf =>
    match readErl env s elf fromFile with
    | (none, s) => (some none, s)
    | (some erl, s) =>
      let s := nameErl s erl elf
      let dependancies := ((s.record erl).map Record.dependancies).getD []
      match loadDependancies env (loadErl env depth true) dependancies s with
      | (none, s) => (none, s)
      | (some (), s) => startErl depth s erl elf

/-- What a program does with the loader. -/
inductive Event
  | loadErl (elf : Elf) (fromFile : Bool)
  | unloadErl (erl : ℕ)
  | addGlobalSymbol (symbol : String) (address : BitVec 32)
  | setSticky (erl : ℕ) (sticky : Bool)

/-- The result of a call, or a recursion that does not end. -/
def finish {A : Type} (result : Option A × Linker) : Bool × Linker :=
  match result with
  | (some _, s) => (true, s)
  | (none, s) => (false, { s with hung := true })

/-- One call. -/
def step (env : Env) (depth : ℕ) (s : Linker) (e : Event) : Bool × Linker :=
  if s.hung then (false, s)
  else
    match e with
    | .loadErl elf fromFile => finish (loadErl env depth fromFile s elf)
    | .unloadErl erl => finish (unloadErl depth s erl)
    | .addGlobalSymbol symbol address => erlAddGlobalSymbol s symbol address
    | .setSticky erl sticky => (true, s.setRecord erl fun r => { r with sticky := sticky })

end Ps2sdk.Erl
