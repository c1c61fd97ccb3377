import Mathlib.Data.List.Basic
import Mathlib.Data.Int.Notation

/-!
# Extended attributes

The attribute block of an inode and the routines of `pfs_fioctl.c` on it. An entry has the lengths of its
key and its value, the length it was allocated, and then the key and the value. The walk over the entries
compares its bounds the wrong way around, so it ends before the first entry.
-/

namespace Ps2sdk.Pfs

open List

/-- The bytes of a string without its terminator. -/
abbrev Str := List (BitVec 8)

/-- The 1024 bytes of an attribute block. -/
abbrev AttrBlock := ℕ → BitVec 8

namespace AttrBlock

variable (b : AttrBlock) (o : ℕ)

/-- `kLen` of the entry at an offset. -/
def kLen : ℕ := (b o).toNat

/-- `vLen` of the entry at an offset. -/
def vLen : ℕ := (b (o + 1)).toNat

/-- `aLen` of the entry at an offset. -/
def aLen : ℕ := (b (o + 2)).toNat + 256 * (b (o + 3)).toNat

/-- The bytes of a block from an offset. -/
def bytes (o len : ℕ) : Str := (List.range len).map fun i => b (o + i)

/-- `memcpy` of a string to an offset. -/
def setBytes (str : Str) : AttrBlock :=
  fun i => if o ≤ i ∧ i < o + str.length then str.getD (i - o) 0 else b i

/-- Set `aLen`. -/
def setALen (o len : ℕ) : AttrBlock :=
  b.setBytes (o + 2) [BitVec.ofNat 8 len, BitVec.ofNat 8 (len / 256)]

/-- Set `kLen` and `vLen`. -/
def setLens (o kLen vLen : ℕ) : AttrBlock :=
  b.setBytes o [BitVec.ofNat 8 kLen, BitVec.ofNat 8 vLen]

end AttrBlock

/-- The size of an entry, rounded up to words. -/
def entrySize (kLen vLen : ℕ) : ℕ := (kLen + vLen + 7) / 4 * 4

/-- The modes of `getAentry`. -/
inductive AttrMode
  | lookup
  | add
  | delete

variable (b : AttrBlock)

/-- The entry at an offset has the key. -/
def AttrBlock.hasKey (o : ℕ) (key : Str) : Bool :=
  key.length == b.kLen o && b.bytes (o + 4) key.length == key

/-- The loop of `getAentry`, for as many turns as are given; pointers are offsets into the block. -/
def aentryLoop (key : Str) (fullsize : ℕ) (mode : AttrMode) :
    ℕ → AttrBlock → ℕ → Option ℕ → Option (Option ℕ × AttrBlock)
  | 0, _, _, _ => none
  | turns + 1, b, aentry, aentryLast =>
    if ¬1024 < aentry then some (none, b)
    else if b.aLen aentry < entrySize (b.kLen aentry) (b.vLen aentry) then some (none, b)
    else
      match mode with
      | .lookup =>
        if b.hasKey aentry key then some (some aentry, b)
        else aentryLoop key fullsize mode turns b (aentry + b.aLen aentry) aentryLast
      | .add =>
        if b.kLen aentry = 0 ∧ fullsize ≤ b.aLen aentry then some (some aentry, b)
        else if b.aLen aentry - entrySize (b.kLen aentry) (b.vLen aentry) < fullsize then
          aentryLoop key fullsize mode turns b (aentry + b.aLen aentry) aentryLast
        else some (some aentry, b)
      | .delete =>
        if b.hasKey aentry key then
          match aentryLast with
          | some last => some (some aentry, b.setALen last (b.aLen last + b.aLen aentry))
          | none => some (some aentry, b.setLens aentry 0 0)
        else aentryLoop key fullsize mode turns b (aentry + b.aLen aentry) (some aentry)

variable (turns : ℕ)

/-- `getAentry`; the value matters in `add` mode only, where it is not `NULL`. -/
def getAentry (b : AttrBlock) (key value : Str) (mode : AttrMode) : Option (Option ℕ × AttrBlock) :=
  aentryLoop key (entrySize key.length value.length) mode turns b 0 none

/-- The end of `ioctl2AttrAdd`: a new entry in the room of the one found. -/
def placeAentry (aentry : ℕ) (key value : Str) : AttrBlock :=
  let tmp := if b.kLen aentry = 0 then b.aLen aentry
    else b.aLen aentry - entrySize (b.kLen aentry) (b.vLen aentry)
  let new := aentry + (b.aLen aentry - tmp)
  let b := b.setALen aentry (b.aLen aentry - tmp)
  let b := (b.setLens new key.length value.length).setALen new tmp
  (b.setBytes (new + 4) key).setBytes (new + 4 + key.length) value

/-- `ioctl2AttrAdd`. -/
def ioctl2AttrAdd (b : AttrBlock) (key value : Str) : Option (ℤ × AttrBlock) :=
  if 256 ≤ key.length ∨ 256 ≤ value.length then some (-22, b)
  else if key.length = 0 ∨ value.length = 0 then some (-22, b)
  else
    match getAentry turns b key [] .lookup with
    | none => none
    | some (some _, b) => some (-17, b)
    | some (none, b) =>
      match getAentry turns b key value .add with
      | none => none
      | some (none, b) => some (-28, b)
      | some (some aentry, b) => some (0, placeAentry b aentry key value)

/-- `ioctl2AttrDelete`. -/
def ioctl2AttrDelete (b : AttrBlock) (key : Str) : Option (ℤ × AttrBlock) :=
  match getAentry turns b key [] .delete with
  | none => none
  | some (none, b) => some (-2, b)
  | some (some _, b) => some (0, b)

/-- `ioctl2AttrLoopUp`: the result and the value that is returned. -/
def ioctl2AttrLoopUp (b : AttrBlock) (key : Str) : Option (ℤ × Str) :=
  match getAentry turns b key [] .lookup with
  | none => none
  | some (none, _) => some (-2, [])
  | some (some aentry, b) => some (b.vLen aentry, b.bytes (aentry + 4 + b.kLen aentry) (b.vLen aentry))

/-- A call on the attributes of a file. -/
inductive AttrCall
  | add (key value : Str)
  | delete (key : Str)
  | lookup (key : Str)

/-- One call, with its result and the value it returns. -/
def attrStep (b : AttrBlock) : AttrCall → Option (ℤ × Str) × AttrBlock
  | .add key value =>
    match ioctl2AttrAdd turns b key value with
    | none => (none, b)
    | some (result, b) => (some (result, []), b)
  | .delete key =>
    match ioctl2AttrDelete turns b key with
    | none => (none, b)
    | some (result, b) => (some (result, []), b)
  | .lookup key => (ioctl2AttrLoopUp turns b key, b)

/-- Keys and values have 1 to 255 bytes. -/
def AttrCall.Valid : AttrCall → Prop
  | .add key value => (0 < key.length ∧ key.length < 256) ∧ 0 < value.length ∧ value.length < 256
  | .delete key => 0 < key.length ∧ key.length < 256
  | .lookup key => 0 < key.length ∧ key.length < 256

/-- A call that adds an attribute. -/
def AttrCall.isAdd : AttrCall → Bool
  | .add _ _ => true
  | _ => false

/-- The offsets of the entries of a block, if they tile its 1024 bytes from an offset on. -/
def AttrBlock.entriesFrom (b : AttrBlock) : ℕ → ℕ → Option (List ℕ)
  | 0, _ => none
  | turns + 1, o =>
    if o = 1024 then some []
    else if 1024 < o + b.aLen o then none
    else (b.entriesFrom turns (o + b.aLen o)).map (o :: ·)

/-- The offsets of the entries of a block; an entry has at least four bytes. -/
def AttrBlock.entries : Option (List ℕ) := b.entriesFrom 257 0

variable (attrs : Str → Option Str) (result : Option (ℤ × Str))

/-- The attributes as a map, after a call with its result. -/
def AttrCall.apply : AttrCall → Str → Option Str
  | .add key value => fun k => if k = key ∧ result = some (0, []) then some value else attrs k
  | .delete key => fun k => if k = key then none else attrs k
  | .lookup _ => attrs

/-- The result of a call is right for the map: a lookup returns the value of its key, and an add fails for want
of space only when no entry has room. -/
def AttrCall.Right : AttrCall → Prop
  | .add key value => result = some (-28, []) → ∀ entries, b.entries = some entries →
      ∀ o ∈ entries, b.aLen o - entrySize (b.kLen o) (b.vLen o) < entrySize key.length value.length
  | .delete _ => True
  | .lookup key => result = match attrs key with
    | some value => some (value.length, value)
    | none => some (-2, [])

/-- All calls are right, and the entries tile the block all along. -/
def AttrsRight (turns : ℕ) : AttrBlock → (Str → Option Str) → List AttrCall → Prop
  | b, _, [] => b.entries.isSome
  | b, attrs, c :: rest =>
    b.entries.isSome ∧ c.Right b attrs (attrStep turns b c).1 ∧
      AttrsRight turns (attrStep turns b c).2 (c.apply attrs (attrStep turns b c).1) rest

/-- An attribute block with one empty entry. -/
def freshAttrs : AttrBlock := fun o => if o = 3 then 4 else 0

theorem getAentry_none (b : AttrBlock) (key value : Str) (mode : AttrMode) :
    getAentry (turns + 1) b key value mode = some (none, b) := by
  unfold getAentry aentryLoop
  exact if_pos (by omega)

/-- Every add fails for want of space. -/
theorem attrStep_add (b : AttrBlock) {key value : Str} (h : (AttrCall.add key value).Valid) :
    attrStep (turns + 1) b (.add key value) = (some (-28, []), b) := by
  obtain ⟨⟨hkey, hkey'⟩, hvalue, hvalue'⟩ := h
  have hadd : ioctl2AttrAdd (turns + 1) b key value = some (-28, b) := by
    unfold ioctl2AttrAdd
    rw [if_neg (by omega), if_neg (by omega), getAentry_none]
    dsimp only
    rw [getAentry_none]
  simp only [attrStep, hadd]

theorem attrStep_delete (b : AttrBlock) (key : Str) :
    attrStep (turns + 1) b (.delete key) = (some (-2, []), b) := by
  simp only [attrStep, ioctl2AttrDelete, getAentry_none]

theorem attrStep_lookup (b : AttrBlock) (key : Str) :
    attrStep (turns + 1) b (.lookup key) = (some (-2, []), b) := by
  simp only [attrStep, ioctl2AttrLoopUp, getAentry_none]

theorem freshAttrs_entries : freshAttrs.entries = some [0] := by decide

theorem AttrCall.apply_delete_empty (key : Str) (result : Option (ℤ × Str)) :
    (AttrCall.delete key).apply (fun _ => none) result = fun _ => none := by
  funext k
  exact ite_self none

variable (calls : List AttrCall)

/-- Without entries lookups are right as long as nothing was added. -/
theorem attrsRight_of_no_add (h : ∀ c ∈ calls, c.isAdd = false) :
    AttrsRight (turns + 1) freshAttrs (fun _ => none) calls := by
  induction calls with
  | nil => rfl
  | cons c rest ih =>
    have hrest := ih fun d hd => h d (mem_cons_of_mem _ hd)
    refine ⟨rfl, ?_⟩
    cases c with
    | add key value => exact absurd (h _ mem_cons_self) (by simp [AttrCall.isAdd])
    | delete key =>
      rw [attrStep_delete]
      rw [AttrCall.apply_delete_empty]
      exact ⟨trivial, hrest⟩
    | lookup key =>
      rw [attrStep_lookup]
      exact ⟨rfl, hrest⟩

/-- The attributes behave as a map exactly as long as nothing is added to it: the first add fails for want of
space although the whole block is free. -/
theorem attributes_right_iff (hvalid : ∀ c ∈ calls, c.Valid) :
    AttrsRight (turns + 1) freshAttrs (fun _ => none) calls ↔ ∀ c ∈ calls, c.isAdd = false := by
  refine ⟨fun hright => ?_, attrsRight_of_no_add turns calls⟩
  induction calls with
  | nil => exact fun c hc => absurd hc not_mem_nil
  | cons c rest ih =>
    obtain ⟨-, hc, hrest⟩ := hright
    have hvalid' := fun d hd => hvalid d (mem_cons_of_mem _ hd)
    refine forall_mem_cons.mpr ?_
    cases c with
    | add key value =>
      have hadd := hvalid _ mem_cons_self
      rw [attrStep_add turns _ hadd] at hc
      have hroom := hc rfl [0] freshAttrs_entries 0 mem_cons_self
      obtain ⟨⟨-, hkey⟩, -, hvalue⟩ := hadd
      have hfree : freshAttrs.aLen 0 - entrySize (freshAttrs.kLen 0) (freshAttrs.vLen 0) = 1020 := by decide
      rw [hfree] at hroom
      unfold entrySize at hroom
      omega
    | delete key =>
      rw [attrStep_delete] at hrest
      rw [AttrCall.apply_delete_empty] at hrest
      exact ⟨rfl, ih hvalid' hrest⟩
    | lookup key =>
      rw [attrStep_lookup] at hrest
      exact ⟨rfl, ih hvalid' hrest⟩

/-- Lookups of a fresh block. -/
theorem attributes_right_lookup : AttrsRight 1 freshAttrs (fun _ => none) [.lookup [0x61], .delete [0x61]] ↔
      ∀ c ∈ [AttrCall.lookup [0x61], .delete [0x61]], c.isAdd = false :=
  attributes_right_iff 0 [.lookup [0x61], .delete [0x61]] (by simp [AttrCall.Valid])

/-- An attribute of two bytes does not fit into a fresh block. -/
theorem attrAdd_fresh_noSpace : (AttrCall.add [0x61] [0x62]).Valid ∧
      attrStep 1 freshAttrs (.add [0x61] [0x62]) = (some (-28, []), freshAttrs) ∧
      freshAttrs.entries = some [0] ∧
      entrySize 1 1 ≤ freshAttrs.aLen 0 - entrySize (freshAttrs.kLen 0) (freshAttrs.vLen 0) :=
  ⟨by simp [AttrCall.Valid], attrStep_add 0 freshAttrs (by simp [AttrCall.Valid]), by decide, by decide⟩

end Ps2sdk.Pfs
