import Ps2sdk.Apa.Hdd

/-!
# References of the driver

What each routine does to the references it holds, whatever the headers are and whether or not they can be read.
Every routine gives back what it takes, but for `apaDelete`: where a header cannot be read while the end of the list
is cut off, the reference to the first header stays.
-/

namespace Ps2sdk.Apa

open Lib ApaProg Multiset

variable {α : Type} {e : Ledger Header} {H : Multiset Word} {x : Word}

variable {Q : α → Multiset Word → Prop} {params : Params} {device : Device}

/-- Headers that differ from good ones in other fields than the type, the flags and the name are good, and free
space is. -/
structure Closed (good : Header → Prop) : Prop where
  empty : ∀ start next prev length created, good (emptyHeader start next prev length created)
  change : ∀ h h' : Header, h'.type = h.type → h'.flags = h.flags → h'.id = h.id → good h → good h'

/-- The program returns with a reference to the header it names, or with none. -/
def Returns (H : Multiset Word) (result : ℤ × Option Word) (held : Multiset Word) : Prop :=
  held = match result.2 with
    | some x => x ::ₘ H
    | none => H

theorem err_ne {err : ℤ} (h : err < 0) : err ≠ 0 := by omega

/-- Taking a header, which fails only if reading may fail or there is no buffer for it. -/
theorem accounts_get_of {f : ApaProg α} {g : ℤ → ApaProg α} (hsome : f.accounts e Q (x ::ₘ H))
    (hnone : e.fails ∨ x ∉ H ∧ e.capacity ≤ H.card → ∀ err < 0, (g err).accounts e Q H) :
    (getHeader x >>= fun err => if err ≠ 0 then g err else f).accounts e Q H := by
  refine ⟨?_, fun hfails err herr => ?_⟩
  · change (if (0 : ℤ) ≠ 0 then g 0 else f).accounts e Q (x ::ₘ H)
    rw [if_neg (not_not.mpr rfl)]
    exact hsome
  · change (if err ≠ 0 then g err else f).accounts e Q H
    rw [if_pos (err_ne herr)]
    exact hnone hfails err herr

theorem accounts_get {f : ApaProg α} {g : ℤ → ApaProg α} (hsome : f.accounts e Q (x ::ₘ H))
    (hnone : ∀ err < 0, (g err).accounts e Q H) :
    (getHeader x >>= fun err => if err ≠ 0 then g err else f).accounts e Q H :=
  accounts_get_of hsome fun _ => hnone

/-- Going on after a program that returns with a header or with none. -/
theorem accounts_returns {p : ApaProg (ℤ × Option Word)} {f : ℤ × Option Word → ApaProg α} {held : Multiset Word}
    (h : p.accounts e (Returns H) held) (hnone : ∀ err, (f (err, none)).accounts e Q H)
    (hsome : ∀ err y, (f (err, some y)).accounts e Q (y ::ₘ H)) : (p >>= f).accounts e Q held := by
  refine Prog.accounts_then h fun result held hheld => ?_
  rcases result with ⟨err, none | y⟩
  · rw [show held = H from hheld]
    exact hnone err
  · rw [show held = y ::ₘ H from hheld]
    exact hsome err y

theorem accounts_read {f : Header → ApaProg α}
    (h : ∀ record, e.good record → (f record).accounts e Q H) : (header x >>= f).accounts e Q H := h

theorem accounts_flush {f : Unit → ApaProg α} (h : (f ()).accounts e Q H) :
    (flushAllDirty >>= f).accounts e Q H := h

theorem accounts_free {f : Unit → ApaProg α} (h : (f ()).accounts e Q H) :
    (free x >>= f).accounts e Q (x ::ₘ H) := by
  refine ⟨mem_cons_self x H, ?_⟩
  rw [erase_cons_head]
  exact h

theorem accounts_free_of {f : Unit → ApaProg α} {held : Multiset Word}
    (hheld : held = x ::ₘ H) (h : (f ()).accounts e Q H) : (free x >>= f).accounts e Q held := by
  rw [hheld]
  exact accounts_free h

variable (he : Closed e.good)
  (hgood : ∀ x next prev length created, e.good (params.header x next prev length created))

include he

theorem Closed.set {f : Unit → ApaProg α} {change : Header → Header}
    (hsame : ∀ h, (change h).type = h.type ∧ (change h).flags = h.flags ∧ (change h).id = h.id)
    (h : (f ()).accounts e Q H) : (setHeader x change >>= f).accounts e Q H :=
  ⟨fun record hrecord => he.change record _ (hsame record).1 (hsame record).2.1 (hsame record).2.2 hrecord, h⟩

theorem Closed.makeEmpty {f : Unit → ApaProg α}
    (h : (f ()).accounts e Q H) : (apaMakeEmpty x >>= f).accounts e Q H :=
  fun _ => ⟨fun _ _ => he.empty .., h⟩

/-- `apaGetNextHeader`. -/
theorem Closed.nextHeader : (apaGetNextHeader x).accounts e (Returns H) (x ::ₘ H) := by
  refine accounts_read fun h _ => ?_
  refine accounts_free ?_
  split
  · exact rfl
  · refine accounts_get ?_ fun err _ => ?_
    · refine accounts_read fun next _ => ?_
      split
      · exact he.set (fun _ => ⟨rfl, rfl, rfl⟩) rfl
      · exact rfl
    · exact rfl

theorem Closed.walk {f : ℤ × Option Word → ApaProg α}
    (hnone : ∀ err, (f (err, none)).accounts e Q H) (hsome : ∀ err y, (f (err, some y)).accounts e Q (y ::ₘ H)) :
    (apaGetNextHeader x >>= f).accounts e Q (x ::ₘ H) :=
  accounts_returns he.nextHeader hnone hsome

/-- The loop of `apaFindPartition`. -/
theorem Closed.findLoop (id : Id) (turns : ℕ) : (Apa.findLoop id turns x).accounts e (Returns H) (x ::ₘ H) := by
  induction turns generalizing x with
  | zero => trivial
  | succ turns ih =>
    refine accounts_read fun h _ => ?_
    split
    · exact rfl
    · refine he.walk (fun err => ?_) fun err y => ih
      dsimp only
      split
      · exact rfl
      · exact rfl

theorem Closed.findPartition (id : Id) : (apaFindPartition id).accounts e (Returns H) H := by
  refine accounts_get ?_ fun err _ => ?_
  · exact he.findLoop id walkTurns
  · exact rfl

/-- What is done with the partition that `apaFindPartition` finds. -/
theorem Closed.find {f : ℤ × Option Word → ApaProg α} (id : Id)
    (hnone : ∀ err, (f (err, none)).accounts e Q H) (hsome : ∀ err y, (f (err, some y)).accounts e Q (y ::ₘ H)) :
    (apaFindPartition id >>= f).accounts e Q H :=
  accounts_returns (he.findPartition id) hnone hsome

omit he in
theorem accounts_fillHeader {next prev length : Word}
    (hgood : ∀ created, e.good (params.header x next prev length created)) :
    (apaFillHeader params x next prev length).accounts e (Returns H) H := by
  intro created
  refine ⟨hgood created, rfl, fun _ err herr => ?_⟩
  show (if err = 0 then _ else _ : ApaProg (ℤ × Option Word)).accounts e (Returns H) H
  rw [if_neg (err_ne herr)]
  exact rfl

/-- `apaRemovePartition`, where there is always a buffer or the driver does not return. -/
theorem Closed.removePartition {f : Word → ApaProg α} {next prev length : Word} (h : (f x).accounts e Q (x ::ₘ H)) :
    (apaRemovePartition x next prev length >>= fun
      | none => .trap
      | some new => f new).accounts e Q H := by
  intro created
  refine ⟨he.empty .., h, fun _ err herr => ?_⟩
  show (do
    let new ← (if err = 0 then pure (some x) else pure none : ApaProg (Option Word))
    match new with
      | none => .trap
      | some new => f new).accounts e Q H
  rw [if_neg (err_ne herr)]
  trivial

/-- The loop of `apaInsertPartition` holds the block, or gives it back with an error. -/
theorem Closed.insertLoop (size : Word) (turns : ℕ) :
    (Apa.insertLoop size x turns).accounts e (fun err held => held = if err = 0 then x ::ₘ H else H) (x ::ₘ H) := by
  induction turns with
  | zero => trivial
  | succ turns ih =>
    refine accounts_read fun h _ => ?_
    split
    · exact rfl
    · refine accounts_get ?_ fun err herr => ?_
      · refine he.set (fun _ => ⟨rfl, rfl, rfl⟩) ?_
        refine he.removePartition ?_
        refine he.set (fun _ => ⟨rfl, rfl, rfl⟩) ?_
        refine he.set (fun _ => ⟨rfl, rfl, rfl⟩) ?_
        refine accounts_free ?_
        exact accounts_free ih
      · refine accounts_free ?_
        show H = if err = 0 then x ::ₘ H else H
        rw [if_neg (err_ne herr)]

include hgood in
/-- `apaInsertPartition`. -/
theorem Closed.insertPartition : (apaInsertPartition params x).accounts e (Returns H) H := by
  refine accounts_get ?_ fun err _ => ?_
  · refine Prog.accounts_then (he.insertLoop params.size sizeTurns) fun err held hheld => ?_
    split
    · next herr =>
      rw [hheld, if_neg herr]
      exact rfl
    · next herr =>
      rw [hheld, if_pos (not_not.mp herr)]
      refine accounts_read fun h _ => ?_
      refine accounts_free ?_
      refine Prog.accounts_then (accounts_fillHeader fun _ => hgood ..) fun result held hheld => ?_
      exact hheld
  · exact rfl

/-- The outer loop of `hddAddPartitionHere` holds the last header and the first one. -/
theorem Closed.padLoop (size : Word) (turns : ℕ) (partEnd : Word) :
    (Apa.padLoop size turns x partEnd).accounts e (fun result held => held = 0 ::ₘ result.1 ::ₘ H)
      (0 ::ₘ x ::ₘ H) := by
  induction turns generalizing x partEnd with
  | zero => trivial
  | succ turns ih =>
    unfold Apa.padLoop
    split
    · exact rfl
    · split
      · exact ih partEnd
      · refine accounts_read fun h _ => ?_
        refine he.removePartition ?_
        refine he.set (fun _ => ⟨rfl, rfl, rfl⟩) ?_
        refine he.set (fun _ => ⟨rfl, rfl, rfl⟩) ?_
        refine accounts_free_of (H := 0 ::ₘ partEnd ::ₘ H) ?_ (ih _)
        rw [cons_swap x, cons_swap x, cons_swap partEnd]

include hgood in
/-- The part of `hddAddPartitionHere` that appends behind the last header. -/
theorem Closed.appendPartition : (Apa.appendPartition device params x).accounts e (Returns H) H := by
  refine accounts_get ?_ fun err _ => ?_
  · refine accounts_read fun h _ => ?_
    dsimp only
    split
    · trivial
    · generalize (if (h.start + h.length) % params.size ≠ 0 then params.size - (h.start + h.length) % params.size
        else 0) = tmp
      split
      · exact accounts_free rfl
      · refine accounts_get ?_ fun err _ => ?_
        · refine Prog.accounts_then (he.padLoop _ _ _) fun result held hheld => ?_
          obtain ⟨this, partEnd⟩ := result
          rw [hheld]
          refine accounts_read fun h _ => ?_
          refine Prog.accounts_then (accounts_fillHeader fun _ => hgood ..) fun result held hheld => ?_
          rcases result with ⟨err, none | new⟩
          · rw [show held = 0 ::ₘ this ::ₘ H from hheld]
            refine accounts_free_of (cons_swap ..) ?_
            exact accounts_free rfl
          · rw [show held = new ::ₘ 0 ::ₘ this ::ₘ H from hheld]
            refine he.set (fun _ => ⟨rfl, rfl, rfl⟩) ?_
            refine he.set (fun _ => ⟨rfl, rfl, rfl⟩) ?_
            refine accounts_free_of (H := new ::ₘ 0 ::ₘ H) ?_ ?_
            · rw [cons_swap 0 this, cons_swap new this]
            · refine accounts_free_of (cons_swap ..) ?_
              exact rfl
        · exact accounts_free rfl
  · trivial

include hgood in
theorem Closed.addPartitionHere {emptyBlocks : Fin 32 → Word} :
    (hddAddPartitionHere device params emptyBlocks x).accounts e (Returns H) H := by
  unfold hddAddPartitionHere
  split
  · exact he.insertPartition hgood
  · exact he.appendPartition hgood

include hgood in
/-- What is done with the partition that `hddAddPartitionHere` makes. -/
theorem Closed.add {f : ℤ × Option Word → ApaProg α} {emptyBlocks : Fin 32 → Word}
    (hnone : ∀ err, (f (err, none)).accounts e Q H) (hsome : ∀ err y, (f (err, some y)).accounts e Q (y ::ₘ H)) :
    (hddAddPartitionHere device params emptyBlocks x >>= f).accounts e Q H :=
  accounts_returns (he.addPartitionHere hgood) hnone hsome

/-- The walk of `apaOpen` holds the partition it finds. -/
theorem Closed.openLoop (id : Id) (turns : ℕ) (emptyBlocks : Fin 32 → Word) :
    (Apa.openLoop id turns x emptyBlocks).accounts e
      (fun result held => Returns H (result.1, result.2.1) held ∧ (result.2.1 = none ∨ result.1 = 0))
        (x ::ₘ H) := by
  induction turns generalizing x emptyBlocks with
  | zero => trivial
  | succ turns ih =>
    refine accounts_read fun h _ => ?_
    split
    · exact ⟨rfl, .inr rfl⟩
    · exact he.walk (fun err => ⟨rfl, .inl rfl⟩) fun err y => ih _

include hgood in
/-- `apaOpen`. -/
theorem Closed.open {slot : FileSlot} {flags : OpenFlags} :
    (apaOpen device slot params flags).accounts e (fun _ held => held = H) H := by
  have hfound : ∀ y, (openFound slot params flags y).accounts e (fun _ held => held = H) (y ::ₘ H) := by
    intro y
    refine accounts_read fun h _ => ?_
    exact accounts_free rfl
  refine accounts_get ?_ fun err _ => ?_
  · refine Prog.accounts_then (he.openLoop _ _ _) fun result held hheld => ?_
    obtain ⟨err, clink, sector, emptyBlocks⟩ := result
    obtain ⟨hheld, hfails⟩ := hheld
    dsimp only at hheld hfails ⊢
    split
    · next herr =>
      obtain rfl := hfails.resolve_right herr
      exact hheld
    · rcases clink with _ | clink
      · rw [show held = H from hheld]
        dsimp only
        split
        · refine Prog.accounts_bind ?_
          unfold openCreate
          dsimp only
          split
          · exact rfl
          · refine he.add hgood (fun err => rfl) fun err y => ?_
            refine accounts_read fun h _ => ?_
            exact hfound y
        · exact rfl
      · rw [show held = clink ::ₘ H from hheld]
        exact hfound clink
  · exact rfl

/-- `apaRename`. -/
theorem Closed.rename {slots : List FileSlot} {oldParams newParams : Params}
    (hlabel : ∀ h id rpwd fpwd, e.good h → e.good { h with id := id, rpwd := rpwd, fpwd := fpwd }) :
    (apaRename slots oldParams newParams).accounts e (fun _ held => held = H) H := by
  refine he.find newParams.id (fun _ => ?_) fun _ y => accounts_free rfl
  dsimp only
  split
  · exact rfl
  · split
    · exact rfl
    · refine he.find oldParams.id (fun _ => rfl) fun _ y => ?_
      refine accounts_read fun h _ => ?_
      split
      · exact accounts_free rfl
      · refine ⟨fun h hgood => hlabel h _ _ _ hgood, ?_⟩
        exact accounts_free rfl

/-- `devctlSwapTemp`. -/
theorem Closed.swapTemp
    (hlabel : ∀ h id rpwd fpwd, e.good h → e.good { h with id := id, rpwd := rpwd, fpwd := fpwd }) :
    (devctlSwapTemp params).accounts e (fun _ held => held = H) H := by
  unfold devctlSwapTemp
  split
  · exact rfl
  · refine he.find _ (fun _ => rfl) fun _ partTemp => ?_
    refine he.find _ (fun _ => accounts_free rfl) fun _ partNew => ?_
    refine accounts_read fun new _ => ?_
    dsimp only
    split
    · refine accounts_free ?_
      exact accounts_free rfl
    · refine ⟨fun h hgood => hlabel h _ _ _ hgood, ?_⟩
      refine ⟨fun h hgood => hlabel h _ _ _ hgood, ?_⟩
      refine accounts_free ?_
      exact accounts_free rfl

/-- The walk of `ioctl2AddSub` ends with no header held. -/
theorem Closed.emptyLoop (turns : ℕ) (emptyBlocks : Fin 32 → Word) :
    (Apa.emptyLoop turns x emptyBlocks).accounts e (fun _ held => held = H) (x ::ₘ H) := by
  induction turns generalizing x emptyBlocks with
  | zero => trivial
  | succ turns ih =>
    refine accounts_read fun h _ => ?_
    exact he.walk (fun err => rfl) fun err y => ih _

/-- `ioctl2AddSub`. -/
theorem Closed.addSub {slot : FileSlot} {arg : Str}
    (hgood : ∀ size x next prev length created, e.good ((slot.subParams size).header x next prev length created)) :
    (ioctl2AddSub device slot arg).accounts e (fun _ held => held = H) H := by
  unfold ioctl2AddSub
  split
  · exact rfl
  · split
    · exact rfl
    · split
      · exact rfl
      · next size _ =>
        split
        · exact rfl
        · refine accounts_get ?_ fun err _ => ?_
          · refine Prog.accounts_then (he.emptyLoop _ _) fun result held hheld => ?_
            obtain ⟨err, sector, emptyBlocks⟩ := result
            dsimp only
            rw [hheld]
            split
            · exact rfl
            · refine he.add (hgood size) (fun _ => rfl) fun _ y => ?_
              refine accounts_read fun h _ => ?_
              refine accounts_free ?_
              refine accounts_get ?_ fun err _ => ?_
              · refine he.set (fun _ => ⟨rfl, rfl, rfl⟩) ?_
                exact accounts_free rfl
              · exact rfl
          · exact rfl

omit he

/-- A header may fail to be read while there are so many references. -/
def MayFail (e : Ledger Header) (held : ℕ) : Prop := e.fails ∨ e.capacity ≤ held

/-- The loop of `apaDeleteFixPrev` holds the block the space starts in. -/
theorem accounts_fixPrevLoop (turns : ℕ) (length : Word) : (fixPrevLoop turns x length).accounts e
    (fun result held => Returns H (result.1, result.2.map Prod.fst) held) (x ::ₘ H) := by
  induction turns generalizing x length with
  | zero => trivial
  | succ turns ih =>
    refine accounts_read fun h _ => ?_
    split
    · exact rfl
    · refine accounts_get ?_ fun err _ => ?_
      · refine accounts_read fun prev _ => ?_
        dsimp only
        split
        · exact accounts_free rfl
        · split
          · trivial
          · split
            · exact accounts_free rfl
            · exact accounts_free_of (cons_swap ..) (ih _)
      · exact accounts_free rfl

/-- `apaDeleteFixPrev`. -/
theorem Closed.deleteFixPrev (he : Closed e.good) : (apaDeleteFixPrev x).accounts e (Returns H) (x ::ₘ H) := by
  refine accounts_read fun saved _ => ?_
  refine Prog.accounts_then (accounts_fixPrevLoop walkTurns saved.length) fun result held hheld => ?_
  rcases result with ⟨err, none | ⟨clink, length⟩⟩
  · exact hheld
  · rw [show held = clink ::ₘ H from hheld]
    dsimp only
    split
    · refine accounts_get ?_ fun err _ => ?_
      · refine accounts_read fun h _ => ?_
        refine he.set (fun _ => ⟨rfl, rfl, rfl⟩) ?_
        refine he.set (fun _ => ⟨rfl, rfl, rfl⟩) ?_
        exact accounts_free rfl
      · exact accounts_free rfl
    · exact rfl

/-- The loop of `apaDeleteFixNext` holds the block, or has given it back. -/
theorem accounts_fixNextLoop (start : Word) (turns : ℕ) (lnext length : Word) :
    (fixNextLoop x start turns lnext length).accounts e
      (fun result held => held = if result.2.isSome then x ::ₘ H else H) (x ::ₘ H) := by
  induction turns generalizing lnext length with
  | zero => trivial
  | succ turns ih =>
    unfold fixNextLoop
    split
    · exact rfl
    · refine accounts_get ?_ fun err _ => ?_
      · refine accounts_read fun h _ => ?_
        dsimp only
        split
        · exact accounts_free rfl
        · split
          · trivial
          · split
            · exact accounts_free rfl
            · exact accounts_free (ih _ _)
      · exact accounts_free rfl

include he

/-- `apaDeleteFixNext`. -/
theorem Closed.deleteFixNext : (apaDeleteFixNext x).accounts e (Returns H) (x ::ₘ H) := by
  refine accounts_read fun saved _ => ?_
  refine Prog.accounts_then (accounts_fixNextLoop saved.start walkTurns saved.next saved.length)
    fun result held hheld => ?_
  rcases result with ⟨err, none | ⟨lnext, length⟩⟩
  · exact hheld
  · rw [show held = x ::ₘ H from hheld]
    dsimp only
    split
    · refine accounts_get ?_ fun err _ => ?_
      · refine he.set (fun _ => ⟨rfl, rfl, rfl⟩) ?_
        refine he.makeEmpty ?_
        refine he.set (fun _ => ⟨rfl, rfl, rfl⟩) ?_
        exact accounts_free rfl
      · exact accounts_free rfl
    · exact rfl

/-- One pass of `apaDelete`. -/
theorem Closed.deleteFix {f : Option Word → ApaProg α} {Q : α → Multiset Word → Prop}
    (hnone : (f none).accounts e Q H) (hsome : ∀ y, (f (some y)).accounts e Q (y ::ₘ H)) :
    (Apa.deleteFix x >>= f).accounts e Q (x ::ₘ H) := by
  refine Prog.accounts_bind (accounts_returns he.deleteFixPrev (fun _ => hnone) fun _ y => ?_)
  exact accounts_returns he.deleteFixNext (fun _ => hnone) fun _ => hsome

/-- The loop of `apaDelete` that cuts off the end of the list. -/
theorem Closed.deleteTail (turns : ℕ) : (Apa.deleteTail turns x).accounts e
    (fun result held => Returns (0 ::ₘ H) result held ∧ (result.2 = none → MayFail e (H.card + 1)))
    (x ::ₘ 0 ::ₘ H) := by
  induction turns generalizing x with
  | zero => trivial
  | succ turns ih =>
    refine accounts_read fun h _ => ?_
    refine accounts_free ?_
    refine accounts_get_of ?_ fun hfails err _ => ?_
    · refine he.set (fun _ => ⟨rfl, rfl, rfl⟩) ?_
      refine accounts_read fun last _ => ?_
      refine he.set (fun _ => ⟨rfl, rfl, rfl⟩) ?_
      refine accounts_flush ?_
      split
      · exact ih
      · exact ⟨rfl, fun hnone => absurd hnone (Option.some_ne_none _)⟩
    · refine ⟨rfl, fun _ => hfails.imp id fun hfull => ?_⟩
      rw [← card_cons 0 H]
      exact hfull.2

/-- `apaDelete`. -/
theorem Closed.delete : (apaDelete x).accounts e
    (fun _ held => held = H ∨ MayFail e (H.card + 1) ∧ held = 0 ::ₘ H) (x ::ₘ H) := by
  refine accounts_read fun h _ => ?_
  split
  · exact accounts_free (.inl rfl)
  · split
    · refine accounts_get ?_ fun err _ => ?_
      · rw [cons_swap]
        refine Prog.accounts_then (he.deleteTail walkTurns) fun result held hheld => ?_
        rcases result with ⟨err, none | y⟩
        · exact .inr ⟨hheld.2 rfl, hheld.1⟩
        · rw [show held = y ::ₘ 0 ::ₘ H from hheld.1]
          refine accounts_free_of (cons_swap ..) ?_
          exact accounts_free (.inl rfl)
      · exact accounts_free (.inl rfl)
    · refine he.deleteFix (.inl rfl) fun y => ?_
      refine he.deleteFix (.inl rfl) fun y => ?_
      refine accounts_read fun last _ => ?_
      split
      · refine he.makeEmpty ?_
        exact accounts_free (.inl rfl)
      · exact accounts_free (.inl rfl)

omit he

/-- The references are as they were, unless a header may have failed to be read. -/
def Balanced (e : Ledger Header) (H held : Multiset Word) : Prop := held = H ∨ MayFail e (H.card + 2)

section

variable (he : Closed e.good)
include he

variable {K : Multiset Word}

/-- `apaDelete` of a second header. -/
theorem Closed.deleteSecond {f : ℤ → ApaProg α} {Q : α → Multiset Word → Prop} {a : Word} (hK : Balanced e H K)
    (hnext : ∀ rv K, Balanced e H K → (f rv).accounts e Q (a ::ₘ K)) :
    (apaDelete x >>= f).accounts e Q (x ::ₘ a ::ₘ K) := by
  refine Prog.accounts_then he.delete fun rv held hheld => ?_
  rcases hheld with rfl | ⟨hfails, rfl⟩
  · exact hnext rv K hK
  · rw [cons_swap]
    refine hnext rv _ (.inr (hK.elim (fun hsame => ?_) id))
    rwa [hsame, card_cons] at hfails

/-- The loop of `apaRemove` over the sub-partitions. -/
theorem Closed.removeSubs {a : Word} (i : ℕ) (rv : ℤ) (hK : Balanced e H K) : (Apa.removeSubs a i rv).accounts e
      (fun result held => ∃ K, Balanced e H K ∧ held = if result.1 then K else a ::ₘ K) (a ::ₘ K) := by
  induction i generalizing rv K with
  | zero => exact ⟨K, hK, rfl⟩
  | succ i ih =>
    refine accounts_read fun h _ => ?_
    refine accounts_get ?_ fun err _ => ?_
    · refine he.deleteSecond hK fun rv K hK => ?_
      split
      · exact accounts_free ⟨K, hK, rfl⟩
      · exact ih rv hK
    · exact ih err hK

/-- `apaDelete` of the last header that is held. -/
theorem Closed.deleteLast (hK : Balanced e H K) :
    (apaDelete x).accounts e (fun _ held => Balanced e H held) (x ::ₘ K) := by
  rw [← Prog.bind_done (apaDelete x)]
  refine Prog.accounts_then he.delete fun _ held hheld => ?_
  rcases hheld with rfl | ⟨hfails, rfl⟩
  · exact hK
  · refine .inr (hK.elim (fun hsame => ?_) id)
    rw [hsame] at hfails
    exact hfails.imp id fun hfull => hfull.trans (Nat.le_succ _)

/-- `apaRemove`. -/
theorem Closed.remove {slots : List FileSlot} {id : Id} {fpwd : Password} :
    (apaRemove slots id fpwd).accounts e (fun _ held => Balanced e H held) H := by
  unfold apaRemove
  split
  · exact .inl rfl
  · split
    · exact .inl rfl
    · refine he.find id (fun _ => .inl rfl) fun err y => ?_
      refine accounts_read fun h _ => ?_
      split
      · exact accounts_free (.inl rfl)
      · refine he.set (fun _ => ⟨rfl, rfl, rfl⟩) ?_
        refine accounts_flush ?_
        refine Prog.accounts_then (he.removeSubs _ err (.inl rfl)) fun result held hheld => ?_
        obtain ⟨early, rv⟩ := result
        obtain ⟨K, hK, rfl⟩ := hheld
        cases early with
        | true => exact hK
        | false =>
          dsimp only
          split
          · exact he.deleteLast hK
          · exact accounts_free hK

/-- `ioctl2DeleteLastSub`. -/
theorem Closed.deleteLastSub {slot : FileSlot} :
    (ioctl2DeleteLastSub slot).accounts e (fun _ held => Balanced e H held) H := by
  unfold ioctl2DeleteLastSub
  split
  · exact .inl rfl
  · split
    · exact .inl rfl
    · refine accounts_get ?_ fun err _ => ?_
      · refine accounts_read fun h _ => ?_
        refine accounts_get ?_ fun err _ => ?_
        · refine he.set (fun _ => ⟨rfl, rfl, rfl⟩) ?_
          refine accounts_flush ?_
          refine he.deleteSecond (.inl rfl) fun rv K hK => ?_
          exact accounts_free hK
        · exact accounts_free (.inl rfl)
      · exact .inl rfl

end

end Ps2sdk.Apa
