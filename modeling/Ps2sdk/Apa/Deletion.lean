import Ps2sdk.Apa.Fresh
import Ps2sdk.Apa.Merge
import Ps2sdk.Apa.Parts

/-!
# Buddies and deletion

Two free blocks next to each other are buddies if they make up one block twice as long. Joining a free block with
its buddies, again and again, goes before it and behind it in an order that its place determines:
`Place.directions`. Each of the two passes of `apaDelete` goes before it as long as it can, and then behind it, so
two buddies stay next to each other exactly if more than two turns are needed.
-/

namespace Ps2sdk.Apa

section Merging

open List Option Nat

variable {start length : ℕ} {before after : List Block}

/-- Two free blocks make up one block twice as long. -/
def Buddies (b c : Block) : Prop := b.part = none ∧ c.part = none ∧ b.length = c.length ∧ 2 * b.length ∣ b.start

/-- No two blocks next to each other are buddies. -/
def NoBuddies (bs : List Block) : Prop := bs.IsChain fun b c => ¬ Buddies b c

/-- A block of a power of two of sectors at one of its multiples. -/
structure Regular (start length : ℕ) : Prop where
  power : ∃ k, length = 2 ^ k
  aligned : length ∣ start

/-- The blocks before a place, nearest first, lie next to each other. -/
def Before : List Block → ℕ → Prop
  | [], _ => True
  | b :: bs, start => b.start + b.length = start ∧ Regular b.start b.length ∧ Before bs b.start

/-- A table seen from one of its blocks. -/
structure Place.Regular (p : Place) : Prop where
  before : Before p.before p.here.start
  here : Apa.Regular p.here.start p.here.length
  after : ∀ c ∈ p.after, ∃ k, c.length = 2 ^ k

/-- The block before is a buddy. -/
def joinPrev (length : ℕ) : List Block → Option (List Block × ℕ × ℕ)
  | [] => none
  | b :: before =>
    if b.part.isNone ∧ Joined b.start (b.length + length) then some (before, b.start, b.length + length) else none

/-- The block behind is a buddy. -/
def joinNext (start length : ℕ) : List Block → Option (List Block × ℕ)
  | [] => none
  | c :: after => if c.part.isNone ∧ Joined start (c.length + length) then some (after, c.length + length) else none

/-- Where a block is joined with a buddy. -/
inductive Direction
  | prev
  | next
  deriving DecidableEq

/-- The directions in which a block is joined with its buddies. -/
def directions : ℕ → List Block → ℕ → ℕ → List Block → List Direction
  | 0, _, _, _, _ => []
  | turns + 1, before, start, length, after =>
    match joinPrev length before with
    | some (before, start, length) => .prev :: directions turns before start length after
    | none =>
      match joinNext start length after with
      | some (after, length) => .next :: directions turns before start length after
      | none => []

/-- The directions in which the block of a place is joined with its buddies. -/
def Place.directions (p : Place) : List Direction :=
  Apa.directions (p.before.length + p.after.length) p.before p.here.start p.here.length p.after

/-- Two powers of two make up one only if they are the same. -/
theorem eq_of_pow_add_pow {a b k : ℕ} (h : 2 ^ a + 2 ^ b = 2 ^ k) : a = b := by
  have key : ∀ a b k : ℕ, 2 ^ a + 2 ^ b = 2 ^ k → ¬ a < b := by
    intro a b k h hab
    have hak : a < k := by
      refine (Nat.pow_lt_pow_iff_right Nat.one_lt_two).mp ?_
      rw [← h]
      exact Nat.lt_add_of_pos_right (Nat.two_pow_pos b)
    have hdvd : 2 ^ (a + 1) ∣ 2 ^ a := by
      have hsum : 2 ^ (a + 1) ∣ 2 ^ a + 2 ^ b := by
        rw [h]
        exact pow_dvd_pow 2 hak
      exact (Nat.dvd_add_left (pow_dvd_pow 2 hab)).mp hsum
    have := Nat.le_of_dvd (Nat.two_pow_pos a) hdvd
    rw [Nat.pow_succ] at this
    omega
  rcases Nat.lt_trichotomy a b with hlt | heq | hgt
  · exact absurd hlt (key a b k h)
  · exact heq
  · exact absurd hgt (key b a k (by rw [add_comm]; exact h))

/-- The test for joining blocks finds buddies. -/
theorem joined_add_iff {a b : ℕ} (ha : ∃ k, a = 2 ^ k) (hb : ∃ k, b = 2 ^ k) :
    Joined start (a + b) ↔ a = b ∧ 2 * a ∣ start := by
  obtain ⟨i, rfl⟩ := ha
  obtain ⟨j, rfl⟩ := hb
  have hpos : 0 < 2 ^ i + 2 ^ j := Nat.add_pos_left (Nat.two_pow_pos i) _
  constructor
  · rintro ⟨hmod, hand⟩
    obtain ⟨k, hk⟩ := (Nat.and_sub_one_eq_zero_iff_isPowerOfTwo hpos.ne').mp hand
    obtain rfl := eq_of_pow_add_pow hk
    refine ⟨rfl, ?_⟩
    rw [Nat.two_mul]
    exact Nat.dvd_of_mod_eq_zero hmod
  · rintro ⟨heq, hdvd⟩
    rw [← heq, ← Nat.two_mul]
    refine ⟨Nat.mod_eq_zero_of_dvd hdvd, ?_⟩
    rw [Nat.mul_comm, ← Nat.pow_succ, Nat.and_two_pow_sub_one_eq_mod, Nat.mod_self]

theorem Joined.regular (h : Joined start length) (hpos : 0 < length) : Regular start length :=
  ⟨(and_sub_one_eq_zero_iff_isPowerOfTwo hpos.ne').mp h.2, dvd_of_mod_eq_zero h.1⟩

theorem Regular.positive (h : Regular start length) : 0 < length := by
  obtain ⟨k, rfl⟩ := h.power
  exact Nat.two_pow_pos k

/-- Without a buddy before it, a block is not joined there first. -/
theorem dropWhile_directions {turns : ℕ} (h : joinPrev length before = none) :
    (directions turns before start length after).dropWhile (· == .prev) =
      directions turns before start length after := by
  cases turns with
  | zero => rfl
  | succ turns =>
    rw [directions, h]
    cases joinNext start length after with
    | none => rfl
    | some joined => rfl

/-- `apaDeleteFixPrev` joins a block with the buddies before it that come first. -/
theorem directions_absorbPrev (before after : List Block) (start length : ℕ) :
    directions ((absorbPrev before start length).1.length + after.length) (absorbPrev before start length).1
        (absorbPrev before start length).2.1 (absorbPrev before start length).2.2 after =
      (directions (before.length + after.length) before start length after).dropWhile (· == .prev) := by
  induction before generalizing start length with
  | nil => exact (dropWhile_directions rfl).symm
  | cons b before ih =>
    rw [absorbPrev]
    split
    · next hjoined =>
      rw [ih, length_cons, add_right_comm, directions, joinPrev, if_pos hjoined]
      rfl
    · next hjoined => exact (dropWhile_directions (by rw [joinPrev, if_neg hjoined])).symm

variable (hbefore : Before before start)

include hbefore

/-- A block has at most one buddy. -/
theorem joinNext_of_joinPrev {joined : List Block × ℕ × ℕ}
    (hhere : Regular start length) (hafter : ∀ c ∈ after, ∃ k, c.length = 2 ^ k)
    (h : joinPrev length before = some joined) : joinNext start length after = none := by
  cases before with
  | nil => cases h
  | cons b before =>
    cases after with
    | nil => rfl
    | cons c after =>
      obtain ⟨hadjacent, hb, -⟩ := hbefore
      rw [joinPrev] at h
      split at h
      · next hjoined =>
        rw [joinNext, if_neg]
        rintro ⟨-, hnext⟩
        obtain ⟨heq, hdvd⟩ := (joined_add_iff hb.power hhere.power).mp hjoined.2
        obtain ⟨heq', hdvd'⟩ := (joined_add_iff (hafter c mem_cons_self) hhere.power).mp hnext
        rw [← hadjacent, heq', ← heq] at hdvd'
        have hlast : 2 * b.length ∣ b.length := (Nat.dvd_add_right hdvd).mp hdvd'
        have := Nat.le_of_dvd hb.positive hlast
        have := hb.positive
        omega
      · cases h

/-- `apaDeleteFixNext` joins a block with the buddies behind it that come first. -/
theorem directions_absorbNext (hhere : Regular start length) (hafter : ∀ c ∈ after, ∃ k, c.length = 2 ^ k) :
    directions (before.length + (absorbNext start after length).1.length) before start
        (absorbNext start after length).2 (absorbNext start after length).1 =
      (directions (before.length + after.length) before start length after).dropWhile (· == .next) := by
  induction after generalizing length with
  | nil =>
    rw [absorbNext]
    cases hturns : before.length with
    | zero => rfl
    | succ turns =>
      rw [length_nil, add_zero, directions]
      cases joinPrev length before with
      | none => rfl
      | some joined => rfl
  | cons c after ih =>
    rw [length_cons, ← add_assoc, directions]
    cases hprev : joinPrev length before with
    | some joined =>
      have hnone := joinNext_of_joinPrev hbefore hhere hafter hprev
      rw [joinNext] at hnone
      split at hnone
      · cases hnone
      · next hjoined =>
        rw [absorbNext, if_neg hjoined, length_cons, ← add_assoc, directions, hprev]
        rfl
    | none =>
      rw [absorbNext, joinNext]
      split
      · next hjoined =>
        have hpos : 0 < c.length + length := Nat.add_pos_right _ hhere.positive
        rw [ih (hjoined.2.regular hpos) fun c hc => hafter c (mem_cons_of_mem _ hc)]
        rfl
      · next hjoined =>
        rw [length_cons, ← add_assoc, directions, hprev, joinNext, if_neg hjoined]
        rfl

/-- The blocks before the space that is joined lie next to each other, and it is regular. -/
theorem absorbPrev_regular
    (hhere : Regular start length) : Before (absorbPrev before start length).1
    (absorbPrev before start length).2.1 ∧
      Regular (absorbPrev before start length).2.1 (absorbPrev before start length).2.2 ∧
      length ≤ (absorbPrev before start length).2.2 ∧
      ((absorbPrev before start length).2.2 = length → (absorbPrev before start length).2.1 = start) := by
  induction before generalizing start length with
  | nil => exact ⟨trivial, hhere, le_refl length, fun _ => rfl⟩
  | cons b before ih =>
    rw [absorbPrev]
    split
    · next hjoined =>
      have hpos : 0 < b.length + length := Nat.add_pos_right _ hhere.positive
      obtain ⟨hrest, hregular, hle, -⟩ := ih hbefore.2.2 (hjoined.2.regular hpos)
      refine ⟨hrest, hregular, by omega, fun heq => ?_⟩
      have := hbefore.2.1.positive
      omega
    · exact ⟨hbefore, hhere, le_refl length, fun _ => rfl⟩

omit hbefore

theorem absorbNext_regular (hhere : Regular start length) : Regular start (absorbNext start after length).2 := by
  induction after generalizing length with
  | nil => exact hhere
  | cons c after ih =>
    rw [absorbNext]
    split
    · next hjoined => exact ih (hjoined.2.regular (Nat.add_pos_right _ hhere.positive))
    · exact hhere

variable {p : Place}

/-- Where the space joined before a block starts, and its length. -/
theorem Place.fixPrev_here (h : p.Regular) :
    p.fixPrev.here.start = (absorbPrev p.before p.here.start p.here.length).2.1 ∧
      p.fixPrev.here.length = (absorbPrev p.before p.here.start p.here.length).2.2 := by
  obtain ⟨-, -, -, hsame⟩ := absorbPrev_regular h.before h.here
  unfold Place.fixPrev
  dsimp only
  split
  · next heq => exact ⟨(hsame heq).symm, heq.symm⟩
  · exact ⟨rfl, rfl⟩

theorem Place.fixNext_here (p : Place) : p.fixNext.here.start = p.here.start ∧
    p.fixNext.here.length = (absorbNext p.here.start p.after p.here.length).2 := by
  unfold Place.fixNext
  dsimp only
  split
  · next heq => exact ⟨rfl, heq.symm⟩
  · exact ⟨rfl, rfl⟩

theorem Place.Regular.fixPrev (h : p.Regular) : p.fixPrev.Regular := by
  obtain ⟨hbefore, hhere, -, -⟩ := absorbPrev_regular h.before h.here
  obtain ⟨hstart, hlength⟩ := Place.fixPrev_here h
  refine ⟨?_, ?_, h.after⟩
  · rw [hstart]
    exact hbefore
  · rw [hstart, hlength]
    exact hhere

theorem Place.Regular.fixNext (h : p.Regular) : p.fixNext.Regular := by
  obtain ⟨hstart, hlength⟩ := p.fixNext_here
  refine ⟨?_, ?_, fun c hc => h.after c ((absorbNext_suffix ..).subset hc)⟩
  · rw [hstart]
    exact h.before
  · rw [hstart, hlength]
    exact absorbNext_regular h.here

theorem Place.Regular.fix (h : p.Regular) : p.fix.Regular := h.fixPrev.fixNext

/-- The directions left after a pass. -/
def afterPass (ds : List Direction) : List Direction := (ds.dropWhile (· == .prev)).dropWhile (· == .next)

/-- A pass takes the directions before the block as long as it can, and then those behind it. -/
theorem Place.directions_fix (h : p.Regular) : p.fix.directions = afterPass p.directions := by
  have hprev : p.fixPrev.directions = p.directions.dropWhile (· == .prev) := by
    obtain ⟨hstart, hlength⟩ := Place.fixPrev_here h
    unfold Place.directions
    rw [hstart, hlength]
    exact directions_absorbPrev ..
  have hnext : p.fix.directions = p.fixPrev.directions.dropWhile (· == .next) := by
    obtain ⟨hstart, hlength⟩ := p.fixPrev.fixNext_here
    unfold Place.directions Place.fix
    rw [hstart, hlength]
    exact directions_absorbNext h.fixPrev.before h.fixPrev.here h.fixPrev.after
  rw [hnext, hprev, afterPass]

/-- A block is joined in no direction if and only if it has no buddy. -/
theorem Place.directions_eq_nil :
    p.directions = [] ↔ joinPrev p.here.length p.before = none ∧ joinNext p.here.start p.here.length p.after =
      none := by
  unfold Place.directions
  cases hturns : p.before.length + p.after.length with
  | zero =>
    obtain ⟨hbefore, hafter⟩ := Nat.add_eq_zero_iff.mp hturns
    rw [length_eq_zero_iff.mp hbefore, length_eq_zero_iff.mp hafter]
    exact ⟨fun _ => ⟨rfl, rfl⟩, fun _ => rfl⟩
  | succ turns =>
    rw [Apa.directions]
    cases joinPrev p.here.length p.before with
    | some joined => simp
    | none =>
      cases joinNext p.here.start p.here.length p.after with
      | some joined => simp
      | none => simp

/-- The block before a free one is found to be a buddy if it is one. -/
theorem joinPrev_eq_none {b : Block} (hbefore : Before before b.start)
    (hb : Apa.Regular b.start b.length) (hfree : b.part = none) :
    joinPrev b.length before = none ↔ ∀ a ∈ before.head?, ¬ Buddies a b := by
  cases before with
  | nil => simp [joinPrev]
  | cons a before =>
    have hiff : (a.part.isNone ∧ Joined a.start (a.length + b.length)) ↔ Buddies a b := by
      rw [joined_add_iff hbefore.2.1.power hb.power, isNone_iff_eq_none]
      exact ⟨fun ⟨ha, heq, hdvd⟩ => ⟨ha, hfree, heq, hdvd⟩, fun ⟨ha, _, heq, hdvd⟩ => ⟨ha, heq, hdvd⟩⟩
    have hhead : (∀ a' ∈ (a :: before).head?, ¬ Buddies a' b) ↔ ¬ Buddies a b := by simp
    rw [hhead, ← hiff, joinPrev]
    split
    · next hjoined => exact ⟨nofun, fun hno => absurd hjoined hno⟩
    · next hjoined => exact ⟨fun _ => hjoined, fun _ => rfl⟩

/-- The block behind a free one is found to be a buddy if it is one. -/
theorem joinNext_eq_none {b : Block} (hafter : ∀ c ∈ after, ∃ k, c.length = 2 ^ k)
    (hb : Apa.Regular b.start b.length) (hfree : b.part = none) :
    joinNext b.start b.length after = none ↔ ∀ c ∈ after.head?, ¬ Buddies b c := by
  cases after with
  | nil => simp [joinNext]
  | cons c after =>
    have hiff : (c.part.isNone ∧ Joined b.start (c.length + b.length)) ↔ Buddies b c := by
      rw [joined_add_iff (hafter c mem_cons_self) hb.power, isNone_iff_eq_none]
      constructor
      · rintro ⟨hc, heq, hdvd⟩
        exact ⟨hfree, hc, heq.symm, by rwa [← heq]⟩
      · rintro ⟨-, hc, heq, hdvd⟩
        exact ⟨hc, heq.symm, by rwa [← heq]⟩
    have hhead : (∀ c' ∈ (c :: after).head?, ¬ Buddies b c') ↔ ¬ Buddies b c := by simp
    rw [hhead, ← hiff, joinNext]
    split
    · next hjoined => exact ⟨nofun, fun hno => absurd hjoined hno⟩
    · next hjoined => exact ⟨fun _ => hjoined, fun _ => rfl⟩

/-- With a free block there are buddies in a table only where it can be joined. -/
theorem Place.noBuddies_iff (h : p.Regular) (hfree : p.here.part = none) (hbefore : NoBuddies p.before.reverse)
    (hafter : NoBuddies p.after) : NoBuddies p.list ↔ p.directions = [] := by
  rw [directions_eq_nil, joinPrev_eq_none h.before h.here hfree, joinNext_eq_none h.after h.here hfree]
  unfold NoBuddies Place.list at *
  rw [isChain_append, isChain_cons, getLast?_reverse]
  simp only [head?_cons, mem_def, some.injEq, forall_eq']
  exact ⟨fun ⟨_, ⟨hnext, _⟩, hprev⟩ => ⟨hprev, hnext⟩, fun ⟨hprev, hnext⟩ => ⟨hbefore, ⟨hnext, hafter⟩, hprev⟩⟩

theorem NoBuddies.front {bs cs : List Block} (h : NoBuddies bs.reverse) (hsuffix : cs <:+ bs) :
    NoBuddies cs.reverse := by
  obtain ⟨ds, rfl⟩ := hsuffix
  rw [reverse_append] at h
  exact (isChain_append.mp h).1

/-- Deleting a block of a table without buddies leaves one without buddies if and only if two passes join it with
all its buddies. -/
theorem Place.noBuddies_delete (h : p.Regular) (hno : NoBuddies p.list) :
    NoBuddies p.delete.list ↔ afterPass (afterPass p.directions) = [] := by
  have hbefore : NoBuddies p.before.reverse := (isChain_append.mp hno).1
  have hafter : NoBuddies p.after := (isChain_append.mp hno).2.1.tail
  have hsuffix : ∀ q : Place, q.fix.before <:+ q.before ∧ q.fix.after <:+ q.after := fun q =>
    ⟨absorbPrev_suffix .., absorbNext_suffix ..⟩
  obtain ⟨hb, ha⟩ := hsuffix p
  obtain ⟨hb', ha'⟩ := hsuffix p.fix
  rw [← directions_fix h, ← directions_fix h.fix]
  have hclear : p.delete.Regular := ⟨h.fix.fix.before, h.fix.fix.here, h.fix.fix.after⟩
  refine Place.noBuddies_iff hclear rfl ?_ ?_
  · exact hbefore.front (hb'.trans hb)
  · exact hafter.suffix (ha'.trans ha)

theorem deleteLast_suffix (before : List Block) : deleteLast before <:+ before := by
  induction before with
  | nil => exact suffix_rfl
  | cons b before ih =>
    rw [deleteLast]
    split
    · exact ih.trans (suffix_cons b before)
    · exact suffix_rfl

/-- Which deletions leave a table without buddies. -/
theorem noBuddies_deleteBlock {b : Block}
    (h : Place.Regular ⟨before.reverse, b, after⟩) (hno : NoBuddies (before ++ b :: after)) :
    NoBuddies (deleteBlock before b after) ↔
      after = [] ∨ afterPass (afterPass (Place.directions ⟨before.reverse, b, after⟩)) = [] := by
  rw [deleteBlock]
  split
  · next hempty =>
    refine ⟨fun _ => .inl (isEmpty_iff.mp hempty), fun _ => ?_⟩
    have hbefore : NoBuddies before.reverse.reverse := by
      rw [reverse_reverse]
      exact (isChain_append.mp hno).1
    exact hbefore.front (deleteLast_suffix before.reverse)
  · next hempty =>
    have hlist : NoBuddies (Place.list ⟨before.reverse, b, after⟩) := by
      unfold Place.list
      rwa [reverse_reverse]
    rw [Place.noBuddies_delete h hlist]
    exact ⟨.inr, fun hor => hor.resolve_left fun hnil => hempty (isEmpty_iff.mpr hnil)⟩

end Merging

section Drives

open Lib ApaProg List Multiset Header Driver

variable {n unit : ℕ} {s : Driver n} {v v' : Word → Header} {xs xs' l r : List Word} {x : Word}

/-- `apaDelete` of the header at a sector. -/
def Driver.delete (s : Driver n) (x : Word) : Option ℤ × Driver n :=
  ApaProg.run (do
    let err ← getHeader x
    if err ≠ 0 then pure err else apaDelete x) s

/-- A table seen from one of its headers. -/
theorem Table.regular (ht : Table unit v xs) (hxs : 0 :: xs = l ++ x :: r) :
    Place.Regular ⟨(blocks v l).reverse, (v x).block, blocks v r⟩ := by
  have hstart : ∀ y ∈ 0 :: xs, (v y).block.start = y.toNat := fun y hy => congrArg BitVec.toNat
    (ht.sound y hy).start
  have hregular : ∀ y ∈ 0 :: xs, Regular (v y).block.start (v y).block.length := fun y hy =>
    ⟨(ht.sound y hy).power, by rw [hstart y hy]; exact (ht.sound y hy).aligned⟩
  have hbefore : ∀ (l : List Word) (x : Word) (r : List Word), 0 :: xs = l ++ x :: r →
      Before (blocks v l).reverse (v x).block.start := by
    intro l
    induction l using reverseRecOn with
    | nil => exact fun _ _ _ => trivial
    | append_singleton l y ih =>
      intro x r hxs
      rw [append_assoc] at hxs
      obtain ⟨-, -, hadjacent⟩ := ht.next_eq hxs
      rw [blocks_append, reverse_append]
      refine ⟨?_, hregular y (by rw [hxs]; simp), ih y (x :: r) hxs⟩
      rw [hstart y (by rw [hxs]; simp), hstart x (by rw [hxs]; simp), hadjacent]
      rfl
  refine ⟨hbefore l x r hxs, hregular x (by rw [hxs]; simp), fun c hc => ?_⟩
  obtain ⟨y, hy, rfl⟩ := mem_map.mp hc
  exact (ht.sound y (by rw [hxs]; simp [hy])).power

/-- `apaDelete` of a header other than the first. -/
theorem Driver.WellFormed.delete (h : s.WellFormed xs) (hn : 3 ≤ n) (hxs : 0 :: xs = l ++ x :: r) (hl : l ≠ []) :
    ∃ xs', (s.delete x).1 = some 0 ∧ (s.delete x).2.WellFormed xs' ∧
      blocks (s.delete x).2.headers (0 :: xs') = deleteBlock (blocks s.headers l) (s.headers x).block
        (blocks s.headers r) := by
  have hended : Ended (blocks s.headers l ++ (s.headers x).block :: blocks s.headers r) := by
    rw [← blocks_cons, ← blocks_append, ← hxs]
    exact ended_blocks.mpr h.ended
  have hwp : (do
      let err ← getHeader x
      if err ≠ 0 then pure err else apaDelete x : ApaProg ℤ).wp (tableRules n (2 ^ 18)) (fun err t => ∃ v' xs',
        Settled (2 ^ 18) v' xs' t ∧ err = 0 ∧ blocks v' (0 :: xs') =
          deleteBlock (blocks s.headers l) (s.headers x).block (blocks s.headers r)) (s.atRest xs) := by
    refine h.stores.at.got (by rw [hxs]; simp) (by rw [card_zero]; omega) fun t ht => ?_
    rw [← Prog.bind_done (apaDelete x)]
    refine ht.delete hxs hl (fun hr => ?_) (pow_dvd_pow 2 (by decide)) (by rw [card_zero]; omega)
      fun v' xs' t ht' hblocks => ⟨v', xs', ht'.settled, rfl, hblocks⟩
    have hne : blocks s.headers r ≠ [] := fun hnil => hr (map_eq_nil_iff.mp hnil)
    exact ((ended_append_cons hne).mp hended).parts_ne_nil hne
  obtain ⟨err, v', xs', herr, hstores, hsame, rfl, hblocks⟩ := h.stores.run (pow_dvd_pow 2 (show 9 ≤ 18 by decide))
    hwp
  have hdeleted : blocks (s.delete x).2.headers (0 :: xs') =
      deleteBlock (blocks s.headers l) (s.headers x).block (blocks s.headers r) := (blocks_eq hsame).trans hblocks
  refine ⟨xs', herr, ⟨hstores, ended_blocks.mp ?_⟩, hdeleted⟩
  rw [hdeleted]
  exact hended.deleteBlock

/-- `apaDelete` leaves the first header alone. -/
theorem Driver.WellFormed.delete_first (h : s.WellFormed xs) (hn : 3 ≤ n) : (s.delete 0).1 = some (-13) ∧
    (s.delete 0).2.WellFormed xs ∧ blocks (s.delete 0).2.headers (0 :: xs) = blocks s.headers (0 :: xs) := by
  have hwp : (do
      let err ← getHeader 0
      if err ≠ 0 then pure err else apaDelete 0 : ApaProg ℤ).wp (tableRules n (2 ^ 18)) (fun err t => ∃ v' xs',
        Settled (2 ^ 18) v' xs' t ∧ err = -13 ∧ v' = s.headers ∧ xs' = xs) (s.atRest xs) := by
    refine h.stores.at.got mem_cons_self (by rw [card_zero]; omega) fun t ht => ?_
    rw [apaDelete]
    refine ht.draft.read (mem_cons_self 0 0) ?_
    rw [if_pos (h.stores.table.sound 0 mem_cons_self).start]
    refine ht.freeHead fun t ht => ?_
    exact ⟨s.headers, xs, ht.settled, rfl, rfl, rfl⟩
  obtain ⟨err, v', xs', herr, hstores, hsame, rfl, rfl, rfl⟩ := h.stores.run (pow_dvd_pow 2 (show 9 ≤ 18 by decide))
    hwp
  have hblocks : blocks (s.delete 0).2.headers (0 :: xs') = blocks s.headers (0 :: xs') := blocks_eq hsame
  refine ⟨herr, ⟨hstores, ended_blocks.mp ?_⟩, hblocks⟩
  rw [hblocks]
  exact ended_blocks.mpr h.ended

/-- A driver is at rest on a table without buddies. -/
def Driver.Coalesced (s : Driver n) : Prop := ∃ xs, s.WellFormed xs ∧ NoBuddies (blocks s.headers (0 :: xs))

/-- `apaDelete` of a header leaves a table without buddies if and only if it is the first or the last one, or
joining it with its buddies takes no more than two turns before it and behind it. -/
theorem apaDelete_coalesces_iff (hn : 3 ≤ n) (h : s.WellFormed xs) (hno : NoBuddies (blocks s.headers (0 :: xs)))
    (hxs : 0 :: xs = l ++ x :: r) : (s.delete x).2.Coalesced ↔ x = 0 ∨ r = [] ∨
      afterPass (afterPass (Place.directions ⟨(blocks s.headers l).reverse, (s.headers x).block,
        blocks s.headers r⟩)) = [] := by
  by_cases hl : l = []
  · subst hl
    obtain rfl : 0 = x := (cons.inj hxs).1
    obtain ⟨-, hwell, hblocks⟩ := h.delete_first hn
    refine iff_of_true ⟨xs, hwell, ?_⟩ (.inl rfl)
    rwa [hblocks]
  · obtain ⟨xs', -, hwell, hblocks⟩ := h.delete hn hxs hl
    have hcoalesced : (s.delete x).2.Coalesced ↔ NoBuddies (blocks (s.delete x).2.headers (0 :: xs')) := by
      constructor
      · rintro ⟨ys, hys, hno⟩
        rwa [hwell.stores.table.list_unique hys.stores.table]
      · exact fun hno => ⟨xs', hwell, hno⟩
    have hlist : NoBuddies (blocks s.headers l ++ (s.headers x).block :: blocks s.headers r) := by
      rwa [← blocks_cons, ← blocks_append, ← hxs]
    rw [hcoalesced, hblocks, noBuddies_deleteBlock (h.stores.table.regular hxs) hlist, blocks, map_eq_nil_iff]
    exact ⟨.inr, fun hor => hor.resolve_left (h.stores.table.ne_zero hxs hl)⟩

instance (b c : Block) : Decidable (Buddies b c) := inferInstanceAs (Decidable (_ ∧ _ ∧ _ ∧ _))

instance (bs : List Block) : Decidable (NoBuddies bs) := inferInstanceAs (Decidable (bs.IsChain _))

theorem blocks_map_start {hs : List Header} (hv : ∀ h ∈ hs, v h.start = h) :
    blocks v (hs.map start) = hs.map block := by
  rw [blocks, List.map_map]
  exact map_congr_left fun h hh => congrArg block (hv h hh)

/-- A header of some table. -/
def headerOf (type : BitVec 16) (start length next prev : Word) : Header :=
  { Header.zero with magic := apaMagic, type := type, start := start, length := length, next := next, prev := prev }

/-- A partition that is joined before it, behind it and again before it when it is deleted. -/
def threeTurns : List Header :=
  [{ soloHeader with length := 0x200000, next := 0x200000, prev := 0x400000 },
    headerOf apaTypeFree 0x200000 0x100000 0x300000 0, headerOf apaTypeFree 0x300000 0x40000 0x340000 0x200000,
    headerOf 0x0100 0x340000 0x40000 0x380000 0x300000, headerOf apaTypeFree 0x380000 0x80000 0x400000 0x340000,
    headerOf 0x0100 0x400000 0x40000 0 0x380000]

/-- Joining it three times leaves no buddies. -/
theorem apaDelete_coalesces_threeTurns : ((Driver.fresh 3 (diskOf threeTurns)).delete 0x340000).2.Coalesced := by
  obtain ⟨hwell, hheaders⟩ := wellFormed_fresh 3 threeTurns (by decide) (by decide) (by decide)
  have hblocks : ∀ hs ⊆ threeTurns, blocks (fresh 3 (diskOf threeTurns)).headers (hs.map start) =
      hs.map block := fun hs hsub => blocks_map_start fun h hh => hheaders h (hsub hh)
  refine (apaDelete_coalesces_iff (by decide) hwell ?_ (show 0 :: threeTurns.tail.map start =
    (threeTurns.take 3).map start ++ 0x340000 :: (threeTurns.drop 4).map start from rfl)).mpr
    (.inr (.inr ?_))
  · rw [show 0 :: threeTurns.tail.map start = threeTurns.map start from rfl,
      hblocks _ (List.Subset.refl _)]
    decide
  · rw [hblocks _ (take_subset 3 _), hblocks _ (drop_subset 4 _),
      show (fresh 3 (diskOf threeTurns)).headers 0x340000 = _ from
        hheaders (headerOf 0x0100 0x340000 0x40000 0x380000 0x300000) (by decide)]
    decide

/-- A partition that has to be joined behind it, before it, behind it and before it. -/
def fourTurns : List Header :=
  [{ soloHeader with length := 0x400000, next := 0x400000, prev := 0x800000 },
    headerOf apaTypeFree 0x400000 0x200000 0x600000 0, headerOf apaTypeFree 0x600000 0x80000 0x680000 0x400000,
    headerOf 0x0100 0x680000 0x40000 0x6C0000 0x600000, headerOf apaTypeFree 0x6C0000 0x40000 0x700000 0x680000,
    headerOf apaTypeFree 0x700000 0x100000 0x800000 0x6C0000, headerOf 0x0100 0x800000 0x40000 0 0x700000]

/-- Two passes leave two free blocks of 1 GB that make up one of 2 GB. -/
theorem apaDelete_leaves_buddies : NoBuddies (blocks (Driver.fresh 3 (diskOf fourTurns)).headers
      (0 :: fourTurns.tail.map Header.start)) ∧
    ¬ ((Driver.fresh 3 (diskOf fourTurns)).delete 0x680000).2.Coalesced := by
  obtain ⟨hwell, hheaders⟩ := wellFormed_fresh 3 fourTurns (by decide) (by decide) (by decide)
  have hblocks : ∀ hs ⊆ fourTurns, blocks (fresh 3 (diskOf fourTurns)).headers (hs.map start) =
      hs.map block := fun hs hsub => blocks_map_start fun h hh => hheaders h (hsub hh)
  constructor
  · rw [show 0 :: fourTurns.tail.map start = fourTurns.map start from rfl,
      hblocks _ (List.Subset.refl _)]
    decide
  · rintro ⟨ys, hys, hno⟩
    obtain ⟨xs', -, hwell', hdeleted⟩ := hwell.delete (by decide) (show 0 :: fourTurns.tail.map start =
      (fourTurns.take 3).map start ++ 0x680000 :: (fourTurns.drop 4).map start from rfl) (by decide)
    rw [hys.stores.table.list_unique hwell'.stores.table, hdeleted, hblocks _ (take_subset 3 _),
      hblocks _ (drop_subset 4 _), show (fresh 3 (diskOf fourTurns)).headers 0x680000 = _ from
        hheaders (headerOf 0x0100 0x680000 0x40000 0x6C0000 0x600000) (by decide)] at hno
    exact absurd hno (by decide)

end Drives

end Ps2sdk.Apa
