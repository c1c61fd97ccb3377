import Mathlib.Algebra.Group.Nat.Defs
import Mathlib.Data.List.Basic

/-!
# Copies into a byte-addressed memory

Addresses have a fixed width and wrap around. `Delivers` says of two memories that the second has
given bytes at an offset into a region and differs from the first inside the region only. An engine
queues transfers and performs them in order, at times the program does not control; what the memory
will be once the queue has drained does not depend on those times.
-/

namespace Ps2sdk.Lib

section Copies

open List BitVec Nat

variable {w : ℕ} {C : Type*}

variable (mem : BitVec w → C)

/-- Copy the bytes to a destination. -/
def memcpy (dest : BitVec w) (bytes : List C) : BitVec w → C :=
  fun a => (bytes[(a - dest).toNat]?).getD (mem a)

variable (src : BitVec w)

/-- The bytes of a range. -/
def slice (n : ℕ) : List C :=
  (List.range n).map fun i => mem (src + BitVec.ofNat w i)

/-- Copying nothing. -/
@[simp]
theorem memcpy_nil (dest : BitVec w) : memcpy mem dest [] = mem := rfl

/-- The bytes of a range, by number. -/
@[simp]
theorem length_slice (n : ℕ) : (slice mem src n).length = n := by
  simp [slice]

/-- A range read in two parts. -/
theorem slice_add (m n : ℕ) : slice mem src (m + n) = slice mem src m ++ slice mem (src + BitVec.ofNat w m) n := by
  simp only [slice, range_add, map_append, map_map, append_cancel_left_eq]
  refine map_congr_left fun i _ => ?_
  simp [ofNat_add, BitVec.add_assoc]

/-- The distance of an address from a region, and from a place inside the region. -/
theorem toNat_sub_add (a base : BitVec w) {k : ℕ} (hk : k < 2 ^ w) : (a - (base + BitVec.ofNat w k)).toNat =
      if k ≤ (a - base).toNat then (a - base).toNat - k else (a - base).toNat + 2 ^ w - k := by
  have hsub : a - (base + BitVec.ofNat w k) = (a - base) - BitVec.ofNat w k := by
    rw [BitVec.sub_eq_add_neg, BitVec.sub_eq_add_neg, BitVec.sub_eq_add_neg, BitVec.neg_add,
      BitVec.sub_eq_add_neg, BitVec.add_assoc]
  rw [hsub, toNat_sub, toNat_ofNat, mod_eq_of_lt hk]
  split
  · rw [show 2 ^ w - k + (a - base).toNat = (a - base).toNat - k + 2 ^ w by omega, add_mod_right]
    exact mod_eq_of_lt (by omega)
  · rw [mod_eq_of_lt (by omega)]
    omega

/-- What a copy to a place inside a region leaves at an address, by its distance from the region. -/
theorem memcpy_apply (base : BitVec w) {k : ℕ} {bytes : List C}
    (hfits : k + bytes.length ≤ 2 ^ w) (hk : k < 2 ^ w) (a : BitVec w) :
    memcpy mem (base + BitVec.ofNat w k) bytes a =
      if k ≤ (a - base).toNat then (bytes[(a - base).toNat - k]?).getD (mem a) else mem a := by
  unfold memcpy
  rw [toNat_sub_add a base hk]
  split
  · rfl
  · have hlt := (a - base).isLt
    rw [List.getElem?_eq_none (by omega)]
    rfl

/-- The second memory has the bytes at an offset into the region, and differs from the first inside
the region only. -/
structure Delivers (before after : BitVec w → C) (base : BitVec w) (size : ℕ) (offset : ℕ)
    (bytes : List C) : Prop where
  fits : offset + bytes.length ≤ size
  bytes : ∀ a, offset ≤ (a - base).toNat → (a - base).toNat < offset + bytes.length →
    bytes[(a - base).toNat - offset]? = some (after a)
  frame : ∀ a, size ≤ (a - base).toNat → after a = before a

namespace Delivers

variable {before after : BitVec w → C} {base : BitVec w} {size offset : ℕ} {bytes : List C}

/-- Nothing is delivered at first. -/
theorem nil (mem : BitVec w → C) (base : BitVec w) {size offset : ℕ} (h : offset ≤ size) :
    Delivers mem mem base size offset [] :=
  ⟨h, fun a hle hlt => absurd hlt (by simpa using hle), fun _ _ => rfl⟩

/-- The first of the bytes. -/
theorem of_append {more : List C} (h : Delivers before after base size offset (bytes ++ more)) :
    Delivers before after base size offset bytes := by
  have hfits := h.fits
  rw [length_append] at hfits
  refine ⟨by omega, fun a hle hlt => ?_, h.frame⟩
  rw [← h.bytes a hle (by rw [length_append]; omega), getElem?_append_left (by omega)]

section

variable (h : Delivers before after base size offset bytes)
include h

/-- A copy right behind the bytes. -/
theorem append {more : List C} (hsize : size < 2 ^ w) (hfits : offset + bytes.length + more.length ≤ size) :
    Delivers before (memcpy after (base + BitVec.ofNat w (offset + bytes.length)) more) base size offset
      (bytes ++ more) := by
  refine ⟨by rw [length_append]; omega, fun a hle hlt => ?_, fun a ha => ?_⟩
  · rw [memcpy_apply _ _ (by omega) (by omega)]
    rw [length_append] at hlt
    split
    · rw [List.getElem?_append_right (by omega), List.getElem?_eq_getElem (by omega),
        List.getElem?_eq_getElem (by omega), Option.getD_some]
      congr 2
      omega
    · rw [getElem?_append_left (by omega)]
      exact h.bytes a hle (by omega)
  · rw [memcpy_apply _ _ (by omega) (by omega), if_pos (by omega), List.getElem?_eq_none (by omega)]
    exact h.frame a ha

/-- A copy beyond the bytes. -/
theorem beyond {k : ℕ} {more : List C}
    (hsize : size < 2 ^ w) (hk : offset + bytes.length ≤ k) (hfits : k + more.length ≤ size) :
    Delivers before (memcpy after (base + BitVec.ofNat w k) more) base size offset bytes := by
  refine ⟨h.fits, fun a hle hlt => ?_, fun a ha => ?_⟩
  · rw [memcpy_apply _ _ (by omega) (by omega), if_neg (by omega)]
    exact h.bytes a hle hlt
  · rw [memcpy_apply _ _ (by omega) (by omega), if_pos (by omega), List.getElem?_eq_none (by omega)]
    exact h.frame a ha

/-- A copy that fills the region up to the bytes. -/
theorem head {first : List C} (hsize : size < 2 ^ w) (hfirst : first.length = offset) :
    Delivers before (memcpy after base first) base size 0 (first ++ bytes) := by
  have hfits := h.fits
  have hbase : memcpy after base first = memcpy after (base + BitVec.ofNat w 0) first := by simp
  refine ⟨by rw [length_append]; omega, fun a _ hlt => ?_, fun a ha => ?_⟩
  · rw [hbase, memcpy_apply _ _ (by omega) (by omega), if_pos (zero_le _)]
    rw [length_append] at hlt
    by_cases hlow : (a - base).toNat < offset
    · rw [List.getElem?_append_left (by omega), List.getElem?_eq_getElem (by omega)]
      rfl
    · rw [List.getElem?_append_right (by omega), List.getElem?_eq_none (l := first) (by omega)]
      have hbytes := h.bytes a (by omega) (by omega)
      rw [Option.getD_none, ← hbytes]
      congr 1
      omega
  · rw [hbase, memcpy_apply _ _ (by omega) (by omega), if_pos (zero_le _),
      List.getElem?_eq_none (by omega)]
    exact h.frame a ha

end

/-- The bytes are those of the region. -/
theorem slice_eq (h : Delivers before after base size 0 bytes) (hsize : size < 2 ^ w) :
    slice after base bytes.length = bytes := by
  have hfits := h.fits
  refine ext_getElem? fun i => ?_
  by_cases hi : i < bytes.length
  · have hdist : (base + BitVec.ofNat w i - base).toNat = i := by
      rw [BitVec.add_comm, BitVec.add_sub_cancel, toNat_ofNat, mod_eq_of_lt (by omega)]
    have hbytes := h.bytes (base + BitVec.ofNat w i) (Nat.zero_le _) (by omega)
    rw [hdist, Nat.sub_zero] at hbytes
    rw [hbytes, slice, getElem?_map, getElem?_range hi]
    rfl
  · rw [List.getElem?_eq_none (by simp only [length_slice]; omega), List.getElem?_eq_none (by omega)]

end Delivers

end Copies

section Queues

open List

/-- The memory written, the source buffers, the transfers still queued, and how many are done. -/
structure CopyQueue (T B M : Type*) where
  memory : M
  buffers : B
  queue : List T
  done : ℕ

namespace CopyQueue

variable {T B M : Type*} (perform : B → T → M → M)

/-- The engine performs the next transfers, at most the given number of them. -/
def advance : ℕ → CopyQueue T B M → CopyQueue T B M
  | 0, e => e
  | k + 1, e =>
    match e.queue with
    | [] => e
    | t :: rest =>
      advance k { e with memory := perform e.buffers t e.memory, queue := rest, done := e.done + 1 }

/-- Queue a transfer; its number is the count of the transfers queued so far. -/
def push (t : T) (e : CopyQueue T B M) : ℕ × CopyQueue T B M :=
  (e.done + e.queue.length + 1, { e with queue := e.queue ++ [t] })

/-- Wait until the transfer with a number is done. -/
def await (number : ℕ) (e : CopyQueue T B M) : CopyQueue T B M := advance perform (number - e.done) e

/-- The memory once every queued transfer is done. -/
def settled (e : CopyQueue T B M) : M := e.queue.foldl (fun m t => perform e.buffers t m) e.memory

/-- Waiting changes no buffer and not what the memory will be; the queue gets shorter. -/
theorem advance_spec (k : ℕ) (e : CopyQueue T B M) :
    (advance perform k e).buffers = e.buffers ∧ (advance perform k e).settled perform = e.settled perform ∧
      (advance perform k e).queue = e.queue.drop k ∧
      (advance perform k e).done + (advance perform k e).queue.length = e.done + e.queue.length := by
  induction k generalizing e with
  | zero => exact ⟨rfl, rfl, rfl, rfl⟩
  | succ k ih =>
    cases hqueue : e.queue with
    | nil => simp [advance, hqueue]
    | cons t rest =>
      obtain ⟨hbuffers, hsettled, hrest, hcount⟩ :=
        ih { e with memory := perform e.buffers t e.memory, queue := rest, done := e.done + 1 }
      simp only [advance, hqueue]
      refine ⟨hbuffers, hsettled.trans ?_, hrest, ?_⟩
      · simp [settled, hqueue]
      · rw [hcount]
        simp
        omega

/-- After waiting for the last transfer nothing is queued. -/
theorem await_queue {number : ℕ} {e : CopyQueue T B M} (h : e.done + e.queue.length ≤ number) :
    (await perform number e).queue = [] := by
  rw [await, (advance_spec perform _ e).2.2.1]
  exact drop_eq_nil_of_le (by omega)

/-- A transfer that is queued takes effect after those before it. -/
theorem settled_push (t : T) (e : CopyQueue T B M) :
    (e.push t).2.settled perform = perform e.buffers t (e.settled perform) := by
  simp [settled, push]

/-- Buffers that no queued transfer reads may change. -/
theorem settled_buffers {e : CopyQueue T B M} {buffers : B}
    (h : ∀ t ∈ e.queue, ∀ m, perform buffers t m = perform e.buffers t m) :
    settled perform { e with buffers := buffers } = e.settled perform := by
  have hfold : ∀ queue : List T, (∀ t ∈ queue, ∀ m, perform buffers t m = perform e.buffers t m) →
      ∀ m, queue.foldl (fun m t => perform buffers t m) m =
        queue.foldl (fun m t => perform e.buffers t m) m := by
    intro queue
    induction queue with
    | nil => exact fun _ _ => rfl
    | cons t rest ih =>
      intro hqueue m
      rw [foldl_cons, foldl_cons, hqueue t mem_cons_self]
      exact ih (fun t ht => hqueue t (mem_cons_of_mem _ ht)) _
  exact hfold e.queue h e.memory

end CopyQueue

end Queues

end Ps2sdk.Lib
