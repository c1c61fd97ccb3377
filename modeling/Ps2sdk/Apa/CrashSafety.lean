import Ps2sdk.Apa.Sessions
import Ps2sdk.Apa.Simulation

/-!
# Power loss

Programs change the drive by flushes, each a transaction of the journal, and by clearing sectors
aside at their end. Wherever power is lost while a safe request is served, the drive stands for headers
that the last or the next flush found in order, and the journal restore makes a table of them.
-/

namespace Ps2sdk.Apa

open Lib List Function Header Journal

variable {n : ℕ} {α : Type} {unit : ℕ} {s : Driver n} {t : Known Word Header} {x : Word} {disk lost : Disk}
  {intact : (Word → Header) → Prop}

/-- The headers on a drive are in order. -/
def InOrder (unit : ℕ) (intact : (Word → Header) → Prop) (disk : Disk) : Prop :=
  ∃ v, intact v ∧ ∀ x : Word, unit ∣ x.toNat → headerAt disk x = v x

/-- The drive stands for one whose headers are in order. -/
def Recoverable (unit : ℕ) (intact : (Word → Header) → Prop) (lost : Disk) : Prop :=
  ∃ target, apaLog.Represents lost target ∧ InOrder unit intact target

variable {sectors : List ℕ}

theorem Shows.inOrder_flush (h : Shows unit s t) (hunit : 512 ∣ unit) (hroom : t.dirty.card ≤ 126)
    (hintact : intact t.record) : InOrder unit intact (s.dev.perform (flushCommands s.pending)).contents := by
  refine ⟨t.record, hintact, fun x hx => ?_⟩
  have hflushed := (h.flush hunit hroom).stored x hx (Finset.notMem_empty x)
  rwa [apaCacheFlushAllDirty_eq s h.journal (h.pending_length.trans hroom)] at hflushed

/-- Power loss during a flush. -/
theorem Shows.powerLoss_flush (h : Shows unit s t) (hunit : 512 ∣ unit) (hroom : t.dirty.card ≤ 126)
    (hintact : intact t.record) (hquiet : Quiet s.dev.contents) (horder : InOrder unit intact s.dev.contents)
    (hloss : PowerLoss s.dev.contents (flushCommands s.pending) lost) : Recoverable unit intact lost := by
  have hlength := h.pending_length.trans hroom
  rcases powerLoss_flushCommands hquiet hlength (h.pending_place hunit) hloss with hold | hnew
  · exact ⟨_, hold, horder⟩
  · refine ⟨_, hnew, ?_⟩
    obtain ⟨v, hv, hsame⟩ := h.inOrder_flush hunit hroom hintact
    refine ⟨v, hv, fun x hx => ?_⟩
    rw [← hsame x hx, headerAt, headerAt,
      readBlock_agrees (perform_flushCommands s.dev hlength).1 (hunit.trans hx)]

/-- The writes that copy logged headers to their places. -/
def restoreWrites (disk : Disk) (entries : List (Word × ℕ)) : List (List ((ℕ × ℕ) × Sector)) :=
  entries.map fun entry => blockCells 0 entry.1.toNat (readBlock disk 0 (10 + 2 * entry.2))

/-- Copying logged headers outside the journal performs these writes. -/
theorem foldl_restoreHeader (i : Fin n) (entries : List (Word × ℕ)) (s : Driver n)
    (hlog : ∀ k < 126, readBlock s.dev.contents 0 (10 + 2 * k) = readBlock disk 0 (10 + 2 * k))
    (hindex : ∀ entry ∈ entries, entry.2 < 126) (hout : apaLog.Outside (restoreWrites disk entries)) :
    (entries.foldl (restoreHeader i) s).dev.contents = storeAll s.dev.contents (restoreWrites disk entries) := by
  induction entries generalizing s with
  | nil => rfl
  | cons entry rest ih =>
    have hcells : ∀ cell ∈ blockCells 0 entry.1.toNat (readBlock disk 0 (10 + 2 * entry.2)), ¬ apaLog.area cell.1 :=
      hout _ mem_cons_self
    have hfirst : (restoreHeader i s entry).dev.contents =
        store s.dev.contents (blockCells 0 entry.1.toNat (readBlock disk 0 (10 + 2 * entry.2))) := by
      rw [← hlog entry.2 (hindex entry mem_cons_self)]
      rfl
    rw [foldl_cons, ih (restoreHeader i s entry) ?_ (fun e he => hindex e (mem_cons_of_mem _ he))
      fun cells hmem => hout cells (mem_cons_of_mem _ hmem), hfirst]
    · rfl
    · intro k hk
      rw [hfirst, readBlock_store_other, hlog k hk]
      intro cell hcell
      have hnot := hcells cell hcell
      refine ⟨fun heq => hnot ?_, fun heq => hnot ?_⟩ <;> rw [heq] <;>
        exact ⟨rfl, by dsimp only; omega, by dsimp only; omega⟩

/-- The journal restore redoes what the journal asks for. -/
theorem apaJournalRestore_spec {target : Disk} (hfree : s.free ≠ []) (h : apaLog.Represents s.dev.contents target) :
    ∃ s', apaJournalRestore s = some s' ∧ apaLog.Agrees s'.dev.contents target := by
  have hredone := h.redone
  have hout := h.outside
  change apaLog.Agrees (storeAll _ (restoreWrites s.dev.contents (requested (s.dev.contents (0, 8))).zipIdx)) _
    at hredone
  change apaLog.Outside (restoreWrites s.dev.contents (requested (s.dev.contents (0, 8))).zipIdx) at hout
  unfold apaJournalRestore
  by_cases hmagic : (ofImage (s.dev.contents (0, 8))).magic = apalMagic
  · have hrequested : requested (s.dev.contents (0, 8)) = (ofImage (s.dev.contents (0, 8))).logged := by
      rw [requested, if_pos hmagic]
    rw [hrequested] at hredone hout
    rw [if_pos hmagic]
    by_cases hnum : (ofImage (s.dev.contents (0, 8))).num = 0
    · rw [if_pos hnum]
      refine ⟨_, rfl, ?_⟩
      have hnil : (ofImage (s.dev.contents (0, 8))).logged = [] := by
        simp [logged, hnum]
      rw [hnil] at hredone
      exact hredone
    · rw [if_neg hnum]
      cases hcase : s.free with
      | nil => exact absurd hcase hfree
      | cons i rest =>
        refine ⟨_, rfl, fun a ha => ?_⟩
        have hreset : ∀ disk : Disk, store disk [((0, 8), cleared.image)] a = disk a := fun disk =>
          RedoLog.agrees_store_inside apaLog.reset_area disk a ha
        change store _ [((0, 8), cleared.image)] a = _
        rw [hreset]
        have hlength := requested_length (s.dev.contents (0, 8))
        rw [hrequested] at hlength
        have hfold := @foldl_restoreHeader n s.dev.contents i
          (ofImage (s.dev.contents (0, 8))).logged.zipIdx
          ({ s with
            journalBuf := .ofImage (s.dev.contents (0, 8))
            free := rest }.setBuf i { s.cacheBuf i with dirty := false, nused := 1, sector := none })
          (fun _ _ => rfl) (fun entry hentry => by have := snd_lt_of_mem_zipIdx hentry; omega) hout
        refine Eq.trans (congrFun hfold a) (hredone a ha)
  · rw [if_neg hmagic]
    refine ⟨_, rfl, ?_⟩
    have hnil : requested (s.dev.contents (0, 8)) = [] := by rw [requested, if_neg hmagic]
    rw [hnil] at hredone
    exact hredone

/-- The journal restore on a drive that lost power brings back headers in order. -/
theorem Recoverable.restore (hunit : 512 ∣ unit) (hfree : s.free ≠ [])
    (h : Recoverable unit intact s.dev.contents) :
    ∃ s', apaJournalRestore s = some s' ∧ InOrder unit intact s'.dev.contents := by
  obtain ⟨target, hrepresents, v, hv, hsame⟩ := h
  obtain ⟨s', hs', hagrees⟩ := apaJournalRestore_spec hfree hrepresents
  refine ⟨s', hs', v, hv, fun x hx => ?_⟩
  rw [← hsame x hx, headerAt, headerAt, readBlock_agrees hagrees (hunit.trans hx)]

open ApaProg Driver Hdd

variable {n : ℕ} {α : Type} {encrypt : Id → Password → Password} {hdd : Hdd n} {s s' : Driver n} {xs : List Word}
  {free : Prop} {fd : ℕ} {slot : FileSlot}

end Ps2sdk.Apa
