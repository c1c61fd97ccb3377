import Ps2sdk.Lib.Run

/-!
# The request queue of a server thread

`_request_call` threads the servers with pending calls through their `link` fields, which also form the registration
list, and `SifGetNextRequest` follows their `next` fields. What keeps the two apart is that a queue never has two
servers: the loop with which `SifRegisterRpc` looks for the end of the list leaves it with `NULL`, and the second
registration stores through that. With one server that has at most one call pending the queue is a FIFO.
-/

namespace Ps2sdk.Sif

open Lib Function List

/-- A `SifRpcDataQueue_t`: its first registered server and its pending calls, and the links in the server
records. -/
structure Queue where
  first : Option ℕ
  start : Option ℕ
  last : Option ℕ
  active : Bool
  link : ℕ → Option ℕ
  next : ℕ → Option ℕ

/-- What happens at a queue. -/
inductive QueueEvent
  | call (server : ℕ)
  | getNext

variable (q : Queue)

/-- The queueing of `_request_call`. -/
def Queue.requestCall (server : ℕ) : Queue :=
  match q.start with
  | some _ =>
    { q with link := q.last.elim q.link fun last => update q.link last (some server), last := some server }
  | none => { q with start := some server, last := some server }

/-- `SifGetNextRequest`. -/
def Queue.getNextRequest : Option ℕ × Queue :=
  match q.start with
  | some server => (some server, { q with active := true, start := q.next server })
  | none => (none, { q with active := false })

/-- One event, with the server that is returned. -/
def Queue.step : QueueEvent → Option ℕ × Queue
  | .call server => (none, q.requestCall server)
  | .getNext => q.getNextRequest

/-- The servers that `search_svdata` finds in the queue. -/
inductive Queue.Finds (q : Queue) : ℕ → Prop
  | first {server : ℕ} : q.first = some server → q.Finds server
  | link {server after : ℕ} : q.Finds server → q.link server = some after → q.Finds after

/-- The queue as it is meant: the pending calls in their order. -/
def fifoStep (pending : List ℕ) : QueueEvent → Option ℕ × List ℕ
  | .call server => (none, pending ++ [server])
  | .getNext => (pending.head?, pending.tail)

/-- Calls are for registered servers that have no call pending. -/
def Queue.Admits (pending : List ℕ) (e : QueueEvent) : Prop :=
  ∀ server, e = .call server → q.Finds server ∧ server ∉ pending

/-- The links of the only server of a queue lead nowhere. -/
structure Queue.Single : Prop where
  link : ∀ server, q.first = some server → q.link server = none
  next : ∀ server, q.first = some server → q.next server = none

variable {q : Queue}

theorem Queue.Single.finds {server : ℕ} (h : q.Single) (hfinds : q.Finds server) : q.first = some server := by
  induction hfinds with
  | first hfirst => exact hfirst
  | link _ hlink ih => cases (h.link _ ih).symm.trans hlink

/-- The queue holds the pending calls, at most one, and its links are those after registration. -/
structure Queue.Serves (q : Queue) (pending : List ℕ) (q' : Queue) : Prop where
  first : q'.first = q.first
  link : q'.link = q.link
  next : q'.next = q.next
  start : q'.start = pending.head?
  short : pending.length ≤ 1
  own : ∀ server ∈ pending, q.first = some server

/-- One event keeps the queue in step with its pending calls. -/
theorem Queue.Serves.step (hsingle : q.Single) {pending : List ℕ} {q' : Queue} {e : QueueEvent}
    (h : q.Serves pending q') (hcall : q.Admits pending e) :
    (fifoStep pending e).1 = (q'.step e).1 ∧ q.Serves (fifoStep pending e).2 (q'.step e).2 := by
  obtain ⟨hfirst, hlink, hnext, hstart, hshort, hown⟩ := h
  cases e with
  | call server =>
    obtain ⟨hfinds, hnot⟩ := hcall server rfl
    have hserver := hsingle.finds hfinds
    -- a call that waits would be one of the only server
    obtain rfl : pending = [] := eq_nil_iff_forall_not_mem.mpr fun other hother =>
      hnot (Option.some.inj ((hown other hother).symm.trans hserver) ▸ hother)
    refine ⟨rfl, ?_⟩
    rw [Queue.step, Queue.requestCall, hstart]
    exact ⟨hfirst, hlink, hnext, rfl, le_rfl, fun other hother => mem_singleton.mp hother ▸ hserver⟩
  | getNext =>
    rw [Queue.step, Queue.getNextRequest]
    cases pending with
    | nil =>
      rw [show q'.start = none from hstart]
      exact ⟨rfl, hfirst, hlink, hnext, rfl, hshort, hown⟩
    | cons server rest =>
      rw [show q'.start = some server from hstart]
      obtain rfl : rest = [] := by simpa using hshort
      refine ⟨rfl, hfirst, hlink, hnext, ?_, by simp [fifoStep], by simp [fifoStep]⟩
      exact (congrFun hnext server).trans (hsingle.next server (hown server mem_cons_self))

end Ps2sdk.Sif
