import Grammers.Census

namespace Grammers.SenderPool

open Census

/-- A call, told by the sender of its response. -/
abbrev Rpc : Type := Nat

/-- How far the task of a connection is: between the failure of its sender and the end it does not
wait for anything, so that it cannot be aborted there. -/
inductive Task where
  | running
  | failing
  | draining
  | finished (panicked : Bool)
  deriving DecidableEq

structure Connection where
  dcId : Int32
  queue : List Rpc
  sender : List Rpc
  task : Task
  aborted : Bool
  joined : Bool
  deriving DecidableEq

inductive TaskAction where
  | take
  | answer (rpc : Rpc)
  | fail
  | close
  | drain
  | hangUp
  | kill
  | panic
  deriving DecidableEq

namespace Connection

variable {c c' : Connection} {a : TaskAction} {out : List Rpc} {reachable : Bool} {rpc : Rpc}

def rpcs (c : Connection) : List Rpc := c.queue ++ c.sender

/-- The receiver of the queue has been closed or dropped. -/
def closed (c : Connection) : Bool :=
  match c.task with
  | .running | .failing => false
  | .draining | .finished _ => true

def isFinished (c : Connection) : Bool :=
  match c.task with
  | .finished _ => true
  | _ => false

def abort (c : Connection) : Connection := { c with aborted := true }

def push (c : Connection) (rpc : Rpc) : Connection := { c with queue := c.queue ++ [rpc] }

/-- The future ends: what it owns is dropped. -/
def finish (c : Connection) (panicked : Bool) : Connection × List Rpc :=
  ({ c with queue := [], sender := [], task := .finished panicked }, c.rpcs)

/-- A step of `run_sender` and the calls whose responses it sends or drops. -/
def step (reachable : Bool) (c : Connection) : TaskAction → Option (Connection × List Rpc)
  | .take =>
    match c.task, c.queue with
    | .running, rpc :: queue => some ({ c with queue := queue, sender := c.sender ++ [rpc] }, [])
    | _, _ => none
  | .answer rpc =>
    if c.task = .running ∧ rpc ∈ c.sender then
      some ({ c with sender := c.sender.erase rpc }, [rpc])
    else none
  | .fail =>
    if c.task = .running then some ({ c with sender := [], task := .failing }, c.sender) else none
  | .close => if c.task = .failing then some ({ c with task := .draining }, []) else none
  | .drain =>
    match c.task, c.queue with
    | .draining, rpc :: queue => some ({ c with queue := queue }, [rpc])
    | .draining, [] => some (c.finish false)
    | _, _ => none
  | .hangUp =>
    if c.task = .running ∧ c.queue = [] ∧ reachable = false then some (c.finish false) else none
  | .kill => if c.task = .running ∧ c.aborted = true then some (c.finish false) else none
  | .panic => if c.task = .running then some (c.finish true) else none

/-- Nothing is left of a connection that has ended, nor of a sender that has failed. -/
structure Wf (c : Connection) : Prop where
  failed : c.task ≠ .running → c.sender = []
  ended : c.isFinished = true → c.queue = []

theorem Wf.closed_of_finished (h : c.isFinished = true) : c.closed = true := by
  unfold isFinished at h
  unfold closed
  cases htask : c.task <;> simp_all

/-- What a step of a connection's task leaves as it was, and what it does to its calls. -/
structure Stepped (c : Connection) (c' : Connection) (out : List Rpc) : Prop where
  dcId : c'.dcId = c.dcId
  wf : c'.Wf
  counted : ∀ r, c'.rpcs.count r + out.count r = c.rpcs.count r
  closed : c.closed = true → c'.closed = true

theorem finish_stepped (c : Connection) (panicked : Bool) :
    c.Stepped (c.finish panicked).1 (c.finish panicked).2 where
  dcId := rfl
  wf := ⟨fun _ => rfl, fun _ => rfl⟩
  counted r := by simp [finish, rpcs]
  closed _ := rfl

theorem step_spec (hw : c.Wf) (h : c.step reachable a = some (c', out)) : c.Stepped c' out := by
  cases a with
  | take =>
    simp only [step] at h
    split at h
    next rpc queue hrunning hqueue =>
      cases h
      refine ⟨rfl, ⟨fun hne => absurd hrunning hne, fun hfin => ?_⟩, fun r => ?_, id⟩
      · simp [isFinished, hrunning] at hfin
      · simp [rpcs, hqueue, List.count_cons]
        omega
    next => cases h
  | answer rpc =>
    simp only [step, Option.ite_none_right_eq_some] at h
    obtain ⟨⟨hrunning, hmem⟩, h⟩ := h
    cases h
    refine ⟨rfl, ⟨fun hne => absurd hrunning hne, fun hfin => ?_⟩, fun r => ?_, id⟩
    · simp [isFinished, hrunning] at hfin
    · have := (List.perm_cons_erase hmem).count_eq r
      simp only [rpcs, List.count_append, List.count_cons, List.count_nil] at this ⊢
      omega
  | fail =>
    simp only [step, Option.ite_none_right_eq_some] at h
    obtain ⟨hrunning, h⟩ := h
    cases h
    exact ⟨rfl, ⟨fun _ => rfl, fun hfin => absurd hfin Bool.false_ne_true⟩,
      fun r => by simp [rpcs], fun hclosed => by simp [closed, hrunning] at hclosed⟩
  | close =>
    simp only [step, Option.ite_none_right_eq_some] at h
    obtain ⟨hfailing, h⟩ := h
    cases h
    have hsender : c.sender = [] := hw.failed (by rw [hfailing]; decide)
    exact ⟨rfl, ⟨fun _ => hsender, fun hfin => absurd hfin Bool.false_ne_true⟩, fun r => rfl,
      fun _ => rfl⟩
  | drain =>
    simp only [step] at h
    split at h
    next rpc queue hdraining hqueue =>
      cases h
      have hsender : c.sender = [] := hw.failed (by rw [hdraining]; decide)
      refine ⟨rfl, ⟨fun _ => hsender, fun hfin => ?_⟩, fun r => ?_, id⟩
      · simp [isFinished, hdraining] at hfin
      · simp [rpcs, hqueue, List.count_cons]
    next =>
      cases h
      exact c.finish_stepped false
    next => cases h
  | hangUp =>
    simp only [step, Option.ite_none_right_eq_some] at h
    obtain ⟨-, h⟩ := h
    cases h
    exact c.finish_stepped false
  | kill =>
    simp only [step, Option.ite_none_right_eq_some] at h
    obtain ⟨-, h⟩ := h
    cases h
    exact c.finish_stepped false
  | panic =>
    simp only [step, Option.ite_none_right_eq_some] at h
    obtain ⟨-, h⟩ := h
    cases h
    exact c.finish_stepped true

theorem Stepped.mem (h : c.Stepped c' out) : ∀ r ∈ c'.rpcs, r ∈ c.rpcs := by
  intro r hr
  have hpos := List.count_pos_iff.mpr hr
  have := h.counted r
  exact List.count_pos_iff.mp (by omega)

/-- What is pushed is accepted by a queue that is open. -/
theorem push_wf (hw : c.Wf) (hopen : c.closed = false) (rpc : Rpc) : (c.push rpc).Wf where
  failed := hw.failed
  ended hfin := absurd (Wf.closed_of_finished (c := c) hfin) (by rw [hopen]; exact Bool.false_ne_true)

theorem count_push (c : Connection) (rpc r : Rpc) :
    (c.push rpc).rpcs.count r = c.rpcs.count r + [rpc].count r := by
  simp only [push, rpcs, List.count_append]
  omega

end Connection

end Grammers.SenderPool
