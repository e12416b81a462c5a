import Mathlib.Algebra.Order.BigOperators.Group.List
import Grammers.InboundPacket

namespace Grammers

open Checked StateError

namespace Spent

def output : Spent → Nat
  | .visit _ => 0
  | .decompress _ _ output => output.getD 0

theorem output_le_charge {limits : DecodeLimits} {item : Spent} (h : item.Within limits) :
    item.output ≤ item.charge := by
  cases item with
  | visit depth => exact Nat.le_refl 0
  | decompress depth charge output =>
    cases output with
    | none => exact Nat.zero_le _
    | some n => exact Nat.le_of_eq (h.2.2 n rfl)

theorem sum_output_le {limits : DecodeLimits} {items : List Spent}
    (h : ∀ x ∈ items, x.Within limits) :
    (items.map Spent.output).sum ≤ (items.map Spent.charge).sum :=
  List.sum_le_sum fun x hx => output_le_charge (h x hx)

end Spent

namespace Inbound

variable {z : Bytes → Inflated} {w : World}

theorem visit_too_deep (depth : Nat) {s : Inbound} (h : s.budget.limits.depth < depth) :
    visit depth s = .error (.error tooMuchWork) s := by
  unfold visit
  simp only [bind, EStateM.bind, get_eq]
  rw [if_pos (Or.inl h)]
  rfl

/-- The wrappers that are allowed around a message are those that the loop opens: it goes on as long
as there is one, and fails by itself. -/
def Opens (z : Bytes → Inflated) (message : ManualTl.Message) (depth : Nat) : Prop :=
  ∀ s : Inbound, unwrap z (s.budget.limits.depth + 1 - depth) message depth s =
    (do
      visit depth
      let constructor ← lift (constructorId message.body)
      if constructor ≠ gzipPackedId then pure (message, depth)
      else
        let body ← decompress z message.body (depth + 1)
        unwrap z (s.budget.limits.depth + 1 - (depth + 1)) { message with body := body }
          (depth + 1) : Act (ManualTl.Message × Nat)) s

/-- The same around a result. -/
def OpensResult (z : Bytes → Inflated) (result : Bytes) (depth : Nat) : Prop :=
  ∀ s : Inbound, unwrapResult z (s.budget.limits.depth - depth) result depth s =
    (if constructorId result = .ok gzipPackedId then do
      let body ← attempt (do
        visit (depth + 1)
        decompress z result (depth + 1))
      match body with
      | .ok body => unwrapResult z (s.budget.limits.depth - (depth + 1)) body (depth + 1)
      | .error e => pure (.error e)
    else pure (.ok result) : Act (Except DeserializeError Bytes)) s

theorem opens (message : ManualTl.Message) (depth : Nat) : Opens z message depth := by
  intro s
  by_cases h : depth ≤ s.budget.limits.depth
  · rw [show s.budget.limits.depth + 1 - depth = (s.budget.limits.depth + 1 - (depth + 1)) + 1 by omega]
    rfl
  · have hvisit := visit_too_deep depth (s := s) (by omega)
    rw [show s.budget.limits.depth + 1 - depth = 0 by omega]
    simp only [bind, EStateM.bind, hvisit]
    rfl

theorem opensResult (result : Bytes) (depth : Nat) : OpensResult z result depth := by
  intro s
  by_cases h : depth < s.budget.limits.depth
  · rw [show s.budget.limits.depth - depth = (s.budget.limits.depth - (depth + 1)) + 1 by omega]
    rfl
  · have hvisit := visit_too_deep (depth + 1) (s := s) (by omega)
    rw [show s.budget.limits.depth - depth = 0 by omega, unwrapResult]
    split
    next => simp only [bind, EStateM.bind, attempt, hvisit]
    next => rfl

end Inbound

namespace Encrypted

variable {z : Bytes → Inflated} {w : World}

/-- A packet is processed within its limits, and what it spent and what is left of its budget are
the budget, so that no more is taken than there is. -/
structure WithinBudget (limits : DecodeLimits) (p : PacketResult) : Prop where
  within : ∀ x ∈ p.spent, x.Within limits
  work : p.budget.work + (p.spent.map Spent.visits).sum = limits.work
  remaining : p.budget.remaining + (p.spent.map Spent.charge).sum = limits.expandedBytes

theorem withinBudget_of_spends {s : Encrypted} {after : Inbound} {p : PacketResult}
    (h : Inbound.Spends s.beginPacket after) (hspent : p.spent = after.spent)
    (hbudget : p.budget = after.budget) : WithinBudget s.decodeLimits p := by
  obtain ⟨more, hmore, hwithin, hwork, hremaining⟩ := h.spent
  rw [show s.beginPacket.spent = [] from rfl, List.nil_append] at hmore
  rw [← hmore, ← hspent] at hwithin hwork hremaining
  rw [← hbudget] at hwork hremaining
  exact ⟨hwithin, hwork.symm, hremaining.symm⟩

theorem withinBudget_processPlaintext (s : Encrypted) (plaintext : Bytes) :
    WithinBudget s.decodeLimits (s.processPlaintext z w plaintext) := by
  unfold processPlaintext
  split
  next => exact withinBudget_of_spends (.refl s.beginPacket) rfl rfl
  next message _ =>
    have h := Inbound.spends_coarse.processBounded (z := z) (w := w) message s.beginPacket
    split
    next hr =>
      rw [hr] at h
      exact withinBudget_of_spends h rfl rfl
    next hr =>
      rw [hr] at h
      exact withinBudget_of_spends h rfl rfl

/-- Whatever a packet contains, it keeps to its limits, and the loops that open its wrappers end by
themselves. -/
theorem packet_within_budget (s : Encrypted) (plaintext : Bytes) :
    let p := s.processPlaintext z w plaintext
    WithinBudget s.decodeLimits p ∧
      (p.spent.map Spent.output).sum ≤ s.decodeLimits.expandedBytes ∧
      (p.spent.map Spent.visits).sum ≤ s.decodeLimits.work ∧
      (∀ message depth, Inbound.Opens z message depth) ∧
      ∀ result depth, Inbound.OpensResult z result depth := by
  have h := withinBudget_processPlaintext (z := z) (w := w) s plaintext
  have hout := Spent.sum_output_le h.within
  have hwork := h.work
  have hremaining := h.remaining
  exact ⟨h, by omega, by omega, Inbound.opens, Inbound.opensResult⟩

end Encrypted

end Grammers
