import Grammers.Sender

namespace Grammers

open SwapRemove

namespace Sender

/-- What becomes of a request when a message is rejected. -/
inductive Fate where
  | untouched
  | dropped
  | retried
  | completed
  deriving DecidableEq

/-- Whether a request was sent in the message, or in the container of that name. -/
def sentIn (msgId : MsgId) (r : Request) : Bool :=
  match r.state with
  | .sent pair => pair.Names msgId
  | _ => false

def fate (closed : List Tx) (bad : BadMessage) (r : Request) : Fate :=
  if sentIn bad.msgId r then
    if isClosed closed r then .dropped
    else if bad.retryable ∧ r.protocolRetries < 3 then .retried
    else .completed
  else .untouched

def retry (r : Request) : Request :=
  { r with state := .notSerialized, protocolRetries := r.protocolRetries + 1 }

def reject (bad : BadMessage) (r : Request) : List Event :=
  r.complete (.badMessage bad.code r.protocolRetries)

variable {closed : List Tx} {bad : BadMessage} {requests : List Request}

/-- A message that was not written to the end cannot be rejected. -/
def Unsent (msgId : MsgId) (requests : List Request) : Prop :=
  ∀ r ∈ requests, ∀ pair, r.state = .serialized pair → ¬pair.Names msgId

theorem badMessageVerdict_eq {r : Request}
    (h : ∀ pair, r.state = .serialized pair → ¬pair.Names bad.msgId) :
    badMessageVerdict closed bad r =
      match fate closed bad r with
      | .untouched => .keep r
      | .dropped => .remove []
      | .retried => .keep (retry r)
      | .completed => .remove (reject bad r) := by
  unfold badMessageVerdict fate sentIn
  cases hs : r.state with
  | notSerialized => rfl
  | serialized pair => exact if_neg (h pair hs)
  | sent pair =>
    simp only [decide_eq_true_eq]
    by_cases hn : pair.Names bad.msgId
    · rw [if_pos hn, if_pos hn]
      by_cases hclosed : isClosed closed r = true
      · rw [if_pos hclosed, if_pos hclosed]
      · rw [if_neg hclosed, if_neg hclosed]
        by_cases hretry : bad.retryable = true ∧ r.protocolRetries < 3
        · rw [if_pos hretry, if_pos hretry]
          rfl
        · rw [if_neg hretry, if_neg hretry]
          rfl
    · rw [if_neg hn, if_neg hn]

theorem kept_perm (h : Unsent bad.msgId requests) :
    (requests.filterMap fun r => (badMessageVerdict closed bad r).kept).Perm
      (requests.filter (fate closed bad · = .untouched) ++
        (requests.filter (fate closed bad · = .retried)).map retry) := by
  induction requests with
  | nil => exact .refl _
  | cons r requests ih =>
    have hrest := ih fun r' hr' => h r' (List.mem_cons_of_mem _ hr')
    have hr : badMessageVerdict closed bad r = _ := badMessageVerdict_eq (h r List.mem_cons_self)
    rw [List.filterMap_cons, hr]
    cases hfate : fate closed bad r with
    | untouched => simpa [hfate, Verdict.kept] using hrest
    | dropped => simpa [hfate, Verdict.kept] using hrest
    | retried =>
      simp only [hfate, Verdict.kept, reduceCtorEq, decide_false, decide_true, Bool.false_eq_true,
        not_false_eq_true, List.filter_cons_of_neg, List.filter_cons_of_pos, List.map_cons]
      exact (hrest.cons _).trans List.perm_middle.symm
    | completed => simpa [hfate, Verdict.kept] using hrest

theorem removed_eq (h : Unsent bad.msgId requests) :
    (requests.filterMap fun r => (badMessageVerdict closed bad r).removed).flatten =
      (requests.filter (fate closed bad · = .completed)).flatMap (reject bad) := by
  induction requests with
  | nil => rfl
  | cons r requests ih =>
    have hrest := ih fun r' hr' => h r' (List.mem_cons_of_mem _ hr')
    have hr : badMessageVerdict closed bad r = _ := badMessageVerdict_eq (h r List.mem_cons_self)
    rw [List.filterMap_cons, hr]
    cases hfate : fate closed bad r with
    | untouched => simpa [hfate, Verdict.removed] using hrest
    | dropped => simpa [hfate, Verdict.removed] using hrest
    | retried => simpa [hfate, Verdict.removed] using hrest
    | completed => simpa [hfate, Verdict.removed] using hrest

/-- A rejected message is handled once for each request that was sent in it, and for no other. -/
theorem bad_message_touches_its_requests (closed : List Tx) (requests : List Request)
    (bad : BadMessage) (h : Unsent bad.msgId requests) :
    let r := processBadMessage closed requests bad
    r.2.2 = none ∧
    r.1.Perm (requests.filter (fate closed bad · = .untouched) ++
      (requests.filter (fate closed bad · = .retried)).map retry) ∧
    r.2.1 = .rejected bad.msgId ::
      (requests.reverse.filter (fate closed bad · = .completed)).flatMap (reject bad) := by
  have hfail : ∀ r ∈ requests, ∀ e, badMessageVerdict closed bad r ≠ .fail e := by
    intro r hr e
    rw [badMessageVerdict_eq (h r hr)]
    split <;> nofun
  obtain ⟨rs, hsweep, hperm⟩ := sweep_perm hfail
  unfold processBadMessage
  rw [hsweep]
  refine ⟨rfl, hperm.trans (kept_perm h), ?_⟩
  rw [← removed_eq fun r hr => h r (List.mem_reverse.mp hr)]

/-- One request of a container was given up by its caller, one has been retried too often. -/
theorem bad_message_touches_its_requests_container :
    let request (tag retries : Nat) (state : RequestState) : Request :=
      ⟨tag, retries, [0, 0, 0, 0], state, some tag, by decide⟩
    let requests := [request 0 0 (.sent ⟨4, 16⟩), request 1 0 (.sent ⟨8, 16⟩),
      request 2 3 (.sent ⟨12, 16⟩), request 3 0 (.serialized ⟨20, 20⟩)]
    (processBadMessage [0] requests ⟨16, 48⟩).2.1 =
      [.rejected 16, .completed 2 (.badMessage 48 3)] :=
  (bad_message_touches_its_requests _ _ _ (by
    intro r hr pair hs
    simp only [List.mem_cons, List.not_mem_nil, or_false] at hr
    rcases hr with rfl | rfl | rfl | rfl
    · cases hs
    · cases hs
    · cases hs
    · cases hs
      decide)).2.2

end Sender

end Grammers
