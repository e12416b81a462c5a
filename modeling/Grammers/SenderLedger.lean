import Grammers.RequestInvariants

namespace Grammers

open SwapRemove

namespace Ledger

variable {rs rs' : List Request} {b : Book} {n : Nat}

theorem steps_drop (out rs : List Request) : Steps ⟨out ++ rs, b, n⟩ ⟨rs, b, n⟩ := by
  induction out with
  | nil => exact .refl
  | cons r out ih => exact .head .drop ih

theorem steps_of_sublist (h : rs'.Sublist rs) : Steps ⟨rs, b, n⟩ ⟨rs', b, n⟩ := by
  obtain ⟨out, hperm⟩ := h.exists_perm_append
  exact .head (.perm (hperm.trans List.perm_append_comm)) (steps_drop out rs')

theorem steps_complete (r : Request) (rs : List Request) (outcome : Outcome) :
    Steps ⟨r :: rs, b, n⟩ ⟨rs, b.notes (r.complete outcome), n⟩ := by
  unfold Request.complete
  split
  next tx h => exact .single (.complete outcome h)
  next => exact .single .drop

/-- A step that does not depend on where its request stands can be made in the middle. -/
theorem steps_middle {r r' : Request} {b' : Book} (pre rs : List Request)
    (h : ∀ rest, Step ⟨r :: rest, b, n⟩ ⟨r' :: rest, b', n⟩) :
    Steps ⟨pre ++ r :: rs, b, n⟩ ⟨pre ++ r' :: rs, b', n⟩ :=
  .head (.perm List.perm_middle) (.head (h _) (.single (.perm List.perm_middle.symm)))

end Ledger

namespace Sender

open Ledger

variable {σ τ : Type} {m : Mtp σ} {f : Framing τ}

/-- The requests a sender holds, with what happened so far. -/
def ledger (s : Sender σ τ) (b : Book) : Ledger := ⟨s.requests, b, s.enqueued⟩

/-- Between two calls: what is written of the buffer is what was counted, and a packet with requests
is in the buffer and was finalized. -/
structure Rest (s : Sender σ τ) (b : Book) : Prop where
  written : b.current.written = s.writeHead
  carried : b.current.carried ≠ [] → s.writeBuffer ≠ [] ∧ b.current.id ≠ none
  id : s.writeBuffer = [] → b.current.id = none

theorem rest_connect (transport : τ) (mtp : σ) : Rest (connect transport mtp) .empty :=
  ⟨rfl, fun h => absurd rfl h, fun _ => rfl⟩

/-- What leaves the buffer alone. -/
structure Aside (s : Sender σ τ) (b : Book) (s' : Sender σ τ) (b' : Book) : Prop where
  steps : Steps (s.ledger b) (s'.ledger b')
  pushes : b'.pushes = b.pushes
  carried : b'.current.carried = b.current.carried
  id : b'.current.id = b.current.id
  written : b'.current.written = b.current.written
  buffer : s'.writeBuffer = s.writeBuffer
  head : s'.writeHead = s.writeHead

namespace Aside

variable {s s' s'' : Sender σ τ} {b b' b'' : Book}

theorem of_current (hs : Steps (s.ledger b) (s'.ledger b')) (hc : b'.current = b.current)
    (hsent : b'.sent = b.sent) (hb : s'.writeBuffer = s.writeBuffer)
    (hh : s'.writeHead = s.writeHead) : Aside s b s' b' :=
  ⟨hs, by rw [Book.pushes, hsent, hc, Book.pushes], by rw [hc], by rw [hc], by rw [hc], hb, hh⟩

theorem trans (h : Aside s b s' b') (h' : Aside s' b' s'' b'') : Aside s b s'' b'' where
  steps := h.steps.trans h'.steps
  pushes := h'.pushes.trans h.pushes
  carried := h'.carried.trans h.carried
  id := h'.id.trans h.id
  written := h'.written.trans h.written
  buffer := h'.buffer.trans h.buffer
  head := h'.head.trans h.head

theorem rest (h : Aside s b s' b') (hr : Rest s b) : Rest s' b' where
  written := by rw [h.written, h.head, hr.written]
  carried := by rw [h.carried, h.buffer, h.id]; exact hr.carried
  id := by rw [h.buffer, h.id]; exact hr.id

end Aside

theorem aside_retain (s : Sender σ τ) (b : Book) (p : Request → Bool) :
    Aside s b { s with requests := s.requests.filter p } b :=
  .of_current (steps_of_sublist List.filter_sublist) rfl rfl rfl rfl

theorem aside_enqueueRequest {s s' : Sender σ τ} {b : Book} {body : Bytes} {result : Option Tx}
    {events : List Event} (h : s.enqueueRequest m body result = some (s', events))
    (hresult : ∀ tx, result = some tx → tx = s.enqueued) : Aside s b s' (b.notes events) := by
  unfold enqueueRequest at h
  split at h
  next hvalid =>
    split at h
    next hlen =>
      obtain ⟨rfl, rfl⟩ := Prod.mk.inj (Option.some.inj h)
      refine .of_current ?_ rfl rfl rfl rfl
      refine .head ?_ (.single (.perm (List.perm_append_singleton _ _).symm))
      exact .enqueue rfl hresult rfl rfl
    next => cases h
  next hvalid =>
    obtain ⟨rfl, rfl⟩ := Prod.mk.inj (Option.some.inj h)
    cases result with
    | none => exact .of_current (.single .skip) rfl rfl rfl rfl
    | some tx =>
      obtain rfl := hresult tx rfl
      exact .of_current (.single (.refuse .invalidInput)) rfl rfl rfl rfl

theorem aside_enqueueTrackedBody {s s' : Sender σ τ} {b : Book} {body : Bytes} {closed : Bool}
    {events : List Event} (h : s.enqueueTrackedBody m body closed = some (s', events)) :
    Aside s b s' (b.notes events) := by
  unfold enqueueTrackedBody at h
  split at h
  next =>
    obtain ⟨rfl, rfl⟩ := Prod.mk.inj (Option.some.inj h)
    exact .of_current (.single .skip) rfl rfl rfl rfl
  next => exact aside_enqueueRequest h fun tx htx => (Option.some.inj htx).symm

theorem aside_onPingTimeout {s s' : Sender σ τ} {b : Book} {pingId : Int64} {events : List Event}
    (h : s.onPingTimeout m pingId = some (s', events)) : Aside s b s' (b.notes events) := by
  unfold onPingTimeout at h
  simp only at h
  split at h
  next =>
    obtain ⟨rfl, rfl⟩ := Prod.mk.inj (Option.some.inj h)
    exact aside_retain s b _
  next => exact (aside_retain s b _).trans (aside_enqueueRequest h nofun)

theorem current_complete (b : Book) (r : Request) (outcome : Outcome) :
    (b.notes (r.complete outcome)).current = b.current := by
  unfold Request.complete
  split <;> rfl

theorem sent_complete (b : Book) (r : Request) (outcome : Outcome) :
    (b.notes (r.complete outcome)).sent = b.sent := by
  unfold Request.complete
  split <;> rfl

theorem aside_onError (s : Sender σ τ) (b : Book) (error : ReadError) :
    Aside s b (s.onError error).1 (b.notes (s.onError error).2) := by
  have hall : ∀ (rs : List Request) (b : Book),
      Steps ⟨rs, b, s.enqueued⟩ ⟨[], b.notes (rs.flatMap fun r =>
        r.complete (.read error (mayHaveBeenSent s.writeHead r.state))), s.enqueued⟩ ∧
      (b.notes (rs.flatMap fun r =>
        r.complete (.read error (mayHaveBeenSent s.writeHead r.state)))).current = b.current ∧
      (b.notes (rs.flatMap fun r =>
        r.complete (.read error (mayHaveBeenSent s.writeHead r.state)))).sent = b.sent := by
    intro rs
    induction rs with
    | nil => exact fun b => ⟨.refl, rfl, rfl⟩
    | cons r rs ih =>
      intro b
      rw [List.flatMap_cons, Book.notes_append]
      obtain ⟨hsteps, hcurrent, hsent⟩ := ih (b.notes (r.complete
        (.read error (mayHaveBeenSent s.writeHead r.state))))
      exact ⟨(steps_complete r rs _).trans hsteps, hcurrent.trans (current_complete b r _),
        hsent.trans (sent_complete b r _)⟩
  obtain ⟨hsteps, hcurrent, hsent⟩ := hall s.requests b
  exact .of_current hsteps hcurrent hsent rfl rfl

theorem carries_iff {msgId : MsgId} {r : Request} :
    carries msgId r = true ↔ ∃ pair, r.state.pair = some pair ∧ pair.msgId = msgId := by
  simp [carries, Option.any_eq_true]

/-- The first request of the message decides: it was sent and is taken out, or it was not. -/
theorem popRequest_cases (requests : List Request) (msgId : MsgId) :
    (∃ r ∈ requests, ∃ pair, r.state = .serialized pair ∧ pair.msgId = msgId ∧
      popRequest requests msgId = .error unsentResponse) ∨
    (∃ r rest pair, r.state = .sent pair ∧ pair.msgId = msgId ∧ (r :: rest).Perm requests ∧
      popRequest requests msgId = .ok (some r, rest)) ∨
    ((∀ r ∈ requests, carries msgId r = false) ∧
      popRequest requests msgId = .ok (none, requests)) := by
  unfold popRequest
  split
  next hnone =>
    refine .inr (.inr ⟨?_, rfl⟩)
    intro r hr
    simpa using List.findIdx?_eq_none_iff.mp hnone r hr
  next i hi =>
    obtain ⟨hlt, hcarries, -⟩ := List.findIdx?_eq_some_iff_getElem.mp hi
    have hget : requests[i]? = some requests[i] := List.getElem?_eq_getElem hlt
    rw [hget]
    obtain ⟨pair, hpair, hid⟩ := carries_iff.mp hcarries
    simp only
    split
    next pair' hstate =>
      simp only [hstate, RequestState.pair, Option.some.injEq] at hpair
      exact .inl ⟨_, List.getElem_mem hlt, pair', hstate, by rw [hpair]; exact hid, rfl⟩
    next hstate =>
      cases hs : requests[i].state with
      | notSerialized => simp [hs, RequestState.pair] at hpair
      | serialized pair' => exact absurd hs (hstate pair')
      | sent pair' =>
        simp only [hs, RequestState.pair, Option.some.injEq] at hpair
        exact .inr (.inl ⟨_, _, pair', hs, by rw [hpair]; exact hid, swapRemove_perm hget, rfl⟩)

theorem aside_answer (s : Sender σ τ) (b : Book) (msgId : MsgId) (outcome : Request → Outcome) :
    Aside s b { s with requests := (answer s.requests msgId outcome).1 }
      (b.notes (answer s.requests msgId outcome).2.1) := by
  unfold answer
  rcases popRequest_cases s.requests msgId with ⟨r, hr, pair, hstate, hid, h⟩ |
    ⟨r, rest, pair, hstate, hid, hperm, h⟩ | ⟨hnone, h⟩
  · rw [h]
    exact .of_current .refl rfl rfl rfl rfl
  · rw [h]
    exact .of_current (.head (.perm hperm.symm) (steps_complete r rest _)) (current_complete b r _)
      (sent_complete b r _) rfl rfl
  · rw [h]
    exact .of_current .refl rfl rfl rfl rfl

theorem notices_note_rejected (b : Book) (id : MsgId) :
    ∀ p ∈ (b.note (.rejected id)).sent, id ∈ p.notices := by
  intro p hp
  obtain ⟨q, -, rfl⟩ := List.mem_map.mp hp
  exact List.mem_cons_self

theorem badMessageVerdict_keep {closed : List Tx} {bad : BadMessage} {r r' : Request}
    (h : badMessageVerdict closed bad r = .keep r') :
    r' = r ∨ ∃ pair, r.state = .sent pair ∧ pair.Names bad.msgId ∧ r.protocolRetries < 3 ∧
      r' = { r with state := .notSerialized, protocolRetries := r.protocolRetries + 1 } := by
  unfold badMessageVerdict at h
  split at h
  next => exact .inl (Verdict.keep.inj h).symm
  next pair hstate =>
    split at h
    next => cases h
    next => exact .inl (Verdict.keep.inj h).symm
  next pair hstate =>
    split at h
    next hnames =>
      split at h
      next => cases h
      next =>
        split at h
        next hretry => exact .inr ⟨pair, hstate, hnames, hretry.2, (Verdict.keep.inj h).symm⟩
        next => cases h
    next => exact .inl (Verdict.keep.inj h).symm

theorem badMessageVerdict_remove {closed : List Tx} {bad : BadMessage} {r : Request}
    {out : List Event} (h : badMessageVerdict closed bad r = .remove out) :
    out = [] ∨ ∃ outcome, out = r.complete outcome := by
  unfold badMessageVerdict at h
  split at h
  next => cases h
  next =>
    split at h
    next => cases h
    next => cases h
  next pair hstate =>
    split at h
    next hnames =>
      split at h
      next => exact .inl (Verdict.remove.inj h).symm
      next =>
        split at h
        next => cases h
        next => exact .inr ⟨_, (Verdict.remove.inj h).symm⟩
    next => cases h

/-- A sweep never touches the packet in the buffer, and never forgets a notice. -/
structure Swept (s : Sender σ τ) (b : Book) (rs : List Request) (outs : List (List Event)) :
    Prop where
  steps : Steps (s.ledger b) ⟨rs, b.notes outs.flatten, s.enqueued⟩
  current : (b.notes outs.flatten).current = b.current
  sent : (b.notes outs.flatten).sent = b.sent

theorem swept_badMessage (s : Sender σ τ) (b : Book) (bad : BadMessage)
    (hnotices : ∀ p ∈ b.sent, bad.msgId ∈ p.notices) :
    Swept s b (sweep (badMessageVerdict s.closed bad) s.requests.length s.requests).1
      ([] ++ (sweep (badMessageVerdict s.closed bad) s.requests.length s.requests).2.1) := by
  apply sweep_keeps
  · intro xs ys outs hperm h
    exact ⟨h.steps.tail (.perm hperm), h.current, h.sent⟩
  · intro r r' rest outs hverdict h
    refine ⟨h.steps.trans ?_, h.current, h.sent⟩
    rcases badMessageVerdict_keep hverdict with rfl | ⟨pair, hstate, hnames, hretries, rfl⟩
    · exact .refl
    · exact .single (.retry hstate hnames (by rw [h.sent]; exact hnotices) hretries)
  · intro r out rest outs hverdict h
    have hflatten : (outs ++ [out]).flatten = outs.flatten ++ out := by simp
    rcases badMessageVerdict_remove hverdict with rfl | ⟨outcome, rfl⟩
    · rw [List.append_nil] at hflatten
      exact ⟨by rw [hflatten]; exact h.steps.tail .drop, by rw [hflatten]; exact h.current,
        by rw [hflatten]; exact h.sent⟩
    · refine ⟨?_, ?_, ?_⟩
      · rw [hflatten, Book.notes_append]
        exact h.steps.trans (steps_complete r rest outcome)
      · rw [hflatten, Book.notes_append]
        exact (current_complete _ r _).trans h.current
      · rw [hflatten, Book.notes_append]
        exact (sent_complete _ r _).trans h.sent
  · exact ⟨.refl, rfl, rfl⟩

theorem aside_processBadMessage (s : Sender σ τ) (b : Book) (bad : BadMessage) :
    Aside s b { s with requests := (processBadMessage s.closed s.requests bad).1 }
      (b.notes (processBadMessage s.closed s.requests bad).2.1) := by
  have h := swept_badMessage s (b.note (.rejected bad.msgId)) bad (notices_note_rejected b bad.msgId)
  rw [List.nil_append] at h
  refine ⟨.head (.reject bad.msgId) h.steps, ?_, ?_, ?_, ?_, rfl, rfl⟩
  · rw [← b.pushes_rejected bad.msgId, Book.pushes, Book.pushes, ← h.sent, ← h.current]
    rfl
  · exact (congrArg Packet.carried h.current).trans rfl
  · exact (congrArg Packet.id h.current).trans rfl
  · exact (congrArg Packet.written h.current).trans rfl

theorem aside_processItem (s : Sender σ τ) (b : Book) (item : Deserialization) :
    Aside s b { s with requests := (processItem s.closed s.requests item).1 }
      (b.notes (processItem s.closed s.requests item).2.1) := by
  cases item with
  | ownUpdate => exact .of_current .refl rfl rfl rfl rfl
  | update => exact .of_current .refl rfl rfl rfl rfl
  | rpcResult => exact aside_answer s b _ _
  | rpcError => exact aside_answer s b _ _
  | badMessage bad => exact aside_processBadMessage s b bad
  | failure => exact aside_answer s b _ _

theorem aside_processMtpBuffer (items : List Deserialization) :
    ∀ (s : Sender σ τ) (b : Book),
      Aside s b { s with requests := (processMtpBuffer s.closed s.requests items).1 }
        (b.notes (processMtpBuffer s.closed s.requests items).2.1) := by
  induction items with
  | nil => exact fun s b => .of_current .refl rfl rfl rfl rfl
  | cons item items ih =>
    intro s b
    have hitem := aside_processItem s b item
    rw [processMtpBuffer]
    split
    next requests events e heq =>
      rw [heq] at hitem
      exact hitem
    next requests events heq =>
      rw [heq] at hitem
      have hnext := ih { s with requests := requests } (b.notes events)
      simp only [Book.notes_append]
      exact hitem.trans hnext

theorem aside_onNetRead (fault : Option ReadError) (payloads : List Bytes) :
    ∀ (s : Sender σ τ) (b : Book),
      Aside s b (s.onNetRead m payloads fault).1 (b.notes (s.onNetRead m payloads fault).2.1) := by
  induction payloads with
  | nil => exact fun s b => .of_current .refl rfl rfl rfl rfl
  | cons payload payloads ih =>
    intro s b
    rw [onNetRead]
    split
    next => exact .of_current .refl rfl rfl rfl rfl
    next items mtp hd =>
      have hbuffer := aside_processMtpBuffer items s b
      split
      next requests events e heq =>
        rw [heq] at hbuffer
        exact ⟨hbuffer.steps, hbuffer.pushes, hbuffer.carried, hbuffer.id, hbuffer.written, rfl, rfl⟩
      next requests events heq =>
        rw [heq] at hbuffer
        have hnext := ih { s with mtp := mtp, requests := requests } (b.notes events)
        simp only [Book.notes_append]
        refine Aside.trans ?_ hnext
        exact ⟨hbuffer.steps, hbuffer.pushes, hbuffer.carried, hbuffer.id, hbuffer.written, rfl, rfl⟩

end Sender

end Grammers
