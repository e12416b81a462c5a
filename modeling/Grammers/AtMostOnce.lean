import Grammers.Session

namespace Grammers

open Checked StateError SortedSearch

/-- A record that none of the messages seen can be taken for a new one by. -/
def Received.Guards (r : Received) (seen : List Int64) : Prop :=
  ∃ h, Refines r h ∧ ∀ id ∈ seen, h.Covers id.toInt

namespace Received.Guards

variable {r : Received} {seen ids : List Int64} {id : Int64}

theorem not_mem (h : r.Guards seen) (hfloor : r.floor < id) (hnew : r.ids.contains id = false) :
    id ∉ seen := by
  obtain ⟨plain, hr, hcovers⟩ := h
  intro hm
  rcases hcovers id hm with hin | hle
  · rw [(hr.contains_iff id).mpr hin] at hnew
    cases hnew
  · rw [← hr.floor] at hle
    exact absurd hle (not_le.mpr (Int64.lt_iff_toInt_lt.mp hfloor))

theorem rememberReceived (h : r.Guards seen) (hpos : 0 < id) (hnew : r.ids.contains id = false) :
    (r.rememberReceived id).Guards (id :: seen) ∧
      ∀ x, x ≠ id → r.ids.contains x = false → (r.rememberReceived id).ids.contains x = false := by
  obtain ⟨plain, hr, hcovers⟩ := h
  have hpos' : 0 < id.toInt := Int64.lt_iff_toInt_lt.mp hpos
  have hr' := hr.rememberReceived hpos' ((ReplayIds.contains_iff hr.ok.sorted).not.mp (by simp [hnew]))
  refine ⟨⟨_, hr', fun x hx => ?_⟩, fun x hx hold => ?_⟩
  · rcases List.mem_cons.mp hx with rfl | hx
    · exact History.covers_remember (Or.inl rfl)
    · exact History.covers_remember (Or.inr (hcovers x hx))
  · rw [Bool.eq_false_iff, ne_eq, hr'.contains_iff]
    rw [Bool.eq_false_iff, ne_eq, hr.contains_iff] at hold
    intro hm
    unfold History.remember at hm
    split at hm
    next => exact hold hm
    next =>
      rcases Finset.mem_insert.mp hm with he | hm
      · exact hx (Int64.toInt_inj.mp he)
      · exact hold (Finset.mem_sdiff.mp hm).1

theorem foldl (h : r.Guards seen) (hnodup : ids.Nodup)
    (hnew : ∀ id ∈ ids, 0 < id ∧ r.ids.contains id = false) :
    (ids.foldl Received.rememberReceived r).Guards (ids ++ seen) := by
  induction ids generalizing r seen with
  | nil => exact h
  | cons id ids ih =>
    obtain ⟨hid, hrest⟩ := List.nodup_cons.mp hnodup
    obtain ⟨hpos, hc⟩ := hnew id (by simp)
    obtain ⟨hg, hothers⟩ := h.rememberReceived hpos hc
    have hall := ih hg hrest fun x hx => by
      obtain ⟨hxpos, hxc⟩ := hnew x (by simp [hx])
      exact ⟨hxpos, hothers x (fun he => hid (he ▸ hx)) hxc⟩
    obtain ⟨plain, hr, hcovers⟩ := hall
    refine ⟨plain, hr, fun x hx => hcovers x ?_⟩
    simp only [List.cons_append, List.mem_cons, List.mem_append] at hx ⊢
    tauto

end Received.Guards

namespace PacketResult

/-- The messages whose updates a packet returned. -/
def updates (p : PacketResult) : List Int64 :=
  match p.result with
  | .ok items => updateIdsOf items
  | .error _ => []

/-- What a packet did, with the messages that it recorded: none, if it was not accepted. -/
structure Records (m : Encrypted) (p : PacketResult) (ids : List Int64) : Prop where
  received : p.mtp.received = ids.foldl Received.rememberReceived m.received
  nodup : ids.Nodup
  new : ∀ id ∈ ids, 0 < id ∧ m.received.floor < id ∧ m.received.ids.contains id = false
  updates : p.updates.Nodup ∧ ∀ id ∈ p.updates, id ∈ ids
  changes : p.result.isOk = true →
    (p.changes.Nodup ∧ ∀ id ∈ p.changes, id ∈ ids) ∧ (p.changes = [] → p.mtp.service = m.service)

end PacketResult

namespace MtpEvent

def updates (event : MtpEvent) : List Int64 := event.outcomes.flatMap PacketResult.updates

def changes (event : MtpEvent) : List Int64 := event.outcomes.flatMap PacketResult.changes

end MtpEvent

namespace Encrypted

variable {z : Bytes → Inflated} {g : Bytes → Bytes} {c : Crypto} {w : World}

theorem processPlaintext_records (s : Encrypted) (plaintext : Bytes) :
    ∃ ids, PacketResult.Records s (s.processPlaintext z w plaintext) ids := by
  unfold processPlaintext
  split
  next => exact ⟨[], rfl, by simp, by simp, by simp [PacketResult.updates], nofun⟩
  next message _ =>
    split
    next e s' hr =>
      exact ⟨[], Inbound.received_of_processBounded hr, by simp, by simp,
        by simp [PacketResult.updates], nofun⟩
    next s' hr =>
      obtain ⟨ids, ht, hreceived⟩ := Inbound.done_of_processBounded s hr
      refine ⟨ids, hreceived, ?_, ht.new, ht.updates, fun _ => ⟨ht.changes, ht.service⟩⟩
      exact ht.sorted.imp fun hlt he => absurd (he ▸ hlt) (lt_irrefl _)

theorem received_of_setup {s s' : Encrypted} (h : s'.setup = s.setup) :
    s'.received = s.received := by
  simp only [setup, Prod.mk.injEq] at h
  exact h.1

/-- What a call tells and changes is on behalf of messages that were not seen before and that are
guarded from then on. -/
structure Once (seen : List Int64) (event : MtpEvent) (s' : Encrypted) (ids : List Int64) : Prop where
  guards : s'.received.Guards (ids ++ seen)
  new : ∀ id ∈ ids, id ∉ seen
  updates : event.updates.Nodup ∧ ∀ id ∈ event.updates, id ∈ ids
  changes : (∀ p ∈ event.outcomes, p.result.isOk = true) →
    event.changes.Nodup ∧ ∀ id ∈ event.changes, id ∈ ids

theorem once_silent {seen : List Int64} {event : MtpEvent} {s s' : Encrypted}
    (h : s.received.Guards seen) (hr : s'.received = s.received) (he : event.outcomes = []) :
    Once seen event s' [] where
  guards := by rwa [hr]
  new := by simp
  updates := by simp [MtpEvent.updates, he]
  changes := by simp [MtpEvent.changes, he]

theorem once_call {s : Encrypted} {seen : List Int64} (h : s.received.Guards seen) (op : MtpOp) :
    ∃ ids, Once seen (s.call z g c w op).1 (s.call z g c w op).2 ids := by
  cases op with
  | aside a =>
    cases a with
    | processPlaintext plaintext =>
      obtain ⟨ids, hp⟩ := processPlaintext_records (z := z) (w := w) s plaintext
      refine ⟨ids, ?_, fun id hid => ?_, ?_, fun hok => ?_⟩
      · simp only [call, turn, hp.received]
        exact h.foldl hp.nodup fun id hid => ⟨(hp.new id hid).1, (hp.new id hid).2.2⟩
      · exact h.not_mem (hp.new id hid).2.1 (hp.new id hid).2.2
      · simpa [call, turn, MtpEvent.updates, MtpEvent.outcomes] using hp.updates
      · have hresult := hok (s.processPlaintext z w plaintext)
          (by simp [call, turn, MtpEvent.outcomes])
        simpa [call, turn, MtpEvent.changes, MtpEvent.outcomes] using (hp.changes hresult).1
    | onServiceTimeout => exact ⟨[], once_silent h rfl rfl⟩
    | setReceiveUpdates enabled => exact ⟨[], once_silent h rfl rfl⟩
    | setDecodeLimits limits => exact ⟨[], once_silent h rfl rfl⟩
    | setAckBatch count => exact ⟨[], once_silent h rfl rfl⟩
  | push buffer request =>
    rcases hc : s.push w g buffer request with ⟨id, s', buffer', written⟩
    simp only [call, hc]
    exact ⟨[], once_silent h (received_of_setup (writes_push hc).setup) rfl⟩
  | finalize buffer =>
    rcases hc : s.finalize w c buffer with ⟨id, s', packet, written⟩
    obtain ⟨s₁, buffer₁, s₂, buffer₂, ha, _, hs, _, _⟩ := finalize_eq hc
    simp only [call, hc]
    exact ⟨[], once_silent h
      (received_of_setup (hs.setup.trans (writes_finalizeAcks ha).setup)) rfl⟩

theorem nodup_append_of_seen {xs ys ids seen : List Int64} (hx : xs.Nodup)
    (hids : ∀ id ∈ xs, id ∈ ids) (hy : ys.Nodup) (hseen : ∀ id ∈ ys, id ∉ ids ++ seen) :
    (xs ++ ys).Nodup := by
  refine List.nodup_append.mpr ⟨hx, hy, fun a ha b hb he => ?_⟩
  exact hseen b hb (List.mem_append_left _ (he ▸ hids a ha))

theorem run_once (ops : List MtpOp) : ∀ (s : Encrypted) (seen : List Int64), s.received.Guards seen →
    (((s.run z g c w ops).1.flatMap MtpEvent.updates).Nodup ∧
      ∀ id ∈ (s.run z g c w ops).1.flatMap MtpEvent.updates, id ∉ seen) ∧
    ((∀ p ∈ (s.run z g c w ops).1.flatMap MtpEvent.outcomes, p.result.isOk = true) →
      ((s.run z g c w ops).1.flatMap MtpEvent.changes).Nodup ∧
        ∀ id ∈ (s.run z g c w ops).1.flatMap MtpEvent.changes, id ∉ seen) := by
  induction ops with
  | nil =>
    intro s seen _
    simp [run]
  | cons op ops ih =>
    intro s seen h
    obtain ⟨ids, ho⟩ := once_call (z := z) (g := g) (c := c) (w := w) h op
    obtain ⟨hupdates, hchanges⟩ := ih _ _ ho.guards
    have hnot : ∀ {xs ys : List Int64}, (∀ id ∈ xs, id ∈ ids) → (∀ id ∈ ys, id ∉ ids ++ seen) →
        ∀ id ∈ xs ++ ys, id ∉ seen := by
      intro xs ys hx hy id hid
      rcases List.mem_append.mp hid with hid | hid
      · exact ho.new id (hx id hid)
      · exact fun hs => hy id hid (List.mem_append_right _ hs)
    simp only [run_cons, List.flatMap_cons]
    refine ⟨⟨?_, hnot ho.updates.2 hupdates.2⟩, fun hok => ?_⟩
    · exact nodup_append_of_seen ho.updates.1 ho.updates.2 hupdates.1 hupdates.2
    · have hc := ho.changes fun p hp => hok p (List.mem_append_left _ hp)
      have hcs := hchanges fun p hp => hok p (List.mem_append_right _ hp)
      exact ⟨nodup_append_of_seen hc.1 hc.2 hcs.1 hcs.2, hnot hc.2 hcs.2⟩

/-- However packets repeat messages, no message has its updates returned twice, and while all
packets are accepted none has the salts, the clock or the sequence changed twice. -/
theorem updates_at_most_once (b : Builder) (authKey : AuthKey) (sessionId : Int64) (ops : List MtpOp) :
    let (events, s) := (b.finish authKey sessionId).run z g c w ops
    (events.flatMap MtpEvent.updates).Nodup ∧
      ((∀ p ∈ events.flatMap MtpEvent.outcomes, p.result.isOk = true) →
        (events.flatMap MtpEvent.changes).Nodup) ∧
      ∀ plaintext, (s.processPlaintext z w plaintext).result.isOk = true →
        (s.processPlaintext z w plaintext).changes = [] →
        (s.processPlaintext z w plaintext).mtp.service = s.service := by
  have hstart : (b.finish authKey sessionId).received.Guards [] := ⟨_, Refines.new, by simp⟩
  have ho := run_once (z := z) (g := g) (c := c) (w := w) ops _ [] hstart
  rcases hr : (b.finish authKey sessionId).run z g c w ops with ⟨events, s⟩
  rw [hr] at ho
  refine ⟨ho.1.1, fun hok => (ho.2 hok).1, fun plaintext hok hnone => ?_⟩
  obtain ⟨ids, hp⟩ := processPlaintext_records (z := z) (w := w) s plaintext
  exact (hp.changes hok).2 hnone

end Encrypted

end Grammers
