import Grammers.EncryptedMtp
import Grammers.Plain
import Grammers.SenderLedger
import Grammers.TransportCode

namespace Grammers

namespace Sender

open Ledger

variable {σ τ : Type} {m : Mtp σ} {f : Framing τ}

/-- What filling the buffer does: a packet that carries a request is in the buffer. -/
structure Filled (b : Book) (n : Nat) (rs rs' : List Request) (events : List Event)
    (buffer : Bytes) : Prop where
  steps : ∀ pre, Steps ⟨pre ++ rs, b, n⟩ ⟨pre ++ rs', b.notes events, n⟩
  id : (b.notes events).current.id = none
  written : (b.notes events).current.written = b.current.written
  carried : (b.notes events).current.carried ≠ [] → buffer ≠ []

theorem Filled.steps_cons {b : Book} {n : Nat} {rs rs' : List Request} {buffer : Bytes}
    {events : List Event} (h : Filled b n rs rs' events buffer) (pre : List Request)
    (r : Request) : Steps ⟨pre ++ r :: rs, b, n⟩ ⟨pre ++ r :: rs', b.notes events, n⟩ := by
  simpa using h.steps (pre ++ [r])

theorem fillLoop_filled (hm : m.Lawful) (n : Nat) (rs : List Request) :
    ∀ (mtp : σ) (buffer : Bytes) (b : Book), b.current.id = none →
      (b.current.carried ≠ [] → buffer ≠ []) →
      Filled b n rs (fillLoop m mtp buffer rs).1 (fillLoop m mtp buffer rs).2.1
        (fillLoop m mtp buffer rs).2.2.2 := by
  induction rs with
  | nil => exact fun mtp buffer b hid hc => ⟨fun _ => .refl, hid, rfl, hc⟩
  | cons r rs ih =>
    intro mtp buffer b hid hc
    rw [fillLoop]
    split
    next hstate =>
      split
      next mtp' buffer' hpush =>
        exact ⟨fun _ => .refl, hid, rfl, fun h => hm.push_none _ _ _ _ _ (hc h) hpush⟩
      next msgId mtp' buffer' hpush =>
        have hnext := ih mtp' buffer' (b.note (.pushed r.tag msgId)) hid
          (fun _ => hm.push_some _ _ _ _ _ _ hpush)
        refine ⟨?_, hnext.id, hnext.written, hnext.carried⟩
        intro pre
        have hpushed := steps_middle (n := n) pre rs
          (fun _ => Step.push (n := n) msgId hstate hid)
        exact hpushed.trans (hnext.steps_cons pre _)
    next =>
      have hnext := ih mtp buffer b hid hc
      exact ⟨fun pre => hnext.steps_cons pre r, hnext.id, hnext.written, hnext.carried⟩

/-- What every call keeps: the requests are accounted for, and the buffer holds the packet that is
being written. -/
structure Kept (s : Sender σ τ) (b : Book) : Prop where
  sound : Sound (s.ledger b)
  rest : Rest s b

theorem kept_connect (transport : τ) (mtp : σ) : Kept (connect transport mtp) .empty :=
  ⟨sound_empty, rest_connect transport mtp⟩

theorem Kept.aside {s s' : Sender σ τ} {b b' : Book} (h : Kept s b) (ha : Aside s b s' b') :
    Kept s' b' :=
  ⟨h.sound.steps ha.steps, ha.rest h.rest⟩

theorem Kept.tryFillWrite (hm : m.Lawful) {s s' : Sender σ τ} {b : Book} {events : List Event}
    (h : Kept s b) (hc : s.tryFillWrite m f = some (s', events)) : Kept s' (b.notes events) := by
  have hretained := h.aside (aside_retain s b (retainable s.closed))
  unfold Sender.tryFillWrite at hc
  simp only at hc
  split at hc
  next =>
    obtain ⟨rfl, rfl⟩ := Prod.mk.inj (Option.some.inj hc)
    exact hretained
  next hempty =>
    have hempty : s.writeBuffer = [] := not_not.mp hempty
    have hid := hretained.rest.id hempty
    have hfilled := fillLoop_filled hm s.enqueued (s.requests.filter (retainable s.closed)) s.mtp
      s.writeBuffer b hid (fun hcarried => (hretained.rest.carried hcarried).1)
    have hsound := hretained.sound.steps (hfilled.steps [])
    rw [List.nil_append] at hsound
    have hwritten := hfilled.written.trans hretained.rest.written
    split at hc
    next mtp' buffer' hfinal =>
      obtain ⟨rfl, rfl⟩ := Prod.mk.inj (Option.some.inj hc)
      have hnil := hm.finalize_none _ _ _ _ hfinal
      refine ⟨hsound, hwritten, ?_, fun _ => hfilled.id⟩
      intro hcarried
      exact absurd hnil (hfilled.carried hcarried)
    next id mtp' buffer' hfinal =>
      split at hc
      next => cases hc
      next transport' buffer'' hpack =>
        obtain ⟨rfl, rfl⟩ := Prod.mk.inj (Option.some.inj hc)
        have hne := f.pack_ne_nil _ _ _ _ (hm.finalize_some _ _ _ _ _ hfinal) hpack
        rw [Book.notes_append]
        refine ⟨hsound.step (.finalize id), hwritten, fun _ => ⟨hne, nofun⟩, fun h => absurd h hne⟩

theorem Kept.onNetWrite {s s' : Sender σ τ} {b : Book} {n : Nat} {events : List Event}
    {e : Option ReadError} (h : Kept s b) (hc : s.onNetWrite n = some (s', events, e)) :
    Kept s' (b.notes events) := by
  unfold Sender.onNetWrite at hc
  split at hc
  next =>
    obtain ⟨rfl, rfl, rfl⟩ := by simpa using hc
    exact h
  next =>
    have hwrite : Sound ⟨s.requests, b.note (.wrote n), s.enqueued⟩ := h.sound.step (.write n)
    simp only at hc
    split at hc
    next => cases hc
    next =>
      split at hc
      next =>
        obtain ⟨rfl, rfl, rfl⟩ := by simpa using hc
        exact ⟨hwrite, congrArg (· + n) h.rest.written, h.rest.carried, h.rest.id⟩
      next =>
        obtain ⟨rfl, rfl, rfl⟩ := by simpa using hc
        have hflush := hwrite.step (.flush fun hcarried => (h.rest.carried hcarried).2)
        exact ⟨hflush, rfl, fun hne => absurd rfl hne, fun _ => rfl⟩

theorem Kept.call (hm : m.Lawful) {s s' : Sender σ τ} {b : Book} {c : Call σ} {events : List Event}
    (h : Kept s b) (hc : s.call m f c = some (s', events)) : Kept s' (b.notes events) := by
  cases c with
  | enqueue body closed => exact h.aside (aside_enqueueTrackedBody hc)
  | cancel tx =>
    obtain ⟨rfl, rfl⟩ := Prod.mk.inj (Option.some.inj hc)
    exact ⟨h.sound, h.rest.written, h.rest.carried, h.rest.id⟩
  | configure mtp =>
    obtain ⟨rfl, rfl⟩ := Prod.mk.inj (Option.some.inj hc)
    exact ⟨h.sound, h.rest.written, h.rest.carried, h.rest.id⟩
  | tryFillWrite => exact h.tryFillWrite hm hc
  | onNetWrite n =>
    obtain ⟨⟨s'', events', e⟩, hwrite, heq⟩ := Option.map_eq_some_iff.mp hc
    obtain ⟨rfl, rfl⟩ := Prod.mk.inj heq
    exact h.onNetWrite hwrite
  | onNetRead payloads fault =>
    obtain ⟨rfl, rfl⟩ := Prod.mk.inj (Option.some.inj hc)
    exact h.aside (aside_onNetRead fault payloads s b)
  | processMtpBuffer items =>
    obtain ⟨rfl, rfl⟩ := Prod.mk.inj (Option.some.inj hc)
    exact h.aside (aside_processMtpBuffer items s b)
  | onServiceTimeout =>
    obtain ⟨rfl, rfl⟩ := Prod.mk.inj (Option.some.inj hc)
    exact ⟨h.sound, h.rest.written, h.rest.carried, h.rest.id⟩
  | onPingTimeout pingId => exact h.aside (aside_onPingTimeout hc)
  | onError error =>
    obtain ⟨rfl, rfl⟩ := Prod.mk.inj (Option.some.inj hc)
    exact h.aside (aside_onError s b error)

theorem Kept.run (hm : m.Lawful) (calls : List (Call σ)) :
    ∀ {s s' : Sender σ τ} {b : Book} {log : List Event}, Kept s b →
      s.run m f calls = some (s', log) → Kept s' (b.notes log) := by
  induction calls with
  | nil =>
    intro s s' b log h hrun
    obtain ⟨rfl, rfl⟩ := Prod.mk.inj (Option.some.inj hrun)
    exact h
  | cons c calls ih =>
    intro s s' b log h hrun
    obtain ⟨⟨s₁, events⟩, hcall, hrun⟩ := Option.bind_eq_some_iff.mp hrun
    obtain ⟨⟨s₂, more⟩, hmore, heq⟩ := Option.bind_eq_some_iff.mp hrun
    obtain ⟨rfl, rfl⟩ := Prod.mk.inj (Option.some.inj heq)
    rw [Book.notes_append]
    exact ih (h.call hm hcall) hmore

/-- The message that an item answers. -/
def answers : Deserialization → Option MsgId
  | .rpcResult msgId _ => some msgId
  | .rpcError msgId _ => some msgId
  | .failure msgId _ => some msgId
  | _ => none

/-- An answer to a message goes to the request that was sent and was last given its identifier, and
to no other. -/
def Completes (b : Book) (requests : List Request) (msgId : MsgId)
    (result : List Request × List Event × Option ReadError) : Prop :=
  (∃ r ∈ requests, isSent r.state ∧ b.latest r.tag = some msgId ∧ (r :: result.1).Perm requests ∧
    (∃ outcome, result.2.1 = r.complete outcome) ∧ result.2.2 = none) ∨
  ((∀ r ∈ requests, isSent r.state → b.latest r.tag ≠ some msgId) ∧ result.1 = requests ∧
    result.2.1 = [])

/-- The life of the requests of a sender. -/
structure Lifecycle (s : Sender σ τ) (b : Book) : Prop where
  empty : s.writeBuffer = [] → ∀ r ∈ s.requests, ∀ pair, r.state ≠ .serialized pair
  buffered : s.writeBuffer = [] → b.current.carried = []
  serialized_iff : ∀ r ∈ s.requests,
    (∃ pair, r.state = .serialized pair) ↔ ∃ id, (r.tag, id) ∈ b.current.carried
  container : ∀ r ∈ s.requests, ∀ pair, r.state = .serialized pair →
    b.current.id = some pair.containerMsgId
  distinct : s.requests.Pairwise fun r r' => ∀ pair ∈ r.state.pair, ∀ pair' ∈ r'.state.pair,
    pair.msgId ≠ pair'.msgId
  completed_once : (b.completed.map Prod.fst).Nodup
  not_retained : ∀ r ∈ s.requests, ∀ tx, r.result = some tx → tx ∉ b.completed.map Prod.fst
  attempts : ∀ tag, b.attempts tag ≤ 4
  answered : ∀ items requests events,
    processMtpBuffer s.closed s.requests items = (requests, events, none) →
    ∀ item msgId, answers item = some msgId →
      Completes (b.notes events) requests msgId (processItem s.closed requests item)

theorem mem_pushes_of_latest {b : Book} {tag : Nat} {id : MsgId} (h : b.latest tag = some id) :
    (tag, id) ∈ b.pushes := by
  obtain ⟨p, hp, rfl⟩ := Option.map_eq_some_iff.mp h
  have hmem := List.mem_of_getLast? hp
  obtain ⟨hpush, htag⟩ := List.mem_filter.mp hmem
  rw [decide_eq_true_eq] at htag
  rwa [← htag]

/-- Where identifiers are not given twice, the last identifier of a request tells it apart. -/
theorem eq_of_latest {l : Ledger} (h : Sound l) (hfresh : (l.book.pushes.map Prod.snd).Nodup)
    {r r' : Request} (hr : r ∈ l.requests) (hr' : r' ∈ l.requests) {id : MsgId}
    (hl : l.book.latest r.tag = some id) (hl' : l.book.latest r'.tag = some id) : r = r' := by
  have htags := List.inj_on_of_nodup_map hfresh (mem_pushes_of_latest hl) (mem_pushes_of_latest hl')
    rfl
  exact List.inj_on_of_nodup_map (List.nodup_append.mp h.owned.nodup).1 hr hr' (Prod.mk.inj htags).1

theorem distinct_of_sound {l : Ledger} (h : Sound l)
    (hfresh : (l.book.pushes.map Prod.snd).Nodup) :
    l.requests.Pairwise fun r r' => ∀ pair ∈ r.state.pair, ∀ pair' ∈ r'.state.pair,
      pair.msgId ≠ pair'.msgId := by
  have htags : l.requests.Pairwise fun r r' => r.tag ≠ r'.tag :=
    List.pairwise_map.mp (List.nodup_append.mp h.owned.nodup).1
  refine htags.imp_of_mem ?_
  intro r r' hr hr' hne pair hpair pair' hpair' heq
  have hl := (h.counted.held r hr).latest pair hpair
  have hl' := (h.counted.held r' hr').latest pair' hpair'
  rw [← heq] at hl'
  exact hne (congrArg Request.tag (eq_of_latest h hfresh hr hr' hl hl'))

theorem completes_answer {l : Ledger} (h : Sound l) (hfresh : (l.book.pushes.map Prod.snd).Nodup)
    (msgId : MsgId) (outcome : Request → Outcome) :
    Completes l.book l.requests msgId (answer l.requests msgId outcome) := by
  have hlatest {r : Request} (hr : r ∈ l.requests) {pair : MsgIdPair}
      (hpair : r.state.pair = some pair) : l.book.latest r.tag = some pair.msgId :=
    (h.counted.held r hr).latest pair hpair
  unfold answer
  rcases popRequest_cases l.requests msgId with ⟨r, hr, pair, hstate, hid, hpop⟩ |
    ⟨r, rest, pair, hstate, hid, hperm, hpop⟩ | ⟨hnone, hpop⟩
  · rw [hpop]
    refine .inr ⟨?_, rfl, rfl⟩
    intro r' hr' hsent hl
    have hl' := hlatest hr (by rw [hstate, RequestState.pair])
    rw [hid] at hl'
    obtain rfl := eq_of_latest h hfresh hr' hr hl hl'
    rw [hstate] at hsent
    cases hsent
  · rw [hpop]
    have hr := hperm.mem_iff.mp List.mem_cons_self
    have hl := hlatest hr (by rw [hstate, RequestState.pair])
    rw [hid] at hl
    exact .inl ⟨r, hr, by rw [hstate, isSent], hl, hperm, ⟨_, rfl⟩, rfl⟩
  · rw [hpop]
    refine .inr ⟨?_, rfl, rfl⟩
    intro r hr hsent hl
    cases hstate : r.state with
    | notSerialized => simp [hstate, isSent] at hsent
    | serialized pair => simp [hstate, isSent] at hsent
    | sent pair =>
      have hl' := hlatest hr (by rw [hstate, RequestState.pair])
      rw [hl] at hl'
      have hcarries : carries msgId r = true :=
        carries_iff.mpr ⟨pair, by rw [hstate, RequestState.pair], (Option.some.inj hl').symm⟩
      rw [hnone r hr] at hcarries
      cases hcarries

theorem completes_processItem {l : Ledger} (h : Sound l)
    (hfresh : (l.book.pushes.map Prod.snd).Nodup) (closed : List Tx) {item : Deserialization}
    {msgId : MsgId} (ha : answers item = some msgId) :
    Completes l.book l.requests msgId (processItem closed l.requests item) := by
  cases item with
  | rpcResult id body =>
    obtain rfl := Option.some.inj ha
    exact completes_answer h hfresh _ _
  | rpcError id error =>
    obtain rfl := Option.some.inj ha
    exact completes_answer h hfresh _ _
  | failure id error =>
    obtain rfl := Option.some.inj ha
    exact completes_answer h hfresh _ _
  | _ => cases ha

theorem Kept.carried_eq_nil {s : Sender σ τ} {b : Book} (h : Kept s b) (he : s.writeBuffer = []) :
    b.current.carried = [] := by
  by_contra hne
  exact (h.rest.carried hne).1 he

theorem Kept.lifecycle {s : Sender σ τ} {b : Book} (h : Kept s b)
    (hfresh : (b.pushes.map Prod.snd).Nodup) : Lifecycle s b := by
  have hin := h.sound.inPacket
  refine ⟨?_, h.carried_eq_nil, ?_, ?_, distinct_of_sound h.sound hfresh, ?_, ?_,
    h.sound.counted.bound, ?_⟩
  · intro he r hr pair hpair
    have hmem := (hin.serialized r hr pair hpair).1
    simp only [ledger, h.carried_eq_nil he, List.not_mem_nil] at hmem
  · intro r hr
    constructor
    · rintro ⟨pair, hpair⟩
      exact ⟨_, (hin.serialized r hr pair hpair).1⟩
    · rintro ⟨id, hmem⟩
      obtain ⟨pair, hpair, -⟩ := hin.carried r hr id hmem
      exact ⟨pair, hpair⟩
  · intro r hr pair hpair
    obtain ⟨hmem, hcontainer⟩ := hin.serialized r hr pair hpair
    obtain ⟨id, hid⟩ := Option.ne_none_iff_exists'.mp (h.rest.carried (List.ne_nil_of_mem hmem)).2
    rw [hcontainer id hid, hid]
  · exact (List.nodup_append.mp h.sound.owned.nodup).2.1
  · intro r hr tx htx hmem
    have htag := h.sound.owned.tagged r hr tx htx
    exact (List.nodup_append.mp h.sound.owned.nodup).2.2 r.tag (List.mem_map_of_mem hr) tx hmem
      htag.symm
  · intro items requests events hitems item msgId ha
    have haside := aside_processMtpBuffer items s b
    rw [hitems] at haside
    refine completes_processItem (h.sound.steps haside.steps) ?_ s.closed ha
    rw [← haside.pushes] at hfresh
    exact hfresh

/-- Whatever is asked of a sender, as long as no identifier is given twice: what is serialized is
what the packet in the buffer carries, a request is serialized four times at the most and completed
once, and an answer finds the one request it is for. -/
theorem request_lifecycle (hm : m.Lawful) (f : Framing τ) (transport : τ) (mtp : σ)
    (calls : List (Call σ)) (s : Sender σ τ) (log : List Event)
    (hrun : (connect transport mtp).run m f calls = some (s, log))
    (hfresh : ((Book.empty.notes log).pushes.map Prod.snd).Nodup) :
    Lifecycle s (Book.empty.notes log) :=
  ((kept_connect transport mtp).run hm calls hrun).lifecycle hfresh

/-- A session with a cipher that changes nothing, while time stands still. -/
def sampleMtp : Mtp Encrypted :=
  Encrypted.mtp (fun b => ⟨b, none⟩) id ⟨fun _ => DataV2.zeros 32, fun _ => Equiv.refl _, .little⟩
    ⟨fun _ => 0, fun _ => (1000, 5), fun _ => DataV2.zeros 32⟩

def sampleSession : Encrypted :=
  Builder.finish ⟨⟨2 ^ 24, 2 ^ 25, 8, 2 ^ 12⟩, 0, 0, none, true, 1⟩ ⟨DataV2.zeros 256, DataV2.zeros 8⟩ 7

/-- What a server sends that rejects a message because of its time. -/
def rejection (msgId : MsgId) : Bytes :=
  List.replicate 24 0 ++ (Tl.serializeI64 0 ++ (Tl.serializeI64 7 ++ (ManualTl.Message.serialize
    ⟨5, 0, Tl.serializeU32 0xa7eff811 ++ (Tl.serializeI64 msgId ++
      (Tl.serializeI32 4 ++ Tl.serializeI32 16))⟩ ++ List.replicate 12 0)))

/-- Two requests are written in a container, which is rejected, and packed again. -/
def retrying : List (Call Encrypted) :=
  [.enqueue [1, 2, 3, 4] false, .enqueue [5, 6, 7, 8] false, .tryFillWrite, .onNetWrite 122,
    .onNetRead [rejection 4294967296028] none, .tryFillWrite]

def sampleRun (calls : List (Call Encrypted)) : Option (Sender Encrypted Transport × List Event) :=
  (connect (.abridged .new) sampleSession).run sampleMtp (Transport.framing Transport.crc32Ieee) calls

theorem request_lifecycle_retried : ∃ s log,
    sampleRun (retrying ++ [.onNetWrite 7]) = some (s, log) ∧
    (Book.empty.notes log).attempts 0 = 2 ∧ (Book.empty.notes log).attempts 1 = 2 ∧
    Lifecycle s (Book.empty.notes log) := by
  have hany : (sampleRun (retrying ++ [.onNetWrite 7])).any (fun run =>
      decide (((Book.empty.notes run.2).pushes.map Prod.snd).Nodup ∧
        (Book.empty.notes run.2).attempts 0 = 2 ∧ (Book.empty.notes run.2).attempts 1 = 2)) = true := by
    decide +kernel
  obtain ⟨⟨s, log⟩, hrun, hlog⟩ := (Option.any_eq_true _ _).mp hany
  obtain ⟨hfresh, hfirst, hsecond⟩ := of_decide_eq_true hlog
  exact ⟨s, log, hrun, hfirst, hsecond,
    request_lifecycle Encrypted.mtp_lawful _ _ _ _ s log hrun hfresh⟩

theorem reported_of_complete {r : Request} (ht : r.tagged) {tx : Tx} {error : ReadError}
    {flag flag' : Bool} (h : .completed tx (.read error flag) ∈ r.complete (.read error flag')) :
    tx = r.tag ∧ flag' = flag := by
  unfold Request.complete at h
  split at h
  next tx' htx =>
    simp only [List.mem_singleton, Event.completed.injEq, Outcome.read.injEq, true_and] at h
    exact ⟨h.1.trans (ht tx' htx), h.2.symm⟩
  next => simp at h

/-- A request that is reported as not sent was not: nothing was written of the packet that carries
it, and the packets before that one were rejected. -/
theorem delivery_certainty (hm : m.Lawful) (f : Framing τ) (transport : τ) (mtp : σ)
    (calls : List (Call σ)) (s : Sender σ τ) (log : List Event)
    (hrun : (connect transport mtp).run m f calls = some (s, log)) (error : ReadError) (tx : Tx)
    (hreported : .completed tx (.read error false) ∈ (s.onError error).2) :
    (∀ id, (tx, id) ∈ (Book.empty.notes log).current.carried →
      (Book.empty.notes log).current.written = 0) ∧
    ∀ p ∈ (Book.empty.notes log).sent, ∀ id, (tx, id) ∈ p.carried → p.Rejected id := by
  have h := (kept_connect transport mtp).run hm calls hrun
  obtain ⟨r, hr, hevent⟩ := List.mem_flatMap.mp hreported
  obtain ⟨htag, hflag⟩ := reported_of_complete (h.sound.owned.tagged r hr) hevent
  subst htag
  have hnot : ∀ pair, r.state ≠ .sent pair := by
    intro pair hstate
    rw [hstate] at hflag
    cases hflag
  refine ⟨?_, ?_⟩
  · intro id hmem
    obtain ⟨pair, hstate, -⟩ := h.sound.inPacket.carried r hr id hmem
    rw [hstate] at hflag
    rw [h.rest.written]
    simpa [mayHaveBeenSent] using hflag
  · intro p hp id hmem
    exact h.sound.answered.of_not_sent hr hnot hp hmem

theorem delivery_certainty_retried : ∃ s log, sampleRun retrying = some (s, log) ∧
    (0, 20) ∈ (Book.empty.notes log).current.carried ∧ (Book.empty.notes log).current.written = 0 ∧
    ∃ p ∈ (Book.empty.notes log).sent, (0, 4294967296020) ∈ p.carried ∧ p.Rejected 4294967296020 := by
  have hany : (sampleRun retrying).any (fun run =>
      decide (.completed 0 (.read (.io .other) false) ∈ (run.1.onError (.io .other)).2 ∧
        (0, 20) ∈ (Book.empty.notes run.2).current.carried ∧
        ∃ p ∈ (Book.empty.notes run.2).sent, (0, 4294967296020) ∈ p.carried)) = true := by
    decide +kernel
  obtain ⟨⟨s, log⟩, hrun, hlog⟩ := (Option.any_eq_true _ _).mp hany
  obtain ⟨hreported, hcarried, p, hp, hsent⟩ := of_decide_eq_true hlog
  obtain ⟨hwritten, hrejected⟩ := delivery_certainty Encrypted.mtp_lawful _ _ _ _ s log hrun
    (.io .other) 0 hreported
  exact ⟨s, log, hrun, hcarried, hwritten 20 hcarried, p, hp, hsent, hrejected p hp _ hsent⟩

end Sender

end Grammers
