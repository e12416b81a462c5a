import Grammers.ParticipantIter

namespace Grammers

namespace Participants

inductive Call where
  | total
  | next

inductive Output where
  | total (total : Nat)
  | next (item : Option Participant)
  | failed

section

variable (overflowChecks : Bool) (server : Server)

def step (s : State) : Call → Option (Output × State)
  | .total => (total overflowChecks server s).map fun r => (r.1.elim .failed .total, r.2)
  | .next => (next overflowChecks server s).map fun r => (r.1.elim .failed .next, r.2)

/-- The outputs of calls one after the other, unless one of them panics. -/
def run (s : State) : List Call → Option (List Output × State)
  | [] => some ([], s)
  | call :: calls => do
    let (output, s) ← step overflowChecks server s call
    let (outputs, s) ← run s calls
    some (output :: outputs, s)

end

def start (peer : PeerKind) (chatId : Int) : State := ⟨.new peer chatId, 0⟩

def ChatParticipants.raw : ChatParticipants → List RawParticipant
  | forbidden selfParticipant => selfParticipant.toList.map ChatParticipant.raw
  | participants ps => ps.map ChatParticipant.raw

def FullChatReply.participants : FullChatReply → List Participant
  | full participants users => participants.raw.filterMap (participantOf users)
  | _ => []

def ChannelReply.listed : ChannelReply → List Participant
  | participants _ ps users => (ps.map ChannelParticipant.raw).filterMap (participantOf users)
  | _ => []

/-- What a peer's server answers: a small group always lists as many participants, and the pages of a
channel always report the same count. -/
def Proper (server : Server) (n : Nat) : PeerKind → Prop
  | .user => n = 0
  | .chat => ∀ i, match server.getFullChat i with
    | .full participants users => Listed users participants.raw ∧ participants.raw.length = n
    | .failed => True
    | _ => False
  | .channel => ∀ i, match server.getParticipants i with
    | .participants count ps users => Listed users (ps.map ChannelParticipant.raw) ∧ asUsize count = n
    | .failed => True
    | .notModified => False

def answered (server : Server) (peer : PeerKind) (i : Nat) : List Participant :=
  match peer with
  | .user => []
  | .chat => (server.getFullChat i).participants
  | .channel => (server.getParticipants i).listed

/-- The participants of the first replies, in order. -/
def received (server : Server) (peer : PeerKind) (asked : Nat) : List Participant :=
  (List.range asked).flatMap (answered server peer)

def Output.item : Output → Option Participant
  | .next item => item
  | _ => none

def returned (outputs : List Output) : List Participant := outputs.filterMap Output.item

/-- A small group's participants have all been returned. -/
def Ended (n : Nat) (outputs : List Output) : Prop :=
  .next none ∈ outputs ∨ 0 < n ∧ (returned outputs).length = n

def Output.Quiet : Output → Prop
  | .total _ => True
  | .next item => item = none
  | .failed => False

/-- What the callers see: every received participant once and in order, nothing more to come only
when all were returned, always the same total, and a small group that stays ended. -/
structure Exact (server : Server) (peer : PeerKind) (n : Nat) (outputs : List Output) (asked : Nat) :
    Prop where
  inOrder : returned outputs <+: received server peer asked
  complete : outputs.getLast? = some (.next none) → returned outputs = received server peer asked
  totals : ∀ total, .total total ∈ outputs → total = n
  ended : peer ≠ .channel → ∀ before output after, outputs = before ++ output :: after →
    Ended n before → output.Quiet

/-- No call panics, and what the callers see is exact after each of them. -/
def Faithful (overflowChecks : Bool) (server : Server) (peer : PeerKind) (chatId : Int) (n : Nat)
    (calls : List Call) : Prop :=
  ∀ before, before <+: calls → ∃ outputs s,
    run overflowChecks server (start peer chatId) before = some (outputs, s) ∧
      Exact server peer n outputs s.asked

def Call.asks : Call → IterBuffer GetParticipants Participant → Bool
  | .total, iter => iter.total.isNone
  | .next, iter => iter.nextRaw.isNone

/-- The total of a small group is not asked for after its last participant was returned, nor again
while the own participant of a forbidden chat waits to be returned; and a build with overflow checks
does not ask for a page that takes the offset out of its range. -/
def Timely (overflowChecks : Bool) (server : Server) (n : Nat) (s : State) (call : Call) : Prop :=
  match s.iter with
  | .empty => call = .total → n = 0
  | .chat _ buffer none => call = .total → buffer = []
  | .chat _ _ (some _) => True
  | .channel iter => call.asks iter → ∀ count ps users,
      server.getParticipants s.asked = .participants count ps users →
        (addOffset overflowChecks iter.request.offset ps.length).isSome

/-- Every call of the run is timely in the state that the calls before it lead to. -/
def TimelyRun (overflowChecks : Bool) (server : Server) (peer : PeerKind) (chatId : Int) (n : Nat)
    (calls : List Call) : Prop :=
  ∀ before call, before ++ [call] <+: calls → ∀ outputs s,
    run overflowChecks server (start peer chatId) before = some (outputs, s) →
      Timely overflowChecks server n s call

def ParticipantIter.buffered : ParticipantIter → List Participant
  | empty => []
  | chat _ buffer _ => buffer
  | channel iter => iter.buffer

variable {overflowChecks : Bool} {server : Server} {peer : PeerKind} {chatId : Int} {n : Nat}

theorem received_succ (asked : Nat) :
    received server peer (asked + 1) = received server peer asked ++ answered server peer asked := by
  rw [received, List.range_succ, List.flatMap_append, List.flatMap_singleton, received]

/-- What the iterator holds after the server was asked some number of times. -/
def Shape (server : Server) (peer : PeerKind) (n : Nat) (s : State) : Prop :=
  match s.iter with
  | .empty => peer ≠ .channel ∧ (received server peer s.asked).length = n
  | .chat _ buffer total => peer = .chat ∧ (∀ t ∈ total, t = n) ∧
      (buffer = [] → received server peer s.asked = [] ∧ (total = none ∨ n = 0)) ∧
      (buffer ≠ [] → (received server peer s.asked).length = n)
  | .channel iter => peer = .channel ∧ iter.limit = none ∧ (∀ t ∈ iter.total, t = n) ∧
      (iter.total = none → iter.buffer = [])

theorem shape_start (hproper : Proper server n peer) : Shape server peer n (start peer chatId) := by
  cases peer with
  | user => exact ⟨by decide, hproper.symm⟩
  | chat => exact ⟨rfl, by simp, fun _ => ⟨rfl, Or.inl rfl⟩, fun h => absurd rfl h⟩
  | channel => exact ⟨rfl, rfl, by simp [IterBuffer.fromRequest], fun _ => rfl⟩

/-- What filling the empty buffer does: the server is asked once more, and its participants are what
is buffered. -/
theorem fillBuffer_spec (hproper : Proper server n peer) {s : State} (hshape : Shape server peer n s)
    (hempty : s.iter.buffered = []) (hne : s.iter ≠ .empty)
    (hfits : ∀ iter, s.iter = .channel iter → ∀ count ps users,
      server.getParticipants s.asked = .participants count ps users →
        (addOffset overflowChecks iter.request.offset ps.length).isSome) :
    ∃ r t, fillBuffer overflowChecks server s = some (r, t) ∧ Shape server peer n t ∧ t.iter ≠ .empty ∧
      received server peer t.asked = received server peer s.asked ++ t.iter.buffered ∧
      (∀ total ∈ r, total = n ∧ (peer ≠ .channel → (received server peer t.asked).length = n)) ∧
      (r = none → t.iter.buffered = []) := by
  obtain ⟨iter, asked⟩ := s
  cases iter with
  | empty => exact absurd rfl hne
  | chat chatId buffer total =>
    obtain rfl : buffer = [] := hempty
    obtain ⟨rfl, htotal, hnone, -⟩ := hshape
    obtain ⟨hreceived, hcase⟩ := hnone rfl
    have hreply := hproper asked
    have hsucc := @received_succ server .chat asked
    simp only at hreceived hsucc hcase
    rw [hreceived, List.nil_append, answered] at hsucc
    simp only [fillBuffer, ne_eq, not_true_eq_false, if_false]
    cases hserver : server.getFullChat asked with
    | channelFull => simp [hserver] at hreply
    | communityFull => simp [hserver] at hreply
    | failed =>
      rw [hserver, FullChatReply.participants] at hsucc
      · refine ⟨none, _, rfl, ?_⟩
        exact ⟨⟨rfl, htotal, fun _ => ⟨hsucc, hcase⟩, fun h => absurd rfl h⟩, nofun,
          by simpa [hreceived, ParticipantIter.buffered] using hsucc, nofun, fun _ => rfl⟩
      · nofun
    | full participants users =>
      rw [hserver] at hreply hsucc
      obtain ⟨hlisted, hlen⟩ := hreply
      cases participants with
      | forbidden selfParticipant =>
        obtain ⟨hcollect, hsame⟩ := @collect_of_listed _ fromRawChat _ (fun _ _ => rfl) _ _ hlisted
        rw [ChatParticipants.raw, List.length_map] at hlen
        rw [FullChatReply.participants, ChatParticipants.raw] at hsucc
        rw [hlen] at hsame
        rw [← hsucc] at hcollect hsame
        simp only [hcollect, Option.bind_eq_bind, Option.bind_some]
        refine ⟨_, _, rfl, ?_⟩
        refine ⟨⟨rfl, htotal, fun hnil => ⟨hnil, hcase⟩, fun _ => hsame⟩, nofun, ?_, ?_, nofun⟩
        · simp [hreceived, ParticipantIter.buffered]
        · simp [hsame]
      | participants ps =>
        obtain ⟨hcollect, hsame⟩ := @collect_of_listed _ fromRawChat _ (fun _ _ => rfl) _ _ hlisted
        rw [ChatParticipants.raw, List.length_map] at hlen
        rw [FullChatReply.participants, ChatParticipants.raw] at hsucc
        rw [hlen] at hsame
        rw [← hsucc] at hcollect hsame
        simp only [hcollect, Option.bind_eq_bind, Option.bind_some]
        refine ⟨_, _, rfl, ?_⟩
        refine ⟨⟨rfl, by simp [hsame], fun hnil => ⟨hnil, Or.inr (by simpa [hnil] using hsame.symm)⟩,
          fun _ => hsame⟩, nofun, ?_, ?_, nofun⟩
        · simp [hreceived, ParticipantIter.buffered]
        · simp [hsame]
  | channel iter =>
    obtain ⟨rfl, hlimit, htotal, hnone⟩ := hshape
    have hreply := hproper asked
    have hsucc := @received_succ server .channel asked
    simp only [answered] at hsucc
    have hbuffer : iter.buffer = [] := hempty
    simp only [fillBuffer, hbuffer, ne_eq, not_true_eq_false, if_false]
    cases hserver : server.getParticipants asked with
    | notModified => simp [hserver] at hreply
    | failed =>
      rw [hserver, ChannelReply.listed, List.append_nil] at hsucc
      · refine ⟨none, _, rfl, ?_⟩
        exact ⟨⟨rfl, hlimit, htotal, fun _ => rfl⟩, nofun,
          by simpa [ParticipantIter.buffered] using hsucc, nofun, fun _ => rfl⟩
      · nofun
    | participants count ps users =>
      rw [hserver] at hreply hsucc
      obtain ⟨hlisted, rfl⟩ := hreply
      obtain ⟨offset, hoffset⟩ := Option.isSome_iff_exists.mp (hfits iter rfl count ps users hserver)
      obtain ⟨hcollect, -⟩ := @collect_of_listed _ fromRawChannel _ (fun _ _ => rfl) _ _ hlisted
      simp only [hoffset, hcollect, Option.bind_eq_bind, Option.bind_some]
      refine ⟨_, _, rfl, ?_⟩
      refine ⟨⟨rfl, hlimit, by simp, nofun⟩, nofun, hsucc, ?_, nofun⟩
      intro total htotal
      exact ⟨by simpa using htotal.symm, fun h => h.elim⟩

theorem pop_spec {s : State} (hshape : Shape server peer n s)
    (hfull : peer ≠ .channel → (received server peer s.asked).length = n) :
    Shape server peer n s.pop.2 ∧ s.pop.2.asked = s.asked ∧
      s.iter.buffered = s.pop.1.toList ++ s.pop.2.iter.buffered ∧
      (s.pop.1 = none → s.pop.2.iter.buffered = [] ∧ (peer ≠ .channel → s.pop.2.iter = .empty)) := by
  obtain ⟨iter, asked⟩ := s
  cases iter with
  | empty => exact ⟨hshape, rfl, rfl, fun _ => ⟨rfl, fun _ => rfl⟩⟩
  | chat chatId buffer total =>
    obtain ⟨rfl, htotal, -, -⟩ := hshape
    have hfull := hfull (by decide)
    cases buffer with
    | nil => exact ⟨⟨by decide, hfull⟩, rfl, rfl, fun _ => ⟨rfl, fun _ => rfl⟩⟩
    | cons p ps =>
      cases ps with
      | nil => exact ⟨⟨by decide, hfull⟩, rfl, rfl, nofun⟩
      | cons q qs => exact ⟨⟨rfl, htotal, nofun, fun _ => hfull⟩, rfl, rfl, nofun⟩
  | channel iter =>
    obtain ⟨limit, fetched, buffer, lastChunk, total, request⟩ := iter
    cases buffer with
    | nil => exact ⟨hshape, rfl, rfl, fun _ => ⟨rfl, fun h => absurd hshape.1 h⟩⟩
    | cons p ps =>
      obtain ⟨rfl, hlimit, htotal, hnone⟩ := hshape
      exact ⟨⟨rfl, hlimit, htotal, fun h => nomatch hnone h⟩, rfl, rfl, nofun⟩

/-- What a call does in a state of some shape. -/
structure Does (server : Server) (peer : PeerKind) (n : Nat) (s : State) (output : Output) (t : State) :
    Prop where
  shape : Shape server peer n t
  items : ∃ more, received server peer t.asked = received server peer s.asked ++ more ∧
    s.iter.buffered ++ more = output.item.toList ++ t.iter.buffered
  total : ∀ total, output = .total total → total = n
  last : output = .next none → t.iter.buffered = [] ∧ (peer ≠ .channel → t.iter = .empty)
  quiet : s.iter = .empty → output.Quiet ∧ t.iter = .empty

theorem does_pop {s : State} (hshape : Shape server peer n s)
    (hfull : peer ≠ .channel → (received server peer s.asked).length = n) :
    Does server peer n s (.next s.pop.1) s.pop.2 := by
  obtain ⟨ht, hasked, hitems, hlast⟩ := pop_spec hshape hfull
  refine ⟨ht, ⟨[], by rw [hasked, List.append_nil], by rw [List.append_nil]; exact hitems⟩, nofun,
    fun h => hlast (by injection h), fun hempty => ?_⟩
  simp [State.pop, hempty, Output.Quiet]

theorem does_fill (hproper : Proper server n peer) {s : State} (hshape : Shape server peer n s)
    (hempty : s.iter.buffered = []) (hne : s.iter ≠ .empty)
    (hfits : ∀ iter, s.iter = .channel iter → ∀ count ps users,
      server.getParticipants s.asked = .participants count ps users →
        (addOffset overflowChecks iter.request.offset ps.length).isSome) :
    ∃ r t, fillBuffer overflowChecks server s = some (r, t) ∧
      Does server peer n s (r.elim .failed .total) t := by
  obtain ⟨r, t, hfill, ht, -, hreceived, htotal, -⟩ := fillBuffer_spec hproper hshape hempty hne hfits
  refine ⟨r, t, hfill, ht, ⟨t.iter.buffered, hreceived, ?_⟩, ?_, ?_, fun h => absurd h hne⟩
  · cases r <;> simp [hempty, Output.item]
  · cases r with
    | none => nofun
    | some total =>
      rintro _ ⟨⟩
      exact (htotal total rfl).1
  · cases r <;> nofun

theorem does_fillAndPop (hproper : Proper server n peer) {s : State} (hshape : Shape server peer n s)
    (hempty : s.iter.buffered = []) (hne : s.iter ≠ .empty)
    (hfits : ∀ iter, s.iter = .channel iter → ∀ count ps users,
      server.getParticipants s.asked = .participants count ps users →
        (addOffset overflowChecks iter.request.offset ps.length).isSome) :
    ∃ r t, fillAndPop overflowChecks server s = some (r, t) ∧
      Does server peer n s (r.elim .failed .next) t := by
  obtain ⟨r, t, hfill, ht, htne, hreceived, htotal, hnone⟩ :=
    fillBuffer_spec hproper hshape hempty hne hfits
  cases r with
  | none =>
    refine ⟨none, t, by rw [fillAndPop, hfill]; rfl, ht, ⟨t.iter.buffered, hreceived, ?_⟩, nofun,
      nofun, fun h => absurd h hne⟩
    simp [hempty, Output.item]
  | some total =>
    obtain ⟨ht', hasked, hitems, hlast⟩ := pop_spec ht (htotal total rfl).2
    refine ⟨some t.pop.1, t.pop.2, by rw [fillAndPop, hfill]; rfl, ht',
      ⟨t.iter.buffered, by rw [hasked, hreceived], ?_⟩, nofun, fun h => hlast (by injection h),
      fun h => absurd h hne⟩
    rw [hempty, List.nil_append]
    exact hitems

theorem does_total {s : State} (hshape : Shape server peer n s) : Does server peer n s (.total n) s :=
  ⟨hshape, ⟨[], by simp, by simp [Output.item]⟩, fun _ h => by injection h with h; exact h.symm, nofun,
    fun h => ⟨trivial, h⟩⟩

theorem does_end {iter : IterBuffer GetParticipants Participant} {asked : Nat}
    (hshape : Shape server peer n ⟨.channel iter, asked⟩) (hempty : iter.buffer = []) :
    Does server peer n ⟨.channel iter, asked⟩ (.next none) ⟨.channel iter, asked⟩ :=
  ⟨hshape, ⟨[], by simp, by simp [Output.item]⟩, nofun,
    fun _ => ⟨hempty, fun h => absurd hshape.1 h⟩, nofun⟩

/-- A timely call does not panic. -/
theorem step_does (hproper : Proper server n peer) {s : State} (hshape : Shape server peer n s)
    {call : Call} (htimely : Timely overflowChecks server n s call) :
    ∃ output t, step overflowChecks server s call = some (output, t) ∧
      Does server peer n s output t := by
  have hone : ∀ {α : Type} {f : α → Output} {x : Option (Option α × State)},
      (∃ r t, x = some (r, t) ∧ Does server peer n s (r.elim .failed f) t) →
        ∃ output t, (x.map fun r => (r.1.elim .failed f, r.2)) = some (output, t) ∧
          Does server peer n s output t := by
    rintro α f _ ⟨r, t, rfl, hdoes⟩
    exact ⟨_, _, rfl, hdoes⟩
  obtain ⟨iter, asked⟩ := s
  cases call with
  | total =>
    refine hone ?_
    cases iter with
    | empty =>
      obtain rfl : n = 0 := htimely rfl
      exact ⟨some 0, _, rfl, does_total hshape⟩
    | chat chatId buffer stored =>
      cases stored with
      | some stored =>
        obtain rfl : stored = n := hshape.2.1 stored rfl
        exact ⟨some stored, _, rfl, does_total hshape⟩
      | none => exact @does_fill overflowChecks _ _ _ hproper _ hshape (htimely rfl) nofun nofun
    | channel iter =>
      cases hstored : iter.total with
      | some stored =>
        obtain rfl : stored = n := hshape.2.2.1 stored hstored
        exact ⟨some stored, _, by simp [total, hstored], does_total hshape⟩
      | none =>
        rw [total]
        simp only [hstored]
        refine does_fill hproper hshape (hshape.2.2.2 hstored) nofun ?_
        rintro _ ⟨⟩
        exact htimely (by simp [Call.asks, hstored])
  | next =>
    refine hone ?_
    cases iter with
    | empty => exact ⟨_, _, rfl, does_pop hshape fun _ => hshape.2⟩
    | chat chatId buffer stored =>
      rw [next]
      by_cases hbuffer : buffer = []
      · simp only [hbuffer, if_true] at hshape ⊢
        exact does_fillAndPop hproper hshape rfl nofun nofun
      · simp only [hbuffer, if_false]
        exact ⟨_, _, rfl, does_pop hshape fun _ => hshape.2.2.2 hbuffer⟩
    | channel iter =>
      have hlimit : iter.limitReached = false := by rw [IterBuffer.limitReached, hshape.2.1]; rfl
      rw [next]
      simp only [IterBuffer.nextRaw, hlimit, Bool.false_or]
      cases hbuffer : iter.buffer with
      | cons p ps =>
        simp only [List.isEmpty_cons, Bool.false_and, Bool.false_eq_true, if_false]
        exact ⟨_, _, rfl, does_pop hshape fun h => absurd hshape.1 h⟩
      | nil =>
        cases hlast : iter.lastChunk with
        | true => exact ⟨some none, _, rfl, does_end hshape hbuffer⟩
        | false =>
          refine does_fillAndPop hproper hshape hbuffer nofun ?_
          rintro _ ⟨⟩
          exact htimely (by simp [Call.asks, IterBuffer.nextRaw, hlimit, hbuffer, hlast])

/-- What holds of the outputs so far and of the state. -/
structure Invariant (server : Server) (peer : PeerKind) (n : Nat) (outputs : List Output) (s : State) :
    Prop where
  shape : Shape server peer n s
  items : returned outputs ++ s.iter.buffered = received server peer s.asked
  complete : outputs.getLast? = some (.next none) → s.iter.buffered = []
  totals : ∀ total, .total total ∈ outputs → total = n
  empty : peer ≠ .channel → .next none ∈ outputs → s.iter = .empty
  ended : peer ≠ .channel → ∀ before output after, outputs = before ++ output :: after →
    Ended n before → output.Quiet

theorem Invariant.exact {outputs : List Output} {s : State} (h : Invariant server peer n outputs s) :
    Exact server peer n outputs s.asked :=
  ⟨⟨_, h.items⟩, fun hlast => by rw [← h.items, h.complete hlast, List.append_nil], h.totals, h.ended⟩

/-- When a small group has ended, the iterator has given its state away. -/
theorem Invariant.empty_of_ended {outputs : List Output} {s : State}
    (h : Invariant server peer n outputs s) (hpeer : peer ≠ .channel) (hended : Ended n outputs) :
    s.iter = .empty := by
  obtain ⟨hshape, hitems, -, -, hempty, -⟩ := h
  rcases hended with hnone | ⟨hpos, hlen⟩
  · exact hempty hpeer hnone
  · obtain ⟨iter, asked⟩ := s
    have hsum := congrArg List.length hitems
    rw [List.length_append, hlen] at hsum
    cases iter with
    | empty => rfl
    | chat chatId buffer total =>
      obtain ⟨-, -, hnil, hfull⟩ := hshape
      by_cases hbuffer : buffer = []
      · rw [(hnil hbuffer).1, List.length_nil] at hsum
        omega
      · rw [hfull hbuffer] at hsum
        have hlength := List.length_pos_of_ne_nil hbuffer
        simp only [ParticipantIter.buffered] at hsum
        omega
    | channel iter => exact absurd hshape.1 hpeer

theorem Invariant.does {outputs : List Output} {s t : State} {output : Output}
    (h : Invariant server peer n outputs s) (hdoes : Does server peer n s output t) :
    Invariant server peer n (outputs ++ [output]) t := by
  obtain ⟨more, hreceived, hitems⟩ := hdoes.items
  refine ⟨hdoes.shape, ?_, ?_, ?_, ?_, ?_⟩
  · have hreturned : returned (outputs ++ [output]) = returned outputs ++ output.item.toList := by
      rw [returned, List.filterMap_append, returned]
      cases hitem : output.item <;> simp [hitem]
    rw [hreturned, List.append_assoc, ← hitems, ← List.append_assoc, h.items, hreceived]
  · intro hlast
    rw [List.getLast?_concat] at hlast
    exact (hdoes.last (by injection hlast)).1
  · intro total hmem
    rcases List.mem_append.mp hmem with hmem | hmem
    · exact h.totals total hmem
    · exact hdoes.total total (List.mem_singleton.mp hmem).symm
  · intro hpeer hmem
    rcases List.mem_append.mp hmem with hmem | hmem
    · exact (hdoes.quiet (h.empty hpeer hmem)).2
    · exact (hdoes.last (List.mem_singleton.mp hmem).symm).2 hpeer
  · intro hpeer before o after heq hended
    rcases List.eq_nil_or_concat after with rfl | ⟨after, last, rfl⟩
    · obtain ⟨rfl, hlast⟩ := List.append_inj' heq rfl
      obtain rfl : output = o := by injection hlast
      exact (hdoes.quiet (h.empty_of_ended hpeer hended)).1
    · have hsplit : outputs = before ++ o :: after := by
        rw [List.concat_eq_append, ← List.cons_append, ← List.append_assoc] at heq
        exact (List.append_inj' heq rfl).1
      exact h.ended hpeer before o after hsplit hended

theorem run_concat (s : State) (calls : List Call) (call : Call) :
    run overflowChecks server s (calls ++ [call]) =
      (run overflowChecks server s calls).bind fun r =>
        (step overflowChecks server r.2 call).map fun q => (r.1 ++ [q.1], q.2) := by
  induction calls generalizing s with
  | nil =>
    cases hstep : step overflowChecks server s call <;> simp [run, hstep]
  | cons c calls ih =>
    cases hstep : step overflowChecks server s c with
    | none => simp [run, hstep]
    | some r =>
      cases hrun : run overflowChecks server r.2 calls with
      | none => simp [run, hstep, ih, hrun]
      | some q =>
        cases hlast : step overflowChecks server q.2 call <;> simp [run, hstep, ih, hrun, hlast]

theorem run_of_timely (hproper : Proper server n peer) {calls : List Call}
    (htimely : TimelyRun overflowChecks server peer chatId n calls) (before : List Call)
    (hbefore : before <+: calls) :
    ∃ outputs s, run overflowChecks server (start peer chatId) before = some (outputs, s) ∧
      Invariant server peer n outputs s := by
  induction before using List.reverseRecOn with
  | nil =>
    refine ⟨[], _, rfl, shape_start hproper, ?_, nofun, nofun, nofun, ?_⟩
    · cases peer <;> rfl
    · intro _ before output after h
      simp at h
  | append_singleton before call ih =>
    obtain ⟨outputs, s, hrun, hinv⟩ := ih ((List.prefix_append _ _).trans hbefore)
    obtain ⟨output, t, hstep, hdoes⟩ :=
      step_does hproper hinv.shape (htimely before call hbefore outputs s hrun)
    refine ⟨outputs ++ [output], t, ?_, hinv.does hdoes⟩
    rw [run_concat, hrun, Option.bind_some, hstep]
    rfl

/-- A page that takes the offset out of its range makes the buffer's filling panic. -/
theorem fillBuffer_overflow {iter : IterBuffer GetParticipants Participant} {asked : Nat} {count : Int32}
    {ps : List ChannelParticipant} {users : List User}
    (hserver : server.getParticipants asked = .participants count ps users)
    (hoffset : addOffset overflowChecks iter.request.offset ps.length = none) :
    fillBuffer overflowChecks server ⟨.channel iter, asked⟩ = none := by
  by_cases hbuffer : iter.buffer = [] <;> simp [fillBuffer, hbuffer, hserver, hoffset]

theorem timely_of_step {s t : State} {call : Call} {output : Output}
    (hstep : step overflowChecks server s call = some (output, t))
    (htotal : ∀ total, output = .total total → total = n) : Timely overflowChecks server n s call := by
  obtain ⟨iter, asked⟩ := s
  cases iter with
  | empty =>
    rintro rfl
    obtain ⟨rfl, -⟩ : output = .total 0 ∧ t = ⟨.empty, asked⟩ := by simpa [step, total, eq_comm] using hstep
    exact (htotal 0 rfl).symm
  | chat chatId buffer stored =>
    cases stored with
    | some stored => trivial
    | none =>
      rintro rfl
      by_contra hbuffer
      simp [step, total, fillBuffer, hbuffer] at hstep
  | channel iter =>
    intro hasks count ps users hserver
    by_contra hnone
    have hfill := fillBuffer_overflow hserver (by simpa using hnone)
    cases call with
    | total =>
      have hstored : iter.total = none := by simpa [Call.asks] using hasks
      simp [step, total, hstored, hfill] at hstep
    | next =>
      have hraw : iter.nextRaw = none := by simpa [Call.asks] using hasks
      simp [step, next, hraw, fillAndPop, hfill] at hstep

/-- The participants of every peer come once and in order, with one total, exactly when a small group
is not asked for its total after its last participant, a forbidden chat not twice before its own
participant, and no page overflows the offset of a build that checks it. -/
theorem participants_iff (chatId : Int) (hproper : Proper server n peer) (calls : List Call) :
    Faithful overflowChecks server peer chatId n calls ↔
      TimelyRun overflowChecks server peer chatId n calls := by
  constructor
  · intro h before call hbefore outputs s hrun
    obtain ⟨outputs', s', hrun', hexact⟩ := h _ hbefore
    rw [run_concat, hrun, Option.bind_some, Option.map_eq_some_iff] at hrun'
    obtain ⟨⟨output, t⟩, hstep, heq⟩ := hrun'
    obtain ⟨rfl, rfl⟩ := Prod.mk.inj heq
    exact timely_of_step hstep fun total h => hexact.totals total (by simp [h])
  · intro h before hbefore
    obtain ⟨outputs, s, hrun, hinv⟩ := run_of_timely hproper h before hbefore
    exact ⟨outputs, s, hrun, hinv.exact⟩

/-- A small group with one member. -/
def single : Server :=
  ⟨fun _ => .full (.participants [.creator 7]) [⟨7, none⟩], fun _ => .failed⟩

theorem single_proper : Proper single 1 .chat := fun _ =>
  ⟨⟨List.nodup_singleton _, by simp [ChatParticipants.raw, ChatParticipant.raw]⟩, rfl⟩

theorem single_participants_iff :
    Proper single 1 .chat ∧ (Faithful true single .chat 5 1 [.total, .next] ↔
      TimelyRun true single .chat 5 1 [.total, .next]) :=
  ⟨single_proper, participants_iff 5 single_proper _⟩

/-- The total of a group of one is zero once its member was returned. -/
theorem total_lost :
    Proper single 1 .chat ∧ ¬Faithful true single .chat 5 1 [.next, .total] := by
  refine ⟨single_proper, fun h => ?_⟩
  obtain ⟨outputs, s, hrun, hexact⟩ := h _ List.prefix_rfl
  obtain rfl : [.next (some ⟨⟨7, none⟩, .creator .newFull none⟩), .total 0] = outputs :=
    congrArg Prod.fst (Option.some.inj hrun)
  exact absurd (hexact.totals 0 (by simp)) (by decide)

end Participants

end Grammers
