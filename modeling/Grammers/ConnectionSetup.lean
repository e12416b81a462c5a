import Grammers.DcEndpoints
import Grammers.LabelledPath
import Grammers.Mutex

namespace Grammers

namespace DcSetup

open LabelledPath

/-- What `finalize_connection` is called with once the connection has been made. -/
structure Setup where
  dcOption : DcOption
  key : DcKey
  config : List TlDcOption

/-- How far a connection is; from where its record was read to where its key has been stored. -/
inductive Phase where
  | created (dcId : Int32)
  | connecting (dcOption : DcOption)
  | updateWaiting (setup : Setup)
  | updateReading (setup : Setup) (option : TlDcOption) (rest : List TlDcOption)
  | updateWriting (setup : Setup) (option : TlDcOption) (dcOption : DcOption)
      (rest : List TlDcOption)
  | persistWaiting (setup : Setup)
  | persistReading (setup : Setup)
  | persistWriting (setup : Setup) (dcOption : DcOption)
  | finished (result : Except SetupError Unit)
  | cancelled

/-- How a write of the session ends; one that fails or is given up may have been taken over by what
the session answers. -/
inductive Outcome where
  | done
  | failed (kept : Bool)
  | cancelled (kept : Bool)
  deriving DecidableEq

def Outcome.kept : Outcome → Bool
  | .done => true
  | .failed kept => kept
  | .cancelled kept => kept

inductive Action where
  | read (ok : Bool)
  | connect (result : Option (DcKey × List TlDcOption))
  | lock
  | write (outcome : Outcome)
  | cancel

/-- A record that the session keeps, with what it was made from. -/
inductive Write where
  | config (option : TlDcOption) (dcOption : DcOption)
  | persist (setup : Setup) (dcOption : DcOption)

def Write.dcOption : Write → DcOption
  | .config _ dcOption => dcOption
  | .persist _ dcOption => dcOption

namespace Phase

/-- The phases in which `config_lock` is held. -/
def holds : Phase → Bool
  | updateReading .. => true
  | updateWriting .. => true
  | persistReading .. => true
  | persistWriting .. => true
  | _ => false

/-- The second loop of `update_dc_options`, from its next option. -/
def updating (setup : Setup) : List TlDcOption → Phase
  | [] => .persistWaiting setup
  | option :: rest => .updateReading setup option rest

def afterWrite (next : Phase) : Outcome → Phase
  | .done => next
  | .failed _ => .finished (.error .session)
  | .cancelled _ => .cancelled

/-- A step of one connection: what the session keeps of it, and how far it is then. -/
def step (p : AddressParsers) (session : DcOptions) (free : Bool) :
    Phase → Action → Option (Option Write × Phase)
  | .created dcId, .read true =>
    match session.dcOption dcId with
    | some dcOption => some (none, .connecting dcOption)
    | none => some (none, .finished (.error .invalidDc))
  | .connecting dcOption, .connect (some (key, config)) =>
    some (none, .updateWaiting ⟨dcOption, key, config⟩)
  | .connecting _, .connect none => some (none, .finished (.error .connecting))
  | .updateWaiting setup, .lock =>
    if free then
      match validateDcOptions p (setup.config.filter TlDcOption.selected) with
      | .ok () => some (none, updating setup (setup.config.filter TlDcOption.selected))
      | .error e => some (none, .finished (.error e))
    else none
  | .updateReading setup option rest, .read true =>
    match refresh p option ((session.dcOption option.id).getD (blank option.id)) with
    | .ok dcOption => some (none, .updateWriting setup option dcOption rest)
    | .error e => some (none, .finished (.error e))
  | .updateWriting setup option dcOption rest, .write outcome =>
    some (if outcome.kept then some (.config option dcOption) else none,
      afterWrite (updating setup rest) outcome)
  | .persistWaiting setup, .lock => if free then some (none, .persistReading setup) else none
  | .persistReading setup, .read true =>
    some (none, .persistWriting setup
      { (session.dcOption setup.dcOption.id).getD setup.dcOption with authKey := some setup.key })
  | .persistWriting setup dcOption, .write outcome =>
    some (if outcome.kept then some (.persist setup dcOption) else none,
      afterWrite (.finished (.ok ())) outcome)
  | .created _, .read false => some (none, .finished (.error .session))
  | .updateReading .., .read false => some (none, .finished (.error .session))
  | .persistReading _, .read false => some (none, .finished (.error .session))
  | .connecting _, .cancel => some (none, .cancelled)
  | .updateWaiting _, .cancel => some (none, .cancelled)
  | .persistWaiting _, .cancel => some (none, .cancelled)
  | _, _ => none

end Phase

/-- The session, the lock of its config, and the connections that are being set up. -/
structure State where
  session : DcOptions
  configLock : Option Nat
  connections : List Phase

def State.init (session : DcOptions) (dcs : List Int32) : State :=
  ⟨session, none, dcs.map Phase.created⟩

def DcOptions.keep (session : DcOptions) : Option Write → DcOptions
  | some write => session.setDcOption write.dcOption
  | none => session

def step (p : AddressParsers) (s : State) (i : Nat) (a : Action) : Option (Option Write × State) := do
  let phase ← s.connections[i]?
  let (write, next) ← phase.step p s.session s.configLock.isNone a
  some (write, {
    session := s.session.keep write
    configLock := Mutex.pass Phase.holds s.configLock i phase next
    connections := s.connections.set i next })

structure Event where
  connection : Nat
  action : Action
  write : Option Write

def Step (p : AddressParsers) (s : State) (e : Event) (t : State) : Prop :=
  step p s e.connection e.action = some (e.write, t)

/-- The actions of connections, one after the other. -/
def State.run (p : AddressParsers) (s : State) : List (Nat × Action) → Option (List Event × State)
  | [] => some ([], s)
  | (i, a) :: actions => do
    let (write, t) ← step p s i a
    let (events, u) ← t.run p actions
    some (⟨i, a, write⟩ :: events, u)

theorem State.path_of_run {p : AddressParsers} {s u : State} {actions : List (Nat × Action)}
    {events : List Event} (h : s.run p actions = some (events, u)) : Path (Step p) s events u := by
  induction actions generalizing s events with
  | nil =>
    cases h
    exact Path.nil
  | cons action actions ih =>
    obtain ⟨⟨write, t⟩, hstep, h⟩ := Option.bind_eq_some_iff.mp h
    obtain ⟨⟨rest, u'⟩, hrest, h⟩ := Option.bind_eq_some_iff.mp h
    cases h
    exact Path.cons hstep (ih hrest)

/-- The key that a write leaves behind for a datacenter, if it was a persist for it. -/
def Write.keyFor (dc : Int32) : Write → Option DcKey
  | .persist setup _ => if setup.dcOption.id = dc then some setup.key else none
  | .config .. => none

/-- The endpoints that a write leaves behind for a datacenter, if a config said them. -/
def Write.endpointsFor (dc : Int32) : Write → Option (SocketAddrV4 × SocketAddrV6)
  | .config option dcOption =>
    if option.id = dc then some (dcOption.ipv4, dcOption.ipv6) else none
  | .persist .. => none

/-- What the last of the writes that say something says. -/
def lastOf {α : Type} (f : Write → Option α) (events : List Event) : Option α :=
  events.reverse.findSome? fun e => e.write.bind f

theorem lastOf_append {α : Type} (f : Write → Option α) (events : List Event) (e : Event) :
    lastOf f (events ++ [e]) = (e.write.bind f).or (lastOf f events) := by
  rw [lastOf, List.reverse_append, List.reverse_singleton, List.singleton_append,
    List.findSome?_cons]
  cases e.write.bind f with
  | none => rfl
  | some x => rfl

variable {p : AddressParsers} {session : DcOptions} {setup : Setup} {option : TlDcOption}
  {dcOption : DcOption} {rest : List TlDcOption} {phase next : Phase} {free : Bool} {a : Action}
  {write : Option Write}

/-- What a connection relies on at its phase. -/
def Phase.Sound (p : AddressParsers) (session : DcOptions) : Phase → Prop
  | .created _ => True
  | .connecting dcOption => (session.dcOption dcOption.id).isSome = true
  | .updateWaiting setup => (session.dcOption setup.dcOption.id).isSome = true
  | .updateReading setup option rest =>
    (session.dcOption setup.dcOption.id).isSome = true ∧ ∀ o ∈ option :: rest, o.Valid p
  | .updateWriting setup option dcOption rest =>
    (session.dcOption setup.dcOption.id).isSome = true ∧ (∀ o ∈ rest, o.Valid p) ∧
      dcOption.id = option.id ∧ dcOption.authKey = session.authKey option.id
  | .persistWaiting setup => (session.dcOption setup.dcOption.id).isSome = true
  | .persistReading setup => (session.dcOption setup.dcOption.id).isSome = true
  | .persistWriting setup dcOption =>
    (session.dcOption setup.dcOption.id).isSome = true ∧ dcOption.id = setup.dcOption.id ∧
      dcOption.authKey = some setup.key ∧
      session.endpoints setup.dcOption.id = some (dcOption.ipv4, dcOption.ipv6)
  | .finished result => ∀ message, result = .error (.invalidData message) →
    message = "invalid datacenter endpoint"
  | .cancelled => True

/-- A write takes over the key that the session has, and a persist the endpoints. -/
def Write.Sound (session : DcOptions) : Write → Prop
  | .config option dcOption =>
    dcOption.id = option.id ∧ dcOption.authKey = session.authKey option.id
  | .persist setup dcOption =>
    dcOption.id = setup.dcOption.id ∧ dcOption.authKey = some setup.key ∧
      session.endpoints setup.dcOption.id = some (dcOption.ipv4, dcOption.ipv6)

theorem Write.Sound.authKey {w : Write} (h : w.Sound session) (dc : Int32) :
    (session.setDcOption w.dcOption).authKey dc = (w.keyFor dc).or (session.authKey dc) := by
  cases w with
  | config option dcOption =>
    obtain ⟨hid, hkey⟩ := h
    refine (session.authKey_setDcOption dcOption dc).trans ?_
    by_cases heq : dc = dcOption.id
    · rw [if_pos heq, hkey, heq, hid]
      rfl
    · exact if_neg heq
  | persist setup dcOption =>
    obtain ⟨hid, hkey, -⟩ := h
    refine (session.authKey_setDcOption dcOption dc).trans ?_
    by_cases heq : setup.dcOption.id = dc
    · rw [if_pos (hid.trans heq).symm, Write.keyFor, if_pos heq, hkey, Option.some_or]
    · rw [if_neg fun h => heq (hid.symm.trans h.symm), Write.keyFor, if_neg heq, Option.none_or]

theorem Write.Sound.endpoints {w : Write} (h : w.Sound session) (dc : Int32) :
    (session.setDcOption w.dcOption).endpoints dc =
      (w.endpointsFor dc).or (session.endpoints dc) := by
  cases w with
  | config option dcOption =>
    obtain ⟨hid, -⟩ := h
    refine (session.endpoints_setDcOption dcOption dc).trans ?_
    by_cases heq : option.id = dc
    · rw [if_pos (hid.trans heq).symm, Write.endpointsFor, if_pos heq, Option.some_or]
    · rw [if_neg fun h => heq (hid.symm.trans h.symm), Write.endpointsFor, if_neg heq,
        Option.none_or]
  | persist setup dcOption =>
    obtain ⟨hid, -, hends⟩ := h
    refine (session.endpoints_setDcOption dcOption dc).trans ?_
    by_cases heq : dc = dcOption.id
    · rw [if_pos heq, ← hends, heq, hid]
      rfl
    · exact if_neg heq

/-- Outside the lock a connection only relies on a datacenter to stay known. -/
theorem Phase.Sound.setDcOption (h : phase.Sound p session) (hout : phase.holds = false)
    (dcOption : DcOption) : phase.Sound p (session.setDcOption dcOption) := by
  cases phase with
  | created => trivial
  | connecting => exact DcOptions.known_setDcOption _ _ h
  | updateWaiting => exact DcOptions.known_setDcOption _ _ h
  | updateReading => cases hout
  | updateWriting => cases hout
  | persistWaiting => exact DcOptions.known_setDcOption _ _ h
  | persistReading => cases hout
  | persistWriting => cases hout
  | finished => exact h
  | cancelled => trivial

theorem Phase.Sound.updating (hknown : (session.dcOption setup.dcOption.id).isSome = true)
    (hvalid : ∀ o ∈ rest, o.Valid p) : (Phase.updating setup rest).Sound p session := by
  cases rest with
  | nil => exact hknown
  | cons option rest => exact ⟨hknown, hvalid⟩

theorem Phase.Sound.afterWrite (h : next.Sound p session) (outcome : Outcome) :
    (next.afterWrite outcome).Sound p session := by
  cases outcome with
  | done => exact h
  | failed kept =>
    intro message hmessage
    cases hmessage
  | cancelled kept => trivial

theorem Phase.Sound.failed {e : SetupError} (h : e = .invalidDc ∨ e = .connecting ∨ e = .session ∨
    e = invalidEndpoint) : (Phase.finished (.error e)).Sound p session := by
  intro message hmessage
  cases hmessage
  rcases h with h | h | h | h <;> cases h
  rfl

/-- What a step of a connection keeps sound: its phase, and what it writes while it holds the lock. -/
structure Phase.Stepped (p : AddressParsers) (session : DcOptions) (free : Bool) (phase : Phase)
    (write : Option Write) (next : Phase) : Prop where
  written : ∀ w, write = some w → w.Sound session
  reached : next.Sound p (session.keep write)
  outside : phase.holds = false → write = none
  enters : phase.holds = false → next.holds = true → free = true

theorem Phase.Stepped.quiet (hnext : next.Sound p session)
    (enters : phase.holds = false → next.holds = true → free = true) :
    phase.Stepped p session free none next :=
  ⟨nofun, hnext, fun _ => rfl, enters⟩

theorem Phase.Stepped.ended {e : SetupError} (h : e = .invalidDc ∨ e = .connecting ∨
    e = .session ∨ e = invalidEndpoint) :
    phase.Stepped p session free none (.finished (.error e)) :=
  .quiet (.failed h) fun _ => nofun

theorem Phase.Stepped.given_up : phase.Stepped p session free none .cancelled :=
  .quiet trivial fun _ => nofun

/-- A write, which the session may keep even if it does not say so. -/
theorem Phase.Stepped.wrote {w : Write} (outcome : Outcome) (hw : w.Sound session)
    (hholds : phase.holds = true) (hnext : next.Sound p session)
    (hkept : next.Sound p (session.setDcOption w.dcOption)) :
    phase.Stepped p session free (if outcome.kept then some w else none)
      (next.afterWrite outcome) := by
  refine ⟨fun w' h => ?_, ?_, fun h => ?_, fun h => ?_⟩
  · split at h
    next => exact Option.some.inj h ▸ hw
    next => cases h
  · cases outcome.kept with
    | true => exact hkept.afterWrite outcome
    | false => exact hnext.afterWrite outcome
  · rw [hholds] at h
    cases h
  · rw [hholds] at h
    cases h

theorem Phase.Sound.known_of_updating (h : (session.dcOption setup.dcOption.id).isSome = true)
    (hvalid : ∀ o ∈ rest, o.Valid p) (other : DcOption) :
    (Phase.updating setup rest).Sound p (session.setDcOption other) :=
  .updating (DcOptions.known_setDcOption _ _ h) hvalid

theorem Phase.Sound.step (h : phase.Sound p session)
    (hstep : phase.step p session free a = some (write, next)) :
    phase.Stepped p session free write next := by
  cases phase with
  | created dcId =>
    cases a with
    | read ok =>
      cases ok with
      | false =>
        cases hstep
        exact .ended (by simp)
      | true =>
        rw [Phase.step] at hstep
        cases hread : session.dcOption dcId with
        | none =>
          rw [hread] at hstep
          cases hstep
          exact .ended (by simp)
        | some dcOption =>
          rw [hread] at hstep
          cases hstep
          refine .quiet ?_ (by rintro - ⟨⟩)
          rw [Phase.Sound, session.filed dcId dcOption hread, hread]
          rfl
    | _ => cases hstep
  | connecting dcOption =>
    cases a with
    | connect result =>
      cases result with
      | none =>
        cases hstep
        exact .ended (by simp)
      | some made =>
        cases hstep
        exact .quiet h (by rintro - ⟨⟩)
    | cancel =>
      cases hstep
      exact .given_up
    | _ => cases hstep
  | updateWaiting setup =>
    cases a with
    | lock =>
      rw [Phase.step, Option.ite_none_right_eq_some] at hstep
      obtain ⟨hfree, hstep⟩ := hstep
      rcases validateDcOptions_cases p (setup.config.filter TlDcOption.selected) with
        ⟨hvalid, heq⟩ | ⟨-, heq⟩
      · rw [heq] at hstep
        cases hstep
        exact .quiet (.updating h hvalid) fun _ _ => hfree
      · rw [heq] at hstep
        cases hstep
        exact .ended (by simp)
    | cancel =>
      cases hstep
      exact .given_up
    | _ => cases hstep
  | updateReading setup option rest =>
    obtain ⟨hknown, hvalid⟩ := h
    obtain ⟨hoption, hrest⟩ := List.forall_mem_cons.mp hvalid
    cases a with
    | read ok =>
      cases ok with
      | false =>
        cases hstep
        exact .ended (by simp)
      | true =>
        obtain ⟨refreshed, heq⟩ :=
          refresh_ok hoption ((session.dcOption option.id).getD (blank option.id))
        rw [Phase.step, heq] at hstep
        cases hstep
        obtain ⟨hid, hkey⟩ := refresh_keeps heq
        refine .quiet ⟨hknown, hrest, ?_, ?_⟩ (by rintro ⟨⟩)
        · exact hid.trans (session.id_getD rfl)
        · exact hkey.trans (session.authKey_getD_blank option.id)
    | _ => cases hstep
  | updateWriting setup option dcOption rest =>
    obtain ⟨hknown, hrest, hsound⟩ := h
    cases a with
    | write outcome =>
      cases hstep
      exact .wrote outcome hsound rfl (.updating hknown hrest) (.known_of_updating hknown hrest _)
    | _ => cases hstep
  | persistWaiting setup =>
    cases a with
    | lock =>
      rw [Phase.step, Option.ite_none_right_eq_some] at hstep
      obtain ⟨hfree, hstep⟩ := hstep
      cases hstep
      exact .quiet h fun _ _ => hfree
    | cancel =>
      cases hstep
      exact .given_up
    | _ => cases hstep
  | persistReading setup =>
    cases a with
    | read ok =>
      cases ok with
      | false =>
        cases hstep
        exact .ended (by simp)
      | true =>
        cases hstep
        obtain ⟨dcOption, hread⟩ := Option.isSome_iff_exists.mp h
        refine .quiet ⟨h, session.id_getD rfl, rfl, ?_⟩ (by rintro ⟨⟩)
        rw [DcOptions.endpoints, hread]
        rfl
    | _ => cases hstep
  | persistWriting setup dcOption =>
    obtain ⟨hknown, hsound⟩ := h
    cases a with
    | write outcome =>
      cases hstep
      exact .wrote outcome hsound rfl (by rintro _ ⟨⟩) (by rintro _ ⟨⟩)
    | _ => cases hstep
  | finished result => cases hstep
  | cancelled => cases hstep

structure State.Sound (p : AddressParsers) (s : State) : Prop where
  exclusive : Mutex.Exclusive Phase.holds s.configLock s.connections
  sound : ∀ (i : Nat) (phase : Phase), s.connections[i]? = some phase → phase.Sound p s.session

variable {s t : State} {e : Event} {i : Nat}

theorem step_eq_some (h : step p s i a = some (write, t)) :
    ∃ phase next, s.connections[i]? = some phase ∧
      phase.step p s.session s.configLock.isNone a = some (write, next) ∧
      t = ⟨s.session.keep write, Mutex.pass Phase.holds s.configLock i phase next,
        s.connections.set i next⟩ := by
  obtain ⟨phase, hphase, h⟩ := Option.bind_eq_some_iff.mp h
  obtain ⟨⟨write', next⟩, hnext, h⟩ := Option.bind_eq_some_iff.mp h
  cases h
  exact ⟨phase, next, hphase, hnext, rfl⟩

theorem State.Sound.init (session : DcOptions) (dcs : List Int32) :
    (State.init session dcs).Sound p := by
  constructor
  · refine Mutex.exclusive_none fun phase hphase => ?_
    obtain ⟨dc, -, rfl⟩ := List.mem_map.mp hphase
    rfl
  · intro i phase hphase
    obtain ⟨dc, -, rfl⟩ := List.mem_map.mp (List.mem_of_getElem? hphase)
    trivial

theorem State.Sound.step (h : s.Sound p) (hstep : Step p s e t) :
    t.Sound p ∧ t.session = s.session.keep e.write ∧
      ∀ w, e.write = some w → w.Sound s.session := by
  obtain ⟨phase, next, hphase, hnext, rfl⟩ := step_eq_some hstep
  have hstepped := (h.sound _ _ hphase).step hnext
  refine ⟨⟨?_, ?_⟩, rfl, hstepped.written⟩
  · exact h.exclusive.set hphase fun hout hin => Option.isNone_iff_eq_none.mp (hstepped.enters hout hin)
  · refine h.exclusive.frame h.sound hphase hstepped.reached ?_ fun z hz hsound => ?_
    · cases hholds : phase.holds with
      | true => exact Or.inr rfl
      | false =>
        rw [hstepped.outside hholds]
        exact Or.inl rfl
    · cases e.write with
      | none => exact hsound
      | some w => exact hsound.setDcOption hz w.dcOption

/-- What a run of connections leaves: the keys of its last persists, the endpoints of its last
configs, and what was there of the others. -/
theorem State.Sound.run {events : List Event} {dcs : List Int32}
    (run : Path (Step p) (State.init session dcs) events t) :
    t.Sound p ∧
      (∀ dc, t.session.authKey dc = (lastOf (Write.keyFor dc) events).or (session.authKey dc)) ∧
      ∀ dc, t.session.endpoints dc =
        (lastOf (Write.endpointsFor dc) events).or (session.endpoints dc) := by
  refine run.invariant_labels (I := fun events t => State.Sound p t ∧
    (∀ dc, t.session.authKey dc = (lastOf (Write.keyFor dc) events).or (session.authKey dc)) ∧
    ∀ dc, t.session.endpoints dc =
      (lastOf (Write.endpointsFor dc) events).or (session.endpoints dc)) ?_
    ⟨.init session dcs, fun dc => rfl, fun dc => rfl⟩
  rintro events s e t ⟨hsound, hkeys, hends⟩ hstep
  obtain ⟨hsound', hsession, hwrite⟩ := hsound.step hstep
  refine ⟨hsound', fun dc => ?_, fun dc => ?_⟩
  · rw [hsession, lastOf_append, Option.or_assoc, ← hkeys]
    cases he : e.write with
    | none => rfl
    | some w => exact (hwrite w he).authKey dc
  · rw [hsession, lastOf_append, Option.or_assoc, ← hends]
    cases he : e.write with
    | none => rfl
    | some w => exact (hwrite w he).endpoints dc

theorem Phase.step_refused {next : Phase} (hbad : ∃ o ∈ setup.config, o.selected = true ∧ ¬ o.Valid p)
    (hstep : (Phase.updateWaiting setup).step p session free a = some (write, next)) :
    write = none ∧ (a = .lock ∧ next = .finished (.error invalidEndpoint) ∨
      a = .cancel ∧ next = .cancelled) := by
  cases a with
  | lock =>
    rw [Phase.step, Option.ite_none_right_eq_some] at hstep
    obtain ⟨-, hstep⟩ := hstep
    rcases validateDcOptions_cases p (setup.config.filter TlDcOption.selected) with
      ⟨hvalid, -⟩ | ⟨-, heq⟩
    · obtain ⟨o, hmem, hselected, hinvalid⟩ := hbad
      exact absurd (hvalid o (List.mem_filter.mpr ⟨hmem, hselected⟩)) hinvalid
    · rw [heq] at hstep
      cases hstep
      exact ⟨rfl, Or.inl ⟨rfl, rfl⟩⟩
  | cancel =>
    cases hstep
    exact ⟨rfl, Or.inr ⟨rfl, rfl⟩⟩
  | _ => cases hstep

/-- The options that are known without a session. -/
def DcOptions.known : DcOptions where
  dcOption id := knownDcOptions.find? fun option => option.id = id
  filed id option h := by simpa using List.find?_some h

def sampleParsers : AddressParsers where
  ipv4 text := if text = ['1', '.', '1', '.', '1', '.', '1'] then some (.new 1 1 1 1) else none
  ipv6 _ := none

def sampleKey : DcKey := ⟨List.replicate 256 7, List.length_replicate⟩

def otherKey : DcKey := ⟨List.replicate 256 9, List.length_replicate⟩

def sampleConfig : List TlDcOption := [
  ⟨false, false, false, true, 2, ['1', '.', '1', '.', '1', '.', '1'], 80⟩,
  ⟨true, true, false, true, 2, [], 0⟩]

def otherConfig : List TlDcOption :=
  [⟨false, false, false, true, 2, ['1', '.', '1', '.', '1', '.', '1'], 443⟩]

/-- Connections to two datacenters, whose configs have other endpoints of the first one; each writes
while the other is on its way. -/
def sampleActions : List (Nat × Action) :=
  [(0, .read true), (1, .read true), (0, .connect (some (sampleKey, sampleConfig))), (0, .lock),
    (1, .connect (some (otherKey, otherConfig))), (0, .read true), (0, .write .done), (1, .lock),
    (1, .read true), (1, .write .done), (0, .lock), (0, .read true), (0, .write .done), (1, .lock),
    (1, .read true), (1, .write .done)]

end DcSetup

end Grammers
