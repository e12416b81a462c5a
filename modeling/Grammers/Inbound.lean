import Grammers.Envelope
import Grammers.StableSort

namespace Grammers

open Checked SortedSearch

/-- What one packet may still use, and what is known of the messages received when it came. -/
structure DecodeBudget where
  replayFloor : Int64
  pendingReceived : Option (List Int64)
  limits : DecodeLimits
  remaining : Nat
  work : Nat
  deriving DecidableEq

/-- What may be acknowledged: a message that was processed, or an answer that is announced. -/
inductive Visit where
  | message (msgId : Int64) (seqNo : Int32)
  | answer (msgId : Int64)
  deriving DecidableEq

/-- What is taken from a budget: an envelope or a wrapper is visited, or a wrapper is opened, which
is charged also where it fails. -/
inductive Spent where
  | visit (depth : Nat)
  | decompress (depth charge : Nat) (output : Option Nat)
  deriving DecidableEq

/-- The state while a packet is processed. The results are listed with the messages that they came
in; then come the messages that were processed, those on whose behalf the salts, the clock or the
sequence were changed, those of them that corrected the clock or the sequence, and what was spent. -/
structure Inbound where
  mtp : Encrypted
  budget : DecodeBudget
  deserialization : List (Int64 × Deserialization)
  visits : List Visit
  changes : List Int64
  corrections : List Int64
  spent : List Spent

abbrev Act (α : Type) : Type := EStateM (Fault DeserializeError) Inbound α

namespace Inbound

def lift {α : Type} (x : Parsed α) : Act α := fun s =>
  match x with
  | .ok v => .ok v s
  | .error e => .error e s

def fail {α : Type} (e : DeserializeError) : Act α := throw (.error e)

/-- The result of an action, where its error is reported and not returned. -/
def attempt {α : Type} (m : Act α) : Act (Except DeserializeError α) := fun s =>
  match m s with
  | .ok v s => .ok (.ok v) s
  | .error (.error e) s => .ok (.error e) s
  | .error .panic s => .error .panic s

def emit (msgId : Int64) (item : Deserialization) : Act Unit :=
  modify fun s => { s with deserialization := s.deserialization ++ [(msgId, item)] }

def note (visit : Visit) : Act Unit := modify fun s => { s with visits := s.visits ++ [visit] }

/-- Change the salts, the clock or the sequence on behalf of a message. -/
def change (msgId : Int64) (f : Encrypted → Encrypted) : Act Unit :=
  modify fun s => { s with mtp := f s.mtp, changes := s.changes ++ [msgId] }

/-- Correct the clock or the sequence on behalf of a message. -/
def correct (msgId : Int64) (f : Encrypted → Encrypted) : Act Unit :=
  modify fun s => { s with
    mtp := f s.mtp
    changes := s.changes ++ [msgId]
    corrections := s.corrections ++ [msgId] }

def modifyMtp (f : Encrypted → Encrypted) : Act Unit := modify fun s => { s with mtp := f s.mtp }

def modifyBudget (f : DecodeBudget → DecodeBudget) : Act Unit :=
  modify fun s => { s with budget := f s.budget }

def spend (item : Spent) (f : DecodeBudget → DecodeBudget) : Act Unit :=
  modify fun s => { s with budget := f s.budget, spent := s.spent ++ [item] }

def tooMuchWork : DeserializeError := .resourceLimit "wrapper depth or message work"

def visit (depth : Nat) : Act Unit := do
  let s ← get
  if depth > s.budget.limits.depth ∨ s.budget.work = 0 then fail tooMuchWork
  else spend (.visit depth) fun b => { b with work := b.work - 1 }

variable (inflate : Bytes → Inflated)

/-- A failed attempt is charged in full. -/
def decompress (bytes : Bytes) (depth : Nat) : Act Bytes := do
  let s ← get
  if depth > s.budget.limits.depth then fail (.resourceLimit "wrapper depth")
  else
    let limit := min s.budget.limits.gzipOutput s.budget.remaining
    match decompressFromBytesLimited inflate bytes limit with
    | .ok body => do
      spend (.decompress depth body.length (some body.length)) fun b =>
        { b with remaining := b.remaining - body.length }
      pure body
    | .error e => do
      spend (.decompress depth limit none) fun b => { b with remaining := b.remaining - limit }
      throw e

/-- Unpack a message until it is no longer compressed. The number is how many more wrappers are
allowed. -/
def unwrap : Nat → ManualTl.Message → Nat → Act (ManualTl.Message × Nat)
  | 0, _, _ => fail tooMuchWork
  | more + 1, message, depth => do
    visit depth
    let constructor ← lift (constructorId message.body)
    if constructor ≠ gzipPackedId then pure (message, depth)
    else
      let body ← decompress inflate message.body (depth + 1)
      unwrap more { message with body := body } (depth + 1)

variable (w : World)

/-- The session with one more acknowledgement. -/
def queued (msgId : Int64) (m : Encrypted) : Encrypted :=
  if m.pendingAck = [] then
    { m.tick with pendingAckSince := some (w.instant m.reads), pendingAck := [msgId] }
  else { m with pendingAck := m.pendingAck ++ [msgId] }

def queueAck (msgId : Int64) : Act Unit := do
  let s ← get
  if s.mtp.pendingAck.length ≥ 65536 then fail (.resourceLimit "pending acknowledgements")
  else modifyMtp (queued w msgId)

/-- A message that needs it is acknowledged. -/
def acknowledge (message : ManualTl.Message) : Act Unit := do
  if message.requiresAck then queueAck w message.msgId
  note (.message message.msgId message.seqNo)

def countSaltFailure (m : Encrypted) : Encrypted :=
  { m with saltRequestFailures := if m.saltRequestFailures = 255 then 255
      else m.saltRequestFailures + 1 }

def failSaltRequest (msgId : MsgId) : Act Bool := do
  let s ← get
  if s.mtp.saltRequestMsgId ≠ some msgId then pure false
  else
    modifyMtp fun m => countSaltFailure { m with saltRequestMsgId := none }
    pure true

def updateIds : List UInt32 :=
  [0x313bc7f8, 0x4d6deea5, 0x78d4dec1, 0x725b04c3, 0x74ae4240, 0x9015e101, 0x84d19185, 0x7f5defa6,
    0x445663a7]

/-- Updates in a result are updates like any other. -/
def storeOwnUpdates (serverId : Int64) (msgId : MsgId) (body : Bytes) : Act Unit := do
  let s ← get
  if s.mtp.receiveUpdates then
    match constructorId body with
    | .ok id => if updateIds.contains id then emit serverId (.ownUpdate msgId body)
    | .error _ => pure ()

def validSalts (salts : FutureSalts) : Bool :=
  salts.salts.length ≤ numFutureSalts.toNatClampNeg ∧
    salts.salts.all fun salt => salt.validSince < salt.validUntil

def applySalts (salts : FutureSalts) (m : Encrypted) : Encrypted :=
  { m.tick with
    startSaltTime := some (salts.now, w.instant m.reads)
    saltRequestFailures := 0
    salts := StableSort.sortByKey (fun salt => -salt.validSince.toInt) salts.salts }

def handleFutureSalts (message : ManualTl.Message) (applyServiceState : Bool) : Act Unit := do
  let salts ← lift (fromBytes readFutureSalts message.body)
  if validSalts salts = false then fail (.invalidEnvelope "invalid future salts")
  else
    let s ← get
    let internal := s.mtp.saltRequestMsgId = some salts.reqMsgId
    if internal then modifyMtp fun m => { m with saltRequestMsgId := none }
    else emit message.msgId (.rpcResult salts.reqMsgId message.body)
    if !applyServiceState ∨ salts.salts = [] then
      if internal then modifyMtp countSaltFailure
    else change message.msgId (applySalts w salts)

/-- The result of a request, unpacked as often as it was packed; an error is for the caller. -/
def unwrapResult : Nat → Bytes → Nat → Act (Except DeserializeError Bytes)
  | more, result, depth =>
    if constructorId result = .ok gzipPackedId then
      match more with
      | 0 => pure (.error tooMuchWork)
      | more + 1 => do
        let body ← attempt (do
          visit (depth + 1)
          decompress inflate result (depth + 1))
        match body with
        | .ok body => unwrapResult more body (depth + 1)
        | .error e => pure (.error e)
    else pure (.ok result)

/-- A failed result is for the caller, unless the caller is the session. -/
def reportFailure (serverId : Int64) (msgId : MsgId) (error : DeserializeError) : Act Unit := do
  let internal ← failSaltRequest msgId
  if internal then pure () else emit serverId (.failure msgId error)

def handleRpcResult (message : ManualTl.Message) (depth : Nat) (emitOwnUpdates : Bool) : Act Unit := do
  let (msgId, result) ← lift (rpcResultParts message.body)
  let s ← get
  let unwrapped ← unwrapResult inflate (s.budget.limits.depth - depth) result depth
  match unwrapped with
  | .error e => reportFailure message.msgId msgId e
  | .ok result =>
    match constructorId result with
    | .error (.error e) => reportFailure message.msgId msgId e
    | .error .panic => throw .panic
    | .ok inner =>
      let s ← get
      if s.mtp.saltRequestMsgId = some msgId then
        match fromBytes readFutureSalts result with
        | .ok salts =>
          if salts.reqMsgId = msgId ∧ validSalts salts then
            handleFutureSalts w { message with body := result } emitOwnUpdates
          else
            let _ ← failSaltRequest msgId
            pure ()
        | .error _ =>
          let _ ← failSaltRequest msgId
          pure ()
      else if inner = rpcErrorId then
        match fromBytes readRpcError result with
        | .ok error => emit message.msgId (.rpcError msgId error)
        | .error (.error e) => emit message.msgId (.failure msgId e)
        | .error .panic => throw .panic
      else
        if emitOwnUpdates then storeOwnUpdates message.msgId msgId result
        emit message.msgId (.rpcResult msgId result)

def handleAck (message : ManualTl.Message) : Act Unit := do
  let _ ← lift (fromBytes readMsgsAck message.body)
  pure ()

def singleSalt (salt : Int64) (m : Encrypted) : Encrypted :=
  { m with salts := [⟨0, Int32.maxValue, salt⟩] }

/-- What a rejected message says about the salt, the clock or the sequence. -/
def correctSession (message : ManualTl.Message) (bad : BadMsgNotification) : Act Unit := do
  match bad.newServerSalt with
  | some salt =>
    change message.msgId fun m => { singleSalt salt m with saltRequestMsgId := none }
  | none =>
    let s ← get
    if bad.errorCode = 16 ∨ bad.errorCode = 17 then
      correct message.msgId fun m => m.correctTimeOffset w message.msgId
    else if bad.errorCode = 32 then
      if (s.mtp.sequence + 64).toInt = s.mtp.sequence.toInt + 64 then
        correct message.msgId fun m => { m with sequence := m.sequence + 64 }
      else fail (.invalidEnvelope "sequence overflow")
    else if bad.errorCode = 33 then
      correct message.msgId fun m =>
        { m with sequence := max (Int32.ofIntClamp (m.sequence.toInt - 16)) 0 }

def handleBadNotification (message : ManualTl.Message) (applyServiceState : Bool) : Act Unit := do
  let bad ← lift (fromBytes readBadMsgNotification message.body)
  let internal ← failSaltRequest bad.badMsgId
  if internal then pure () else emit message.msgId (.badMessage ⟨bad.badMsgId, bad.errorCode⟩)
  if applyServiceState then correctSession w message bad

def handleDetailedInfo (message : ManualTl.Message) : Act Unit := do
  let answerMsgId ← lift (fromBytes readMsgDetailedInfo message.body)
  queueAck w answerMsgId
  note (.answer answerMsgId)

def handlePong (message : ManualTl.Message) : Act Unit := do
  let msgId ← lift (fromBytes readPong message.body)
  emit message.msgId (.rpcResult msgId message.body)

def handleNewSessionCreated (message : ManualTl.Message) : Act Unit := do
  let salt ← lift (fromBytes readNewSession message.body)
  change message.msgId (singleSalt salt)

def handleUpdate (message : ManualTl.Message) : Act Unit := do
  let s ← get
  if s.mtp.receiveUpdates then emit message.msgId (.update message.body)

/-- What is handled whether or not the message may have been received before. -/
def retires (constructor : UInt32) : Bool :=
  [rpcResultId, Encrypted.messageContainer, 0x347773c5, futureSaltsId, 0xa7eff811, 0xedab447b].contains
    constructor

/-- Messages that are accepted and do nothing. -/
def ignored : List UInt32 :=
  [0xda69fb52, 0x04deb57d, 0x8cc0d131, 0x7d861a08, 0x8610baeb, 0xe22045fc, 0x62d350c9, 0x9299359f]

def handle (container : ManualTl.Message → Nat → Act Unit) (message : ManualTl.Message) (depth : Nat)
    (fresh : Bool) (constructor : UInt32) : Act Unit :=
  if constructor = rpcResultId then handleRpcResult inflate w message depth fresh
  else if constructor = 0x62d6b459 then handleAck message
  else if constructor = 0xa7eff811 ∨ constructor = 0xedab447b then
    handleBadNotification w message fresh
  else if constructor = 0x276d3ec6 ∨ constructor = 0x809db6df then handleDetailedInfo w message
  else if constructor = 0x0949d9dc then fail (.invalidEnvelope "unsolicited future_salt")
  else if constructor = futureSaltsId then handleFutureSalts w message fresh
  else if constructor = 0x347773c5 then handlePong message
  else if constructor = 0x9ec20908 then handleNewSessionCreated message
  else if constructor = Encrypted.messageContainer then container message depth
  else if constructor = 0xe06046b2 then fail (.invalidEnvelope "unsupported msg_copy")
  else if ignored.contains constructor then pure ()
  else handleUpdate message

/-- A message is recorded at once, or after the packet while a container is processed. -/
def remembered (msgId : Int64) (s : Inbound) : Inbound :=
  match s.budget.pendingReceived with
  | some ids =>
    match binarySearchByKey Int64.toInt ids msgId.toInt with
    | .error index =>
      { s with budget := { s.budget with pendingReceived := some (ids.insertIdx index msgId) } }
    | .ok _ => s
  | none => { s with mtp := { s.mtp with received := s.mtp.received.rememberReceived msgId } }

def remember (msgId : Int64) : Act Unit := modify (remembered msgId)

def validateHeader (message : ManualTl.Message) : Parsed Unit :=
  if message.msgId ≤ 0 ∨ message.msgId % 2 ≠ 1 ∨ message.seqNo < 0 then
    .error (invalidEnvelope "invalid server message header")
  else .ok ()

/-- Whether a message is known: from another packet, or from the container it is in. -/
def known (s : Inbound) (msgId : Int64) : Bool :=
  s.mtp.received.ids.contains msgId ||
    s.budget.pendingReceived.any fun ids => (binarySearchByKey Int64.toInt ids msgId.toInt).isOk

/-- What is done with a message that is not known. -/
def processNew (container : ManualTl.Message → Nat → Act Unit) (message : ManualTl.Message) (depth : Nat) :
    Act Unit := do
  let s ← get
  let fresh := decide (s.budget.replayFloor < message.msgId)
  let (message, depth) ← unwrap inflate (s.budget.limits.depth + 1 - depth) message depth
  acknowledge w message
  let constructor ← lift (constructorId message.body)
  -- A message that was evicted and one that is late look the same.
  if fresh ∨ retires constructor then
    handle inflate w container message depth fresh constructor
    if fresh then remember message.msgId

def processMessage (container : ManualTl.Message → Nat → Act Unit) (message : ManualTl.Message) (depth : Nat) :
    Act Unit := do
  let s ← get
  if s.known message.msgId then acknowledge w message
  else processNew inflate w container message depth

/-- In a container there is no other. -/
def processInner (message : ManualTl.Message) (depth : Nat) : Act Unit :=
  processMessage inflate w (fun _ _ => fail (.invalidEnvelope "nested simple container")) message depth

def processAll (depth : Nat) : List ManualTl.Message → Act Unit
  | [] => pure ()
  | inner :: messages => do
    processInner inflate w inner depth
    processAll depth messages

def handleContainer (message : ManualTl.Message) (depth : Nat) : Act Unit := do
  let messages ← lift (borrowedMessagesValidated message.body message.msgId)
  modifyBudget fun b => { b with pendingReceived := some (b.pendingReceived.getD []) }
  processAll inflate w (depth + 1) messages

def processBounded (message : ManualTl.Message) : Act Unit := do
  lift (validateHeader message)
  processMessage inflate w (handleContainer inflate w) message 0

end Inbound

/-- How the processing of a packet ended: its results or its error, the session, the messages that
were processed, those on whose behalf something changed, those that corrected the clock or the
sequence, what was spent and what was left. -/
structure PacketResult where
  result : Parsed (List (Int64 × Deserialization))
  mtp : Encrypted
  visits : List Visit
  changes : List Int64
  corrections : List Int64
  spent : List Spent
  budget : DecodeBudget

namespace Encrypted

/-- The message of a packet, from the session and with enough padding. -/
def readPlaintext (s : Encrypted) (plaintext : Bytes) : Parsed ManualTl.Message := do
  let (_, c) ← parse Tl.deserializeI64 (Tl.fromSlice plaintext)
  let (sessionId, c) ← parse Tl.deserializeI64 c
  if sessionId ≠ s.sessionId then .error (invalidEnvelope "wrong session id")
  else
    let (message, c) ← parse ManualTl.Message.deserialize c
    let padding := plaintext.length - c.pos
    if padding < 12 ∨ 1024 < padding then .error (invalidEnvelope "invalid encrypted padding")
    else .ok message

def beginPacket (s : Encrypted) : Inbound where
  mtp := s
  budget := ⟨s.received.floor, none, s.decodeLimits, s.decodeLimits.expandedBytes,
    s.decodeLimits.work⟩
  deserialization := []
  visits := []
  changes := []
  corrections := []
  spent := []

/-- After a packet the messages of its container are recorded. -/
def rememberAll (s : Encrypted) (ids : List Int64) : Encrypted :=
  { s with received := ids.foldl Received.rememberReceived s.received }

def processPlaintext (inflate : Bytes → Inflated) (w : World)
    (s : Encrypted) (plaintext : Bytes) : PacketResult :=
  match s.readPlaintext plaintext with
  | .error e => ⟨.error e, s, [], [], [], [], s.beginPacket.budget⟩
  | .ok message =>
    match Inbound.processBounded inflate w message s.beginPacket with
    | .error e s => ⟨.error e, s.mtp, s.visits, s.changes, s.corrections, s.spent, s.budget⟩
    | .ok _ s => ⟨.ok s.deserialization, s.mtp.rememberAll (s.budget.pendingReceived.getD []),
      s.visits, s.changes, s.corrections, s.spent, s.budget⟩

end Encrypted

end Grammers
