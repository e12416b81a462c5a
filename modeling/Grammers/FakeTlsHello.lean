import Grammers.FakeTls

namespace Grammers

open Checked

inductive HelloError where
  | clock
  | entropy
  | noHostname
  | hostnameTooLong
  | inner
  | serverHelloRecord
  | serverHelloEnvelope
  | serverHelloNegotiation
  | serverHelloExtension
  | changeCipherSpec
  | greetingRecord
  | authentication
  deriving DecidableEq

/-- What a handshake is given: the clock, random bytes, and whether the stream below takes the
hello. -/
structure HelloWorld where
  timestamp : Option Nat
  session : Option { b : Bytes // b.length = 32 }
  share : Option { b : Bytes // b.length = 32 }
  sends : Bool

/-- A keyed hash of 32 bytes over the pieces it is given. -/
structure Hmac where
  digest : Bytes → List Bytes → Bytes
  length_digest : ∀ key pieces, (digest key pieces).length = 32

abbrev Hello (α : Type) : Type := Except (Fault HelloError) α

def extension (out : Bytes) (kind : Nat) (data : Bytes) : Bytes :=
  out ++ (BigEndian.toBytes 2 kind ++ (BigEndian.toBytes 2 data.length ++ data))

/-- Copy bytes over a range of a buffer, which panics where it is out of range. -/
def copyFromSlice (buffer : Bytes) (lo hi : Nat) (bytes : Bytes) : Hello Bytes := do
  let range ← slice buffer lo hi
  if range.length = bytes.length then .ok (overwrite buffer lo bytes) else .error .panic

def helloBeforeExtensions (session : Bytes) : Bytes :=
  [0x16, 0x03, 0x01, 0x02, 0, 1, 0, 1, 0xfc, 3, 3] ++ (List.replicate 32 0 ++ ([32] ++ (session ++
    [0, 2, 0x13, 1, 1, 0])))

def serverName (domain : Bytes) : Bytes :=
  BigEndian.toBytes 2 (domain.length + 3) ++ ([0] ++ (BigEndian.toBytes 2 domain.length ++ domain))

/-- A key share, with the highest bit of its last byte cleared. -/
def keyShare (random : Bytes) : Bytes :=
  [0, 36, 0, 29, 0, 32] ++ (random.take 31 ++ (random.drop 31).map (· &&& 0x7f))

def clientHello (hmac : Hmac) (key : Bytes) (domain : Option Bytes) (timestamp : Nat)
    (w : HelloWorld) : Hello Bytes := do
  let domain ← require domain .noHostname
  let session ← require w.session .entropy
  let hello := helloBeforeExtensions session.1
  let extAt := hello.length
  let hello := hello ++ [0, 0]
  let hello := extension hello 0 (serverName domain)
  let hello := extension hello 43 [2, 3, 4]
  let hello := extension hello 10 [0, 2, 0, 29]
  let hello := extension hello 13 [0, 4, 8, 4, 4, 3]
  let share ← require w.share .entropy
  let hello := extension hello 51 (keyShare share.1)
  let hello := extension hello 45 [1, 1]
  if 517 < hello.length + 4 then .error (.error .hostnameTooLong)
  else
    let hello := extension hello 21 (List.replicate (517 - (hello.length + 4)) 0)
    let extLen ← sub hello.length extAt
    let extLen ← sub extLen 2
    let hello ← copyFromSlice hello extAt (extAt + 2) (BigEndian.toBytes 2 extLen)
    let digest := hmac.digest key [hello]
    let tail ← slice digest 28 digest.length
    let digest := digest.take 28 ++ List.zipWith (· ^^^ ·) tail (LittleEndian.toBytes 4 timestamp)
    copyFromSlice hello 11 43 digest

/-- Read so many bytes, which fails where the stream ends before. -/
def readExact (n : Nat) (incoming : Bytes) : Hello (Bytes × Bytes) :=
  if incoming.length < n then .error (.error .inner) else .ok (incoming.take n, incoming.drop n)

/-- The number that two bytes of a buffer encode. -/
def readU16 (b : Bytes) (i : Nat) : Hello Nat := do
  let high ← index b i
  let low ← index b (i + 1)
  .ok (BigEndian.ofBytes [high, low])

/-- Walk over the extensions; a round is lost only where there are more of them than bytes. -/
def checkExtensions (response : Bytes) : Nat → Nat → Hello Unit
  | 0, extensionAt => if extensionAt < response.length then .error .panic else .ok ()
  | fuel + 1, extensionAt => do
    if extensionAt < response.length then
      if (← sub response.length extensionAt) < 4 then .error (.error .serverHelloExtension)
      else
        let size ← readU16 response (extensionAt + 2)
        let extensionAt := extensionAt + 4
        if size > (← sub response.length extensionAt) then .error (.error .serverHelloExtension)
        else checkExtensions response fuel (extensionAt + size)
    else .ok ()

/-- The record of the server's hello. -/
def readServerHello (hello incoming : Bytes) : Hello (Bytes × Bytes) := do
  let (head, incoming) ← readExact 5 incoming
  let size ← readU16 head 3
  if (← slice head 0 3) ≠ [0x16, 3, 3] ∨ ¬(76 ≤ size ∧ size ≤ tlsIncomingMax) then
    .error (.error .serverHelloRecord)
  else
    let (rest, incoming) ← readExact size incoming
    let response := head ++ rest
    let handshakeLen := BigEndian.ofBytes [← index response 6, ← index response 7,
      ← index response 8]
    if (← index response 5) ≠ 2 ∨ handshakeLen ≠ (← sub size 4) ∨
        (← slice response 9 11) ≠ [3, 3] then .error (.error .serverHelloEnvelope)
    else if (← index response 43) ≠ 32 ∨ (← slice response 44 76) ≠ (← slice hello 44 76) ∨
        (← slice response 76 79) ≠ [0x13, 1, 0] ∨
        (← readU16 response 79) ≠ (← sub response.length 81) then
      .error (.error .serverHelloNegotiation)
    else
      checkExtensions response response.length 81
      .ok (response, incoming)

def connectFaketls (hmac : Hmac) (key : Bytes) (domain : Option Bytes) (w : HelloWorld)
    (incoming : Bytes) : Hello FakeTlsStream := do
  let timestamp ← require w.timestamp .clock
  let hello ← clientHello hmac key domain timestamp w
  if ¬w.sends then .error (.error .inner)
  else
    let (response, incoming) ← readServerHello hello incoming
    let (ccs, incoming) ← readExact 6 incoming
    if ccs ≠ tlsCcs then .error (.error .changeCipherSpec)
    else
      let response := response ++ ccs
      let (head, incoming) ← readExact 5 incoming
      let size ← readU16 head 3
      if (← slice head 0 3) ≠ [0x17, 3, 3] ∨ ¬(1 ≤ size ∧ size ≤ tlsIncomingMax) then
        .error (.error .greetingRecord)
      else
        let response := response ++ head
        let (rest, _) ← readExact size incoming
        let response := response ++ rest
        let serverRandom ← slice response 11 43
        let response ← copyFromSlice response 11 43 (List.replicate 32 0)
        if hmac.digest key [← slice hello 11 43, response] ≠ serverRandom then
          .error (.error .authentication)
        else .ok FakeTlsStream.new

theorem safe_copyFromSlice {buffer bytes : Bytes} {lo hi : Nat} (hlo : lo ≤ hi)
    (hhi : hi ≤ buffer.length) (hbytes : bytes.length = hi - lo) :
    Safe (copyFromSlice buffer lo hi bytes) fun r => r.length = buffer.length := by
  refine Safe.bind (Safe.slice hlo hhi) fun range hrange => ?_
  refine Safe.ite (fun _ => Safe.ok ?_) fun hne => absurd (hrange.trans hbytes.symm) hne
  exact length_overwrite (by omega)

theorem safe_readExact (n : Nat) (incoming : Bytes) :
    Safe (readExact n incoming) fun r => r.1.length = n := by
  refine Safe.ite (fun _ => .error _) fun hlen => Safe.ok ?_
  simp only [List.length_take]
  omega

theorem safe_readU16 {b : Bytes} {i : Nat} (h : i + 1 < b.length) :
    Safe (readU16 b i) fun _ => True :=
  Safe.bind (Safe.index (by omega)) fun _ _ => Safe.bind (Safe.index h) fun _ _ => Safe.ok trivial

theorem safe_checkExtensions (response : Bytes) (fuel : Nat) : ∀ extensionAt,
    response.length - extensionAt ≤ fuel →
      Safe (checkExtensions response fuel extensionAt) fun _ => True := by
  induction fuel with
  | zero =>
    intro extensionAt hfuel
    exact Safe.ite (fun hlt => absurd hlt (by omega)) fun _ => Safe.ok trivial
  | succ fuel ih =>
    intro extensionAt hfuel
    refine Safe.ite (fun hlt => ?_) fun _ => Safe.ok trivial
    refine Safe.bind (Safe.sub hlt.le) fun left hleft => ?_
    refine Safe.ite (fun _ => .error _) fun hfour => ?_
    refine Safe.bind (safe_readU16 (by omega)) fun size _ => ?_
    refine Safe.bind (Safe.sub (by omega)) fun after hafter => ?_
    exact Safe.ite (fun _ => .error _) fun _ => ih _ (by omega)

/-- The hello has the length that is announced in it, whatever its hostname. -/
theorem safe_clientHello (hmac : Hmac) (key : Bytes) (domain : Option Bytes) (timestamp : Nat)
    (w : HelloWorld) :
    Safe (clientHello hmac key domain timestamp w) fun hello => hello.length = 517 := by
  refine Safe.bind (Safe.require _ _) fun domain _ => ?_
  refine Safe.bind (Safe.require _ _) fun session _ => ?_
  refine Safe.bind (Safe.require _ _) fun share _ => ?_
  obtain ⟨before, hbefore⟩ : ∃ before, before = helloBeforeExtensions session.1 := ⟨_, rfl⟩
  rw [← hbefore]
  obtain ⟨hello, hhello⟩ : ∃ hello, hello = extension (extension (extension (extension (extension
    (extension (before ++ [0, 0]) 0 (serverName domain)) 43 [2, 3, 4]) 10 [0, 2, 0, 29]) 13
      [0, 4, 8, 4, 4, 3]) 51 (keyShare share.1)) 45 [1, 1] := ⟨_, rfl⟩
  have hlong : before.length + 2 ≤ hello.length := by
    simp only [hhello, extension, List.length_append, List.length_cons, List.length_nil]
    omega
  have hat : 43 ≤ before.length := by
    simp only [hbefore, helloBeforeExtensions, List.length_append, List.length_replicate,
      List.length_cons, List.length_nil]
    omega
  simp only [← hhello]
  refine Safe.ite (fun _ => .error _) fun hfits => ?_
  obtain ⟨padded, hpadded⟩ : ∃ padded, padded =
    extension hello 21 (List.replicate (517 - (hello.length + 4)) 0) := ⟨_, rfl⟩
  have hlength : padded.length = 517 := by
    simp only [hpadded, extension, List.length_append, List.length_replicate,
      BigEndian.length_toBytes]
    omega
  rw [← hpadded]
  refine Safe.bind (Safe.sub (by omega)) fun n hn => ?_
  refine Safe.bind (Safe.sub (by omega)) fun extLen _ => ?_
  refine Safe.bind (safe_copyFromSlice (by omega) (by omega) (by simp)) fun hello' hhello' => ?_
  have hdigest := hmac.length_digest key [hello']
  refine Safe.bind (Safe.slice (by omega) (Nat.le_refl _)) fun tail htail => ?_
  have hmixed : ((hmac.digest key [hello']).take 28 ++
      List.zipWith (· ^^^ ·) tail (LittleEndian.toBytes 4 timestamp)).length = 32 := by
    simp only [List.length_append, List.length_take, List.length_zipWith,
      LittleEndian.length_toBytes]
    omega
  rw [show 517 = hello'.length by omega]
  exact safe_copyFromSlice (by omega) (by omega) hmixed

/-- Nothing outside the response is looked at. -/
theorem safe_readServerHello {hello : Bytes} (hhello : hello.length = 517) (incoming : Bytes) :
    Safe (readServerHello hello incoming) fun r => 81 ≤ r.1.length := by
  refine Safe.bind (safe_readExact 5 incoming) fun head hhead => ?_
  refine Safe.bind (safe_readU16 (by omega)) fun size _ => ?_
  refine Safe.bind (Safe.slice (by omega) (by omega)) fun start _ => ?_
  refine Safe.ite (fun _ => .error _) fun hsize => ?_
  have hmin : 76 ≤ size := by
    by_contra hlt
    exact hsize (Or.inr fun h => hlt h.1)
  refine Safe.bind (safe_readExact size head.2) fun rest hrest => ?_
  have hlen : (head.1 ++ rest.1).length = 5 + size := by rw [List.length_append, hhead, hrest]
  simp only
  refine Safe.bind (Safe.index (by omega)) fun _ _ => ?_
  refine Safe.bind (Safe.index (by omega)) fun _ _ => ?_
  refine Safe.bind (Safe.index (by omega)) fun _ _ => ?_
  refine Safe.bind (Safe.index (by omega)) fun _ _ => ?_
  refine Safe.bind (Safe.sub (by omega)) fun _ _ => ?_
  refine Safe.bind (Safe.slice (by omega) (by omega)) fun _ _ => ?_
  refine Safe.ite (fun _ => .error _) fun _ => ?_
  refine Safe.bind (Safe.index (by omega)) fun _ _ => ?_
  refine Safe.bind (Safe.slice (by omega) (by omega)) fun _ _ => ?_
  refine Safe.bind (Safe.slice (by omega) (by omega)) fun _ _ => ?_
  refine Safe.bind (Safe.slice (by omega) (by omega)) fun _ _ => ?_
  refine Safe.bind (safe_readU16 (by omega)) fun _ _ => ?_
  refine Safe.bind (Safe.sub (by omega)) fun _ _ => ?_
  refine Safe.ite (fun _ => .error _) fun _ => ?_
  refine Safe.bind (safe_checkExtensions _ _ 81 (by omega)) fun _ _ => ?_
  exact Safe.ok (by simp only; omega)

/-- The handshake never indexes out of range, whatever the response. -/
theorem safe_connectFaketls (hmac : Hmac) (key : Bytes) (domain : Option Bytes) (w : HelloWorld)
    (incoming : Bytes) :
    Safe (connectFaketls hmac key domain w incoming) fun s => s = FakeTlsStream.new := by
  refine Safe.bind (Safe.require _ _) fun timestamp _ => ?_
  refine Safe.bind (safe_clientHello hmac key domain timestamp w) fun hello hhello => ?_
  refine Safe.ite (fun _ => .error _) fun _ => ?_
  refine Safe.bind (safe_readServerHello hhello incoming) fun response hresponse => ?_
  refine Safe.bind (safe_readExact 6 response.2) fun ccs hccs => ?_
  refine Safe.ite (fun _ => .error _) fun _ => ?_
  refine Safe.bind (safe_readExact 5 ccs.2) fun head hhead => ?_
  refine Safe.bind (safe_readU16 (by omega)) fun size _ => ?_
  refine Safe.bind (Safe.slice (by omega) (by omega)) fun _ _ => ?_
  refine Safe.ite (fun _ => .error _) fun _ => ?_
  refine Safe.bind (safe_readExact size head.2) fun rest hrest => ?_
  have hlen : 81 ≤ (response.1 ++ ccs.1 ++ head.1 ++ rest.1).length := by
    simp only [List.length_append]
    omega
  refine Safe.bind (Safe.slice (by omega) (by omega)) fun serverRandom _ => ?_
  refine Safe.bind (safe_copyFromSlice (by omega) (by omega) (by simp)) fun response' _ => ?_
  refine Safe.bind (Safe.slice (by omega) (by omega)) fun _ _ => ?_
  exact Safe.ite (fun _ => .error _) fun _ => Safe.ok rfl

end Grammers
