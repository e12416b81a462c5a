import Grammers.PartStream
import Grammers.SeekFile

namespace Grammers.Files

open LabelledPath SeekFile

variable {ε : Type}

def maxInt64 : Nat := 9223372036854775807

inductive DownloadError (ε : Type)
  | invalidInput
  | unexpectedEof
  | invalidData
  | other (error : ε)
  deriving DecidableEq

def validateDownload (size workers : Nat) : Except (DownloadError ε) Unit :=
  if workers = 0 ∨ maxInt64 < size then .error .invalidInput else .ok ()

/-- The offsets of the chunks of a file, in order. -/
def chunkOffsets (size : Nat) : List Nat :=
  (List.range ((size + (maxChunkSize - 1)) / maxChunkSize)).map (· * maxChunkSize)

/-- The length the chunk at some offset must have. -/
def expectedLength (size offset : Nat) : Nat := min (size - offset) maxChunkSize

/-- The variables of a download: the file, the offsets yet to be asked for, the requests in
flight and the remembered position. What has been asked for is recorded besides. -/
structure Download where
  file : File UInt8
  offsets : List Nat
  pending : List Nat
  position : Nat
  requested : List Nat
  deriving DecidableEq

/-- Ask for a chunk. -/
def Download.fetch (d : Download) (offset : Nat) : Download :=
  { d with pending := d.pending ++ [offset], requested := d.requested ++ [offset] }

/-- Ask for as many chunks as there are workers. -/
def Download.start (file : File UInt8) (size workers : Nat) : Download :=
  ((chunkOffsets size).take workers).foldl Download.fetch
    ⟨file, (chunkOffsets size).drop workers, [], 0, []⟩

/-- One request that completes: its answer, and the errors of the file while the chunk is
sought and written, if there are any. -/
structure Completion (ε : Type) where
  offset : Nat
  answer : Except ε (List UInt8)
  seekError : Option ε
  writeError : Option ε

def Download.seekChunk (d : Download) (c : Completion ε) : Except (DownloadError ε) (File UInt8) :=
  if c.offset = d.position then .ok d.file
  else
    match c.seekError with
    | some error => .error (.other error)
    | none => .ok (d.file.seek c.offset)

/-- Write the chunk of a request, and ask for the next one. -/
def Download.writeChunk (d : Download) (c : Completion ε) (bytes : List UInt8) :
    Except (DownloadError ε) Download := do
  let file ← d.seekChunk c
  match c.writeError with
  | some error => .error (.other error)
  | none =>
    let d := { d with
      file := file.writeAll 0 bytes
      pending := d.pending.erase c.offset
      position := c.offset + bytes.length }
    match d.offsets with
    | [] => return d
    | offset :: offsets => return Download.fetch { d with offsets := offsets } offset

def Download.receive (d : Download) (size : Nat) (c : Completion ε) :
    Except (DownloadError ε) Download :=
  match c.answer with
  | .error error => .error (.other error)
  | .ok bytes =>
    if bytes.length < expectedLength size c.offset then .error .unexpectedEof
    else if expectedLength size c.offset < bytes.length then .error .invalidData
    else d.writeChunk c bytes

/-- The loop, while requests complete in some order. It has no result before all have. -/
def Download.loop (size : Nat) (flushError : Option ε) :
    Download → List (Completion ε) → Option (Except (DownloadError ε) Download)
  | d, [] =>
    if d.pending = [] then
      match flushError with
      | some error => some (.error (.other error))
      | none => some (.ok d)
    else none
  | d, c :: cs =>
    if c.offset ∈ d.pending then
      match d.receive size c with
      | .ok d => Download.loop size flushError d cs
      | .error error => some (.error error)
    else none

def downloadChunks (file : File UInt8) (size workers : Nat) (completions : List (Completion ε))
    (flushError : Option ε) : Option (Except (DownloadError ε) Download) :=
  match validateDownload size workers with
  | .error error => some (.error error)
  | .ok () => Download.loop size flushError (.start file size workers) completions

/-- Some request that is in flight completes, and its chunk is written. -/
def Download.Steps (size : Nat) (d : Download) (c : Completion ε) (d' : Download) : Prop :=
  c.offset ∈ d.pending ∧ d.receive size c = .ok d'

theorem Download.path_of_loop {size : Nat} {flushError : Option ε} {d d' : Download}
    {cs : List (Completion ε)} (h : Download.loop size flushError d cs = some (.ok d')) :
    Path (Download.Steps size) d cs d' ∧ d'.pending = [] := by
  induction cs generalizing d with
  | nil =>
    simp only [Download.loop] at h
    split at h
    next hp =>
      cases flushError with
      | some error => simp at h
      | none =>
        obtain rfl := Except.ok.inj (Option.some.inj h)
        exact ⟨Path.nil, hp⟩
    next => simp at h
  | cons c cs ih =>
    simp only [Download.loop] at h
    split at h
    next hm =>
      split at h
      next d1 hr =>
        obtain ⟨hpath, hp⟩ := ih h
        exact ⟨Path.cons ⟨hm, hr⟩ hpath, hp⟩
      next => simp at h
    next => simp at h

end Grammers.Files
