import Grammers.Checked
import Grammers.TerminatorScan

namespace Grammers

open ByteSource Checked TerminatorScan

namespace HttpConnect

abbrev Bytes : Type := List UInt8

def maxHeaderBytes : Nat := 16 * 1024

def maxInformational : Nat := 4

inductive ErrorKind where
  | invalidData
  | unexpectedEof
  | permissionDenied
  | connectionRefused
  deriving DecidableEq

/-- An error of the handshake, or one of the stream. -/
inductive ConnectError (ε : Type)
  | new (kind : ErrorKind) (message : String)
  | stream (error : ε)

variable {ε : Type}

def exceeded : ConnectError ε := .new .invalidData "HTTP CONNECT response headers exceed 16 KiB budget"

def ended : ConnectError ε := .new .unexpectedEof "EOF during HTTP CONNECT response"

def malformed : ConnectError ε := .new .invalidData "malformed HTTP CONNECT response"

def tooMany : ConnectError ε := .new .invalidData "too many informational HTTP CONNECT responses"

def statusDone (code : Nat) : Except (ConnectError ε) Bool :=
  if 200 ≤ code ∧ code ≤ 299 then .ok true
  else if 100 ≤ code ∧ code ≤ 199 ∧ code ≠ 101 then .ok false
  else if code = 407 then
    .error (.new .permissionDenied "HTTP proxy authentication required or rejected (407)")
  else .error (.new .connectionRefused s!"HTTP CONNECT rejected with status {code}")

/-- How the parser of the dependency takes a header: where it ends, if it is complete, with the code. -/
abbrev Parse : Type := Bytes → Option (Nat × Option Nat)

def responseDone (parse : Parse) (header : Bytes) : Except (ConnectError ε) Bool :=
  match parse header with
  | some (endOffset, code) => if endOffset = header.length then statusDone (code.getD 0) else .error malformed
  | none => .error malformed

def terminator : Bytes := [13, 10, 13, 10]

/-- A header with what was received, cut after the terminator if there is one. -/
def appendReceived (header received : Bytes) : Bytes × Bool :=
  let previous := header.length
  match position terminator ((header ++ received).drop (previous - 3)) with
  | some offset => ((header ++ received).take (previous - 3 + offset + 4), true)
  | none => (header ++ received, false)

/-- The stream: what was consumed of it, and how often it was looked at. -/
structure Stream where
  position : Nat
  calls : Nat

section

variable (parse : Parse) (source : Nat → Item UInt8 ε) (cut : Nat → Nat)

/-- What is there to see, at most so much, as the stream is cut. -/
def available (s : Stream) (most : Nat) : Except (ConnectError ε) Bytes :=
  match source s.position with
  | .failed error => .error (.stream error)
  | _ => .ok (grab source s.position (Nat.min most (cut s.calls)))

/-- The loop that peeks and then reads exactly what belongs to the header. -/
def readHeader (limit : Nat) : Nat → Stream → Bytes →
    Option (Except (Fault (ConnectError ε)) Bytes × Stream)
  | 0, _, _ => none
  | fuel + 1, s, header =>
    if ¬header.length < limit then some (.error (.error exceeded), s)
    else
      match sub limit header.length with
      | .error fault => some (.error fault, s)
      | .ok room =>
        match available source cut s (Nat.min 1024 room) with
        | .error error => some (.error (.error error), s)
        | .ok received =>
          if received.length = 0 then some (.error (.error ended), s)
          else
            let (extended, done) := appendReceived header received
            match sub extended.length header.length with
            | .error fault => some (.error fault, s)
            | .ok count =>
              if done then some (.ok extended, ⟨s.position + count, s.calls + 1⟩)
              else readHeader limit fuel ⟨s.position + count, s.calls + 1⟩ extended

/-- The loop that borrows what is buffered and then consumes what belongs to the header. -/
def readBuffered (remaining : Nat) : Nat → Stream → Bytes →
    Option (Except (Fault (ConnectError ε)) Bytes × Stream)
  | 0, _, _ => none
  | fuel + 1, s, header =>
    if header.length = remaining then some (.error (.error exceeded), s)
    else
      match available source cut s (cut s.calls) with
      | .error error => some (.error (.error error), s)
      | .ok buffered =>
        if buffered.length = 0 then some (.error (.error ended), s)
        else
          match sub remaining header.length with
          | .error fault => some (.error fault, s)
          | .ok room =>
            let (extended, done) := appendReceived header (buffered.take (Nat.min buffered.length room))
            match sub extended.length header.length with
            | .error fault => some (.error fault, s)
            | .ok count =>
              if done then some (.ok extended, ⟨s.position + count, s.calls + 1⟩)
              else readBuffered remaining fuel ⟨s.position + count, s.calls + 1⟩ extended

/-- The responses of the proxy, one after the other, out of one budget. -/
def responses (read : Nat → Stream → Option (Except (Fault (ConnectError ε)) Bytes × Stream)) :
    Nat → Nat → Stream → Option (Except (Fault (ConnectError ε)) Unit × Stream)
  | 0, _, s => some (.error (.error tooMany), s)
  | more + 1, remaining, s =>
    match read remaining s with
    | none => none
    | some (.error fault, s) => some (.error fault, s)
    | some (.ok header, s) =>
      match sub remaining header.length with
      | .error fault => some (.error fault, s)
      | .ok remaining =>
        match responseDone parse header with
        | .error error => some (.error (.error error), s)
        | .ok true => some (.ok (), s)
        | .ok false => responses read more remaining s

def handshake (fuel : Nat) : Option (Except (Fault (ConnectError ε)) Unit × Stream) :=
  responses parse (fun limit s => readHeader source cut limit fuel s []) (maxInformational + 1)
    maxHeaderBytes ⟨0, 0⟩

def handshakeBuffered (fuel : Nat) : Option (Except (Fault (ConnectError ε)) Unit × Stream) :=
  responses parse (fun remaining s => readBuffered source cut remaining fuel s []) (maxInformational + 1)
    maxHeaderBytes ⟨0, 0⟩

end

/-! A byte at a time, without pieces. -/

def errorOf : Found UInt8 ε → Except (ConnectError ε) Bytes
  | .ended header => .ok header
  | .tooLong => .error exceeded
  | .eof => .error ended
  | .failed error => .error (.stream error)

variable (parse : Parse) (source : Nat → Item UInt8 ε)

def connect : Nat → Nat → Nat → Except (ConnectError ε) Unit × Nat
  | 0, _, p => (.error tooMany, p)
  | more + 1, remaining, p =>
    match errorOf (scan terminator source remaining p []).1 with
    | .error error => (.error error, (scan terminator source remaining p []).2)
    | .ok header =>
      match responseDone parse header with
      | .error error => (.error error, (scan terminator source remaining p []).2)
      | .ok true => (.ok (), (scan terminator source remaining p []).2)
      | .ok false => connect more (remaining - header.length) (scan terminator source remaining p []).2

variable {parse source} {cut : Nat → Nat} {header : Bytes} {limit p : Nat}

theorem terminator_ne_nil : terminator ≠ [] := by decide

theorem appendReceived_eq (header received : Bytes) :
    appendReceived header received = extendTo terminator header received := rfl

/-- A piece is read over, or ends the header; either way as a byte at a time would. -/
theorem piece_spec (hclear : Clear terminator header) (hlen : header.length < limit) {n : Nat}
    (hn : 0 < n) (hroom : n ≤ limit - header.length) (hbyte : (source p).isByte = true) :
    (grab source p n).length ≠ 0 ∧ ∃ extended done count,
      appendReceived header (grab source p n) = (extended, done) ∧
      sub (ε := ConnectError ε) extended.length header.length = .ok count ∧
      (done = true → scan terminator source (limit - header.length) p header = (.ended extended, p + count)) ∧
      (done = false → Clear terminator extended ∧ header.length < extended.length ∧
        extended.length ≤ limit ∧ scan terminator source (limit - header.length) p header =
          scan terminator source (limit - extended.length) (p + count) extended) := by
  have hpos := length_grab_pos hbyte hn
  have hle := length_grab_le source p n
  refine ⟨by omega, ?_⟩
  rw [appendReceived_eq]
  rcases extendTo_spec terminator_ne_nil hclear (grab source p n) with
    ⟨heq, hclear'⟩ | ⟨init, a, rest, hsplit, heq, hclear', hsuffix⟩
  · refine ⟨_, _, (grab source p n).length, heq, ?_, nofun, fun _ => ⟨hclear', ?_, ?_, ?_⟩⟩
    · rw [List.length_append, sub_ok (Nat.le_add_right _ _), Nat.add_sub_cancel_left]
    · rw [List.length_append]
      omega
    · rw [List.length_append]
      omega
    · rw [scan_skip (grab_length_grab source p n) hclear' (hle.trans hroom), List.length_append, Nat.sub_sub]
  · have hinit : init.length < n := by
      rw [hsplit, List.length_append, List.length_cons] at hle
      omega
    have hgrab : grab source p (init.length + 1) = init ++ [a] := by
      have htake := take_grab source p (init.length + 1) n
      rw [hsplit, show Nat.min (init.length + 1) n = init.length + 1 from Nat.min_eq_left hinit] at htake
      rw [← htake, show init ++ a :: rest = init ++ [a] ++ rest by simp, List.take_left' (by simp)]
    refine ⟨_, _, init.length + 1, heq, ?_, fun _ => ?_, nofun⟩
    · rw [List.length_append, List.length_append, List.length_singleton, Nat.add_assoc,
        sub_ok (Nat.le_add_right _ _), Nat.add_sub_cancel_left]
    · exact scan_ended hgrab hclear' hsuffix (by omega)

/-- What a loop over pieces returns: what a byte at a time gives, after as many bytes. -/
def Reads (source : Nat → Item UInt8 ε) (limit : Nat) (s : Stream) (header : Bytes)
    (result : Option (Except (Fault (ConnectError ε)) Bytes × Stream)) : Prop :=
  ∃ calls, result = some
    ((errorOf (scan terminator source (limit - header.length) s.position header).1).mapError Fault.error,
      ⟨(scan terminator source (limit - header.length) s.position header).2, calls⟩)

theorem reads_exceeded (s : Stream) (h : header.length = limit) :
    Reads source limit s header (some (.error (.error exceeded), s)) := by
  refine ⟨s.calls, ?_⟩
  rw [h, Nat.sub_self]
  rfl

theorem reads_failed {s : Stream} {error : ε} (hlen : header.length < limit)
    (hsource : source s.position = .failed error) :
    Reads source limit s header (some (.error (.error (.stream error)), s)) := by
  obtain ⟨room, hroom⟩ := Nat.exists_eq_add_one.mpr (show 0 < limit - header.length by omega)
  refine ⟨s.calls, ?_⟩
  rw [hroom, scan, hsource]
  rfl

theorem reads_eof {s : Stream} (hlen : header.length < limit) (hsource : source s.position = .eof) :
    Reads source limit s header (some (.error (.error ended), s)) := by
  obtain ⟨room, hroom⟩ := Nat.exists_eq_add_one.mpr (show 0 < limit - header.length by omega)
  refine ⟨s.calls, ?_⟩
  rw [hroom, scan, hsource]
  rfl

theorem readHeader_reads (hcut : ∀ i, 0 < cut i) {fuel : Nat} {s : Stream} (hclear : Clear terminator header)
    (hlen : header.length ≤ limit) (hfuel : limit - header.length < fuel) :
    Reads source limit s header (readHeader source cut limit fuel s header) := by
  induction fuel generalizing s header with
  | zero => omega
  | succ fuel ih =>
    rw [readHeader]
    split
    next hfull => exact reads_exceeded s (by omega)
    next hlt =>
      have hlt : header.length < limit := not_not.mp hlt
      rw [sub_ok hlen]
      simp only [available]
      cases hsource : source s.position with
      | failed error => exact reads_failed hlt hsource
      | eof =>
        have hnone : ∀ n, grab source s.position n = [] := grab_of_not_byte (by rw [hsource]; rfl)
        simp only [hnone, List.length_nil, if_true]
        exact reads_eof hlt hsource
      | byte a =>
        have hbyte : (source s.position).isByte = true := by rw [hsource]; rfl
        have hmin : 0 < Nat.min (Nat.min 1024 (limit - header.length)) (cut s.calls) :=
          Nat.lt_min.mpr ⟨Nat.lt_min.mpr ⟨by decide, by omega⟩, hcut _⟩
        have hroom : Nat.min (Nat.min 1024 (limit - header.length)) (cut s.calls) ≤ limit - header.length :=
          (Nat.min_le_left _ _).trans (Nat.min_le_right _ _)
        obtain ⟨hpos, extended, done, count, heq, hsub, hdone, hmore⟩ :=
          piece_spec hclear hlt hmin hroom hbyte
        simp only [hpos, if_false, heq, hsub]
        cases done with
        | true =>
          refine ⟨s.calls + 1, ?_⟩
          rw [hdone rfl]
          rfl
        | false =>
          obtain ⟨hclear', hlonger, hle, hscan⟩ := hmore rfl
          have hrest := @ih extended ⟨s.position + count, s.calls + 1⟩ hclear' hle (by omega)
          rw [Reads, ← hscan] at hrest
          exact hrest

theorem readBuffered_reads (hcut : ∀ i, 0 < cut i) {fuel : Nat} {s : Stream}
    (hclear : Clear terminator header) (hlen : header.length ≤ limit)
    (hfuel : limit - header.length < fuel) :
    Reads source limit s header (readBuffered source cut limit fuel s header) := by
  induction fuel generalizing s header with
  | zero => omega
  | succ fuel ih =>
    rw [readBuffered]
    split
    next hfull => exact reads_exceeded s hfull
    next hne =>
      have hlt : header.length < limit := by omega
      rw [sub_ok hlen]
      simp only [available]
      cases hsource : source s.position with
      | failed error => exact reads_failed hlt hsource
      | eof =>
        have hnone : ∀ n, grab source s.position n = [] := grab_of_not_byte (by rw [hsource]; rfl)
        simp only [hnone, List.length_nil, if_true]
        exact reads_eof hlt hsource
      | byte a =>
        have hbyte : (source s.position).isByte = true := by rw [hsource]; rfl
        have hcut' : Nat.min (cut s.calls) (cut s.calls) = cut s.calls := Nat.min_self _
        have hsome := length_grab_pos hbyte (hcut s.calls)
        have htake : (grab source s.position (cut s.calls)).take
            (Nat.min (grab source s.position (cut s.calls)).length (limit - header.length)) =
            grab source s.position (Nat.min (limit - header.length) (cut s.calls)) := by
          rw [← take_grab, List.take_eq_take_iff]
          show min (min _ _) _ = min _ _
          omega
        have hmin : 0 < Nat.min (limit - header.length) (cut s.calls) :=
          Nat.lt_min.mpr ⟨by omega, hcut _⟩
        obtain ⟨-, extended, done, count, heq, hsub, hdone, hmore⟩ :=
          piece_spec hclear hlt hmin (Nat.min_le_left _ _) hbyte
        simp only [hcut', Nat.ne_of_gt hsome, if_false, htake, heq, hsub]
        cases done with
        | true =>
          refine ⟨s.calls + 1, ?_⟩
          rw [hdone rfl]
          rfl
        | false =>
          obtain ⟨hclear', hlonger, hle, hscan⟩ := hmore rfl
          have hrest := @ih extended ⟨s.position + count, s.calls + 1⟩ hclear' hle (by omega)
          rw [Reads, ← hscan] at hrest
          exact hrest

/-- Reading header by header as a byte at a time would gives its answers. -/
theorem responses_eq {read : Nat → Stream → Option (Except (Fault (ConnectError ε)) Bytes × Stream)}
    {budget : Nat} (hread : ∀ limit ≤ budget, ∀ s, Reads source limit s [] (read limit s)) (tries : Nat)
    {remaining : Nat} (hremaining : remaining ≤ budget) (s : Stream) :
    ∃ calls, responses parse read tries remaining s = some
      ((connect parse source tries remaining s.position).1.mapError Fault.error,
        ⟨(connect parse source tries remaining s.position).2, calls⟩) := by
  induction tries generalizing remaining s with
  | zero => exact ⟨s.calls, rfl⟩
  | succ tries ih =>
    obtain ⟨calls, hcall⟩ := hread remaining hremaining s
    rw [List.length_nil, Nat.sub_zero] at hcall
    rw [responses, hcall, connect]
    cases hscan : scan terminator source remaining s.position [] with
    | mk found q =>
      cases found with
      | tooLong => exact ⟨calls, rfl⟩
      | eof => exact ⟨calls, rfl⟩
      | failed error => exact ⟨calls, rfl⟩
      | ended header =>
        obtain ⟨init, a, hheader, -, -, hroom, -, -⟩ := of_scan_ended (clear_nil terminator_ne_nil) hscan
        have hle : header.length ≤ remaining := by
          rw [hheader, List.nil_append, List.length_append]
          exact hroom
        simp only [errorOf, Except.mapError, sub_ok hle]
        cases hdone : responseDone (ε := ε) parse header with
        | error error => exact ⟨calls, rfl⟩
        | ok done =>
          cases done with
          | true => exact ⟨calls, rfl⟩
          | false => exact ih ((Nat.sub_le _ _).trans hremaining) ⟨q, calls⟩

/-- A header with its first terminator at its end. -/
abbrev Header (header : Bytes) : Prop := Terminated terminator header

/-- Some informational headers and then a final one that accepts, at the front of the stream from a
position on, within a budget. -/
structure Accepted (parse : Parse) (source : Nat → Item UInt8 ε) (informational budget p : Nat)
    (headers : List Bytes) (final : Bytes) : Prop where
  count : headers.length ≤ informational
  continues : ∀ header ∈ headers, Header header ∧ responseDone (ε := ε) parse header = .ok false
  accepts : Header final ∧ responseDone (ε := ε) parse final = .ok true
  length : (headers.flatten ++ final).length ≤ budget
  stream : grab source p (headers.flatten ++ final).length = headers.flatten ++ final

theorem header_ne_nil (h : Header header) : header ≠ [] := by
  rintro rfl
  exact terminator_ne_nil (List.suffix_nil.mp h.1)

/-- A header at the front of the stream is what is read. -/
theorem scan_header (h : Header header) (hroom : header.length ≤ limit)
    (hgrab : grab source p header.length = header) :
    scan terminator source limit p [] = (.ended header, p + header.length) := by
  have hsplit := List.dropLast_append_getLast (header_ne_nil h)
  obtain ⟨hsuffix, hclear⟩ := h
  have hlength := congrArg List.length hsplit
  rw [List.length_append, List.length_singleton] at hlength
  have hended := @scan_ended _ _ terminator _ source [] p limit header.dropLast
    (header.getLast _) (by rw [hlength, hsplit, hgrab]) hclear (by rw [List.nil_append, hsplit]; exact hsuffix)
    (by omega)
  rw [List.nil_append, hsplit, Nat.add_assoc, hlength] at hended
  exact hended

theorem of_scan_header {q : Nat} (h : scan terminator source limit p [] = (.ended header, q)) :
    Header header ∧ header.length ≤ limit ∧ grab source p header.length = header ∧
      q = p + header.length := by
  obtain ⟨init, a, hheader, hclear, hsuffix, hroom, hgrab, rfl⟩ :=
    of_scan_ended (clear_nil terminator_ne_nil) h
  rw [List.nil_append] at hheader hclear hsuffix
  have hlength : header.length = init.length + 1 := by rw [hheader, List.length_append, List.length_singleton]
  refine ⟨⟨hheader ▸ hsuffix, ?_⟩, by omega, by rw [hlength, hgrab, hheader], by omega⟩
  rw [hheader, List.dropLast_concat]
  exact hclear

theorem grab_append {a b : Bytes} : grab source p (a ++ b).length = a ++ b ↔
    grab source p a.length = a ∧ grab source (p + a.length) b.length = b := by
  rw [List.length_append]
  constructor
  · intro h
    have htake := take_grab source p a.length (a.length + b.length)
    rw [h, List.take_left, show Nat.min a.length (a.length + b.length) = a.length from
      Nat.min_eq_left (Nat.le_add_right _ _)] at htake
    rw [grab_add (by rw [← htake]), ← htake] at h
    exact ⟨htake.symm, List.append_cancel_left h⟩
  · rintro ⟨ha, hb⟩
    rw [grab_add (by rw [ha]), ha, hb]

theorem connect_step {more remaining p q : Nat} :
    connect parse source (more + 1) remaining p = (.ok (), q) ↔ ∃ header, Header header ∧
      header.length ≤ remaining ∧ grab source p header.length = header ∧
      (responseDone (ε := ε) parse header = .ok true ∧ q = p + header.length ∨
        responseDone (ε := ε) parse header = .ok false ∧
          connect parse source more (remaining - header.length) (p + header.length) = (.ok (), q)) := by
  rw [connect]
  constructor
  · intro h
    cases hscan : scan terminator source remaining p [] with
    | mk found q' =>
      rw [hscan] at h
      cases found with
      | tooLong => cases (Prod.mk.inj h).1
      | eof => cases (Prod.mk.inj h).1
      | failed error => cases (Prod.mk.inj h).1
      | ended header =>
        obtain ⟨hheader, hlen, hgrab, rfl⟩ := of_scan_header hscan
        refine ⟨header, hheader, hlen, hgrab, ?_⟩
        simp only [errorOf] at h
        cases hdone : responseDone (ε := ε) parse header with
        | error error =>
          rw [hdone] at h
          cases (Prod.mk.inj h).1
        | ok done =>
          rw [hdone] at h
          cases done with
          | true => exact Or.inl ⟨rfl, (Prod.mk.inj h).2.symm⟩
          | false => exact Or.inr ⟨rfl, h⟩
  · rintro ⟨header, hheader, hlen, hgrab, ⟨hdone, rfl⟩ | ⟨hdone, hrest⟩⟩
    · rw [scan_header hheader hlen hgrab]
      simp only [errorOf, hdone]
    · rw [scan_header hheader hlen hgrab]
      simp only [errorOf, hdone, hrest]

theorem accepted_nil {informational budget p : Nat} {final : Bytes} :
    Accepted parse source informational budget p [] final ↔ Header final ∧
      final.length ≤ budget ∧ grab source p final.length = final ∧
        responseDone (ε := ε) parse final = .ok true :=
  ⟨fun h => ⟨h.accepts.1, h.length, h.stream, h.accepts.2⟩,
    fun ⟨hfinal, hlen, hgrab, hdone⟩ => ⟨Nat.zero_le _, nofun, ⟨hfinal, hdone⟩, hlen, hgrab⟩⟩

theorem accepted_cons {informational budget p : Nat} {final : Bytes} {headers : List Bytes} :
    Accepted parse source (informational + 1) budget p (header :: headers) final ↔
      Header header ∧ header.length ≤ budget ∧ grab source p header.length = header ∧
        responseDone (ε := ε) parse header = .ok false ∧
        Accepted parse source informational (budget - header.length) (p + header.length) headers final := by
  have happend : (header :: headers).flatten ++ final = header ++ (headers.flatten ++ final) := by simp
  constructor
  · rintro ⟨hcount, hcontinues, haccepts, hlen, hgrab⟩
    rw [happend, grab_append] at hgrab
    rw [happend, List.length_append] at hlen
    obtain ⟨⟨hheader, hdone⟩, hrest⟩ := List.forall_mem_cons.mp hcontinues
    exact ⟨hheader, by omega, hgrab.1, hdone, by simpa using hcount, hrest, haccepts, by omega, hgrab.2⟩
  · rintro ⟨hheader, hle, hgrab, hdone, hcount, hcontinues, haccepts, hlen, hrest⟩
    refine ⟨by simpa using hcount, List.forall_mem_cons.mpr ⟨⟨hheader, hdone⟩, hcontinues⟩, haccepts, ?_, ?_⟩
    · rw [happend, List.length_append]
      omega
    · rw [happend]
      exact grab_append.mpr ⟨hgrab, hrest⟩

theorem connect_ok_iff {more remaining p q : Nat} :
    connect parse source (more + 1) remaining p = (.ok (), q) ↔ ∃ headers final,
      Accepted parse source more remaining p headers final ∧
        q = p + (headers.flatten ++ final).length := by
  have hlast : ∀ {more remaining p q : Nat} {header : Bytes}, Header header → header.length ≤ remaining →
      grab source p header.length = header → responseDone (ε := ε) parse header = .ok true →
      q = p + header.length → ∃ headers final, Accepted parse source more remaining p headers final ∧
        q = p + (headers.flatten ++ final).length :=
    fun hheader hlen hgrab hdone hq => ⟨[], _, accepted_nil.mpr ⟨hheader, hlen, hgrab, hdone⟩, hq⟩
  induction more generalizing remaining p with
  | zero =>
    rw [connect_step]
    constructor
    · rintro ⟨header, hheader, hlen, hgrab, ⟨hdone, hq⟩ | ⟨-, hrest⟩⟩
      · exact hlast hheader hlen hgrab hdone hq
      · cases (Prod.mk.inj hrest).1
    · rintro ⟨headers, final, haccepted, hq⟩
      obtain rfl := List.length_eq_zero_iff.mp (Nat.le_zero.mp haccepted.count)
      obtain ⟨hfinal, hlen, hgrab, hdone⟩ := accepted_nil.mp haccepted
      exact ⟨final, hfinal, hlen, hgrab, Or.inl ⟨hdone, hq⟩⟩
  | succ more ih =>
    rw [connect_step]
    constructor
    · rintro ⟨header, hheader, hlen, hgrab, ⟨hdone, hq⟩ | ⟨hdone, hrest⟩⟩
      · exact hlast hheader hlen hgrab hdone hq
      · obtain ⟨headers, final, haccepted, rfl⟩ := ih.mp hrest
        refine ⟨header :: headers, final, accepted_cons.mpr ⟨hheader, hlen, hgrab, hdone, haccepted⟩, ?_⟩
        simp only [List.flatten_cons, List.length_append]
        omega
    · rintro ⟨headers, final, haccepted, hq⟩
      cases headers with
      | nil =>
        obtain ⟨hfinal, hlen, hgrab, hdone⟩ := accepted_nil.mp haccepted
        exact ⟨final, hfinal, hlen, hgrab, Or.inl ⟨hdone, hq⟩⟩
      | cons header headers =>
        obtain ⟨hheader, hlen, hgrab, hdone, hrest⟩ := accepted_cons.mp haccepted
        refine ⟨header, hheader, hlen, hgrab, Or.inr ⟨hdone, ih.mpr ⟨headers, final, hrest, ?_⟩⟩⟩
        rw [hq]
        simp only [List.flatten_cons, List.length_append]
        omega

/-- Whatever the pieces, both readers give one answer and consume as much: they accept exactly when a
final header that accepts follows at most four informational ones, within the budget, and then they
have consumed these headers. -/
theorem handshakes_agree (parse : Parse) (source : Nat → Item UInt8 ε) :
    ∃ (result : Except (ConnectError ε) Unit) (position : Nat),
      (∀ (peeks fills : Nat → Nat), (∀ i, 0 < peeks i) → (∀ i, 0 < fills i) →
        ∀ fuel, maxHeaderBytes < fuel → ∃ calls calls',
          handshake parse source peeks fuel = some (result.mapError Fault.error, ⟨position, calls⟩) ∧
          handshakeBuffered parse source fills fuel =
            some (result.mapError Fault.error, ⟨position, calls'⟩)) ∧
      (result = .ok () ↔ ∃ headers final,
        Accepted parse source maxInformational maxHeaderBytes 0 headers final) ∧
      ∀ headers final, Accepted parse source maxInformational maxHeaderBytes 0 headers final →
        position = (headers.flatten ++ final).length := by
  refine ⟨(connect parse source (maxInformational + 1) maxHeaderBytes 0).1,
    (connect parse source (maxInformational + 1) maxHeaderBytes 0).2, ?_, ?_, ?_⟩
  · intro peeks fills hpeeks hfills fuel hfuel
    have hheader : ∀ limit ≤ maxHeaderBytes, ∀ s : Stream,
        Reads source limit s [] (readHeader source peeks limit fuel s []) := fun limit hlimit s =>
      readHeader_reads hpeeks (clear_nil terminator_ne_nil) (Nat.zero_le limit) (lt_of_le_of_lt hlimit hfuel)
    have hbuffered : ∀ limit ≤ maxHeaderBytes, ∀ s : Stream,
        Reads source limit s [] (readBuffered source fills limit fuel s []) := fun limit hlimit s =>
      readBuffered_reads hfills (clear_nil terminator_ne_nil) (Nat.zero_le limit) (lt_of_le_of_lt hlimit hfuel)
    obtain ⟨calls, hcalls⟩ := responses_eq hheader (maxInformational + 1) le_rfl ⟨0, 0⟩
    obtain ⟨calls', hcalls'⟩ := responses_eq hbuffered (maxInformational + 1) le_rfl ⟨0, 0⟩
    exact ⟨calls, calls', hcalls, hcalls'⟩
  · constructor
    · intro h
      obtain ⟨headers, final, haccepted, -⟩ := connect_ok_iff.mp (Prod.ext h rfl)
      exact ⟨headers, final, haccepted⟩
    · rintro ⟨headers, final, haccepted⟩
      exact congrArg Prod.fst (connect_ok_iff.mpr ⟨headers, final, haccepted, rfl⟩)
  · intro headers final haccepted
    have hok := connect_ok_iff.mpr ⟨headers, final, haccepted, rfl⟩
    rw [hok, Nat.zero_add]

end HttpConnect

end Grammers
