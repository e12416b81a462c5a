import Grammers.Download
import Mathlib.Data.List.Nodup

namespace Grammers.Files

open LabelledPath SeekFile

variable {ε : Type} {size workers : Nat} {d d' : Download} {c : Completion ε}
  {cs : List (Completion ε)} {file : List UInt8}

theorem mem_chunkOffsets {offset : Nat} :
    offset ∈ chunkOffsets size ↔ ∃ k, offset = k * maxChunkSize ∧ offset < size := by
  simp only [chunkOffsets, List.mem_map, List.mem_range, maxChunkSize]
  constructor
  · rintro ⟨k, hk, rfl⟩
    exact ⟨k, rfl, by omega⟩
  · rintro ⟨k, rfl, hk⟩
    exact ⟨k, by omega, rfl⟩

theorem chunkOffsets_nodup (size : Nat) : (chunkOffsets size).Nodup := by
  refine List.Nodup.map ?_ List.nodup_range
  intro a b h
  simp only [maxChunkSize] at h
  omega

theorem foldl_fetch (d : Download) (offsets : List Nat) :
    offsets.foldl Download.fetch d =
      { d with pending := d.pending ++ offsets, requested := d.requested ++ offsets } := by
  induction offsets generalizing d with
  | nil => simp
  | cons offset offsets ih =>
    rw [List.foldl_cons, ih]
    simp [Download.fetch]

/-- What a completed request does when it does not fail. -/
theorem receive_cases (hcursor : d.file.cursor = d.position) (hr : d.receive size c = .ok d') :
    ∃ bytes, c.answer = .ok bytes ∧ bytes.length = expectedLength size c.offset ∧ d' = {
      file := (d.file.seek c.offset).writeAll 0 bytes
      offsets := d.offsets.tail
      pending := d.pending.erase c.offset ++ d.offsets.head?.toList
      position := c.offset + bytes.length
      requested := d.requested ++ d.offsets.head?.toList } := by
  unfold Download.receive at hr
  split at hr
  next => simp at hr
  next bytes ha =>
    split at hr
    next => simp at hr
    next hge =>
      split at hr
      next => simp at hr
      next hle =>
        refine ⟨bytes, ha, by omega, ?_⟩
        have hseek : ∀ {f}, d.seekChunk c = .ok f → f = d.file.seek c.offset := by
          intro f hf
          unfold Download.seekChunk at hf
          split at hf
          next heq =>
            obtain rfl := Except.ok.inj hf
            rw [File.seek, heq, ← hcursor]
          next =>
            split at hf
            next => simp at hf
            next => exact (Except.ok.inj hf).symm
        unfold Download.writeChunk at hr
        cases hs : d.seekChunk c with
        | error error => simp [hs, bind, Except.bind] at hr
        | ok f =>
          obtain rfl := hseek hs
          simp only [hs, bind, Except.bind, pure, Except.pure] at hr
          split at hr
          next => simp at hr
          next =>
            split at hr
            next ho =>
              obtain rfl := Except.ok.inj hr
              simp [ho]
            next ho =>
              obtain rfl := Except.ok.inj hr
              simp [ho, Download.fetch]

/-- Of every run of the loop: the chunks asked for are the first offsets, each once; as
many as there are workers are in flight while more remain; and the file has the chunks of
the completed requests in their places. -/
structure InFlight (file : List UInt8) (size workers : Nat) (cs : List (Completion ε))
    (d : Download) : Prop where
  split : d.requested ++ d.offsets = chunkOffsets size
  asked : (cs.map Completion.offset ++ d.pending).Perm d.requested
  bound : d.pending.length ≤ workers
  full : d.offsets ≠ [] → d.pending.length = workers
  cursor : d.file.cursor = d.position
  held : ∀ c ∈ cs, ∃ bytes, c.answer = .ok bytes ∧
    bytes.length = expectedLength size c.offset ∧ Holds d.file.content c.offset bytes
  rest : d.file.content.drop size = file.drop size

theorem InFlight.start (file : List UInt8) (size workers : Nat) :
    InFlight (ε := ε) file size workers [] (.start ⟨file, 0⟩ size workers) := by
  rw [Download.start, foldl_fetch]
  refine ⟨List.take_append_drop _ _, List.Perm.refl _, ?_, fun h => ?_, rfl, by simp, rfl⟩
  · show ([] ++ (chunkOffsets size).take workers).length ≤ workers
    rw [List.nil_append, List.length_take]
    omega
  · show ([] ++ (chunkOffsets size).take workers).length = workers
    have hlt : workers < (chunkOffsets size).length := by
      by_contra hge
      exact h (List.drop_eq_nil_of_le (by omega))
    rw [List.nil_append, List.length_take]
    omega

/-- Different chunks do not overlap. -/
theorem chunks_apart {a b m n : Nat} (ha : a ∈ chunkOffsets size) (hb : b ∈ chunkOffsets size)
    (hne : a ≠ b) (hm : m ≤ maxChunkSize) (hn : n ≤ maxChunkSize) : a + m ≤ b ∨ b + n ≤ a := by
  obtain ⟨i, rfl, _⟩ := mem_chunkOffsets.mp ha
  obtain ⟨j, rfl, _⟩ := mem_chunkOffsets.mp hb
  simp only [maxChunkSize] at *
  omega

theorem InFlight.step (h : InFlight file size workers cs d) (hs : Download.Steps size d c d') :
    InFlight file size workers (cs ++ [c]) d' := by
  obtain ⟨hm, hr⟩ := hs
  obtain ⟨bytes, ha, hlen, rfl⟩ := receive_cases h.cursor hr
  have hmem : ∀ offset ∈ d.requested, offset ∈ chunkOffsets size := fun offset ho =>
    h.split ▸ List.mem_append_left _ ho
  have hoffset : c.offset ∈ chunkOffsets size :=
    hmem _ (h.asked.mem_iff.mp (List.mem_append_right _ hm))
  obtain ⟨_, _, hlt⟩ := mem_chunkOffsets.mp hoffset
  have hnodup : (cs.map Completion.offset ++ d.pending).Nodup :=
    h.asked.nodup_iff.mpr ((List.nodup_append.mp (h.split ▸ chunkOffsets_nodup size)).1)
  have hpos : 0 < d.pending.length := List.length_pos_of_mem hm
  have herase : (d.pending.erase c.offset).length = d.pending.length - 1 :=
    List.length_erase_of_mem hm
  refine ⟨?_, ?_, ?_, ?_, writeAll_cursor _ _ _, ?_, ?_⟩
  · rw [List.append_assoc, ← h.split]
    cases d.offsets with
    | nil => rfl
    | cons offset offsets => rfl
  · have hperm := (List.perm_cons_erase hm).symm
    rw [List.map_append, List.map_singleton, List.append_assoc, ← List.append_assoc [c.offset],
      ← List.append_assoc]
    exact (((hperm.append_left _).trans h.asked).append_right _)
  · have hbound := h.bound
    have hfull := h.full
    rw [List.length_append, herase]
    cases ho : d.offsets with
    | nil =>
      simp only [List.head?_nil, Option.toList_none, List.length_nil]
      omega
    | cons offset offsets =>
      have := hfull (by simp [ho])
      simp only [List.head?_cons, Option.toList_some, List.length_singleton]
      omega
  · intro hne
    have ho : d.offsets ≠ [] := by
      intro he
      simp [he] at hne
    have := h.full ho
    rw [List.length_append, herase]
    cases ho' : d.offsets with
    | nil => exact absurd ho' ho
    | cons offset offsets =>
      simp only [List.head?_cons, Option.toList_some, List.length_singleton]
      omega
  · intro c' hc'
    rcases List.mem_append.mp hc' with hc' | hc'
    · obtain ⟨other, ha', hlen', hholds⟩ := h.held c' hc'
      refine ⟨other, ha', hlen', Holds.writeAll hholds ?_⟩
      have hm' : c'.offset ∈ cs.map Completion.offset := List.mem_map_of_mem hc'
      refine @chunks_apart size _ _ _ _ ?_ hoffset ?_ ?_ ?_
      · exact hmem _ (h.asked.mem_iff.mp (List.mem_append_left _ hm'))
      · exact fun he => (List.nodup_append.mp hnodup).2.2 _ hm' _ hm he
      · rw [hlen', expectedLength]
        omega
      · rw [hlen, expectedLength]
        omega
    · obtain rfl := List.mem_singleton.mp hc'
      exact ⟨bytes, ha, hlen, holds_writeAll 0 (d.file.seek c'.offset) bytes⟩
  · rw [← h.rest, drop_writeAll]
    · rfl
    · show c.offset + bytes.length ≤ size
      rw [hlen, expectedLength]
      omega

theorem InFlight.of_path (h : Path (Download.Steps size) (.start ⟨file, 0⟩ size workers) cs d) :
    InFlight file size workers cs d :=
  h.invariant_labels (fun _ _ _ _ hi hs => hi.step hs) (InFlight.start file size workers)

/-- When nothing is in flight any more, every chunk has been asked for and has completed. -/
theorem InFlight.all (h : InFlight file size workers cs d) (hw : 0 < workers)
    (hp : d.pending = []) : d.requested = chunkOffsets size ∧
      (cs.map Completion.offset).Perm (chunkOffsets size) := by
  have hnone : d.offsets = [] := by
    by_contra hne
    have := h.full hne
    rw [hp, List.length_nil] at this
    omega
  have hall := h.split
  rw [hnone, List.append_nil] at hall
  have hasked := h.asked
  rw [hp, List.append_nil, hall] at hasked
  exact ⟨hall, hasked⟩

/-- A file with every chunk in its place is made up of the chunks in order. -/
theorem take_of_holds {content : List UInt8} {chunk : Nat → List UInt8} (k : Nat)
    (hlen : ∀ offset ∈ chunkOffsets size, (chunk offset).length = expectedLength size offset)
    (hholds : ∀ offset ∈ chunkOffsets size, Holds content offset (chunk offset))
    (hk : k ≤ (size + (maxChunkSize - 1)) / maxChunkSize) :
    content.take (min (k * maxChunkSize) size) =
      (((List.range k).map (· * maxChunkSize)).map chunk).flatten := by
  induction k with
  | zero => simp
  | succ k ih =>
    have hlt : k * maxChunkSize < size := by
      simp only [maxChunkSize] at hk ⊢
      omega
    have hm : k * maxChunkSize ∈ chunkOffsets size := mem_chunkOffsets.mpr ⟨k, rfl, hlt⟩
    have hchunk := hholds _ hm
    have hend : min ((k + 1) * maxChunkSize) size =
        k * maxChunkSize + (chunk (k * maxChunkSize)).length := by
      rw [hlen _ hm, expectedLength, Nat.succ_mul]
      omega
    have ih := ih (by omega)
    rw [Nat.min_eq_left hlt.le] at ih
    rw [List.range_succ, List.map_append, List.map_append, List.flatten_append, ← ih, hend,
      List.take_add, hchunk]
    simp

theorem InFlight.content (h : InFlight file size workers cs d) (hw : 0 < workers)
    (hp : d.pending = []) {chunk : Nat → List UInt8} (hc : ∀ c ∈ cs, c.answer = .ok (chunk c.offset)) :
    d.file.content = ((chunkOffsets size).map chunk).flatten ++ file.drop size := by
  obtain ⟨_, hperm⟩ := h.all hw hp
  have hchunks : ∀ offset ∈ chunkOffsets size, (chunk offset).length = expectedLength size offset ∧
      Holds d.file.content offset (chunk offset) := by
    intro offset ho
    obtain ⟨c, hcm, rfl⟩ := List.mem_map.mp (hperm.mem_iff.mpr ho)
    obtain ⟨bytes, ha, hlen, hholds⟩ := h.held c hcm
    obtain rfl := Except.ok.inj (ha.symm.trans (hc c hcm))
    exact ⟨hlen, hholds⟩
  have htake := take_of_holds _ (fun o ho => (hchunks o ho).1) (fun o ho => (hchunks o ho).2) le_rfl
  rw [Nat.min_eq_right (by simp only [maxChunkSize]; omega)] at htake
  rw [← List.take_append_drop size d.file.content, htake, h.rest]
  rfl

/-- A download asks for each chunk once, for no more at a time than there are workers. If it
succeeds, every chunk had its length and the file is made up of the chunks in order. -/
structure Reassembles (ε : Type) (file : List UInt8) (size workers : Nat) : Prop where
  requests : ∀ (cs : List (Completion ε)) (d : Download),
    Path (Download.Steps size) (.start ⟨file, 0⟩ size workers) cs d →
    d.requested.Nodup ∧ (∀ offset ∈ d.requested, ∃ k, offset = k * maxChunkSize ∧ offset < size) ∧
      d.pending.length ≤ workers
  complete : ∀ (cs : List (Completion ε)) (flushError : Option ε) (d : Download),
    downloadChunks ⟨file, 0⟩ size workers cs flushError = some (.ok d) →
    d.requested = chunkOffsets size ∧ (cs.map Completion.offset).Perm (chunkOffsets size) ∧
      ∀ c ∈ cs, ∃ bytes, c.answer = .ok bytes ∧ bytes.length = min (size - c.offset) maxChunkSize
  content : ∀ (cs : List (Completion ε)) (flushError : Option ε) (d : Download),
    downloadChunks ⟨file, 0⟩ size workers cs flushError = some (.ok d) →
    ∀ chunk : Nat → List UInt8, (∀ c ∈ cs, c.answer = .ok (chunk c.offset)) →
      d.file.content = ((chunkOffsets size).map chunk).flatten ++ file.drop size

/-- A download that succeeds has run through its loop. -/
theorem inFlight_of_downloadChunks {flushError : Option ε}
    (h : downloadChunks ⟨file, 0⟩ size workers cs flushError = some (.ok d)) :
    InFlight file size workers cs d ∧ 0 < workers ∧ d.pending = [] := by
  unfold downloadChunks validateDownload at h
  split at h
  next => simp at h
  next hv =>
    split at hv
    next => simp at hv
    next hw =>
      obtain ⟨hpath, hp⟩ := Download.path_of_loop h
      exact ⟨.of_path hpath, by omega, hp⟩

theorem download_reassembles (ε : Type) (file : List UInt8) (size workers : Nat) :
    Reassembles ε file size workers where
  requests := by
    intro cs d hpath
    have h := InFlight.of_path hpath
    have hall : (d.requested ++ d.offsets).Nodup := h.split ▸ chunkOffsets_nodup size
    refine ⟨(List.nodup_append.mp hall).1, fun offset ho => ?_, h.bound⟩
    exact mem_chunkOffsets.mp (h.split ▸ List.mem_append_left _ ho)
  complete := by
    intro cs flushError d hd
    obtain ⟨h, hw, hp⟩ := inFlight_of_downloadChunks hd
    obtain ⟨h1, h2⟩ := h.all hw hp
    refine ⟨h1, h2, fun c hc => ?_⟩
    obtain ⟨bytes, ha, hlen, _⟩ := h.held c hc
    exact ⟨bytes, ha, hlen⟩
  content := by
    intro cs flushError d hd chunk hc
    obtain ⟨h, hw, hp⟩ := inFlight_of_downloadChunks hd
    exact h.content hw hp hc

end Grammers.Files
