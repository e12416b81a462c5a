import Grammers.BoxReach

namespace Grammers

open StableSort Reassembly LabelledPath

/-- Whether a delivered update is one of a message box. -/
def names (k : Key) (delivered : Update × State) : Bool :=
  delivered.2.messageBox.any fun messageBox => decide (messageBox.key = k)

/-- A delivered update of a key that starts at one position and ends at the other. -/
def Follows (k : Key) (p : Int) (delivered : Update × State) (q : Int) : Prop :=
  ∃ info, PtsInfo.fromUpdate delivered.1 = some info ∧ info.key = k ∧
    delivered.2.messageBox = some info.toMessageBox ∧
    info.pts.toInt = p + info.count.toInt ∧ q = info.pts.toInt

/-- Deliveries of a key that lead from the position of its entry to the position
after them; without an entry they lead on from where the first of them starts. -/
structure Continued (k : Key) (before after : Option LiveEntry) (delivered : List (Update × State)) :
    Prop where
  known : ∀ e, before = some e → ∃ e', after = some e' ∧
    Path (Follows k) e.pts.toInt delivered e'.pts.toInt
  unknown : before = none → after = none ∧ delivered = [] ∨
    ∃ e' p, after = some e' ∧ Path (Follows k) p delivered e'.pts.toInt

namespace Continued

variable {k : Key} {before mid after : Option LiveEntry} {ds ds' : List (Update × State)}

theorem still (h : ∀ e, before = some e → ∃ e', after = some e' ∧ e'.pts = e.pts) :
    Continued k before after [] := by
  refine ⟨?_, ?_⟩
  · intro e he
    obtain ⟨e', he', hp⟩ := h e he
    exact ⟨e', he', hp ▸ Path.nil⟩
  · intro _
    cases after with
    | none => exact Or.inl ⟨rfl, rfl⟩
    | some e' => exact Or.inr ⟨e', e'.pts.toInt, rfl, Path.nil⟩

theorem refl (k : Key) (before : Option LiveEntry) : Continued k before before [] :=
  still fun e he => ⟨e, he, rfl⟩

theorem trans (h : Continued k before mid ds) (h' : Continued k mid after ds') :
    Continued k before after (ds ++ ds') := by
  refine ⟨?_, ?_⟩
  · intro e he
    obtain ⟨e1, he1, hp1⟩ := h.known e he
    obtain ⟨e2, he2, hp2⟩ := h'.known e1 he1
    exact ⟨e2, he2, hp1.append hp2⟩
  · intro hn
    rcases h.unknown hn with ⟨hmid, rfl⟩ | ⟨e1, p, he1, hp1⟩
    · exact h'.unknown hmid
    · obtain ⟨e2, he2, hp2⟩ := h'.known e1 he1
      exact Or.inr ⟨e2, p, he2, hp1.append hp2⟩

end Continued

variable {b : Batch} {p p' : Processing} {u : Update} {us : List Update} {s s' : MessageBoxes}
  {k : Key} {result : List (Update × State)} {now : Instant}

theorem names_deliver (hu : Storable k u) (b : Batch) (k' : Key) :
    names k' (b.deliver u) = decide (k = k') := by
  obtain ⟨info, hf, hk⟩ := hu.known
  simp [names, Batch.deliver, Batch.mkState, hf, hk]

theorem filter_names_delivered {ds : List Update} (hs : ∀ u ∈ ds, Storable k u) (b : Batch)
    (k' : Key) : (ds.map b.deliver).filter (names k') = if k = k' then ds.map b.deliver else [] := by
  split
  next hk =>
    refine List.filter_eq_self.mpr fun d hd => ?_
    obtain ⟨u, hu, rfl⟩ := List.mem_map.mp hd
    rw [names_deliver (hs u hu)]
    exact decide_eq_true hk
  next hk =>
    refine List.filter_eq_nil_iff.mpr fun d hd => ?_
    obtain ⟨u, hu, rfl⟩ := List.mem_map.mp hd
    rw [names_deliver (hs u hu)]
    simpa using hk

/-- What an entry delivers are updates of its key that follow each other. -/
theorem follows_of_chain {ds : List Update} {x y : Int} (hs : ∀ u ∈ ds, Storable k u) (b : Batch)
    (h : Chain updateSortKey updateEnd x ds y) : Path (Follows k) x (ds.map b.deliver) y := by
  induction h with
  | nil => exact Path.nil
  | @cons x y z u ds hl _ ih =>
    obtain ⟨info, hf, hk, hstart, hend⟩ := (hs u (by simp)).ptsInfo
    refine Path.cons ⟨info, hf, hk, by simp [Batch.deliver, Batch.mkState, hf], ?_, ?_⟩
      (ih fun v hv => hs v (by simp [hv]))
    · have := hl.1
      rw [hstart, PtsInfo.start] at this
      omega
    · exact hl.2.symm.trans hend

/-- What one update of a socket batch delivers of each key continues its position. -/
theorem Processed.continued (hp : Processed b p u p') (h : p.boxes.Inv) (hf : b.force = [])
    (k : Key) : ∃ more, p'.result = p.result ++ more ∧
      Continued k (p.boxes.entry k) (p'.boxes.entry k) (more.filter (names k)) := by
  cases hp with
  | tooLongPending => exact ⟨[], by simp, .refl k _⟩
  | @tooLong c pts =>
    refine ⟨[], by simp, .still fun e he => ?_⟩
    have h1 := h.admitTooLong (.channel c) pts (nextUpdatesDeadline b.now)
    have he1 := MessageBoxes.entry_admitTooLong h.sorted he (.channel c) pts (nextUpdatesDeadline b.now)
    simp only [MessageBoxes.entry_tryBeginGetDiff h1]
    split
    next hk =>
      subst hk
      rw [he1, Option.map_some]
      refine ⟨_, rfl, ?_⟩
      split <;> rfl
    next => exact ⟨e, he1, rfl⟩
  | unordered => exact ⟨_, rfl, .refl k _⟩
  | forced hu hfrom hk => simp [hf] at hk
  | @postponed u info =>
    obtain ⟨_, _, he⟩ := MessageBoxes.postpone_eq h info.key u
    refine ⟨[], by simp, ?_⟩
    rw [he]
    exact .refl k _
  | preLogin => exact ⟨_, rfl, .refl k _⟩
  | @applied u info pts hu hfrom hk hnot hc hpts =>
    refine ⟨_, rfl, ?_⟩
    obtain ⟨hok, hkey⟩ := target_ok h b info
    have hst : ∀ v ∈ ((p.target b info).accept u).2, Storable info.key v :=
      hkey ▸ accept_delivered_storable (hkey ▸ hu) hok.storable
    have hkey' : ((p.target b info).after b u pts).key = info.key := hkey
    have hentry := MessageBoxes.entry_setEntry_of_key h.sorted ((p.target b info).after b u pts) hkey' k
    rw [filter_names_delivered hst]
    by_cases hsame : info.key = k
    · subst hsame
      rw [if_pos rfl] at hentry ⊢
      have hpath : Path (Follows info.key) (p.target b info).pts.toInt
          (((p.target b info).accept u).2.map b.deliver) pts.toInt := by
        rw [hpts]
        exact follows_of_chain hst b (accept_chain _ u)
      refine ⟨?_, fun _ => Or.inr ⟨_, _, hentry, hpath⟩⟩
      intro e he
      have htarget : p.target b info = e := by simp [Processing.target, he]
      exact ⟨_, hentry, htarget ▸ hpath⟩
    · rw [if_neg hsame]
      rw [if_neg (Ne.symm hsame)] at hentry
      exact .still fun e he => ⟨e, hentry.trans he, rfl⟩

theorem Processed.path_continued (hp : Path (Processed b) p us p') (h : p.boxes.Inv)
    (ha : p.boxes.Account) (hf : b.force = []) (k : Key) :
    ∃ more, p'.result = p.result ++ more ∧
      Continued k (p.boxes.entry k) (p'.boxes.entry k) (more.filter (names k)) := by
  induction hp with
  | nil => exact ⟨[], by simp, .refl k _⟩
  | @cons p p1 p2 u us hstep _ ih =>
    obtain ⟨hi, hacc⟩ := hstep.inv h ha
    obtain ⟨more1, hr1, hc1⟩ := hstep.continued h hf k
    obtain ⟨more2, hr2, hc2⟩ := ih hi hacc
    refine ⟨more1 ++ more2, by rw [hr2, hr1, List.append_assoc], ?_⟩
    rw [List.filter_append]
    exact hc1.trans hc2

theorem Batched.continued (hb : Batched b s us s' result) (h : s.Inv) (ha : s.Account)
    (hf : b.force = []) (k : Key) :
    Continued k (s.entry k) (s'.entry k) (result.filter (names k)) := by
  obtain ⟨p, hp, rfl, hs⟩ := hb
  obtain ⟨more, hr, hc⟩ := Processed.path_continued hp h ha hf k
  rw [hr, List.nil_append]
  rcases hs with rfl | rfl
  · exact hc
  · exact hc

/-- The calls that deliver updates which came over the socket. -/
inductive SocketCall
  | processUpdates (updates : UpdatesLike)
  | takeReleasedUpdates

/-- The state a call leaves and the updates it returns; a reported gap returns none. -/
def SocketCall.exec (call : SocketCall) (s : MessageBoxes) (now : Instant) :
    Except Panic (MessageBoxes × List (Update × State)) :=
  match call with
  | .processUpdates updates =>
    match s.processUpdates updates now with
    | .ok (s, result) => .ok (s, result.updates)
    | .error (.gap s) => .ok (s, [])
    | .error (.panic reason) => .error reason
  | .takeReleasedUpdates =>
    match s.takeReleasedUpdates now with
    | .ok (s, result) => .ok (s, (result.map UpdateAndPeers.updates).getD [])
    | .error (.gap s) => .ok (s, [])
    | .error (.panic reason) => .error reason

/-- A run of such calls, each at its own instant, and all they return. -/
def runSocket (s : MessageBoxes) :
    List (Instant × SocketCall) → Except Panic (MessageBoxes × List (Update × State))
  | [] => .ok (s, [])
  | (now, call) :: calls => do
    let (s, delivered) ← call.exec s now
    let (s, rest) ← runSocket s calls
    return (s, delivered ++ rest)

theorem SocketCall.exec_continued (h : s.Good) (call : SocketCall) (now : Instant) :
    ∃ s' delivered, call.exec s now = .ok (s', delivered) ∧ s'.Good ∧
      ∀ k, Continued k (s.entry k) (s'.entry k) (delivered.filter (names k)) := by
  cases call with
  | processUpdates updates =>
    have hh := processUpdatesInner_handled h.toInv h.account updates [] now
    simp only [SocketCall.exec, MessageBoxes.processUpdates]
    generalize s.processUpdatesInner updates [] now = r at hh
    cases hh with
    | rejected =>
      refine ⟨_, [], rfl, h.tryBeginGetDiff .common now, fun k => .still fun e he => ?_⟩
      rw [MessageBoxes.entry_tryBeginGetDiff h.toInv]
      split
      next hk =>
        rw [← hk, he, Option.map_some]
        refine ⟨_, rfl, ?_⟩
        split <;> rfl
      next => exact ⟨e, he, rfl⟩
    | skipped => exact ⟨s, [], rfl, h, fun k => .refl k _⟩
    | processed _ _ _ hforce _ _ hb =>
      obtain ⟨hi, ha⟩ := hb.inv h.toInv h.account
      exact ⟨_, _, rfl, ⟨hi, ha⟩, hb.continued h.toInv h.account hforce⟩
  | takeReleasedUpdates =>
    simp only [SocketCall.exec]
    cases hr : s.heldReleaseReady with
    | false =>
      refine ⟨s, [], ?_, h, fun k => .refl k _⟩
      simp [MessageBoxes.takeReleasedUpdates, hr]
    | true =>
      have hg := h.released
      rcases MessageBoxes.takeReleasedUpdates_eq h hr now with ⟨_, hrun⟩ | ⟨s', result, hrun, hb⟩
      · exact ⟨s.released, [], by rw [hrun]; rfl, hg, fun k => .refl k _⟩
      · obtain ⟨hi, ha⟩ := hb.inv hg.toInv hg.account
        exact ⟨s', result, by rw [hrun]; rfl, ⟨hi, ha⟩, hb.continued hg.toInv hg.account rfl⟩

theorem runSocket_continued (h : s.Good) (calls : List (Instant × SocketCall)) :
    ∃ s' delivered, runSocket s calls = .ok (s', delivered) ∧
      ∀ k, Continued k (s.entry k) (s'.entry k) (delivered.filter (names k)) := by
  induction calls generalizing s with
  | nil => exact ⟨s, [], rfl, fun k => .refl k _⟩
  | cons timed calls ih =>
    obtain ⟨now, call⟩ := timed
    obtain ⟨s1, delivered, hr1, h1, hc1⟩ := call.exec_continued h now
    obtain ⟨s2, rest, hr2, hc2⟩ := ih h1
    refine ⟨s2, delivered ++ rest, ?_, fun k => ?_⟩
    · simp [runSocket, hr1, hr2, bind, Except.bind, pure, Except.pure]
    · rw [List.filter_append]
      exact (hc1 k).trans (hc2 k)

/-- Socket updates and what is released of them are delivered without a gap: for every
key the deliveries of a run lead from the position of its entry, each from the end of
the one before, to the position that the entry has after the run. -/
theorem socket_delivery_contiguous {s : MessageBoxes} (h : Reachable s)
    (calls : List (Instant × SocketCall)) :
    ∃ s' delivered, runSocket s calls = .ok (s', delivered) ∧
      ∀ k, Continued k (s.entry k) (s'.entry k) (delivered.filter (names k)) :=
  runSocket_continued h.good calls

/-- Two deletions of an account after login, the second one first and twice. -/
theorem socket_delivery_contiguous_reordered :
    let s := (MessageBoxes.new 0).setState ⟨5, 0, 1, 1⟩ 0
    let batch (pts : Int32) : SocketCall := .processUpdates (.affectedMessages ⟨pts, 1⟩)
    ∃ s' delivered, runSocket s [(0, batch 7), (1, batch 7), (2, batch 6)] = .ok (s', delivered) ∧
      delivered.map (fun d => d.2.messageBox) = [some (.common 6), some (.common 7)] ∧
      ∃ e', s'.entry .common = some e' ∧
        Path (Follows .common) 5 (delivered.filter (names .common)) e'.pts.toInt := by
  intro s batch
  obtain ⟨s', delivered, hr, hc⟩ := socket_delivery_contiguous (reachable_setState ⟨5, 0, 1, 1⟩ 0)
    [(0, batch 7), (1, batch 7), (2, batch 6)]
  have hd : (runSocket s [(0, batch 7), (1, batch 7), (2, batch 6)]).map
      (fun run => run.2.map fun d => d.2.messageBox) = .ok [some (.common 6), some (.common 7)] := by
    decide
  have he : s.entry .common = some (.fresh .common 5 (nextUpdatesDeadline 0)) := by decide
  rw [hr] at hd
  exact ⟨s', delivered, hr, Except.ok.inj hd, (hc .common).known _ he⟩

end Grammers
