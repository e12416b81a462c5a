import Grammers.StoredPeers

namespace Grammers

namespace StoredPeers

open LabelledPath

variable {hash : PeerInfo → UInt64}

/-! The table. -/

theorem fingerprint_ne_zero (peer : PeerInfo) : fingerprint hash peer ≠ 0 := by
  intro h
  have hbit : (fingerprint hash peer).toNat.testBit 0 = true := by
    simp [fingerprint, UInt64.toNat_or]
  rw [h] at hbit
  cases hbit

theorem index_congr {p q : PeerInfo} (h : p.id = q.id) (len : Nat) : index p len = index q len := by
  rw [index, index, h]

/-- Tables are as long as a power of two, so that every index is inside. -/
def Slots.Sized (t : Slots) : Prop := t.slots = [] ∨ ∃ k, 8 ≤ k ∧ k ≤ 16 ∧ t.slots.length = 2 ^ k

theorem index_lt {k : Nat} (h : k ≤ 64) (peer : PeerInfo) : index peer (2 ^ k) < 2 ^ k := by
  have hlt := (UInt64.ofInt peer.id.dialogId * 0x9e3779b97f4a7c15).toNat_lt
  rw [index, Nat.log2_two_pow, Nat.shiftRight_eq_div_pow, Nat.div_lt_iff_lt_mul (Nat.two_pow_pos _),
    ← Nat.pow_add, Nat.add_sub_cancel' h]
  exact hlt

/-- The slot of the peer is set, or the table grows and forgets everything. -/
theorem remember_cases (t : Slots) (now : Nat) (peer : PeerInfo) :
    ∃ evictions forgetAt,
      (t.remember hash now peer = ⟨List.replicate (t.allocated.length * 2) 0, 0, forgetAt⟩ ∧
        t.allocated.length < maxSlots) ∨
      t.remember hash now peer =
        ⟨t.allocated.set (index peer t.allocated.length) (fingerprint hash peer), evictions,
          forgetAt⟩ := by
  unfold Slots.remember
  simp only [List.length_set]
  split
  next hgrow =>
    rw [Bool.and_eq_true, decide_eq_true_eq, decide_eq_true_eq] at hgrow
    exact ⟨0, _, Or.inl ⟨rfl, hgrow.2⟩⟩
  next => exact ⟨_, _, Or.inr rfl⟩

theorem Slots.Sized.remember {t : Slots} (h : t.Sized) (now : Nat) (peer : PeerInfo) :
    (t.remember hash now peer).Sized := by
  have hlen : ∃ k, 8 ≤ k ∧ k ≤ 16 ∧ t.allocated.length = 2 ^ k := by
    unfold Slots.allocated
    rcases h with hnil | ⟨k, hlo, hhi, hlen⟩
    · exact ⟨8, by omega, by omega, by rw [hnil, List.isEmpty_nil, if_pos rfl, List.length_replicate]; rfl⟩
    · have hne : t.slots.isEmpty = false := by
        rw [List.isEmpty_eq_false_iff, ← List.length_pos_iff, hlen]
        exact Nat.two_pow_pos k
      exact ⟨k, hlo, hhi, by rw [hne]; exact hlen⟩
  obtain ⟨k, hlo, hhi, hlen⟩ := hlen
  obtain ⟨evictions, forgetAt, ⟨heq, hlt⟩ | heq⟩ := @remember_cases hash t now peer
  · have hk : k < 16 := by
      rw [hlen] at hlt
      exact (Nat.pow_lt_pow_iff_right (by omega)).mp (hlt : 2 ^ k < 2 ^ 16)
    refine Or.inr ⟨k + 1, by omega, by omega, ?_⟩
    rw [heq, List.length_replicate, hlen, Nat.pow_succ]
  · refine Or.inr ⟨k, hlo, hhi, ?_⟩
    rw [heq, List.length_set, hlen]

theorem contains_of_zero {slots : List UInt64} {evictions : Nat} {forgetAt : Option Nat}
    (h : ∀ x ∈ slots, x = 0) (peer : PeerInfo) :
    (⟨slots, evictions, forgetAt⟩ : Slots).contains hash peer = false := by
  rw [Slots.contains, Bool.and_eq_false_iff]
  refine Or.inr (decide_eq_false fun hget => ?_)
  exact fingerprint_ne_zero peer (h _ (List.mem_of_getElem? hget))

theorem contains_forgetIfOld {t : Slots} {now : Nat} {peer : PeerInfo}
    (h : (t.forgetIfOld now).contains hash peer = true) : t.contains hash peer = true := by
  unfold Slots.forgetIfOld at h
  split at h
  · rw [contains_of_zero (by simp)] at h
    cases h
  · exact h

/-- Only what was remembered last is in the slot of its identifier. -/
theorem contains_remember {t : Slots} {now : Nat} {peer q : PeerInfo}
    (h : (t.remember hash now peer).contains hash q = true) :
    fingerprint hash q = fingerprint hash peer ∨ q.id ≠ peer.id ∧ t.contains hash q = true := by
  have hset : ∀ {slots : List UInt64} {evictions : Nat} {forgetAt : Option Nat},
      (⟨slots.set (index peer slots.length) (fingerprint hash peer), evictions, forgetAt⟩ :
        Slots).contains hash q = true →
      fingerprint hash q = fingerprint hash peer ∨
        q.id ≠ peer.id ∧ slots[index q slots.length]? = some (fingerprint hash q) := by
    intro slots evictions forgetAt hcontains
    rw [Slots.contains, Bool.and_eq_true, decide_eq_true_eq, List.length_set] at hcontains
    have hget := hcontains.2
    by_cases hindex : index peer slots.length = index q slots.length
    · rw [hindex, List.getElem?_set_self'] at hget
      cases hslot : slots[index q slots.length]? with
      | none => simp [hslot] at hget
      | some x => exact Or.inl (by simpa [hslot] using hget.symm)
    · rw [List.getElem?_set_ne hindex] at hget
      exact Or.inr ⟨fun hid => hindex (index_congr hid _).symm, hget⟩
  obtain ⟨evictions, forgetAt, ⟨heq, -⟩ | heq⟩ := @remember_cases hash t now peer
  · rw [heq, contains_of_zero fun x hx => List.eq_of_mem_replicate hx] at h
    cases h
  · rw [heq] at h
    rcases hset h with hsame | ⟨hid, hget⟩
    · exact Or.inl hsame
    · refine Or.inr ⟨hid, ?_⟩
      unfold Slots.allocated at hget
      by_cases hempty : t.slots.isEmpty = true
      · rw [if_pos hempty] at hget
        exact absurd (List.eq_of_mem_replicate (List.mem_of_getElem? hget)) (fingerprint_ne_zero q)
      · rw [if_neg hempty] at hget
        simp [Slots.contains, hempty, hget]

/-! What is stored. -/

/-- Merging a peer into what is stored of its identifier leaves that unchanged. -/
def Settled (stored : Stored) (peer : PeerInfo) : Prop :=
  merge stored peer peer.id = stored peer.id

theorem merge_of_ne {stored : Stored} {peer : PeerInfo} {id : PeerId} (h : id ≠ peer.id) :
    merge stored peer id = stored id := if_neg h

theorem foldl_merge_of_not_mem {stored : Stored} {peers : List PeerInfo} {id : PeerId}
    (h : ∀ q ∈ peers, q.id ≠ id) : peers.foldl merge stored id = stored id := by
  induction peers generalizing stored with
  | nil => rfl
  | cons q peers ih =>
    obtain ⟨hq, hpeers⟩ := List.forall_mem_cons.mp h
    rw [List.foldl_cons, ih hpeers, merge_of_ne hq.symm]

theorem settled_iff {stored : Stored} {peer : PeerInfo} :
    Settled stored peer ↔ ∃ info, stored peer.id = some info ∧ info.extendInfo peer = info := by
  unfold Settled merge
  rw [if_pos rfl]
  cases h : stored peer.id with
  | none => simp
  | some info => simp

theorem Settled.congr {stored stored' : Stored} {peer : PeerInfo} (h : Settled stored peer)
    (heq : stored' peer.id = stored peer.id) : Settled stored' peer := by
  rw [settled_iff] at h ⊢
  rwa [heq]

theorem or_again {α : Type} (a b : Option α) : a.or (a.or b) = a.or b := by
  cases a with
  | none => rfl
  | some v => rfl

theorem or_agrees {α : Type} {a b c : Option α} (h : a.or c = c) (hab : a.or (b.or a) = b.or a) :
    a.or (b.or c) = b.or c := by
  cases a with
  | none => rfl
  | some v =>
    cases b with
    | none => exact h
    | some w => exact hab

/-- What an info adds is not added again. -/
theorem extendInfo_again (info peer : PeerInfo) :
    (info.extendInfo peer).extendInfo peer = info.extendInfo peer := by
  cases info with
  | chat id => rfl
  | user id auth bot isSelf =>
    cases peer with
    | user id' auth' bot' isSelf' =>
      by_cases hid : id = id'
      · simp [PeerInfo.extendInfo, hid, or_again]
      · simp [PeerInfo.extendInfo, hid]
    | chat id' => rfl
    | channel id' auth' kind' => rfl
  | channel id auth kind =>
    cases peer with
    | channel id' auth' kind' =>
      by_cases hid : id = id'
      · simp [PeerInfo.extendInfo, hid, or_again]
      · simp [PeerInfo.extendInfo, hid]
    | user id' auth' bot' isSelf' => rfl
    | chat id' => rfl

/-- Another info of a peer takes nothing back that the first one says. -/
def Agrees (peer other : PeerInfo) : Prop :=
  (peer.extendInfo other).extendInfo peer = peer.extendInfo other

instance (peer other : PeerInfo) : Decidable (Agrees peer other) := inferInstanceAs (Decidable (_ = _))

theorem extendInfo_agrees {info peer other : PeerInfo} (h : info.extendInfo peer = info)
    (hagrees : Agrees peer other) :
    (info.extendInfo other).extendInfo peer = info.extendInfo other := by
  cases info with
  | chat id => rfl
  | user id auth bot isSelf =>
    cases other with
    | chat id'' => exact h
    | channel id'' auth'' kind'' => exact h
    | user id'' auth'' bot'' isSelf'' =>
      by_cases hother : id = id''
      · subst hother
        cases peer with
        | chat id' => simp [PeerInfo.extendInfo]
        | channel id' auth' kind' => simp [PeerInfo.extendInfo]
        | user id' auth' bot' isSelf' =>
          by_cases hid : id = id'
          · subst hid
            simp only [Agrees, PeerInfo.extendInfo, if_pos, PeerInfo.user.injEq, true_and] at h hagrees ⊢
            exact ⟨or_agrees h.1 hagrees.1, or_agrees h.2.1 hagrees.2.1, or_agrees h.2.2 hagrees.2.2⟩
          · simp [PeerInfo.extendInfo, hid]
      · simpa [PeerInfo.extendInfo, hother] using h
  | channel id auth kind =>
    cases other with
    | chat id'' => exact h
    | user id'' auth'' bot'' isSelf'' => exact h
    | channel id'' auth'' kind'' =>
      by_cases hother : id = id''
      · subst hother
        cases peer with
        | chat id' => simp [PeerInfo.extendInfo]
        | user id' auth' bot' isSelf' => simp [PeerInfo.extendInfo]
        | channel id' auth' kind' =>
          by_cases hid : id = id'
          · subst hid
            simp only [Agrees, PeerInfo.extendInfo, if_pos, PeerInfo.channel.injEq, true_and] at h hagrees ⊢
            exact ⟨or_agrees h.1 hagrees.1, or_agrees h.2 hagrees.2⟩
          · simp [PeerInfo.extendInfo, hid]
      · simpa [PeerInfo.extendInfo, hother] using h

/-- A write of a peer settles it. -/
theorem settled_merge (stored : Stored) (peer : PeerInfo) : Settled (merge stored peer) peer := by
  refine settled_iff.mpr ⟨_, if_pos rfl, ?_⟩
  exact extendInfo_again _ peer

/-- A write of an info that agrees leaves a peer settled. -/
theorem Settled.merge {stored : Stored} {peer other : PeerInfo} (h : Settled stored peer)
    (hagrees : other.id = peer.id → Agrees peer other) : Settled (merge stored other) peer := by
  by_cases hid : peer.id = other.id
  · obtain ⟨info, hinfo, hsame⟩ := settled_iff.mp h
    refine settled_iff.mpr ⟨info.extendInfo other, ?_, extendInfo_agrees hsame (hagrees hid.symm)⟩
    rw [StoredPeers.merge, if_pos hid, hinfo, Option.getD_some]
  · exact h.congr (merge_of_ne hid)

theorem Settled.foldl {stored : Stored} {peer : PeerInfo} {others : List PeerInfo}
    (h : Settled stored peer) (hagrees : ∀ q ∈ others, q.id = peer.id → Agrees peer q) :
    Settled (others.foldl StoredPeers.merge stored) peer := by
  induction others generalizing stored with
  | nil => exact h
  | cons q others ih =>
    obtain ⟨hq, hothers⟩ := List.forall_mem_cons.mp hagrees
    exact ih (h.merge hq) hothers

/-- A task's own write settles all it wrote, save what it wrote again later on. -/
theorem settled_write (stored : Stored) (before : List PeerInfo) (peer : PeerInfo)
    {after : List PeerInfo} (hafter : ∀ q ∈ after, q.id ≠ peer.id) :
    Settled ((before ++ peer :: after).foldl merge stored) peer := by
  rw [List.foldl_append, List.foldl_cons]
  exact (settled_merge _ peer).congr (foldl_merge_of_not_mem hafter)

/-! Tasks that have written and not yet remembered everything. -/

namespace Task

def todo : Task → List PeerInfo
  | remembering todo => todo
  | _ => []

def peers : Task → List PeerInfo
  | checking todo changed => todo ++ changed
  | writing changed => changed
  | remembering todo => todo

/-- No write of the task is in progress. -/
def Idle : Task → Prop
  | checking _ _ => True
  | writing _ => False
  | remembering todo => todo = []

end Task

instance : DecidablePred Task.Idle
  | .checking _ _ => inferInstanceAs (Decidable True)
  | .writing _ => inferInstanceAs (Decidable False)
  | .remembering todo => inferInstanceAs (Decidable (todo = []))

/-- Some task that wrote an identifier has yet to remember it. -/
def Pending (tasks : List Task) (id : PeerId) : Prop := ∃ t ∈ tasks, ∃ q ∈ t.todo, q.id = id

def State.Idle (s : State) : Prop := ∀ t ∈ s.tasks, t.Idle

instance (s : State) : Decidable s.Idle := inferInstanceAs (Decidable (∀ t ∈ s.tasks, t.Idle))

theorem State.Idle.not_pending {s : State} (h : s.Idle) (id : PeerId) : ¬Pending s.tasks id := by
  rintro ⟨t, ht, q, hq, -⟩
  have hidle := h t ht
  cases t with
  | checking => cases hq
  | writing => cases hq
  | remembering todo =>
    obtain rfl : todo = [] := hidle
    cases hq

section Tasks

variable {tasks : List Task} {i : Nat} {t t' : Task}

theorem pending_set {id : PeerId} (hget : tasks[i]? = some t) (h : Pending tasks id) :
    Pending (tasks.set i t') id ∨ ∃ q ∈ t.todo, q.id = id := by
  obtain ⟨u, hu, q, hq, hid⟩ := h
  obtain ⟨j, hj⟩ := List.mem_iff_getElem?.mp hu
  by_cases hij : i = j
  · subst hij
    obtain rfl : t = u := Option.some.inj (hget.symm.trans hj)
    exact Or.inr ⟨q, hq, hid⟩
  · refine Or.inl ⟨u, ?_, q, hq, hid⟩
    exact List.mem_of_getElem? ((List.getElem?_set_ne hij).trans hj)

theorem mem_set (hget : tasks[i]? = some t) : t' ∈ tasks.set i t' :=
  List.mem_set (List.getElem?_eq_some_iff.mp hget).1 t'

theorem pending_set_self {q : PeerInfo} (hget : tasks[i]? = some t) (hq : q ∈ t'.todo) :
    Pending (tasks.set i t') q.id := ⟨t', mem_set hget, q, hq, rfl⟩

end Tasks

/-! What has been written since. -/

/-- A write that was made, by a task or for the own user. -/
structure Write where
  task : Option Nat
  infos : List PeerInfo

/-- A state with the writes that led to it, the latest one first. -/
structure Watched where
  state : State
  log : List Write

/-- The write that an action makes. -/
def State.writes (s : State) : Action → List Write
  | .write task true =>
    match s.tasks[task]? with
    | some (.writing changed) => [⟨some task, changed⟩]
    | _ => []
  | .getMe info true => [⟨none, [info]⟩]
  | _ => []

def Watched.step (hash : PeerInfo → UInt64) (w : Watched) (a : Action) : Option Watched :=
  (StoredPeers.step hash w.state a).map fun s => ⟨s, w.state.writes a ++ w.log⟩

/-- What others have written since a task made its write. -/
def since (task : Nat) (log : List Write) : List PeerInfo :=
  (log.takeWhile fun write => write.task ≠ some task).flatMap Write.infos

/-- A task remembers a peer only if what others have written of it since its own write agrees with
it, and the own user is written only if that agrees with what the table has of it; either may also be
done while a task that wrote the identifier has yet to remember it. -/
def Orderly (hash : PeerInfo → UInt64) (peers : Set PeerInfo) (w : Watched) : Action → Prop
  | .remember task _ => ∀ peer todo, w.state.tasks[task]? = some (.remembering (peer :: todo)) →
      (∀ other ∈ since task w.log, other.id = peer.id → Agrees peer other) ∨
        Pending (w.state.tasks.set task (.remembering todo)) peer.id
  | .getMe info true => ∀ p ∈ peers, w.state.slots.contains hash p = true → p.id = info.id →
      Agrees p info ∨ Pending w.state.tasks p.id
  | _ => True

def Action.peers : Action → List PeerInfo
  | call _ peers => peers
  | _ => []

structure OrderlyStep (hash : PeerInfo → UInt64) (peers : Set PeerInfo) (w : Watched) (a : Action)
    (w' : Watched) : Prop where
  step : w.step hash a = some w'
  within : ∀ p ∈ a.peers, p ∈ peers
  orderly : Orderly hash peers w a

/-- What a task has yet to remember is in place, save what was written again since. -/
def Written (s : State) (log : List Write) : Prop :=
  ∀ (i : Nat) (todo : List PeerInfo), s.tasks[i]? = some (.remembering todo) →
    ∀ (before after : List PeerInfo) (peer : PeerInfo), todo = before ++ peer :: after →
      (∀ q ∈ after, q.id ≠ peer.id) →
      (∀ other ∈ since i log, other.id = peer.id → Agrees peer other) → Settled s.stored peer

theorem since_other {task : Nat} {write : Write} (h : write.task ≠ some task) (log : List Write) :
    since task (write :: log) = write.infos ++ since task log := by
  simp [since, h]

section Written

variable {s : State} {log : List Write} {i : Nat}

theorem Written.congr {s' : State} (h : Written s log) (hstored : s'.stored = s.stored)
    (htasks : ∀ (i : Nat) (todo : List PeerInfo), s'.tasks[i]? = some (.remembering todo) →
      ∃ before, s.tasks[i]? = some (.remembering (before ++ todo)) ∨ todo = []) : Written s' log := by
  intro i todo hget before after peer htodo hafter hagrees
  rw [hstored]
  obtain ⟨first, hold | hnil⟩ := htasks i todo hget
  · refine h i _ hold (first ++ before) after peer ?_ hafter hagrees
    rw [htodo, List.append_assoc]
  · simp [hnil] at htodo

/-- A write by anyone else keeps what a task has written in place, as far as it agrees. -/
theorem Written.merged (h : Written s log) {write : Write} (todo : List PeerInfo)
    (hget : s.tasks[i]? = some (.remembering todo)) (hother : write.task ≠ some i) :
    ∀ (before after : List PeerInfo) (peer : PeerInfo), todo = before ++ peer :: after →
      (∀ q ∈ after, q.id ≠ peer.id) →
      (∀ other ∈ since i (write :: log), other.id = peer.id → Agrees peer other) →
      Settled (write.infos.foldl merge s.stored) peer := by
  intro before after peer htodo hafter hagrees
  rw [since_other hother] at hagrees
  refine Settled.foldl ?_ fun q hq => hagrees q (List.mem_append_left _ hq)
  exact h i todo hget before after peer htodo hafter fun q hq => hagrees q (List.mem_append_right _ hq)

end Written

structure Tracked (hash : PeerInfo → UInt64) (peers : Set PeerInfo) (w : Watched) : Prop where
  within : ∀ t ∈ w.state.tasks, ∀ p ∈ t.peers, p ∈ peers
  written : Written w.state w.log
  settled : ∀ p ∈ peers, w.state.slots.contains hash p = true →
    Settled w.state.stored p ∨ Pending w.state.tasks p.id

theorem tracked_init (peers : Set PeerInfo) (stored : Stored) :
    Tracked hash peers ⟨init stored, []⟩ where
  within := nofun
  written := by
    intro i todo hget
    simp [init] at hget
  settled := fun p _ h => by cases h

theorem within_set {peers : Set PeerInfo} {tasks : List Task} {i : Nat} {t : Task}
    (h : ∀ u ∈ tasks, ∀ p ∈ u.peers, p ∈ peers) (ht : ∀ p ∈ t.peers, p ∈ peers) :
    ∀ u ∈ tasks.set i t, ∀ p ∈ u.peers, p ∈ peers := by
  intro u hu
  rcases List.mem_or_eq_of_mem_set hu with hu | rfl
  · exact h u hu
  · exact ht

/-- A task that goes on without writing. -/
theorem Written.set {s : State} {log : List Write} {i : Nat} {t t' : Task} (h : Written s log)
    (hget : s.tasks[i]? = some t) (ht' : ∀ todo, t' = .remembering todo →
      todo = [] ∨ ∃ before, t = .remembering (before ++ todo)) (slots : Slots) :
    Written { s with slots := slots, tasks := s.tasks.set i t' } log := by
  refine Written.congr h rfl fun j todo hj => ?_
  by_cases hij : i = j
  · subst hij
    rw [List.getElem?_set_self (List.getElem?_eq_some_iff.mp hget).1] at hj
    obtain hnil | ⟨before, rfl⟩ := ht' todo (Option.some.inj hj)
    · exact ⟨[], Or.inr hnil⟩
    · exact ⟨before, Or.inl hget⟩
  · rw [List.getElem?_set_ne hij] at hj
    exact ⟨[], Or.inl hj⟩

theorem Tracked.call {peers : Set PeerInfo} {w : Watched} {now : Nat} {new : List PeerInfo}
    (h : Tracked hash peers w) (hwithin : ∀ p ∈ new, p ∈ peers) :
    Tracked hash peers ⟨{ w.state with
      slots := w.state.slots.forgetIfOld now
      tasks := w.state.tasks ++ [.checking new []] }, w.log⟩ := by
  refine ⟨?_, ?_, fun p hp hcontains => ?_⟩
  · intro t ht
    rcases List.mem_append.mp ht with ht | ht
    · exact h.within t ht
    · obtain rfl := List.mem_singleton.mp ht
      intro p hp
      rcases List.mem_append.mp hp with hp | hp
      · exact hwithin p hp
      · cases hp
  · refine Written.congr h.written rfl fun i todo hget => ?_
    rw [List.getElem?_append] at hget
    split at hget
    next => exact ⟨[], Or.inl hget⟩
    next =>
      rw [List.getElem?_singleton] at hget
      split at hget
      next => cases hget
      next => cases hget
  · rcases h.settled p hp (contains_forgetIfOld hcontains) with hsettled | ⟨t, ht, hq⟩
    · exact Or.inl hsettled
    · exact Or.inr ⟨t, List.mem_append_left _ ht, hq⟩

theorem Tracked.check {peers : Set PeerInfo} {w : Watched} {i : Nat} {t t' : Task}
    (h : Tracked hash peers w) (hget : w.state.tasks[i]? = some t) (htodo : t.todo = [])
    (hpeers : ∀ p ∈ t'.peers, p ∈ t.peers) (ht' : t'.todo = []) :
    Tracked hash peers ⟨{ w.state with tasks := w.state.tasks.set i t' }, w.log⟩ := by
  have hmem := List.mem_of_getElem? hget
  refine ⟨within_set h.within fun p hp => h.within t hmem p (hpeers p hp), ?_, fun p hp hcontains => ?_⟩
  · refine Written.set h.written hget (fun todo htask => Or.inl ?_) w.state.slots
    rw [htask] at ht'
    exact ht'
  · refine (h.settled p hp hcontains).imp_right fun hpending => ?_
    rcases @pending_set _ _ _ t' _ hget hpending with hset | ⟨q, hq, -⟩
    · exact hset
    · rw [htodo] at hq
      cases hq

theorem Tracked.wrote {peers : Set PeerInfo} {w : Watched} {i : Nat} {changed : List PeerInfo}
    (h : Tracked hash peers w) (hget : w.state.tasks[i]? = some (.writing changed)) :
    Tracked hash peers ⟨{ w.state with
      stored := changed.foldl merge w.state.stored
      tasks := w.state.tasks.set i (.remembering changed) }, ⟨some i, changed⟩ :: w.log⟩ := by
  have hpeers := h.within _ (List.mem_of_getElem? hget)
  refine ⟨within_set h.within hpeers, ?_, fun p hp hcontains => ?_⟩
  · intro j todo hj before after peer htodo hafter hagrees
    by_cases hij : i = j
    · subst hij
      rw [List.getElem?_set_self (List.getElem?_eq_some_iff.mp hget).1] at hj
      obtain rfl := Task.remembering.inj (Option.some.inj hj)
      subst htodo
      exact settled_write w.state.stored before peer hafter
    · have hother : some i ≠ some j := fun heq => hij (Option.some.inj heq)
      rw [List.getElem?_set_ne hij] at hj
      exact Written.merged h.written todo hj hother before after peer htodo hafter hagrees
  · by_cases hmem : ∃ q ∈ changed, q.id = p.id
    · obtain ⟨q, hq, hid⟩ := hmem
      exact Or.inr (hid ▸ @pending_set_self _ _ _ (.remembering changed) _ hget hq)
    · have hsame := @foldl_merge_of_not_mem w.state.stored changed p.id
        fun q hq hid => hmem ⟨q, hq, hid⟩
      refine (h.settled p hp hcontains).imp (fun hsettled => hsettled.congr hsame) fun hpending => ?_
      rcases @pending_set _ _ _ (.remembering changed) _ hget hpending with hset | ⟨q, hq, -⟩
      · exact hset
      · cases hq

theorem Tracked.remember {peers : Set PeerInfo} (hdistinct : Set.InjOn (fingerprint hash) peers)
    {w : Watched} {i now : Nat} {peer : PeerInfo} {todo : List PeerInfo} (h : Tracked hash peers w)
    (hget : w.state.tasks[i]? = some (.remembering (peer :: todo)))
    (horderly : (∀ other ∈ since i w.log, other.id = peer.id → Agrees peer other) ∨
      Pending (w.state.tasks.set i (.remembering todo)) peer.id) :
    Tracked hash peers ⟨{ w.state with
      slots := w.state.slots.remember hash now peer
      tasks := w.state.tasks.set i (.remembering todo) }, w.log⟩ := by
  have hpeers := h.within _ (List.mem_of_getElem? hget)
  have hpeer : peer ∈ peers := hpeers peer List.mem_cons_self
  refine ⟨within_set h.within fun p hp => hpeers p (List.mem_cons_of_mem _ hp), ?_,
    fun p hp hcontains => ?_⟩
  · refine Written.set h.written hget (fun todo' htask => Or.inr ⟨[peer], ?_⟩) _
    rw [Task.remembering.inj htask]
    rfl
  · rcases contains_remember hcontains with hsame | ⟨hid, hold⟩
    · obtain rfl := hdistinct hp hpeer hsame
      rcases horderly with hagrees | hpending
      · -- what comes later in the same write is remembered later as well
        by_cases hlater : ∃ q ∈ todo, q.id = p.id
        · obtain ⟨q, hq, hqid⟩ := hlater
          exact Or.inr (hqid ▸ @pending_set_self _ _ _ (.remembering todo) _ hget hq)
        · exact Or.inl (h.written i _ hget [] todo p rfl (fun q hq hid => hlater ⟨q, hq, hid⟩) hagrees)
      · exact Or.inr hpending
    · refine (h.settled p hp hold).imp_right fun hpending => ?_
      rcases @pending_set _ _ _ (.remembering todo) _ hget hpending with hset | ⟨q, hq, hqid⟩
      · exact hset
      · rcases List.mem_cons.mp hq with rfl | hq
        · exact absurd hqid.symm hid
        · exact hqid ▸ @pending_set_self _ _ _ (.remembering todo) _ hget hq

theorem Tracked.getMe {peers : Set PeerInfo} {w : Watched} {info : PeerInfo}
    (h : Tracked hash peers w) (horderly : ∀ p ∈ peers, w.state.slots.contains hash p = true →
      p.id = info.id → Agrees p info ∨ Pending w.state.tasks p.id) :
    Tracked hash peers ⟨{ w.state with stored := merge w.state.stored info },
      ⟨none, [info]⟩ :: w.log⟩ := by
  refine ⟨h.within, ?_, fun p hp hcontains => ?_⟩
  · intro i todo hget
    have hother : (⟨none, [info]⟩ : Write).task ≠ some i := nofun
    exact Written.merged h.written todo hget hother
  · rcases h.settled p hp hcontains with hsettled | hpending
    · by_cases hid : p.id = info.id
      · rcases horderly p hp hcontains hid with hagrees | hpending
        · exact Or.inl (hsettled.merge fun _ => hagrees)
        · exact Or.inr hpending
      · exact Or.inl (hsettled.congr (merge_of_ne hid))
    · exact Or.inr hpending

theorem Tracked.step {peers : Set PeerInfo} (hdistinct : Set.InjOn (fingerprint hash) peers)
    {w w' : Watched} {a : Action} (h : Tracked hash peers w) (hstep : OrderlyStep hash peers w a w') :
    Tracked hash peers w' := by
  obtain ⟨heq, hwithin, horderly⟩ := hstep
  obtain ⟨s', hs', rfl⟩ := Option.map_eq_some_iff.mp heq
  cases a with
  | call now new =>
    cases hs'
    exact h.call hwithin
  | check i =>
    simp only [StoredPeers.step] at hs'
    split at hs'
    next peer todo changed hget =>
      cases hs'
      refine h.check hget rfl (fun p hp => ?_) rfl
      split at hp <;> simp [Task.peers] at hp ⊢ <;> tauto
    next changed hget =>
      cases hs'
      refine h.check hget rfl (fun p hp => ?_) ?_
      · split at hp
        · cases hp
        · exact hp
      · split <;> rfl
    next => cases hs'
  | write i ok =>
    simp only [StoredPeers.step] at hs'
    split at hs'
    next changed hget =>
      cases ok with
      | true =>
        cases hs'
        simp only [State.writes, hget]
        exact h.wrote hget
      | false =>
        cases hs'
        exact h.check hget rfl nofun rfl
    next => cases hs'
  | remember i now =>
    simp only [StoredPeers.step] at hs'
    split at hs'
    next peer todo hget =>
      cases hs'
      exact h.remember hdistinct hget (horderly peer todo hget)
    next => cases hs'
  | getMe info ok =>
    cases ok with
    | true =>
      cases hs'
      exact h.getMe horderly
    | false =>
      cases hs'
      exact h

instance (stored : Stored) (peer : PeerInfo) : Decidable (Settled stored peer) :=
  inferInstanceAs (Decidable (_ = _))

/-- A user as two replies show it, with two access hashes. -/
def shown (auth : Int) : PeerInfo := .user 7 (some auth) (some false) none

def authHash : PeerInfo → UInt64
  | .user _ (some auth) _ _ => UInt64.ofInt (2 * auth)
  | _ => 0

theorem authHash_distinct : Set.InjOn (fingerprint authHash) {shown 1, shown 2} := by
  intro p hp q hq hsame
  rcases hp with rfl | rfl <;> rcases hq with rfl | rfl
  · rfl
  · exact absurd hsame (by decide +kernel)
  · exact absurd hsame (by decide +kernel)
  · rfl

/-- The own user, who gains a flag. -/
def me : PeerInfo := .user 7 (some 2) (some false) (some true)

/-- Two tasks that write and remember in the same order, and then the own user. -/
def overlapping : List Action :=
  [.call 0 [shown 1], .check 0, .check 0, .call 0 [shown 2], .check 1, .check 1, .write 0 true,
    .write 1 true, .remember 0 0, .remember 1 0, .getMe me true]

/-- Two tasks with different infos of one user, where the one that wrote first remembers last. -/
def overtaken : List Action :=
  [.call 0 [shown 1], .check 0, .check 0, .call 0 [shown 2], .check 1, .check 1, .write 0 true,
    .write 1 true, .remember 1 0, .remember 0 0]

end StoredPeers

end Grammers
