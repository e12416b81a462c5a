import Grammers.RequestLedger

namespace Grammers

namespace Ledger

/-- Only requests that were enqueued are serialized. -/
def Numbered (l : Ledger) : Prop := ∀ p ∈ l.book.pushes, p.1 < l.enqueued

theorem Numbered.step {l l' : Ledger} (h : Numbered l) (hs : Step l l') (ho : Owned l) :
    Numbered l' := by
  cases hs with
  | enqueue => exact fun p hp => Nat.lt_succ_of_lt (h p hp)
  | skip => exact fun p hp => Nat.lt_succ_of_lt (h p hp)
  | refuse => exact fun p hp => Nat.lt_succ_of_lt (h p hp)
  | @push rs b n r msgId hstate hid =>
    intro p hp
    simp only [Book.pushes_pushed, List.mem_append, List.mem_singleton] at hp
    rcases hp with hp | rfl
    · exact h p hp
    · exact ho.lt r.tag (List.mem_append_left _ (List.mem_map_of_mem List.mem_cons_self))
  | flush => simpa only [Numbered, Book.pushes_flushed] using h
  | reject => simpa only [Numbered, Book.pushes_rejected] using h
  | _ => exact h

theorem mem_pushes_of_current {b : Book} {p : Nat × MsgId} (h : p ∈ b.current.carried) :
    p ∈ b.pushes :=
  List.mem_append_right _ h

theorem mem_pushes_of_sent {b : Book} {q : Packet} {p : Nat × MsgId} (hq : q ∈ b.sent)
    (h : p ∈ q.carried) : p ∈ b.pushes :=
  List.mem_append_left _ (List.mem_flatMap.mpr ⟨q, hq, h⟩)

/-- The packet in the buffer carries the requests that are serialized, and no other that is held. -/
structure InPacket (l : Ledger) : Prop where
  serialized : ∀ r ∈ l.requests, ∀ pair, r.state = .serialized pair →
    (r.tag, pair.msgId) ∈ l.book.current.carried ∧
      ∀ id, l.book.current.id = some id → pair.containerMsgId = id
  carried : ∀ r ∈ l.requests, ∀ id, (r.tag, id) ∈ l.book.current.carried →
    ∃ pair, r.state = .serialized pair ∧ pair.msgId = id

theorem InPacket.of_subset {rs rs' : List Request} {b b' : Book} {n n' : Nat}
    (h : InPacket ⟨rs, b, n⟩) (hsub : ∀ r ∈ rs', r ∈ rs)
    (hcarried : b'.current.carried = b.current.carried) (hid : b'.current.id = b.current.id) :
    InPacket ⟨rs', b', n'⟩ := by
  refine ⟨?_, ?_⟩
  · intro r hr pair hpair
    simpa only [hcarried, hid] using h.serialized r (hsub r hr) pair hpair
  · intro r hr id hmem
    exact h.carried r (hsub r hr) id (by simpa only [hcarried] using hmem)

theorem setContainer_serialized {id : MsgId} {r : Request} {pair : MsgIdPair}
    (h : (Sender.setContainer id r).state = .serialized pair) :
    ∃ old, r.state = .serialized old ∧ pair = { old with containerMsgId := id } := by
  unfold Sender.setContainer at h
  split at h
  next old hold => exact ⟨old, hold, by cases h; rfl⟩
  next hn => exact absurd h (hn pair)

theorem setContainer_of_serialized {id : MsgId} {r : Request} {pair : MsgIdPair}
    (h : r.state = .serialized pair) :
    (Sender.setContainer id r).state = .serialized { pair with containerMsgId := id } := by
  unfold Sender.setContainer
  rw [h]

theorem setContainer_of_sent {id : MsgId} {r : Request} {pair : MsgIdPair}
    (h : r.state = .sent pair) : Sender.setContainer id r = r := by
  unfold Sender.setContainer
  rw [h]

theorem markSent_state (r : Request) :
    (Sender.markSent r).state = match r.state with
      | .serialized pair => .sent pair
      | state => state := by
  cases h : r.state <;> simp [Sender.markSent, h]

theorem markSent_ne_serialized (r : Request) (pair : MsgIdPair) :
    (Sender.markSent r).state ≠ .serialized pair := by
  rw [markSent_state]
  split
  next => exact nofun
  next hn => exact hn pair

theorem InPacket.step {l l' : Ledger} (h : InPacket l) (hs : Step l l') (ho : Owned l)
    (hn : Numbered l) : InPacket l' := by
  cases hs with
  | perm hp => exact h.of_subset (fun r hr => hp.mem_iff.mpr hr) rfl rfl
  | @enqueue rs b n r htag hr hretries hstate =>
    refine ⟨?_, ?_⟩
    · intro r' hr' pair hpair
      rcases List.mem_cons.mp hr' with rfl | hr'
      · rw [hstate] at hpair
        cases hpair
      · exact h.serialized r' hr' pair hpair
    · intro r' hr' id hmem
      rcases List.mem_cons.mp hr' with rfl | hr'
      · have := hn _ (mem_pushes_of_current hmem)
        simp only [htag, Nat.lt_irrefl] at this
      · exact h.carried r' hr' id hmem
  | skip => exact h.of_subset (fun _ hr => hr) rfl rfl
  | refuse => exact h.of_subset (fun _ hr => hr) rfl rfl
  | drop => exact h.of_subset (fun _ hr => List.mem_cons_of_mem _ hr) rfl rfl
  | complete => exact h.of_subset (fun _ hr => List.mem_cons_of_mem _ hr) rfl rfl
  | @push rs b n r msgId hstate hid =>
    refine ⟨?_, ?_⟩
    · intro r' hr' pair hpair
      rcases List.mem_cons.mp hr' with rfl | hr'
      · cases hpair
        refine ⟨by simp [Book.note, MsgIdPair.new], ?_⟩
        intro id heq
        simp only [Book.note, hid] at heq
        cases heq
      · obtain ⟨hmem, hcontainer⟩ := h.serialized r' (List.mem_cons_of_mem _ hr') pair hpair
        exact ⟨List.mem_append_left _ hmem, hcontainer⟩
    · intro r' hr' id hmem
      simp only [Book.note, List.mem_append, List.mem_singleton, Prod.mk.injEq] at hmem
      rcases List.mem_cons.mp hr' with rfl | hr'
      · rcases hmem with hmem | ⟨-, rfl⟩
        · obtain ⟨pair, hpair, -⟩ := h.carried r List.mem_cons_self id hmem
          rw [hstate] at hpair
          cases hpair
        · exact ⟨.new id, rfl, rfl⟩
      · rcases hmem with hmem | ⟨htag, -⟩
        · exact h.carried r' (List.mem_cons_of_mem _ hr') id hmem
        · exact absurd htag (ho.ne_tag hr')
  | finalize id =>
    refine ⟨?_, ?_⟩
    · intro r' hr' pair hpair
      obtain ⟨r, hr, rfl⟩ := List.mem_map.mp hr'
      obtain ⟨old, hold, rfl⟩ := setContainer_serialized hpair
      refine ⟨by rw [tag_setContainer]; exact (h.serialized r hr old hold).1, ?_⟩
      intro id' heq
      simp only [Book.note, Option.some.injEq] at heq
      exact heq
    · intro r' hr' id' hmem
      obtain ⟨r, hr, rfl⟩ := List.mem_map.mp hr'
      rw [tag_setContainer] at hmem
      obtain ⟨pair, hpair, hid⟩ := h.carried r hr id' hmem
      exact ⟨_, setContainer_of_serialized hpair, hid⟩
  | write => exact h.of_subset (fun _ hr => hr) rfl rfl
  | flush hid =>
    refine ⟨?_, ?_⟩
    · intro r' hr' pair hpair
      obtain ⟨r, hr, rfl⟩ := List.mem_map.mp hr'
      exact absurd hpair (markSent_ne_serialized r pair)
    · intro r' hr' id hmem
      simp only [Book.note, Packet.empty, List.not_mem_nil] at hmem
  | reject => exact h.of_subset (fun _ hr => hr) rfl rfl
  | @retry rs b n r pair id hstate hnames hnotice hretries =>
    refine ⟨?_, ?_⟩
    · intro r' hr' pair' hpair
      rcases List.mem_cons.mp hr' with rfl | hr'
      · cases hpair
      · exact h.serialized r' (List.mem_cons_of_mem _ hr') pair' hpair
    · intro r' hr' id' hmem
      rcases List.mem_cons.mp hr' with rfl | hr'
      · obtain ⟨pair', hpair, -⟩ := h.carried r List.mem_cons_self id' hmem
        rw [hstate] at hpair
        cases hpair
      · exact h.carried r' (List.mem_cons_of_mem _ hr') id' hmem

/-- A request is serialized once more than it was retried, unless it waits to be; the identifier it
is known by is the last it was given. -/
structure CountedIn (b : Book) (r : Request) : Prop where
  attempts : b.attempts r.tag = r.protocolRetries + if r.state = .notSerialized then 0 else 1
  retries : r.protocolRetries ≤ 3
  latest : ∀ pair, r.state.pair = some pair → b.latest r.tag = some pair.msgId

theorem CountedIn.congr {b b' : Book} {r r' : Request} (h : CountedIn b r)
    (hpushes : b'.pushesOf r.tag = b.pushesOf r.tag) (htag : r'.tag = r.tag)
    (hretries : r'.protocolRetries = r.protocolRetries)
    (hpair : r'.state.pair.map MsgIdPair.msgId = r.state.pair.map MsgIdPair.msgId) :
    CountedIn b' r' := by
  have hnot : (r'.state = .notSerialized) ↔ (r.state = .notSerialized) := by
    cases h1 : r.state <;> cases h2 : r'.state <;> simp_all [RequestState.pair]
  refine ⟨?_, by rw [hretries]; exact h.retries, ?_⟩
  · have := h.attempts
    simp only [Book.attempts] at this ⊢
    rw [htag, hpushes, this, hretries]
    simp only [hnot]
  · intro pair hp
    rw [hp] at hpair
    cases hold : r.state.pair with
    | none => simp [hold] at hpair
    | some old =>
      rw [hold] at hpair
      simp only [Option.map_some, Option.some.injEq] at hpair
      have := h.latest old hold
      simp only [Book.latest] at this ⊢
      rw [htag, hpushes, this, hpair]

theorem pair_setContainer (id : MsgId) (r : Request) :
    (Sender.setContainer id r).state.pair.map MsgIdPair.msgId =
      r.state.pair.map MsgIdPair.msgId := by
  unfold Sender.setContainer
  split
  next pair h => simp [h, RequestState.pair]
  next => rfl

theorem pair_markSent (r : Request) : (Sender.markSent r).state.pair = r.state.pair := by
  unfold Sender.markSent
  split
  next pair h => simp [h, RequestState.pair]
  next => rfl

theorem retries_setContainer (id : MsgId) (r : Request) :
    (Sender.setContainer id r).protocolRetries = r.protocolRetries := by
  unfold Sender.setContainer
  split <;> rfl

theorem retries_markSent (r : Request) :
    (Sender.markSent r).protocolRetries = r.protocolRetries := by
  unfold Sender.markSent
  split <;> rfl

structure Counted (l : Ledger) : Prop where
  held : ∀ r ∈ l.requests, CountedIn l.book r
  bound : ∀ tag, l.book.attempts tag ≤ 4

theorem Counted.of_subset {rs rs' : List Request} {b b' : Book} {n n' : Nat}
    (h : Counted ⟨rs, b, n⟩) (hsub : ∀ r ∈ rs', r ∈ rs) (hpushes : b'.pushes = b.pushes) :
    Counted ⟨rs', b', n'⟩ := by
  have hof := Book.pushesOf_congr hpushes
  refine ⟨?_, ?_⟩
  · intro r hr
    exact (h.held r (hsub r hr)).congr (hof r.tag) rfl rfl rfl
  · intro tag
    simpa only [Book.attempts, hof] using h.bound tag

theorem Counted.step {l l' : Ledger} (h : Counted l) (hs : Step l l') (ho : Owned l)
    (hn : Numbered l) : Counted l' := by
  cases hs with
  | perm hp => exact h.of_subset (fun r hr => hp.mem_iff.mpr hr) rfl
  | @enqueue rs b n r htag hr hretries hstate =>
    refine ⟨?_, h.bound⟩
    intro r' hr'
    rcases List.mem_cons.mp hr' with rfl | hr'
    · have hnil : b.pushesOf r'.tag = [] := Book.pushesOf_eq_nil hn (Nat.le_of_eq htag.symm)
      refine ⟨?_, by omega, ?_⟩
      · simp [Book.attempts, hnil, hretries, hstate]
      · intro pair hpair
        simp [hstate, RequestState.pair] at hpair
    · exact h.held r' hr'
  | skip => exact h.of_subset (fun _ hr => hr) rfl
  | refuse => exact h.of_subset (fun _ hr => hr) rfl
  | drop => exact h.of_subset (fun _ hr => List.mem_cons_of_mem _ hr) rfl
  | complete => exact h.of_subset (fun _ hr => List.mem_cons_of_mem _ hr) rfl
  | @push rs b n r msgId hstate hid =>
    have hr := h.held r List.mem_cons_self
    have hattempts : b.attempts r.tag = r.protocolRetries := by simpa [hstate] using hr.attempts
    refine ⟨?_, ?_⟩
    · intro r' hr'
      rcases List.mem_cons.mp hr' with rfl | hr'
      · refine ⟨?_, hr.retries, ?_⟩
        · simpa [Book.attempts, Book.pushesOf_pushed] using hattempts
        · intro pair hpair
          simp only [RequestState.pair, Option.some.injEq] at hpair
          simp [Book.latest, Book.pushesOf_pushed, ← hpair, MsgIdPair.new]
      · exact (h.held r' (List.mem_cons_of_mem _ hr')).congr
          (Book.pushesOf_pushed_ne b (ho.ne_tag hr') msgId) rfl rfl rfl
    · intro tag
      by_cases ht : tag = r.tag
      · subst ht
        have := hr.retries
        simp only [Book.attempts, Book.pushesOf_pushed, List.length_append, List.length_singleton]
        simp only [Book.attempts] at hattempts
        omega
      · simpa only [Book.attempts, Book.pushesOf_pushed_ne b ht] using h.bound tag
  | finalize id =>
    refine ⟨?_, h.bound⟩
    intro r' hr'
    obtain ⟨r, hr, rfl⟩ := List.mem_map.mp hr'
    exact (h.held r hr).congr rfl (tag_setContainer id r) (retries_setContainer id r)
      (pair_setContainer id r)
  | write => exact h.of_subset (fun _ hr => hr) rfl
  | @flush rs b n hid =>
    have hof := Book.pushesOf_congr b.pushes_flushed
    refine ⟨?_, ?_⟩
    · intro r' hr'
      obtain ⟨r, hr, rfl⟩ := List.mem_map.mp hr'
      exact (h.held r hr).congr (hof r.tag) (tag_markSent r) (retries_markSent r)
        (by rw [pair_markSent])
    · intro tag
      simpa only [Book.attempts, hof] using h.bound tag
  | @reject rs b n id => exact h.of_subset (fun _ hr => hr) (b.pushes_rejected id)
  | @retry rs b n r pair id hstate hnames hnotice hretries =>
    refine ⟨?_, h.bound⟩
    intro r' hr'
    rcases List.mem_cons.mp hr' with rfl | hr'
    · have hr := h.held r List.mem_cons_self
      refine ⟨?_, Nat.succ_le_of_lt hretries, ?_⟩
      · simpa [hstate] using hr.attempts
      · intro pair' hpair
        cases hpair
    · exact h.held r' (List.mem_cons_of_mem _ hr')

/-- The packets that a request was in before were rejected, but for the one it waits for an answer
to. -/
def Answered (l : Ledger) : Prop :=
  ∀ r ∈ l.requests, ∀ p ∈ l.book.sent, ∀ id, (r.tag, id) ∈ p.carried →
    (∃ container, r.state = .sent ⟨id, container⟩ ∧ p.id = some container) ∨ p.Rejected id

theorem Answered.of_subset {rs rs' : List Request} {b b' : Book} {n n' : Nat}
    (h : Answered ⟨rs, b, n⟩) (hsub : ∀ r ∈ rs', r ∈ rs) (hsent : b'.sent = b.sent) :
    Answered ⟨rs', b', n'⟩ := by
  intro r hr p hp id hmem
  exact h r (hsub r hr) p (by simpa only [hsent] using hp) id hmem

theorem Answered.of_not_sent {l : Ledger} (h : Answered l) {r : Request} (hr : r ∈ l.requests)
    (hstate : ∀ pair, r.state ≠ .sent pair) {p : Packet} (hp : p ∈ l.book.sent) {id : MsgId}
    (hmem : (r.tag, id) ∈ p.carried) : p.Rejected id := by
  rcases h r hr p hp id hmem with ⟨container, hsent, -⟩ | hrejected
  · exact absurd hsent (hstate _)
  · exact hrejected

theorem Packet.Rejected.notice {p : Packet} {id : MsgId} (h : p.Rejected id) (n : MsgId) :
    (p.notice n).Rejected id := by
  obtain ⟨n', hn', hnames⟩ := h
  exact ⟨n', List.mem_cons_of_mem _ hn', hnames⟩

theorem Answered.step {l l' : Ledger} (h : Answered l) (hs : Step l l') (hn : Numbered l)
    (hin : InPacket l) : Answered l' := by
  cases hs with
  | perm hp => exact h.of_subset (fun r hr => hp.mem_iff.mpr hr) rfl
  | @enqueue rs b n r htag hr hretries hstate =>
    intro r' hr' p hp id hmem
    rcases List.mem_cons.mp hr' with rfl | hr'
    · have := hn _ (mem_pushes_of_sent hp hmem)
      simp only [htag, Nat.lt_irrefl] at this
    · exact h r' hr' p hp id hmem
  | skip => exact h.of_subset (fun _ hr => hr) rfl
  | refuse => exact h.of_subset (fun _ hr => hr) rfl
  | drop => exact h.of_subset (fun _ hr => List.mem_cons_of_mem _ hr) rfl
  | complete => exact h.of_subset (fun _ hr => List.mem_cons_of_mem _ hr) rfl
  | @push rs b n r msgId hstate hid =>
    intro r' hr' p hp id hmem
    rcases List.mem_cons.mp hr' with rfl | hr'
    · refine .inr (h.of_not_sent List.mem_cons_self ?_ hp hmem)
      intro pair hpair
      rw [hstate] at hpair
      cases hpair
    · exact h r' (List.mem_cons_of_mem _ hr') p hp id hmem
  | finalize cid =>
    intro r' hr' p hp id hmem
    obtain ⟨r, hr, rfl⟩ := List.mem_map.mp hr'
    rw [tag_setContainer] at hmem
    rcases h r hr p hp id hmem with ⟨container, hsent, hpid⟩ | hrejected
    · exact .inl ⟨container, by rw [setContainer_of_sent hsent]; exact hsent, hpid⟩
    · exact .inr hrejected
  | write => exact h.of_subset (fun _ hr => hr) rfl
  | @flush rs b n hid =>
    intro r' hr' p hp id hmem
    obtain ⟨r, hr, rfl⟩ := List.mem_map.mp hr'
    rw [tag_markSent] at hmem
    rcases List.mem_append.mp hp with hp | hp
    · rcases h r hr p hp id hmem with ⟨container, hsent, hpid⟩ | hrejected
      · exact .inl ⟨container, by rw [markSent_state, hsent], hpid⟩
      · exact .inr hrejected
    · obtain rfl := List.mem_singleton.mp hp
      obtain ⟨pair, hpair, rfl⟩ := hin.carried r hr id hmem
      obtain ⟨cid, hcid⟩ := Option.ne_none_iff_exists'.mp (hid (List.ne_nil_of_mem hmem))
      have hcontainer := (hin.serialized r hr pair hpair).2 cid hcid
      exact .inl ⟨cid, by rw [markSent_state, hpair, ← hcontainer], hcid⟩
  | @reject rs b n nid =>
    intro r hr p hp id hmem
    obtain ⟨q, hq, rfl⟩ := List.mem_map.mp hp
    rcases h r hr q hq id hmem with hsent | hrejected
    · exact .inl hsent
    · exact .inr (Packet.Rejected.notice hrejected nid)
  | @retry rs b n r pair id hstate hnames hnotice hretries =>
    intro r' hr' p hp id' hmem
    rcases List.mem_cons.mp hr' with rfl | hr'
    · rcases h r List.mem_cons_self p hp id' hmem with ⟨container, hsent, hpid⟩ | hrejected
      · rw [hstate] at hsent
        cases hsent
        refine .inr ⟨id, hnotice p hp, ?_⟩
        rcases hnames with hname | hname
        · exact .inl hname.symm
        · exact .inr (by rw [hpid, ← hname])
      · exact .inr hrejected
    · exact h r' (List.mem_cons_of_mem _ hr') p hp id' hmem

/-- What is kept of requests, whatever becomes of them. -/
structure Sound (l : Ledger) : Prop where
  owned : Owned l
  numbered : Numbered l
  inPacket : InPacket l
  counted : Counted l
  answered : Answered l

theorem sound_empty : Sound ⟨[], .empty, 0⟩ where
  owned := ⟨by simp [Book.empty], by simp [Book.empty], by simp⟩
  numbered := by simp [Numbered, Book.empty, Book.pushes, Packet.empty]
  inPacket := ⟨by simp, by simp⟩
  counted := ⟨by simp, by simp [Book.attempts, Book.pushesOf, Book.empty, Book.pushes, Packet.empty]⟩
  answered := by simp [Answered]

theorem Sound.step {l l' : Ledger} (h : Sound l) (hs : Step l l') : Sound l' where
  owned := h.owned.step hs
  numbered := h.numbered.step hs h.owned
  inPacket := h.inPacket.step hs h.owned h.numbered
  counted := h.counted.step hs h.owned h.numbered
  answered := h.answered.step hs h.numbered h.inPacket

abbrev Steps : Ledger → Ledger → Prop := Relation.ReflTransGen Step

theorem Sound.steps {l l' : Ledger} (h : Sound l) (hs : Steps l l') : Sound l' := by
  induction hs with
  | refl => exact h
  | tail _ hs ih => exact ih.step hs

end Ledger

end Grammers
