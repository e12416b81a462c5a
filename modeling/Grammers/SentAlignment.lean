import Grammers.SentMessages

namespace Grammers.Messages

variable {μ : Type} {idOf : μ → Int} {messages left : AList fun _ : Int => μ}
  {randomToId : AList fun _ : Int => Int} {target : Option Int} {randomId id : Int}
  {randomIds : List Int} {message : μ} {taken : Option μ}

/-- What the messages owe to the inputs: one result for each, no message twice, each input
that is alone in being told an identifier has the message with it, and any other message goes
to an input only if it is told to none and the others have all been given out. -/
structure Aligned (idOf : μ → Int) (randomToId : AList fun _ : Int => Int)
    (messages : AList fun _ : Int => μ) (randomIds : List Int) (result : List (Option μ)) :
    Prop where
  length : result.length = randomIds.length
  once : ((result.filterMap fun message => message).map idOf).Nodup
  known : ∀ message, some message ∈ result → messages.lookup (idOf message) = some message
  own : ∀ (j : Nat) randomId id message, randomIds[j]? = some randomId →
    randomToId.lookup randomId = some id → messages.lookup id = some message →
    (∀ r, randomToId.lookup r = some id → r = randomId) → result[j]? = some (some message)
  others : ∀ (j : Nat) randomId message, randomIds[j]? = some randomId →
    result[j]? = some (some message) → randomToId.lookup randomId ≠ some (idOf message) →
    (∀ r, randomToId.lookup r ≠ some (idOf message)) ∧
      ∀ id other, messages.lookup id = some other → id ≠ idOf message → some other ∈ result.take j

/-- No input to which just one message is left, not its own, finds one that is told to
another input: what is left to it is what the inputs before it leave of the messages. -/
def NothingStolen (randomToId : AList fun _ : Int => Int) (messages : AList fun _ : Int => μ)
    (randomIds : List Int) : Prop :=
  ∀ before randomId after, randomIds = before ++ randomId :: after → ∀ id message,
    (leftBy randomToId messages before).entries = [⟨id, message⟩] →
    randomToId.lookup randomId ≠ some id → ∀ r, randomToId.lookup r ≠ some id

theorem nothingStolen_cons : NothingStolen randomToId messages (randomId :: randomIds) ↔
    (∀ id message, messages.entries = [⟨id, message⟩] → randomToId.lookup randomId ≠ some id →
      ∀ r, randomToId.lookup r ≠ some id) ∧
    NothingStolen randomToId (leave messages (randomToId.lookup randomId)) randomIds := by
  constructor
  · intro h
    refine ⟨h [] randomId randomIds rfl, fun before r after he => ?_⟩
    exact h (randomId :: before) r after (by rw [he]; rfl)
  · rintro ⟨hhead, htail⟩ before r after he
    cases before with
    | nil =>
      obtain ⟨rfl, rfl⟩ := List.cons.inj he
      exact hhead
    | cons first before =>
      obtain ⟨rfl, hrest⟩ := List.cons.inj he
      exact htail before r after hrest

theorem mapInputs_empty (randomToId : AList fun _ : Int => Int) (randomIds : List Int) :
    mapInputs (μ := μ) randomToId ∅ randomIds = randomIds.map fun _ => none := by
  induction randomIds with
  | nil => rfl
  | cons randomId randomIds ih =>
    have htake : takeMessage (μ := μ) ∅ (randomToId.lookup randomId) = (none, ∅) := by
      unfold takeMessage
      cases randomToId.lookup randomId with
      | none => rfl
      | some id => rfl
    simp only [mapInputs, htake, ih, List.map_cons]

/-- What an input takes, and what the later ones do with what it leaves. -/
theorem mapInputs_cons (randomToId : AList fun _ : Int => Int) (messages : AList fun _ : Int => μ)
    (randomId : Int) (randomIds : List Int) :
    ∃ taken left, Taken messages (randomToId.lookup randomId) taken left ∧
      mapInputs randomToId messages (randomId :: randomIds) =
        taken :: mapInputs randomToId left randomIds :=
  ⟨_, _, takeMessage_taken _ _, rfl⟩

theorem leave_of_own (hm : target = some id) : messages.erase id = leave messages target := by
  rw [hm]
  rfl

theorem leave_of_none (ht : ∀ id, target = some id → messages.lookup id = none) :
    messages = leave messages target := by
  unfold leave
  split
  next id => exact (erase_of_not_mem (AList.lookup_eq_none.mp (ht id rfl))).symm
  next => rfl

theorem mapInputs_length (randomToId : AList fun _ : Int => Int) (messages : AList fun _ : Int => μ)
    (randomIds : List Int) : (mapInputs randomToId messages randomIds).length = randomIds.length := by
  induction randomIds generalizing messages with
  | nil => rfl
  | cons randomId randomIds ih =>
    obtain ⟨taken, left, _, he⟩ := mapInputs_cons randomToId messages randomId randomIds
    rw [he, List.length_cons, List.length_cons, ih]

/-- Messages only come from those there are, each under its identifier, and each once. -/
theorem mapInputs_once (hk : Keyed idOf messages) (randomIds : List Int) :
    (∀ message, some message ∈ mapInputs randomToId messages randomIds →
        messages.lookup (idOf message) = some message) ∧
      (((mapInputs randomToId messages randomIds).filterMap fun message => message).map idOf).Nodup := by
  induction randomIds generalizing messages with
  | nil => simp [mapInputs]
  | cons randomId randomIds ih =>
    obtain ⟨taken, left, ht, he⟩ := mapInputs_cons randomToId messages randomId randomIds
    rw [he]
    cases ht with
    | @own id message _ hm =>
      obtain ⟨h1, h2⟩ := ih (hk.erase id)
      have hid := hk id message hm
      have hlater : ∀ m, some m ∈ mapInputs randomToId (messages.erase id) randomIds →
          idOf m ≠ id ∧ messages.lookup (idOf m) = some m := by
        intro m hmem
        have hlook := h1 m hmem
        by_cases heq : idOf m = id
        · rw [heq, AList.lookup_erase] at hlook
          simp at hlook
        · exact ⟨heq, by rwa [AList.lookup_erase_ne heq] at hlook⟩
      refine ⟨fun m hmem => ?_, ?_⟩
      · rcases List.mem_cons.mp hmem with hmem | hmem
        · obtain rfl := Option.some.inj hmem
          rw [hid, hm]
        · exact (hlater m hmem).2
      · show (idOf message :: _).Nodup
        refine List.nodup_cons.mpr ⟨fun hmem => ?_, h2⟩
        obtain ⟨m, hmem, heq⟩ := List.mem_map.mp hmem
        obtain ⟨o, ho, rfl⟩ := List.mem_filterMap.mp hmem
        exact (hlater m ho).1 (heq.trans hid)
    | @single id message _ hs =>
      rw [mapInputs_empty]
      refine ⟨fun m hmem => ?_, by simp⟩
      obtain rfl : m = message := by simpa using hmem
      have hlook := lookup_of_single hs id
      rw [if_pos rfl] at hlook
      rw [hk id m hlook, hlook]
    | none =>
      obtain ⟨h1, h2⟩ := ih hk
      exact ⟨fun m hmem => h1 m (by simpa using hmem), by simpa using h2⟩

theorem mapInputs_own (hs : NothingStolen randomToId messages randomIds)
    (hn : randomIds.Nodup) {j : Nat} (hj : randomIds[j]? = some randomId)
    (ht : randomToId.lookup randomId = some id) (hm : messages.lookup id = some message)
    (halone : ∀ r, randomToId.lookup r = some id → r = randomId) :
    (mapInputs randomToId messages randomIds)[j]? = some (some message) := by
  induction randomIds generalizing messages j with
  | nil => simp at hj
  | cons first randomIds ih =>
    obtain ⟨hhead, htail⟩ := nothingStolen_cons.mp hs
    obtain ⟨hfirst, hn⟩ := List.nodup_cons.mp hn
    obtain ⟨taken, left, htaken, he⟩ := mapInputs_cons randomToId messages first randomIds
    rw [he]
    cases j with
    | zero =>
      obtain rfl : first = randomId := by simpa using hj
      cases htaken with
      | own ht' hm' =>
        obtain rfl := Option.some.inj (ht.symm.trans ht')
        obtain rfl := Option.some.inj (hm.symm.trans hm')
        rfl
      | single ht' hsingle =>
        rw [lookup_of_single hsingle] at hm
        split at hm
        next heq => exact absurd (heq ▸ ht) ht'
        next => simp at hm
      | none hnone => simp [hnone id ht] at hm
    | succ j =>
      have hj' : randomIds[j]? = some randomId := by simpa using hj
      have hne : randomToId.lookup first ≠ some id := fun h =>
        hfirst (halone first h ▸ List.mem_of_getElem? hj')
      rw [List.getElem?_cons_succ]
      cases htaken with
      | @own id' message' ht' hm' =>
        have hid : id ≠ id' := by
          rintro rfl
          exact hne ht'
        rw [← leave_of_own ht'] at htail
        exact ih htail hn hj' (by rwa [AList.lookup_erase_ne hid])
      | @single id' message' ht' hsingle =>
        rw [lookup_of_single hsingle] at hm
        split at hm
        next heq => exact absurd (heq ▸ ht) (hhead id' message' hsingle ht' randomId)
        next => simp at hm
      | none hnone =>
        rw [← leave_of_none hnone] at htail
        exact ih htail hn hj' hm

theorem mapInputs_others (hk : Keyed idOf messages) (hs : NothingStolen randomToId messages randomIds)
    {j : Nat} (hj : randomIds[j]? = some randomId)
    (hr : (mapInputs randomToId messages randomIds)[j]? = some (some message))
    (hne : randomToId.lookup randomId ≠ some (idOf message)) :
    (∀ r, randomToId.lookup r ≠ some (idOf message)) ∧
      ∀ id other, messages.lookup id = some other → id ≠ idOf message →
        some other ∈ (mapInputs randomToId messages randomIds).take j := by
  induction randomIds generalizing messages j with
  | nil => simp at hj
  | cons first randomIds ih =>
    obtain ⟨hhead, htail⟩ := nothingStolen_cons.mp hs
    obtain ⟨taken, left, htaken, he⟩ := mapInputs_cons randomToId messages first randomIds
    rw [he] at hr ⊢
    cases j with
    | zero =>
      obtain rfl : first = randomId := by simpa using hj
      obtain rfl : taken = some message := by simpa using hr
      cases htaken with
      | @own id _ ht hm => exact absurd (hk id message hm ▸ ht) hne
      | @single id _ ht hsingle =>
        have hlook := lookup_of_single hsingle id
        rw [if_pos rfl] at hlook
        have hid := hk id message hlook
        refine ⟨fun r => hid ▸ hhead id message hsingle ht r, fun id' other hm' hne' => ?_⟩
        rw [lookup_of_single hsingle, if_neg (fun h => hne' (h.trans hid.symm))] at hm'
        simp at hm'
    | succ j =>
      have hj' : randomIds[j]? = some randomId := by simpa using hj
      rw [List.getElem?_cons_succ] at hr
      rw [List.take_succ_cons]
      cases htaken with
      | @own id message' ht hm =>
        rw [← leave_of_own ht] at htail
        obtain ⟨h1, h2⟩ := ih (hk.erase id) htail hj' hr
        refine ⟨h1, fun id' other hm' hne' => ?_⟩
        by_cases heq : id' = id
        · subst heq
          obtain rfl := Option.some.inj (hm.symm.trans hm')
          exact List.mem_cons_self
        · exact List.mem_cons_of_mem _ (h2 id' other (by rwa [AList.lookup_erase_ne heq]) hne')
      | single =>
        rw [mapInputs_empty, List.getElem?_map, hj'] at hr
        simp at hr
      | none hnone =>
        rw [← leave_of_none hnone] at htail
        obtain ⟨h1, h2⟩ := ih hk htail hj' hr
        exact ⟨h1, fun id' other hm' hne' => List.mem_cons_of_mem _ (h2 id' other hm' hne')⟩

/-- Otherwise some input does get a message that is told to another one. -/
theorem mapInputs_stolen (hk : Keyed idOf messages)
    (hs : ¬NothingStolen randomToId messages randomIds) :
    ∃ (j : Nat) (randomId : Int) (message : μ), randomIds[j]? = some randomId ∧
      (mapInputs randomToId messages randomIds)[j]? = some (some message) ∧
      randomToId.lookup randomId ≠ some (idOf message) ∧
      ∃ r, randomToId.lookup r = some (idOf message) := by
  induction randomIds generalizing messages with
  | nil =>
    refine absurd (fun before r after he => ?_) hs
    simp at he
  | cons first randomIds ih =>
    obtain ⟨taken, left, htaken, he⟩ := mapInputs_cons randomToId messages first randomIds
    rw [he]
    -- what happens at the first input if just one message is left to it
    have hsingle : ∀ id message r, messages.entries = [⟨id, message⟩] →
        randomToId.lookup first ≠ some id → randomToId.lookup r = some id →
        taken = some message ∧ idOf message = id := by
      intro id message r hentries hne _
      have hlook := lookup_of_single hentries
      have hid := hk id message (by rw [hlook, if_pos rfl])
      refine ⟨?_, hid⟩
      cases htaken with
      | @own id' message' ht hm =>
        rw [hlook] at hm
        split at hm
        next heq => exact absurd (heq ▸ ht) hne
        next => simp at hm
      | single _ hentries' =>
        rw [hentries] at hentries'
        simp only [List.cons.injEq, Sigma.mk.injEq, and_true] at hentries'
        rw [eq_of_heq hentries'.2]
      | none _ hno => exact absurd hentries (hno id message)
    by_cases hhead : ∀ id message, messages.entries = [⟨id, message⟩] →
        randomToId.lookup first ≠ some id → ∀ r, randomToId.lookup r ≠ some id
    · have htail : ¬NothingStolen randomToId (leave messages (randomToId.lookup first)) randomIds :=
        fun h => hs (nothingStolen_cons.mpr ⟨hhead, h⟩)
      have hrec : left = leave messages (randomToId.lookup first) → Keyed idOf left →
          ∃ (j : Nat) (randomId : Int) (message : μ), (first :: randomIds)[j]? = some randomId ∧
            (taken :: mapInputs randomToId left randomIds)[j]? = some (some message) ∧
            randomToId.lookup randomId ≠ some (idOf message) ∧
            ∃ r, randomToId.lookup r = some (idOf message) := by
        rintro rfl hkleft
        obtain ⟨j, randomId, message, hj, hr, hne, hmapped⟩ := ih hkleft htail
        exact ⟨j + 1, randomId, message, by simpa using hj, by simpa using hr, hne, hmapped⟩
      cases htaken with
      | @own id message ht hm => exact hrec (leave_of_own ht) (hk.erase id)
      | none hnone => exact hrec (leave_of_none hnone) hk
      | @single id message ht hentries =>
        -- the only message is told to no input, and no other one is left to a later input
        refine absurd (fun before r after _ id' message' hleft _ r' hr' => ?_) htail
        have hlook : (leftBy randomToId (leave messages (randomToId.lookup first)) before).lookup
            id' = some message' := by
          rw [lookup_of_single hleft, if_pos rfl]
        have hm := lookup_leave (lookup_leftBy hlook)
        rw [lookup_of_single hentries] at hm
        split at hm
        next heq => exact hhead id message hentries ht r' (heq ▸ hr')
        next => simp at hm
    · push Not at hhead
      obtain ⟨id, message, hentries, hne, r, hr⟩ := hhead
      obtain ⟨rfl, hid⟩ := hsingle id message r hentries hne hr
      exact ⟨0, first, message, rfl, rfl, hid ▸ hne, r, hid ▸ hr⟩

theorem aligned_iff (hk : Keyed idOf messages) (hn : randomIds.Nodup) :
    Aligned idOf randomToId messages randomIds (mapInputs randomToId messages randomIds) ↔
      NothingStolen randomToId messages randomIds := by
  constructor
  · intro h
    by_contra hs
    obtain ⟨j, randomId, message, hj, hr, hne, r, hmapped⟩ := mapInputs_stolen hk hs
    exact (h.others j randomId message hj hr hne).1 r hmapped
  · intro hs
    obtain ⟨hknown, honce⟩ := @mapInputs_once _ _ _ randomToId hk randomIds
    refine ⟨mapInputs_length _ _ _, honce, hknown, ?_, ?_⟩
    · intro j randomId id message hj ht hm halone
      exact mapInputs_own hs hn hj ht hm halone
    · intro j randomId message hj hr hne
      exact mapInputs_others hk hs hj hr hne

theorem mapRandomIdsToMessages_eq (idOf : μ → Int) (randomIds : List Int)
    (parts : Option (List (Update μ))) : mapRandomIdsToMessages idOf randomIds parts =
      mapInputs (randomIdToId (parts.getD [])) (idToMessage idOf (parts.getD [])) randomIds := by
  cases parts with
  | none => exact (mapInputs_empty _ randomIds).symm
  | some updates => rfl

/-- Sent messages are aligned with their inputs if and only if the message left over by the
inputs so far is never one that the reply tells to some input, when an input lacks its own. -/
theorem sent_messages_aligned_iff (idOf : μ → Int) (randomIds : List Int)
    (parts : Option (List (Update μ))) (hn : randomIds.Nodup) :
    Aligned idOf (randomIdToId (parts.getD [])) (idToMessage idOf (parts.getD [])) randomIds
        (mapRandomIdsToMessages idOf randomIds parts) ↔
      NothingStolen (randomIdToId (parts.getD [])) (idToMessage idOf (parts.getD [])) randomIds := by
  rw [mapRandomIdsToMessages_eq]
  exact aligned_iff (idToMessage_keyed _) hn

/-- Of two inputs the second one failed: the first keeps its message. -/
theorem sent_messages_aligned_first :
    Aligned (fun m : Int => m) (randomIdToId [.messageId 1 10, .newMessage 10])
      (idToMessage (fun m => m) [.messageId 1 10, .newMessage 10]) [1, 2]
      (mapRandomIdsToMessages (fun m => m) [1, 2] (some [.messageId 1 10, .newMessage 10])) := by
  refine (sent_messages_aligned_iff (fun m : Int => m) [1, 2]
    (some [.messageId 1 10, .newMessage 10]) (by decide)).mpr ?_
  refine nothingStolen_cons.mpr ⟨fun id m he hne => ?_, nothingStolen_cons.mpr
    ⟨fun id m he => ?_, fun before r after he => ?_⟩⟩
  · obtain ⟨rfl, _⟩ := Sigma.mk.inj (List.cons.inj he).1
    exact absurd (by decide) hne
  · have hnil : (leave (idToMessage (fun m : Int => m) [.messageId 1 10, .newMessage 10])
        ((randomIdToId (μ := Int) [.messageId 1 10, .newMessage 10]).lookup 1)).entries = [] := by
      decide
    exact absurd (hnil.symm.trans he) (by simp)
  · simp at he

/-- Of two inputs the first one failed: it gets the message of the second. -/
theorem sent_messages_misaligned :
    ¬Aligned (fun m : Int => m) (randomIdToId [.messageId 2 20, .newMessage 20])
      (idToMessage (fun m => m) [.messageId 2 20, .newMessage 20]) [1, 2]
      (mapRandomIdsToMessages (fun m => m) [1, 2] (some [.messageId 2 20, .newMessage 20])) := by
  intro h
  have halone : ∀ r, (randomIdToId (μ := Int) [.messageId 2 20, .newMessage 20]).lookup r = some 20 →
      r = 2 := by
    intro r hr
    by_contra hne
    change (AList.insert 2 20 ∅).lookup r = some 20 at hr
    rw [AList.lookup_insert_ne hne] at hr
    simp at hr
  exact absurd (h.own 1 2 20 20 rfl (by decide) (by decide) halone) (by decide)

end Grammers.Messages
