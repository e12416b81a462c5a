import Mathlib.Data.List.Nodup
import Mathlib.Logic.Relation
import Grammers.Sender

namespace Grammers

/-- A packet: the requests in it with their identifiers, what finalizing it returned, how much of it
was written, and which messages the server has rejected since all of it was. -/
structure Packet where
  carried : List (Nat × MsgId)
  id : Option MsgId
  written : Nat
  notices : List MsgId
  deriving DecidableEq

def Packet.empty : Packet := ⟨[], none, 0, []⟩

/-- The server has rejected this message of the packet, or all of the packet. -/
def Packet.Rejected (p : Packet) (msgId : MsgId) : Prop :=
  ∃ n ∈ p.notices, n = msgId ∨ p.id = some n

def Packet.notice (n : MsgId) (p : Packet) : Packet := { p with notices := n :: p.notices }

/-- What happened so far: the packets that were written, the one in the buffer, and the results that
callers have received. -/
structure Book where
  sent : List Packet
  current : Packet
  completed : List (Tx × Outcome)
  deriving DecidableEq

namespace Book

def empty : Book := ⟨[], .empty, []⟩

def note (b : Book) : Event → Book
  | .pushed tag msgId =>
    { b with current := { b.current with carried := b.current.carried ++ [(tag, msgId)] } }
  | .finalized id => { b with current := { b.current with id := some id } }
  | .wrote n => { b with current := { b.current with written := b.current.written + n } }
  | .flushed => { b with sent := b.sent ++ [b.current], current := .empty }
  | .rejected id => { b with sent := b.sent.map (.notice id) }
  | .completed tx outcome => { b with completed := b.completed ++ [(tx, outcome)] }
  | .ownUpdate _ _ => b
  | .update _ => b

def notes (b : Book) (events : List Event) : Book := events.foldl note b

/-- Every time a request was serialized, in order. -/
def pushes (b : Book) : List (Nat × MsgId) := b.sent.flatMap Packet.carried ++ b.current.carried

def pushesOf (b : Book) (tag : Nat) : List (Nat × MsgId) := b.pushes.filter (·.1 = tag)

/-- How often a request was serialized. -/
def attempts (b : Book) (tag : Nat) : Nat := (b.pushesOf tag).length

def latest (b : Book) (tag : Nat) : Option MsgId := (b.pushesOf tag).getLast?.map Prod.snd

variable (b : Book)

@[simp] theorem notes_nil : b.notes [] = b := rfl

@[simp] theorem notes_cons (e : Event) (es : List Event) : b.notes (e :: es) = (b.note e).notes es := rfl

theorem notes_append (es es' : List Event) : b.notes (es ++ es') = (b.notes es).notes es' := by
  simp [notes]

@[simp] theorem pushes_pushed (tag : Nat) (id : MsgId) :
    (b.note (.pushed tag id)).pushes = b.pushes ++ [(tag, id)] := by
  simp [note, pushes]

@[simp] theorem pushes_finalized (id : MsgId) : (b.note (.finalized id)).pushes = b.pushes := rfl

@[simp] theorem pushes_wrote (n : Nat) : (b.note (.wrote n)).pushes = b.pushes := rfl

@[simp] theorem pushes_flushed : (b.note .flushed).pushes = b.pushes := by
  simp [note, pushes, Packet.empty]

@[simp] theorem pushes_rejected (id : MsgId) : (b.note (.rejected id)).pushes = b.pushes := by
  simp [note, pushes, Packet.notice, List.flatMap_map]

@[simp] theorem pushes_completed (tx : Tx) (o : Outcome) :
    (b.note (.completed tx o)).pushes = b.pushes := rfl

theorem pushesOf_congr {b b' : Book} (h : b'.pushes = b.pushes) (tag : Nat) :
    b'.pushesOf tag = b.pushesOf tag := by
  rw [pushesOf, h, pushesOf]

theorem pushesOf_pushed (tag : Nat) (id : MsgId) :
    (b.note (.pushed tag id)).pushesOf tag = b.pushesOf tag ++ [(tag, id)] := by
  simp [pushesOf]

theorem pushesOf_pushed_ne {tag t : Nat} (h : t ≠ tag) (id : MsgId) :
    (b.note (.pushed tag id)).pushesOf t = b.pushesOf t := by
  simp [pushesOf, h.symm]

theorem pushesOf_eq_nil {b : Book} {n tag : Nat} (h : ∀ p ∈ b.pushes, p.1 < n) (ht : n ≤ tag) :
    b.pushesOf tag = [] := by
  rw [pushesOf, List.filter_eq_nil_iff]
  intro p hp
  have := h p hp
  simp
  omega

end Book

/-- The requests that are held, in any order, with what happened so far. -/
structure Ledger where
  requests : List Request
  book : Book
  enqueued : Nat

def Request.tagged (r : Request) : Prop := ∀ tx, r.result = some tx → tx = r.tag

namespace Ledger

/-- What can become of the requests, one at a time or all of a packet at once. -/
inductive Step : Ledger → Ledger → Prop where
  | perm {rs rs' b n} (h : rs.Perm rs') : Step ⟨rs, b, n⟩ ⟨rs', b, n⟩
  | enqueue {rs b n r} (htag : r.tag = n) (hr : r.tagged) (hretries : r.protocolRetries = 0)
      (hstate : r.state = .notSerialized) : Step ⟨rs, b, n⟩ ⟨r :: rs, b, n + 1⟩
  | skip {rs b n} : Step ⟨rs, b, n⟩ ⟨rs, b, n + 1⟩
  | refuse {rs b n} (outcome : Outcome) :
      Step ⟨rs, b, n⟩ ⟨rs, b.note (.completed n outcome), n + 1⟩
  | drop {rs b n r} : Step ⟨r :: rs, b, n⟩ ⟨rs, b, n⟩
  | complete {rs b n r tx} (outcome : Outcome) (h : r.result = some tx) :
      Step ⟨r :: rs, b, n⟩ ⟨rs, b.note (.completed tx outcome), n⟩
  | push {rs b n r} (msgId : MsgId) (h : r.state = .notSerialized) (hid : b.current.id = none) :
      Step ⟨r :: rs, b, n⟩
        ⟨{ r with state := .serialized (.new msgId) } :: rs, b.note (.pushed r.tag msgId), n⟩
  | finalize {rs b n} (id : MsgId) :
      Step ⟨rs, b, n⟩ ⟨rs.map (Sender.setContainer id), b.note (.finalized id), n⟩
  | write {rs b n} (count : Nat) : Step ⟨rs, b, n⟩ ⟨rs, b.note (.wrote count), n⟩
  | flush {rs b n} (h : b.current.carried ≠ [] → b.current.id ≠ none) :
      Step ⟨rs, b, n⟩ ⟨rs.map Sender.markSent, b.note .flushed, n⟩
  | reject {rs b n} (id : MsgId) : Step ⟨rs, b, n⟩ ⟨rs, b.note (.rejected id), n⟩
  | retry {rs b n r pair id} (hstate : r.state = .sent pair) (hnames : pair.Names id)
      (hnotice : ∀ p ∈ b.sent, id ∈ p.notices) (hretries : r.protocolRetries < 3) :
      Step ⟨r :: rs, b, n⟩
        ⟨{ r with state := .notSerialized, protocolRetries := r.protocolRetries + 1 } :: rs, b, n⟩

/-- A request has one number, and its result goes to one caller. -/
structure Owned (l : Ledger) : Prop where
  nodup : (l.requests.map Request.tag ++ l.book.completed.map Prod.fst).Nodup
  lt : ∀ tag ∈ l.requests.map Request.tag ++ l.book.completed.map Prod.fst, tag < l.enqueued
  tagged : ∀ r ∈ l.requests, r.tagged

theorem Owned.of_perm {rs rs' : List Request} {b : Book} {n : Nat} (h : Owned ⟨rs, b, n⟩)
    (hp : rs.Perm rs') : Owned ⟨rs', b, n⟩ := by
  have htags := (hp.map Request.tag).append_right (b.completed.map Prod.fst)
  refine ⟨htags.nodup_iff.mp h.nodup, ?_, ?_⟩
  · intro tag ht
    exact h.lt tag (htags.mem_iff.mpr ht)
  · intro r hr
    exact h.tagged r (hp.mem_iff.mpr hr)

theorem Owned.of_tags {rs rs' : List Request} {b b' : Book} {n : Nat} (h : Owned ⟨rs, b, n⟩)
    (htags : rs'.map Request.tag = rs.map Request.tag) (hc : b'.completed = b.completed)
    (ht : ∀ r ∈ rs', r.tagged) : Owned ⟨rs', b', n⟩ := by
  refine ⟨?_, ?_, ht⟩
  · simpa only [htags, hc] using h.nodup
  · simpa only [htags, hc] using h.lt

theorem Owned.ne_tag {r r' : Request} {rs : List Request} {b : Book} {n : Nat}
    (h : Owned ⟨r :: rs, b, n⟩) (hr : r' ∈ rs) : r'.tag ≠ r.tag := by
  have hn := (List.nodup_append.mp h.nodup).1
  rw [List.map_cons, List.nodup_cons] at hn
  intro he
  exact hn.1 (he ▸ List.mem_map_of_mem hr)

theorem Owned.of_drop {r : Request} {rs : List Request} {b : Book} {n : Nat}
    (h : Owned ⟨r :: rs, b, n⟩) : Owned ⟨rs, b, n⟩ := by
  refine ⟨?_, ?_, ?_⟩
  · have := h.nodup
    rw [List.map_cons, List.cons_append, List.nodup_cons] at this
    exact this.2
  · intro tag ht
    exact h.lt tag (by rw [List.map_cons, List.cons_append]; exact List.mem_cons_of_mem _ ht)
  · intro r' hr
    exact h.tagged r' (List.mem_cons_of_mem _ hr)

theorem tag_setContainer (id : MsgId) (r : Request) : (Sender.setContainer id r).tag = r.tag := by
  unfold Sender.setContainer
  split <;> rfl

theorem tag_markSent (r : Request) : (Sender.markSent r).tag = r.tag := by
  unfold Sender.markSent
  split <;> rfl

theorem result_setContainer (id : MsgId) (r : Request) :
    (Sender.setContainer id r).result = r.result := by
  unfold Sender.setContainer
  split <;> rfl

theorem result_markSent (r : Request) : (Sender.markSent r).result = r.result := by
  unfold Sender.markSent
  split <;> rfl

theorem Owned.step {l l' : Ledger} (h : Owned l) (hs : Step l l') : Owned l' := by
  cases hs with
  | perm hp => exact h.of_perm hp
  | @enqueue rs b n r htag hr hretries hstate =>
    refine ⟨?_, ?_, ?_⟩
    · rw [List.map_cons, List.cons_append, List.nodup_cons]
      refine ⟨?_, h.nodup⟩
      intro hmem
      have := h.lt _ hmem
      simp only [htag] at this
      omega
    · intro tag ht
      rw [List.map_cons, List.cons_append, List.mem_cons] at ht
      rcases ht with rfl | ht
      · simp only [htag]
        omega
      · exact Nat.lt_succ_of_lt (h.lt tag ht)
    · intro r' hr'
      rcases List.mem_cons.mp hr' with rfl | hr'
      · exact hr
      · exact h.tagged r' hr'
  | skip => exact ⟨h.nodup, fun tag ht => Nat.lt_succ_of_lt (h.lt tag ht), h.tagged⟩
  | @refuse rs b n outcome =>
    refine ⟨?_, ?_, h.tagged⟩
    · simp only [Book.note, List.map_append, List.map_cons, List.map_nil]
      rw [← List.append_assoc, List.nodup_append]
      refine ⟨h.nodup, List.nodup_singleton _, ?_⟩
      rintro a ha c hc rfl
      have := h.lt a ha
      simp only [List.mem_singleton] at hc
      simp only [hc] at this
      omega
    · intro tag ht
      simp only [Book.note, List.map_append, List.map_cons, List.map_nil] at ht
      rw [← List.append_assoc, List.mem_append, List.mem_singleton] at ht
      rcases ht with ht | rfl
      · exact Nat.lt_succ_of_lt (h.lt tag ht)
      · exact Nat.lt_succ_self _
  | drop => exact h.of_drop
  | @complete rs b n r tx outcome hresult =>
    have htx : tx = r.tag := h.tagged r List.mem_cons_self tx hresult
    have hperm : (rs.map Request.tag ++ (b.note (.completed tx outcome)).completed.map Prod.fst).Perm
        ((r :: rs).map Request.tag ++ b.completed.map Prod.fst) := by
      simp only [Book.note, List.map_append, List.map_cons, List.map_nil, htx]
      rw [← List.append_assoc, List.cons_append]
      exact List.perm_append_singleton _ _
    refine ⟨hperm.nodup_iff.mpr h.nodup, ?_, ?_⟩
    · intro tag ht
      exact h.lt tag (hperm.mem_iff.mp ht)
    · intro r' hr
      exact h.tagged r' (List.mem_cons_of_mem _ hr)
  | @push rs b n r msgId hstate hid =>
    refine h.of_tags (by simp) rfl ?_
    intro r' hr
    rcases List.mem_cons.mp hr with rfl | hr
    · exact h.tagged r List.mem_cons_self
    · exact h.tagged r' (List.mem_cons_of_mem _ hr)
  | finalize id =>
    refine h.of_tags (by simp [tag_setContainer]) rfl ?_
    intro r' hr'
    obtain ⟨r, hr, rfl⟩ := List.mem_map.mp hr'
    simpa only [Request.tagged, tag_setContainer, result_setContainer] using h.tagged r hr
  | write count => exact ⟨h.nodup, h.lt, h.tagged⟩
  | flush hid =>
    refine h.of_tags (by simp [tag_markSent]) rfl ?_
    intro r' hr'
    obtain ⟨r, hr, rfl⟩ := List.mem_map.mp hr'
    simpa only [Request.tagged, tag_markSent, result_markSent] using h.tagged r hr
  | reject id => exact ⟨h.nodup, h.lt, h.tagged⟩
  | @retry rs b n r pair id hstate hnames hnotice hretries =>
    refine h.of_tags (by simp) rfl ?_
    intro r' hr
    rcases List.mem_cons.mp hr with rfl | hr
    · exact h.tagged r List.mem_cons_self
    · exact h.tagged r' (List.mem_cons_of_mem _ hr)

end Ledger

end Grammers
