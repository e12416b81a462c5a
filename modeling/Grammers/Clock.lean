import Mathlib.Data.List.Count
import Mathlib.Data.Int.Lemmas

namespace Grammers

/-- What message identifiers and sequence numbers are taken from. -/
structure Clock where
  lastMsgId : Int64
  timeOffset : Int64
  sequence : Int32

/-- The seconds and nanoseconds read for a message, and whether it is related to content. -/
structure Taking where
  reading : Nat × Nat
  contentRelated : Bool

/-- What a message is given. -/
structure Stamp where
  msgId : Int64
  seqNo : Int32
  contentRelated : Bool
  deriving DecidableEq

namespace Clock

/-- The identifier of an instant. -/
def instantId (c : Clock) (reading : Nat × Nat) : Int64 :=
  let now := Int64.ofNat (min reading.1 Int64.maxValue.toInt.toNat)
  let seconds := (max (Int64.ofIntClamp (now.toInt + c.timeOffset.toInt)) 0).toUInt64
  ((seconds <<< 32) ||| (UInt64.ofNat reading.2 <<< 2)).toInt64

/-- A message is stamped: its identifier is that of the instant if it is ahead of the last. -/
def take (c : Clock) (t : Taking) : Stamp × Clock :=
  let msgId := if c.lastMsgId ≥ c.instantId t.reading then c.lastMsgId + 4 else c.instantId t.reading
  if t.contentRelated then
    (⟨msgId, c.sequence + 2 - 1, true⟩, { c with lastMsgId := msgId, sequence := c.sequence + 2 })
  else (⟨msgId, c.sequence, false⟩, { c with lastMsgId := msgId })

def stamps (c : Clock) : List Taking → List Stamp × Clock
  | [] => ([], c)
  | t :: ts => ((c.take t).1 :: ((c.take t).2.stamps ts).1, ((c.take t).2.stamps ts).2)

theorem stamps_append (c : Clock) (ts ts' : List Taking) : c.stamps (ts ++ ts') =
    ((c.stamps ts).1 ++ ((c.stamps ts).2.stamps ts').1, ((c.stamps ts).2.stamps ts').2) := by
  induction ts generalizing c with
  | nil => rfl
  | cons t ts ih => simp only [List.cons_append, stamps, ih]

/-- One message is stamped after the other on the way from a clock to another. -/
def Stamps (c : Clock) (given : List Stamp) (c' : Clock) : Prop :=
  ∃ ts, c.stamps ts = (given, c')

namespace Stamps

variable {c c' c'' : Clock} {given given' : List Stamp}

theorem refl (c : Clock) : Stamps c [] c := ⟨[], rfl⟩

theorem trans (h : Stamps c given c') (h' : Stamps c' given' c'') :
    Stamps c (given ++ given') c'' := by
  obtain ⟨ts, hts⟩ := h
  obtain ⟨ts', hts'⟩ := h'
  refine ⟨ts ++ ts', ?_⟩
  rw [stamps_append, hts]
  simp only [hts']

theorem single (c : Clock) (t : Taking) : Stamps c [(c.take t).1] (c.take t).2 := ⟨[t], rfl⟩

end Stamps

/-- A clock after a stamp. -/
def after (c : Clock) (st : Stamp) : Clock :=
  { c with
    lastMsgId := st.msgId
    sequence := if st.contentRelated then c.sequence + 2 else c.sequence }

/-- Room for a stamp: the next identifier and the next sequence number do not overflow. -/
def Room (c : Clock) (contentRelated : Bool) : Prop :=
  c.lastMsgId.toInt + 4 < 2 ^ 63 ∧ (contentRelated = true → c.sequence.toInt + 2 < 2 ^ 31)

instance (c : Clock) (contentRelated : Bool) : Decidable (c.Room contentRelated) :=
  inferInstanceAs (Decidable (_ ∧ _))

/-- Room for one stamp after the other. -/
def AllRoom (c : Clock) : List Stamp → Prop
  | [] => True
  | st :: sts => c.Room st.contentRelated ∧ (c.after st).AllRoom sts

instance decidableAllRoom : ∀ (given : List Stamp) (c : Clock), Decidable (c.AllRoom given)
  | [], _ => inferInstanceAs (Decidable True)
  | _ :: given, _ => letI := decidableAllRoom given; inferInstanceAs (Decidable (_ ∧ _))

/-- The last identifier is one that a message of a client may have, or none. -/
def Sane (c : Clock) : Prop := 0 ≤ c.lastMsgId.toInt ∧ c.lastMsgId.toInt % 4 = 0

/-- Identifiers of messages of a client, ever larger, and sequence numbers that count the messages
related to content twice, with one more for such a message. -/
structure Proper (sequence : Int) (given : List Stamp) : Prop where
  positive : ∀ st ∈ given, 0 < st.msgId.toInt ∧ st.msgId.toInt % 4 = 0
  increasing : given.Pairwise fun a b => a.msgId < b.msgId
  numbered : ∀ n st, given[n]? = some st → st.seqNo.toInt =
    sequence + 2 * (given.take n).countP (·.contentRelated) + if st.contentRelated then 1 else 0

theorem shifted_mod (a b : UInt64) : ((a <<< 32) ||| (b <<< 2)).toNat % 4 = 0 := by
  have hor := Nat.or_mod_two_pow (a := (a <<< 32).toNat) (b := (b <<< 2).toNat) (n := 2)
  have ha : (a <<< 32).toNat % 2 ^ 2 = 0 := by
    simp only [UInt64.toNat_shiftLeft, UInt64.reduceToNat, Nat.shiftLeft_eq, Nat.reduceMod,
      Nat.reducePow]
    omega
  have hb : (b <<< 2).toNat % 2 ^ 2 = 0 := by
    simp only [UInt64.toNat_shiftLeft, UInt64.reduceToNat, Nat.shiftLeft_eq, Nat.reduceMod,
      Nat.reducePow]
    omega
  rw [ha, hb] at hor
  rw [UInt64.toNat_or]
  exact hor

theorem toInt_toInt64_mod {x : UInt64} (h : x.toNat % 4 = 0) : x.toInt64.toInt % 4 = 0 := by
  have hx : x.toInt64.toInt = (x.toNat : Int).bmod (2 ^ 64) := BitVec.toInt_eq_toNat_bmod x.toBitVec
  rw [hx, Int.bmod_def]
  split <;> omega

theorem toInt_add_four {x : Int64} (h : x.toInt + 4 < 2 ^ 63) : (x + 4).toInt = x.toInt + 4 := by
  have hlow := Int64.le_toInt x
  rw [Int64.toInt_add]
  exact Int.bmod_eq_of_le (by simp; omega) (by simp; omega)
theorem instantId_mod (c : Clock) (reading : Nat × Nat) : (c.instantId reading).toInt % 4 = 0 :=
  toInt_toInt64_mod (shifted_mod _ _)

theorem take_msgId (c : Clock) (t : Taking) : (c.take t).1.msgId =
    if c.lastMsgId ≥ c.instantId t.reading then c.lastMsgId + 4 else c.instantId t.reading := by
  unfold take
  simp only
  split
  next => rfl
  next => rfl

theorem take_lastMsgId (c : Clock) (t : Taking) : (c.take t).2.lastMsgId = (c.take t).1.msgId := by
  unfold take
  simp only
  split
  next => rfl
  next => rfl

theorem take_after (c : Clock) (t : Taking) : (c.take t).2 = c.after (c.take t).1 := by
  unfold take after
  simp only
  split
  next => rfl
  next => rfl

/-- A stamp that there is room for is ahead of the last. -/
theorem take_ahead {c : Clock} {t : Taking} (hs : c.Sane) (hf : c.Room t.contentRelated) :
    c.lastMsgId.toInt < (c.take t).1.msgId.toInt ∧ (c.take t).1.msgId.toInt % 4 = 0 := by
  obtain ⟨hnonneg, hmod⟩ := hs
  rw [take_msgId]
  split
  next =>
    rw [toInt_add_four hf.1]
    omega
  next hahead =>
    exact ⟨Int64.lt_iff_toInt_lt.mp (Int64.not_le.mp hahead), instantId_mod c t.reading⟩

theorem take_sane {c : Clock} {t : Taking} (hs : c.Sane) (hf : c.Room t.contentRelated) :
    (c.take t).2.Sane := by
  obtain ⟨hahead, hmod⟩ := take_ahead hs hf
  have hnonneg := hs.1
  refine ⟨?_, ?_⟩
  · rw [take_lastMsgId]
    omega
  · rw [take_lastMsgId]
    exact hmod

theorem take_contentRelated (c : Clock) (t : Taking) :
    (c.take t).1.contentRelated = t.contentRelated := by
  unfold take
  cases h : t.contentRelated with
  | true => rfl
  | false => rfl

theorem toInt_add32 {x y : Int32} (hlow : -2 ^ 31 ≤ x.toInt + y.toInt)
    (hhigh : x.toInt + y.toInt < 2 ^ 31) : (x + y).toInt = x.toInt + y.toInt := by
  rw [Int32.toInt_add]
  exact Int.bmod_eq_of_le (by simp; omega) (by simp; omega)

/-- A stamp that there is room for has the next sequence number. -/
theorem take_numbered {c : Clock} {t : Taking} (hf : c.Room t.contentRelated) :
    (c.take t).1.seqNo.toInt = c.sequence.toInt + (if t.contentRelated then 1 else 0) ∧
      (c.take t).2.sequence.toInt = c.sequence.toInt + (if t.contentRelated then 2 else 0) := by
  have hlow := Int32.le_toInt c.sequence
  unfold take
  cases h : t.contentRelated with
  | true =>
    have hroom := hf.2 h
    have htwo : (c.sequence + 2).toInt = c.sequence.toInt + 2 :=
      toInt_add32 (y := 2) (by simp; omega) (by simp; omega)
    have hone : (c.sequence + 2 - 1).toInt = c.sequence.toInt + 1 := by
      rw [Int32.sub_eq_add_neg, toInt_add32 (y := -1) (by rw [htwo]; simp; omega)
        (by rw [htwo]; simp; omega), htwo]
      simp
      omega
    simp [htwo, hone]
  | false => simp

theorem proper_stamps (ts : List Taking) : ∀ {c : Clock}, c.Sane → c.AllRoom (c.stamps ts).1 →
    Proper c.sequence.toInt (c.stamps ts).1 ∧ (c.stamps ts).2.Sane ∧
      ∀ st ∈ (c.stamps ts).1, c.lastMsgId < st.msgId := by
  induction ts with
  | nil =>
    intro c hs _
    exact ⟨⟨by simp [stamps], by simp [stamps], by simp [stamps]⟩, hs, by simp [stamps]⟩
  | cons t ts ih =>
    intro c hs hf
    obtain ⟨hone, hrest⟩ := hf
    rw [take_contentRelated] at hone
    rw [← take_after] at hrest
    obtain ⟨hahead, hmod⟩ := take_ahead hs hone
    obtain ⟨hseq, hnext⟩ := take_numbered hone
    obtain ⟨hproper, hsane, hlast⟩ := ih (take_sane hs hone) hrest
    rw [take_lastMsgId] at hlast
    have hnonneg := hs.1
    simp only [stamps]
    refine ⟨⟨?_, ?_, ?_⟩, hsane, ?_⟩
    · intro st hst
      rcases List.mem_cons.mp hst with rfl | hst
      · exact ⟨by omega, hmod⟩
      · exact hproper.positive st hst
    · exact List.pairwise_cons.mpr ⟨hlast, hproper.increasing⟩
    · intro n st hst
      cases n with
      | zero =>
        simp only [List.getElem?_cons_zero, Option.some.injEq] at hst
        subst hst
        rw [hseq, take_contentRelated]
        simp
      | succ n =>
        rw [List.getElem?_cons_succ] at hst
        rw [hproper.numbered n st hst, hnext, List.take_succ_cons, List.countP_cons,
          take_contentRelated]
        cases t.contentRelated with
        | true =>
          simp
          omega
        | false => simp
    · intro st hst
      rcases List.mem_cons.mp hst with rfl | hst
      · exact Int64.lt_iff_toInt_lt.mpr hahead
      · have := Int64.lt_iff_toInt_lt.mp (hlast st hst)
        exact Int64.lt_iff_toInt_lt.mpr (by omega)

theorem Stamps.proper {c c' : Clock} {given : List Stamp} (h : c.Stamps given c') (hs : c.Sane)
    (hroom : c.AllRoom given) : Proper c.sequence.toInt given ∧ c'.Sane := by
  obtain ⟨ts, hts⟩ := h
  have hp := proper_stamps ts hs (by rw [hts]; exact hroom)
  rw [hts] at hp
  exact ⟨hp.1, hp.2.1⟩

theorem Stamps.append_room {c c' : Clock} {given given' : List Stamp} (h : c.Stamps given c')
    (hroom : c.AllRoom given) (hroom' : c'.AllRoom given') : c.AllRoom (given ++ given') := by
  obtain ⟨ts, hts⟩ := h
  induction ts generalizing c given with
  | nil =>
    cases hts
    exact hroom'
  | cons t ts ih =>
    simp only [stamps, Prod.mk.injEq] at hts
    obtain ⟨rfl, hend⟩ := hts
    refine ⟨hroom.1, ?_⟩
    rw [← take_after]
    have hrest := hroom.2
    rw [← take_after] at hrest
    exact ih hrest (Prod.ext rfl hend)

end Clock

end Grammers
