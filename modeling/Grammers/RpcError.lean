import Grammers.JoinedWords
import Grammers.Mtp
import Grammers.Radix
import Grammers.Text

namespace Grammers

namespace Rpc

structure RpcError where
  code : Int32
  name : Text
  value : Option Nat
  causedBy : Option UInt32
  deriving DecidableEq

def parseU32 (text : Text) : Option Nat := (Radix.parse 10 (2 ^ 32) text).toOption

def isNotDigit (c : Char) : Bool := !c.isDigit

/-- The runs of digits of a text that denote a `u32`. -/
def numbers (text : Text) : List (Text × Nat) :=
  (text.splitOnP isNotDigit).filterMap fun value => (parseU32 value).map (value, ·)

def RpcError.fromTl (error : TlRpcError) : RpcError :=
  match (numbers error.errorMessage.toList).head? with
  | some (value, parsedValue) =>
    ⟨error.errorCode, TextSearch.replaceAll '_' value [] error.errorMessage.toList, some parsedValue,
      none⟩
  | none => ⟨error.errorCode, error.errorMessage.toList, none, none⟩

inductive IoErrorKind where
  | connectionRefused
  | connectionReset
  | connectionAborted
  | notConnected
  | brokenPipe
  | timedOut
  | unexpectedEof
  | networkDown
  | networkUnreachable
  | hostUnreachable
  | other
  deriving DecidableEq

def retryableIo (kind : IoErrorKind) : Bool := kind ≠ .other

inductive ReadError where
  | shared (error : ReadError)
  | io (kind : IoErrorKind)
  | other
  deriving DecidableEq

def ReadError.ioError : ReadError → Option IoErrorKind
  | .shared error => error.ioError
  | .io kind => some kind
  | .other => none

/-- The failures of an invocation, as far as its retries tell them apart. -/
inductive InvocationError where
  | shared (error : InvocationError)
  | read (error : ReadError) (mayHaveBeenSent : Bool)
  | rpc (error : RpcError)
  | io (kind : IoErrorKind)
  | deserialize
  | other
  deriving DecidableEq

def InvocationError.rootCause : InvocationError → InvocationError
  | .shared error => error.rootCause
  | error => error

/-- Nanoseconds. -/
abbrev Duration : Type := Nat

def Duration.fromSecs (secs : Nat) : Duration := secs * 1000000000

def Duration.asSecs (duration : Duration) : Nat := duration / 1000000000

def floodNames : List Text :=
  ["FLOOD_WAIT", "FLOOD_PREMIUM_WAIT", "SLOWMODE_WAIT", "FLOOD_TEST_PHONE_WAIT"].map String.toList

def InvocationError.retryAfter (error : InvocationError) : Option Duration :=
  match error.rootCause with
  | .rpc e => if 0 ≤ e.code ∧ e.name ∈ floodNames then e.value.map Duration.fromSecs else none
  | _ => none

structure AutoSleep where
  tries : Nat
  threshold : Duration
  ioErrorsAsFloodOf : Option Duration

/-- How long to wait before the next try, if there is one. -/
def AutoSleep.shouldRetry (policy : AutoSleep) (failCount : Nat) (error : InvocationError) :
    Option Duration :=
  match error.rootCause with
  | .read error false =>
    if failCount ≤ policy.tries ∧ error.ioError.any retryableIo then policy.ioErrorsAsFloodOf else none
  | .rpc ⟨code, _, some seconds, _⟩ =>
    if code = 420 ∧ failCount ≤ policy.tries ∧ seconds ≤ policy.threshold.asSecs then
      some (Duration.fromSecs seconds)
    else none
  | .io kind => if failCount ≤ policy.tries ∧ retryableIo kind then policy.ioErrorsAsFloodOf else none
  | _ => none

def DigitsOnly (word : Text) : Prop := word ≠ [] ∧ ∀ c ∈ word, c.isDigit = true

/-- A word of digits only that denotes a `u32`. -/
def Number (word : Text) (n : Nat) : Prop := DigitsOnly word ∧ parseU32 word = some n

def joined (words : List Text) : Text := JoinedWords.join '_' words

def errorOf (code : Int32) (words : List Text) : RpcError := .fromTl ⟨code, String.ofList (joined words)⟩

structure Words (words : List Text) : Prop where
  word : ∀ word ∈ words, word ≠ [] ∧ '_' ∉ word
  first : ∀ word ∈ words.head?, ¬DigitsOnly word

/-- The only number is the value and not in the name; what is not a number stays in the name; a value
is never in the name, which loses nothing else; and a wait is the number that the server wrote. -/
structure SplitOff (code : Int32) (words : List Text) : Prop where
  number : ∀ {before after : List Text} {d : Text} {n : Nat}, words = before ++ d :: after → Number d n →
    (∀ word ∈ before ++ after, ¬DigitsOnly word) →
      errorOf code words = ⟨code, joined (before ++ after), some n, none⟩
  plain : (∀ word ∈ words, ¬DigitsOnly word) → errorOf code words = ⟨code, joined words, none, none⟩
  name : match (errorOf code words).value with
    | some n => ∃ d ∈ words, Number d n ∧ (errorOf code words).name = joined (words.filter (· ≠ d))
    | none => (errorOf code words).name = joined words
  waits : ∀ {error : InvocationError}, error.rootCause = .rpc (errorOf code words) → ∀ {wait : Duration},
    (error.retryAfter = some wait ∨ ∃ (policy : AutoSleep) (failCount : Nat),
        policy.shouldRetry failCount error = some wait) →
      ∃ d ∈ words, ∃ n, Number d n ∧ wait = Duration.fromSecs n
  flood : ∀ {before after : List Text} {d : Text} {n : Nat}, words = before ++ d :: after → Number d n →
    (∀ word ∈ before ++ after, ¬DigitsOnly word) →
      ∀ {error : InvocationError}, error.rootCause = .rpc (errorOf code words) →
        (0 ≤ code → joined (before ++ after) ∈ floodNames →
            error.retryAfter = some (Duration.fromSecs n)) ∧
          ∀ (policy : AutoSleep) (failCount : Nat), code = 420 → failCount ≤ policy.tries →
            n ≤ policy.threshold.asSecs →
              policy.shouldRetry failCount error = some (Duration.fromSecs n)

/-- The first run of digits that denotes a `u32` is a word of its own, which no other word after the
first begins with. -/
def FirstIsWord (words : List Text) : Prop :=
  ∀ r ∈ ((words.flatMap numbers).head?).map Prod.fst, r ∈ words ∧ ∀ word ∈ words.tail, r <+: word → word = r

theorem not_mem_of_splitOnP {p : Char → Bool} {text piece : Text} (h : piece ∈ text.splitOnP p) :
    ∀ c ∈ piece, p c = false := by
  induction text generalizing piece with
  | nil =>
    obtain rfl : piece = [] := by simpa using h
    simp
  | cons c text ih =>
    rw [List.splitOnP_cons_eq_if_modifyHead] at h
    split at h
    · rcases List.mem_cons.mp h with rfl | h
      · simp
      · exact ih h
    next hc =>
      cases hsplit : text.splitOnP p with
      | nil => exact absurd hsplit (List.splitOnP_ne_nil p text)
      | cons first rest =>
        rw [hsplit, List.modifyHead_cons] at h
        rw [hsplit] at ih
        rcases List.mem_cons.mp h with rfl | h
        · exact List.forall_mem_cons.mpr ⟨by simpa using hc, ih List.mem_cons_self⟩
        · exact ih (List.mem_cons_of_mem _ h)

theorem number_of_mem {text r : Text} {n : Nat} (h : (r, n) ∈ numbers text) : Number r n := by
  obtain ⟨piece, hpiece, hparse⟩ := List.mem_filterMap.mp h
  obtain ⟨m, hm, heq⟩ := Option.map_eq_some_iff.mp hparse
  obtain ⟨rfl, rfl⟩ := Prod.mk.inj heq
  refine ⟨⟨fun hnil => ?_, fun c hc => ?_⟩, hm⟩
  · rw [hnil] at hm
    cases hm
  · simpa [isNotDigit] using not_mem_of_splitOnP hpiece c hc

theorem numbers_of_number {d : Text} {n : Nat} (h : Number d n) : numbers d = [(d, n)] := by
  have hone : d.splitOnP isNotDigit = [d] :=
    List.splitOnP_eq_singleton fun c hc => by simp [isNotDigit, h.1.2 c hc]
  simp [numbers, hone, h.2]

theorem numbers_joined (words : List Text) : numbers (joined words) = words.flatMap numbers := by
  cases words with
  | nil => rfl
  | cons word words =>
    rw [numbers, joined, JoinedWords.splitOnP_join (by decide), List.filterMap_flatMap]
    rfl

theorem Number.unique {d : Text} {n m : Nat} (h : Number d n) (h' : Number d m) : n = m :=
  Option.some.inj (h.2.symm.trans h'.2)

theorem DigitsOnly.not_mem {d : Text} (h : DigitsOnly d) : '_' ∉ d := fun hmem =>
  absurd (h.2 '_' hmem) (by decide)

theorem parse_of_digitsOnly {d : Text} (h : DigitsOnly d) :
    Radix.parse 10 (2 ^ 32) d = Radix.parseDigits 10 (2 ^ 32) 0 d := by
  cases d with
  | nil => exact absurd rfl h.1
  | cons c d =>
    have hc : c ≠ '+' := by
      rintro rfl
      exact absurd (h.2 '+' List.mem_cons_self) (by decide)
    unfold Radix.parse
    split
    next heq => cases heq
    next heq => exact absurd (List.cons.inj heq).1 hc
    next heq => exact absurd (List.cons.inj heq).1 hc
    next => rfl

/-- Numbers of one length and one value are written alike. -/
theorem Number.eq_of_length {a b : Text} {n : Nat} (ha : Number a n) (hb : Number b n)
    (hlen : a.length = b.length) : a = b := by
  have hvalue : ∀ {d : Text}, Number d n → Radix.parseDigits 10 (2 ^ 32) 0 d = .ok n := by
    intro d hd
    have hparse := hd.2
    rw [parseU32, parse_of_digitsOnly hd.1] at hparse
    cases hresult : Radix.parseDigits 10 (2 ^ 32) 0 d with
    | error e =>
      rw [hresult] at hparse
      cases hparse
    | ok m =>
      rw [hresult] at hparse
      obtain rfl : m = n := Option.some.inj hparse
      rfl
  exact Radix.parseDigits_inj hlen (hvalue ha) (hvalue hb)

theorem errorOf_eq (code : Int32) (words : List Text) : errorOf code words =
    match (words.flatMap numbers).head? with
    | some (value, parsedValue) =>
      ⟨code, TextSearch.replaceAll '_' value [] (joined words), some parsedValue, none⟩
    | none => ⟨code, joined words, none, none⟩ := by
  simp only [errorOf, RpcError.fromTl, String.toList_ofList, numbers_joined]

variable {code : Int32} {words : List Text}

/-- Whatever waits is the value of the error. -/
theorem wait_of_rootCause {error : InvocationError} {e : RpcError} (hroot : error.rootCause = .rpc e)
    {wait : Duration} (h : error.retryAfter = some wait ∨
      ∃ (policy : AutoSleep) (failCount : Nat), policy.shouldRetry failCount error = some wait) :
    ∃ n, e.value = some n ∧ wait = Duration.fromSecs n := by
  rcases h with h | ⟨policy, failCount, h⟩
  · rw [InvocationError.retryAfter, hroot] at h
    simp only [Option.ite_none_right_eq_some, Option.map_eq_some_iff] at h
    obtain ⟨-, n, hn, rfl⟩ := h
    exact ⟨n, hn, rfl⟩
  · rw [AutoSleep.shouldRetry, hroot] at h
    obtain ⟨code, name, value, causedBy⟩ := e
    cases value with
    | none => cases h
    | some n =>
      simp only [Option.ite_none_right_eq_some, Option.some.injEq] at h
      exact ⟨n, rfl, h.2.symm⟩

theorem filter_number {before after : List Text} {d : Text} (hd : DigitsOnly d)
    (hothers : ∀ word ∈ before ++ after, ¬DigitsOnly word) :
    (before ++ d :: after).filter (· ≠ d) = before ++ after := by
  have hkeep : ∀ {l : List Text}, (∀ word ∈ l, ¬DigitsOnly word) → l.filter (· ≠ d) = l :=
    fun h => List.filter_eq_self.mpr fun word hword => by
      have hne : word ≠ d := fun heq => h word hword (heq ▸ hd)
      simpa using hne
  rw [List.forall_mem_append] at hothers
  rw [List.filter_append, List.filter_cons_of_neg (by simp), hkeep hothers.1, hkeep hothers.2]

/-- What a number in the message says of the first run of digits that denotes one. -/
theorem exists_first {d : Text} {n : Nat} (hmem : d ∈ words) (hd : Number d n) :
    ∃ first, (words.flatMap numbers).head? = some first := by
  rw [← Option.isSome_iff_exists, List.isSome_head?, ne_eq, List.flatMap_eq_nil_iff]
  intro hnil
  exact absurd (numbers_of_number hd ▸ hnil d hmem) (by simp)

theorem flatMap_strip {r : Text} {words : List Text} (h : ∀ word ∈ words, r <+: word → word = r) :
    words.flatMap (JoinedWords.strip '_' r) = (words.filter (· ≠ r)).flatMap ('_' :: ·) := by
  induction words with
  | nil => rfl
  | cons word words ih =>
    obtain ⟨hword, hwords⟩ := List.forall_mem_cons.mp h
    rw [List.flatMap_cons, ih hwords, JoinedWords.strip]
    by_cases heq : word = r
    · subst heq
      rw [if_pos List.prefix_rfl, List.drop_length, List.filter_cons_of_neg (by simp), List.nil_append]
    · rw [if_neg fun hprefix => heq (hword hprefix), List.filter_cons_of_pos (by simpa using heq),
        List.flatMap_cons]

theorem number_mem_tail {word r : Text} {words : List Text} (hwords : Words (word :: words))
    (hr : DigitsOnly r) (hmem : r ∈ word :: words) : word ≠ r ∧ r ∈ words := by
  have hne : word ≠ r := fun heq => hwords.first word rfl (heq ▸ hr)
  exact ⟨hne, (List.mem_cons.mp hmem).resolve_left hne.symm⟩

theorem name_of_first {word r : Text} {words : List Text} (hwords : Words (word :: words))
    (hr : DigitsOnly r) : TextSearch.replaceAll '_' r [] (joined (word :: words)) =
      word ++ words.flatMap (JoinedWords.strip '_' r) := by
  have hall := List.forall_mem_cons.mp hwords.word
  exact JoinedWords.replaceAll_join hr.not_mem hall.1.2 fun w hw => (hall.2 w hw).2

theorem splitOff_of_firstIsWord (hwords : Words words) (h : FirstIsWord words) :
    SplitOff code words := by
  have hname : match (errorOf code words).value with
      | some n => ∃ d ∈ words, Number d n ∧
          errorOf code words = ⟨code, joined (words.filter (· ≠ d)), some n, none⟩
      | none => errorOf code words = ⟨code, joined words, none, none⟩ := by
    cases hfirst : (words.flatMap numbers).head? with
    | none => simp [errorOf_eq, hfirst]
    | some first =>
      obtain ⟨r, n⟩ := first
      obtain ⟨hmem, hprefix⟩ := h r (by simp [hfirst])
      obtain ⟨_, -, hnumbers⟩ := List.mem_flatMap.mp (List.mem_of_head? hfirst)
      have hnumber := number_of_mem hnumbers
      cases words with
      | nil => cases hmem
      | cons word words =>
        obtain ⟨hne, -⟩ := number_mem_tail hwords hnumber.1 hmem
        replace hprefix : ∀ w ∈ words, r <+: w → w = r := hprefix
        have herror : errorOf code (word :: words) =
            ⟨code, joined ((word :: words).filter (· ≠ r)), some n, none⟩ := by
          rw [errorOf_eq, hfirst]
          simp only
          rw [name_of_first hwords hnumber.1, flatMap_strip hprefix,
            List.filter_cons_of_pos (by simpa using hne)]
          rfl
        rw [herror]
        exact ⟨r, hmem, hnumber, rfl⟩
  have hone : ∀ {before after : List Text} {d : Text} {n : Nat}, words = before ++ d :: after →
      Number d n → (∀ word ∈ before ++ after, ¬DigitsOnly word) →
        errorOf code words = ⟨code, joined (before ++ after), some n, none⟩ := by
    intro before after d n heq hd hothers
    obtain ⟨first, hfirst⟩ := exists_first (heq ▸ List.mem_append_right _ List.mem_cons_self) hd
    have hvalue : (errorOf code words).value = some first.2 := by rw [errorOf_eq, hfirst]
    rw [hvalue] at hname
    obtain ⟨r, hmem, hr, herror⟩ := hname
    obtain rfl : r = d := by
      by_contra hne
      refine hothers r ?_ hr.1
      rw [heq, List.mem_append, List.mem_cons] at hmem
      exact List.mem_append.mpr (hmem.imp_right fun h => h.resolve_left hne)
    rw [herror, hr.unique hd, heq, filter_number hd.1 hothers]
  refine ⟨hone, fun hplain => ?_, ?_, fun {error} hroot {wait} hwait => ?_, ?_⟩
  · cases hvalue : (errorOf code words).value with
    | none =>
      rw [hvalue] at hname
      exact hname
    | some n =>
      rw [hvalue] at hname
      obtain ⟨d, hmem, hd, -⟩ := hname
      exact absurd hd.1 (hplain d hmem)
  · cases hvalue : (errorOf code words).value with
    | none =>
      rw [hvalue] at hname
      simp only [hname]
    | some n =>
      rw [hvalue] at hname
      obtain ⟨d, hmem, hd, herror⟩ := hname
      exact ⟨d, hmem, hd, by rw [herror]⟩
  · obtain ⟨n, hn, rfl⟩ := wait_of_rootCause hroot hwait
    rw [hn] at hname
    obtain ⟨d, hmem, hd, -⟩ := hname
    exact ⟨d, hmem, n, hd, rfl⟩
  · intro before after d n heq hd hothers error hroot
    rw [hone heq hd hothers] at hroot
    refine ⟨fun hcode hflood => ?_, fun policy failCount hcode htries hthreshold => ?_⟩
    · rw [InvocationError.retryAfter, hroot]
      simp [hcode, hflood]
    · rw [AutoSleep.shouldRetry, hroot]
      simp [hcode, htries, hthreshold]

theorem firstIsWord_of_splitOff (hwords : Words words) (h : SplitOff code words) :
    FirstIsWord words := by
  intro r hr
  obtain ⟨⟨r', n⟩, hfirst, hsecond⟩ := Option.map_eq_some_iff.mp hr
  obtain rfl : r = r' := hsecond.symm
  obtain ⟨_, -, hnumbers⟩ := List.mem_flatMap.mp (List.mem_of_head? hfirst)
  have hnumber := number_of_mem hnumbers
  have hname := h.name
  cases words with
  | nil => cases hfirst
  | cons word words =>
    rw [errorOf_eq, hfirst] at hname
    obtain ⟨d, hmem, hd, hname⟩ := hname
    obtain ⟨hne, htail⟩ := number_mem_tail hwords hd.1 hmem
    simp only at hname
    rw [name_of_first hwords hnumber.1, List.filter_cons_of_pos (by simpa using hne)] at hname
    have hsame : words.flatMap (JoinedWords.strip '_' r) =
        (words.filter (· ≠ d)).flatMap ('_' :: ·) := List.append_cancel_left hname
    have hfree : ∀ w ∈ words, '_' ∉ w := fun w hw => (hwords.word w (List.mem_cons_of_mem _ hw)).2
    have hcount : words.countP (r <+: ·) = words.count d := by
      have hstrip := @JoinedWords.count_strip _ '_' r _ _ hfree
      have hfilter := @JoinedWords.count_filter_ne _ '_' d _ _ hfree
      rw [hsame] at hstrip
      exact Nat.add_left_cancel (hstrip.trans hfilter.symm)
    have hlength : r.length = d.length := by
      have hstrip := @JoinedWords.length_strip _ '_' r words _
      have hfilter := @JoinedWords.length_filter_ne _ '_' d words _
      rw [hsame, hcount] at hstrip
      have hpos : 0 < words.count d := List.count_pos_iff.mpr htail
      have hmul := Nat.add_left_cancel (hstrip.trans hfilter.symm)
      exact Nat.succ_injective (Nat.eq_of_mul_eq_mul_right hpos hmul)
    obtain rfl : r = d := hnumber.eq_of_length hd hlength
    refine ⟨hmem, fun w hw hprefix => ?_⟩
    have hsub : (words.filter (· == r)).Sublist (words.filter (r <+: ·)) :=
      List.monotone_filter_right _ fun x hx => by
        obtain rfl : x = r := by simpa using hx
        simp
    have heq := hsub.eq_of_length (by
      rw [← List.countP_eq_length_filter, ← List.countP_eq_length_filter, hcount]
      rfl)
    have hin : w ∈ words.filter (· == r) := heq ▸ List.mem_filter.mpr ⟨hw, by simpa using hprefix⟩
    simpa using (List.mem_filter.mp hin).2

/-- The value of an error message is split off exactly when the first run of digits that denotes a
`u32` is a word of its own, which no other word after the first begins with. -/
theorem value_split_off_iff (code : Int32) (hwords : Words words) :
    SplitOff code words ↔ FirstIsWord words :=
  ⟨firstIsWord_of_splitOff hwords, splitOff_of_firstIsWord hwords⟩

def floodWait : List Text := ["FLOOD".toList, "WAIT".toList, "31".toList]

theorem floodWait_value :
    Words floodWait ∧ (SplitOff 420 floodWait ↔ FirstIsWord floodWait) := by
  have hwords : Words floodWait := ⟨by decide, by simp [floodWait, DigitsOnly]⟩
  exact ⟨hwords, value_split_off_iff 420 hwords⟩

def passwordNeeded : List Text := ["SESSION".toList, "2FA".toList, "NEEDED".toList]

/-- The digit of a word that is not a number is taken for one. -/
theorem mixed_word_loses_digit :
    Words passwordNeeded ∧ (∀ word ∈ passwordNeeded, ¬DigitsOnly word) ∧
      errorOf 400 passwordNeeded = ⟨400, "SESSIONFA_NEEDED".toList, some 2, none⟩ ∧
      ¬SplitOff 400 passwordNeeded := by
  have hwords : Words passwordNeeded := ⟨by decide, by simp [passwordNeeded, DigitsOnly]⟩
  have hplain : ∀ word ∈ passwordNeeded, ¬DigitsOnly word := by simp [passwordNeeded, DigitsOnly]
  have hfirst : (passwordNeeded.flatMap numbers).head? = some (['2'], 2) := by decide
  have herror : errorOf 400 passwordNeeded = ⟨400, "SESSIONFA_NEEDED".toList, some 2, none⟩ := by
    rw [errorOf_eq, hfirst]
    simp only
    rw [passwordNeeded, name_of_first hwords ⟨by decide, by simp⟩]
    decide
  refine ⟨hwords, hplain, herror, fun h => ?_⟩
  have hvalue := congrArg RpcError.value ((h.plain hplain).symm.trans herror)
  cases hvalue

end Rpc

end Grammers
