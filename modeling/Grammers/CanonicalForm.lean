import Grammers.InferId

namespace Grammers

open TextSearch

namespace TlParser

/-- A definition on one line without an identifier: its name, its parameters and, behind the sign of
equality, its type. -/
structure Line where
  name : Text
  params : List Text
  result : List Text
  tokens : ∀ token ∈ name :: (params ++ result), token ≠ [] ∧ ∀ c ∈ token, isWhiteSpace c = false
  equality : ∀ token ∈ name :: params, '=' ∉ token
  inferred : '#' ∉ name
  typed : result ≠ []

namespace Line

/-- The tokens that follow the name, and which of them are parameters. -/
def rest (line : Line) : List (Bool × Text) :=
  line.params.map (true, ·) ++ (false, ['=']) :: line.result.map (false, ·)

def text (line : Line) : Text := unwords (line.name :: line.rest.map Prod.snd)

end Line

/-! The canonical form of a line. -/

def isNameChar (c : Char) : Bool := c ∉ "<>{}:?".toList

def isName (text : Text) : Bool := text ≠ [] && text.all isNameChar

def isIndex (text : Text) : Bool := text ≠ [] && text.all Char.isDigit

/-- A parameter `name:flags.N?true`, for what is taken for the name of flags. -/
def isTrueParam (flagsName : Text → Bool) (param : Text) : Bool :=
  match splitOnce (· = ':') param with
  | none => false
  | some (name, ty) =>
    match splitOnce (· = '?') ty with
    | none => false
    | some (flag, ty) =>
      match splitOnce (· = '.') flag with
      | none => false
      | some (flags, index) =>
        ty = "true".toList && isName name && isName flags && flagsName flags && isIndex index

def stringed (ty : Text) : Text := if ty = "bytes".toList then "string".toList else ty

/-- A parameter with the type `bytes` written `string`, whether it is conditional or not. -/
def written (param : Text) : Text :=
  match splitOnce (· = ':') param with
  | none => param
  | some (name, ty) =>
    match splitOnce (· = '?') ty with
    | none => name ++ ':' :: stringed ty
    | some (flag, ty) => name ++ ':' :: flag ++ '?' :: stringed ty

/-- An opening angle bracket becomes a space, and the other brackets are removed. -/
def bracketless (text : Text) : Text :=
  text.flatMap fun c => if c = '<' then [' '] else if c ∈ ">{}".toList then [] else [c]

def shown (flagsName : Text → Bool) : Bool × Text → Option Text
  | (true, param) =>
    if isTrueParam flagsName param then none else some (bracketless (written param))
  | (false, token) => some (bracketless token)

def canonical (flagsName : Text → Bool) (line : Line) : Text :=
  unwords (bracketless line.name :: line.rest.filterMap (shown flagsName))

/-- No parameter has the type `bytes`, and no type but those of the parameters that are removed
starts with `true`. -/
structure Plain (flagsName : Text → Bool) (line : Line) : Prop where
  bytes : ¬ ":bytes ".toList <:+: line.text
  conditional : ¬ "?bytes ".toList <:+: line.text
  name : ¬trueFlag <:+: bracketless line.name
  rest : ∀ token ∈ line.rest, (token.1 = true ∧ isTrueParam flagsName token.2 = true) ∨
    ¬trueFlag <:+: bracketless token.2

theorem replaceBrackets_eq (text : Text) : replaceBrackets text = bracketless text := by
  simp only [replaceBrackets, replaceChar, bracketless, List.flatMap_assoc]
  congr 1
  funext c
  by_cases hless : c = '<'
  · subst hless
    rfl
  · by_cases hother : c ∈ ">{}".toList
    · rw [if_neg hless, if_neg hless, if_pos hother]
      have hcases : c = '>' ∨ c = '{' ∨ c = '}' := by simpa using hother
      rcases hcases with rfl | rfl | rfl <;> rfl
    · have hne : c ≠ '>' ∧ c ≠ '{' ∧ c ≠ '}' := by simpa using hother
      simp [hless, hne]

theorem bracketless_append (a b : Text) : bracketless (a ++ b) = bracketless a ++ bracketless b :=
  List.flatMap_append

theorem bracketless_eq {text : Text} (h : ∀ c ∈ text, c ∉ "<>{}".toList) :
    bracketless text = text := by
  induction text with
  | nil => rfl
  | cons c text ih =>
    rw [List.forall_mem_cons] at h
    have hne : c ≠ '<' ∧ c ≠ '>' ∧ c ≠ '{' ∧ c ≠ '}' := by simpa using h.1
    have hcons : bracketless (c :: text) = bracketless [c] ++ bracketless text :=
      bracketless_append [c] text
    rw [hcons, ih h.2]
    simp [bracketless, hne]

/-! The removal, one token after another. -/

/-- A text without a type that is removed. -/
abbrev Clean (text : Text) : Prop := ¬trueFlag <:+: text

theorem question_notMem : '?' ∉ "true".toList := by decide

theorem Clean.of_part {a b : Text} (hb : Clean b) (h : a <:+: b) : Clean a :=
  fun ha => hb (ha.trans h)

/-- Two texts with a space between them. -/
theorem Clean.append {a b : Text} (ha : Clean a) (hb : Clean b)
    (hspace : b = [] ∨ b.head? = some ' ') : Clean (a ++ b) := by
  rintro ⟨x, y, h⟩
  obtain ⟨y', hy', -⟩ | ⟨x', -, hx'⟩ := infix_split h (by
    intro d hd
    rcases hspace with rfl | hspace
    · cases hd
    · rw [hspace] at hd
      cases hd
      decide)
  · exact ha ⟨x, y', hy'.symm⟩
  · exact hb ⟨x', y, hx'.symm⟩

theorem removeTrue_of_clean {text : Text} (h : Clean text) : removeTrue text = text := by
  rw [removeTrue]
  split
  next => rfl
  next before after hsome => exact absurd ⟨before, after, (dropInfix?_eq hsome).symm⟩ h

theorem clean_removeTrue (text : Text) : Clean (removeTrue text) := by
  induction text using removeTrue.induct with
  | case1 text hnone =>
    have hclean := dropInfix?_eq_none_iff.mp hnone
    rwa [removeTrue_of_clean hclean]
  | case2 text before after hsome ih =>
    rw [removeTrue]
    split
    next hnone => rw [hsome] at hnone; cases hnone
    next before' after' hsome' =>
      rw [hsome] at hsome'
      cases hsome'
      exact ih

/-- One step: from the last space on, as far as the first type that is removed. -/
theorem removeTrue_step {p a b : Text} (hp : Clean (p ++ ' ' :: a)) (ha : ' ' ∉ a) :
    removeTrue (p ++ ' ' :: a ++ trueFlag ++ b) = removeTrue (p ++ b) := by
  have hdrop : (p ++ ' ' :: a ++ trueFlag ++ b).dropInfix? trueFlag =
      some (p ++ ' ' :: a, b) := dropInfix?_append question_notMem hp
  have hsplit : rsplitOnce isSpace (p ++ ' ' :: a) = some (p, a) :=
    rsplitOnce_append (fun c hc => decide_eq_false fun h => ha (h ▸ hc)) rfl
  rw [removeTrue]
  split
  next hnone => rw [hdrop] at hnone; cases hnone
  next before after' hsome =>
    rw [hdrop] at hsome
    cases hsome
    rw [hsplit]
    rfl

/-- A token that ends in what is removed. -/
def Removed (token : Text) : Prop := ∃ a, token = a ++ trueFlag ∧ '?' ∉ a ∧ ' ' ∉ a

/-- Which of some tokens are kept. -/
inductive Kept : List Text → List Text → Prop
  | nil : Kept [] []
  | keep {token : Text} {tokens tokens' : List Text} : Clean token → Kept tokens tokens' →
      Kept (token :: tokens) (token :: tokens')
  | remove {token : Text} {tokens tokens' : List Text} : Removed token → Kept tokens tokens' →
      Kept (token :: tokens) tokens'

theorem clean_of_notMem {a : Text} (h : '?' ∉ a) : Clean a := by
  rintro ⟨x, y, rfl⟩
  exact h (by simp [trueFlag])

theorem clean_cons_space {token : Text} (h : Clean token) : Clean (' ' :: token) := by
  rintro ⟨x, y, hxy⟩
  obtain ⟨x', -, htoken⟩ := infix_skip (a := [' ']) (b := token) hxy (by decide)
  exact h ⟨x', y, htoken.symm⟩

/-- The tokens in front are removed or kept, whatever follows them. -/
theorem Kept.removeTrue {tokens tokens' : List Text} (h : Kept tokens tokens') {p : Text}
    (hp : Clean p) (after : Text) :
    Clean (p ++ tokens'.flatMap (' ' :: ·)) ∧
      removeTrue (p ++ tokens.flatMap (' ' :: ·) ++ after) =
        removeTrue (p ++ tokens'.flatMap (' ' :: ·) ++ after) := by
  induction h generalizing p with
  | nil => exact ⟨by simpa using hp, rfl⟩
  | @keep token tokens tokens' htoken _ ih =>
    have hnext := ih (hp.append (clean_cons_space htoken) (.inr rfl))
    simpa only [List.flatMap_cons, List.append_assoc] using hnext
  | @remove token tokens tokens' htoken _ ih =>
    obtain ⟨a, rfl, hquestion, hspace⟩ := htoken
    obtain ⟨hclean, hnext⟩ := ih hp
    refine ⟨hclean, ?_⟩
    rw [← hnext]
    have hstep := removeTrue_step (b := tokens.flatMap (' ' :: ·) ++ after)
      (hp.append (clean_cons_space (clean_of_notMem hquestion)) (.inr rfl)) hspace
    simpa only [List.flatMap_cons, List.append_assoc, List.cons_append] using hstep

/-! What becomes of a token in the canonical form. -/

variable {flagsName : Text → Bool}

theorem isName_chars {text : Text} (h : isName text = true) :
    ∀ c ∈ text, c ∉ "<>{}:?".toList := by
  rw [isName, Bool.and_eq_true, List.all_eq_true] at h
  intro c hc
  simpa [isNameChar] using h.2 c hc

theorem isTrueParam_eq {param : Text} (h : isTrueParam flagsName param = true) :
    ∃ a, param = a ++ trueFlag ∧ '?' ∉ a ∧ ∀ c ∈ param, c ∉ "<>{}".toList := by
  unfold isTrueParam at h
  split at h
  next => cases h
  next name ty hname =>
    split at h
    next => cases h
    next flag ty' hflag =>
      split at h
      next => cases h
      next flags index hindex =>
        obtain ⟨s, hs, rfl, -⟩ := splitOnce_eq_some hname
        obtain ⟨s', hs', rfl, -⟩ := splitOnce_eq_some hflag
        obtain ⟨s'', hs'', rfl, -⟩ := splitOnce_eq_some hindex
        obtain rfl := of_decide_eq_true hs
        obtain rfl := of_decide_eq_true hs'
        obtain rfl := of_decide_eq_true hs''
        simp only [Bool.and_eq_true, decide_eq_true_eq] at h
        obtain ⟨⟨⟨⟨rfl, hnames⟩, hflags⟩, -⟩, hdigits⟩ := h
        have hname' := isName_chars hnames
        have hflags' := isName_chars hflags
        rw [isIndex, Bool.and_eq_true, List.all_eq_true] at hdigits
        have hindex' : ∀ c ∈ index, c ∉ "<>{}:?".toList := by
          intro c hc hmem
          have hdigit := hdigits.2 c hc
          revert hdigit
          have hcases : c = '<' ∨ c = '>' ∨ c = '{' ∨ c = '}' ∨ c = ':' ∨ c = '?' := by
            simpa using hmem
          rcases hcases with rfl | rfl | rfl | rfl | rfl | rfl <;> decide
        have hall : ∀ c ∈ name ++ ':' :: (flags ++ '.' :: index), c = ':' ∨ c ∉ "<>{}:?".toList := by
          intro c hc
          simp only [List.mem_append, List.mem_cons] at hc
          rcases hc with hc | rfl | hc | rfl | hc
          · exact .inr (hname' c hc)
          · exact .inl rfl
          · exact .inr (hflags' c hc)
          · exact .inr (by decide)
          · exact .inr (hindex' c hc)
        refine ⟨name ++ ':' :: (flags ++ '.' :: index), by simp [trueFlag], ?_, ?_⟩
        · intro hmem
          rcases hall _ hmem with h | h
          · cases h
          · exact h (by decide)
        · intro c hc
          have hsplit : c ∈ name ++ ':' :: (flags ++ '.' :: index) ∨ c ∈ trueFlag := by
            simp only [List.mem_append, List.mem_cons, trueFlag] at hc ⊢
            grind
          rcases hsplit with hc | hc
          · rcases hall c hc with rfl | h
            · decide
            · intro hmem
              exact h (by
                have hcases : c = '<' ∨ c = '>' ∨ c = '{' ∨ c = '}' := by simpa using hmem
                rcases hcases with rfl | rfl | rfl | rfl <;> decide)
          · have hcases : c = '?' ∨ c = 't' ∨ c = 'r' ∨ c = 'u' ∨ c = 'e' := by
              simpa [trueFlag] using hc
            rcases hcases with rfl | rfl | rfl | rfl | rfl <;> decide

theorem removed_of_isTrueParam {param : Text} (h : isTrueParam flagsName param = true)
    (hspace : ' ' ∉ param) : Removed (bracketless param) := by
  obtain ⟨a, heq, hquestion, hbrackets⟩ := isTrueParam_eq h
  rw [bracketless_eq hbrackets]
  exact ⟨a, heq, hquestion, fun ha => hspace (heq ▸ List.mem_append_left _ ha)⟩

/-- The signs that the type of a parameter follows. -/
def IsMark (c : Char) : Prop := c = ':' ∨ c = '?'

theorem written_cases (param : Text) : written param = param ∨
    ∃ h c, IsMark c ∧ param = h ++ c :: "bytes".toList ∧ written param = h ++ c :: "string".toList := by
  unfold written
  split
  next => exact .inl rfl
  next name ty hname =>
    obtain ⟨s, hs, rfl, -⟩ := splitOnce_eq_some hname
    obtain rfl := of_decide_eq_true hs
    split
    next =>
      unfold stringed
      split
      next h => exact .inr ⟨name, ':', .inl rfl, by rw [h], rfl⟩
      next => exact .inl rfl
    next flag ty' hflag =>
      obtain ⟨s, hs, rfl, -⟩ := splitOnce_eq_some hflag
      obtain rfl := of_decide_eq_true hs
      unfold stringed
      split
      next h => exact .inr ⟨name ++ ':' :: flag, '?', .inr rfl, by rw [h]; simp, by simp⟩
      next => exact .inl (by simp)

theorem shown_eq_some {param s : Text} (h : shown flagsName (true, param) = some s) :
    s = bracketless (written param) := by
  rw [shown] at h
  split at h
  next => cases h
  next => exact (Option.some.inj h).symm

theorem bracketless_mark {c : Char} (hc : IsMark c) {new : Text}
    (hnew : (new.all fun c => c ∉ "<>{}".toList) = true) (h : Text) :
    bracketless (h ++ c :: new) = bracketless h ++ c :: new := by
  have hmark : c ∉ "<>{}".toList := by
    rcases hc with rfl | rfl <;> decide
  have hnew' : ∀ c ∈ new, c ∉ "<>{}".toList := by simpa only [List.all_eq_true, decide_eq_true_eq] using hnew
  rw [bracketless_append, bracketless_eq (List.forall_mem_cons.mpr ⟨hmark, hnew'⟩)]

/-- A token that is kept as it is, or removed. -/
def Settled (flagsName : Text → Bool) (token : Bool × Text) : Prop :=
  (token.1 = true ∧ isTrueParam flagsName token.2 = true) ∨
    Clean (bracketless token.2) ∧ shown flagsName token = some (bracketless token.2)

theorem kept_of_settled {tokens : List (Bool × Text)} (hspace : ∀ token ∈ tokens, ' ' ∉ token.2)
    (h : ∀ token ∈ tokens, Settled flagsName token) :
    Kept (tokens.map fun token => bracketless token.2) (tokens.filterMap (shown flagsName)) := by
  induction tokens with
  | nil => exact .nil
  | cons token tokens ih =>
    rw [List.forall_mem_cons] at hspace h
    have hrest := ih hspace.2 h.2
    rcases h.1 with ⟨hparam, htrue⟩ | ⟨hclean, hshown⟩
    · have hnone : shown flagsName token = none := by
        obtain ⟨isParam, token⟩ := token
        obtain rfl : isParam = true := hparam
        exact if_pos htrue
      rw [List.filterMap_cons_none hnone]
      exact .remove (removed_of_isTrueParam htrue hspace.1) hrest
    · rw [List.filterMap_cons_some hshown]
      exact .keep hclean hrest

/-- A token that is not a parameter to be removed, and does not end in `bytes`, is shown as it is. -/
theorem settled_of_not_bytes {token : Bool × Text}
    (hbytes : ∀ h c, IsMark c → token.2 ≠ h ++ c :: "bytes".toList)
    (hclean : ∀ s, shown flagsName token = some s → Clean s) : Settled flagsName token := by
  obtain ⟨isParam, token⟩ := token
  cases isParam with
  | false => exact .inr ⟨hclean _ rfl, rfl⟩
  | true =>
    by_cases htrue : isTrueParam flagsName token = true
    · exact .inl ⟨rfl, htrue⟩
    · have hwritten : written token = token :=
        (written_cases token).resolve_right fun ⟨h, c, hc, htoken, _⟩ => hbytes h c hc htoken
      have hshown : shown flagsName (true, token) = some (bracketless token) := by
        rw [shown, if_neg htrue, hwritten]
      exact .inr ⟨hclean _ hshown, hshown⟩

/-- What a token ends in is followed by a space where another token follows. -/
theorem infix_of_suffix {p v h d : Text} {tokens : List Text} (hmem : h ++ d ∈ tokens) :
    d ++ [' '] <:+: p ++ tokens.flatMap (' ' :: ·) ++ ' ' :: v := by
  obtain ⟨before, after, rfl⟩ := List.append_of_mem hmem
  obtain ⟨w, hw⟩ : ∃ w, after.flatMap (' ' :: ·) ++ ' ' :: v = ' ' :: w := by
    cases after with
    | nil => exact ⟨v, rfl⟩
    | cons token after => exact ⟨_, rfl⟩
  refine ⟨p ++ before.flatMap (' ' :: ·) ++ ' ' :: h, w, ?_⟩
  simp only [List.flatMap_append, List.flatMap_cons, List.append_assoc, List.cons_append, hw,
    List.nil_append]

theorem bracketless_unwords (p : Text) (tokens : List Text) :
    bracketless (p ++ tokens.flatMap (' ' :: ·)) =
      bracketless p ++ (tokens.map bracketless).flatMap (' ' :: ·) := by
  induction tokens generalizing p with
  | nil => simp [bracketless]
  | cons token tokens ih =>
    have hsplit : p ++ (token :: tokens).flatMap (' ' :: ·) =
        (p ++ ' ' :: token) ++ tokens.flatMap (' ' :: ·) := by simp
    have htoken : bracketless (' ' :: token) = ' ' :: bracketless token := rfl
    rw [hsplit, ih, bracketless_append, htoken]
    simp

theorem replaceBytes_of_absent {text : Text} (hbytes : ¬ ':' :: "bytes ".toList <:+: text)
    (hconditional : ¬ '?' :: "bytes ".toList <:+: text) : replaceBytes text = text := by
  rw [replaceBytes, replaceAll_of_absent hbytes, replaceAll_of_absent hconditional]

namespace Line

theorem space_notMem (line : Line) :
    ' ' ∉ line.name ∧ ∀ token ∈ line.rest, ' ' ∉ token.2 := by
  have hspace : ∀ token ∈ line.name :: (line.params ++ line.result), ' ' ∉ token :=
    fun token htoken hmem => Bool.noConfusion ((line.tokens token htoken).2 ' ' hmem)
  rw [List.forall_mem_cons] at hspace
  refine ⟨hspace.1, fun token htoken => ?_⟩
  simp only [rest, List.mem_append, List.mem_map, List.mem_cons] at htoken
  rcases htoken with ⟨param, hparam, rfl⟩ | rfl | ⟨ty, hty, rfl⟩
  · exact hspace.2 _ (List.mem_append_left _ hparam)
  · decide
  · exact hspace.2 _ (List.mem_append_right _ hty)

theorem text_eq (line : Line) :
    line.text = line.name ++ (line.rest.map Prod.snd).flatMap (' ' :: ·) := rfl

/-- Another token follows every parameter. -/
theorem params_ne (line : Line) (hbytes : ¬ ':' :: "bytes ".toList <:+: line.text)
    (hconditional : ¬ '?' :: "bytes ".toList <:+: line.text) :
    ∀ param ∈ line.params, ∀ h c, IsMark c → param ≠ h ++ c :: "bytes".toList := by
  rintro param hparam h c hc rfl
  have hoccurs := infix_of_suffix (p := line.name)
    (v := '=' :: (line.result.map (false, ·)).flatMap fun token => ' ' :: token.2) hparam
  have htext : line.name ++ line.params.flatMap (' ' :: ·) ++
      ' ' :: '=' :: (line.result.map (false, ·)).flatMap (fun token => ' ' :: token.2) =
      line.text := by
    simp [Line.text_eq, Line.rest, List.flatMap_map, Function.comp_def]
  rw [htext] at hoccurs
  rcases hc with rfl | rfl
  · exact hbytes hoccurs
  · exact hconditional hoccurs

theorem canonical_eq (line : Line) : canonical flagsName line =
    bracketless line.name ++ (line.rest.filterMap (shown flagsName)).flatMap (' ' :: ·) := rfl

end Line

/-- In a line without such types the text that is hashed is the canonical form. -/
theorem representation_of_plain {line : Line} (h : Plain flagsName line) :
    representation line.text = canonical flagsName line := by
  have hparams := line.params_ne h.bytes h.conditional
  have hsettled : ∀ token ∈ line.rest, Settled flagsName token := by
    intro token htoken
    rcases h.rest token htoken with htrue | hclean
    · exact .inl htrue
    · simp only [Line.rest, List.mem_append, List.mem_map, List.mem_cons] at htoken
      rcases htoken with ⟨param, hparam, rfl⟩ | rfl | ⟨ty, hty, rfl⟩
      · refine settled_of_not_bytes (hparams param hparam) fun s hs => ?_
        have hwritten : written param = param := (written_cases param).resolve_right
          fun ⟨h, c, hc, htoken, _⟩ => hparams param hparam h c hc htoken
        rw [shown_eq_some hs, hwritten]
        exact hclean
      · exact .inr ⟨hclean, rfl⟩
      · exact .inr ⟨hclean, rfl⟩
  have hkept := kept_of_settled line.space_notMem.2 hsettled
  obtain ⟨hclean, hremove⟩ := hkept.removeTrue h.name []
  rw [List.append_nil, List.append_nil, removeTrue_of_clean hclean] at hremove
  rw [representation, replaceBytes_of_absent h.bytes h.conditional, replaceBrackets_eq,
    Line.text_eq, bracketless_unwords, Line.canonical_eq, ← hremove, List.map_map]
  rfl

/-! Where the two differ, from the first token that ends in `bytes` on. -/

theorem mark_notMem {c : Char} (hc : IsMark c) : c ∉ "bytes ".toList := by
  rcases hc with rfl | rfl <;> decide

/-- The first token that ends in `bytes`. -/
theorem exists_first_bytes {text : Text}
    (h : ':' :: "bytes ".toList <:+: text ∨ '?' :: "bytes ".toList <:+: text) :
    ∃ q c rest, IsMark c ∧ text = q ++ c :: "bytes ".toList ++ rest ∧
      ¬ ':' :: "bytes ".toList <:+: q ∧ ¬ '?' :: "bytes ".toList <:+: q := by
  cases hcolon : text.dropInfix? (':' :: "bytes ".toList) with
  | none =>
    cases hquestion : text.dropInfix? ('?' :: "bytes ".toList) with
    | none =>
      exact absurd h (not_or.mpr
        ⟨dropInfix?_eq_none_iff.mp hcolon, dropInfix?_eq_none_iff.mp hquestion⟩)
    | some parts =>
      obtain ⟨q, rest⟩ := parts
      have htext := dropInfix?_eq hquestion
      refine ⟨q, '?', rest, .inr rfl, htext, fun hq => dropInfix?_eq_none_iff.mp hcolon ?_,
        not_infix_before hquestion⟩
      rw [htext, List.append_assoc]
      exact hq.trans (List.prefix_append _ _).isInfix
  | some parts =>
    obtain ⟨q, rest⟩ := parts
    have htext := dropInfix?_eq hcolon
    have hclean := not_infix_before hcolon
    cases hquestion : q.dropInfix? ('?' :: "bytes ".toList) with
    | none => exact ⟨q, ':', rest, .inl rfl, htext, hclean, dropInfix?_eq_none_iff.mp hquestion⟩
    | some parts' =>
      obtain ⟨q', rest'⟩ := parts'
      have hq := dropInfix?_eq hquestion
      refine ⟨q', '?', rest' ++ ':' :: "bytes ".toList ++ rest, .inr rfl, ?_, fun hq' => hclean ?_,
        not_infix_before hquestion⟩
      · rw [htext, hq]
        simp only [List.append_assoc]
      · rw [hq, List.append_assoc]
        exact hq'.trans (List.prefix_append _ _).isInfix

/-- A text without the pattern is left alone, where another mark follows it. -/
theorem replaceAll_skip_mark {c d : Char} (hc : IsMark c) (hd : IsMark d) {new q after : Text}
    (hq : ¬d :: "bytes ".toList <:+: q) :
    replaceAll d "bytes ".toList new (q ++ c :: after) =
      q ++ replaceAll d "bytes ".toList new (c :: after) := by
  refine replaceAll_skip (mark_notMem hd) fun {x y} h => ?_
  obtain ⟨y', hy', -⟩ | hx := infix_split h fun e he => by
    obtain rfl := Option.some.inj he
    exact mark_notMem hc
  · exact absurd ⟨x, y', hy'.symm⟩ hq
  · exact hx

/-- Of the first such token the space is moved to before `string`. -/
theorem replaceBytes_append {q rest : Text} {c : Char} (hc : IsMark c)
    (hcolon : ¬ ':' :: "bytes ".toList <:+: q) (hquestion : ¬ '?' :: "bytes ".toList <:+: q) :
    replaceBytes (q ++ c :: "bytes ".toList ++ rest) =
      q ++ c :: " string".toList ++ replaceBytes rest := by
  have hc' : '?' ∉ "bytes ".toList ∧ ':' ∉ "bytes ".toList := by decide
  unfold replaceBytes
  rcases hc with rfl | rfl
  · have hnew : ": string".toList = ':' :: " string".toList := rfl
    rw [replaceAll_append hc'.2 hcolon, hnew, List.append_assoc, List.cons_append,
      replaceAll_skip_mark (.inl rfl) (.inr rfl) hquestion, List.append_assoc]
    refine congrArg (q ++ ·) ?_
    exact replaceAll_skip hc'.1 (a := ": string".toList) fun h => infix_skip h (by decide)
  · rw [List.append_assoc, List.cons_append, replaceAll_skip_mark (.inr rfl) (.inl rfl) hcolon]
    have hskip : replaceAll ':' "bytes ".toList ": string".toList ('?' :: ("bytes ".toList ++ rest)) =
        '?' :: "bytes ".toList ++ replaceAll ':' "bytes ".toList ": string".toList rest :=
      replaceAll_skip hc'.2 (a := "?bytes ".toList) fun h => infix_skip h (by decide)
    rw [hskip, ← List.append_assoc, replaceAll_append hc'.1 hquestion]
    rfl

/-! What is removed ends where a token ends. -/

def Ended (text : Text) : Prop :=
  ∀ x y, text = x ++ trueFlag ++ y → y = [] ∨ y.head? = some ' '

theorem Ended.of_clean {text : Text} (h : Clean text) : Ended text :=
  fun x y htext => absurd ⟨x, y, htext.symm⟩ h

theorem Ended.suffix {a b : Text} (h : Ended (a ++ b)) : Ended b :=
  fun x y hb => h (a ++ x) y (by rw [hb]; simp only [List.append_assoc])

theorem Ended.append {a b : Text} (ha : Ended a) (hb : Ended b)
    (hspace : b = [] ∨ b.head? = some ' ') : Ended (a ++ b) := by
  intro x y h
  obtain ⟨y', hy', rfl⟩ | ⟨x', -, hx'⟩ := infix_split h.symm (by
    intro d hd
    rcases hspace with rfl | hspace
    · cases hd
    · rw [hspace] at hd
      cases hd
      decide)
  · cases y' with
    | nil => exact hspace
    | cons d y' => exact .inr ((ha x (d :: y') hy').resolve_left (List.cons_ne_nil _ _))
  · exact hb x' y hx'

/-- In front of a text there may be what has no such mark. -/
theorem Ended.skip {a b : Text} (hb : Ended b) (ha : '?' ∉ a) : Ended (a ++ b) := by
  intro x y h
  obtain ⟨x', -, hx'⟩ := infix_skip h.symm ha
  exact hb x' y hx'

theorem Ended.of_removed {token : Text} (h : Removed token) : Ended token := by
  obtain ⟨a, rfl, ha, -⟩ := h
  refine Ended.skip (fun x y hxy => ?_) ha
  have hlength := congrArg List.length hxy
  simp only [List.length_append] at hlength
  exact .inl (List.length_eq_zero_iff.mp (by omega))

theorem Ended.tokens {p : Text} {tokens : List Text} (hp : Ended p)
    (h : ∀ token ∈ tokens, Ended token) : Ended (p ++ tokens.flatMap (' ' :: ·)) := by
  induction tokens generalizing p with
  | nil => simpa using hp
  | cons token tokens ih =>
    rw [List.forall_mem_cons] at h
    have htoken : Ended (' ' :: token) := h.1.skip (a := [' ']) (by decide)
    have hnext := ih (hp.append htoken (.inr rfl)) h.2
    simpa only [List.flatMap_cons, List.append_assoc] using hnext

theorem Ended.replaceAll {c : Char} (hc : IsMark c) {text : Text} (h : Ended (bracketless text)) :
    Ended (bracketless (replaceAll c "bytes ".toList (c :: " string".toList) text)) := by
  induction hlength : text.length using Nat.strong_induction_on generalizing text with
  | _ n ih =>
  rw [TextSearch.replaceAll]
  split
  next => exact h
  next before after hsome =>
    obtain rfl := dropInfix?_eq hsome
    have hafter := ih after.length (by rw [← hlength]; simp; omega)
      (by rw [bracketless_append] at h; exact h.suffix) rfl
    have hmark : bracketless (before ++ c :: "bytes ".toList) =
        bracketless before ++ [c] ++ "bytes ".toList := by
      rw [bracketless_mark hc (by decide), List.append_assoc]
      rfl
    rw [bracketless_append, hmark] at h
    have hmark' : bracketless (before ++ c :: " string".toList) =
        bracketless before ++ [c] ++ " string".toList := by
      rw [bracketless_mark hc (by decide), List.append_assoc]
      rfl
    rw [bracketless_append, hmark', List.append_assoc]
    refine Ended.append (fun x y hxy => ?_) (hafter.skip (by decide)) (.inr rfl)
    cases y with
    | nil => exact .inl rfl
    | cons d y =>
      have hbefore := h x (d :: y ++ "bytes ".toList ++ bracketless after) (by rw [hxy]; simp)
      exact .inr (hbefore.resolve_left (by simp))

theorem Ended.replaceBytes {text : Text} (h : Ended (bracketless text)) :
    Ended (bracketless (replaceBytes text)) :=
  (h.replaceAll (.inl rfl)).replaceAll (.inr rfl)

/-- Where what is removed ends where a token ends, a text in front of the first space stays. -/
theorem removeTrue_tail {p tail : Text} (hp : Clean p) (htail : Ended tail)
    (hspace : tail = [] ∨ tail.head? = some ' ') :
    ∃ new, removeTrue (p ++ tail) = p ++ new ∧ (new = [] ∨ new.head? = some ' ') := by
  induction hlength : tail.length using Nat.strong_induction_on generalizing tail with
  | _ n ih =>
  cases hdrop : tail.dropInfix? trueFlag with
  | none =>
    have hclean := hp.append (dropInfix?_eq_none_iff.mp hdrop) hspace
    exact ⟨tail, removeTrue_of_clean hclean, hspace⟩
  | some parts =>
    obtain ⟨a, b⟩ := parts
    have hclean : Clean a := not_infix_before hdrop
    have htext : tail = a ++ trueFlag ++ b := dropInfix?_eq hdrop
    have hb := htail a b htext
    have hhead : a.head? = some ' ' := by
      cases a with
      | nil =>
        rcases hspace with hnil | hspace
        · rw [hnil] at htext
          cases htext
        · rw [htext] at hspace
          cases hspace
      | cons d a =>
        rw [htext] at hspace
        simpa using hspace
    obtain ⟨a₁, a₂, rfl, ha₂⟩ : ∃ a₁ a₂, a = a₁ ++ ' ' :: a₂ ∧ ' ' ∉ a₂ := by
      cases hsplit : rsplitOnce isSpace a with
      | none =>
        have hspace' := rsplitOnce_eq_none hsplit ' ' (List.mem_of_mem_head? hhead)
        exact Bool.noConfusion hspace'
      | some parts =>
        obtain ⟨s, hs, ha, hall⟩ := rsplitOnce_eq_some hsplit
        obtain rfl : s = ' ' := of_decide_eq_true hs
        exact ⟨parts.1, parts.2, ha, fun hmem => Bool.noConfusion (hall ' ' hmem)⟩
    have ha₁ : a₁ = [] ∨ a₁.head? = some ' ' := by
      cases a₁ with
      | nil => exact .inl rfl
      | cons d a₁ => exact .inr hhead
    have hended : Ended (a₁ ++ b) :=
      (Ended.of_clean (hclean.of_part (List.prefix_append _ _).isInfix)).append
        (by rw [htext] at htail; exact htail.suffix) hb
    have hspace' : a₁ ++ b = [] ∨ (a₁ ++ b).head? = some ' ' := by
      rcases ha₁ with rfl | ha₁
      · exact hb
      · exact .inr (by rw [List.head?_append, ha₁]; rfl)
    obtain ⟨new, hnew, hspace''⟩ := ih (a₁ ++ b).length
      (by rw [← hlength, htext]; simp [trueFlag]; omega) hended hspace' rfl
    refine ⟨new, ?_, hspace''⟩
    have hpclean : Clean (p ++ a₁ ++ ' ' :: a₂) := by
      rw [List.append_assoc]
      exact hp.append hclean (.inr hhead)
    rw [htext, ← hnew, ← List.append_assoc p a₁ b, ← removeTrue_step hpclean ha₂]
    simp only [List.append_assoc]

/-- Where a text is cut at a space, it is cut between two tokens. -/
theorem exists_cut {p u v : Text} {tokens : List Text} (hp : ' ' ∉ p)
    (htokens : ∀ token ∈ tokens, ' ' ∉ token)
    (h : p ++ tokens.flatMap (' ' :: ·) = u ++ ' ' :: v) :
    ∃ before after, tokens = before ++ after ∧ u = p ++ before.flatMap (' ' :: ·) ∧
      ' ' :: v = after.flatMap (' ' :: ·) := by
  induction tokens generalizing p u with
  | nil =>
    rw [List.flatMap_nil, List.append_nil] at h
    exact absurd (by simp [h]) hp
  | cons token tokens ih =>
    rw [List.forall_mem_cons] at htokens
    obtain ⟨a, rfl, ha⟩ | ⟨a, rfl, ha⟩ := List.append_eq_append_iff.mp h
    · cases a with
      | nil => exact ⟨[], token :: tokens, rfl, rfl, ha.symm⟩
      | cons d a =>
        obtain ⟨rfl, hrest⟩ := List.cons.inj ha
        obtain ⟨before, after, rfl, rfl, hv⟩ := ih htokens.1 htokens.2 hrest
        exact ⟨token :: before, after, rfl, by simp, hv⟩
    · cases a with
      | nil => exact ⟨[], token :: tokens, rfl, by simp, ha⟩
      | cons d a =>
        obtain ⟨rfl, -⟩ := List.cons.inj ha
        exact absurd (by simp) hp

/-- The last token of a text that ends in `bytes`. -/
theorem exists_last {z t q : Text} {c : Char} (hc : IsMark c)
    (h : z ++ ' ' :: t = q ++ c :: "bytes".toList) :
    ∃ h', t = h' ++ c :: "bytes".toList ∧ q = z ++ ' ' :: h' := by
  have hspace : ' ' ∉ c :: "bytes".toList := by
    rcases hc with rfl | rfl <;> decide
  have hsplit : (z ++ [' ']) ++ t = q ++ c :: "bytes".toList := by simpa using h
  obtain ⟨a, ha, ht⟩ | ⟨a, hz, ha⟩ := List.append_eq_append_iff.mp hsplit
  · exact ⟨a, ht, by rw [ha, List.append_assoc]; rfl⟩
  · rcases List.eq_nil_or_concat' a with rfl | ⟨a', d, rfl⟩
    · exact ⟨[], ha.symm, by rw [List.append_nil] at hz; exact hz.symm⟩
    · rw [← List.append_assoc] at hz
      obtain ⟨-, hd⟩ := List.append_inj' hz rfl
      obtain rfl := List.singleton_inj.mp hd
      exact absurd (ha ▸ by simp) hspace

theorem Kept.concat {tokens tokens' : List Text} (h : Kept tokens tokens') {token : Text}
    (htoken : Clean token) : Kept (tokens ++ [token]) (tokens' ++ [token]) := by
  induction h with
  | nil => exact .keep htoken .nil
  | keep hclean _ ih => exact .keep hclean ih
  | remove hremoved _ ih => exact .remove hremoved ih

/-- Behind the tokens that are settled, a space is not another sign. -/
theorem removeTrue_ne {p new w : Text} {tokens tokens' : List Text} {d : Char} (hp : Clean p)
    (hkept : Kept tokens tokens') (hended : Ended (' ' :: new)) (hd : d ≠ ' ') :
    removeTrue (p ++ tokens.flatMap (' ' :: ·) ++ ' ' :: new) ≠
      p ++ tokens'.flatMap (' ' :: ·) ++ d :: w := by
  obtain ⟨hclean, hremove⟩ := hkept.removeTrue hp (' ' :: new)
  obtain ⟨new', hnew, hspace⟩ := removeTrue_tail hclean hended (.inr rfl)
  rw [hremove, hnew]
  intro heq
  rw [List.append_cancel_left heq] at hspace
  rcases hspace with hnil | hhead
  · cases hnil
  · exact hd (Option.some.inj hhead)

/-- How a token that ends in `bytes` is shown. -/
theorem shown_bytes (flagsName : Text → Bool) (isParam : Bool) (h : Text) {c : Char} (hc : IsMark c) :
    ∃ d new, d ≠ ' ' ∧ shown flagsName (isParam, h ++ c :: "bytes".toList) =
      some (bracketless (h ++ [c]) ++ d :: new) := by
  have hbytes : bracketless (h ++ c :: "bytes".toList) =
      bracketless (h ++ [c]) ++ 'b' :: "ytes".toList := by
    rw [bracketless_mark hc (by decide), bracketless_mark hc (by decide), List.append_assoc]
    rfl
  cases isParam with
  | false => exact ⟨'b', "ytes".toList, by decide, by rw [shown, hbytes]⟩
  | true =>
    have htrue : ¬isTrueParam flagsName (h ++ c :: "bytes".toList) = true := by
      intro htrue
      obtain ⟨a, ha, -⟩ := isTrueParam_eq htrue
      have hlast := congrArg List.getLast? ha
      simp [trueFlag] at hlast
    rcases written_cases (h ++ c :: "bytes".toList) with hwritten | ⟨h', c', hc', heq, hwritten⟩
    · exact ⟨'b', "ytes".toList, by decide, by rw [shown, if_neg htrue, hwritten, hbytes]⟩
    · refine ⟨'s', "tring".toList, by decide, ?_⟩
      obtain ⟨rfl, hcons⟩ := List.append_inj' heq rfl
      obtain rfl := (List.cons.inj hcons).1
      rw [shown, if_neg htrue, hwritten, bracketless_mark hc (by decide),
        bracketless_mark hc (by decide), List.append_assoc]
      rfl

/-- What is shown of a token has what is removed only where the token has. -/
theorem ended_of_shown {token : Bool × Text} (hspace : ' ' ∉ token.2)
    (hclean : ∀ s, shown flagsName token = some s → Clean s) : Ended (bracketless token.2) := by
  obtain ⟨isParam, token⟩ := token
  cases isParam with
  | false => exact .of_clean (hclean _ rfl)
  | true =>
    by_cases htrue : isTrueParam flagsName token = true
    · exact .of_removed (removed_of_isTrueParam htrue hspace)
    · have hshown : shown flagsName (true, token) = some (bracketless (written token)) := by
        rw [shown, if_neg htrue]
      have hwritten := hclean _ hshown
      rcases written_cases token with heq | ⟨h, c, hc, rfl, heq⟩
      · rw [heq] at hwritten
        exact .of_clean hwritten
      · rw [heq, bracketless_mark hc (by decide)] at hwritten
        rw [bracketless_mark hc (by decide)]
        refine .of_clean ?_
        rintro ⟨x, y, hxy⟩
        have hmiddle : ∀ d ∈ (c :: "bytes".toList).head?, d ∉ "true".toList := by
          rcases hc with rfl | rfl <;> simp
        have hxy' : x ++ '?' :: "true".toList ++ y = bracketless h ++ c :: "bytes".toList := hxy
        obtain ⟨y', hy', -⟩ | ⟨x', -, hx'⟩ := infix_split hxy' hmiddle
        · refine hwritten ⟨x, y' ++ c :: "string".toList, ?_⟩
          rw [hy', List.append_assoc _ y']
          rfl
        · have hnot : ¬trueFlag <:+: c :: "bytes".toList := by
            rcases hc with rfl | rfl <;> decide
          exact hnot ⟨x', y, hx'.symm⟩

theorem infix_flatMap {p s : Text} {tokens : List Text} (h : s ∈ tokens) :
    s <:+: p ++ tokens.flatMap (' ' :: ·) := by
  obtain ⟨before, after, rfl⟩ := List.append_of_mem h
  exact ⟨p ++ before.flatMap (' ' :: ·) ++ [' '], after.flatMap (' ' :: ·), by simp⟩

/-- In a line with such types the text that is hashed is not the canonical form. -/
theorem representation_ne {line : Line} (hname : Clean (bracketless line.name))
    (hshown : ∀ token ∈ line.rest, ∀ s, shown flagsName token = some s → Clean s)
    (h : ':' :: "bytes ".toList <:+: line.text ∨ '?' :: "bytes ".toList <:+: line.text) :
    representation line.text ≠ canonical flagsName line := by
  obtain ⟨q, c, rest, hc, htext, hcolon, hquestion⟩ := exists_first_bytes h
  obtain ⟨hspace, hspaces⟩ := line.space_notMem
  have hended : Ended (bracketless line.text) := by
    rw [Line.text_eq, bracketless_unwords]
    refine (Ended.of_clean hname).tokens fun token htoken => ?_
    simp only [List.mem_map] at htoken
    obtain ⟨-, ⟨token, htoken, rfl⟩, rfl⟩ := htoken
    exact ended_of_shown (hspaces token htoken) (hshown token htoken)
  have htail : Ended (' ' :: ("string".toList ++ bracketless (replaceBytes rest))) := by
    have hrest : Ended (bracketless rest) := by
      rw [htext, bracketless_append] at hended
      exact hended.suffix
    exact hrest.replaceBytes.skip (a := " string".toList) (by decide)
  have hrepresentation : representation line.text = removeTrue
      (bracketless (q ++ [c]) ++ ' ' :: ("string".toList ++ bracketless (replaceBytes rest))) := by
    rw [representation, htext, replaceBytes_append hc hcolon hquestion, replaceBrackets_eq,
      bracketless_append, bracketless_mark hc (by decide), bracketless_mark hc (by decide),
      List.append_assoc, List.append_assoc]
    rfl
  have hcut : line.name ++ (line.rest.map Prod.snd).flatMap (' ' :: ·) =
      (q ++ c :: "bytes".toList) ++ ' ' :: rest := by
    rw [← Line.text_eq, htext]
    simp
  have hspaces' : ∀ token ∈ line.rest.map Prod.snd, ' ' ∉ token := by
    intro token htoken
    obtain ⟨token', htoken', rfl⟩ := List.mem_map.mp htoken
    exact hspaces token' htoken'
  obtain ⟨before, after, hsplit, hu, -⟩ := exists_cut hspace hspaces' hcut
  obtain ⟨tokens, tokens', hrest, rfl, rfl⟩ := List.map_eq_append_iff.mp hsplit
  rw [hrepresentation, Line.canonical_eq, hrest]
  rcases List.eq_nil_or_concat' tokens with rfl | ⟨settled, ⟨isParam, token⟩, rfl⟩
  · -- The name itself ends in `bytes`.
    have hname' : line.name = q ++ c :: "bytes".toList := by simpa using hu.symm
    have hbytes : bracketless line.name = bracketless (q ++ [c]) ++ 'b' :: "ytes".toList := by
      rw [hname', bracketless_mark hc (by decide), bracketless_mark hc (by decide),
        List.append_assoc]
      rfl
    have hclean : Clean (bracketless (q ++ [c])) :=
      hname.of_part (by rw [hbytes]; exact (List.prefix_append _ _).isInfix)
    have hne := removeTrue_ne hclean .nil htail (show 'b' ≠ ' ' by decide)
      (w := "ytes".toList ++ (tokens'.filterMap (shown flagsName)).flatMap (' ' :: ·))
    simpa [hbytes] using hne
  · have hlast : (line.name ++ (settled.map Prod.snd).flatMap (' ' :: ·)) ++ ' ' :: token =
        q ++ c :: "bytes".toList := by
      rw [hu]
      simp
    obtain ⟨h', rfl, hq⟩ := exists_last hc hlast
    have hmem : ∀ token ∈ settled, token ∈ line.rest := fun token htoken => by
      rw [hrest]
      exact List.mem_append_left _ (List.mem_append_left _ htoken)
    have hkept : Kept (settled.map fun token => bracketless token.2)
        (settled.filterMap (shown flagsName)) := by
      refine kept_of_settled (fun token htoken => hspaces token (hmem token htoken))
        fun token htoken => settled_of_not_bytes (fun h c' hc' heq => ?_)
          (hshown token (hmem token htoken))
      have hoccurs := infix_of_suffix (p := line.name) (v := h')
        (heq ▸ List.mem_map_of_mem htoken : h ++ c' :: "bytes".toList ∈ settled.map Prod.snd)
      rw [← hq] at hoccurs
      rcases hc' with rfl | rfl
      · exact hcolon hoccurs
      · exact hquestion hoccurs
    obtain ⟨d, new, hd, hbytes⟩ := shown_bytes flagsName isParam h' hc
    have hclean : Clean (bracketless (h' ++ [c])) := by
      have hlastmem : (isParam, h' ++ c :: "bytes".toList) ∈ line.rest := by
        rw [hrest]
        simp
      exact (hshown _ hlastmem _ hbytes).of_part (List.prefix_append _ _).isInfix
    have hbefore : bracketless (q ++ [c]) = bracketless line.name ++
        (settled.map (fun token => bracketless token.2) ++ [bracketless (h' ++ [c])]).flatMap
          (' ' :: ·) := by
      have hq' : q ++ [c] = line.name ++
          (settled.map Prod.snd ++ [h' ++ [c]]).flatMap (' ' :: ·) := by
        rw [hq]
        simp
      rw [hq', bracketless_unwords, List.map_append, List.map_map]
      rfl
    have hcanonical : (settled ++ [(isParam, h' ++ c :: "bytes".toList)] ++ tokens').filterMap
        (shown flagsName) = settled.filterMap (shown flagsName) ++
          (bracketless (h' ++ [c]) ++ d :: new) :: tokens'.filterMap (shown flagsName) := by
      rw [List.filterMap_append, List.filterMap_append, List.filterMap_cons_some hbytes]
      simp
    have hne := removeTrue_ne hname (hkept.concat hclean) htail hd
      (w := new ++ (tokens'.filterMap (shown flagsName)).flatMap (' ' :: ·))
    rw [hbefore, hcanonical]
    simpa using hne

theorem plain_of_eq {line : Line} (h : representation line.text = canonical flagsName line) :
    Plain flagsName line := by
  have hclean : Clean (canonical flagsName line) := h ▸ clean_removeTrue _
  have hname : Clean (bracketless line.name) :=
    hclean.of_part (List.prefix_append _ _).isInfix
  have hshown : ∀ token ∈ line.rest, ∀ s, shown flagsName token = some s → Clean s :=
    fun token htoken s hs =>
      hclean.of_part (infix_flatMap (List.mem_filterMap.mpr ⟨token, htoken, hs⟩))
  have hbytes : ¬ ':' :: "bytes ".toList <:+: line.text :=
    fun hbytes => representation_ne hname hshown (.inl hbytes) h
  have hconditional : ¬ '?' :: "bytes ".toList <:+: line.text :=
    fun hconditional => representation_ne hname hshown (.inr hconditional) h
  refine ⟨hbytes, hconditional, hname, fun token htoken => ?_⟩
  have hclean' := hshown token htoken
  simp only [Line.rest, List.mem_append, List.mem_map, List.mem_cons] at htoken
  rcases htoken with ⟨param, hparam, rfl⟩ | rfl | ⟨ty, hty, rfl⟩
  · exact (settled_of_not_bytes (line.params_ne hbytes hconditional param hparam) hclean').imp_right
      And.left
  · exact .inr (hclean' _ rfl)
  · exact .inr (hclean' _ rfl)

/-! Two lines that differ in how some parameters are written. -/

/-- Some parameter types are written `bytes` in one line and `string` in the other. -/
structure SameButBytes (line line' : Line) : Prop where
  name : line.name = line'.name
  params : line.params.map written = line'.params.map written
  result : line.result = line'.result

theorem isTrueParam_written (param : Text) :
    isTrueParam flagsName (written param) = isTrueParam flagsName param := by
  have hnot : ∀ h new, new = "bytes".toList ∨ new = "string".toList →
      isTrueParam flagsName (h ++ new) = false := by
    intro h new hnew
    refine Bool.eq_false_iff.mpr fun htrue => ?_
    obtain ⟨a, ha, -⟩ := isTrueParam_eq htrue
    have hlast := congrArg List.getLast? ha
    rcases hnew with rfl | rfl <;> simp [trueFlag] at hlast
  rcases written_cases param with heq | ⟨h, c, -, rfl, heq⟩
  · rw [heq]
  · rw [heq, List.append_cons, hnot _ _ (.inr rfl), List.append_cons, hnot _ _ (.inl rfl)]

theorem canonical_eq_of_sameButBytes {line line' : Line} (h : SameButBytes line line') :
    canonical flagsName line = canonical flagsName line' := by
  have hshown : ∀ params : List Text, (params.map (true, ·)).filterMap (shown flagsName) =
      (params.map written).filterMap fun param =>
        if isTrueParam flagsName param then none else some (bracketless param) := by
    intro params
    rw [List.filterMap_map, List.filterMap_map]
    refine congrArg (List.filterMap · params) (funext fun param => ?_)
    simp only [Function.comp, shown, isTrueParam_written]
  simp only [canonical, Line.rest, List.filterMap_append, hshown, h.name, h.params, h.result]

/-- The checksum with the reversed polynomial `0xEDB88320`. -/
def crc32 (bytes : Bytes) : UInt32 :=
  let step (crc : UInt32) := if crc &&& 1 = 1 then (crc >>> 1) ^^^ 0xEDB88320 else crc >>> 1
  ~~~bytes.foldl (fun crc b => Nat.repeat step 8 (crc ^^^ b.toUInt32)) 0xFFFFFFFF

example : inferId crc32 "msgs_ack msg_ids:Vector<long> = MsgsAck".toList = 0x62d6b459 := by
  decide +kernel

/-- The identifier is that of the canonical form, whatever the checksum is, exactly where no
parameter has the type `bytes` and nothing else starts with a type that is removed. Then two lines
that differ in `bytes` and `string` have the same identifier. -/
theorem infer_id_is_canonical_iff (flagsName : Text → Bool) (line : Line) :
    ((∀ checksum : Bytes → UInt32,
      inferId checksum line.text = checksum (asBytes (canonical flagsName line))) ↔
        Plain flagsName line) ∧
    ∀ line', SameButBytes line line' → canonical flagsName line = canonical flagsName line' ∧
      (Plain flagsName line → Plain flagsName line' →
        ∀ checksum : Bytes → UInt32, inferId checksum line.text = inferId checksum line'.text) := by
  refine ⟨⟨fun h => ?_, fun h checksum => ?_⟩, fun line' hsame => ?_⟩
  · refine plain_of_eq (asBytes_injective ?_)
    by_contra hne
    have heq := h fun bytes =>
      if bytes = asBytes (canonical flagsName line) then 1 else 0
    rw [inferId, if_neg hne, if_pos rfl] at heq
    cases heq
  · rw [inferId, representation_of_plain h]
  · have hcanonical : canonical flagsName line = canonical flagsName line' :=
      canonical_eq_of_sameButBytes hsame
    refine ⟨hcanonical, fun h h' checksum => ?_⟩
    rw [inferId, inferId, representation_of_plain h, representation_of_plain h', hcanonical]

theorem words_of_all {tokens : List Text}
    (h : (tokens.all fun token => token ≠ [] && token.all (isWhiteSpace · = false)) = true) :
    ∀ token ∈ tokens, token ≠ [] ∧ ∀ c ∈ token, isWhiteSpace c = false := by
  simpa using h

def bytesLine : Line where
  name := "a".toList
  params := ["x:bytes".toList]
  result := ["A".toList]
  tokens := words_of_all (by decide)
  equality := by decide
  inferred := by decide
  typed := by decide

def stringLine : Line where
  name := "a".toList
  params := ["x:string".toList]
  result := ["A".toList]
  tokens := words_of_all (by decide)
  equality := by decide
  inferred := by decide
  typed := by decide

/-- The space behind a parameter of type `bytes` is moved to before its type. -/
theorem infer_id_moves_a_space :
    bytesLine.text = "a x:bytes = A".toList ∧
      representation bytesLine.text = "a x: string= A".toList ∧
      canonical (fun _ => true) bytesLine = "a x:string = A".toList ∧
      inferId crc32 bytesLine.text ≠ crc32 (asBytes (canonical (fun _ => true) bytesLine)) ∧
      inferId crc32 bytesLine.text ≠ inferId crc32 stringLine.text := by
  refine ⟨by decide +kernel, by decide +kernel, by decide +kernel, by decide +kernel,
    by decide +kernel⟩

end TlParser

end Grammers
