import Grammers.TlDefinition

namespace Grammers

open TextSearch

namespace TlParser

/-- A name of ASCII letters, digits and underscores. -/
def Word (text : Text) : Prop := ∀ c ∈ text, isWordChar c = true

theorem Word.notMem {text : Text} (h : Word text) {c : Char} (hc : isWordChar c = false) :
    c ∉ text := fun hmem => by
  rw [h c hmem] at hc
  cases hc

theorem Word.ne {text : Text} (h : Word text) {s : Char} (hs : isWordChar s = false) :
    ∀ c ∈ text, decide (c = s) = false :=
  fun _ hc => decide_eq_false fun heq => h.notMem hs (heq ▸ hc)

/-! Qualified names. -/

theorem flatMap_dot {parts : List Text} (h : parts ≠ []) :
    parts.flatMap (· ++ ['.']) = ['.'].intercalate parts ++ ['.'] := by
  induction parts with
  | nil => exact absurd rfl h
  | cons part parts ih =>
    cases parts with
    | nil => simp
    | cons next parts =>
      rw [List.flatMap_cons, ih (List.cons_ne_nil _ _), List.intercalate_cons_cons]
      simp

theorem components_qualified {nameSpace : List Text} {name : Text}
    (hparts : ∀ part ∈ nameSpace, '.' ∉ part) (hname : '.' ∉ name) :
    components (qualified nameSpace name) = (nameSpace, name) := by
  have hdot : ∀ c ∈ name, decide (c = '.') = false :=
    fun c hc => decide_eq_false fun heq => hname (heq ▸ hc)
  unfold components qualified
  by_cases hnil : nameSpace = []
  · subst hnil
    rw [List.flatMap_nil, List.nil_append, rsplitOnce_none hdot]
  · rw [flatMap_dot hnil, List.append_assoc, List.singleton_append,
      rsplitOnce_append hdot (decide_eq_true rfl)]
    simp only [List.splitOn_intercalate '.' hparts hnil]

theorem mem_qualified {nameSpace : List Text} {name : Text} {c : Char}
    (h : c ∈ qualified nameSpace name) : (∃ part ∈ nameSpace, c ∈ part) ∨ c = '.' ∨ c ∈ name := by
  simp only [qualified, List.mem_append, List.mem_flatMap, List.mem_singleton] at h
  rcases h with ⟨part, hpart, hc | hc⟩ | hc
  · exact .inl ⟨part, hpart, hc⟩
  · exact .inr (.inl hc)
  · exact .inr (.inr hc)

theorem notMem_qualified {nameSpace : List Text} {name : Text} {c : Char}
    (hparts : ∀ part ∈ nameSpace, Word part) (hname : Word name) (hc : isWordChar c = false)
    (hdot : c ≠ '.') : c ∉ qualified nameSpace name := by
  intro hmem
  rcases mem_qualified hmem with ⟨part, hpart, hmem⟩ | rfl | hmem
  · exact (hparts part hpart).notMem hc hmem
  · exact hdot rfl
  · exact hname.notMem hc hmem

namespace Ty

/-- The names of a type are words. -/
def Words : Ty → Prop
  | ⟨nameSpace, name, _, _, none⟩ => (∀ part ∈ nameSpace, Word part) ∧ Word name
  | ⟨nameSpace, name, _, _, some arg⟩ => ((∀ part ∈ nameSpace, Word part) ∧ Word name) ∧ Words arg

/-- No generic reference has a namespace. -/
def Unqualified : Ty → Prop
  | ⟨nameSpace, _, _, genericRef, none⟩ => genericRef = true → nameSpace = []
  | ⟨nameSpace, _, _, genericRef, some arg⟩ => (genericRef = true → nameSpace = []) ∧ Unqualified arg

/-- What is known of a name that was read. -/
structure Named (nameSpace : List Text) (name : Text) (bare : Bool) : Prop where
  parts : ∀ part ∈ nameSpace, part ≠ []
  first : ∃ first, name.head? = some first ∧ bare = first.isLower

/-- What is known of a type that was read. -/
inductive Parsed : Ty → Prop
  | plain {nameSpace : List Text} {name : Text} {bare : Bool} (genericRef : Bool) :
      Named nameSpace name bare → Parsed ⟨nameSpace, name, bare, genericRef, none⟩
  | generic {nameSpace : List Text} {name : Text} {bare : Bool} {arg : Ty} (genericRef : Bool) :
      Named nameSpace name bare → Parsed arg →
      Parsed ⟨nameSpace, name, bare, genericRef, some arg⟩

theorem ofName_ok {nameSpace : List Text} {name : Text} {bare : Bool} (genericRef : Bool)
    (genericArg : Option Ty) (h : Named nameSpace name bare)
    (hparts : ∀ part ∈ nameSpace, '.' ∉ part) (hname : '.' ∉ name) :
    ofName (qualified nameSpace name) genericRef genericArg =
      .ok ⟨nameSpace, name, bare, genericRef, genericArg⟩ := by
  obtain ⟨first, hfirst, rfl⟩ := h.first
  have hany : nameSpace.any List.isEmpty = false := by
    rw [List.any_eq_false]
    intro part hpart hempty
    exact h.parts part hpart (List.isEmpty_iff.mp hempty)
  unfold ofName
  rw [components_qualified hparts hname]
  simp only [hany, hfirst]

theorem ofName_eq_ok {text : Text} {genericRef : Bool} {genericArg : Option Ty} {ty : Ty}
    (h : ofName text genericRef genericArg = .ok ty) : ∃ nameSpace name bare,
      ty = ⟨nameSpace, name, bare, genericRef, genericArg⟩ ∧ components text = (nameSpace, name) ∧
      Named nameSpace name bare := by
  unfold ofName at h
  cases hcomponents : components text with
  | mk nameSpace name =>
    rw [hcomponents] at h
    simp only at h
    split at h
    next first hany hfirst =>
      refine ⟨nameSpace, name, first.isLower, (Except.ok.inj h).symm, rfl,
        fun part hpart hnil => ?_, first, hfirst, rfl⟩
      rw [List.any_eq_false] at hany
      exact hany part hpart (by rw [hnil]; rfl)
    next => cases h

theorem fromStr_plain {text name : Text} {genericRef : Bool}
    (hstrip : stripReference text = (name, genericRef)) (h : '<' ∉ name) :
    fromStr text = ofName name genericRef none := by
  have hnone : splitOnce (· = '<') name = none :=
    splitOnce_none fun c hc => decide_eq_false fun heq => h (heq ▸ hc)
  rw [fromStr]
  split
  next hsome => rw [hstrip, hnone] at hsome; cases hsome
  next => rw [hstrip]

theorem fromStr_generic {text name arg : Text} {genericRef : Bool}
    (hstrip : stripReference text = (name ++ '<' :: arg ++ ['>'], genericRef)) (h : '<' ∉ name) :
    fromStr text = fromStr arg >>= fun arg => ofName name genericRef (some arg) := by
  have hsome : splitOnce (· = '<') (name ++ '<' :: arg ++ ['>']) = some (name, arg ++ ['>']) := by
    rw [List.append_assoc, List.cons_append]
    exact splitOnce_append (fun c hc => decide_eq_false fun heq => h (heq ▸ hc)) (decide_eq_true rfl)
  have hsuffix : (arg ++ ['>']).dropSuffix? ['>'] = some arg :=
    List.dropSuffix?_eq_some_iff.mpr ⟨['>'], rfl, beq_self_eq_true _⟩
  rw [fromStr]
  split
  next name' arg' hsplit =>
    rw [hstrip, hsome] at hsplit
    obtain ⟨rfl, rfl⟩ := Prod.mk.inj (Option.some.inj hsplit)
    split
    next arg'' hdrop =>
      rw [hsuffix] at hdrop
      obtain rfl := Option.some.inj hdrop
      rw [hstrip]
      cases fromStr arg <;> rfl
    next hdrop => rw [hsuffix] at hdrop; cases hdrop
  next hsplit => rw [hstrip, hsome] at hsplit; cases hsplit

theorem stripReference_eq {text : Text} (h : ∀ c, text.head? = some c → c ≠ '!') :
    stripReference text = (text, false) := by
  unfold stripReference
  split
  next rest hfront =>
    obtain ⟨p, htext, hp⟩ := List.dropPrefix?_eq_some_iff.mp hfront
    obtain rfl := eq_of_beq hp
    exact absurd rfl (h '!' (by rw [htext]; rfl))
  next => rfl

theorem stripReference_cons (text : Text) : stripReference ('!' :: text) = (text, true) := by
  have hfront : ('!' :: text).dropPrefix? ['!'] = some text :=
    List.dropPrefix?_append_of_beq text (beq_self_eq_true ['!'])
  unfold stripReference
  rw [hfront]

theorem fromStr_eq_ok {text : Text} {ty : Ty} (h : fromStr text = .ok ty) :
    ofName (stripReference text).1 (stripReference text).2 none = .ok ty ∨
      ∃ name arg ty', (stripReference text).1 = name ++ '<' :: arg ++ ['>'] ∧
        fromStr arg = .ok ty' ∧ ofName name (stripReference text).2 (some ty') = .ok ty := by
  rw [fromStr] at h
  split at h
  next name arg hsplit =>
    obtain ⟨s, hs, htext, -⟩ := splitOnce_eq_some hsplit
    obtain rfl := of_decide_eq_true hs
    split at h
    next arg' hsuffix =>
      obtain ⟨s, rfl, hs⟩ := List.dropSuffix?_eq_some_iff.mp hsuffix
      obtain rfl := eq_of_beq hs
      split at h
      next ty' hparse =>
        exact .inr ⟨name, arg', ty', by rw [htext, List.append_assoc]; rfl, hparse, h⟩
      next => cases h
    next => cases h
  next => exact .inl h

theorem length_stripReference (text : Text) : (stripReference text).1.length ≤ text.length := by
  unfold stripReference
  split
  next rest hfront =>
    obtain ⟨p, rfl, -⟩ := List.dropPrefix?_eq_some_iff.mp hfront
    simp
  next => exact le_rfl

/-- What was read is named, at every depth. -/
theorem parsed_of_fromStr {text : Text} {ty : Ty} (h : fromStr text = .ok ty) : Parsed ty := by
  induction hlength : text.length using Nat.strong_induction_on generalizing text ty with
  | _ n ih =>
  rcases fromStr_eq_ok h with hplain | ⟨name, arg, ty', htext, hparse, hgeneric⟩
  · obtain ⟨nameSpace, name, bare, rfl, -, hnamed⟩ := ofName_eq_ok hplain
    exact .plain _ hnamed
  · have hle := length_stripReference text
    rw [htext] at hle
    simp only [List.length_append, List.length_cons] at hle
    obtain ⟨nameSpace, name', bare, rfl, -, hnamed⟩ := ofName_eq_ok hgeneric
    exact .generic _ hnamed (ih arg.length (by omega) hparse rfl)

theorem displayName_eq {nameSpace : List Text} {name : Text} {genericRef : Bool}
    (h : genericRef = true → nameSpace = []) : displayName nameSpace name genericRef =
      (if genericRef then ['!'] else []) ++ qualified nameSpace name := by
  cases genericRef with
  | false => simp [displayName, qualified]
  | true =>
    obtain rfl := h rfl
    rfl

theorem head?_qualified {nameSpace : List Text} {name : Text} (hparts : ∀ part ∈ nameSpace, part ≠ [])
    (hname : name ≠ []) (rest : Text) : ∃ c, (qualified nameSpace name ++ rest).head? = some c ∧
      ((∃ part ∈ nameSpace, c ∈ part) ∨ nameSpace = [] ∧ c ∈ name) := by
  cases nameSpace with
  | nil =>
    cases name with
    | nil => exact absurd rfl hname
    | cons c name => exact ⟨c, rfl, .inr ⟨rfl, by simp⟩⟩
  | cons part parts =>
    cases part with
    | nil => exact absurd rfl (hparts [] (by simp))
    | cons c part => exact ⟨c, rfl, .inl ⟨c :: part, by simp, by simp⟩⟩

/-- A name that is printed has its mark in front, where it has no namespace. -/
theorem stripReference_displayName {nameSpace : List Text} {name : Text} {genericRef : Bool}
    {bare : Bool} (h : Named nameSpace name bare) (hparts : ∀ part ∈ nameSpace, Word part)
    (hname : Word name) (hqualified : genericRef = true → nameSpace = []) (rest : Text) :
    stripReference (displayName nameSpace name genericRef ++ rest) =
      (qualified nameSpace name ++ rest, genericRef) := by
  rw [displayName_eq hqualified]
  cases genericRef with
  | true => exact stripReference_cons _
  | false =>
    refine stripReference_eq fun c hc heq => ?_
    obtain ⟨first, hfirst, -⟩ := h.first
    have hne : name ≠ [] := fun hnil => by rw [hnil] at hfirst; cases hfirst
    obtain ⟨c', hc', hmem⟩ := head?_qualified h.parts hne rest
    have hcc : c = c' := Option.some.inj (hc.symm.trans hc')
    subst hcc
    subst heq
    rcases hmem with ⟨part, hpart, hmem⟩ | ⟨-, hmem⟩
    · exact (hparts part hpart).notMem (by decide) hmem
    · exact hname.notMem (by decide) hmem

/-- A type that is printed is read again. -/
theorem fromStr_display {ty : Ty} (h : Parsed ty) (hwords : ty.Words) (hqualified : ty.Unqualified) :
    fromStr ty.display = .ok ty := by
  induction h with
  | @plain nameSpace name bare genericRef hnamed =>
    obtain ⟨hparts, hname⟩ := hwords
    have hstrip := stripReference_displayName hnamed hparts hname hqualified []
    rw [List.append_nil, List.append_nil] at hstrip
    rw [display, fromStr_plain hstrip (notMem_qualified hparts hname (by decide) (by decide))]
    exact ofName_ok _ _ hnamed (fun part hpart => (hparts part hpart).notMem (by decide))
      (hname.notMem (by decide))
  | @generic nameSpace name bare arg genericRef hnamed _ ih =>
    obtain ⟨⟨hparts, hname⟩, harg⟩ := hwords
    have hstrip := stripReference_displayName hnamed hparts hname hqualified.1
      ('<' :: arg.display ++ ['>'])
    rw [← List.append_assoc, ← List.append_assoc] at hstrip
    rw [display, fromStr_generic hstrip (notMem_qualified hparts hname (by decide) (by decide)),
      ih harg hqualified.2]
    exact ofName_ok _ _ hnamed (fun part hpart => (hparts part hpart).notMem (by decide))
      (hname.notMem (by decide))

/-- Behind a namespace the mark is read as the first sign of the name. -/
theorem name_of_fromStr_display {nameSpace : List Text} {name : Text} {bare : Bool}
    {genericArg : Option Ty} {ty : Ty} (h : Named nameSpace name bare)
    (hwords : (⟨nameSpace, name, bare, true, genericArg⟩ : Ty).Words) (hne : nameSpace ≠ [])
    (hparse : fromStr (display ⟨nameSpace, name, bare, true, genericArg⟩) = .ok ty) :
    ty.name = '!' :: name := by
  have hboth : (∀ part ∈ nameSpace, Word part) ∧ Word name := by
    cases genericArg with
    | none => exact hwords
    | some arg => exact hwords.1
  obtain ⟨hparts, hname⟩ := hboth
  have hnamed : displayName nameSpace name true = qualified nameSpace ('!' :: name) := by
    simp [displayName, qualified]
  have hless : '<' ∉ qualified nameSpace ('!' :: name) := by
    intro hmem
    rcases mem_qualified hmem with ⟨part, hpart, hmem⟩ | heq | hmem
    · exact (hparts part hpart).notMem (by decide) hmem
    · cases heq
    · rcases List.mem_cons.mp hmem with heq | hmem
      · cases heq
      · exact hname.notMem (by decide) hmem
  have hcomponents : components (qualified nameSpace ('!' :: name)) = (nameSpace, '!' :: name) := by
    refine components_qualified (fun part hpart => (hparts part hpart).notMem (by decide)) ?_
    intro hmem
    rcases List.mem_cons.mp hmem with heq | hmem
    · cases heq
    · exact hname.notMem (by decide) hmem
  have hstrip : ∀ rest, stripReference (qualified nameSpace ('!' :: name) ++ rest) =
      (qualified nameSpace ('!' :: name) ++ rest, false) := by
    intro rest
    refine stripReference_eq fun c hc heq => ?_
    obtain ⟨c', hc', hmem⟩ := head?_qualified h.parts (List.cons_ne_nil '!' name) rest
    have hcc : c = c' := Option.some.inj (hc.symm.trans hc')
    subst hcc
    subst heq
    rcases hmem with ⟨part, hpart, hmem⟩ | ⟨hnil, -⟩
    · exact (hparts part hpart).notMem (by decide) hmem
    · exact hne hnil
  have hread : ∀ {genericArg : Option Ty},
      ofName (qualified nameSpace ('!' :: name)) false genericArg = .ok ty → ty.name = '!' :: name := by
    intro genericArg hok
    obtain ⟨nameSpace', name', bare', rfl, heq, -⟩ := ofName_eq_ok hok
    rw [hcomponents] at heq
    exact (Prod.mk.inj heq).2.symm
  cases genericArg with
  | none =>
    have hstrip' := hstrip []
    rw [List.append_nil] at hstrip'
    rw [display, hnamed, fromStr_plain hstrip' hless] at hparse
    exact hread hparse
  | some arg =>
    have hstrip' := hstrip ('<' :: arg.display ++ ['>'])
    rw [← List.append_assoc] at hstrip'
    rw [display, hnamed, fromStr_generic hstrip' hless] at hparse
    obtain ⟨ty', -, hok⟩ := Checked.bind_eq_ok hparse
    exact hread hok

/-- The signs of a type. -/
theorem mem_display {ty : Ty} (h : ty.Words) {c : Char} (hc : c ∈ ty.display) :
    isWordChar c = true ∨ c ∈ ".!<>".toList := by
  have hhead : ∀ {nameSpace : List Text} {name : Text} {genericRef : Bool},
      (∀ part ∈ nameSpace, Word part) ∧ Word name → c ∈ displayName nameSpace name genericRef →
      isWordChar c = true ∨ c ∈ ".!<>".toList := by
    rintro nameSpace name genericRef ⟨hparts, hname⟩ hmem
    simp only [displayName, List.mem_append, List.mem_flatMap, List.mem_singleton] at hmem
    rcases hmem with (⟨part, hpart, hmem | rfl⟩ | hmem) | hmem
    · exact .inl (hparts part hpart c hmem)
    · exact .inr (by decide)
    · split at hmem
      next =>
        obtain rfl := List.mem_singleton.mp hmem
        exact .inr (by decide)
      next => cases hmem
    · exact .inl (hname c hmem)
  match ty, h, hc with
  | ⟨nameSpace, name, _, genericRef, none⟩, h, hc => exact hhead h hc
  | ⟨nameSpace, name, _, genericRef, some arg⟩, h, hc =>
    rw [display, List.mem_append, List.mem_append, List.mem_cons, List.mem_singleton] at hc
    rcases hc with (hc | rfl | hc) | rfl
    · exact hhead h.1 hc
    · exact .inr (by decide)
    · exact mem_display h.2 hc
    · exact .inr (by decide)

theorem Parsed.name_ne {ty : Ty} (h : Parsed ty) : ty.name ≠ [] := by
  have hfirst : ∃ nameSpace bare, Named nameSpace ty.name bare := by
    cases h with
    | plain _ hnamed => exact ⟨_, _, hnamed⟩
    | generic _ hnamed _ => exact ⟨_, _, hnamed⟩
  obtain ⟨_, _, hnamed⟩ := hfirst
  obtain ⟨first, hfirst, -⟩ := hnamed.first
  intro hnil
  rw [hnil] at hfirst
  cases hfirst

theorem display_ne_nil {ty : Ty} (h : Parsed ty) : ty.display ≠ [] := by
  have hname := h.name_ne
  cases h with
  | plain _ _ =>
    intro hnil
    exact hname (List.append_eq_nil_iff.mp hnil).2
  | generic _ _ _ =>
    intro hnil
    exact absurd (List.append_eq_nil_iff.mp hnil).2 (by simp)

end Ty

namespace Flag

theorem fromStr_display {flag : Flag} (hname : Word flag.name) (hindex : flag.index < 2 ^ 64) :
    fromStr flag.display = .ok flag := by
  unfold fromStr display
  have hread : Radix.parse 10 (2 ^ 64) (Nat.toDigits 10 flag.index) = .ok flag.index :=
    Radix.parse_toDigits (by decide) (by decide) hindex
  rw [splitOnce_append (hname.ne (by decide)) (decide_eq_true rfl)]
  simp only [hread]

theorem index_lt {text : Text} {flag : Flag} (h : fromStr text = .ok flag) :
    flag.index < 2 ^ 64 := by
  unfold fromStr at h
  split at h
  next name index hsplit =>
    split at h
    next value hparse =>
      cases h
      exact Radix.parse_lt (by decide) hparse
    next => cases h
  next => cases h

theorem mem_display {flag : Flag} (hname : Word flag.name) {c : Char} (hc : c ∈ flag.display) :
    isWordChar c = true ∨ c = '.' := by
  rw [display, List.mem_append, List.mem_cons] at hc
  rcases hc with hc | rfl | hc
  · exact .inl (hname c hc)
  · exact .inr rfl
  · refine .inl ?_
    rw [isWordChar, Radix.isAlphanum_of_mem_toDigits (by decide) (by decide) c hc]
    rfl

end Flag

namespace ParameterType

def Words : ParameterType → Prop
  | .flags => True
  | .normal ty flag => ty.Words ∧ ∀ f, flag = some f → Word f.name

def Unqualified : ParameterType → Prop
  | .flags => True
  | .normal ty _ => ty.Unqualified

def Parsed : ParameterType → Prop
  | .flags => True
  | .normal ty flag => ty.Parsed ∧ ∀ f, flag = some f → f.index < 2 ^ 64

theorem display_ne_nil {ty : ParameterType} (h : ty.Parsed) : ty.display ≠ [] := by
  match ty, h with
  | .flags, _ => exact List.cons_ne_nil _ _
  | .normal ty none, h => exact Ty.display_ne_nil h.1
  | .normal ty (some flag), _ => simp [display]

theorem fromStr_display {ty : ParameterType} (h : ty.Parsed) (hwords : ty.Words)
    (hqualified : ty.Unqualified) : fromStr ty.display = .ok ty := by
  have hne := display_ne_nil h
  unfold fromStr
  rw [if_neg hne]
  match ty, h, hwords, hqualified with
  | .flags, _, _, _ => rfl
  | .normal ty none, h, hwords, hqualified =>
    have hsigns : ∀ c ∈ ty.display, c ≠ '#' ∧ c ≠ '?' := by
      intro c hc
      rcases Ty.mem_display hwords.1 hc with hword | hsign
      · refine ⟨?_, ?_⟩ <;> rintro rfl <;> cases hword
      · have hcases : c = '.' ∨ c = '!' ∨ c = '<' ∨ c = '>' := by simpa using hsign
        rcases hcases with rfl | rfl | rfl | rfl <;> decide
    have hflags : ty.display ≠ ['#'] := fun heq => (hsigns '#' (by rw [heq]; simp)).1 rfl
    rw [display, if_neg hflags, splitOnce_none fun c hc => decide_eq_false (hsigns c hc).2,
      Ty.fromStr_display h.1 hwords.1 hqualified]
    rfl
  | .normal ty (some flag), h, hwords, hqualified =>
    have hquestion : ∀ c ∈ flag.display, decide (c = '?') = false := by
      rintro c hc
      rcases Flag.mem_display (hwords.2 flag rfl) hc with hword | rfl
      · exact decide_eq_false (by rintro rfl; cases hword)
      · rfl
    have hflags : display (.normal ty (some flag)) ≠ ['#'] := by
      intro heq
      have hlength := congrArg List.length heq
      simp only [display, Flag.display, List.length_append, List.length_cons, List.length_nil] at hlength
      omega
    have hflag := Flag.fromStr_display (hwords.2 flag rfl) (h.2 flag rfl)
    have hty := Ty.fromStr_display h.1 hwords.1 hqualified
    rw [if_neg hflags, display, splitOnce_append hquestion (decide_eq_true rfl)]
    simp only [hflag, hty]
    rfl

theorem parsed_of_fromStr {text : Text} {ty : ParameterType} (h : fromStr text = .ok ty) :
    ty.Parsed := by
  unfold fromStr at h
  split at h
  next => cases h
  next =>
    split at h
    next =>
      cases h
      exact trivial
    next =>
      split at h
      next flag ty' hsplit =>
        obtain ⟨flag', hflag, h⟩ := Checked.bind_eq_ok h
        obtain ⟨ty'', hty, h⟩ := Checked.bind_eq_ok h
        cases h
        refine ⟨Ty.parsed_of_fromStr hty, fun f hf => ?_⟩
        cases hf
        exact Flag.index_lt hflag
      next =>
        obtain ⟨ty'', hty, h⟩ := Checked.bind_eq_ok h
        cases h
        exact ⟨Ty.parsed_of_fromStr hty, fun f hf => by cases hf⟩

/-- The signs of the type of a parameter. -/
theorem mem_display {ty : ParameterType} (h : ty.Words) {c : Char} (hc : c ∈ ty.display) :
    isWordChar c = true ∨ c ∈ ".!<>?#".toList := by
  have hty : ∀ {ty : Ty}, ty.Words → c ∈ ty.display →
      isWordChar c = true ∨ c ∈ ".!<>?#".toList :=
    fun hwords hmem => (Ty.mem_display hwords hmem).imp_right fun hsign =>
      List.mem_append_left "?#".toList hsign
  match ty, h, hc with
  | .flags, _, hc =>
    obtain rfl := List.mem_singleton.mp hc
    exact .inr (by decide)
  | .normal ty none, h, hc => exact hty h.1 hc
  | .normal ty (some flag), h, hc =>
    rw [display, List.mem_append, List.mem_cons] at hc
    rcases hc with hc | rfl | hc
    · rcases Flag.mem_display (h.2 flag rfl) hc with hword | rfl
      · exact .inl hword
      · exact .inr (by decide)
    · exact .inr (by decide)
    · exact hty h.1 hc

end ParameterType

namespace Parameter

structure Words (param : Parameter) : Prop where
  name : Word param.name
  ty : param.ty.Words

structure Parsed (param : Parameter) : Prop where
  name : param.name ≠ []
  ty : param.ty.Parsed

/-- What a parameter starts with does not define a type. -/
theorem dropPrefix?_display {param : Parameter} (h : param.Parsed) (hwords : param.Words) :
    param.display.dropPrefix? ['{'] = none := by
  obtain ⟨name, ty⟩ := param
  cases name with
  | nil => exact absurd rfl h.name
  | cons c name =>
    have hc : c ≠ '{' := by
      rintro rfl
      exact Bool.noConfusion (hwords.name '{' (by simp))
    rw [display, List.cons_append, List.dropPrefix?]
    rw [if_neg (by simpa using hc)]

theorem fromStr_display {param : Parameter} (h : param.Parsed) (hwords : param.Words)
    (hqualified : param.ty.Unqualified) : fromStr param.display = .ok param := by
  have hsplit : splitOnce (· = ':') param.display = some (param.name, param.ty.display) :=
    splitOnce_append (hwords.name.ne (by decide)) (decide_eq_true rfl)
  have hty := ParameterType.fromStr_display h.ty hwords.ty hqualified
  have hne : (decide (param.name = []) || decide (param.ty.display = [])) = false := by
    simp [h.name, ParameterType.display_ne_nil h.ty]
  unfold fromStr
  rw [dropPrefix?_display h hwords]
  simp only [hsplit, hne, hty]
  rfl

theorem parsed_of_fromStr {text : Text} {param : Parameter} (h : fromStr text = .ok param) :
    param.Parsed := by
  unfold fromStr at h
  split at h
  next =>
    split at h
    next => cases h
    next => cases h
  next =>
    split at h
    next => cases h
    next name ty hsplit =>
      split at h
      next => cases h
      next hne =>
        obtain ⟨ty', hty, h⟩ := Checked.bind_eq_ok h
        cases h
        refine ⟨fun hnil => hne ?_, ParameterType.parsed_of_fromStr hty⟩
        rw [show name = [] from hnil]
        rfl

theorem fromStr_typeDef (name : Text) :
    fromStr ('{' :: name ++ ":Type\x7d".toList) = .error (.typeDef name) := by
  have hfront : ('{' :: (name ++ ":Type\x7d".toList)).dropPrefix? ['{'] =
      some (name ++ ":Type\x7d".toList) :=
    List.dropPrefix?_append_of_beq _ (beq_self_eq_true ['{'])
  have hsuffix : (name ++ ":Type\x7d".toList).dropSuffix? ":Type\x7d".toList = some name :=
    List.dropSuffix?_eq_some_iff.mpr ⟨_, rfl, beq_self_eq_true _⟩
  unfold fromStr
  rw [List.cons_append, hfront]
  simp only [hsuffix]

end Parameter

/-! The parameters of a definition, one after another. -/

/-- The flags that parameters depend on are defined before them. -/
def FlagsDefined : List Text → List Parameter → Prop
  | _, [] => True
  | flagDefs, ⟨name, .flags⟩ :: params => FlagsDefined (flagDefs ++ [name]) params
  | flagDefs, ⟨_, .normal _ flag⟩ :: params =>
    (∀ f, flag = some f → f.name ∈ flagDefs) ∧ FlagsDefined flagDefs params

/-- The generic type that a parameter refers to, if it does, is among some. -/
def Parameter.RefersTo (typeDefs : List Text) (param : Parameter) : Prop :=
  ∀ ty flag, param.ty = .normal ty flag → ty.genericRef = true → ty.name ∈ typeDefs

/-- What is known of parameters that were read, and of the names of generic types then. -/
structure ParamsParsed (tokens typeDefs flagDefs : List Text) (params : List Parameter)
    (typeDefs' : List Text) : Prop where
  parsed : ∀ param ∈ params, param.Parsed
  flags : FlagsDefined flagDefs params
  refers : ∀ param ∈ params, param.RefersTo typeDefs'
  typeDefs : ∀ name, name ∈ typeDefs' ↔
    name ∈ typeDefs ∨ ∃ token ∈ tokens, Parameter.fromStr token = .error (.typeDef name)

theorem paramsParsed_of_parseParams {tokens typeDefs flagDefs : List Text} {params : List Parameter}
    {typeDefs' : List Text} (h : parseParams tokens typeDefs flagDefs = .ok (params, typeDefs')) :
    ParamsParsed tokens typeDefs flagDefs params typeDefs' := by
  induction tokens generalizing typeDefs flagDefs params typeDefs' with
  | nil =>
    cases h
    exact ⟨by simp, trivial, by simp, by simp⟩
  | cons token tokens ih =>
    rw [parseParams] at h
    split at h
    next name htoken =>
      obtain ⟨hparsed, hflags, hrefers, hdefs⟩ := ih h
      refine ⟨hparsed, hflags, hrefers, fun name' => ?_⟩
      rw [hdefs, List.mem_append, List.mem_singleton, List.exists_mem_cons_iff, htoken, or_assoc]
      simp [eq_comm]
    next => cases h
    next => cases h
    next name htoken =>
      obtain ⟨⟨params', typeDefs''⟩, hrest, h⟩ := Checked.bind_eq_ok h
      cases h
      obtain ⟨hparsed, hflags, hrefers, hdefs⟩ := ih hrest
      refine ⟨List.forall_mem_cons.mpr ⟨Parameter.parsed_of_fromStr htoken, hparsed⟩, hflags,
        List.forall_mem_cons.mpr ⟨fun ty flag hty => (by cases hty), hrefers⟩, fun name' => ?_⟩
      rw [hdefs, List.exists_mem_cons_iff, htoken]
      simp
    next name ty flag htoken =>
      split at h
      next => cases h
      next hreference =>
        split at h
        next => cases h
        next hflag =>
          obtain ⟨⟨params', typeDefs''⟩, hrest, h⟩ := Checked.bind_eq_ok h
          cases h
          obtain ⟨hparsed, hflags, hrefers, hdefs⟩ := ih hrest
          have hhead : Parameter.RefersTo typeDefs' ⟨name, .normal ty flag⟩ := by
            intro ty' flag' hty href
            cases hty
            rw [href, Bool.true_and, Bool.not_eq_true', Bool.not_eq_false,
              List.contains_iff_mem] at hreference
            exact (hdefs ty.name).mpr (.inl hreference)
          have hdefined : ∀ f, flag = some f → f.name ∈ flagDefs := by
            rintro f rfl
            rw [Option.any_some, Bool.not_eq_true', Bool.not_eq_false,
              List.contains_iff_mem] at hflag
            exact hflag
          refine ⟨List.forall_mem_cons.mpr ⟨Parameter.parsed_of_fromStr htoken, hparsed⟩,
            ⟨hdefined, hflags⟩, List.forall_mem_cons.mpr ⟨hhead, hrefers⟩, fun name' => ?_⟩
          rw [hdefs, List.exists_mem_cons_iff, htoken]
          simp

/-- Parameters that are printed are read again, once the generic types are known. -/
theorem parseParams_display {params : List Parameter} {typeDefs flagDefs : List Text}
    (hparsed : ∀ param ∈ params, param.Parsed) (hwords : ∀ param ∈ params, param.Words)
    (hqualified : ∀ param ∈ params, param.ty.Unqualified) (hflags : FlagsDefined flagDefs params)
    (hrefers : ∀ param ∈ params, param.RefersTo typeDefs) :
    parseParams (params.map Parameter.display) typeDefs flagDefs = .ok (params, typeDefs) := by
  induction params generalizing flagDefs with
  | nil => rfl
  | cons param params ih =>
    rw [List.forall_mem_cons] at hparsed hwords hqualified hrefers
    have htoken := Parameter.fromStr_display hparsed.1 hwords.1 hqualified.1
    rw [List.map_cons, parseParams, htoken]
    obtain ⟨name, ty⟩ := param
    cases ty with
    | flags =>
      have hrest := ih hparsed.2 hwords.2 hqualified.2 hflags hrefers.2
      simp only [hrest]
      rfl
    | normal ty flag =>
      have hrest := ih hparsed.2 hwords.2 hqualified.2 hflags.2 hrefers.2
      have hreference : (ty.genericRef && !typeDefs.contains ty.name) = false := by
        cases href : ty.genericRef with
        | false => rfl
        | true =>
          have hmem := List.contains_iff_mem.mpr (hrefers.1 ty flag rfl href)
          rw [hmem]
          rfl
      have hflag : (flag.any fun flag => !flagDefs.contains flag.name) = false := by
        cases flag with
        | none => rfl
        | some f =>
          have hmem := List.contains_iff_mem.mpr (hflags.1 f rfl)
          rw [Option.any_some, hmem]
          rfl
      simp only [hreference, hflag, hrest]
      rfl

theorem parseParams_typeDefs (names tokens typeDefs flagDefs : List Text) :
    parseParams (names.map (fun name => '{' :: name ++ ":Type\x7d".toList) ++ tokens) typeDefs flagDefs =
      parseParams tokens (typeDefs ++ names) flagDefs := by
  induction names generalizing typeDefs with
  | nil => simp
  | cons name names ih =>
    rw [List.map_cons, List.cons_append, parseParams, Parameter.fromStr_typeDef]
    simp only
    rw [ih, List.append_assoc, List.singleton_append]

theorem mem_dedup {a : Text} {names : List Text} : a ∈ dedup names ↔ a ∈ names := by
  induction names using dedup.induct with
  | case1 => rfl
  | case2 b => rfl
  | case3 b rest ih => simp [dedup, ih]
  | case4 b b' rest hne ih =>
    rw [dedup, if_neg hne, List.mem_cons, ih]
    simp

/-! Generic references. -/

namespace Ty

/-- A generic reference is unqualified, and is not in a generic argument. -/
def WholeRef (ty : Ty) : Prop :=
  (ty.genericRef = true → ty.nameSpace = []) ∧
    ∀ arg, ty.genericArg = some arg → arg.findGenericRefs = []

theorem unqualified_of_no_refs {ty : Ty} (h : ty.findGenericRefs = []) : ty.Unqualified := by
  match ty, h with
  | ⟨nameSpace, name, _, genericRef, none⟩, h =>
    rintro rfl
    cases h
  | ⟨nameSpace, name, _, genericRef, some arg⟩, h =>
    obtain ⟨houter, harg⟩ := List.append_eq_nil_iff.mp h
    refine ⟨?_, unqualified_of_no_refs harg⟩
    rintro rfl
    cases houter

theorem mark_eq {ty : Ty} (h : ty.genericRef = true) : { ty with genericRef := true } = ty := by
  cases ty
  cases h
  rfl

theorem unqualified_mark {ty : Ty} (hnil : ty.nameSpace = []) (h : ty.findGenericRefs = []) :
    ({ ty with genericRef := true } : Ty).Unqualified := by
  match ty, hnil, h with
  | ⟨_, _, _, _, none⟩, hnil, _ => exact fun _ => hnil
  | ⟨_, _, _, _, some arg⟩, hnil, h =>
    exact ⟨fun _ => hnil, unqualified_of_no_refs (List.append_eq_nil_iff.mp h).2⟩

theorem WholeRef.unqualified {ty : Ty} (h : ty.WholeRef) : ty.Unqualified := by
  match ty, h with
  | ⟨nameSpace, name, _, genericRef, none⟩, h => exact h.1
  | ⟨nameSpace, name, _, genericRef, some arg⟩, h =>
    exact ⟨h.1, unqualified_of_no_refs (h.2 arg rfl)⟩

theorem WholeRef.mem {ty : Ty} (h : ty.WholeRef) {name : Text} (hmem : name ∈ ty.findGenericRefs) :
    ty.genericRef = true ∧ name = ty.name := by
  match ty, h, hmem with
  | ⟨_, _, _, genericRef, none⟩, _, hmem =>
    cases genericRef with
    | false => cases hmem
    | true => exact ⟨rfl, List.mem_singleton.mp hmem⟩
  | ⟨_, _, _, genericRef, some arg⟩, h, hmem =>
    rw [findGenericRefs, h.2 arg rfl, List.append_nil] at hmem
    cases genericRef with
    | false => cases hmem
    | true => exact ⟨rfl, List.mem_singleton.mp hmem⟩

theorem Words.name {ty : Ty} (h : ty.Words) : Word ty.name := by
  match ty, h with
  | ⟨_, _, _, _, none⟩, h => exact h.2
  | ⟨_, _, _, _, some _⟩, h => exact h.1.2

/-- Without the mark in a text there is no reference in its type. -/
theorem no_refs_of_fromStr {text : Text} {ty : Ty} (h : fromStr text = .ok ty) (hmark : '!' ∉ text) :
    ty.findGenericRefs = [] := by
  induction hlength : text.length using Nat.strong_induction_on generalizing text ty with
  | _ n ih =>
  have hstrip : stripReference text = (text, false) := by
    refine stripReference_eq fun c hc heq => hmark ?_
    subst heq
    exact List.mem_of_mem_head? hc
  rcases fromStr_eq_ok h with hplain | ⟨name, arg, ty', htext, hparse, hgeneric⟩
  · obtain ⟨nameSpace, name, bare, rfl, -⟩ := ofName_eq_ok hplain
    rw [hstrip]
    rfl
  · obtain ⟨nameSpace, name', bare, rfl, -⟩ := ofName_eq_ok hgeneric
    rw [hstrip] at htext ⊢
    change text = _ at htext
    have harg : ty'.findGenericRefs = [] := by
      refine ih arg.length ?_ hparse (fun hmem => hmark ?_) rfl
      · rw [← hlength, htext]
        simp
        omega
      · rw [htext]
        simp [hmem]
    rw [findGenericRefs, harg]
    rfl

end Ty

def ParameterType.WholeRef : ParameterType → Prop
  | .flags => True
  | .normal ty _ => ty.WholeRef

theorem ParameterType.WholeRef.unqualified {ty : ParameterType} (h : ty.WholeRef) :
    ty.Unqualified := by
  match ty, h with
  | .flags, _ => trivial
  | .normal _ _, h => exact Ty.WholeRef.unqualified h

/-! The pieces of a definition that is printed. -/

namespace Definition

structure Words (d : Definition) : Prop where
  nameSpace : ∀ part ∈ d.nameSpace, Word part
  name : Word d.name
  params : ∀ param ∈ d.params, param.Words
  ty : d.ty.Words

/-- The tokens that are printed left of the sign of equality, but for the name. -/
def middle (d : Definition) : List Text :=
  d.typeDefs.map (fun name => '{' :: name ++ ":Type\x7d".toList) ++ d.params.map Parameter.display

/-- The name with its identifier. -/
def fullName (d : Definition) : Text :=
  qualified d.nameSpace d.name ++ '#' :: Nat.toDigits 16 d.id.toNat

theorem display_eq (d : Definition) :
    d.display = unwords (d.fullName :: d.middle) ++ [' '] ++ '=' :: ' ' :: d.ty.display := by
  simp only [display, unwords, fullName, middle, List.flatMap_append, List.flatMap_map,
    List.append_assoc]
  rfl

theorem mem_typeDefs {d : Definition} {name : Text} :
    name ∈ d.typeDefs ↔ ∃ param ∈ d.params, name ∈ param.genericRefs := by
  rw [typeDefs, mem_dedup, List.mem_mergeSort, List.mem_flatMap]

/-- What is known of a definition that was read, with its generic references in the whole types of
parameters. -/
structure Printable (d : Definition) : Prop where
  words : d.Words
  parts : ∀ part ∈ d.nameSpace, part ≠ []
  name : d.name ≠ []
  parsed : ∀ param ∈ d.params, param.Parsed
  flags : FlagsDefined [] d.params
  whole : ∀ param ∈ d.params, param.ty.WholeRef
  ty : d.ty.Parsed
  category : d.category = .types

namespace Printable

variable {d : Definition}

/-- The generic types that are defined early are those that parameters refer to. -/
theorem mem_typeDefs_iff (h : d.Printable) {name : Text} : name ∈ d.typeDefs ↔
    ∃ param ∈ d.params, ∃ ty flag, param.ty = .normal ty flag ∧ ty.genericRef = true ∧
      name = ty.name := by
  rw [mem_typeDefs]
  refine exists_congr fun param => and_congr_right fun hparam => ?_
  have hwhole := h.whole param hparam
  obtain ⟨name', ty⟩ := param
  cases ty with
  | flags =>
    refine ⟨fun hmem => (by cases hmem), ?_⟩
    rintro ⟨ty, flag, hty, -⟩
    cases hty
  | normal ty flag =>
    constructor
    · intro hmem
      obtain ⟨href, rfl⟩ := Ty.WholeRef.mem hwhole hmem
      exact ⟨ty, flag, rfl, href, rfl⟩
    · rintro ⟨ty', flag', hty, href, rfl⟩
      cases hty
      obtain ⟨nameSpace, name, bare, genericRef, genericArg⟩ := ty
      obtain rfl : genericRef = true := href
      cases genericArg with
      | none => exact List.mem_singleton_self _
      | some arg => exact List.mem_cons_self

theorem refersTo (h : d.Printable) : ∀ param ∈ d.params, param.RefersTo d.typeDefs :=
  fun param hparam ty flag hty href =>
    h.mem_typeDefs_iff.mpr ⟨param, hparam, ty, flag, hty, href, rfl⟩

theorem sign_of {c : Char} (h : isWordChar c = true ∨ c ∈ ".!<>?#:{}".toList) :
    isWhiteSpace c = false ∧ c ≠ '=' := by
  rcases h with hword | hsign
  · have hrange := isWordChar_range hword
    refine ⟨isWhiteSpace_of_range (by omega), ?_⟩
    rintro rfl
    cases hword
  · have hcases : c = '.' ∨ c = '!' ∨ c = '<' ∨ c = '>' ∨ c = '?' ∨ c = '#' ∨ c = ':' ∨ c = '{' ∨
        c = '}' := by simpa using hsign
    rcases hcases with rfl | rfl | rfl | rfl | rfl | rfl | rfl | rfl | rfl <;> decide

theorem fullName_signs (h : d.Printable) : ∀ c ∈ d.fullName, isWhiteSpace c = false ∧ c ≠ '=' := by
  intro c hc
  refine sign_of ?_
  rw [fullName, List.mem_append, List.mem_cons] at hc
  rcases hc with hc | rfl | hc
  · rcases mem_qualified hc with ⟨part, hpart, hc⟩ | rfl | hc
    · exact .inl (h.words.nameSpace part hpart c hc)
    · exact .inr (by decide)
    · exact .inl (h.words.name c hc)
  · exact .inr (by decide)
  · refine .inl ?_
    rw [isWordChar, Radix.isAlphanum_of_mem_toDigits (by decide) (by decide) c hc]
    rfl

theorem middle_signs (h : d.Printable) :
    ∀ token ∈ d.middle, token ≠ [] ∧ ∀ c ∈ token, isWhiteSpace c = false ∧ c ≠ '=' := by
  intro token htoken
  rw [middle, List.mem_append] at htoken
  rcases htoken with htoken | htoken
  · obtain ⟨name, hname, rfl⟩ := List.mem_map.mp htoken
    refine ⟨by simp, fun c hc => sign_of ?_⟩
    obtain ⟨param, hparam, ty, flag, hty, -, rfl⟩ := h.mem_typeDefs_iff.mp hname
    have hwords := (h.words.params param hparam).ty
    rw [hty] at hwords
    simp only [List.cons_append, List.mem_cons, List.mem_append] at hc
    rcases hc with rfl | hc | hc
    · exact .inr (by decide)
    · exact .inl (hwords.1.name c hc)
    · have hcases : c = ':' ∨ c = 'T' ∨ c = 'y' ∨ c = 'p' ∨ c = 'e' ∨ c = '}' := by simpa using hc
      rcases hcases with rfl | rfl | rfl | rfl | rfl | rfl
      · exact .inr (by decide)
      · exact .inl (by decide)
      · exact .inl (by decide)
      · exact .inl (by decide)
      · exact .inl (by decide)
      · exact .inr (by decide)
  · obtain ⟨param, hparam, rfl⟩ := List.mem_map.mp htoken
    refine ⟨by simp [Parameter.display], fun c hc => sign_of ?_⟩
    have hwords := h.words.params param hparam
    rw [Parameter.display, List.mem_append, List.mem_cons] at hc
    rcases hc with hc | rfl | hc
    · exact .inl (hwords.name c hc)
    · exact .inr (by decide)
    · exact (ParameterType.mem_display hwords.ty hc).imp_right fun hsign =>
        List.mem_append_left ":{}".toList hsign

theorem ty_signs (h : d.Printable) : ∀ c ∈ d.ty.display, isWhiteSpace c = false ∧ c ≠ '=' :=
  fun _ hc => sign_of ((Ty.mem_display h.words.ty hc).imp_right fun hsign =>
    List.mem_append_left "?#:{}".toList hsign)

theorem unwords_ne_nil {name : Text} {tokens : List Text} (hname : name ≠ []) :
    unwords (name :: tokens) ≠ [] := by
  intro hnil
  exact hname (List.append_eq_nil_iff.mp hnil).1

/-- Tokens start and end without white space. -/
theorem unwords_ends {name : Text} {tokens : List Text} (hname : name ≠ [])
    (hnames : ∀ c ∈ name, isWhiteSpace c = false)
    (htokens : ∀ token ∈ tokens, token ≠ [] ∧ ∀ c ∈ token, isWhiteSpace c = false) :
    (∀ c, (unwords (name :: tokens)).head? = some c → isWhiteSpace c = false) ∧
      ∀ c, (unwords (name :: tokens)).getLast? = some c → isWhiteSpace c = false := by
  constructor
  · intro c hc
    cases name with
    | nil => exact absurd rfl hname
    | cons d name => exact hnames c (by cases hc; simp)
  · intro c hc
    rcases List.eq_nil_or_concat' tokens with rfl | ⟨tokens', token, rfl⟩
    · rw [unwords, List.flatMap_nil, List.append_nil] at hc
      exact hnames c (List.mem_of_getLast? hc)
    · obtain ⟨hne, htoken⟩ := htokens token (by simp)
      refine htoken c (List.mem_of_getLast? ?_)
      rw [unwords, List.flatMap_append, List.flatMap_singleton, ← List.append_assoc,
        List.append_cons, List.getLast?_append_of_ne_nil _ hne] at hc
      exact hc

theorem unwords_cons_cons (name token : Text) (tokens : List Text) :
    unwords (name :: token :: tokens) = name ++ ' ' :: unwords (token :: tokens) := by
  simp [unwords]

theorem splitName_unwords {name : Text} {tokens : List Text}
    (hnames : ∀ c ∈ name, isWhiteSpace c = false)
    (htokens : ∀ token ∈ tokens, token ≠ [] ∧ ∀ c ∈ token, isWhiteSpace c = false) :
    splitName (unwords (name :: tokens)) = (name, unwords tokens) := by
  unfold splitName
  cases tokens with
  | nil =>
    have hall : unwords [name] = name := by simp [unwords]
    rw [hall, splitOnce_none hnames]
    rfl
  | cons token tokens =>
    rw [List.forall_mem_cons] at htokens
    have hstart := (unwords_ends htokens.1.1 htokens.1.2 htokens.2).1
    rw [unwords_cons_cons, splitOnce_append hnames rfl]
    simp only
    rw [trimStart_eq hstart, trimEnd_eq fun c hc => hnames c (List.mem_of_getLast? hc)]

theorem fullName_ne_nil (d : Definition) : d.fullName ≠ [] := by
  simp [fullName]

theorem splitDefinition_display (h : d.Printable) :
    splitDefinition d.display = some (unwords (d.fullName :: d.middle), d.ty.display) := by
  have hname := h.fullName_signs
  have hmiddle := h.middle_signs
  have hleft : ∀ c ∈ unwords (d.fullName :: d.middle) ++ [' '], decide (c = '=') = false := by
    intro c hc
    simp only [unwords, List.mem_append, List.mem_flatMap, List.mem_cons, List.not_mem_nil,
      or_false] at hc
    rcases hc with (hc | ⟨token, htoken, rfl | hc⟩) | rfl
    · exact decide_eq_false (hname c hc).2
    · rfl
    · exact decide_eq_false ((hmiddle token htoken).2 c hc).2
    · rfl
  have hends := unwords_ends (fullName_ne_nil d) (fun c hc => (hname c hc).1)
    fun token htoken => ⟨(hmiddle token htoken).1, fun c hc => ((hmiddle token htoken).2 c hc).1⟩
  have hty := h.ty_signs
  rw [splitDefinition, display_eq, splitOnce_append hleft (decide_eq_true rfl), Option.map_some]
  simp only
  rw [(trim_eq hends.1 hends.2 (unwords_ne_nil (fullName_ne_nil d))).1,
    (trim_eq (fun c hc => (hty c (List.mem_of_mem_head? hc)).1)
      (fun c hc => (hty c (List.mem_of_getLast? hc)).1) (Ty.display_ne_nil h.ty)).2]

theorem splitId_fullName (h : d.Printable) : splitId d.fullName =
    (qualified d.nameSpace d.name, some (Nat.toDigits 16 d.id.toNat)) := by
  have hdigits : ∀ c ∈ Nat.toDigits 16 d.id.toNat, isWhiteSpace c = false := by
    intro c hc
    have hword : isWordChar c = true := by
      rw [isWordChar, Radix.isAlphanum_of_mem_toDigits (by decide) (by decide) c hc]
      rfl
    exact (sign_of (.inl hword)).1
  have hname : ∀ c ∈ qualified d.nameSpace d.name, isWhiteSpace c = false := fun c hc =>
    (h.fullName_signs c (List.mem_append_left _ hc)).1
  have hhash : ∀ c ∈ qualified d.nameSpace d.name, decide (c = '#') = false := fun c hc =>
    decide_eq_false fun heq =>
      notMem_qualified h.words.nameSpace h.words.name (c := '#') (by decide) (by decide) (heq ▸ hc)
  rw [splitId, fullName, splitOnce_append hhash (decide_eq_true rfl)]
  simp only
  rw [trimEnd_eq fun c hc => hname c (List.mem_of_getLast? hc),
    trimStart_eq fun c hc => hdigits c (List.mem_of_mem_head? hc)]

theorem parseId_toDigits (crc32 : Bytes → UInt32) (definition : Text) (id : UInt32) :
    parseId crc32 definition (some (Nat.toDigits 16 id.toNat)) = .ok id := by
  have hparse : Radix.parse 16 (2 ^ 32) (Nat.toDigits 16 id.toNat) = .ok id.toNat :=
    Radix.parse_toDigits (by decide) (by decide) id.toNat_lt
  unfold parseId
  simp only [hparse, UInt32.ofNat_toNat]

theorem parseParams_middle (h : d.Printable) :
    parseParams (splitWhitespace (unwords d.middle)) [] [] = .ok (d.params, d.typeDefs) := by
  have hmiddle := h.middle_signs
  rw [splitWhitespace_unwords (fun token htoken => (hmiddle token htoken).1)
    (fun token htoken c hc => ((hmiddle token htoken).2 c hc).1), middle, parseParams_typeDefs,
    List.nil_append]
  exact parseParams_display h.parsed h.words.params
    (fun param hparam => (h.whole param hparam).unqualified) h.flags h.refersTo

/-- What is printed is read again, but for the type, which is read on its own. -/
theorem fromStr_display_eq (h : d.Printable) (crc32 : Bytes → UInt32) :
    fromStr crc32 d.display =
      match Ty.fromStr d.ty.display with
      | .error _ => .error .missingType
      | .ok ty => .ok { d with
          ty := if d.typeDefs.contains ty.name then { ty with genericRef := true } else ty } := by
  have hne : trim d.display ≠ [] := by
    rw [display_eq]
    exact trim_ne_nil (c := '=') (by simp) (by decide)
  have hmiddle := h.middle_signs
  have hsplit := splitName_unwords (fun c hc => (h.fullName_signs c hc).1)
    fun token htoken => ⟨(hmiddle token htoken).1, fun c hc => ((hmiddle token htoken).2 c hc).1⟩
  have hcomponents : components (qualified d.nameSpace d.name) = (d.nameSpace, d.name) :=
    components_qualified (fun part hpart => (h.words.nameSpace part hpart).notMem (by decide))
      (h.words.name.notMem (by decide))
  have hnamed : (d.nameSpace.any List.isEmpty || decide (d.name = [])) = false := by
    have hany : d.nameSpace.any List.isEmpty = false := by
      rw [List.any_eq_false]
      intro part hpart hempty
      exact h.parts part hpart (List.isEmpty_iff.mp hempty)
    rw [hany, decide_eq_false h.name]
    rfl
  have hparams := h.parseParams_middle
  unfold fromStr
  rw [if_neg hne, h.splitDefinition_display]
  simp only [hsplit, h.splitId_fullName, hcomponents, hnamed, parseId_toDigits, hparams]
  cases Ty.fromStr d.ty.display with
  | error e => rfl
  | ok ty =>
    rw [h.category]
    rfl

end Printable

/-! What is known of a definition that was read. -/

/-- The type of a definition has a namespace, and its name is that of a generic type. -/
def QualifiedVariable (text : Text) : Prop :=
  ∃ left right ty, splitDefinition text = some (left, right) ∧ Ty.fromStr right = .ok ty ∧
    ty.nameSpace ≠ [] ∧
    ∃ token ∈ splitWhitespace (splitName left).2, Parameter.fromStr token = .error (.typeDef ty.name)

/-- The names, the parameters and the type of a definition that was read. -/
theorem exists_of_fromStr {crc32 : Bytes → UInt32} {text : Text} {d : Definition}
    (h : fromStr crc32 text = .ok d) : ∃ left right ty typeDefs,
      splitDefinition text = some (left, right) ∧ Ty.fromStr right = .ok ty ∧
      ParamsParsed (splitWhitespace (splitName left).2) [] [] d.params typeDefs ∧
      d.ty = (if typeDefs.contains ty.name then { ty with genericRef := true } else ty) ∧
      (∀ part ∈ d.nameSpace, part ≠ []) ∧ d.name ≠ [] ∧ d.category = .types := by
  unfold fromStr at h
  split at h
  next => cases h
  next =>
    split at h
    next => cases h
    next left right hsplit =>
      split at h
      next => cases h
      next ty hty =>
        simp only at h
        split at h
        next => cases h
        next hnamed =>
          obtain ⟨id, -, h⟩ := Checked.bind_eq_ok h
          obtain ⟨⟨params, typeDefs⟩, hparams, h⟩ := Checked.bind_eq_ok h
          cases h
          rw [Bool.or_eq_true, not_or, decide_eq_true_eq, Bool.not_eq_true, List.any_eq_false] at hnamed
          refine ⟨left, right, ty, typeDefs, hsplit, hty, paramsParsed_of_parseParams hparams, rfl,
            fun part hpart hnil => hnamed.1 part hpart ?_, hnamed.2, rfl⟩
          rw [hnil]
          rfl

theorem printable_of_fromStr {crc32 : Bytes → UInt32} {text : Text} {d : Definition}
    (h : fromStr crc32 text = .ok d) (hwords : d.Words)
    (hwhole : ∀ param ∈ d.params, param.ty.WholeRef) : d.Printable := by
  obtain ⟨left, right, ty, typeDefs, -, hty, hparams, htype, hparts, hname, hcategory⟩ :=
    exists_of_fromStr h
  have hparsed : d.ty.Parsed := by
    have hparsed := Ty.parsed_of_fromStr hty
    rw [htype]
    split
    next =>
      cases hparsed with
      | plain _ hnamed => exact .plain true hnamed
      | generic _ hnamed harg => exact .generic true hnamed harg
    next => exact hparsed
  exact ⟨hwords, hparts, hname, hparams.parsed, hparams.flags, hwhole, hparsed, hcategory⟩

theorem fromStr_display_of_unqualified {crc32 : Bytes → UInt32} {d : Definition} (h : d.Printable)
    (hqualified : d.ty.Unqualified) (hreference : d.ty.name ∈ d.typeDefs → d.ty.genericRef = true) :
    fromStr crc32 d.display = .ok d := by
  rw [h.fromStr_display_eq, Ty.fromStr_display h.ty h.words.ty hqualified]
  simp only
  split
  next hmem =>
    rw [Ty.mark_eq (hreference (List.contains_iff_mem.mp hmem))]
  next => rfl

theorem fromStr_display_ne {crc32 : Bytes → UInt32} {d : Definition} (h : d.Printable)
    (hreference : d.ty.genericRef = true) (hne : d.ty.nameSpace ≠ []) :
    fromStr crc32 d.display ≠ .ok d := by
  intro hok
  rw [h.fromStr_display_eq] at hok
  split at hok
  next => cases hok
  next ty hty =>
    have hname : ty.name = d.ty.name := by
      rw [← Except.ok.inj hok]
      split
      next => rfl
      next => rfl
    have hmark : ty.name = '!' :: d.ty.name := by
      have hparsed := h.ty
      have hwords := h.words.ty
      revert hty hparsed hwords hreference hne
      cases d.ty with
      | mk nameSpace name bare genericRef genericArg =>
        rintro rfl hne hty hparsed hwords
        cases hparsed with
        | plain _ hnamed => exact Ty.name_of_fromStr_display hnamed hwords hne hty
        | generic _ hnamed _ => exact Ty.name_of_fromStr_display hnamed hwords hne hty
    have hlength := congrArg List.length (hname.symm.trans hmark)
    simp at hlength

/-- What is printed of a definition that was read is read as the same definition, exactly where its
type is not a generic type behind a namespace. -/
theorem printed_definition_parses_back_iff (crc32 : Bytes → UInt32) (text : Text) (d : Definition)
    (h : fromStr crc32 text = .ok d) (hwords : d.Words)
    (hwhole : ∀ param ∈ d.params, param.ty.WholeRef)
    (hresult : ∀ left right, splitDefinition text = some (left, right) → '!' ∉ right) :
    fromStr crc32 d.display = .ok d ↔ ¬QualifiedVariable text := by
  have hprintable := printable_of_fromStr h hwords hwhole
  obtain ⟨left, right, ty, typeDefs, hsplit, hty, hparams, htype, -⟩ := exists_of_fromStr h
  have hrefs := Ty.no_refs_of_fromStr hty (hresult left right hsplit)
  have hvariable : QualifiedVariable text ↔ ty.nameSpace ≠ [] ∧ typeDefs.contains ty.name = true := by
    rw [List.contains_iff_mem, hparams.typeDefs]
    constructor
    · rintro ⟨left', right', ty', hsplit', hty', hne, hvariable⟩
      rw [hsplit] at hsplit'
      cases hsplit'
      rw [hty] at hty'
      cases hty'
      exact ⟨hne, .inr hvariable⟩
    · rintro ⟨hne, hvariable⟩
      exact ⟨left, right, ty, hsplit, hty, hne, hvariable.resolve_left (by simp)⟩
  -- A reference in the text that is printed was one in the text that was read.
  have hdefs : ∀ name ∈ d.typeDefs, name ∈ typeDefs := by
    intro name hname
    obtain ⟨param, hparam, ty', flag, hty', href, rfl⟩ := hprintable.mem_typeDefs_iff.mp hname
    exact hparams.refers param hparam ty' flag hty' href
  rw [hvariable]
  by_cases hmem : typeDefs.contains ty.name = true
  · rw [if_pos hmem] at htype
    have hreference : d.ty.genericRef = true := by rw [htype]
    by_cases hne : ty.nameSpace = []
    · refine iff_of_true (fromStr_display_of_unqualified hprintable ?_ fun _ => hreference)
        fun hboth => hboth.1 hne
      rw [htype]
      exact Ty.unqualified_mark hne hrefs
    · refine iff_of_false (fromStr_display_ne hprintable hreference ?_) fun hnot => hnot ⟨hne, hmem⟩
      rw [htype]
      exact hne
  · rw [if_neg hmem] at htype
    refine iff_of_true (fromStr_display_of_unqualified hprintable ?_ fun hname => ?_)
      fun hboth => hmem hboth.2
    · rw [htype]
      exact Ty.unqualified_of_no_refs hrefs
    · rw [htype] at hname
      exact absurd (List.contains_iff_mem.mpr (hdefs _ hname)) hmem

def invokeX (nameSpace : List Text) : Definition where
  nameSpace := []
  name := "a".toList
  id := 1
  params := [⟨"b".toList, .normal ⟨[], "X".toList, false, true, none⟩ none⟩]
  ty := ⟨nameSpace, "X".toList, false, true, none⟩
  category := .types

theorem words_invokeX {nameSpace : List Text} (h : ∀ part ∈ nameSpace, Word part) :
    (invokeX nameSpace).Words := by
  have hname : Word "X".toList := by
    intro c hc
    obtain rfl : c = 'X' := by simpa using hc
    rfl
  refine ⟨by simp [invokeX], ?_, ?_, ⟨h, hname⟩⟩
  · intro c hc
    obtain rfl : c = 'a' := by simpa [invokeX] using hc
    rfl
  · intro param hparam
    obtain rfl := List.mem_singleton.mp hparam
    refine ⟨?_, ⟨by simp, hname⟩, by simp⟩
    intro c hc
    obtain rfl : c = 'b' := by simpa using hc
    rfl

theorem whole_invokeX (nameSpace : List Text) :
    ∀ param ∈ (invokeX nameSpace).params, param.ty.WholeRef := by
  intro param hparam
  obtain rfl := List.mem_singleton.mp hparam
  exact ⟨fun _ => rfl, by simp⟩

theorem printed_definition_parses_back_x :
    fromStr (fun _ => 0) (invokeX []).display = .ok (invokeX []) := by
  have hparse : fromStr (fun _ => 0) "a#1 {X:Type} b:!X = X".toList = .ok (invokeX []) := by
    with_unfolding_all rfl
  have hsplit : splitDefinition "a#1 {X:Type} b:!X = X".toList =
      some ("a#1 {X:Type} b:!X".toList, "X".toList) := by
    decide +kernel
  have hty : Ty.fromStr "X".toList = .ok ⟨[], "X".toList, false, false, none⟩ := by
    with_unfolding_all rfl
  refine (printed_definition_parses_back_iff (fun _ => 0) _ _ hparse (words_invokeX (by simp))
    (whole_invokeX []) ?_).mpr ?_
  · intro left right hsplit'
    rw [hsplit] at hsplit'
    cases hsplit'
    decide
  · rintro ⟨left, right, ty, hsplit', hty', hne, -⟩
    rw [hsplit] at hsplit'
    cases hsplit'
    rw [hty] at hty'
    cases hty'
    exact hne rfl

/-- A type behind a namespace is taken for the generic type of its name, and is printed with the mark
behind the namespace, where it is read as part of the name. -/
theorem printed_definition_does_not_parse_back :
    ∃ text d, fromStr (fun _ => 0) text = .ok d ∧ d.Words ∧
      (∀ param ∈ d.params, param.ty.WholeRef) ∧
      (∀ left right, splitDefinition text = some (left, right) → '!' ∉ right) ∧
      text = "a#1 {X:Type} b:!X = n.X".toList ∧
      d.display = "a#1 {X:Type} b:!X = n.!X".toList ∧
      fromStr (fun _ => 0) d.display ≠ .ok d := by
  have hparse : fromStr (fun _ => 0) "a#1 {X:Type} b:!X = n.X".toList =
      .ok (invokeX ["n".toList]) := by
    with_unfolding_all rfl
  have hword : ∀ part ∈ ["n".toList], Word part := by
    intro part hpart c hc
    obtain rfl := List.mem_singleton.mp hpart
    obtain rfl : c = 'n' := by simpa using hc
    rfl
  have hwords := words_invokeX hword
  have hwhole := whole_invokeX ["n".toList]
  refine ⟨_, _, hparse, hwords, hwhole, ?_, rfl, by decide +kernel,
    fromStr_display_ne (printable_of_fromStr hparse hwords hwhole) rfl (List.cons_ne_nil _ _)⟩
  intro left right hsplit
  have hsplit' : splitDefinition "a#1 {X:Type} b:!X = n.X".toList =
      some ("a#1 {X:Type} b:!X".toList, "n.X".toList) := by
    decide +kernel
  rw [hsplit'] at hsplit
  cases hsplit
  decide

end Definition

end TlParser

end Grammers
