import Grammers.Markdown

namespace Grammers

namespace Parsers

namespace Markdown

open Nesting EntityKind

/-! What a document says. -/

def Leaf.written : Leaf → Text
  | text string => string
  | code string => string
  | hardBreak => ['\n']
  | other => []

/-- What a tag adds to the text behind what it encloses. -/
def Tag.separator : Tag → Text
  | paragraph => ['\n', '\n']
  | _ => []

def textOf : Document → Text
  | .nil => []
  | .leaf a rest => a.written ++ textOf rest
  | .element tag body rest => textOf body ++ (tag.separator ++ textOf rest)

/-- The entities that a tag makes. -/
def Tag.kind : Tag → Option EntityKind
  | strong => some .bold
  | emphasis => some .italic
  | link destUrl => some (linkKind destUrl)
  | codeBlock kind => some (.pre kind.lang)
  | _ => none

/-- The entities that the end of a tag is about. -/
def TagEnd.selects : TagEnd → EntityKind → Bool
  | strong => isBold
  | emphasis => isItalic
  | link => isLink
  | codeBlock => isPre
  | _ => fun _ => false

/-- The UTF-16 units of a text. -/
def units (text : Text) : Int := Utf16.len text

/-- A part of a text that is formatted. -/
structure Span where
  kind : EntityKind
  start : Int
  length : Int

def Span.stop (span : Span) : Int := span.start + span.length

/-- How a part is told in 32 bits. -/
def Span.entity (span : Span) : MessageEntity :=
  ⟨span.kind, Int32.ofInt span.start, Int32.ofInt span.length⟩

/-- What has been formatted, in the order of the document. -/
def spans : Document → Int → List Span
  | .nil, _ => []
  | .leaf (.code string) rest, offset =>
    ⟨.code, offset, units string⟩ :: spans rest (offset + units string)
  | .leaf a rest, offset => spans rest (offset + units a.written)
  | .element tag body rest, offset =>
    (if textOf body = [] then []
      else tag.kind.toList.map fun kind => ⟨kind, offset, units (textOf body)⟩) ++
      (spans body offset ++ spans rest (offset + units (textOf body) + units tag.separator))

/-- The place and the length of all that is formatted can be told in 32 bits. -/
def Within (document : Document) : Prop :=
  ∀ span ∈ spans document 0, span.start < 2 ^ 31 ∧ span.length < 2 ^ 31

/-- No length of what is formatted is zero only in 32 bits. -/
def Unwrapped (document : Document) (offset : Int) : Prop :=
  ∀ span ∈ spans document offset, span.length < 2 ^ 32

/-- An element that is not empty, with a given end. -/
def Filled (tagEnd : TagEnd) (tag : Tag) (body : Document) : Prop :=
  tag.toEnd = tagEnd ∧ textOf body ≠ []

/-- No element that is not empty stands within one of its own kind. -/
def Unrepeated (document : Document) : Prop :=
  document.All fun tag body => tag.kind ≠ none → ¬body.Any (Filled tag.toEnd)

def CodeNonempty (document : Document) : Prop := document.Leaves (· ≠ .code [])

/-- There is a sign at the end of a text, or behind it. -/
def Inked (content after : Text) : Prop :=
  (∃ c ∈ after, isWhiteSpace c = false) ∨ ∃ c, content.getLast? = some c ∧ isWhiteSpace c = false

/-- What is formatted does not end in the white space at the end of the document. -/
def Finished : Document → Text → Prop
  | .nil, _ => True
  | .leaf (.code string) rest, after => Inked string (textOf rest ++ after) ∧ Finished rest after
  | .leaf _ rest, after => Finished rest after
  | .element tag body rest, after =>
    (tag.kind ≠ none → textOf body ≠ [] →
      Inked (textOf body) (tag.separator ++ (textOf rest ++ after))) ∧
      Finished body (tag.separator ++ (textOf rest ++ after)) ∧ Finished rest after

def handleToken (s : State) (token : Token Tag Leaf) : State := handle s (eventOf token)

theorem foldl_events (document : Document) (s : State) :
    (events document).foldl handle s = document.run handleToken s := by
  rw [events, List.foldl_map]
  rfl

section Steps

variable {tag : Tag} {tagEnd : TagEnd} {s : State}

@[simp] theorem units_nil : units [] = 0 := rfl

@[simp] theorem units_append (a b : Text) : units (a ++ b) = units a + units b := by
  simp [units]

theorem units_cons (c : Char) (text : Text) : units (c :: text) = units [c] + units text :=
  units_append [c] text

theorem units_nonneg (text : Text) : 0 ≤ units text := Int.natCast_nonneg _

theorem units_pos {text : Text} (h : text ≠ []) : 0 < units text := by
  have hne := mt Utf16.len_eq_zero_iff.mp h
  unfold units
  omega

theorem telegramStringLen_eq (text : Text) : telegramStringLen text = Int32.ofInt (units text) :=
  Int32.ofInt_eq_ofNat.symm

/-- Counting on in 32 bits. -/
theorem ofInt_units (offset : Int) (text : Text) :
    Int32.ofInt offset + telegramStringLen text = Int32.ofInt (offset + units text) := by
  rw [telegramStringLen_eq, Int32.ofInt_add]

/-- A number below 2^32 in 32 bits: itself, or negative. -/
theorem toInt_ofInt_wrapped {n : Int} (hnonneg : 0 ≤ n) (hlt : n < 2 ^ 32) :
    (Int32.ofInt n).toInt = if n < 2 ^ 31 then n else n - 2 ^ 32 := by
  rw [Int32.toInt_ofInt, Int.bmod_def]
  have hmod : n % ((2 ^ 32 : Nat) : Int) = n := Int.emod_eq_of_lt hnonneg (by simpa using hlt)
  split <;> split <;> simp_all <;> omega

theorem ofInt_ne_zero {n : Int} (hpos : 0 < n) (hlt : n < 2 ^ 32) : Int32.ofInt n ≠ 0 := by
  intro h
  have hn := toInt_ofInt_wrapped (Int.le_of_lt hpos) hlt
  rw [h] at hn
  have hzero : (0 : Int32).toInt = 0 := rfl
  split at hn <;> omega

theorem selects_kind {kind : EntityKind} (h : tag.kind = some kind) :
    tagEnd.selects kind = true ↔ tag.toEnd = tagEnd := by
  cases tag with
  | paragraph => cases h
  | other => cases h
  | strong =>
    cases h
    cases tagEnd <;> simp [TagEnd.selects, Tag.toEnd, isBold, isItalic, isLink, isTextUrl, isMentionName, isPre]
  | emphasis =>
    cases h
    cases tagEnd <;> simp [TagEnd.selects, Tag.toEnd, isBold, isItalic, isLink, isTextUrl, isMentionName, isPre]
  | codeBlock =>
    cases h
    cases tagEnd <;> simp [TagEnd.selects, Tag.toEnd, isBold, isItalic, isLink, isTextUrl, isMentionName, isPre]
  | link destUrl =>
    cases h
    have hlink := linkKind_isLink destUrl
    unfold linkKind at hlink ⊢
    split <;> cases tagEnd <;>
      simp [TagEnd.selects, Tag.toEnd, isBold, isItalic, isLink, isTextUrl, isMentionName, isPre]

theorem selects_unique {kind : EntityKind} {other : TagEnd} (h : tagEnd.selects kind = true)
    (h' : other.selects kind = true) : tagEnd = other := by
  cases tagEnd <;> cases other <;> cases kind <;>
    simp_all [TagEnd.selects, isBold, isItalic, isLink, isTextUrl, isMentionName, isPre]

theorem handle_start : handle s (.start tag) =
    { s with entities := s.entities ++ tag.kind.toList.map fun kind => ⟨kind, s.offset, 0⟩ } := by
  cases tag <;> simp [handle, State.push, Tag.kind]

/-- The latest link is the one whose end has come. -/
theorem update_link (s : State) :
    (if isMention s.entities then s.update isMentionName else s.update isTextUrl) =
      s.update isLink := by
  have hnot : ∀ {kind : EntityKind}, kind.isLink = false →
      kind.isTextUrl = false ∧ kind.isMentionName = false := fun h => by simpa [isLink] using h
  rcases Latest.exists_latest (fun e : MessageEntity => e.kind.isLink) s.entities with
    hnone | ⟨before, e, after, heq, he, hafter⟩
  · have hurl := @updateEntityLen_of_none _ s.offset _ fun e he => (hnot (hnone e he)).1
    have hname := @updateEntityLen_of_none _ s.offset _ fun e he => (hnot (hnone e he)).2
    have hlink := @updateEntityLen_of_none _ s.offset _ hnone
    simp only [State.update, hurl, hname, hlink, ite_self]
  · have hfind : isMention s.entities = e.kind.isMentionName := by
      have hskip : after.reverse.findSome? linkTarget = none := by
        refine List.findSome?_eq_none_iff.mpr fun x hx => ?_
        have hx := hnot (hafter x (List.mem_reverse.mp hx))
        revert hx
        unfold linkTarget
        cases x.kind <;> simp [isTextUrl, isMentionName]
      have htarget : linkTarget e = some e.kind.isMentionName := by
        revert he
        unfold linkTarget
        cases e.kind <;> simp [isLink, isTextUrl, isMentionName]
      rw [isMention, heq, List.reverse_append, List.reverse_cons, List.append_assoc,
        List.findSome?_append, hskip, Option.none_or, List.singleton_append, List.findSome?_cons,
        htarget]
      rfl
    have hlink := @updateEntityLen_append _ s.offset before _ _ he hafter
    rw [hfind]
    by_cases hname : e.kind.isMentionName = true
    · have hmention := @updateEntityLen_append _ s.offset before _ _ hname
        fun x hx => (hnot (hafter x hx)).2
      rw [if_pos hname, State.update, State.update, heq, hmention, hlink]
    · have hurl : e.kind.isTextUrl = true := by simpa [isLink, hname] using he
      have htext := @updateEntityLen_append _ s.offset before _ _ hurl
        fun x hx => (hnot (hafter x hx)).1
      rw [if_neg hname, State.update, State.update, heq, htext, hlink]

theorem handle_finish : handle s (.finish tag.toEnd) =
    ⟨s.text ++ tag.separator, updateEntityLen tag.toEnd.selects s.offset s.entities,
      s.offset + telegramStringLen tag.separator⟩ := by
  have hnone := @updateEntityLen_of_none (fun _ => false) s.offset s.entities
    fun _ _ => rfl
  have hnil : telegramStringLen [] = 0 := rfl
  have hbreak : telegramStringLen ['\n', '\n'] = 2 := by decide
  cases tag with
  | paragraph => simp [handle, Tag.toEnd, Tag.separator, TagEnd.selects, hnone, hbreak]
  | other => simp [handle, Tag.toEnd, Tag.separator, TagEnd.selects, hnone, hnil]
  | strong => simp [handle, Tag.toEnd, Tag.separator, TagEnd.selects, State.update, hnil]
  | emphasis => simp [handle, Tag.toEnd, Tag.separator, TagEnd.selects, State.update, hnil]
  | codeBlock => simp [handle, Tag.toEnd, Tag.separator, TagEnd.selects, State.update, hnil]
  | link =>
    have hlink := update_link s
    simp only [handle, Tag.toEnd, Tag.separator, TagEnd.selects, hlink, hnil]
    simp [State.update]

end Steps

section Spans

variable {tagEnd : TagEnd}

/-- The span of an element itself. -/
theorem mem_own {tag : Tag} {body : Document} {offset : Int} {span : Span}
    (h : span ∈ if textOf body = [] then []
      else tag.kind.toList.map fun kind => (⟨kind, offset, units (textOf body)⟩ : Span)) :
    textOf body ≠ [] ∧ ∃ kind, tag.kind = some kind ∧ span = ⟨kind, offset, units (textOf body)⟩ := by
  by_cases hempty : textOf body = []
  · rw [if_pos hempty] at h
    cases h
  · rw [if_neg hempty] at h
    obtain ⟨kind, hkind, rfl⟩ := List.mem_map.mp h
    exact ⟨hempty, kind, Option.mem_toList.mp hkind, rfl⟩

theorem spans_selects {document : Document} (h : ¬document.Any (Filled tagEnd)) (offset : Int) :
    ∀ span ∈ spans document offset, tagEnd.selects span.kind = false := by
  induction document generalizing offset with
  | nil => exact nofun
  | leaf a rest ih =>
    cases a with
    | code string =>
      refine List.forall_mem_cons.mpr ⟨?_, ih h _⟩
      cases tagEnd <;> rfl
    | text => exact ih h _
    | hardBreak => exact ih h _
    | other => exact ih h _
  | element tag body rest ihbody ihrest =>
    obtain ⟨hhere, hbody, hrest⟩ : ¬Filled tagEnd tag body ∧ ¬body.Any (Filled tagEnd) ∧
        ¬rest.Any (Filled tagEnd) := by
      simpa only [Forest.Any, not_or] using h
    rw [spans, List.forall_mem_append, List.forall_mem_append]
    refine ⟨fun span hm => ?_, ihbody hbody _, ihrest hrest _⟩
    obtain ⟨hfilled, kind, hkind, rfl⟩ := mem_own hm
    have hselect := @selects_kind _ tagEnd _ hkind
    exact Bool.eq_false_iff.mpr fun hsel => hhere ⟨hselect.mp hsel, hfilled⟩

/-- An element that is not empty has a span of its own. -/
theorem exists_span {document : Document} (h : document.Any (Filled tagEnd)) {tag : Tag}
    {kind : EntityKind} (htag : tag.toEnd = tagEnd) (hkind : tag.kind = some kind) (offset : Int) :
    ∃ span ∈ spans document offset, tagEnd.selects span.kind = true ∧ 0 < span.length := by
  induction document generalizing offset with
  | nil => cases h
  | leaf a rest ih =>
    cases a with
    | code string =>
      obtain ⟨span, hm, hspan⟩ := ih h (offset + units string)
      exact ⟨span, List.mem_cons_of_mem _ hm, hspan⟩
    | text => exact ih h _
    | hardBreak => exact ih h _
    | other => exact ih h _
  | element tag' body rest ihbody ihrest =>
    rcases h with ⟨htag', hfilled⟩ | h | h
    · obtain ⟨kind', hkind'⟩ : ∃ kind', tag'.kind = some kind' := by
        subst htag
        cases tag <;> cases tag' <;> simp_all [Tag.toEnd, Tag.kind]
      refine ⟨⟨kind', offset, units (textOf body)⟩, ?_, (selects_kind hkind').mpr htag',
        units_pos hfilled⟩
      rw [spans, if_neg hfilled, hkind']
      exact List.mem_append_left _ (List.mem_singleton_self _)
    · obtain ⟨span, hm, hspan⟩ := ihbody h offset
      exact ⟨span, List.mem_append_right _ (List.mem_append_left _ hm), hspan⟩
    · obtain ⟨span, hm, hspan⟩ := ihrest h (offset + units (textOf body) + units tag'.separator)
      exact ⟨span, List.mem_append_right _ (List.mem_append_right _ hm), hspan⟩

theorem spans_pos {document : Document} (h : CodeNonempty document) (offset : Int) :
    ∀ span ∈ spans document offset, 0 < span.length := by
  induction document generalizing offset with
  | nil => exact nofun
  | leaf a rest ih =>
    cases a with
    | code string =>
      refine List.forall_mem_cons.mpr ⟨units_pos ?_, ih h.2 _⟩
      rintro rfl
      exact h.1 rfl
    | text => exact ih h.2 _
    | hardBreak => exact ih h.2 _
    | other => exact ih h.2 _
  | element tag body rest ihbody ihrest =>
    rw [spans, List.forall_mem_append, List.forall_mem_append]
    refine ⟨fun span hm => ?_, ihbody h.1 _, ihrest h.2 _⟩
    obtain ⟨hfilled, kind, -, rfl⟩ := mem_own hm
    exact units_pos hfilled

theorem spans_start {document : Document} {offset : Int} (h : 0 ≤ offset) :
    ∀ span ∈ spans document offset, 0 ≤ span.start := by
  induction document generalizing offset with
  | nil => exact nofun
  | leaf a rest ih =>
    have hrest := ih (Int.add_nonneg h (units_nonneg a.written))
    cases a with
    | code string => exact List.forall_mem_cons.mpr ⟨h, hrest⟩
    | text => exact hrest
    | hardBreak => exact hrest
    | other => exact hrest
  | element tag body rest ihbody ihrest =>
    rw [spans, List.forall_mem_append, List.forall_mem_append]
    refine ⟨fun span hm => ?_, ihbody h,
      ihrest (Int.add_nonneg (Int.add_nonneg h (units_nonneg _)) (units_nonneg _))⟩
    obtain ⟨-, kind, -, rfl⟩ := mem_own hm
    exact h

theorem spans_stop (document : Document) (offset : Int) :
    ∀ span ∈ spans document offset,
      0 ≤ span.length ∧ span.stop ≤ offset + units (textOf document) := by
  induction document generalizing offset with
  | nil => exact nofun
  | leaf a rest ih =>
    have hrest := ih (offset + units a.written)
    rw [Int.add_assoc, ← units_append] at hrest
    cases a with
    | code string =>
      refine List.forall_mem_cons.mpr ⟨⟨units_nonneg string, ?_⟩, hrest⟩
      have := units_nonneg (textOf rest)
      rw [textOf, units_append]
      simp only [Span.stop, Leaf.written]
      omega
    | text => exact hrest
    | hardBreak => exact hrest
    | other => exact hrest
  | element tag body rest ihbody ihrest =>
    have hbody := units_nonneg (textOf body)
    have hseparator := units_nonneg tag.separator
    have hrest := units_nonneg (textOf rest)
    rw [spans, List.forall_mem_append, List.forall_mem_append, textOf, units_append, units_append]
    refine ⟨fun span hm => ?_, fun span hm => ?_, fun span hm => ?_⟩
    · obtain ⟨-, kind, -, rfl⟩ := mem_own hm
      simp only [Span.stop]
      omega
    · have := ihbody offset span hm
      omega
    · have := ihrest _ span hm
      omega

theorem unwrapped_of_units {document : Document} (h : units (textOf document) < 2 ^ 32) :
    Unwrapped document 0 := by
  intro span hm
  have hstart := spans_start (Int.le_refl 0) span hm
  obtain ⟨-, hstop⟩ := spans_stop document 0 span hm
  unfold Span.stop at hstop
  omega

theorem Within.unwrapped {document : Document} (h : Within document) : Unwrapped document 0 :=
  fun span hm => (h span hm).2.trans (by decide)

theorem Unwrapped.leaf {a : Leaf} {rest : Document} {offset : Int}
    (h : Unwrapped (.leaf a rest) offset) : Unwrapped rest (offset + units a.written) := by
  cases a with
  | code string => exact fun span hm => h span (List.mem_cons_of_mem _ hm)
  | text => exact h
  | hardBreak => exact h
  | other => exact h

theorem Unwrapped.element {tag : Tag} {body rest : Document} {offset : Int}
    (h : Unwrapped (.element tag body rest) offset) :
    (textOf body ≠ [] → ∀ kind, tag.kind = some kind → units (textOf body) < 2 ^ 32) ∧
      Unwrapped body offset ∧ Unwrapped rest (offset + units (textOf body) + units tag.separator) := by
  rw [Unwrapped, spans, List.forall_mem_append, List.forall_mem_append] at h
  refine ⟨fun hne kind hkind => ?_, h.2⟩
  exact h.1 ⟨kind, offset, units (textOf body)⟩ (by simp [hne, hkind])

/-- Without repetitions each element gets its span. -/
theorem run_eq {document : Document} (hsingle : Unrepeated document) {text : Text}
    {entities : List MessageEntity} {offset : Int} (hlen : Unwrapped document offset) :
    document.run handleToken ⟨text, entities, Int32.ofInt offset⟩ =
      ⟨text ++ textOf document, entities ++ (spans document offset).map Span.entity,
        Int32.ofInt (offset + units (textOf document))⟩ := by
  induction document generalizing text entities offset with
  | nil => simp [textOf, spans]
  | leaf a rest ih =>
    have hbreak : (1 : Int32) = telegramStringLen ['\n'] := by decide
    have hstep : handleToken ⟨text, entities, Int32.ofInt offset⟩ (.leaf a) =
        ⟨text ++ a.written, entities ++ (spans (.leaf a .nil) offset).map Span.entity,
          Int32.ofInt (offset + units a.written)⟩ := by
      rw [← ofInt_units]
      cases a with
      | text string => simp [handleToken, eventOf, Leaf.event, handle, State.pushStr, Leaf.written, spans]
      | code string =>
        simp [handleToken, eventOf, Leaf.event, handle, Leaf.written, spans, Span.entity,
          telegramStringLen_eq]
      | hardBreak => simp [handleToken, eventOf, Leaf.event, handle, Leaf.written, spans, hbreak]
      | other => simp [handleToken, eventOf, Leaf.event, handle, Leaf.written, spans, telegramStringLen_eq]
    rw [Forest.run_leaf, hstep, ih hsingle hlen.leaf]
    have hcons := units_cons '\n' (textOf rest)
    cases a <;> simp [textOf, spans, Leaf.written, Int.add_assoc, hcons]
  | element tag body rest ihbody ihrest =>
    obtain ⟨hhere, hbody, hrest⟩ := hsingle
    obtain ⟨hown, hlbody, hlrest⟩ := hlen.element
    have hstart : handleToken ⟨text, entities, Int32.ofInt offset⟩ (.opening tag) =
        ⟨text, entities ++ tag.kind.toList.map fun kind => ⟨kind, Int32.ofInt offset, 0⟩,
          Int32.ofInt offset⟩ := handle_start
    have hfinish : ∀ s' : State, handleToken s' (.closing tag) =
        ⟨s'.text ++ tag.separator, updateEntityLen tag.toEnd.selects s'.offset s'.entities,
          s'.offset + telegramStringLen tag.separator⟩ := fun s' => handle_finish
    have hclose : updateEntityLen tag.toEnd.selects (Int32.ofInt (offset + units (textOf body)))
        (entities ++ tag.kind.toList.map (fun kind => ⟨kind, Int32.ofInt offset, 0⟩) ++
          (spans body offset).map Span.entity) =
        entities ++ ((if textOf body = [] then [] else tag.kind.toList.map fun kind =>
          Span.entity ⟨kind, offset, units (textOf body)⟩) ++
            (spans body offset).map Span.entity) := by
      cases hkind : tag.kind with
      | none =>
        have hnone : ∀ kind, tag.toEnd.selects kind = false := by
          intro kind
          cases tag <;> first | rfl | cases hkind
        rw [updateEntityLen_of_none fun e _ => hnone e.kind]
        simp
      | some kind =>
        have hnot := hhere (by simp [hkind])
        have hlater : ∀ e ∈ (spans body offset).map Span.entity, tag.toEnd.selects e.kind = false := by
          intro e he
          obtain ⟨span, hm, rfl⟩ := List.mem_map.mp he
          exact spans_selects hnot _ span hm
        rw [Option.toList_some, List.map_singleton, List.map_singleton, List.append_assoc,
          List.singleton_append, updateEntityLen_append _ ((selects_kind hkind).mpr rfl) hlater]
        by_cases hempty : textOf body = []
        · simp [hempty, MessageEntity.close_empty]
        · have hlen : Int32.ofInt (offset + units (textOf body)) - Int32.ofInt offset =
              Int32.ofInt (units (textOf body)) := by
            rw [← Int32.ofInt_sub, add_sub_cancel_left]
          have hne : Int32.ofInt (units (textOf body)) ≠ 0 :=
            ofInt_ne_zero (units_pos hempty) (hown hempty kind hkind)
          rw [if_neg hempty, MessageEntity.close_open kind (by rwa [hlen]), hlen]
          rfl
    rw [Forest.run_element, hstart, ihbody hbody hlbody, hfinish]
    simp only [hclose, ofInt_units]
    rw [ihrest hrest hlrest]
    have hmap : (spans (.element tag body rest) offset).map Span.entity =
        (if textOf body = [] then [] else tag.kind.toList.map fun kind =>
          Span.entity ⟨kind, offset, units (textOf body)⟩) ++ ((spans body offset).map Span.entity ++
            (spans rest (offset + units (textOf body) + units tag.separator)).map Span.entity) := by
      rw [spans, List.map_append, List.map_append]
      split
      next => rfl
      next => rw [List.map_map]; rfl
    rw [hmap]
    simp only [textOf, units_append, List.append_assoc, Int.add_assoc]

end Spans

/-! What is left over when a kind is repeated. -/

/-- An entity without a length that is kept from getting one by a later one of its kind. -/
def Blocked (tagEnd : TagEnd) (entities : List MessageEntity) : Prop :=
  ∃ e x, [e, x].Sublist entities ∧ e.length = 0 ∧ x.length ≠ 0 ∧ tagEnd.selects e.kind = true ∧
    tagEnd.selects x.kind = true

theorem blocked_updateEntityLen {tagEnd tagEnd' : TagEnd} {entities : List MessageEntity}
    (h : Blocked tagEnd entities) (endOffset : Int32) :
    Blocked tagEnd (updateEntityLen tagEnd'.selects endOffset entities) := by
  obtain ⟨e, x, hsub, he, hx, hkind, hkind'⟩ := h
  refine ⟨e, x, sublist_updateEntityLen hsub (fun hsel => ?_) hx, he, hx, hkind, hkind'⟩
  rwa [← selects_unique hkind hsel]

/-- A code span without a text. -/
def EmptyCode (entities : List MessageEntity) : Prop := ∃ offset, ⟨.code, offset, 0⟩ ∈ entities

theorem emptyCode_handle {s : State} (h : EmptyCode s.entities) (token : Token Tag Leaf) :
    EmptyCode (handleToken s token).entities := by
  obtain ⟨offset, hmem⟩ := h
  refine ⟨offset, ?_⟩
  cases token with
  | leaf a =>
    cases a with
    | code string => exact List.mem_append_left _ hmem
    | text => exact hmem
    | hardBreak => exact hmem
    | other => exact hmem
  | opening tag =>
    have hstart := @handle_start tag s
    rw [handleToken, eventOf, hstart]
    exact List.mem_append_left _ hmem
  | closing tag =>
    have hfinish := @handle_finish tag s
    rw [handleToken, eventOf, hfinish]
    refine mem_updateEntityLen hmem fun hsel => ?_
    cases tag <;> cases hsel

theorem blocked_handle {tagEnd : TagEnd} {s : State} (h : Blocked tagEnd s.entities)
    (token : Token Tag Leaf) : Blocked tagEnd (handleToken s token).entities := by
  have hgrow : ∀ more, Blocked tagEnd (s.entities ++ more) := by
    obtain ⟨e, x, hsub, hrest⟩ := h
    exact fun more => ⟨e, x, hsub.trans (List.sublist_append_left _ _), hrest⟩
  cases token with
  | leaf a =>
    cases a with
    | code string => exact hgrow _
    | text => exact h
    | hardBreak => exact h
    | other => exact h
  | opening tag =>
    have hstart := @handle_start tag s
    rw [handleToken, eventOf, hstart]
    exact hgrow _
  | closing tag =>
    have hfinish := @handle_finish tag s
    rw [handleToken, eventOf, hfinish]
    exact blocked_updateEntityLen h _

theorem offset_run (document : Document) (s : State) :
    (document.run handleToken s).offset = s.offset + telegramStringLen (textOf document) := by
  have happend : ∀ a b : Text, telegramStringLen (a ++ b) =
      telegramStringLen a + telegramStringLen b := fun a b => by
    rw [telegramStringLen_eq, units_append, Int32.ofInt_add, ← telegramStringLen_eq,
      ← telegramStringLen_eq]
  induction document generalizing s with
  | nil => exact (Int32.add_zero s.offset).symm
  | leaf a rest ih =>
    rw [Forest.run_leaf, ih, textOf, happend, ← Int32.add_assoc]
    refine congrArg (· + telegramStringLen (textOf rest)) ?_
    have hnil : telegramStringLen [] = 0 := rfl
    have hbreak : telegramStringLen ['\n'] = 1 := by decide
    cases a <;>
      simp [handleToken, eventOf, Leaf.event, handle, State.pushStr, Leaf.written, hnil, hbreak]
  | element tag body rest ihbody ihrest =>
    have hstart : (handleToken s (.opening tag)).offset = s.offset := by
      rw [handleToken, eventOf, handle_start]
    have hfinish : ∀ s' : State, (handleToken s' (.closing tag)).offset =
        s'.offset + telegramStringLen tag.separator := fun s' => congrArg State.offset handle_finish
    rw [Forest.run_element, ihrest, hfinish, ihbody, hstart, textOf, happend, happend,
      Int32.add_assoc, Int32.add_assoc]

theorem exists_blocked {document : Document} {offset : Int} (hlen : Unwrapped document offset)
    (h : ¬Unrepeated document) (s : State) (hs : s.offset = Int32.ofInt offset) :
    ∃ tagEnd, Blocked tagEnd (document.run handleToken s).entities := by
  induction document generalizing s offset with
  | nil => exact absurd trivial h
  | leaf a rest ih =>
    refine ih hlen.leaf h _ ?_
    have hstep := offset_run (.leaf a .nil) s
    rw [textOf, textOf, List.append_nil, hs, ofInt_units] at hstep
    exact hstep
  | element tag body rest ihbody ihrest =>
    obtain ⟨-, hlbody, hlrest⟩ := hlen.element
    have hkeep : ∀ {tagEnd : TagEnd} {s' : State}, Blocked tagEnd s'.entities →
        Blocked tagEnd (rest.run handleToken (handleToken s' (.closing tag))).entities :=
      fun hblocked => Forest.run_keeps (p := fun s : State => Blocked _ s.entities)
        (fun _ token h => blocked_handle h token) rest (blocked_handle hblocked _)
    have hstart : handleToken s (.opening tag) =
        ⟨s.text, s.entities ++ tag.kind.toList.map fun kind => ⟨kind, Int32.ofInt offset, 0⟩,
          Int32.ofInt offset⟩ := hs ▸ handle_start
    rw [Forest.run_element]
    by_cases hbody : Unrepeated body
    · by_cases hhere : tag.kind ≠ none → ¬body.Any (Filled tag.toEnd)
      · refine ihrest hlrest (fun hrest => h ⟨hhere, hbody, hrest⟩) _ ?_
        have hfinish : ∀ s' : State, (handleToken s' (.closing tag)).offset =
            s'.offset + telegramStringLen tag.separator := fun s' => congrArg State.offset handle_finish
        rw [hfinish, offset_run, hstart, ofInt_units, ofInt_units]
      · obtain ⟨hkind, hany⟩ := Classical.not_imp.mp hhere
        obtain ⟨kind, hkind⟩ := Option.ne_none_iff_exists'.mp hkind
        obtain ⟨span, hm, hsel, hpos⟩ := exists_span (not_not.mp hany) rfl hkind offset
        refine ⟨tag.toEnd, hkeep ?_⟩
        rw [hstart, run_eq hbody hlbody, hkind]
        have hopen : [(⟨kind, Int32.ofInt offset, 0⟩ : MessageEntity)].Sublist
            (s.entities ++ [⟨kind, Int32.ofInt offset, 0⟩]) := List.sublist_append_right _ _
        have hlater : [span.entity].Sublist ((spans body offset).map Span.entity) :=
          List.singleton_sublist.mpr (List.mem_map_of_mem hm)
        exact ⟨⟨kind, Int32.ofInt offset, 0⟩, span.entity, hopen.append hlater, rfl,
          ofInt_ne_zero hpos (hlbody span hm), (selects_kind hkind).mpr rfl, hsel⟩
    · obtain ⟨tagEnd, hblocked⟩ := ihbody hlbody hbody (handleToken s (.opening tag))
        (congrArg State.offset hstart)
      exact ⟨tagEnd, hkeep hblocked⟩

theorem exists_emptyCode {document : Document} (h : ¬CodeNonempty document) (s : State) :
    EmptyCode (document.run handleToken s).entities := by
  have hkeep : ∀ (d : Document) {s : State}, EmptyCode s.entities →
      EmptyCode (d.run handleToken s).entities :=
    fun d => Forest.run_keeps (p := fun s : State => EmptyCode s.entities)
      (fun _ token h => emptyCode_handle h token) d
  induction document generalizing s with
  | nil => exact absurd trivial h
  | leaf a rest ih =>
    rw [Forest.run_leaf]
    by_cases ha : a = .code []
    · subst ha
      exact hkeep rest ⟨s.offset, List.mem_append_right _ (List.mem_singleton_self _)⟩
    · exact ih (fun hrest => h ⟨ha, hrest⟩) _
  | element tag body rest ihbody ihrest =>
    rw [Forest.run_element]
    by_cases hbody : CodeNonempty body
    · exact ihrest (fun hrest => h ⟨hbody, hrest⟩) _
    · exact hkeep rest (emptyCode_handle (ihbody hbody _) _)

/-! Where the spans end. -/

theorem units_sublist {a b : Text} (h : a.Sublist b) : units a ≤ units b := by
  induction h with
  | slnil => exact Int.le_refl _
  | @cons a b c _ ih =>
    have hpos := @units_pos [c] (by simp)
    rw [units_cons c b]
    omega
  | @cons_cons a b c _ ih =>
    rw [units_cons c a, units_cons c b]
    omega

/-- A part of a text is left when its last sign, or one behind it, is no white space. -/
theorem length_le_trimEnd_iff {before content after : Text} (hne : content ≠ []) :
    units before + units content ≤ units (trimEnd (before ++ (content ++ after))) ↔
      Inked content after := by
  rw [← List.append_assoc, ← units_append]
  by_cases hink : ∃ c ∈ after, isWhiteSpace c = false
  · rw [trimEnd_append_of_sign hink, units_append (before ++ content)]
    refine iff_of_true ?_ (Or.inl hink)
    have := units_nonneg (trimEnd after)
    omega
  · have hwhite : ∀ c ∈ after, isWhiteSpace c = true := by simpa using hink
    obtain ⟨start, last, rfl⟩ := (List.eq_nil_or_concat content).resolve_left hne
    rw [List.concat_eq_append, trimEnd_append_of_white hwhite, ← List.append_assoc,
      trimEnd_append_singleton]
    by_cases hlast : isWhiteSpace last = true
    · have hle := units_sublist (trimEnd_sublist (before ++ start))
      have hpos := @units_pos [last] (by simp)
      rw [if_pos hlast, units_append (before ++ start)]
      refine iff_of_false (by omega) ?_
      rintro (⟨c, hc, hsign⟩ | ⟨c, hc, hsign⟩)
      · exact hink ⟨c, hc, hsign⟩
      · rw [List.getLast?_concat] at hc
        cases hc
        rw [hlast] at hsign
        cases hsign
    · rw [if_neg hlast]
      exact iff_of_true (Int.le_refl _)
        (Or.inr ⟨last, List.getLast?_concat, by simpa using hlast⟩)

/-- The spans stay inside what is left of the text. -/
theorem spans_inside_iff {document : Document} (hcode : CodeNonempty document) (before after : Text) :
    (∀ span ∈ spans document (units before),
      span.stop ≤ units (trimEnd (before ++ (textOf document ++ after)))) ↔
      Finished document after := by
  induction document generalizing before after with
  | nil => simp [spans, Finished]
  | leaf a rest ih =>
    have hrest := ih hcode.2 (before ++ a.written) after
    cases a with
    | code string =>
      have hne : string ≠ [] := by
        rintro rfl
        exact hcode.1 rfl
      have hhere := @length_le_trimEnd_iff before _ (textOf rest ++ after) hne
      rw [spans, Finished, List.forall_mem_cons]
      refine and_congr ?_ ?_
      · simpa [Span.stop, textOf, Leaf.written] using hhere
      · simpa [textOf, Leaf.written] using hrest
    | text => simpa [spans, Finished, textOf, Leaf.written] using hrest
    | hardBreak => simpa [spans, Finished, textOf, Leaf.written] using hrest
    | other => simpa [spans, Finished, textOf, Leaf.written] using hrest
  | element tag body rest ihbody ihrest =>
    have hbody := ihbody hcode.1 before (tag.separator ++ (textOf rest ++ after))
    have hrest := ihrest hcode.2 (before ++ (textOf body ++ tag.separator)) after
    rw [units_append, units_append, ← Int.add_assoc] at hrest
    rw [spans, Finished, List.forall_mem_append, List.forall_mem_append, ← hbody, ← hrest]
    simp only [textOf, List.append_assoc]
    refine and_congr ?_ Iff.rfl
    cases hkind : tag.kind with
    | none => simp
    | some kind =>
      by_cases hempty : textOf body = []
      · simp [hempty]
      · have hhere := @length_le_trimEnd_iff before _
          (tag.separator ++ (textOf rest ++ after)) hempty
        simpa [hempty, Span.stop] using hhere

/-- Every entity has a length and lies inside the text. -/
def Inside (text : Text) (entities : List MessageEntity) : Prop :=
  ∀ e ∈ entities, 0 < e.length ∧ 0 ≤ e.offset ∧ e.offset.toInt + e.length.toInt ≤ units text

/-- Documents without a repeated kind, without empty code spans, and with nothing formatted that ends
in the white space at the end. -/
structure Tame (document : Document) : Prop where
  unrepeated : Unrepeated document
  codeNonempty : CodeNonempty document
  finished : Finished document []

/-- An entity is in place when its part is, and both its numbers can be told. -/
theorem Span.entity_inside_iff {span : Span} (hstart : 0 ≤ span.start) (hpos : 0 < span.length)
    (hlt : span.start < 2 ^ 32 ∧ span.length < 2 ^ 32) (text : Text) :
    (0 < span.entity.length ∧ 0 ≤ span.entity.offset ∧
      span.entity.offset.toInt + span.entity.length.toInt ≤ units text) ↔
      (span.start < 2 ^ 31 ∧ span.length < 2 ^ 31) ∧ span.stop ≤ units text := by
  have hoffset : span.entity.offset.toInt = _ := toInt_ofInt_wrapped hstart hlt.1
  have hlength : span.entity.length.toInt = _ := toInt_ofInt_wrapped (Int.le_of_lt hpos) hlt.2
  have hzero : (0 : Int32).toInt = 0 := rfl
  rw [Int32.lt_iff_toInt_lt, Int32.le_iff_toInt_le, hoffset, hlength, hzero, Span.stop]
  constructor
  · rintro ⟨hl, ho, hle⟩
    split at hl <;> split at ho <;> simp_all <;> omega
  · rintro ⟨⟨hs, hl⟩, hle⟩
    rw [if_pos hs, if_pos hl]
    exact ⟨hpos, hstart, hle⟩

theorem inside_spans_iff {document : Document} (hcode : CodeNonempty document)
    (hlt : ∀ span ∈ spans document 0, span.start < 2 ^ 32 ∧ span.length < 2 ^ 32) (text : Text) :
    Inside text ((spans document 0).map Span.entity) ↔
      Within document ∧ ∀ span ∈ spans document 0, span.stop ≤ units text := by
  unfold Inside Within
  rw [List.forall_mem_map, ← forall₂_and]
  refine forall₂_congr fun span hm => ?_
  exact Span.entity_inside_iff (spans_start (Int.le_refl 0) span hm) (spans_pos hcode 0 span hm)
    (hlt span hm) text

theorem inside_parse_iff {document : Document} (hlen : Unwrapped document 0)
    (hlt : ∀ span ∈ spans document 0, span.start < 2 ^ 32 ∧ span.length < 2 ^ 32) :
    Inside (parseMarkdownMessage (events document)).1 (parseMarkdownMessage (events document)).2 ↔
      Within document ∧ Tame document := by
  have hrun : parseMarkdownMessage (events document) =
      (trimEnd (document.run handleToken .init).text, (document.run handleToken .init).entities) := by
    rw [parseMarkdownMessage, foldl_events]
  have hexact : Unrepeated document → document.run handleToken .init =
      ⟨textOf document, (spans document 0).map Span.entity, Int32.ofInt (units (textOf document))⟩ := by
    intro hsingle
    have hrun := @run_eq document hsingle [] [] 0 hlen
    simpa [State.init] using hrun
  have hinside : CodeNonempty document → ((∀ span ∈ spans document 0,
      span.stop ≤ units (trimEnd (textOf document))) ↔ Finished document []) := by
    intro hcode
    simpa using spans_inside_iff hcode [] []
  rw [hrun]
  constructor
  · intro h
    have hcode : CodeNonempty document := by
      by_contra hnot
      obtain ⟨offset, hmem⟩ := exists_emptyCode hnot .init
      exact absurd (h _ hmem).1 Int32.lt_irrefl
    have hsingle : Unrepeated document := by
      by_contra hnot
      obtain ⟨tagEnd, e, x, hsub, hzero, -⟩ := exists_blocked hlen hnot .init rfl
      have hpos := (h e (hsub.subset List.mem_cons_self)).1
      rw [hzero] at hpos
      exact absurd hpos Int32.lt_irrefl
    rw [hexact hsingle] at h
    obtain ⟨hwithin, hstop⟩ := (inside_spans_iff hcode hlt _).mp h
    exact ⟨hwithin, hsingle, hcode, (hinside hcode).mp hstop⟩
  · rintro ⟨hwithin, hsingle, hcode, hfinished⟩
    rw [hexact hsingle]
    exact (inside_spans_iff hcode hlt _).mpr ⟨hwithin, (hinside hcode).mpr hfinished⟩

/-- Entities stay inside the text when the document is tame and all that it formats has a place
and a length of 32 bits, and only then as long as the text is shorter than 2^32. -/
theorem markdown_entities_inside_iff (document : Document) :
    (Within document ∧ Tame document → Inside (parseMarkdownMessage (events document)).1
      (parseMarkdownMessage (events document)).2) ∧
      (units (textOf document) < 2 ^ 32 → Inside (parseMarkdownMessage (events document)).1
        (parseMarkdownMessage (events document)).2 → Within document ∧ Tame document) := by
  constructor
  · intro h
    refine (inside_parse_iff h.1.unwrapped fun span hm => ?_).mpr h
    have := h.1 span hm
    omega
  · intro hunits
    refine (inside_parse_iff (unwrapped_of_units hunits) fun span hm => ?_).mp
    obtain ⟨hnonneg, hstop⟩ := spans_stop document 0 span hm
    unfold Span.stop at hstop
    exact ⟨by omega, unwrapped_of_units hunits span hm⟩

/-- A paragraph with emphasis within strong text, and a code span. -/
def nestedDocument : Document :=
  .element .paragraph (.element .strong (.leaf (.text ['a', ' '])
    (.element .emphasis (.leaf (.text ['b']) .nil) .nil)) (.leaf (.code ['c']) .nil)) .nil

theorem markdown_entities_inside_nested :
    parseMarkdownMessage (events nestedDocument) =
        (['a', ' ', 'b', 'c'], [⟨.bold, 0, 3⟩, ⟨.italic, 2, 1⟩, ⟨.code, 3, 1⟩]) ∧
      Inside (parseMarkdownMessage (events nestedDocument)).1
        (parseMarkdownMessage (events nestedDocument)).2 ∧
      Within nestedDocument ∧ Tame nestedDocument := by
  have hspans : spans nestedDocument 0 = [⟨.bold, 0, 3⟩, ⟨.italic, 2, 1⟩, ⟨.code, 3, 1⟩] := rfl
  have hwithin : Within nestedDocument := by
    simp [Within, hspans]
  have htame : Tame nestedDocument := by
    constructor
    · simp [Unrepeated, nestedDocument, Forest.All, Forest.Any, Filled, Tag.toEnd, Tag.kind]
    · simp [CodeNonempty, nestedDocument, Forest.Leaves]
    · simp [Finished, nestedDocument, Inked, textOf, Leaf.written, Tag.separator]
      decide
  have hinside := (markdown_entities_inside_iff nestedDocument).1 ⟨hwithin, htame⟩
  exact ⟨by decide +kernel, hinside, (markdown_entities_inside_iff nestedDocument).2 (by decide) hinside⟩

/-- A fenced block of code at the end of a message. -/
def codeBlockDocument : Document :=
  .element (.codeBlock (.fenced [])) (.leaf (.text ['c', 'o', 'd', 'e', '\n']) .nil) .nil

theorem markdown_entities_outside :
    parseMarkdownMessage (events codeBlockDocument) =
        (['c', 'o', 'd', 'e'], [⟨.pre [], 0, 5⟩]) ∧
      ¬Inside (parseMarkdownMessage (events codeBlockDocument)).1
        (parseMarkdownMessage (events codeBlockDocument)).2 := by
  have hparse : parseMarkdownMessage (events codeBlockDocument) =
      (['c', 'o', 'd', 'e'], [⟨.pre [], 0, 5⟩]) := by decide +kernel
  refine ⟨hparse, fun h => ?_⟩
  rw [hparse] at h
  exact absurd (h _ (List.mem_singleton_self _)).2.2 (by decide)

end Markdown

end Parsers

end Grammers
