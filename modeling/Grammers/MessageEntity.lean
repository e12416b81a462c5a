import Grammers.Latest
import Grammers.NativeSession
import Grammers.Radix
import Grammers.Text
import Grammers.Utf16

namespace Grammers

namespace Parsers

/-- How a date is shown. -/
structure DateFormat where
  relative : Bool
  shortTime : Bool
  longTime : Bool
  shortDate : Bool
  longDate : Bool
  dayOfWeek : Bool
  deriving DecidableEq

/-- The entities that the parsers make, with what they carry beside their place. -/
inductive EntityKind where
  | bold
  | italic
  | underline
  | strike
  | blockquote (collapsed : Bool)
  | spoiler
  | code
  | pre (language : Text)
  | textUrl (url : Text)
  | mentionName (userId : Int64)
  | formattedDate (date : Int32) (format : DateFormat)
  deriving DecidableEq

namespace EntityKind

def isBold : EntityKind → Bool
  | bold => true
  | _ => false

def isItalic : EntityKind → Bool
  | italic => true
  | _ => false

def isUnderline : EntityKind → Bool
  | underline => true
  | _ => false

def isStrike : EntityKind → Bool
  | strike => true
  | _ => false

def isBlockquote : EntityKind → Bool
  | blockquote _ => true
  | _ => false

def isSpoiler : EntityKind → Bool
  | spoiler => true
  | _ => false

def isCode : EntityKind → Bool
  | code => true
  | _ => false

def isPre : EntityKind → Bool
  | pre _ => true
  | _ => false

def isTextUrl : EntityKind → Bool
  | textUrl _ => true
  | _ => false

def isMentionName : EntityKind → Bool
  | mentionName _ => true
  | _ => false

def isFormattedDate : EntityKind → Bool
  | formattedDate _ _ => true
  | _ => false

def isLink (kind : EntityKind) : Bool := kind.isTextUrl || kind.isMentionName

end EntityKind

structure MessageEntity where
  kind : EntityKind
  offset : Int32
  length : Int32
  deriving DecidableEq

/-- The UTF-16 units of a string, counted in 32 bits. -/
def telegramStringLen (string : Text) : Int32 := Int32.ofNat (Utf16.len string)

namespace MessageEntity

/-- An entity without a length gets one, and goes where that is zero. -/
def close (endOffset : Int32) (e : MessageEntity) : Option MessageEntity :=
  let length := if e.length = 0 then endOffset - e.offset else e.length
  if length = 0 then none else some { e with length := length }

theorem close_of_ne {endOffset : Int32} {e : MessageEntity} (h : e.length ≠ 0) :
    e.close endOffset = some e := by
  simp [close, h]

theorem close_open {endOffset offset : Int32} (kind : EntityKind) (h : endOffset - offset ≠ 0) :
    close endOffset ⟨kind, offset, 0⟩ = some ⟨kind, offset, endOffset - offset⟩ := by
  simp [close, h]

theorem close_empty (kind : EntityKind) (offset : Int32) : close offset ⟨kind, offset, 0⟩ = none := by
  simp [close]

end MessageEntity

/-- The latest entity of a kind gets its length. -/
def updateEntityLen (isKind : EntityKind → Bool) (endOffset : Int32) (entities : List MessageEntity) :
    List MessageEntity :=
  Latest.update (fun e => isKind e.kind) (·.close endOffset) entities

section Update

variable {isKind : EntityKind → Bool} {endOffset : Int32}

theorem updateEntityLen_of_none {entities : List MessageEntity}
    (h : ∀ e ∈ entities, isKind e.kind = false) :
    updateEntityLen isKind endOffset entities = entities :=
  Latest.update_of_none h

theorem updateEntityLen_append (before : List MessageEntity) {e : MessageEntity}
    {after : List MessageEntity} (he : isKind e.kind = true)
    (hafter : ∀ x ∈ after, isKind x.kind = false) :
    updateEntityLen isKind endOffset (before ++ e :: after) =
      before ++ ((e.close endOffset).toList ++ after) :=
  Latest.update_append before he hafter

/-- An entity that has its length, or is of another kind, is left as it is. -/
theorem mem_updateEntityLen {entities : List MessageEntity} {e : MessageEntity} (hmem : e ∈ entities)
    (h : isKind e.kind = true → e.length ≠ 0) : e ∈ updateEntityLen isKind endOffset entities :=
  Latest.mem_update hmem fun hkind => MessageEntity.close_of_ne (h hkind)

/-- An entity with a later one of its kind that has its length is left as it is. -/
theorem sublist_updateEntityLen {entities : List MessageEntity} {e x : MessageEntity}
    (hsub : [e, x].Sublist entities) (hselect : isKind e.kind = true → isKind x.kind = true)
    (hx : x.length ≠ 0) : [e, x].Sublist (updateEntityLen isKind endOffset entities) :=
  Latest.sublist_update hsub hselect fun _ => MessageEntity.close_of_ne hx

end Update

def mentionUrlPrefix : Text := "tg://user?id=".toList

/-- A decimal number of 64 bits with or without a sign. -/
def parseI64 (text : Text) : Option Int64 :=
  match text with
  | ['-'] => none
  | '-' :: digits =>
    (Radix.parseDigits 10 (2 ^ 63 + 1) 0 digits).toOption.map fun n => Int64.ofInt (-n)
  | _ => (Radix.parse 10 (2 ^ 63) text).toOption.map fun n => Int64.ofNat n

/-- The identifiers that users have. -/
def isUserId (id : Int64) : Bool := 1 ≤ id && id ≤ 0xffffffffff

/-- A link to a user is a mention, any other one goes to its address. -/
def linkKind (url : Text) : EntityKind :=
  match ((stripPrefix mentionUrlPrefix url).bind parseI64).filter isUserId with
  | some userId => .mentionName userId
  | none => .textUrl url

theorem linkKind_isLink (url : Text) : (linkKind url).isLink = true := by
  unfold linkKind
  split <;> rfl

end Parsers

end Grammers
