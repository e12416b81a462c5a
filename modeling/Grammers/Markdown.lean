import Grammers.Forest
import Grammers.MessageEntity

namespace Grammers

namespace Parsers

namespace Markdown

open Nesting EntityKind

inductive CodeBlockKind where
  | indented
  | fenced (lang : Text)
  deriving DecidableEq

/-- The tags of a document, those that the parser passes over as one. -/
inductive Tag where
  | paragraph
  | strong
  | emphasis
  | link (destUrl : Text)
  | codeBlock (kind : CodeBlockKind)
  | other
  deriving DecidableEq

inductive TagEnd where
  | paragraph
  | strong
  | emphasis
  | link
  | codeBlock
  | other
  deriving DecidableEq

def Tag.toEnd : Tag → TagEnd
  | paragraph => .paragraph
  | strong => .strong
  | emphasis => .emphasis
  | link _ => .link
  | codeBlock _ => .codeBlock
  | other => .other

inductive Event where
  | text (string : Text)
  | code (string : Text)
  | start (tag : Tag)
  | finish (tag : TagEnd)
  | hardBreak
  | other
  deriving DecidableEq

structure State where
  text : Text
  entities : List MessageEntity
  offset : Int32
  deriving DecidableEq

namespace State

def init : State := ⟨[], [], 0⟩

def pushStr (s : State) (string : Text) : State :=
  { s with text := s.text ++ string, offset := s.offset + telegramStringLen string }

/-- An entity that has no length yet. -/
def push (s : State) (kind : EntityKind) : State :=
  { s with entities := s.entities ++ [⟨kind, s.offset, 0⟩] }

def update (s : State) (isKind : EntityKind → Bool) : State :=
  { s with entities := updateEntityLen isKind s.offset s.entities }

end State

/-- For a link, whether it is a mention. -/
def linkTarget (e : MessageEntity) : Option Bool :=
  match e.kind with
  | .mentionName _ => some true
  | .textUrl _ => some false
  | _ => none

/-- Whether the latest link is a mention. -/
def isMention (entities : List MessageEntity) : Bool :=
  (entities.reverse.findSome? linkTarget).getD false

def CodeBlockKind.lang : CodeBlockKind → Text
  | indented => []
  | fenced lang => lang

def handle (s : State) : Event → State
  | .text string => s.pushStr string
  | .code string =>
    let length := telegramStringLen string
    ⟨s.text ++ string, s.entities ++ [⟨.code, s.offset, length⟩], s.offset + length⟩
  | .start .strong => s.push .bold
  | .finish .strong => s.update isBold
  | .start .emphasis => s.push .italic
  | .finish .emphasis => s.update isItalic
  | .start (.link destUrl) => s.push (linkKind destUrl)
  | .finish .link => if isMention s.entities then s.update isMentionName else s.update isTextUrl
  | .start (.codeBlock kind) => s.push (.pre kind.lang)
  | .finish .codeBlock => s.update isPre
  | .hardBreak => { s with text := s.text ++ ['\n'], offset := s.offset + 1 }
  | .finish .paragraph => { s with text := s.text ++ ['\n', '\n'], offset := s.offset + 2 }
  | _ => s

/-- The text and the entities of a document, from its events. -/
def parseMarkdownMessage (events : List Event) : Text × List MessageEntity :=
  let s := events.foldl handle .init
  (trimEnd s.text, s.entities)

/-! Streams of events with properly nested tags. -/

/-- What may stand between tags. -/
inductive Leaf where
  | text (string : Text)
  | code (string : Text)
  | hardBreak
  | other
  deriving DecidableEq

abbrev Document : Type := Forest Tag Leaf

def Leaf.event : Leaf → Event
  | text string => .text string
  | code string => .code string
  | hardBreak => .hardBreak
  | other => .other

def eventOf : Token Tag Leaf → Event
  | .opening tag => .start tag
  | .closing tag => .finish tag.toEnd
  | .leaf leaf => leaf.event

def events (document : Document) : List Event := document.tokens.map eventOf

end Markdown

end Parsers

end Grammers
