import Inlay.Markdown.Element
import Inlay.Markdown.Line

/-! Blocks of a Markdown document before their running text is read. A label may be defined after
its first use, so text waits until all blocks are known. -/

namespace Inlay
namespace Markdown

inductive Draft where
  | leaf (kind : Kind) (loc : Location)
  | running (kind : Kind) (loc : Location) (text : List Glyph)
  | definition (label : Text) (loc : Location)
  | footnote (label : Text) (loc : Location) (children : List Draft)
  | item (marker : UInt8) (loc : Location) (children : List Draft)
  | group (kind : Kind) (loc : Location) (children : List Draft)
deriving Inhabited

/-- The labels that links and footnotes can refer to, as they are compared. -/
structure Labels where
  links : List Text
  footnotes : List Text

namespace Labels

def empty : Labels := ⟨[], []⟩

def append (a b : Labels) : Labels := ⟨a.links ++ b.links, a.footnotes ++ b.footnotes⟩

instance : Append Labels := ⟨append⟩

end Labels

namespace Draft

mutual

def labels : Draft → Labels
  | .leaf _ _ => .empty
  | .running _ _ _ => .empty
  | .definition label _ => ⟨[label], []⟩
  | .footnote label _ children => ⟨[], [label]⟩ ++ labelsOfAll children
  | .item _ _ children => labelsOfAll children
  | .group _ _ children => labelsOfAll children

def labelsOfAll : List Draft → Labels
  | [] => .empty
  | d :: rest => labels d ++ labelsOfAll rest

end

def marker? : Draft → Option UInt8
  | .item marker _ _ => some marker
  | _ => none

/-- Puts an element, with its marker if it is an item, before others. Items of one list follow each
other and have the same marker. -/
def gather (marker : Option UInt8) (e : Element) (rest : List (Option UInt8 × Element)) :
    List (Option UInt8 × Element) :=
  if marker.isNone then (none, e) :: rest
  else
    match rest with
    | (next, .mk kind loc items) :: others =>
      if marker = next then (marker, .mk kind ⟨e.loc.start, loc.stop⟩ (e :: items)) :: others
      else (marker, .mk .list e.loc [e]) :: rest
    | [] => [(marker, .mk .list e.loc [e])]

/-- The text after a box such as `[x]` and one space or tab. -/
def afterBox? : List Glyph → Option (List Glyph)
  | a :: b :: c :: d :: rest =>
    if a.byte = 91 && (b.byte = 120 || b.byte = 88 || isGap b.byte || b.byte = Text.newline)
        && c.byte = 93 && (isGap d.byte || d.byte = Text.newline) && !rest.isEmpty then some rest
    else none
  | _ => none

/-- Drops the box of a task from the paragraph that an item starts with. -/
def withoutBox : List Draft → List Draft
  | .running .paragraph loc text :: rest =>
    match afterBox? text with
    | some text => .running .paragraph ⟨(spanOf text).start, loc.stop⟩ text :: rest
    | none => .running .paragraph loc text :: rest
  | drafts => drafts

mutual

def toElement (read : List Glyph → List Element) : Draft → Element
  | .leaf kind loc => .leaf kind loc
  | .running kind loc text => .mk kind loc (read text)
  | .definition _ loc => .leaf .definition loc
  | .footnote _ loc children => .mk .footnoteDefinition loc ((toMarked read children).map (·.2))
  | .item _ loc children => .mk .item loc ((toMarked read children).map (·.2))
  | .group kind loc children => .mk kind loc ((toMarked read children).map (·.2))

/-- Elements with the markers of those that are lists. -/
def toMarked (read : List Glyph → List Element) : List Draft → List (Option UInt8 × Element)
  | [] => []
  | d :: rest => gather d.marker? (toElement read d) (toMarked read rest)

end

def toElements (read : List Glyph → List Element) (drafts : List Draft) : List Element :=
  (toMarked read drafts).map (·.2)

end Draft
end Markdown
end Inlay
