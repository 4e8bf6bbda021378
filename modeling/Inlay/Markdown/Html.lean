import Inlay.Markdown.Line
import Inlay.Text.CharClass

/-! HTML in Markdown: tags, and the seven kinds of HTML blocks, which differ in how they start and
in what ends them. -/

namespace Inlay
namespace Markdown

/-! ## Tags -/

def isTagByte (b : UInt8) : Bool := Text.isAlphanumeric b || b == 45

def isAttributeStart (b : UInt8) : Bool := Text.isLetter b || b == 58 || b == 95

def isAttributeByte (b : UInt8) : Bool :=
  Text.isAlphanumeric b || b == 45 || b == 46 || b == 58 || b == 95

def isUnquotedByte (b : UInt8) : Bool :=
  !(b == 10 || b == 34 || b == 39 || b == 47 || b == 60 || b == 61 || b == 62 || b == 96 || isGap b)

/-- A name after `<` or `</`, with what follows it. -/
def tagName? (t : Text) : Option (Text × Text) :=
  match t with
  | b :: _ => if Text.isLetter b then some (t.takeWhile isTagByte, t.dropWhile isTagByte) else none
  | [] => none

def dropValue? : Text → Option Text
  | 34 :: t =>
    match t.dropWhile (· != 34) with
    | _ :: rest => some rest
    | [] => none
  | 39 :: t =>
    match t.dropWhile (· != 39) with
    | _ :: rest => some rest
    | [] => none
  | t =>
    let rest := t.dropWhile isUnquotedByte
    if rest.length < t.length then some rest else none

/-- Drops `= value`, if it is there. `isBlank` says what may stand around the equals sign. -/
def dropAssignment? (isBlank : UInt8 → Bool) (t : Text) : Option Text :=
  match t.dropWhile isBlank with
  | 61 :: rest => dropValue? (rest.dropWhile isBlank)
  | _ => some t

/-- Drops attributes and the end of an opening tag. Each attribute has a blank before it. -/
def dropAttributes? (isBlank : UInt8 → Bool) : Nat → Text → Option Text
  | 0, _ => none
  | fuel + 1, t =>
    match t.dropWhile isBlank with
    | 62 :: rest => some rest
    | 47 :: 62 :: rest => some rest
    | b :: rest =>
      if isAttributeStart b && (t.head?.map isBlank).getD false then
        (dropAssignment? isBlank (rest.dropWhile isAttributeByte)).bind
          (dropAttributes? isBlank fuel)
      else none
    | [] => none

def dropOpeningTag? (isBlank : UInt8 → Bool) (t : Text) : Option Text :=
  dropAttributes? isBlank (t.length + 1) t

def dropClosingTag? (isBlank : UInt8 → Bool) (t : Text) : Option Text :=
  match t.dropWhile isBlank with
  | 62 :: rest => some rest
  | _ => none

/-! ## Blocks -/

/-- Kinds of HTML blocks, by what ends them: a closing tag, `-->`, `?>`, `>`, `]]>` or a blank line;
the last kind is one complete tag, which cannot break off a paragraph. -/
inductive HtmlKind where
  | raw
  | comment
  | instruction
  | declaration
  | cdata
  | block
  | complete
deriving DecidableEq

def rawNames : List Text := ["pre", "script", "style", "textarea"].map Text.ofString

def blockNames : List Text :=
  ["address", "article", "aside", "base", "basefont", "blockquote", "body", "caption", "center",
    "col", "colgroup", "dd", "details", "dialog", "dir", "div", "dl", "dt", "fieldset",
    "figcaption", "figure", "footer", "form", "frame", "frameset", "h1", "h2", "h3", "h4", "h5",
    "h6", "head", "header", "hr", "html", "iframe", "legend", "li", "link", "main", "menu",
    "menuitem", "nav", "noframes", "ol", "optgroup", "option", "p", "param", "search", "section",
    "summary", "table", "tbody", "td", "tfoot", "th", "thead", "title", "tr", "track",
    "ul"].map Text.ofString

def holds (needle : Text) : Text → Bool
  | [] => needle.isEmpty
  | b :: t => needle.isPrefixOf (b :: t) || holds needle t

namespace HtmlKind

def endsAtBlank : HtmlKind → Bool
  | .block => true
  | .complete => true
  | _ => false

def isEndedBy (k : HtmlKind) (t : Text) : Bool :=
  match k with
  | .raw => rawNames.any fun name =>
      holds (Text.ofString "</" ++ name ++ Text.ofString ">") (t.map Text.lower)
  | .comment => holds (Text.ofString "-->") t
  | .instruction => holds (Text.ofString "?>") t
  | .declaration => holds (Text.ofString ">") t
  | .cdata => holds (Text.ofString "]]>") t
  | .block => false
  | .complete => false

end HtmlKind

def isCompleteTag (isClosing : Bool) (t : Text) : Bool :=
  match if isClosing then dropClosingTag? isGap t else dropOpeningTag? isGap t with
  | some rest => rest.all isGap
  | none => false

def endsTagName : Text → Bool
  | [] => true
  | b :: _ => isGap b || b == 47 || b == 62

def tagKind? (isClosing : Bool) (t : Text) : Option HtmlKind := do
  let (name, rest) ← tagName? t
  if !endsTagName rest then none
  else
    let name := name.map Text.lower
    let slash := rest.head? == some 47
    if !slash && !isClosing && rawNames.contains name then some .raw
    else if blockNames.contains name then
      if slash && (rest.drop 1).head? != some 62 then none else some .block
    else if isCompleteTag isClosing rest then some .complete
    else none

/-- The kind of HTML block that starts with this text, and the text in which its end is looked for
on the same line. -/
def htmlStart? : Text → Option (HtmlKind × Text)
  | 60 :: 33 :: 45 :: 45 :: t => some (.comment, 45 :: 45 :: t)
  | 60 :: 33 :: 91 :: t =>
    if (Text.ofString "CDATA[").isPrefixOf t then some (.cdata, t.drop 6) else none
  | 60 :: 33 :: b :: t => if Text.isLetter b then some (.declaration, t) else none
  | 60 :: 63 :: t => some (.instruction, 63 :: t)
  | 60 :: 47 :: t => (tagKind? true t).map (·, t)
  | 60 :: t => (tagKind? false t).map (·, t)
  | _ => none

end Markdown
end Inlay
