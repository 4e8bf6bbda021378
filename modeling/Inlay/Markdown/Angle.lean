import Inlay.Markdown.Definition
import Inlay.Markdown.Element
import Inlay.Markdown.Html

/-! What stands between angle brackets in running text: links to addresses, mail addresses and
HTML. -/

namespace Inlay
namespace Markdown

def isSchemeByte (b : UInt8) : Bool := Text.isAlphanumeric b || b == 43 || b == 45 || b == 46

def isAddressByte (b : UInt8) : Bool := !(b < 33 || b == 60 || b == 62 || b == 127)

/-- The text after a link such as `scheme:rest>`. -/
def schemeRest? (t : Text) : Option Text :=
  let scheme := t.takeWhile isSchemeByte
  match t.dropWhile isSchemeByte with
  | 58 :: rest =>
    match rest.dropWhile isAddressByte with
    | 62 :: after =>
      if 2 ≤ scheme.length && scheme.length ≤ 32 && (scheme.head?.map Text.isLetter).getD false then
        some after
      else none
    | _ => none
  | _ => none

def isMailByte (b : UInt8) : Bool :=
  Text.isAlphanumeric b || (Text.ofString ".!#$%&'*+/=?^_`\x7b|\x7d~-").contains b

def isHostLabel (t : Text) : Bool :=
  !t.isEmpty && t.length ≤ 63 && t.all (fun b => Text.isAlphanumeric b || b == 45)
    && t.head? != some 45 && t.getLast? != some 45

def mailRest? (t : Text) : Option Text :=
  let name := t.takeWhile isMailByte
  match t.dropWhile isMailByte with
  | 64 :: rest =>
    let host := rest.takeWhile (· != 62)
    match rest.dropWhile (· != 62) with
    | _ :: after =>
      if !name.isEmpty && (Text.split 46 host).all isHostLabel then some after else none
    | [] => none
  | _ => none

def afterEnding? (ending : Text) : Text → Option Text
  | [] => none
  | b :: t =>
    if ending.isPrefixOf (b :: t) then some ((b :: t).drop ending.length) else afterEnding? ending t

/-- The text after a comment, declaration, instruction or tag, `t` being what follows `<`. -/
def inlineHtmlRest? (t : Text) : Option Text :=
  match t with
  | 33 :: 45 :: 45 :: rest =>
    match rest with
    | 62 :: after => some after
    | 45 :: 62 :: after => some after
    | _ => afterEnding? (Text.ofString "-->") rest
  | 33 :: 91 :: rest =>
    if (Text.ofString "CDATA[").isPrefixOf rest then
      afterEnding? (Text.ofString "]]>") (rest.drop 6)
    else none
  | 33 :: b :: rest => if Text.isLetter b then afterEnding? (Text.ofString ">") rest else none
  | 63 :: rest => afterEnding? (Text.ofString "?>") rest
  | 47 :: rest => (tagName? rest).bind fun (_, rest) => dropClosingTag? isSpaceByte rest
  | _ => (tagName? t).bind fun (_, rest) => dropOpeningTag? isSpaceByte rest

/-- What starts at `<`, and its glyphs. -/
def angle? (gs : List Glyph) : Option (Element × List Glyph) :=
  let t := bytesOf (gs.drop 1)
  let element (f : List Glyph → Element) (after : Text) : Element × List Glyph :=
    let taken := gs.take (gs.length - after.length)
    (f taken, taken)
  match (schemeRest? t).or (mailRest? t) with
  | some after =>
    some (element (fun taken =>
      .mk .link (spanOf taken) [.leaf .text (spanOf (taken.drop 1).dropLast)]) after)
  | none =>
    (inlineHtmlRest? t).map (element fun taken => .leaf (.html (bytesOf taken)) (spanOf taken))

end Markdown
end Inlay
