import Inlay.Markdown.Definition
import Inlay.Markdown.Neighbour

/-! Addresses that stand in running text without brackets. An address on the web is told by its
start, a mail address by its `@`. Punctuation at the end of an address on the web is not part of
it. -/

namespace Inlay
namespace Markdown

/-! ## Ends of addresses -/

def isTrailMark (b : UInt8) : Bool := (Text.ofString "!\"')*,.:;?_~").contains b

/-- Whether an address may end before `t`: only punctuation, and references of letters, come before
a blank or `<`. A closing bracket counts as punctuation, and ends the address if it may end the text
of a link. `fuel` is as long as the text. -/
def isTrail : Nat → Text → Bool
  | _, [] => true
  | 0, _ => false
  | fuel + 1, b :: t =>
    if isTrailMark b then isTrail fuel t
    else if b = 38 then
      match t.dropWhile Text.isLetter with
      | 59 :: rest => (t.head?.map Text.isLetter).getD false && isTrail fuel rest
      | _ => false
    else if b = 60 then true
    else if b = 93 then
      match t with
      | [] => true
      | c :: _ => isSpaceByte c || c == 40 || c == 91 || isTrail fuel t
    else kindAfter (b :: t) == .blank

/-- What has been seen of a domain: a name, and underscores in its last two parts. -/
structure Domain where
  hasName : Bool
  inLast : Bool
  inEarlier : Bool

namespace Domain

def start : Domain := ⟨false, false, false⟩

def mark (d : Domain) (b : UInt8) : Domain :=
  if b = 95 then { d with inLast := true } else ⟨d.hasName, false, d.inLast⟩

def isValid (d : Domain) : Bool := d.hasName && !d.inLast && !d.inEarlier

end Domain

def domainRest (d : Domain) : Text → Domain × Text
  | [] => (d, [])
  | b :: t =>
    if b = 46 || b = 95 then
      if isTrail (t.length + 1) (b :: t) then (d, b :: t) else domainRest (d.mark b) t
    else if b = 45 || Text.isContinuation b then domainRest d t
    else if kindAfter (b :: t) == .other then domainRest { d with hasName := true } t
    else (d, b :: t)

def isPathMark (b : UInt8) : Bool := isTrailMark b || b == 38 || b == 60 || b == 93

/-- Passes over a path. A closing parenthesis belongs to it if it has a partner. -/
def pathRest (opened closed : Nat) : Text → Text
  | [] => []
  | b :: t =>
    if Text.isContinuation b then pathRest opened closed t
    else if b = 40 then pathRest (opened + 1) closed t
    else if isPathMark b then
      if isTrail (t.length + 1) (b :: t) && !(b == 41 && closed < opened) then b :: t
      else pathRest opened (if b = 41 then closed + 1 else closed) t
    else if kindAfter (b :: t) == .blank then b :: t
    else pathRest opened closed t

/-! ## Addresses on the web -/

def mayPrecedeAddress : Text → Bool
  | [] => true
  | b :: _ => isSpaceByte b || (Text.ofString "(*_[]~").contains b

/-- The domain and path of an address, its start being passed over, if one starts at `t`. `done`
holds the bytes before it, the last one first. -/
def addressBody? (done t : Text) : Option Text :=
  let starts (s : String) : Bool := (Text.ofString s).isPrefixOf ((t.take 8).map Text.lower)
  let body (size : Nat) : Option Text :=
    let rest := t.drop size
    if kindAfter rest == .other && !((rest.head?.map isControl).getD true) then some rest else none
  if starts "www." then if mayPrecedeAddress done && 4 < t.length then some t else none
  else if (done.head?.map Text.isLetter).getD false then none
  else if starts "http://" then body 7
  else if starts "https://" then body 8
  else none

/-- Whether an address starts is decided by this many bytes: the longest start and a character. -/
def maxAddressStart : Nat := 12

def addressSize (done t : Text) : Nat :=
  match addressBody? done t with
  | none => 0
  | some body =>
    let (domain, rest) := domainRest .start body
    if domain.isValid then t.length - (pathRest 0 0 rest).length else 0

/-! ## Mail addresses -/

def isMailNameByte (b : UInt8) : Bool :=
  Text.isAlphanumeric b || b == 43 || b == 45 || b == 46 || b == 95

def mailNameSize (reversed : Text) : Nat :=
  let name := reversed.takeWhile isMailNameByte
  if reversed[name.length]? = some 47 then 0 else name.length

/-- The scheme before the name of a mail address, if it is one for mail or chat. -/
def mailScheme? (reversed : Text) : Option Text :=
  match reversed with
  | 58 :: rest =>
    let scheme := ((rest.takeWhile Text.isAlphanumeric).reverse).map Text.lower
    if scheme = Text.ofString "mailto" || scheme = Text.ofString "xmpp" then some scheme else none
  | _ => none

def hostOf (allowsSlash : Bool) : Text → Text
  | [] => []
  | b :: t =>
    if Text.isAlphanumeric b || b == 45 || b == 95 || (allowsSlash && b == 47)
        || (b == 46 && (t.head?.map Text.isAlphanumeric).getD false) then
      b :: hostOf allowsSlash t
    else []

/-- A host has a point in it and a letter at its end. -/
def isMailHost (host : Text) : Bool :=
  host.contains 46 && (host.getLast?.map Text.isLetter).getD false

/-- How many bytes before and after an `@` belong to a mail address, those before it coming latest
first. -/
def mailAt? (reversed t : Text) : Option (Nat × Nat) :=
  let name := mailNameSize reversed
  let scheme := mailScheme? (reversed.drop name)
  let host := hostOf (scheme == some (Text.ofString "xmpp")) t
  if name = 0 || !isMailHost host then none
  else some (name + (scheme.map (·.length + 1)).getD 0, host.length)

end Markdown
end Inlay
