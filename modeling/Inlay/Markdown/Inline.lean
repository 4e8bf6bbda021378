import Inlay.Markdown.Angle
import Inlay.Markdown.Piece
import Inlay.Markdown.Reference

/-! Running text: code spans, links, emphasis and the rest. Text is cut into pieces from left to
right, and a link is closed at its bracket. -/

namespace Inlay
namespace Markdown

/-! ## Links -/

def maxParentheses : Nat := 32

def skipBlanks (gs : List Glyph) : List Glyph := gs.dropWhile fun g => isSpaceByte g.byte

def afterClosing? (gs : List Glyph) : Option (List Glyph) :=
  match skipBlanks gs with
  | g :: rest => if g.byte = 41 then some rest else none
  | [] => none

def titleAndClosing? (gs : List Glyph) : Option (List Glyph) :=
  let spaced := skipBlanks gs
  if spaced.length < gs.length then (title? spaced).bind afterClosing? else none

def resourceRest? (gs : List Glyph) : Option (List Glyph) :=
  match gs with
  | g :: rest =>
    if g.byte = 40 then
      let rest := skipBlanks rest
      (afterClosing? rest).or <|
        (destination? maxParentheses rest).bind fun rest =>
          (afterClosing? rest).or (titleAndClosing? rest)
    else none
  | [] => none

def fullReference? (labels : Labels) (gs : List Glyph) : Option (List Glyph) :=
  (label? gs).bind fun (label, rest) =>
    if labels.links.contains (normalize label) then some rest else none

/-- What follows a label that is itself defined: an empty label belongs to it, and no other may
follow. -/
def shortReference? (gs : List Glyph) : Option (List Glyph) :=
  match gs with
  | a :: b :: rest => if a.byte = 91 then if b.byte = 93 then some rest else none else some gs
  | [a] => if a.byte = 91 then none else some gs
  | [] => some []

/-- What follows a link whose text has this label, `gs` being what follows the closing bracket. -/
def linkRest? (labels : Labels) (label : Text) (gs : List Glyph) : Option (List Glyph) :=
  let isDefined := label.length ≤ maxLabel && labels.links.contains (normalize label)
  (resourceRest? gs).or <| (fullReference? labels gs).or <|
    if isDefined then shortReference? gs else none

/-- There are no links in links. -/
def deactivate : Piece → Piece
  | .bracket .image gs rest isActive => .bracket .image gs rest isActive
  | .bracket kind gs rest _ => .bracket kind gs rest false
  | p => p

def isBracket : Piece → Bool
  | .bracket _ _ _ _ => true
  | _ => false

/-- What a bracket and the one that closes it stand for, and what follows. A footnote that is not
defined may be a link whose text starts with `^`. -/
def closeBracket? (labels : Labels) (kind : BracketKind) (gs : List Glyph) (label : Text)
    (inner : List Piece) (rest : List Glyph) : Option (Kind × List Element × List Glyph) :=
  match kind with
  | .footnote =>
    if labels.footnotes.contains (normalize label) then some (.footnoteReference, [], rest)
    else
      (linkRest? labels (94 :: label) rest).map
        (.link, resolve false (.text (gs.drop 1) :: inner), ·)
  | .link => (linkRest? labels label rest).map (.link, resolve false inner, ·)
  | .image => (linkRest? labels label rest).map (.image, [], ·)

/-- What has been cut off: all pieces so far, latest first, the glyphs that were taken last, and
those that are left. -/
structure Cut where
  pieces : List Piece
  taken : List Glyph
  rest : List Glyph

/-- Closes the innermost bracket at `]`. Pieces are kept in reverse. -/
def closeAt (labels : Labels) (pieces : List Piece) (close : Glyph) (rest : List Glyph) : Cut :=
  match pieces.span (!isBracket ·) with
  | (inner, .bracket kind gs after isActive :: outer) =>
    let label := bytesOf (after.take (after.length - (rest.length + 1)))
    let closed := if isActive then closeBracket? labels kind gs label inner.reverse rest else none
    match closed with
    | some (k, children, remains) =>
      let taken := (close :: rest).take (rest.length + 1 - remains.length)
      let e := Element.mk k ⟨(spanOf gs).start, (spanOf taken).stop⟩ children
      ⟨.element e :: (if k = .image then outer else outer.map deactivate), taken, remains⟩
    | none => ⟨.text [close] :: inner ++ .text gs :: outer, [close], rest⟩
  | _ => ⟨.text [close] :: pieces, [close], rest⟩

/-! ## Code -/

def codeRest? (size : Nat) : Nat → List Glyph → Option (List Glyph)
  | 0, _ => none
  | fuel + 1, gs =>
    match gs.dropWhile fun g => g.byte != 96 with
    | [] => none
    | more =>
      let run := more.takeWhile fun g => g.byte == 96
      let rest := more.drop run.length
      if run.length = size then some rest else codeRest? size fuel rest

/-! ## Pieces of a text -/

def isSpecial (b : UInt8) : Bool :=
  isSpaceByte b || (Text.ofString "\\&`<*_~![]hHwW").contains b

/-- A piece with its glyphs and what follows them. -/
structure Slip where
  piece : Piece
  taken : List Glyph
  rest : List Glyph

/-- Blanks: a line break is hard after two spaces, gaps before it are no text, and neither are those
at the end. -/
def spaceSlip (gs : List Glyph) : Slip :=
  let gaps := gs.takeWhile isGapGlyph
  match gs.drop gaps.length with
  | [] => ⟨.text [], gaps, []⟩
  | g :: rest =>
    let taken := gaps ++ [g]
    if g.byte = Text.newline then
      if 2 ≤ gaps.length && gaps.all (·.byte == space) then
        ⟨.element (.leaf .hardBreak (spanOf taken)), taken, rest⟩
      else ⟨.literal [g], taken, rest⟩
    else ⟨.text gaps, gaps, g :: rest⟩

def escapeSlip (g : Glyph) (rest : List Glyph) : Slip :=
  match rest with
  | h :: more =>
    if h.byte = Text.newline then ⟨.element (.leaf .hardBreak (spanOf [g, h])), [g, h], more⟩
    else if Text.isAsciiPunctuation h.byte then ⟨.literal [g, h], [g, h], more⟩
    else ⟨.text [g], [g], rest⟩
  | [] => ⟨.text [g], [g], rest⟩

def codeSlip (gs : List Glyph) : Slip :=
  let run := gs.takeWhile fun g => g.byte == 96
  let rest := gs.drop run.length
  match codeRest? run.length gs.length rest with
  | some after =>
    let taken := before gs after
    ⟨.element (.leaf .codeSpan (spanOf taken)), taken, after⟩
  | none => ⟨.text run, run, rest⟩

/-- An address. That one starts here is told by its first bytes. -/
def addressSlip (done : Text) (g : Glyph) (rest : List Glyph) : Slip :=
  let mayStart := (addressBody? done (bytesOf ((g :: rest).take maxAddressStart))).isSome
  let size := if mayStart then addressSize done (bytesOf (g :: rest)) else 0
  if size = 0 then ⟨.text [g], [g], rest⟩
  else
    let taken := (g :: rest).take size
    ⟨.element (addressLink taken), taken, (g :: rest).drop size⟩

def maxReference : Nat := 40

def referenceSlip (g : Glyph) (rest : List Glyph) : Slip :=
  let ahead := bytesOf (rest.take maxReference)
  match reference? ahead with
  | some (_, after) =>
    let size := ahead.length - after.length
    ⟨.literal (g :: rest.take size), g :: rest.take size, rest.drop size⟩
  | none => ⟨.text [g], [g], rest⟩

def angleSlip (g : Glyph) (rest : List Glyph) : Slip :=
  match angle? (g :: rest) with
  | some (e, taken) => ⟨.element e, taken, (g :: rest).drop taken.length⟩
  | none => ⟨.text [g], [g], rest⟩

def bracketSlip (kind : BracketKind) (size : Nat) (gs : List Glyph) : Slip :=
  ⟨.bracket kind (gs.take size) (gs.drop size) true, gs.take size, gs.drop size⟩

def runSlip (done : Text) (g : Glyph) (rest : List Glyph) : Slip :=
  let taken := g :: rest.takeWhile fun h => h.byte == g.byte
  let after := rest.dropWhile fun h => h.byte == g.byte
  ⟨runOf g.byte taken done (bytesOf (after.take 4)), taken, after⟩

def plainSlip (g : Glyph) (rest : List Glyph) : Slip :=
  let taken := g :: rest.takeWhile fun h => !isSpecial h.byte
  ⟨.text taken, taken, rest.dropWhile fun h => !isSpecial h.byte⟩

/-- The piece that starts with a glyph, which is no closing bracket. `done` holds the bytes before
it, last byte first. -/
def slip (done : Text) (g : Glyph) (rest : List Glyph) : Slip :=
  let isNext (i : Nat) (b : UInt8) : Bool := (rest[i]?.map (·.byte)) == some b
  match g.byte with
  | 92 => escapeSlip g rest
  | 38 => referenceSlip g rest
  | 96 => codeSlip (g :: rest)
  | 60 => angleSlip g rest
  | 33 =>
    if isNext 0 91 && !isNext 1 94 then bracketSlip .image 2 (g :: rest)
    else ⟨.text [g], [g], rest⟩
  | 91 =>
    if isNext 0 94 then bracketSlip .footnote 2 (g :: rest) else bracketSlip .link 1 (g :: rest)
  | b =>
    if isSpaceByte b then spaceSlip (g :: rest)
    else if isDelimiter b then runSlip done g rest
    else if isSpecial b then addressSlip done g rest
    else plainSlip g rest

def cut (labels : Labels) (done : Text) (pieces : List Piece) (g : Glyph) (rest : List Glyph) :
    Cut :=
  if g.byte = 93 then closeAt labels pieces g rest
  else
    let s := slip done g rest
    ⟨s.piece :: pieces, s.taken, s.rest⟩

def piecesOf (labels : Labels) : Nat → Text → List Piece → List Glyph → List Piece
  | _, _, pieces, [] => pieces.reverse
  | 0, _, pieces, _ => pieces.reverse
  | fuel + 1, done, pieces, g :: rest =>
    let c := cut labels done pieces g rest
    piecesOf labels fuel ((bytesOf c.taken).reverse ++ done) c.pieces c.rest

def readText (labels : Labels) (gs : List Glyph) : List Element :=
  resolve true (piecesOf labels gs.length [] [] gs)

end Markdown
end Inlay
