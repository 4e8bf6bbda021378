import Inlay.Markdown.Address
import Inlay.Markdown.Draft
import Inlay.Number.Total

/-! Pieces of running text, and the elements they make up once runs of delimiters are matched from
the inside out. What matches nothing is text. -/

namespace Inlay
namespace Markdown

inductive BracketKind where
  | link
  | image
  | footnote
deriving DecidableEq

/-- Part of a text. Escapes, references and line endings are literal: they are text in which no
address is looked for. A bracket knows what follows it. -/
inductive Piece where
  | text (gs : List Glyph)
  | literal (gs : List Glyph)
  | element (e : Element)
  | run (marker : UInt8) (gs : List Glyph) (opens closes : Bool)
  | bracket (kind : BracketKind) (gs rest : List Glyph) (isActive : Bool)
deriving Inhabited

/-! ## Delimiters -/

def isDelimiter (b : UInt8) : Bool := b == 42 || b == 95 || b == 126

def touches (marker : UInt8) (beside : Option UInt8) : Bool :=
  marker != 126 && (beside.map isDelimiter).getD false

/-- A run of delimiters between two texts. It opens what is not blank after it, and closes what is
not blank before it; a run of `_` does neither inside a word. -/
def runOf (marker : UInt8) (gs : List Glyph) (before after : Text) : Piece :=
  let left := kindBefore before
  let right := kindAfter after
  let opens :=
    right == .other || (right == .punctuation && left != .other) || touches marker after.head?
  let closes :=
    left == .other || (left == .punctuation && right != .other) || touches marker before.head?
  if marker = 95 then
    .run marker gs (opens && (left != .other || !closes)) (closes && (right != .other || !opens))
  else .run marker gs opens closes

/-! ## Pieces as elements -/

/-- Text or an element. Addresses are looked for in text that is plain. -/
inductive Part where
  | text (isPlain : Bool) (gs : List Glyph)
  | element (e : Element)

def partOf : Piece → Part
  | .text gs => .text true gs
  | .literal gs => .text false gs
  | .element e => .element e
  | .run _ gs _ _ => .text true gs
  | .bracket _ gs _ _ => .text true gs

/-- Puts a part before others. Plain text is joined to plain text. -/
def joinPlain (p : Part) (rest : List Part) : List Part :=
  match p, rest with
  | .text true gs, .text true more :: others => .text true (gs ++ more) :: others
  | _, _ => p :: rest

def addressLink (gs : List Glyph) : Element := .mk .link (spanOf gs) [.leaf .text (spanOf gs)]

/-- The parts of plain text, mail addresses being links. `done` holds glyphs before the place
reached, latest first, and `fuel` is as long as the text after it. -/
def splitMail : Nat → List Glyph → List Glyph → List Part
  | _, done, [] => [.text false done.reverse]
  | 0, done, rest => [.text false (done.reverse ++ rest)]
  | fuel + 1, done, g :: rest =>
    match if g.byte = 64 then mailAt? (bytesOf done) (bytesOf rest) else none with
    | some (before, after) =>
      let address := (done.take before).reverse ++ g :: rest.take after
      .text false (done.drop before).reverse :: .element (addressLink address)
        :: splitMail fuel [] (rest.drop after)
    | none => splitMail fuel (g :: done) rest

def withMail : Part → List Part
  | .text true gs => splitMail gs.length [] gs
  | p => [p]

def joinText (p : Part) (rest : List Part) : List Part :=
  match p, rest with
  | .text _ gs, .text _ more :: others => .text false (gs ++ more) :: others
  | .text _ [], rest => rest
  | p, rest => p :: rest

def elementsOf (findsMail : Bool) (pieces : List Piece) : List Element :=
  let parts := (pieces.map partOf).foldr joinPlain []
  let parts := if findsMail then parts.flatMap withMail else parts
  (parts.foldr joinText []).map fun
    | .text _ gs => .leaf .text (spanOf gs)
    | .element e => e

/-! ## Emphasis -/

/-- Whether a run opens what another closes. Two runs of which one could be both do not match if
their sizes add up to a multiple of three, unless the closing one is such a multiple. Runs of `~`
match in equal pairs of one or two. -/
def matchesRun (marker : UInt8) (size : Nat) (opens : Bool) : Piece → Bool
  | .run m gs isOpener isCloser =>
    isOpener && m == marker
      && !((isCloser || opens) && size % 3 != 0 && (gs.length + size) % 3 == 0)
      && (marker != 126 || (gs.length == size && size ≤ 2))
  | _ => false

def emphasisKind (marker : UInt8) (taken : Nat) : Kind :=
  if marker = 126 then .strikethrough else if taken = 2 then .strong else .emphasis

def takenBy (marker : UInt8) (opener closer : Nat) : Nat :=
  if marker = 126 then closer else if 1 < opener && 1 < closer then 2 else 1

/-- Matches runs. What lies to the left of the place reached is kept in reverse. -/
def matchRuns (findsMail : Bool) : Nat → List Piece → List Piece → List Piece
  | _, left, [] => left.reverse
  | 0, left, right => left.reverse ++ right
  | fuel + 1, left, .run marker gs opens true :: rest =>
    let isMatch := matchesRun marker gs.length opens
    match left.span (!isMatch ·) with
    | (inner, .run m opener isOpener isCloser :: outer) =>
      let taken := takenBy marker opener.length gs.length
      let marks := opener.drop (opener.length - taken)
      let e := Element.mk (emphasisKind marker taken)
        ⟨(spanOf marks).start, (spanOf (gs.take taken)).stop⟩ (elementsOf findsMail inner.reverse)
      let remains := opener.take (opener.length - taken)
      let outer := if remains.isEmpty then outer else .run m remains isOpener isCloser :: outer
      let closing := gs.drop taken
      let rest := if closing.isEmpty then rest else .run marker closing opens true :: rest
      matchRuns findsMail fuel (.element e :: outer) rest
    | _ => matchRuns findsMail fuel (.run marker gs opens true :: left) rest
  | fuel + 1, left, p :: rest => matchRuns findsMail fuel (p :: left) rest

def sizeOfPiece : Piece → Nat
  | .run _ gs _ _ => gs.length + 1
  | _ => 1

def resolve (findsMail : Bool) (pieces : List Piece) : List Element :=
  elementsOf findsMail (matchRuns findsMail (2 * total (pieces.map sizeOfPiece)) [] pieces)

end Markdown
end Inlay
