import Inlay.Markdown.Line
import Inlay.Text.CharClass

/-! Link definitions at the start of a paragraph, and the parts they share with links: labels,
destinations and titles. -/

namespace Inlay
namespace Markdown

def isSpaceByte (b : UInt8) : Bool := isGap b || b == Text.newline

def isGapGlyph (g : Glyph) : Bool := isGap g.byte

/-- Passes over gaps and at most one line ending among them. -/
def skipSpace (gs : List Glyph) : List Glyph :=
  match gs.dropWhile isGapGlyph with
  | [] => []
  | g :: rest =>
    if g.byte = Text.newline then rest.dropWhile isGapGlyph else g :: rest

def maxLabel : Nat := 999

/-- The text of a label up to its closing bracket, and what follows the bracket. Brackets and
backslashes that are `escaped` are plain text. -/
def labelRest? : Nat → Bool → List Glyph → Option (Text × List Glyph)
  | 0, _, _ => none
  | _, _, [] => none
  | fuel + 1, escaped, g :: rest =>
    if !escaped && g.byte = 93 then some ([], rest)
    else if !escaped && g.byte = 91 then none
    else (labelRest? fuel (!escaped && g.byte == 92) rest).map fun (text, rest) =>
      (g.byte :: text, rest)

/-- A label in brackets, which holds something other than blanks. -/
def label? (gs : List Glyph) : Option (Text × List Glyph) :=
  match gs with
  | g :: rest =>
    if g.byte = 91 then
      match labelRest? (maxLabel + 1) false rest with
      | some (text, rest) => if text.all isSpaceByte then none else some (text, rest)
      | none => none
    else none
  | [] => none

/-- Labels match when they agree after runs of blanks are made one space and case is ignored. -/
def squeeze : Text → Text
  | [] => []
  | b :: t =>
    if isSpaceByte b then
      match squeeze t with
      | 32 :: rest => 32 :: rest
      | rest => 32 :: rest
    else Text.lower b :: squeeze t

def normalize (t : Text) : Text :=
  Text.trimEndWhile (· == 32) ((squeeze t).dropWhile (· == 32))

/-! ## Destinations -/

def enclosedRest? (escaped : Bool) : List Glyph → Option (List Glyph)
  | [] => none
  | g :: rest =>
    if g.byte = Text.newline then none
    else if escaped then enclosedRest? false rest
    else if g.byte = 62 then some rest
    else if g.byte = 60 then none
    else enclosedRest? (g.byte == 92) rest

def isControl (b : UInt8) : Bool := (0 < b && b < 32) || b == 127

def isParenthesis (b : UInt8) : Bool := b == 40 || b == 41

/-- The rest after a destination without brackets, whose parentheses balance. `depth` counts those
still open, of which there may be no more than `most`. -/
def rawRest? (most : Nat) (escaped : Bool) (depth : Nat) : List Glyph → Option (List Glyph)
  | [] => if depth = 0 then some [] else none
  | g :: rest =>
    if escaped && (isParenthesis g.byte || g.byte = 92) then rawRest? most false depth rest
    else if depth = 0 && (isSpaceByte g.byte || g.byte = 41) then some (g :: rest)
    else if g.byte = 40 then if depth < most then rawRest? most false (depth + 1) rest else none
    else if g.byte = 41 then rawRest? most false (depth - 1) rest
    else if g.byte = space || isControl g.byte then none
    else rawRest? most (g.byte == 92) depth rest

def destination? (most : Nat) (gs : List Glyph) : Option (List Glyph) :=
  match gs with
  | [] => none
  | g :: rest =>
    if g.byte = 60 then enclosedRest? false rest
    else if isSpaceByte g.byte || isControl g.byte || g.byte = 41 then none
    else rawRest? most false 0 (g :: rest)

/-! ## Titles -/

def titleRest? (close : UInt8) (escaped : Bool) : List Glyph → Option (List Glyph)
  | [] => none
  | g :: rest =>
    if !escaped && g.byte = close then some rest
    else titleRest? close (!escaped && g.byte == 92) rest

def title? (gs : List Glyph) : Option (List Glyph) :=
  match gs with
  | [] => none
  | g :: rest =>
    if g.byte = 34 || g.byte = 39 then titleRest? g.byte false rest
    else if g.byte = 40 then titleRest? 41 false rest
    else none

/-! ## Definitions -/

def isLineEnd : List Glyph → Bool
  | [] => true
  | g :: _ => g.byte == Text.newline

/-- What follows a definition's destination: an optional title and the end of a line. -/
def definitionEnd? (gs : List Glyph) : Option (List Glyph) :=
  let plain := gs.dropWhile isGapGlyph
  let titled :=
    match skipSpace gs with
    | [] => none
    | after =>
      if after.length < gs.length then
        (title? after).bind fun rest =>
          let rest := rest.dropWhile isGapGlyph
          if isLineEnd rest then some rest else none
      else none
  titled.or (if isLineEnd plain then some plain else none)

def definition? (gs : List Glyph) : Option (Text × List Glyph) := do
  let (label, rest) ← label? gs
  match rest with
  | colon :: rest =>
    if colon.byte = 58 then
      let rest ← destination? gs.length (skipSpace rest)
      let rest ← definitionEnd? rest
      some (label, rest)
    else none
  | [] => none

def before (gs rest : List Glyph) : List Glyph := gs.take (gs.length - rest.length)

/-- The definitions at the front of a paragraph, each with its label and place, and the text after
them. -/
def definitionsOf : Nat → List Glyph → List (Text × Location) × List Glyph
  | 0, gs => ([], gs)
  | fuel + 1, gs =>
    match definition? gs with
    | none => ([], gs)
    | some (label, rest) =>
      let (more, text) := definitionsOf fuel (rest.drop 1)
      ((normalize label, spanOf (before gs rest)) :: more, text)

end Markdown
end Inlay
