import Inlay.Markdown.Line
import Inlay.Markdown.Reference

/-! How single lines are recognised: breaks, headings, fences and rows of tables. -/

namespace Inlay
namespace Markdown

/-- At least three of one of `*`, `-` and `_`, with gaps anywhere. -/
def isThematicBreak (t : Text) : Bool :=
  match t with
  | b :: _ =>
    (b == 42 || b == 45 || b == 95) && t.all (fun c => c == b || isGap c)
      && 3 ≤ (t.filter (· == b)).length
  | [] => false

def isUnderline (t : Text) : Bool :=
  match t with
  | b :: _ => (b == 61 || b == 45) && (t.dropWhile (· == b)).all isGap
  | [] => false

/-! ## Headings -/

def trimGaps (t : Text) : Text := t.trimEndWhile isGap

/-- The content of a heading without a closing run of `#`, which stands alone or after a gap. -/
def withoutClosing (t : Text) : Text :=
  let trimmed := trimGaps t
  let kept := trimmed.trimEndWhile (· == 35)
  if kept.isEmpty then []
  else if (kept.getLast?.map isGap).getD false then trimGaps kept
  else trimmed

def heading? (c : Cursor) : Option Strip :=
  let level := (c.rest.takeWhile (· == 35)).length
  let after := c.skipMany level
  if 1 ≤ level && level ≤ 6 && (after.rest.isEmpty || (after.rest.head?.map isGap).getD false) then
    let content := after.skipGaps
    some ⟨content.position, withoutClosing content.rest, content.ending⟩
  else none

/-! ## Fences -/

/-- An opening fence: its character and length, the columns before it, where it starts, and its
info string. -/
structure Fence where
  marker : UInt8
  size : Nat
  indent : Nat
  start : Position
  info : Option Text

/-- An opening fence at a cursor that has `indent` columns before it. Backticks cannot stand in the
rest of a line that opens with backticks. -/
def fence? (indent : Nat) (c : Cursor) : Option Fence :=
  match c.rest with
  | b :: _ =>
    let size := (c.rest.takeWhile (· == b)).length
    let after := (c.rest.dropWhile (· == b)).dropWhile isGap
    if (b == 96 || b == 126) && 3 ≤ size && !(b == 96 && after.contains 96) then
      some ⟨b, size, indent, c.position,
        if after.isEmpty then none else some (after.takeWhile (!isGap ·))⟩
    else none
  | [] => none

namespace Fence

def language (f : Fence) : Option Text := f.info.map decoded

def isClosedBy (f : Fence) (c : Cursor) : Bool :=
  let t := c.skipGaps.rest
  c.indent < 4 && f.size ≤ (t.takeWhile (· == f.marker)).length
    && (t.dropWhile (· == f.marker)).all isGap

def codeOn (f : Fence) (c : Cursor) : Text := (c.skipColumns f.indent).content

end Fence

def trimEndings (t : Text) : Text :=
  let u := match t with
    | 10 :: rest => rest
    | 13 :: 10 :: rest => rest
    | 13 :: rest => rest
    | rest => rest
  match u.reverse with
  | 10 :: 13 :: rest => rest.reverse
  | 10 :: rest => rest.reverse
  | 13 :: rest => rest.reverse
  | _ => u

/-! ## Tables -/

/-- Bytes of a row between bars. A bar after a backslash divides nothing. -/
def cellTexts : Text → List Text
  | [] => [[]]
  | 92 :: b :: t =>
    match cellTexts t with
    | cell :: rest => (92 :: b :: cell) :: rest
    | [] => []
  | b :: t =>
    match cellTexts t with
    | cell :: rest => if b = 124 then [] :: cell :: rest else (b :: cell) :: rest
    | [] => []

def isEmptyCell (t : Text) : Bool := t.all isGap

def cellsOf (t : Text) : List Text :=
  let cells := cellTexts t
  let cells := if (cells.head?.map isEmptyCell).getD false then cells.drop 1 else cells
  if (cells.getLast?.map isEmptyCell).getD false then cells.dropLast else cells

/-- A cell of the line below the head: dashes, with a colon at either end or both. -/
def isDelimiterCell (t : Text) : Bool :=
  let t := trimGaps (t.dropWhile isGap)
  let t := if t.head? == some 58 then t.drop 1 else t
  let dashes := t.takeWhile (· == 45)
  !dashes.isEmpty && (t.drop dashes.length == [] || t.drop dashes.length == [58])

/-- Whether the line below a head makes a table of it: it has as many cells, and a bar or colon. -/
def isDelimiterRow (head t : Text) : Bool :=
  let cells := cellsOf t
  !cells.isEmpty && cells.all isDelimiterCell && (t.contains 124 || t.contains 58)
    && cells.length == (cellsOf head).length

end Markdown
end Inlay
