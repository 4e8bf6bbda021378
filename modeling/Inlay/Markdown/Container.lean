import Inlay.Markdown.Draft
import Inlay.Markdown.Leaf
import Inlay.Markdown.Definition

/-! Quotes, list items and footnotes hold other blocks. Each is opened by a mark, and each says what
the start of a later line must look like to belong to it. -/

namespace Inlay
namespace Markdown

inductive Container where
  | quote
  | item (marker : UInt8) (size : Nat) (isStillBlank : Bool)
  | footnote (label : Text)

namespace Container

def quoteMark? (c : Cursor) : Option Cursor :=
  if 4 ≤ c.indent then none
  else
    let d := c.skipGaps
    if d.rest.head? = some 62 then some (d.skip.skipColumns 1) else none

/-- The container with the place where its content starts on a line that belongs to it. -/
def continue? (k : Container) (c : Cursor) : Option (Container × Cursor) :=
  match k with
  | .quote => (quoteMark? c).map (.quote, ·)
  | .item marker size isStillBlank =>
    if c.isBlank then if isStillBlank then none else some (k, c.skipColumns size)
    else if size ≤ c.indent then some (.item marker size false, c.skipColumns size)
    else none
  | .footnote _ => if c.isBlank || 4 ≤ c.indent then some (k, c.skipColumns 4) else none

/-- A bullet or a number at a cursor, and the place after it. A line of bullets is no item when it
is a thematic break. Only the number one can follow a line of text. -/
def marker? (isInterrupting : Bool) (c : Cursor) : Option (UInt8 × Cursor) :=
  match c.rest with
  | [] => none
  | b :: _ =>
    if b = 42 || b = 43 || b = 45 then
      if b != 43 && isThematicBreak c.rest then none else some (b, c.skip)
    else
      let digits := c.rest.takeWhile Text.isDigit
      let after := c.skipMany digits.length
      match after.rest with
      | m :: _ =>
        if (m = 46 || m = 41) && !digits.isEmpty && digits.length < 10
            && !(isInterrupting && digits != [49]) then some (m, after.skip)
        else none
      | [] => none

/-- An item at a cursor. Its content starts after at most four columns, and after one when more
follow. -/
def item? (isInterrupting : Bool) (c : Cursor) : Option (Container × Cursor) :=
  if 4 ≤ c.indent then none
  else do
    let (marker, after) ← marker? isInterrupting c.skipGaps
    if after.isBlank then
      if isInterrupting then none else some (.item marker (c.widthTo after + 1) true, after)
    else if after.indent = 0 then none
    else
      let content := after.skipColumns (if after.indent ≤ 4 then after.indent else 1)
      some (.item marker (c.widthTo content) false, content)

def footnoteLabel? : Nat → Bool → Text → Option (Text × Text)
  | 0, _, _ => none
  | _, _, [] => none
  | fuel + 1, escaped, b :: rest =>
    if isGap b || (!escaped && b = 91) then none
    else if !escaped && b = 93 then some ([], rest)
    else (footnoteLabel? fuel (!escaped && b == 92) rest).map fun (label, rest) =>
      (b :: label, rest)

/-- A footnote such as `[^a]:`, with all gaps after it. -/
def footnote? (c : Cursor) : Option (Container × Cursor) :=
  if 4 ≤ c.indent then none
  else
    let d := c.skipGaps
    match d.rest with
    | 91 :: 94 :: rest => do
      let (label, rest) ← footnoteLabel? (maxLabel + 1) false rest
      if label.isEmpty || rest.head? != some 58 then none
      else some (.footnote (normalize label), (d.skipMany (label.length + 4)).skipGaps)
    | _ => none

def open? (isInterrupting : Bool) (c : Cursor) : Option (Container × Cursor) :=
  ((quoteMark? c).map (.quote, ·)).or ((item? isInterrupting c).or (footnote? c))

/-- The containers opened on a line, each with the place where it starts, and where their content
starts. `fuel` is as long as the line. -/
def openAll : Nat → Bool → Cursor → List (Container × Position) × Cursor
  | 0, _, c => ([], c)
  | fuel + 1, isInterrupting, c =>
    match open? isInterrupting c with
    | none => ([], c)
    | some (k, d) =>
      let (rest, e) := openAll fuel false d
      ((k, c.position) :: rest, e)

end Container
end Markdown
end Inlay
