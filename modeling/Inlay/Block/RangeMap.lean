import Inlay.Tree.Location
import Inlay.Number.Total
import Inlay.Number.Word

/-! Offsets of extracted text against offsets of the document. Extraction puts comments before the
code and takes from each line of a fenced block what its containers own. So each line of the code
is the end of its document line, and one difference for each line maps all offsets back. Where a
line is not the end of its document line there is no map. -/

namespace Inlay

/-- Extracted offsets from `extracted` up to the next entry lie `delta` further in the document. -/
structure RangeEntry where
  extracted : Nat
  delta : Int
deriving DecidableEq, Repr

structure RangeMap where
  entries : List RangeEntry
deriving DecidableEq, Repr

/-- The length of comments that are each followed by a line break. -/
def commentLength (comments : List Text) : Nat := total (comments.map (·.length + 1))

namespace RangeMap

def sentinel : RangeEntry := ⟨0, 0⟩

def withSentinel : List RangeEntry → RangeMap
  | [] => ⟨[sentinel]⟩
  | e :: es => if e.extracted = 0 then ⟨e :: es⟩ else ⟨sentinel :: e :: es⟩

/-- The entry of a code line that starts at `extracted` in the extracted text and whose document
line starts at `document`. -/
def lineEntry (extracted document : Nat) (raw code : Text) : RangeEntry :=
  let trim := (Text.stripReturn raw).length - (Text.stripReturn code).length
  ⟨extracted, (document + trim : Nat) - (extracted : Int)⟩

/-- Pairs code lines with document lines, a line ending's `\r` aside on both sides. -/
def alignLines (extracted document : Nat) : List Text → List Text → Option (List RangeEntry)
  | _, [] => some []
  | [], _ :: _ => none
  | raw :: raws, code :: codes =>
    if (Text.stripReturn code).isSuffixOf (Text.stripReturn raw) then
      (alignLines (extracted + code.length + 1) (document + raw.length + 1) raws codes).map
        (lineEntry extracted document raw code :: ·)
    else none

def fenced? (document : Text) (loc : Location) (code : Text) (comments : List Text) :
    Option RangeMap :=
  match (loc.textIn? document).map Text.lines with
  | some (delimiter :: raws) =>
    (alignLines (commentLength comments) (loc.start.offset + delimiter.length + 1) raws
      code.lines).map withSentinel
  | _ => none

def inline? (document : Text) (loc : Location) (code : Text) (comments : List Text) :
    Option RangeMap :=
  match document.slice? loc.start.offset document.length with
  | some rest =>
    if code.isPrefixOf rest then
      some (withSentinel [⟨commentLength comments,
        (loc.start.offset : Int) - commentLength comments⟩])
    else none
  | none => none

/-- How many elements come before the first one that fails `p`, found by halving. Right for a list
in which no element that satisfies `p` follows one that does not. -/
def partitionPoint {α : Type} (p : α → Bool) (xs : List α) : Nat :=
  match h : xs[xs.length / 2]? with
  | none => 0
  | some x =>
    if p x then xs.length / 2 + 1 + partitionPoint p (xs.drop (xs.length / 2 + 1))
    else partitionPoint p (xs.take (xs.length / 2))
termination_by xs.length
decreasing_by
  all_goals
    obtain ⟨hlt, -⟩ := List.getElem?_eq_some_iff.1 h
    simp only [List.length_drop, List.length_take]
    omega

def entryFor (m : RangeMap) (q : Nat) : RangeEntry :=
  m.entries.getD (partitionPoint (fun (e : RangeEntry) => e.extracted ≤ q) m.entries - 1) sentinel

def toDocument (m : RangeMap) (q : Nat) : Nat := Word.clamp64 (q + (m.entryFor q).delta)

end RangeMap
end Inlay
