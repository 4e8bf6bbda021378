import Inlay.Block.RangeMap
import Inlay.Tree.Walk
import Inlay.Tree.Comment

/-! Blocks: scripts taken out of a document, with the directives right before them as comments in
front. A block knows where it came from as far as the parser's location fits the document. -/

namespace Inlay

/-- How code sits in the document: after a delimiter line, or as it stands. -/
inductive Layout where
  | fenced
  | inline
deriving DecidableEq, Repr

def ScriptKind.layout (k : ScriptKind) : Layout := if k.isFenced then .fenced else .inline

/-- Whether the indent of a block follows from its nesting or from the column of its code. -/
inductive IndentStyle where
  | nesting
  | column
deriving DecidableEq, Repr

namespace IndentStyle

def name : IndentStyle → String
  | .nesting => "nesting"
  | .column => "column"

def ofName? : String → Option IndentStyle
  | "nesting" => some .nesting
  | "column" => some .column
  | _ => none

end IndentStyle

structure Block where
  code : Text
  kind : ScriptKind
  loc : Option Location
  indent : Nat
  comments : List Text
  rangeMap : Option RangeMap

namespace Block

def layout (b : Block) : Layout := b.kind.layout

/-- What the linter is given: the comments, the code and a line break. -/
def sourceText (b : Block) : Text := Text.unlines (b.comments ++ [b.code, []])

def commentLineCount (b : Block) : Nat := total (b.comments.map (·.lines.length))

def commentLength (b : Block) : Nat := Inlay.commentLength b.comments

/-- What a line of the code lies below its document line. -/
def lineOffset (b : Block) : Option Nat :=
  b.loc.map fun loc =>
    match b.layout with
    | .fenced => loc.start.line
    | .inline => loc.start.line - 1

end Block

def Node.directive? : Node → Option Directive
  | .comment text _ => Directive.ofComment? text
  | _ => none

def leadingDirectives : List Node → List Directive
  | [] => []
  | n :: rest =>
    match n.directive? with
    | some d => d :: leadingDirectives rest
    | none => []

namespace Visit

/-- The directives right before a script, in document order. -/
def directives (v : Visit) : List Directive := (leadingDirectives v.preceding.reverse).reverse

/-- The comments for the directives before a script, unless one of them says to skip it. -/
def comments? (v : Visit) : Option (List Text) := v.directives.mapM Directive.comment?

def locIn (v : Visit) (document : Text) : Option Location := v.loc.filter (·.fits document)

def fenceIndent (document : Text) (loc : Location) : Nat :=
  (((loc.textIn? document).bind fun raw => raw.lines.head?).getD []).leadingBlank

/-- What is added to a column of the code, less one. -/
def indent (v : Visit) (document : Text) (style : IndentStyle) (width : Nat) :
    Except Overflow Nat :=
  match style, v.locIn document with
  | .nesting, _ => (Word.mul64 v.depth width).map Word.low32
  | .column, none => .ok 1
  | .column, some loc =>
    match v.kind.layout with
    | .fenced => Word.add32 loc.start.column (Word.low32 (fenceIndent document loc))
    | .inline => .ok loc.start.column

def rangeMapIn (v : Visit) (document : Text) (comments : List Text) : Option RangeMap :=
  (v.locIn document).bind fun loc =>
    match v.kind.layout with
    | .fenced => RangeMap.fenced? document loc v.code comments
    | .inline => RangeMap.inline? document loc v.code comments

/-- The block of a script, or nothing when it is to be skipped. -/
def extract (v : Visit) (document : Text) (style : IndentStyle) (width : Nat) :
    Except Overflow (Option Block) :=
  match v.comments? with
  | none => .ok none
  | some comments =>
    (v.indent document style width).map fun indent =>
      some ⟨v.code, v.kind, v.locIn document, indent, comments, v.rangeMapIn document comments⟩

end Visit
end Inlay
