import Inlay.Block.Basic
import Inlay.Message.Basic

/-! Messages about a block as messages about the document. A message inside the comments before the
code is dropped, and so is one of a rule that no fragment can satisfy. Lines and columns shift; a
fix survives only where the block has a range map and the fix starts in the code. -/

namespace Inlay

structure MessageFilter where
  unsatisfiable : List String
  keepsFixes : Bool

namespace MessageFilter

/-- Rules about the end or the start of a file, which a fragment has neither of. -/
def builtinRules : List String := ["eol-last", "unicode-bom"]

/-- Drops the builtin rules and those given. -/
def ofRules (rules : List String) (keepsFixes : Bool) : MessageFilter :=
  ⟨builtinRules ++ rules, keepsFixes⟩

def dropsRule (f : MessageFilter) (rule : String) : Bool := f.unsatisfiable.contains rule

def drops (f : MessageFilter) (m : Message) : Bool :=
  match m.ruleId with
  | some rule => f.dropsRule rule
  | none => false

end MessageFilter

namespace Block

def shiftColumn (b : Block) (column : Nat) : Except Overflow Nat :=
  (Word.add32 column b.indent).map (· - 1)

/-- An end line of the code as a line of the document; one in the comments counts as the first. -/
def shiftEndLine (b : Block) (offset line : Nat) : Except Overflow Nat :=
  Word.add32 (max (line - b.commentLineCount) 1) offset

def relocateFix (b : Block) (f : Fix) : Option Fix :=
  match b.rangeMap with
  | none => none
  | some map =>
    if f.start < b.commentLength then none
    else some ⟨map.toDocument f.start, map.toDocument f.stop, f.text⟩

/-- A message about code that lies `offset` lines down in the document. -/
def relocate (b : Block) (offset : Nat) (m : Message) : Except Overflow Message := do
  let line ← Word.add32 (m.line - b.commentLineCount) offset
  let endLine ← m.endLine.mapM (b.shiftEndLine offset)
  let column ← b.shiftColumn m.column
  let endColumn ← m.endColumn.mapM b.shiftColumn
  return { m with line, endLine, column, endColumn, fix := m.fix.bind b.relocateFix }

/-- A message about the block as one about the document, or nothing when it is dropped. -/
def documentMessage (b : Block) (filter : MessageFilter) (m : Message) :
    Except Overflow (Option Message) :=
  if filter.drops m then .ok none
  else
    let m := if filter.keepsFixes then m else { m with fix := none }
    match b.lineOffset with
    | none => .ok (some m)
    | some offset =>
      if m.line ≤ b.commentLineCount then .ok none
      else (b.relocate offset m).map some

end Block
end Inlay
