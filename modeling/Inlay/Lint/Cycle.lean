import Inlay.Lint.Failure

/-! One round of linting a document: its blocks go out as sources, and a group of messages comes
back for each of them. -/

namespace Inlay

structure Cycle where
  blocks : List Block
  filter : MessageFilter

namespace Cycle

/-- The blocks of visited scripts, those to be skipped left out. -/
def extractAll (document : Text) (style : IndentStyle) (width : Nat) (visits : List Visit) :
    Except Overflow (List Block) :=
  (visits.mapM fun (v : Visit) => v.extract document style width).map (·.filterMap id)

def extract (document : Text) (style : IndentStyle) (width : Nat) (tree : Option Node) :
    Except Overflow (List Block) :=
  extractAll document style width ((tree.map Node.walk).getD [])

def sources (c : Cycle) : List Text := c.blocks.map Block.sourceText

/-- The messages of one group, about the document. -/
def documentMessages (filter : MessageFilter) (b : Block) (group : List Message) :
    Except Overflow (List Message) :=
  (group.mapM (b.documentMessage filter)).map (·.filterMap id)

/-- The messages about the document, given a group for each block. -/
def postprocess (c : Cycle) (groups : List (List Message)) : Except Failure (List Message) :=
  if groups.length ≠ c.blocks.length then .error (.groupCount c.blocks.length groups.length)
  else
    Failure.lift .overflow
      (((c.blocks.zip groups).mapM fun (b, g) => documentMessages c.filter b g).map List.flatten)

end Cycle
end Inlay
