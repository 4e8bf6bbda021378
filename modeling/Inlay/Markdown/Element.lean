import Inlay.Tree.Node

/-! The tree of a Markdown document. -/

namespace Inlay
namespace Markdown

inductive Kind where
  | root
  | quote
  | list
  | item
  | footnoteDefinition
  | paragraph
  | heading
  | thematicBreak
  | code (language : Option Text) (value : Text)
  | indentedCode
  | html (value : Text)
  | definition
  | table
  | row
  | cell
  | text
  | emphasis
  | strong
  | strikethrough
  | codeSpan
  | link
  | image
  | hardBreak
  | footnoteReference
deriving DecidableEq, Inhabited

inductive Element where
  | mk (kind : Kind) (loc : Location) (children : List Element)
deriving Inhabited

namespace Element

def kind : Element → Kind
  | .mk kind _ _ => kind

def loc : Element → Location
  | .mk _ loc _ => loc

def children : Element → List Element
  | .mk _ _ children => children

def leaf (kind : Kind) (loc : Location) : Element := .mk kind loc []

mutual

/-- The element as a node: code in a script language is a script, HTML is a comment, and all else is
a section. -/
def toNode (isScript : Text → Bool) : Element → Node
  | .mk kind loc children =>
    match kind with
    | .root => .container .document none (toNodes isScript children) (some loc)
    | .code (some language) value =>
      if isScript language then .script .block value (some loc)
      else .container .section none (toNodes isScript children) (some loc)
    | .html value => .comment value (some loc)
    | _ => .container .section none (toNodes isScript children) (some loc)

def toNodes (isScript : Text → Bool) : List Element → List Node
  | [] => []
  | e :: rest => toNode isScript e :: toNodes isScript rest

end

end Element
end Markdown
end Inlay
