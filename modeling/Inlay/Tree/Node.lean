import Inlay.Tree.Location

/-! The tree of a document: embedded scripts, comments, and containers that hold other nodes. -/

namespace Inlay

inductive ScriptKind where
  | block
  | value
  | function
deriving DecidableEq, Repr

namespace ScriptKind

def name : ScriptKind → String
  | .block => "JavascriptBlock"
  | .value => "JavascriptValue"
  | .function => "Function"

def all : List ScriptKind := [.block, .value, .function]

def ofName? (s : String) : Option ScriptKind := all.find? (·.name == s)

/-- Whether the first line of the node is a delimiter, such as a fence or an opening brace. -/
def isFenced : ScriptKind → Bool
  | .value => false
  | _ => true

end ScriptKind

inductive ContainerKind where
  | program
  | import
  | object
  | property
  | document
  | section
  | unrecognized (name : String)
deriving DecidableEq, Repr

def ContainerKind.name : ContainerKind → String
  | .program => "Program"
  | .import => "Import"
  | .object => "Object"
  | .property => "Property"
  | .document => "Document"
  | .section => "Section"
  | .unrecognized name => name

inductive Node where
  | script (kind : ScriptKind) (code : Text) (loc : Option Location)
  | comment (text : Text) (loc : Option Location)
  | container (kind : ContainerKind) (value : Option Node) (children : List Node)
      (loc : Option Location)
deriving Inhabited

namespace Node

def kindName : Node → String
  | .script kind _ _ => kind.name
  | .comment _ _ => "Comment"
  | .container kind _ _ _ => kind.name

def loc : Node → Option Location
  | .script _ _ loc => loc
  | .comment _ loc => loc
  | .container _ _ _ loc => loc

def children : Node → List Node
  | .container _ _ children _ => children
  | _ => []

def value : Node → Option Node
  | .container _ value _ _ => value
  | _ => none

end Node
end Inlay
