import Inlay.Text.CharClass
import Inlay.Text.Blank

/-! Comments of a document and the linter directives in them. A comment counts only when it is
written with one of three pairs of delimiters; its body is what stands between them. A directive is
a body that starts with the word `eslint`, or with `global` and a blank. -/

namespace Inlay

inductive CommentStyle where
  | html
  | block
  | line
deriving DecidableEq, Repr

namespace CommentStyle

def opening : CommentStyle → Text
  | .html => Text.ofString "<!--"
  | .block => Text.ofString "/*"
  | .line => Text.ofString "//"

def closing : CommentStyle → Text
  | .html => Text.ofString "-->"
  | .block => Text.ofString "*/"
  | .line => []

def delimits (s : CommentStyle) (t : Text) : Bool :=
  s.opening.isPrefixOf t && s.closing.isSuffixOf t
    && s.opening.length + s.closing.length ≤ t.length

end CommentStyle

namespace Comment

/-- The comment without line breaks at its end. -/
def core (t : Text) : Text := t.trimEndWhile Text.isLineBreak

/-- The delimiters of a single well-formed comment. -/
def style? (t : Text) : Option CommentStyle :=
  if CommentStyle.html.delimits (core t) then some .html
  else if CommentStyle.block.delimits (core t) then some .block
  else if CommentStyle.line.delimits (core t) && !(core t).contains Text.newline then some .line
  else none

/-- The text between the delimiters. -/
def body? (t : Text) : Option Text :=
  (style? t).map fun s =>
    ((core t).drop s.opening.length).take ((core t).length - s.opening.length - s.closing.length)

end Comment

inductive Directive where
  | config (body : Text)
  | skip
deriving DecidableEq, Repr

namespace Directive

def skipBody : String := "eslint-skip"

def configWord : List Char := "eslint".toList

def globalWord : List Char := "global".toList

/-- Whether the rest of a text starts outside the word before it. -/
def endsWord : List Char → Bool
  | [] => true
  | c :: _ => !Text.isWordChar c

def startsBlank : List Char → Bool
  | [] => false
  | c :: _ => Text.isBlank c

def isDirective (body : List Char) : Bool :=
  (configWord.isPrefixOf body && endsWord (body.drop configWord.length))
    || (globalWord.isPrefixOf body && startsBlank (body.drop globalWord.length))

def ofBody? (body : Text) : Option Directive :=
  let trimmed := Text.trimChars body.charsLossy
  if !isDirective trimmed then none
  else if trimmed = skipBody.toList then some .skip
  else some (.config body)

def ofComment? (t : Text) : Option Directive := (Comment.body? t).bind ofBody?

/-- The comment that stands for a directive in the text handed to the linter. -/
def comment? : Directive → Option Text
  | .config body => some (CommentStyle.block.opening ++ body ++ CommentStyle.block.closing)
  | .skip => none

end Directive
end Inlay
