import Inlay.Text.Blank
import Inlay.Text.CharClass

/-! What the characters beside a place in a text count as. -/

namespace Inlay
namespace Markdown

/-- The end of a text counts as blank. -/
inductive CharKind where
  | blank
  | punctuation
  | other
deriving DecidableEq

def charKind : Option Char → CharKind
  | none => .blank
  | some c =>
    if Text.isBlank c then .blank else if Text.isPunctuationChar c then .punctuation else .other

/-- The character that bytes end with, the last byte coming first. -/
def lastChar? (reversed : Text) : Option Char :=
  let rest := reversed.dropWhile Text.isContinuation
  let tail := (reversed.takeWhile Text.isContinuation).reverse
  (Text.charsLossy (rest.head?.toList ++ tail)).head?

def firstChar? (t : Text) : Option Char := (Text.charsLossy (t.take 4)).head?

def kindBefore (reversed : Text) : CharKind := charKind (lastChar? reversed)

def kindAfter (t : Text) : CharKind := charKind (firstChar? t)

end Markdown
end Inlay
