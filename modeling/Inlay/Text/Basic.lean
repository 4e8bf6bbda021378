/-! A text is the list of its UTF-8 bytes, so every offset, length and range counts bytes. A slice
exists only between two character boundaries, and lines end at `\n`. -/

namespace Inlay

abbrev Text := List UInt8

namespace Text

def newline : UInt8 := 10

def carriageReturn : UInt8 := 13

def ofString (s : String) : Text := s.toUTF8.data.toList

/-- The second and later bytes of a character. -/
def isContinuation (b : UInt8) : Bool := 0x80 ≤ b && b < 0xC0

/-- An offset between two characters, or at either end of the text. -/
def isBoundary (t : Text) (i : Nat) : Bool :=
  i == 0 || i == t.length || (match t.drop i with
    | b :: _ => !isContinuation b
    | [] => false)

/-- The bytes from `a` up to `b`, when both are boundaries of the text in this order. -/
def slice? (t : Text) (a b : Nat) : Option Text :=
  if a ≤ b && b ≤ t.length && t.isBoundary a && t.isBoundary b then
    some ((t.drop a).take (b - a))
  else none

def splice (t : Text) (a b : Nat) (new : Text) : Text :=
  t.take a ++ new ++ t.drop b

/-- One step of `split`, from the right. -/
def splitStep (separator b : UInt8) : List Text → List Text
  | [] => [[b]]
  | t :: ts => if b = separator then [] :: t :: ts else (b :: t) :: ts

/-- The pieces between separators, of which there is always one more than there are separators. -/
def split (separator : UInt8) (t : Text) : List Text := t.foldr (splitStep separator) [[]]

/-- One step of `lines`, from the right: a line break opens a new line. -/
def breakLine (b : UInt8) : List Text → List Text
  | [] => [[b]]
  | l :: ls => if b = newline then [] :: l :: ls else (b :: l) :: ls

/-- The pieces between line breaks. A text without one is a single line. -/
def lines (t : Text) : List Text := t.foldr breakLine [[]]

def unlines (ls : List Text) : Text := List.intercalate [newline] ls

/-- The line without the `\r` that a two-byte line ending leaves on it. -/
def stripReturn (t : Text) : Text :=
  if t.getLast? = some carriageReturn then t.dropLast else t

def trimEndWhile (p : UInt8 → Bool) (t : Text) : Text := (t.reverse.dropWhile p).reverse

def isLineBreak (b : UInt8) : Bool := b == newline || b == carriageReturn

def lower (b : UInt8) : UInt8 := if 65 ≤ b && b ≤ 90 then b + 32 else b

def equalsIgnoringCase (s t : Text) : Bool := s.map lower == t.map lower

def isDigit (b : UInt8) : Bool := 48 ≤ b && b ≤ 57

def isLetter (b : UInt8) : Bool := (65 ≤ b && b ≤ 90) || (97 ≤ b && b ≤ 122)

def isAlphanumeric (b : UInt8) : Bool := isDigit b || isLetter b

def digitValue (b : UInt8) : Nat := b.toNat - 48

def hexValue? (b : UInt8) : Option Nat :=
  if isDigit b then some (b.toNat - 48)
  else if 97 ≤ b && b ≤ 102 then some (b.toNat - 87)
  else if 65 ≤ b && b ≤ 70 then some (b.toNat - 55)
  else none

def naturalOfDigits (t : Text) : Nat := t.foldl (fun n b => 10 * n + digitValue b) 0

theorem lines_nil : lines [] = [[]] := rfl

theorem lines_cons (b : UInt8) (t : Text) : lines (b :: t) = breakLine b (lines t) := rfl

theorem lines_ne_nil (t : Text) : lines t ≠ [] := by
  cases t with
  | nil => simp [lines_nil]
  | cons b t =>
    rw [lines_cons]
    cases lines t with
    | nil => simp [breakLine]
    | cons l ls => simp only [breakLine]; split <;> simp

theorem length_splice {t : Text} {a b : Nat} (h : a ≤ t.length) (new : Text) :
    (t.splice a b new).length = a + new.length + (t.length - b) := by
  simp [splice, Nat.min_eq_left h, Nat.add_assoc]

end Text
end Inlay
