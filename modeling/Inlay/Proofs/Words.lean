import Inlay.Proofs.Confinement
import Inlay.Proofs.Extraction

/-! Extraction in machine words. Offsets and lengths are words of 64 bits, and the differences that
a range map holds are words with a sign. In such words every sum and difference can fail. For texts
shorter than half of what there are words for, none does but those of the indent, whatever
locations a tree has. So extraction fails exactly when an indent leaves its word, for one script
that is not to be skipped. -/

namespace Inlay

open Text (linesLength)

/-! ## Words -/

namespace Word

def bound63 : Nat := 9223372036854775808

def add64? (a b : Nat) : Option Nat := if a + b < bound64 then some (a + b) else none

def sub64? (a b : Nat) : Option Nat := if b ≤ a then some (a - b) else none

def signed (n : Nat) : Int := Int.bmod n bound64

def subSigned? (i j : Int) : Option Int :=
  if -(bound63 : Int) ≤ i - j ∧ i - j < bound63 then some (i - j) else none

theorem add64?_of_lt {a b : Nat} (h : a + b < bound64) : add64? a b = some (a + b) := if_pos h

theorem sub64?_of_le {a b : Nat} (h : b ≤ a) : sub64? a b = some (a - b) := if_pos h

theorem bound63_lt_bound64 : bound63 < bound64 := by decide

/-- A word below half of the bound stays as it is. -/
theorem signed_of_lt {n : Nat} (h : n < bound63) : signed n = n := by
  unfold bound63 at h
  apply Int.bmod_eq_of_le
  · unfold bound64
    omega
  · unfold bound64
    omega

theorem subSigned?_signed {a b : Nat} (ha : a < bound63) (hb : b < bound63) :
    subSigned? (signed a) (signed b) = some ((a : Int) - b) := by
  rw [signed_of_lt ha, signed_of_lt hb]
  apply if_pos
  omega

end Word

/-! ## Blanks -/

namespace Text

theorem toNat_ofNat_le (n : Nat) : (Char.ofNat n).toNat ≤ n := by
  rw [Char.toNat_ofNat]
  split <;> omega

theorem length_utf8EncodeChar_le {c : Char} :
    (c.toNat < 128 → (String.utf8EncodeChar c).length ≤ 1) ∧
      (c.toNat < 2048 → (String.utf8EncodeChar c).length ≤ 2) ∧
      (c.toNat < 65536 → (String.utf8EncodeChar c).length ≤ 3) := by
  rw [String.length_utf8EncodeChar]
  simp only [Char.utf8Size, UInt32.le_iff_toNat_le, Char.toNat]
  simp
  grind

def Piece.Within (p : Piece) (t : Text) : Prop :=
  ∀ c ∈ p.char?, (String.utf8EncodeChar c).length ≤ p.extra + 1 ∧ p.extra ≤ t.length

theorem Piece.within_none (extra : Nat) (t : Text) : Piece.Within ⟨none, extra⟩ t := by
  simp [Within]

theorem twoBytes_within (b : UInt8) (t : Text) : (twoBytes b t).Within t := by
  fun_cases twoBytes b t with
  | case1 c rest hc =>
    rintro _ ⟨⟩
    refine ⟨length_utf8EncodeChar_le.2.1 ?_, by simp⟩
    have hle := toNat_ofNat_le (b.toNat % 32 * 64 + continuationBits c)
    unfold continuationBits at hle ⊢
    omega
  | case2 => exact Piece.within_none _ _
  | case3 => exact Piece.within_none _ _

theorem threeBytes_within (b : UInt8) (t : Text) : (threeBytes b t).Within t := by
  fun_cases threeBytes b t with
  | case1 c hc d rest hd =>
    rintro _ ⟨⟩
    refine ⟨length_utf8EncodeChar_le.2.2 ?_, by simp⟩
    have hle := toNat_ofNat_le
      ((b.toNat % 16 * 64 + continuationBits c) * 64 + continuationBits d)
    unfold continuationBits at hle ⊢
    omega
  | _ => exact Piece.within_none _ _

theorem fourBytes_within (b : UInt8) (t : Text) : (fourBytes b t).Within t := by
  fun_cases fourBytes b t with
  | case1 c hc d hd e rest he =>
    rintro _ ⟨⟩
    rw [String.length_utf8EncodeChar]
    exact ⟨Char.utf8Size_le_four _, by simp⟩
  | _ => exact Piece.within_none _ _

theorem piece_within (b : UInt8) (t : Text) : (piece b t).Within t := by
  fun_cases piece b t with
  | case1 hb =>
    rintro _ ⟨⟩
    refine ⟨length_utf8EncodeChar_le.1 ?_, Nat.zero_le _⟩
    have hle := toNat_ofNat_le b.toNat
    have hlt : b.toNat < 128 := hb
    omega
  | case2 => exact twoBytes_within b t
  | case3 => exact threeBytes_within b t
  | case4 => exact fourBytes_within b t
  | case5 => exact Piece.within_none _ _

theorem charsLossy_cons (b : UInt8) (t : Text) :
    charsLossy (b :: t) =
      (piece b t).char?.getD (Char.ofNat 0xFFFD) :: charsLossy (t.drop (piece b t).extra) := by
  rw [charsLossy, pieces_cons, List.map_cons, charsLossy]

theorem leadingBlank_le_length (t : Text) : t.leadingBlank ≤ t.length := by
  -- by the pieces of the text, of which one that is no character is no blank
  induction h : t.length using Nat.strong_induction_on generalizing t with
  | _ n ih =>
    cases t with
    | nil => simp [leadingBlank, charsLossy, pieces, piecesOnto, ofChars]
    | cons b t =>
      have hrest := ih (t.drop (piece b t).extra).length
        (by simp only [List.length_drop, List.length_cons] at h ⊢; omega) _ rfl
      have hwithin := piece_within b t
      rw [leadingBlank, charsLossy_cons, List.takeWhile_cons]
      split
      · next hblank =>
        cases hchar : (piece b t).char? with
        | none =>
          rw [hchar] at hblank
          exact absurd hblank (by decide)
        | some c =>
          obtain ⟨hsize, hextra⟩ := hwithin c hchar
          unfold leadingBlank at hrest
          simp only [List.length_drop, List.length_cons] at h hrest
          rw [Option.getD_some, ofChars_cons, List.length_append]
          omega
      · exact Nat.zero_le n

end Text

/-! ## Extraction in words -/

/-- The offset behind one more line and its line break. -/
def Text.addLine64? (n : Nat) (line : Text) : Option Nat := do
  Word.add64? n (← Word.add64? line.length 1)

def commentLength64? (comments : List Text) : Option Nat := comments.foldlM Text.addLine64? 0

namespace RangeMap

def delta64? (document extracted : Nat) : Option Int :=
  Word.subSigned? (Word.signed document) (Word.signed extracted)

def lineEntry64? (extracted document : Nat) (raw code : Text) : Option RangeEntry := do
  let trim ← Word.sub64? raw.stripReturn.length code.stripReturn.length
  let delta ← delta64? (← Word.add64? document trim) extracted
  return ⟨extracted, delta⟩

/-- The table of aligned lines, in words. Lines that are not aligned have none. -/
def alignLines64? (extracted document : Nat) :
    List Text → List Text → Option (Option (List RangeEntry))
  | _, [] => some (some [])
  | [], _ :: _ => some none
  | raw :: raws, code :: codes =>
    if (Text.stripReturn code).isSuffixOf (Text.stripReturn raw) then do
      let entry ← lineEntry64? extracted document raw code
      let document ← Text.addLine64? document raw
      let extracted ← Text.addLine64? extracted code
      let rest ← alignLines64? extracted document raws codes
      return rest.map (entry :: ·)
    else some none

def fenced64? (document : Text) (loc : Location) (code : Text) (comments : List Text) :
    Option (Option RangeMap) :=
  match (loc.textIn? document).map Text.lines with
  | some (delimiter :: raws) => do
    let extracted ← commentLength64? comments
    let start ← Word.add64? (← Word.add64? loc.start.offset delimiter.length) 1
    let entries ← alignLines64? extracted start raws code.lines
    return entries.map withSentinel
  | _ => some none

def inline64? (document : Text) (loc : Location) (code : Text) (comments : List Text) :
    Option (Option RangeMap) :=
  match document.slice? loc.start.offset document.length with
  | some rest =>
    if code.isPrefixOf rest then do
      let extracted ← commentLength64? comments
      let delta ← delta64? loc.start.offset extracted
      return some (withSentinel [⟨extracted, delta⟩])
    else some none
  | none => some none

end RangeMap

namespace Visit

/-- How many bytes of blanks the delimiter line starts with: its length less that of what is behind
them. -/
def fenceIndent64? (document : Text) (loc : Location) : Option Nat :=
  let delimiter := ((loc.textIn? document).bind fun raw => raw.lines.head?).getD []
  Word.sub64? delimiter.length (delimiter.drop delimiter.leadingBlank).length

def indent64? (v : Visit) (document : Text) (style : IndentStyle) (width : Nat) : Option Nat :=
  match style, v.locIn document with
  | .nesting, _ => (Word.mul64 v.depth width).toOption.map Word.low32
  | .column, none => some 1
  | .column, some loc =>
    match v.kind.layout with
    | .fenced => do
      let blanks ← fenceIndent64? document loc
      (Word.add32 loc.start.column (Word.low32 blanks)).toOption
    | .inline => some loc.start.column

def rangeMap64? (v : Visit) (document : Text) (comments : List Text) : Option (Option RangeMap) :=
  match v.locIn document with
  | none => some none
  | some loc =>
    match v.kind.layout with
    | .fenced => RangeMap.fenced64? document loc v.code comments
    | .inline => RangeMap.inline64? document loc v.code comments

def extract64? (v : Visit) (document : Text) (style : IndentStyle) (width : Nat) :
    Option (Option Block) :=
  match v.comments? with
  | none => some none
  | some comments => do
    let map ← v.rangeMap64? document comments
    let indent ← v.indent64? document style width
    return some ⟨v.code, v.kind, v.locIn document, indent, comments, map⟩

end Visit

/-- The blocks of a document's tree, in words. -/
def Cycle.extract64? (document : Text) (style : IndentStyle) (width : Nat) (tree : Option Node) :
    Option (List Block) :=
  (((tree.map Node.walk).getD []).mapM fun (v : Visit) => v.extract64? document style width).map
    (·.filterMap id)

/-! ## Words that suffice -/

theorem commentLength_cons (c : Text) (cs : List Text) :
    commentLength (c :: cs) = c.length + 1 + commentLength cs := rfl

theorem Text.addLine64?_of_lt {n : Nat} {line : Text} (h : n + line.length + 1 < Word.bound64) :
    Text.addLine64? n line = some (n + line.length + 1) := by
  rw [Text.addLine64?, Word.add64?_of_lt (by omega), Option.bind_eq_bind, Option.bind_some,
    Word.add64?_of_lt (by omega), Nat.add_assoc]

theorem foldlM_addLine64? {comments : List Text} {n : Nat}
    (h : n + commentLength comments < Word.bound64) :
    comments.foldlM Text.addLine64? n = some (n + commentLength comments) := by
  induction comments generalizing n with
  | nil => rfl
  | cons c cs ih =>
    rw [commentLength_cons] at h ⊢
    rw [List.foldlM_cons, Text.addLine64?_of_lt (by omega), Option.bind_eq_bind, Option.bind_some,
      ih (by omega)]
    simp only [Nat.add_assoc]

theorem commentLength64?_of_lt {comments : List Text} (h : commentLength comments < Word.bound64) :
    commentLength64? comments = some (commentLength comments) := by
  rw [commentLength64?, foldlM_addLine64? (by omega), Nat.zero_add]

namespace RangeMap

variable {document code : Text} {loc : Location} {comments : List Text} {x d : Nat}

theorem lineEntry64?_of_fits {raw : Text} (hfits : LineFits raw code) (hx : x < Word.bound63)
    (hd : d + raw.length < Word.bound63) :
    lineEntry64? x d raw code = some (lineEntry x d raw code) := by
  have hle := hfits.length_le
  have hraw := (Text.stripReturn_isPrefix raw).length_le
  have hbound := Word.bound63_lt_bound64
  rw [lineEntry64?, Word.sub64?_of_le hle, Option.bind_eq_bind, Option.bind_some,
    Word.add64?_of_lt (by omega), Option.bind_eq_bind, Option.bind_some, delta64?,
    Word.subSigned?_signed (by omega) hx]
  rfl

theorem alignLines64?_of_le {raws codes : List Text} (hx : x + linesLength codes ≤ Word.bound63)
    (hd : d + linesLength raws ≤ Word.bound63) :
    alignLines64? x d raws codes = some (alignLines x d raws codes) := by
  have hbound := Word.bound63_lt_bound64
  -- both cursors have room for the lines still to come, so each and their difference is a word
  induction codes generalizing x d raws with
  | nil => cases raws <;> rfl
  | cons code codes ih =>
    cases raws with
    | nil => rfl
    | cons raw raws =>
      rw [Text.linesLength_cons] at hx hd
      rw [alignLines64?, alignLines]
      split
      · next hsuffix =>
        have hfits : LineFits raw code := List.isSuffixOf_iff_suffix.1 hsuffix
        rw [lineEntry64?_of_fits hfits (by omega) (by omega), Text.addLine64?_of_lt (by omega),
          Text.addLine64?_of_lt (by omega)]
        simp only [Option.bind_eq_bind, Option.bind_some]
        rw [ih (by omega) (by omega)]
        rfl
      · rfl

theorem fenced64?_of_lt (hdocument : document.length < Word.bound63)
    (hcode : commentLength comments + code.length < Word.bound63) :
    fenced64? document loc code comments = some (fenced? document loc code comments) := by
  have hbound := Word.bound63_lt_bound64
  unfold fenced64? fenced?
  cases hraw : loc.textIn? document with
  | none => rfl
  | some raw =>
    obtain ⟨delimiter, raws, hlines⟩ := Text.exists_lines_eq_cons raw
    -- behind the last line the cursor of the document stands one past the location
    obtain ⟨hfill, hstop⟩ := linesLength_raws hraw hlines
    have hcodes := Text.linesLength_lines code
    simp only [Option.map_some, hlines]
    rw [commentLength64?_of_lt (by omega), Word.add64?_of_lt (by omega)]
    simp only [Option.bind_eq_bind, Option.bind_some]
    rw [Word.add64?_of_lt (by omega), Option.bind_some, alignLines64?_of_le (by omega) (by omega)]
    rfl

theorem inline64?_of_lt (hdocument : document.length < Word.bound63)
    (hcode : commentLength comments + code.length < Word.bound63) :
    inline64? document loc code comments = some (inline? document loc code comments) := by
  have hbound := Word.bound63_lt_bound64
  unfold inline64? inline?
  cases hrest : document.slice? loc.start.offset document.length with
  | none => rfl
  | some rest =>
    obtain ⟨front, back, hdoc, hfront, -⟩ := Text.slice?_eq_some_iff.1 hrest
    have hlength := congrArg List.length hdoc
    rw [List.length_append] at hlength
    simp only
    split
    · rw [commentLength64?_of_lt (by omega), Option.bind_eq_bind, Option.bind_some, delta64?,
        Word.subSigned?_signed (by omega) (by omega)]
      rfl
    · rfl

end RangeMap

namespace Visit

variable {v : Visit} {document : Text} {style : IndentStyle} {width : Nat}

theorem fenceIndent64?_eq (document : Text) (loc : Location) :
    fenceIndent64? document loc = some (fenceIndent document loc) := by
  unfold fenceIndent64? fenceIndent
  have hle := Text.leadingBlank_le_length
    (((loc.textIn? document).bind fun raw => raw.lines.head?).getD [])
  rw [Word.sub64?_of_le (by rw [List.length_drop]; omega), List.length_drop]
  congr 1
  omega

theorem indent64?_eq (v : Visit) (document : Text) (style : IndentStyle) (width : Nat) :
    v.indent64? document style width = (v.indent document style width).toOption := by
  unfold indent64? indent
  cases style with
  | nesting => cases Word.mul64 v.depth width <;> rfl
  | column =>
    cases v.locIn document with
    | none => rfl
    | some loc =>
      cases v.kind.layout with
      | fenced => simp only [fenceIndent64?_eq, Option.bind_eq_bind, Option.bind_some]
      | inline => rfl

theorem rangeMap64?_of_lt {comments : List Text} (hdocument : document.length < Word.bound63)
    (hcode : commentLength comments + v.code.length < Word.bound63) :
    v.rangeMap64? document comments = some (v.rangeMapIn document comments) := by
  unfold rangeMap64? rangeMapIn
  cases v.locIn document with
  | none => rfl
  | some loc =>
    cases v.kind.layout with
    | fenced => exact RangeMap.fenced64?_of_lt hdocument hcode
    | inline => exact RangeMap.inline64?_of_lt hdocument hcode

theorem extract64?_of_lt (hdocument : document.length < Word.bound63)
    (hcode : ∀ comments ∈ v.comments?, commentLength comments + v.code.length < Word.bound63) :
    v.extract64? document style width = (v.extract document style width).toOption := by
  unfold extract64? extract
  cases hcomments : v.comments? with
  | none => rfl
  | some comments =>
    simp only
    rw [rangeMap64?_of_lt hdocument (hcode comments hcomments), indent64?_eq, Option.bind_eq_bind,
      Option.bind_some]
    cases v.indent document style width <;> rfl

end Visit

/-- Extraction in words gives what extraction gives, as long as the document is shorter than half of
what there are words for, and each code with the comments before it. -/
theorem Cycle.extract64?_of_lt {document : Text} {style : IndentStyle} {width : Nat} {tree : Node}
    (hdocument : document.length < Word.bound63)
    (hcode : ∀ v ∈ tree.walk, ∀ comments ∈ v.comments?,
      commentLength comments + v.code.length < Word.bound63) :
    Cycle.extract64? document style width (some tree) =
      (Cycle.extract document style width (some tree)).toOption := by
  have hall : (tree.walk.mapM fun (v : Visit) => v.extract64? document style width) =
      (tree.walk.mapM fun (v : Visit) => v.extract document style width).toOption :=
    mapM_toOption fun v hv => Visit.extract64?_of_lt hdocument (hcode v hv)
  unfold Cycle.extract64? Cycle.extract Cycle.extractAll
  rw [Option.map_some, Option.getD_some, hall]
  cases tree.walk.mapM fun (v : Visit) => v.extract document style width <;> rfl

/-! ## Indents that leave their word -/

namespace IndentStyle

def Overflows (style : IndentStyle) (document : Text) (width depth : Nat) (kind : ScriptKind)
    (loc : Option Location) : Prop :=
  match style with
  | .nesting => Word.bound64 ≤ depth * width
  | .column => kind.layout = .fenced ∧ ∃ l ∈ loc, l.fits document = true ∧
      Word.bound32 ≤ l.start.column + Word.low32 (Visit.fenceIndent document l)

instance (style : IndentStyle) (document : Text) (width depth : Nat) (kind : ScriptKind)
    (loc : Option Location) : Decidable (style.Overflows document width depth kind loc) :=
  match style with
  | .nesting => inferInstanceAs (Decidable (Word.bound64 ≤ depth * width))
  | .column => inferInstanceAs (Decidable (kind.layout = .fenced ∧
      ∃ l ∈ loc, l.fits document = true ∧
        Word.bound32 ≤ l.start.column + Word.low32 (Visit.fenceIndent document l)))

def overflow : IndentStyle → Overflow
  | .nesting => .multiply
  | .column => .add

theorem not_fits_iff {style : IndentStyle} {document : Text} {width depth : Nat}
    {kind : ScriptKind} {loc : Option Location} :
    ¬ style.Fits document width depth kind loc ↔ style.Overflows document width depth kind loc := by
  cases style with
  | nesting => exact Nat.not_lt
  | column =>
    unfold Fits Overflows
    push Not
    rfl

end IndentStyle

namespace Visit

variable {document : Text} {style : IndentStyle} {width : Nat}

theorem indent_eq_error {v : Visit} {o : Overflow} (h : v.indent document style width = .error o) :
    o = style.overflow := by
  unfold indent at h
  cases style with
  | nesting => exact (Word.mul64_eq_error.1 (map_eq_error_iff.1 h)).2
  | column =>
    cases hloc : v.locIn document with
    | none => simp [hloc] at h
    | some loc =>
      cases hlayout : v.kind.layout with
      | fenced =>
        simp only [hloc, hlayout] at h
        exact (Word.add32_eq_error.1 h).2
      | inline => simp [hloc, hlayout] at h

theorem indent_eq_error_iff {v : Visit} {o : Overflow} :
    v.indent document style width = .error o ↔
      o = style.overflow ∧ style.Overflows document width v.depth v.kind v.loc := by
  rw [← IndentStyle.not_fits_iff, ← exists_indent_iff]
  cases h : v.indent document style width with
  | ok n => simp
  | error e => simp [indent_eq_error h, eq_comm]

theorem extract_eq_error_iff (v : Visit) (o : Overflow) :
    v.extract document style width = .error o ↔
      o = style.overflow ∧ v.comments? ≠ none ∧
        style.Overflows document width v.depth v.kind v.loc := by
  unfold extract
  cases v.comments? with
  | none => simp
  | some comments => simp [map_eq_error_iff, indent_eq_error_iff]

end Visit

/-! ## Whole documents -/

namespace Node

/-- Some script of the tree is not to be skipped and has an indent that leaves its word. -/
def IndentOverflows (tree : Node) (document : Text) (style : IndentStyle) (width : Nat) : Prop :=
  ∃ a kind code loc, tree.at? a = some (.script kind code loc) ∧ ¬ tree.Skips a ∧
    style.Overflows document width a.length kind loc

theorem indentOverflows_iff {tree : Node} {document : Text} {style : IndentStyle} {width : Nat} :
    tree.IndentOverflows document style width ↔
      ∃ v ∈ tree.walk, v.comments? ≠ none ∧
        style.Overflows document width v.depth v.kind v.loc := by
  constructor
  · rintro ⟨a, kind, code, loc, hat, hno, hover⟩
    obtain ⟨v, hv, hav⟩ := exists_right_of_forall₂ tree.walk_visitAt
      (mem_scripts.2 ⟨kind, code, loc, hat⟩)
    have hscript := hav.script
    rw [hat] at hscript
    cases hscript
    refine ⟨v, hv, mt hav.comments?_eq_none_iff.1 hno, ?_⟩
    rw [hav.depth_eq, Nat.zero_add]
    exact hover
  · rintro ⟨v, hv, hcomments, hover⟩
    obtain ⟨a, -, hav⟩ := exists_left_of_forall₂ tree.walk_visitAt hv
    rw [hav.depth_eq, Nat.zero_add] at hover
    exact ⟨a, v.kind, v.code, v.loc, hav.script, mt hav.comments?_eq_none_iff.2 hcomments, hover⟩

end Node

/-- A location fits a document unless it is inverted, ends past the end, or has an end inside a
character. -/
theorem Location.fits_eq_false_iff {l : Location} {document : Text} :
    l.fits document = false ↔
      l.stop.offset < l.start.offset ∨ document.length < l.stop.offset ∨
        document.isBoundary l.start.offset = false ∨
        document.isBoundary l.stop.offset = false := by
  unfold fits textIn? Text.slice?
  split
  · next h =>
    simp only [Bool.and_eq_true, decide_eq_true_eq] at h
    obtain ⟨⟨⟨hle, hlength⟩, hstart⟩, hstop⟩ := h
    simp [hstart, hstop, Nat.not_lt.2 hle, Nat.not_lt.2 hlength]
  · next h =>
    simp only [Bool.and_eq_true, decide_eq_true_eq, not_and_or, Nat.not_le,
      Bool.not_eq_true, or_assoc] at h
    simpa using h

theorem Node.BlockAt.loc_eq_none {root : Node} {document : Text} {a : Address} {b : Block}
    (h : root.BlockAt document a b) {kind : ScriptKind} {code : Text} {l : Location}
    (hat : root.at? a = some (.script kind code (some l))) (hfits : l.fits document = false) :
    b.loc = none := by
  obtain ⟨loc, hloc, hb⟩ := h.script
  rw [hat] at hloc
  cases hloc
  rw [hb, Option.filter_some, hfits]
  rfl

variable {document : Text} {tree : Node} {style : IndentStyle} {width : Nat}

theorem Cycle.extract_eq_error_iff {o : Overflow} :
    Cycle.extract document style width (some tree) = .error o ↔
      o = style.overflow ∧ tree.IndentOverflows document style width := by
  unfold Cycle.extract Cycle.extractAll
  rw [map_eq_error_iff, mapM_eq_error_iff Visit.extract_eq_error_iff, Node.indentOverflows_iff]
  rfl

theorem Cycle.exists_extract (h : ¬ tree.IndentOverflows document style width) :
    ∃ places blocks, Cycle.extract document style width (some tree) = .ok blocks ∧
      (∀ a, a ∈ places ↔ tree.IsScript a ∧ ¬ tree.Skips a) ∧
      List.Forall₂ (tree.BlockAt document) places blocks := by
  have hfits : ∀ a v, tree.VisitAt 0 [] a v → ¬ tree.Skips a →
      style.Fits document width v.depth v.kind v.loc := by
    intro a v hav hno
    by_contra hnot
    rw [IndentStyle.not_fits_iff, hav.depth_eq, Nat.zero_add] at hnot
    exact h ⟨a, v.kind, v.code, v.loc, hav.script, hno, hnot⟩
  obtain ⟨places, blocks, hblocks, -, hplaces, hall⟩ :=
    Node.exists_extractAll tree.walk_visitAt hfits
  refine ⟨places, blocks, hblocks, fun a => ?_, hall⟩
  rw [hplaces, Node.mem_scripts]

namespace Processor

theorem preprocess_eq {p : Processor} (htree : p.parser.parse document = .ok (some tree)) :
    p.preprocess document =
      (Failure.lift .overflow (Cycle.extract document p.parser.indentStyle p.indentWidth
        (some tree))).map fun blocks => ⟨blocks, p.filter⟩ := by
  rw [preprocess, htree]
  rfl

/-- Taking the blocks out of a document fails exactly when the indent of some script that is not to
be skipped leaves its word: for an indent by nesting the product of depth and width, for an indent
by column the sum of the column and the blanks of the delimiter line, and that for a fenced script
with a location that fits the document only. In all other cases there is a block for each script
that is not to be skipped, and one for a location that is inverted, ends past the end or lies inside
a character has no location. No other sum or difference of the extraction leaves its word, as long
as the texts are shorter than half of what there are words for. -/
theorem preprocess_overflows_iff (p : Processor) {document : Text} {tree : Node}
    (htree : p.parser.parse document = .ok (some tree))
    (hdocument : document.length < Word.bound63)
    (hcode : ∀ v ∈ tree.walk, ∀ comments ∈ v.comments?,
      commentLength comments + v.code.length < Word.bound63) :
    let style := p.parser.indentStyle
    (Cycle.extract64? document style p.indentWidth (some tree) = none ↔
      tree.IndentOverflows document style p.indentWidth) ∧
    (p.preprocess document = .error (.overflow style.overflow) ↔
      tree.IndentOverflows document style p.indentWidth) ∧
    (∀ blocks, Cycle.extract64? document style p.indentWidth (some tree) = some blocks ↔
      p.preprocess document = .ok ⟨blocks, p.filter⟩) ∧
    (¬ tree.IndentOverflows document style p.indentWidth →
      ∃ c places, p.preprocess document = .ok c ∧
        (∀ a, a ∈ places ↔ tree.IsScript a ∧ ¬ tree.Skips a) ∧
        List.Forall₂ (tree.BlockAt document) places c.blocks) ∧
    ∀ a b kind code l, tree.BlockAt document a b →
      tree.at? a = some (.script kind code (some l)) →
      l.stop.offset < l.start.offset ∨ document.length < l.stop.offset ∨
        document.isBoundary l.start.offset = false ∨ document.isBoundary l.stop.offset = false →
      b.loc = none := by
  intro style
  have hwild : ∀ a b kind code l, tree.BlockAt document a b →
      tree.at? a = some (.script kind code (some l)) →
      l.stop.offset < l.start.offset ∨ document.length < l.stop.offset ∨
        document.isBoundary l.start.offset = false ∨ document.isBoundary l.stop.offset = false →
      b.loc = none := by
    intro a b kind code l hb hat hwild
    exact hb.loc_eq_none hat (Location.fits_eq_false_iff.2 hwild)
  rw [Cycle.extract64?_of_lt hdocument hcode, preprocess_eq htree]
  by_cases hover : tree.IndentOverflows document style p.indentWidth
  · rw [Cycle.extract_eq_error_iff.2 ⟨rfl, hover⟩]
    refine ⟨iff_of_true rfl hover, iff_of_true rfl hover, fun blocks => ?_,
      fun hno => absurd hover hno, hwild⟩
    exact iff_of_false (by simp [Except.toOption]) (by simp [Failure.lift, Except.map])
  · obtain ⟨places, blocks, hblocks, hplaces, hall⟩ := Cycle.exists_extract hover
    rw [hblocks]
    refine ⟨iff_of_false (by simp [Except.toOption]) hover,
      iff_of_false (by simp [Failure.lift, Except.map]) hover, fun blocks' => ?_,
      fun _ => ⟨⟨blocks, p.filter⟩, places, rfl, hplaces, hall⟩, hwild⟩
    simp [Except.toOption, Failure.lift, Except.map]

/-- Two fenced scripts, one at a column that the blanks of its delimiter line take out of the word
and one that ends past the end of the document. -/
def farTree (front : List Node) : Node :=
  .container .program none
    (front ++ [.script .block (Text.ofString "a") (some ⟨⟨0, 1, 4294967295⟩, ⟨9, 3, 1⟩⟩),
      .script .block (Text.ofString "b") (some ⟨⟨0, 1, 4294967295⟩, ⟨90, 3, 1⟩⟩)]) none

/-- The first script overflows. Behind a directive to skip it there is one block, for the second
script, and this has no location. -/
theorem preprocess_overflows_far :
    let document := Text.ofString " ```\na\n```"
    let skip := [Node.comment (Text.ofString "<!-- eslint-skip -->") none]
    let processor (front : List Node) : Processor :=
      ⟨⟨"tree", .column, fun _ => .ok (some (farTree front))⟩, 4, .ofRules [] true⟩
    Cycle.extract64? document .column 4 (some (farTree [])) = none ∧
    (processor []).preprocess document = .error (.overflow .add) ∧
    ∃ c, (processor skip).preprocess document = .ok c ∧ ∃ b ∈ c.blocks, b.loc = none := by
  intro document skip processor
  have hsmall : ∀ front ∈ [[], skip], ∀ v ∈ (farTree front).walk, ∀ comments ∈ v.comments?,
      commentLength comments + v.code.length < Word.bound63 := by
    simp only [Node.walk_eq_visits]
    decide +kernel
  have hover : (farTree []).IndentOverflows document .column 4 := by
    rw [Node.indentOverflows_iff, Node.walk_eq_visits]
    decide +kernel
  have hno : ¬ (farTree skip).IndentOverflows document .column 4 := by
    rw [Node.indentOverflows_iff, Node.walk_eq_visits]
    decide +kernel
  have hlength : document.length < Word.bound63 := by decide
  obtain ⟨hnone, herror, -⟩ :=
    preprocess_overflows_iff (processor []) rfl hlength (hsmall [] (by simp))
  obtain ⟨-, -, -, hok, hwild⟩ :=
    preprocess_overflows_iff (processor skip) rfl hlength (hsmall skip (by simp))
  obtain ⟨c, places, hc, hplaces, hall⟩ := hok hno
  refine ⟨hnone.2 hover, herror.2 hover, c, hc, ?_⟩
  have hkept : ¬ (farTree skip).Skips [.child 2] := by
    rintro ⟨k, -, ⟨parent, i, j, rfl, ha, hij, hrun⟩, -⟩
    obtain ⟨rfl, hj⟩ := Node.append_child_inj (p := []) ha
    obtain rfl : 2 = j := by simpa using hj
    -- the script in front ends the run
    obtain ⟨body, words, text, loc, hat, -⟩ := hrun 1 (by omega) (by omega)
    cases hat
  obtain ⟨b, hb, hblock⟩ := exists_right_of_forall₂ hall
    ((hplaces [.child 2]).2 ⟨⟨_, _, _, rfl⟩, hkept⟩)
  exact ⟨b, hb, hwild _ b _ _ _ hblock rfl (Or.inr (Or.inl (by decide)))⟩

end Processor
end Inlay
