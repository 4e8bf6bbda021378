import Inlay.Proofs.Anchors

/-! Lines and columns of relocated messages against the range map. A message at an offset on the
text of a code line is reported on the document line that holds the image of the offset. Its column
moves by one indent for the whole block, while each line has its own place in the document: so the
column is right exactly on the lines that start in the document where the indent says. -/

namespace Inlay

open Text (linesLength newline)

/-! ## Anchored lines -/

/-- What is added to a line of the code, when the location starts on `line`. -/
def Layout.lineOffset (layout : Layout) (line : Nat) : Nat :=
  match layout with
  | .fenced => line
  | .inline => line - 1

theorem Layout.exists_anchored {layout : Layout} {document code : Text} {loc : Location}
    {comments : List Text} {map : RangeMap}
    (hmap : layout.rangeMap? document loc code comments = some map)
    (hlength : document.length < Word.bound64) {pre post : List Text} {line : Text}
    (hcode : code.lines = pre ++ line :: post) :
    ∃ before,
      RangeMap.Anchored document map (commentLength comments + linesLength pre)
        line.stripReturn before ∧
      before.count newline = pre.length + layout.lineOffset (document.lineAt loc.start.offset) ∧
      (layout = .inline → pre.length = 0 → before.length = loc.start.offset) := by
  cases layout with
  | fenced =>
    obtain ⟨raw, delimiter, raws, -, hraw, hlines, -⟩ := RangeMap.fenced?_eq_some_iff.1 hmap
    obtain ⟨before, hanchored, hcount, -⟩ :=
      RangeMap.exists_anchored_of_fenced? hmap hlength hraw hlines hcode
    refine ⟨before, hanchored, ?_, fun h => by cases h⟩
    rw [hcount, lineOffset, Text.lineAt]
    omega
  | inline =>
    obtain ⟨before, hanchored, hlen, hbefore⟩ := RangeMap.exists_anchored_of_inline? hmap hlength
    obtain ⟨x, z, rfl, hx, hxlines⟩ := Text.exists_append_of_lines hcode (Nat.zero_le _)
    have hcount := Text.length_lines x
    rw [hxlines, List.length_append, List.length_singleton] at hcount
    -- the line is a piece of the code, which is anchored as a whole
    have hpiece := hanchored.piece
    rw [hx, List.drop_zero, Nat.add_zero] at hpiece
    refine ⟨before ++ x, hpiece, ?_, ?_⟩
    · rw [List.count_append, hbefore, lineOffset, Text.lineAt]
      omega
    · intro _ hpre
      rw [List.length_eq_zero_iff.1 hpre] at hx
      rw [List.length_append, hx, hlen]
      rfl

namespace Block

/-- An offset on the text of a code line in the extracted text and in the document: `above` code
lines are before it, and its code line starts `k` bytes before it in both. -/
theorem coordinates_of_onLine {v : Visit} {document : Text} {style : IndentStyle} {width : Nat}
    {b : Block} {loc : Location} {map : RangeMap} {q : Nat}
    (hlength : document.length < Word.bound64)
    (hb : v.extract document style width = .ok (some b)) (hloc : b.loc = some loc)
    (hmap : b.rangeMap = some map) (hq : b.commentLength ≤ q)
    (hcode : b.code.OnLine (q - b.commentLength)) :
    ∃ above k,
      b.sourceText.lineAt q = b.commentLineCount + above + 1 ∧
      b.sourceText.columnAt q = k + 1 ∧
      document.lineAt (map.toDocument q) =
        above + 1 + b.layout.lineOffset (document.lineAt loc.start.offset) ∧
      document.columnAt (map.toDocument q) = document.columnAt (map.toDocument (q - k)) + k ∧
      (b.layout = .inline → above = 0 → map.toDocument (q - k) = loc.start.offset) := by
  obtain ⟨pre, l, post, k, hlines, hk, hoffset⟩ := hcode
  have hkl : k ≤ l.length := Nat.le_trans hk (Text.stripReturn_isPrefix l).length_le
  have hbreak : newline ∉ l.stripReturn :=
    Text.newline_notMem_stripReturn (t := b.code) (by simp [hlines])
  rw [Visit.rangeMap_of_loc_eq_some hb hloc] at hmap
  obtain ⟨before, hanchored, hcount, hinline⟩ := Layout.exists_anchored hmap hlength hlines
  have hsource : q = b.commentLength + (linesLength pre + k) := by omega
  have himage : q = Inlay.commentLength b.comments + linesLength pre + k := by
    rw [Nat.add_assoc]
    exact hsource
  have hstart : q - k = Inlay.commentLength b.comments + linesLength pre := by omega
  refine ⟨pre.length, k, ?_, ?_, ?_, ?_, ?_⟩
  · rw [hsource, lineAt_sourceText hlines hkl]
  · rw [hsource, columnAt_sourceText hlines hkl]
  · rw [himage, hanchored.lineAt_eq hbreak hk, hcount]
    omega
  · rw [hstart, himage, hanchored.columnAt_eq hbreak hk]
  · intro hlayout habove
    rw [hstart, hanchored.toDocument_start, hinline hlayout habove]

/-! ## Lines -/

theorem lineOffset_of_loc {b : Block} {loc : Location} (hloc : b.loc = some loc) :
    b.lineOffset = some (b.layout.lineOffset loc.start.line) := by
  simp only [lineOffset, hloc]
  rfl

/-- The line of a relocated message and the image of its offset name the same document line. -/
theorem documentMessage_lineAt {v : Visit} {document : Text} {style : IndentStyle} {width : Nat}
    {b : Block} {loc : Location} {map : RangeMap} {filter : MessageFilter} {m : Message}
    {r : Option Message} {q : Nat} (hlength : document.length < Word.bound64)
    (hb : v.extract document style width = .ok (some b)) (hloc : b.loc = some loc)
    (hmap : b.rangeMap = some map)
    (hstart : loc.start.line = document.lineAt loc.start.offset)
    (hq : b.commentLength ≤ q) (hcode : b.code.OnLine (q - b.commentLength))
    (hline : m.line = b.sourceText.lineAt q) (hdrops : filter.drops m = false)
    (hr : b.documentMessage filter m = .ok r) :
    ∃ n, r = some n ∧ n.line = document.lineAt (map.toDocument q) := by
  obtain ⟨above, k, hsource, -, hdocument, -⟩ :=
    coordinates_of_onLine hlength hb hloc hmap hq hcode
  rw [documentMessage_of_lt hdrops (lineOffset_of_loc hloc) (by omega)] at hr
  obtain ⟨n, hn, rfl⟩ := map_eq_ok_iff.1 hr
  refine ⟨n, rfl, ?_⟩
  rw [relocate_line hn, MessageFilter.passOn_line, hline, hsource, hdocument, hstart]
  omega

def quotedDocument : Text := Text.ofString "> ```\r\n> é;\r\n>  cd\r\n> ```\r\n"

def quotedScript : Visit :=
  ⟨.block, Text.ofString "é;\n cd", some ⟨⟨2, 1, 3⟩, ⟨26, 4, 6⟩⟩, 1,
    [.comment (Text.ofString "<!--eslint\nsemi: 2-->") none]⟩

def quotedMap : RangeMap := ⟨[⟨0, 0⟩, ⟨19, -10⟩, ⟨23, -7⟩]⟩

def quotedBlock : Block :=
  ⟨quotedScript.code, .block, quotedScript.loc, 3, [Text.ofString "/*eslint\nsemi: 2*/"],
    some quotedMap⟩

theorem extract_quotedScript :
    quotedScript.extract quotedDocument .column 4 = .ok (some quotedBlock) := by
  have hloc : quotedScript.locIn quotedDocument = quotedBlock.loc := by decide +kernel
  have hmap : quotedScript.rangeMapIn quotedDocument quotedBlock.comments =
      quotedBlock.rangeMap := by decide +kernel
  have hcomments : quotedScript.comments? = some quotedBlock.comments := by decide +kernel
  have hindent : quotedScript.indent quotedDocument .column 4 = .ok 3 := by decide +kernel
  refine Visit.extract_eq_some_iff.2 ⟨quotedBlock.comments, 3, hcomments, hindent, ?_⟩
  rw [hloc, hmap]
  rfl

theorem onLine_quotedBlock : quotedBlock.code.OnLine (25 - quotedBlock.commentLength) :=
  ⟨[Text.ofString "é;"], Text.ofString " cd", [], 2, by cbv, by cbv, by cbv⟩

/-- The last byte of the second code line, which is the fourth line of the extracted text. -/
theorem documentMessage_lineAt_quoted :
    ∃ n, quotedBlock.documentMessage (.ofRules [] true) (Message.ofRule "semi" "" 4 1) =
        .ok (some n) ∧
      n.line = quotedDocument.lineAt (quotedMap.toDocument 25) ∧
      quotedDocument.lineAt (quotedMap.toDocument 25) = 3 := by
  obtain ⟨r, hr⟩ : ∃ r, quotedBlock.documentMessage (.ofRules [] true)
      (Message.ofRule "semi" "" 4 1) = .ok r := ⟨_, by cbv⟩
  obtain ⟨n, rfl, hline⟩ := documentMessage_lineAt (by decide +kernel) extract_quotedScript rfl rfl
    (by decide +kernel) (by decide +kernel) onLine_quotedBlock (by decide +kernel)
    (by decide +kernel) hr
  exact ⟨n, hr, hline, by decide +kernel⟩

end Block

/-! ## Columns -/

def Layout.fenceIndent (layout : Layout) (document : Text) (loc : Location) : Nat :=
  match layout with
  | .fenced => Word.low32 (Visit.fenceIndent document loc)
  | .inline => 0

theorem Visit.indent_of_column {v : Visit} {document : Text} {width : Nat} {b : Block}
    {loc : Location} (hb : v.extract document .column width = .ok (some b))
    (hloc : b.loc = some loc) :
    b.indent = loc.start.column + b.layout.fenceIndent document loc := by
  obtain ⟨comments, indent, -, hindent, rfl⟩ := extract_eq_some_iff.1 hb
  simp only at hloc
  simp only [Visit.indent, hloc] at hindent
  simp only [Block.layout, Layout.fenceIndent]
  cases hlayout : v.kind.layout with
  | fenced =>
    rw [hlayout] at hindent
    exact (Word.add32_eq_ok.1 hindent).2
  | inline =>
    rw [hlayout] at hindent
    exact (Except.ok.inj hindent).symm

namespace Block

/-- The column of a relocated message and the image of its offset. The column moves by the indent
of the block, which is the column where its location starts and the blanks in front of the fence.
So it is the column of the image exactly when the code line starts in the document in the column
that the indent names. The first line of inline code always does. -/
theorem documentMessage_columnAt_iff {v : Visit} {document : Text} {width : Nat} {b : Block}
    {loc : Location} {map : RangeMap} {filter : MessageFilter} {m n : Message} {q : Nat}
    (hlength : document.length < Word.bound64)
    (hb : v.extract document .column width = .ok (some b)) (hloc : b.loc = some loc)
    (hmap : b.rangeMap = some map)
    (hstart : loc.start.column = document.columnAt loc.start.offset)
    (hq : b.commentLength ≤ q) (hcode : b.code.OnLine (q - b.commentLength))
    (hline : m.line = b.sourceText.lineAt q) (hcolumn : m.column = b.sourceText.columnAt q)
    (hn : b.documentMessage filter m = .ok (some n)) :
    b.indent = document.columnAt loc.start.offset + b.layout.fenceIndent document loc ∧
    n.column + 1 = m.column + b.indent ∧
    (n.column = document.columnAt (map.toDocument q) ↔
      document.columnAt (map.toDocument (q + 1 - m.column)) = b.indent) ∧
    (b.layout = .inline → m.line = b.commentLineCount + 1 →
      n.column = document.columnAt (map.toDocument q)) := by
  obtain ⟨above, k, hsourceLine, hsourceColumn, -, hdocument, hinline⟩ :=
    coordinates_of_onLine hlength hb hloc hmap hq hcode
  have hindent := Visit.indent_of_column hb hloc
  rw [hstart] at hindent
  have hlineStart : q + 1 - m.column = q - k := by omega
  have hshift : n.column + 1 = m.column + b.indent := by
    -- the block has a location, so the message went through relocation
    obtain ⟨-, ⟨hnone, -⟩ | ⟨offset, -, -, hrelocate⟩⟩ := documentMessage_eq_some_iff.1 hn
    · rw [lineOffset_of_loc hloc] at hnone
      cases hnone
    · rw [relocate_column hrelocate, MessageFilter.passOn_eq]
      simp only
      omega
  refine ⟨hindent, hshift, ?_, ?_⟩
  · rw [hlineStart]
    omega
  · intro hlayout hfirst
    have himage := hinline hlayout (by omega)
    rw [himage] at hdocument
    rw [hlayout] at hindent
    simp only [Layout.fenceIndent] at hindent
    omega

/-- Both lines of the quoted script start in the column that the indent names. -/
theorem documentMessage_columnAt_quoted :
    ∃ n, quotedBlock.documentMessage (.ofRules [] true) (Message.ofRule "semi" "" 4 3) =
        .ok (some n) ∧
      n.column = quotedDocument.columnAt (quotedMap.toDocument 25) ∧
      quotedDocument.columnAt (quotedMap.toDocument 25) = 5 := by
  obtain ⟨n, hn⟩ : ∃ n, quotedBlock.documentMessage (.ofRules [] true)
      (Message.ofRule "semi" "" 4 3) = .ok (some n) := ⟨_, by cbv⟩
  obtain ⟨-, -, hagrees, -⟩ := documentMessage_columnAt_iff (by decide +kernel)
    extract_quotedScript rfl rfl (by decide +kernel) (by decide +kernel) onLine_quotedBlock
    (by decide +kernel) (by decide +kernel) hn
  exact ⟨n, hn, hagrees.2 (by decide +kernel), by decide +kernel⟩

/-- The second code line has less in front of it than the fence has: a message at its start is
reported in column 4 and not in column 2, where the line starts. -/
theorem outdented_line_column :
    let document := Text.ofString "   ```js\n   a()\n b()\n   ```\n"
    let loc : Location := ⟨⟨3, 1, 4⟩, ⟨27, 4, 7⟩⟩
    let v : Visit := ⟨.block, Text.ofString "a()\nb()", some loc, 1, []⟩
    let map : RangeMap := ⟨[⟨0, 12⟩, ⟨4, 13⟩]⟩
    let b : Block := ⟨v.code, .block, some loc, 4, [], some map⟩
    let m := Message.ofRule "semi" "" 2 1
    v.extract document .column 4 = .ok (some b) ∧
      loc.start.line = document.lineAt loc.start.offset ∧
      loc.start.column = document.columnAt loc.start.offset ∧
      b.commentLength ≤ 4 ∧ b.code.OnLine (4 - b.commentLength) ∧
      m.line = b.sourceText.lineAt 4 ∧ m.column = b.sourceText.columnAt 4 ∧
      ∃ n, b.documentMessage (.ofRules [] true) m = .ok (some n) ∧
        n.column = 4 ∧ document.columnAt (map.toDocument 4) = 2 := by
  intro document loc v map b m
  have hloc : v.locIn document = b.loc := by decide +kernel
  have hmap : v.rangeMapIn document b.comments = b.rangeMap := by decide +kernel
  have hb : v.extract document .column 4 = .ok (some b) :=
    Visit.extract_eq_some_iff.2 ⟨b.comments, 4, by decide +kernel, by decide +kernel,
      by rw [hloc, hmap]⟩
  refine ⟨hb, by decide +kernel, by decide +kernel, by decide +kernel, ?_, by decide +kernel,
    by decide +kernel, _, by cbv, rfl, by decide +kernel⟩
  exact ⟨[Text.ofString "a()"], Text.ofString "b()", [], 0, by cbv, by cbv, by cbv⟩

end Block
end Inlay
