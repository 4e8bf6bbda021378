import Inlay.Lint.Processor
import Inlay.Proofs.Outcomes

/-! What each stage of a round does when it succeeds: extraction of a block, the relocation of one
message, and the messages of a whole round. Later proofs use these statements and do not open the
stages again. -/

namespace Inlay

theorem Failure.lift_eq_ok_iff {ε α : Type} {name : ε → Failure} {x : Except ε α} {a : α} :
    Failure.lift name x = .ok a ↔ x = .ok a := by
  cases x <;> simp [Failure.lift]

theorem Failure.lift_eq_error_iff {ε α : Type} {name : ε → Failure} {x : Except ε α}
    {failure : Failure} :
    Failure.lift name x = .error failure ↔ ∃ e, x = .error e ∧ name e = failure := by
  cases x <;> simp [Failure.lift]

/-! ## Extraction -/

/-- The map of a block of the layout, whose code is said to come from the location. -/
def Layout.rangeMap? (layout : Layout) (document : Text) (loc : Location) (code : Text)
    (comments : List Text) : Option RangeMap :=
  match layout with
  | .fenced => RangeMap.fenced? document loc code comments
  | .inline => RangeMap.inline? document loc code comments

namespace Visit

theorem extract_eq_some_iff {v : Visit} {document : Text} {style : IndentStyle} {width : Nat}
    {b : Block} :
    v.extract document style width = .ok (some b) ↔
      ∃ comments indent, v.comments? = some comments ∧
        v.indent document style width = .ok indent ∧
        b = ⟨v.code, v.kind, v.locIn document, indent, comments,
          v.rangeMapIn document comments⟩ := by
  unfold extract
  cases v.comments? with
  | none => simp
  | some comments => simp [map_eq_ok_iff, @eq_comm _ b]

theorem rangeMap_of_loc_eq_none {v : Visit} {document : Text} {style : IndentStyle} {width : Nat}
    {b : Block} (h : v.extract document style width = .ok (some b)) (hloc : b.loc = none) :
    b.rangeMap = none := by
  obtain ⟨comments, indent, -, -, rfl⟩ := extract_eq_some_iff.1 h
  simp only at hloc
  simp [rangeMapIn, hloc]

theorem rangeMap_of_loc_eq_some {v : Visit} {document : Text} {style : IndentStyle} {width : Nat}
    {b : Block} (h : v.extract document style width = .ok (some b)) {loc : Location}
    (hloc : b.loc = some loc) :
    b.rangeMap = b.layout.rangeMap? document loc b.code b.comments := by
  obtain ⟨comments, indent, -, -, rfl⟩ := extract_eq_some_iff.1 h
  simp only at hloc
  simp only [rangeMapIn, hloc]
  rfl

end Visit

theorem Cycle.mem_extract {document : Text} {style : IndentStyle} {width : Nat}
    {tree : Option Node} {blocks : List Block}
    (h : Cycle.extract document style width tree = .ok blocks) {b : Block} :
    b ∈ blocks ↔ ∃ v ∈ (tree.map Node.walk).getD [],
      v.extract document style width = .ok (some b) := by
  obtain ⟨results, hresults, rfl⟩ := map_eq_ok_iff.1 h
  simp [List.mem_filterMap, mem_mapM hresults]

theorem Processor.preprocess_eq_ok_iff {p : Processor} {document : Text} {c : Cycle} :
    p.preprocess document = .ok c ↔
      ∃ tree, p.parser.parse document = .ok tree ∧
        Cycle.extract document p.parser.indentStyle p.indentWidth tree = .ok c.blocks ∧
        c.filter = p.filter := by
  simp only [Processor.preprocess, bind_eq_ok_iff, Failure.lift_eq_ok_iff, pure, Except.pure,
    Except.ok.injEq]
  constructor
  · rintro ⟨tree, htree, blocks, hblocks, rfl⟩
    exact ⟨tree, htree, hblocks, rfl⟩
  · rintro ⟨tree, htree, hblocks, hfilter⟩
    exact ⟨tree, htree, c.blocks, hblocks, by rw [← hfilter]⟩

/-! ## Relocation -/

/-- A message as the filter passes it on, without its fix where fixes are not kept. -/
def MessageFilter.passOn (filter : MessageFilter) (m : Message) : Message :=
  if filter.keepsFixes then m else { m with fix := none }

theorem MessageFilter.passOn_eq (filter : MessageFilter) (m : Message) :
    filter.passOn m = { m with fix := if filter.keepsFixes then m.fix else none } := by
  unfold passOn
  split <;> rfl

theorem MessageFilter.passOn_line (filter : MessageFilter) (m : Message) :
    (filter.passOn m).line = m.line := by
  rw [passOn_eq]

theorem MessageFilter.passOn_fix_eq_some_iff {filter : MessageFilter} {m : Message} {f : Fix} :
    (filter.passOn m).fix = some f ↔ filter.keepsFixes = true ∧ m.fix = some f := by
  unfold passOn
  split <;> simp_all

namespace Block

theorem relocateFix_eq_some_iff {b : Block} {f g : Fix} :
    b.relocateFix f = some g ↔
      ∃ map, b.rangeMap = some map ∧ b.commentLength ≤ f.start ∧
        g = ⟨map.toDocument f.start, map.toDocument f.stop, f.text⟩ := by
  unfold relocateFix
  cases b.rangeMap with
  | none => simp
  | some map =>
    by_cases h : f.start < b.commentLength
    · simp [h, Nat.not_le_of_lt h]
    · simp [h, eq_comm, Nat.le_of_not_lt h]

theorem shiftColumn_eq_ok_iff {b : Block} {column column' : Nat} :
    b.shiftColumn column = .ok column' ↔
      column + b.indent < Word.bound32 ∧ column' = column + b.indent - 1 := by
  unfold shiftColumn
  rw [map_eq_ok_iff]
  constructor
  · rintro ⟨n, hn, rfl⟩
    obtain ⟨hlt, rfl⟩ := Word.add32_eq_ok.1 hn
    exact ⟨hlt, rfl⟩
  · rintro ⟨hlt, rfl⟩
    exact ⟨_, Word.add32_eq_ok.2 ⟨hlt, rfl⟩, rfl⟩

/-- What relocation gives: the shifted lines and columns and the mapped fix, all else as it was. -/
theorem relocate_eq_ok_iff {b : Block} {offset : Nat} {m n : Message} :
    b.relocate offset m = .ok n ↔
      ∃ line endLine column endColumn,
        Word.add32 (m.line - b.commentLineCount) offset = .ok line ∧
        m.endLine.mapM (b.shiftEndLine offset) = .ok endLine ∧
        b.shiftColumn m.column = .ok column ∧
        m.endColumn.mapM b.shiftColumn = .ok endColumn ∧
        n = { m with line, endLine, column, endColumn, fix := m.fix.bind b.relocateFix } := by
  simp only [relocate, bind_eq_ok_iff, pure, Except.pure, Except.ok.injEq]
  constructor
  · rintro ⟨line, hline, endLine, hendLine, column, hcolumn, endColumn, hendColumn, rfl⟩
    exact ⟨line, endLine, column, endColumn, hline, hendLine, hcolumn, hendColumn, rfl⟩
  · rintro ⟨line, endLine, column, endColumn, hline, hendLine, hcolumn, hendColumn, rfl⟩
    exact ⟨line, hline, endLine, hendLine, column, hcolumn, endColumn, hendColumn, rfl⟩

theorem relocate_fix {b : Block} {offset : Nat} {m n : Message}
    (h : b.relocate offset m = .ok n) : n.fix = m.fix.bind b.relocateFix := by
  obtain ⟨line, endLine, column, endColumn, -, -, -, -, rfl⟩ := relocate_eq_ok_iff.1 h
  rfl

theorem relocate_line {b : Block} {offset : Nat} {m n : Message}
    (h : b.relocate offset m = .ok n) : n.line = m.line - b.commentLineCount + offset := by
  obtain ⟨line, endLine, column, endColumn, hline, -, -, -, rfl⟩ := relocate_eq_ok_iff.1 h
  exact (Word.add32_eq_ok.1 hline).2

theorem relocate_column {b : Block} {offset : Nat} {m n : Message}
    (h : b.relocate offset m = .ok n) : n.column = m.column + b.indent - 1 := by
  obtain ⟨line, endLine, column, endColumn, -, -, hcolumn, -, rfl⟩ := relocate_eq_ok_iff.1 h
  exact (shiftColumn_eq_ok_iff.1 hcolumn).2

theorem lineOffset_eq_none_iff {b : Block} : b.lineOffset = none ↔ b.loc = none := by
  simp [lineOffset]

theorem documentMessage_eq (b : Block) (filter : MessageFilter) (m : Message) :
    b.documentMessage filter m =
      if filter.drops m then .ok none
      else match b.lineOffset with
        | none => .ok (some (filter.passOn m))
        | some offset =>
          if m.line ≤ b.commentLineCount then .ok none
          else (b.relocate offset (filter.passOn m)).map some := by
  rw [← MessageFilter.passOn_line filter m]
  rfl

/-- What becomes of a message that is not dropped. -/
theorem documentMessage_eq_some_iff {b : Block} {filter : MessageFilter} {m n : Message} :
    b.documentMessage filter m = .ok (some n) ↔
      filter.drops m = false ∧
        ((b.lineOffset = none ∧ n = filter.passOn m) ∨
          ∃ offset, b.lineOffset = some offset ∧ b.commentLineCount < m.line ∧
            b.relocate offset (filter.passOn m) = .ok n) := by
  rw [documentMessage_eq]
  cases filter.drops m with
  | true => simp
  | false =>
    simp only [Bool.false_eq_true, if_false, true_and]
    cases b.lineOffset with
    | none => simp [eq_comm]
    | some offset =>
      by_cases hline : m.line ≤ b.commentLineCount
      · simp [hline, Nat.not_lt_of_le hline]
      · simp [hline, map_eq_ok_iff, Nat.lt_of_not_le hline]

theorem documentMessage_of_lt {b : Block} {filter : MessageFilter} {m : Message} {offset : Nat}
    (hdrops : filter.drops m = false) (hoffset : b.lineOffset = some offset)
    (hline : b.commentLineCount < m.line) :
    b.documentMessage filter m = (b.relocate offset (filter.passOn m)).map some := by
  simp [documentMessage_eq, hdrops, hoffset, Nat.not_le_of_lt hline]

/-- The fix that a message keeps: relocated where the block has a location, else as it was. -/
theorem documentMessage_fix {b : Block} {filter : MessageFilter} {m n : Message}
    (h : b.documentMessage filter m = .ok (some n)) :
    n.fix = (filter.passOn m).fix.bind fun f =>
      if b.loc = none then some f else b.relocateFix f := by
  obtain ⟨-, ⟨hoff, rfl⟩ | ⟨offset, hoff, -, hn⟩⟩ := documentMessage_eq_some_iff.1 h
  · simp [lineOffset_eq_none_iff.1 hoff]
  · have hloc : b.loc ≠ none := by
      rw [ne_eq, ← lineOffset_eq_none_iff, hoff]
      simp
    rw [relocate_fix hn]
    simp [hloc]

/-- A fix that is kept by a message about a block with a location went through the range map. -/
theorem relocateFix_of_documentMessage {b : Block} {filter : MessageFilter} {m n : Message}
    (h : b.documentMessage filter m = .ok (some n)) {loc : Location} (hloc : b.loc = some loc)
    {g : Fix} (hg : n.fix = some g) : ∃ f, m.fix = some f ∧ b.relocateFix f = some g := by
  rw [documentMessage_fix h] at hg
  obtain ⟨f, hf, hfg⟩ := Option.bind_eq_some_iff.1 hg
  refine ⟨f, (MessageFilter.passOn_fix_eq_some_iff.1 hf).2, ?_⟩
  simpa [hloc] using hfg

end Block

/-! ## Whole rounds -/

namespace Cycle

/-- In a round `n` is what becomes of the message `m` about block `b`. -/
def Reports (c : Cycle) (groups : List (List Message)) (b : Block) (m n : Message) : Prop :=
  ∃ g, (b, g) ∈ c.blocks.zip groups ∧ m ∈ g ∧ b.documentMessage c.filter m = .ok (some n)

theorem mem_documentMessages {filter : MessageFilter} {b : Block} {group out : List Message}
    (h : documentMessages filter b group = .ok out) {n : Message} :
    n ∈ out ↔ ∃ m ∈ group, b.documentMessage filter m = .ok (some n) := by
  obtain ⟨results, hresults, rfl⟩ := map_eq_ok_iff.1 h
  simp [List.mem_filterMap, mem_mapM hresults]

/-- The messages of a round are those that become of the messages about its blocks. -/
theorem mem_postprocess {c : Cycle} {groups : List (List Message)} {out : List Message}
    (h : c.postprocess groups = .ok out) {n : Message} :
    n ∈ out ↔ ∃ b m, c.Reports groups b m n := by
  unfold postprocess at h
  split at h
  · cases h
  · obtain ⟨parts, hparts, rfl⟩ := map_eq_ok_iff.1 (Failure.lift_eq_ok_iff.1 h)
    simp only [List.mem_flatten, mem_mapM hparts]
    constructor
    · rintro ⟨part, ⟨⟨b, g⟩, hbg, hpart⟩, hn⟩
      obtain ⟨m, hm, hmn⟩ := (mem_documentMessages hpart).1 hn
      exact ⟨b, m, g, hbg, hm, hmn⟩
    · rintro ⟨b, m, g, hbg, hm, hmn⟩
      obtain ⟨part, -, hpart⟩ := exists_of_mapM hparts hbg
      exact ⟨part, ⟨(b, g), hbg, hpart⟩, (mem_documentMessages hpart).2 ⟨m, hm, hmn⟩⟩

end Cycle
end Inlay
