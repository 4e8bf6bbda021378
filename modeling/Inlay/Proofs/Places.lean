import Inlay.Proofs.Coordinates
import Inlay.Proofs.Rounds

/-! The places that messages point at, before and after relocation. A place behind the comments goes
down by one number of lines for the whole block, and its column moves by one number of columns,
which can stop at zero. So places keep their order and the distance of their lines. An end line in
the comments goes to the first line of the code. -/

namespace Inlay

namespace Message

inductive Side where
  | start
  | stop
deriving DecidableEq, Repr

def place? (m : Message) : Side → Option (Nat × Nat)
  | .start => some (m.line, m.column)
  | .stop => m.endLine.bind fun line => m.endColumn.map fun column => (line, column)

theorem place?_stop_eq_some_iff {m : Message} {x : Nat × Nat} :
    m.place? .stop = some x ↔ m.endLine = some x.1 ∧ m.endColumn = some x.2 := by
  obtain ⟨line, column⟩ := x
  simp [place?, Option.bind_eq_some_iff]

end Message

namespace Block

/-- A place behind the comments as a place of a document in which the code lies `offset` lines
down. -/
def shiftPlace (b : Block) (offset : Nat) (x : Nat × Nat) : Nat × Nat :=
  (x.1 - b.commentLineCount + offset, x.2 + b.indent - 1)

/-- The document line of the first line of the code: the one below the delimiter line, or the one
where the location starts. -/
def firstLine? (b : Block) : Option Nat :=
  b.loc.map fun loc =>
    match b.layout with
    | .fenced => loc.start.line + 1
    | .inline => max loc.start.line 1

variable {b : Block} {loc : Location} {filter : MessageFilter} {m n : Message} {offset : Nat}

theorem firstLine?_eq (hoffset : b.lineOffset = some offset) :
    b.firstLine? = some (offset + 1) := by
  obtain ⟨loc, hloc, rfl⟩ := Option.map_eq_some_iff.1 hoffset
  rw [firstLine?, hloc, Option.map_some]
  cases b.layout with
  | fenced => rfl
  | inline =>
    simp only [Option.some.injEq]
    omega

/-- Where the location names its line truly, that is the line on which the range map puts the start
of the code. -/
theorem firstLine?_eq_lineAt {v : Visit} {document : Text} {style : IndentStyle} {width : Nat}
    {map : RangeMap} (hlength : document.length < Word.bound64)
    (hb : v.extract document style width = .ok (some b)) (hloc : b.loc = some loc)
    (hmap : b.rangeMap = some map) (hstart : loc.start.line = document.lineAt loc.start.offset) :
    b.firstLine? = some (document.lineAt (map.toDocument b.commentLength)) := by
  obtain ⟨l, ls, hcons⟩ := Text.exists_lines_eq_cons b.code
  have hlines : b.code.lines = [] ++ l :: ls := hcons
  have honLine : b.code.OnLine (b.commentLength - b.commentLength) :=
    ⟨[], l, ls, 0, hlines, Nat.zero_le _, by rw [Nat.sub_self, Text.linesLength_nil]⟩
  obtain ⟨above, k, hsource, -, hdocument, -⟩ :=
    coordinates_of_onLine hlength hb hloc hmap le_rfl honLine
  -- no code line stands before the start of the code
  have hfirst := lineAt_sourceText hlines (Nat.zero_le _)
  rw [Text.linesLength_nil, Nat.add_zero, Nat.add_zero, List.length_nil] at hfirst
  rw [firstLine?_eq (lineOffset_of_loc hloc), hdocument, hstart]
  congr 1
  omega

theorem relocated_of_documentMessage (hoffset : b.lineOffset = some offset)
    (h : b.documentMessage filter m = .ok (some n)) :
    b.commentLineCount < m.line ∧ n.line = m.line - b.commentLineCount + offset ∧
    n.column = m.column + b.indent - 1 ∧
    (∀ line ∈ m.endLine, n.endLine = some (max (line - b.commentLineCount) 1 + offset)) ∧
    ∀ column ∈ m.endColumn, n.endColumn = some (column + b.indent - 1) := by
  obtain ⟨-, ⟨hnone, -⟩ | ⟨o, ho, hline, hrelocate⟩⟩ := documentMessage_eq_some_iff.1 h
  · rw [hoffset] at hnone
    cases hnone
  · obtain rfl : o = offset := Option.some.inj (ho.symm.trans hoffset)
    have hn := relocate_line hrelocate
    have hcolumn := relocate_column hrelocate
    obtain ⟨_, _, _, _, -, hendLine, -, hendColumn, rfl⟩ := relocate_eq_ok_iff.1 hrelocate
    rw [MessageFilter.passOn_eq] at hn hcolumn hendLine hendColumn
    refine ⟨hline, hn, hcolumn, fun line hl => ?_, fun column hc => ?_⟩
    · rw [hl] at hendLine
      rcases option_mapM_eq_ok_iff.1 hendLine with ⟨hl'⟩ | _
      exact congrArg some (Word.add32_eq_ok.1 hl').2
    · rw [hc] at hendColumn
      rcases option_mapM_eq_ok_iff.1 hendColumn with ⟨hc'⟩ | _
      exact congrArg some (shiftColumn_eq_ok_iff.1 hc').2

theorem place?_of_documentMessage (hoffset : b.lineOffset = some offset)
    (h : b.documentMessage filter m = .ok (some n)) {side : Message.Side} {x : Nat × Nat}
    (hx : m.place? side = some x) (hbehind : side = .stop → b.commentLineCount < x.1) :
    b.commentLineCount < x.1 ∧ n.place? side = some (b.shiftPlace offset x) := by
  obtain ⟨hline, hn, hcolumn, hendLine, hendColumn⟩ := relocated_of_documentMessage hoffset h
  cases side with
  | start =>
    obtain rfl := Option.some.inj hx
    refine ⟨hline, ?_⟩
    rw [Message.place?, hn, hcolumn, shiftPlace]
  | stop =>
    obtain ⟨hl, hc⟩ := Message.place?_stop_eq_some_iff.1 hx
    have hlt := hbehind rfl
    refine ⟨hlt, Message.place?_stop_eq_some_iff.2 ⟨?_, hendColumn _ hc⟩⟩
    rw [hendLine _ hl, max_eq_left (by omega)]
    rfl

/-- Shifting keeps the distance of lines, and with it the order of places. -/
theorem shiftPlace_ordered {x y : Nat × Nat} (hx : b.commentLineCount < x.1)
    (hy : b.commentLineCount < y.1) :
    ((b.shiftPlace offset y).1 : Int) - (b.shiftPlace offset x).1 = y.1 - x.1 ∧
      (toLex x ≤ toLex y → toLex (b.shiftPlace offset x) ≤ toLex (b.shiftPlace offset y)) := by
  unfold shiftPlace
  refine ⟨by omega, fun hle => ?_⟩
  rw [Prod.Lex.toLex_le_toLex] at hle ⊢
  rcases hle with hlt | ⟨heq, hle⟩
  · exact Or.inl (by omega)
  · refine Or.inr ⟨by omega, ?_⟩
    simp only
    omega

/-- Places of messages about one block keep their order and the distance of their lines when the
messages are relocated, a place being where a message starts, or where it stops if that is behind
the comments. An end line in the comments goes to the document line of the first line of the code,
where messages about that line go too; where the location names its line truly, the range map puts
the start of the code there. -/
theorem documentMessage_places_ordered {m₁ m₂ n₁ n₂ : Message} (hloc : b.loc = some loc)
    (h₁ : b.documentMessage filter m₁ = .ok (some n₁))
    (h₂ : b.documentMessage filter m₂ = .ok (some n₂)) :
    (∀ side₁ side₂ x₁ x₂, m₁.place? side₁ = some x₁ → m₂.place? side₂ = some x₂ →
      (side₁ = .stop → b.commentLineCount < x₁.1) → (side₂ = .stop → b.commentLineCount < x₂.1) →
      ∃ y₁ y₂, n₁.place? side₁ = some y₁ ∧ n₂.place? side₂ = some y₂ ∧
        (y₂.1 : Int) - y₁.1 = x₂.1 - x₁.1 ∧ (toLex x₁ ≤ toLex x₂ → toLex y₁ ≤ toLex y₂)) ∧
    (∀ line ∈ m₁.endLine, line ≤ b.commentLineCount → n₁.endLine = b.firstLine?) ∧
    (m₂.line = b.commentLineCount + 1 → some n₂.line = b.firstLine?) ∧
    ∀ (v : Visit) (document : Text) (style : IndentStyle) (width : Nat) (map : RangeMap),
      v.extract document style width = .ok (some b) → b.rangeMap = some map →
      document.length < Word.bound64 → loc.start.line = document.lineAt loc.start.offset →
      b.firstLine? = some (document.lineAt (map.toDocument b.commentLength)) := by
  have hoffset := lineOffset_of_loc hloc
  have hfirst := firstLine?_eq hoffset
  refine ⟨fun side₁ side₂ x₁ x₂ hx₁ hx₂ hbehind₁ hbehind₂ => ?_, fun line hl hle => ?_,
    fun hline => ?_, fun v document style width map hb hmap hlength hstart => ?_⟩
  · obtain ⟨hlt₁, hy₁⟩ := place?_of_documentMessage hoffset h₁ hx₁ hbehind₁
    obtain ⟨hlt₂, hy₂⟩ := place?_of_documentMessage hoffset h₂ hx₂ hbehind₂
    exact ⟨_, _, hy₁, hy₂, shiftPlace_ordered hlt₁ hlt₂⟩
  · obtain ⟨-, -, -, hendLine, -⟩ := relocated_of_documentMessage hoffset h₁
    rw [hendLine line hl, hfirst]
    congr 1
    omega
  · obtain ⟨-, hn, -⟩ := relocated_of_documentMessage hoffset h₂
    rw [hn, hfirst]
    congr 1
    omega
  · exact firstLine?_eq_lineAt hlength hb hloc hmap hstart

/-- A message on the first code line that stops in the comment, and one that reaches from the second
code line to its end. -/
theorem documentMessage_places_quoted :
    let first := (Message.ofRule "semi" "" 3 3).withEnd 1 0
    let second := (Message.ofRule "semi" "" 4 0).withEnd 4 3
    ∃ n₁ n₂, quotedBlock.documentMessage (.ofRules [] true) first = .ok (some n₁) ∧
      quotedBlock.documentMessage (.ofRules [] true) second = .ok (some n₂) ∧
      n₁.endLine = some 2 ∧ quotedBlock.firstLine? = some 2 ∧
      quotedDocument.lineAt (quotedMap.toDocument quotedBlock.commentLength) = 2 ∧
      ∃ y₁ y₂, n₁.place? .start = some y₁ ∧ n₂.place? .stop = some y₂ ∧
        (y₂.1 : Int) - y₁.1 = 1 ∧ toLex y₁ ≤ toLex y₂ := by
  intro first second
  obtain ⟨n₁, h₁⟩ : ∃ n, quotedBlock.documentMessage (.ofRules [] true) first = .ok (some n) :=
    ⟨_, by cbv⟩
  obtain ⟨n₂, h₂⟩ : ∃ n, quotedBlock.documentMessage (.ofRules [] true) second = .ok (some n) :=
    ⟨_, by cbv⟩
  obtain ⟨hplaces, hendLine, -, htrue⟩ := documentMessage_places_ordered rfl h₁ h₂
  have hline := htrue quotedScript quotedDocument .column 4 quotedMap extract_quotedScript rfl
    (by decide +kernel) (by decide +kernel)
  have hfirst : quotedBlock.firstLine? = some 2 := by cbv
  obtain ⟨y₁, y₂, hy₁, hy₂, hdistance, horder⟩ :=
    hplaces .start .stop (3, 3) (4, 3) rfl rfl (by simp) fun _ => by decide +kernel
  refine ⟨n₁, n₂, h₁, h₂, (hendLine 1 rfl (by decide +kernel)).trans hfirst, hfirst, ?_, y₁, y₂, hy₁,
    hy₂, by simpa using hdistance, horder (by decide)⟩
  exact (Option.some.inj (hfirst.symm.trans hline)).symm

end Block
end Inlay
