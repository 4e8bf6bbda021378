import Inlay.Proofs.Monotonicity
import Inlay.Proofs.Rounds

/-! When a round overflows. A message about the code of a block with a location goes through four
sums: its line and its end line, its column and its end column. A round fails in its arithmetic
exactly when one of these sums leaves its word, for one message that is not dropped before. A fix
has no part in this: its ends are looked up in a table that always has an entry for them. -/

namespace Inlay

namespace Block

/-- One of the sums that take a message `offset` lines down in the document leaves its word. An end
line in the comments counts as the first line of the code. -/
def SumOverflows (b : Block) (offset : Nat) (m : Message) : Prop :=
  Word.bound32 ≤ m.line - b.commentLineCount + offset ∨
  (∃ line ∈ m.endLine, Word.bound32 ≤ max 1 (line - b.commentLineCount) + offset) ∨
  Word.bound32 ≤ m.column + b.indent ∨
  ∃ column ∈ m.endColumn, Word.bound32 ≤ column + b.indent

/-- The block has a location, the message is about its code and is not dropped for its rule, and
taking it to the document overflows. -/
def Overflows (b : Block) (filter : MessageFilter) (m : Message) : Prop :=
  ∃ offset ∈ b.lineOffset, (∀ rule ∈ m.ruleId, rule ∉ filter.unsatisfiable) ∧
    b.commentLineCount < m.line ∧ b.SumOverflows offset m

variable {b : Block} {filter : MessageFilter} {m n : Message} {offset : Nat} {o : Overflow}

/-! ## One message -/

theorem sumsFit_of_not_sumOverflows (h : ¬ b.SumOverflows offset m) : b.SumsFit offset m := by
  unfold SumOverflows at h
  push Not at h
  obtain ⟨hline, hendLine, hcolumn, hendColumn⟩ := h
  refine ⟨hline, fun line hl => ?_, hcolumn, hendColumn⟩
  rw [max_comm]
  exact hendLine line hl

theorem SumsFit.not_sumOverflows (h : b.SumsFit offset m) : ¬ b.SumOverflows offset m := by
  rintro (hle | ⟨line, hline, hle⟩ | hle | ⟨column, hcolumn, hle⟩)
  · exact Nat.not_le_of_lt h.line hle
  · rw [max_comm] at hle
    exact Nat.not_le_of_lt (h.endLine line hline) hle
  · exact Nat.not_le_of_lt h.column hle
  · exact Nat.not_le_of_lt (h.endColumn column hcolumn) hle

theorem shiftColumn_eq_error {column : Nat} (h : b.shiftColumn column = .error o) : o = .add :=
  (Word.add32_eq_error.1 (map_eq_error_iff.1 h)).2

theorem sumsFit_of_relocate (h : b.relocate offset m = .ok n) : b.SumsFit offset m := by
  obtain ⟨line, endLine, column, endColumn, hline, hendLine, hcolumn, hendColumn, -⟩ :=
    relocate_eq_ok_iff.1 h
  refine ⟨(Word.add32_eq_ok.1 hline).1, fun l hl => ?_, (shiftColumn_eq_ok_iff.1 hcolumn).1,
    fun c hc => ?_⟩
  · rw [hl] at hendLine
    rcases option_mapM_eq_ok_iff.1 hendLine with ⟨hl'⟩ | _
    exact (Word.add32_eq_ok.1 hl').1
  · rw [hc] at hendColumn
    rcases option_mapM_eq_ok_iff.1 hendColumn with ⟨hc'⟩ | _
    exact (shiftColumn_eq_ok_iff.1 hc').1

theorem relocate_eq_error (h : b.relocate offset m = .error o) : o = .add := by
  simp only [relocate, bind_eq_error_iff] at h
  rcases h with hline | ⟨_, -, hendLine | ⟨_, -, hcolumn | ⟨_, -, hendColumn | ⟨_, -, h⟩⟩⟩⟩
  · exact (Word.add32_eq_error.1 hline).2
  · obtain ⟨line, -, hline⟩ := exists_error_of_option_mapM hendLine
    exact (Word.add32_eq_error.1 hline).2
  · exact shiftColumn_eq_error hcolumn
  · obtain ⟨column, -, hcolumn⟩ := exists_error_of_option_mapM hendColumn
    exact shiftColumn_eq_error hcolumn
  · cases h

theorem relocate_eq_error_iff :
    b.relocate offset m = .error o ↔ o = .add ∧ b.SumOverflows offset m := by
  constructor
  · intro h
    refine ⟨relocate_eq_error h, ?_⟩
    by_contra hno
    obtain ⟨n, hn⟩ := exists_relocate (sumsFit_of_not_sumOverflows hno)
    rw [h] at hn
    cases hn
  · rintro ⟨rfl, hover⟩
    cases hr : b.relocate offset m with
    | ok n => exact absurd hover (sumsFit_of_relocate hr).not_sumOverflows
    | error o => rw [relocate_eq_error hr]

/-- Whether a message overflows does not depend on its fix. -/
theorem sumOverflows_passOn :
    b.SumOverflows offset (filter.passOn m) ↔ b.SumOverflows offset m := by
  rw [MessageFilter.passOn_eq]
  exact Iff.rfl

theorem documentMessage_eq_error_iff (m : Message) (o : Overflow) :
    b.documentMessage filter m = .error o ↔ o = .add ∧ b.Overflows filter m := by
  unfold Overflows
  rw [documentMessage_eq, ← MessageFilter.drops_eq_false_iff]
  cases filter.drops m with
  | true => simp
  | false =>
    cases b.lineOffset with
    | none => simp
    | some offset =>
      by_cases hline : m.line ≤ b.commentLineCount
      · simp [hline, Nat.not_lt_of_le hline]
      · simp [hline, Nat.lt_of_not_le hline, map_eq_error_iff, relocate_eq_error_iff,
          sumOverflows_passOn]

end Block

/-! ## Tables -/

namespace RangeMap

def indexFor (m : RangeMap) (q : Nat) : Nat :=
  partitionPoint (fun e : RangeEntry => decide (e.extracted ≤ q)) m.entries - 1

theorem WellFormed.getElem?_indexFor {m : RangeMap} (h : m.WellFormed) (q : Nat) :
    m.entries[m.indexFor q]? = some (m.entryFor q) := by
  obtain ⟨before, e, after, hm, hbefore, he, hafter⟩ := h.exists_last_up_to q
  rw [indexFor, partitionPoint_entries hm hbefore he hafter, entryFor_eq hm hbefore he hafter, hm]
  simp

end RangeMap

theorem Visit.rangeMap_wellFormed {v : Visit} {document : Text} {style : IndentStyle} {width : Nat}
    {b : Block} (h : v.extract document style width = .ok (some b)) {map : RangeMap}
    (hmap : b.rangeMap = some map) : map.WellFormed := by
  cases hloc : b.loc with
  | none =>
    rw [rangeMap_of_loc_eq_none h hloc] at hmap
    cases hmap
  | some loc =>
    rw [rangeMap_of_loc_eq_some h hloc] at hmap
    exact Layout.rangeMap?_wellFormed hmap

/-! ## Whole rounds -/

namespace Cycle

variable {c : Cycle} {filter : MessageFilter} {groups : List (List Message)}

theorem documentMessages_eq_error_iff (p : Block × List Message) (o : Overflow) :
    documentMessages filter p.1 p.2 = .error o ↔ o = .add ∧ ∃ m ∈ p.2, p.1.Overflows filter m := by
  unfold documentMessages
  rw [map_eq_error_iff, mapM_eq_error_iff Block.documentMessage_eq_error_iff]

theorem postprocess_eq_error_iff (hlength : groups.length = c.blocks.length) {failure : Failure} :
    c.postprocess groups = .error failure ↔ failure = .overflow .add ∧
      ∃ p ∈ c.blocks.zip groups, ∃ m ∈ p.2, p.1.Overflows c.filter m := by
  unfold postprocess
  rw [if_neg (not_not_intro hlength), Failure.lift_eq_error_iff]
  simp only [map_eq_error_iff, mapM_eq_error_iff documentMessages_eq_error_iff]
  constructor
  · rintro ⟨o, ⟨rfl, hover⟩, rfl⟩
    exact ⟨rfl, hover⟩
  · rintro ⟨rfl, hover⟩
    exact ⟨.add, ⟨rfl, hover⟩, rfl⟩

/-- A round with a group for each block overflows exactly when one of its messages does: a message
of a rule that is not dropped, about the code of a block with a location, whose line, end line,
column or end column leaves its word in the document. In every other case the round has a result,
whatever the fixes are, for the tables of extracted blocks have an entry for every offset. -/
theorem postprocess_overflows_iff (c : Cycle) (groups : List (List Message))
    (hlength : groups.length = c.blocks.length) :
    (c.postprocess groups = .error (.overflow .add) ↔
      ∃ p ∈ c.blocks.zip groups, ∃ m ∈ p.2, p.1.Overflows c.filter m) ∧
    ((∃ out, c.postprocess groups = .ok out) ↔
      ∀ p ∈ c.blocks.zip groups, ∀ m ∈ p.2, ¬ p.1.Overflows c.filter m) ∧
    ∀ b ∈ c.blocks, (∃ v document style width, Visit.extract v document style width = .ok (some b)) →
      ∀ map ∈ b.rangeMap, ∀ q, map.entries[map.indexFor q]? = some (map.entryFor q) := by
  have herror := @postprocess_eq_error_iff c groups hlength
  refine ⟨by simp [herror], ?_, ?_⟩
  · cases hround : c.postprocess groups with
    | ok out =>
      have hno : ¬ ∃ p ∈ c.blocks.zip groups, ∃ m ∈ p.2, p.1.Overflows c.filter m := by
        intro hover
        rw [herror.2 ⟨rfl, hover⟩] at hround
        cases hround
      push Not at hno
      exact ⟨fun _ => hno, fun _ => ⟨out, rfl⟩⟩
    | error failure =>
      obtain ⟨-, p, hp, m, hm, hover⟩ := herror.1 hround
      constructor
      · rintro ⟨out, hout⟩
        cases hout
      · intro hno
        exact absurd hover (hno p hp m hm)
  · rintro b - ⟨v, document, style, width, hv⟩ map hmap q
    exact (Visit.rangeMap_wellFormed hv hmap).getElem?_indexFor q

/-- A fenced block on the last line that there is a number for, behind one comment. A message about
its code overflows through its end line, which lies in the comment, whatever the fix. One of a
dropped rule, one about the comment and one about a block without a location do not. -/
theorem postprocess_overflows_lastLine :
    let fenced : Block := ⟨Text.ofString "ab", .block, some ⟨⟨0, 4294967295, 1⟩, ⟨10, 3, 4⟩⟩, 1,
      [Text.ofString "/*eslint*/"], none⟩
    let function : Block := ⟨Text.ofString "return 1", .function, none, 0, [], none⟩
    let huge := (Message.ofRule "semi" "" 4294967295 4294967295).withFix ⟨5, 3, ";"⟩
    let c : Cycle := ⟨[fenced, function], .ofRules [] true⟩
    let harmless := [Message.ofRule "eol-last" "" 4294967295 1, Message.ofRule "semi" "" 1 4294967295]
    (∃ out, c.postprocess [harmless, [huge]] = .ok out) ∧
    c.postprocess [harmless ++ [(Message.ofRule "semi" "" 2 1).withEnd 0 1], [huge]] =
      .error (.overflow .add) := by
  intro fenced function huge c harmless
  constructor
  · refine (postprocess_overflows_iff c [harmless, [huge]] rfl).2.1.2 fun p hp m hm => ?_
    rintro ⟨offset, hoffset, hrule, hline, -⟩
    rcases List.mem_cons.1 hp with rfl | hp
    · rcases List.mem_cons.1 hm with rfl | hm
      · exact hrule "eol-last" rfl (by decide)
      · rw [List.mem_singleton.1 hm] at hline
        revert hline
        decide
    · rw [List.mem_singleton.1 hp] at hoffset
      cases hoffset
  · refine (postprocess_overflows_iff c _ rfl).1.2 ⟨_, List.mem_cons_self, _, List.mem_append_right _
      List.mem_cons_self, 4294967295, rfl, ?_, by decide, Or.inr (Or.inl ⟨0, rfl, by decide⟩)⟩
    rintro rule ⟨⟩
    decide

end Cycle
end Inlay
