import Mathlib
import Inlay.Proofs.Pipeline

/-! A round loses, doubles and reorders nothing that it should keep. Whether a message is kept is
decided by the message and its block; a group becomes its kept messages, in their order; and a whole
round is the rounds of its blocks one after the other. -/

namespace Inlay

/-! ## One message -/

/-- What a message about the document has of the message that it comes from. -/
structure Message.Inherits (n m : Message) : Prop where
  ruleId : n.ruleId = m.ruleId
  severity : n.severity = m.severity
  text : n.text = m.text
  extra : n.extra = m.extra
  endLine : n.endLine.isSome = m.endLine.isSome
  endColumn : n.endColumn.isSome = m.endColumn.isSome
  fix : ∀ g ∈ n.fix, ∃ f ∈ m.fix, g.text = f.text

theorem Message.Inherits.trans {n m l : Message} (h : n.Inherits m) (h' : m.Inherits l) :
    n.Inherits l where
  ruleId := h.ruleId.trans h'.ruleId
  severity := h.severity.trans h'.severity
  text := h.text.trans h'.text
  extra := h.extra.trans h'.extra
  endLine := h.endLine.trans h'.endLine
  endColumn := h.endColumn.trans h'.endColumn
  fix g hg := by
    obtain ⟨f, hf, hgf⟩ := h.fix g hg
    obtain ⟨e, he, hfe⟩ := h'.fix f hf
    exact ⟨e, he, hgf.trans hfe⟩

namespace MessageFilter

theorem drops_eq_false_iff {filter : MessageFilter} {m : Message} :
    filter.drops m = false ↔ ∀ rule ∈ m.ruleId, rule ∉ filter.unsatisfiable := by
  unfold drops
  cases m.ruleId with
  | none => simp
  | some rule => simp [dropsRule]

theorem passOn_inherits (filter : MessageFilter) (m : Message) : (filter.passOn m).Inherits m := by
  rw [passOn_eq]
  refine ⟨rfl, rfl, rfl, rfl, rfl, rfl, ?_⟩
  intro g hg
  rw [← passOn_eq filter m] at hg
  exact ⟨g, (passOn_fix_eq_some_iff.1 hg).2, rfl⟩

end MessageFilter

namespace Block

/-- The message is to be reported: its rule is not one of those dropped, and it is not about the
comments before the code. -/
def Keeps (b : Block) (filter : MessageFilter) (m : Message) : Prop :=
  (∀ rule ∈ m.ruleId, rule ∉ filter.unsatisfiable) ∧ (b.loc = none ∨ b.commentLineCount < m.line)

instance (b : Block) (filter : MessageFilter) (m : Message) : Decidable (b.Keeps filter m) :=
  inferInstanceAs (Decidable (_ ∧ _))

/-- The sums that take a message `offset` lines down in the document stay in their words. -/
structure SumsFit (b : Block) (offset : Nat) (m : Message) : Prop where
  line : m.line - b.commentLineCount + offset < Word.bound32
  endLine : ∀ line ∈ m.endLine, max (line - b.commentLineCount) 1 + offset < Word.bound32
  column : m.column + b.indent < Word.bound32
  endColumn : ∀ column ∈ m.endColumn, column + b.indent < Word.bound32

variable {b : Block} {filter : MessageFilter} {m n : Message} {offset : Nat}

theorem exists_relocate (h : b.SumsFit offset m) : ∃ n, b.relocate offset m = .ok n := by
  obtain ⟨endLine, hendLine⟩ : ∃ r, m.endLine.mapM (b.shiftEndLine offset) = .ok r :=
    exists_option_mapM fun line hline => ⟨_, Word.add32_eq_ok.2 ⟨h.endLine line hline, rfl⟩⟩
  obtain ⟨endColumn, hendColumn⟩ : ∃ r, m.endColumn.mapM b.shiftColumn = .ok r :=
    exists_option_mapM fun column hcolumn =>
      ⟨_, shiftColumn_eq_ok_iff.2 ⟨h.endColumn column hcolumn, rfl⟩⟩
  exact ⟨_, relocate_eq_ok_iff.2 ⟨_, endLine, _, endColumn, Word.add32_eq_ok.2 ⟨h.line, rfl⟩,
    hendLine, shiftColumn_eq_ok_iff.2 ⟨h.column, rfl⟩, hendColumn, rfl⟩⟩

theorem relocate_inherits (h : b.relocate offset m = .ok n) : n.Inherits m := by
  obtain ⟨line, endLine, column, endColumn, -, hendLine, -, hendColumn, rfl⟩ :=
    relocate_eq_ok_iff.1 h
  refine ⟨rfl, rfl, rfl, rfl, ?_, ?_, ?_⟩
  · exact isSome_of_option_mapM hendLine
  · exact isSome_of_option_mapM hendColumn
  · intro g hg
    obtain ⟨f, hf, hfg⟩ := Option.bind_eq_some_iff.1 hg
    obtain ⟨map, -, -, rfl⟩ := relocateFix_eq_some_iff.1 hfg
    exact ⟨f, hf, rfl⟩

theorem documentMessage_inherits (h : b.documentMessage filter m = .ok (some n)) :
    n.Inherits m := by
  obtain ⟨-, ⟨-, rfl⟩ | ⟨offset, -, -, hn⟩⟩ := documentMessage_eq_some_iff.1 h
  · exact filter.passOn_inherits m
  · exact (relocate_inherits hn).trans (filter.passOn_inherits m)

theorem documentMessage_of_not_keeps (h : ¬ b.Keeps filter m) :
    b.documentMessage filter m = .ok none := by
  rw [documentMessage_eq]
  split
  · rfl
  · next hdrops =>
    have hrule := MessageFilter.drops_eq_false_iff.1 (Bool.not_eq_true _ ▸ hdrops)
    cases hoffset : b.lineOffset with
    | none => exact absurd ⟨hrule, Or.inl (lineOffset_eq_none_iff.1 hoffset)⟩ h
    | some offset =>
      have hline : m.line ≤ b.commentLineCount := by
        by_contra hlt
        exact h ⟨hrule, Or.inr (Nat.lt_of_not_le hlt)⟩
      exact if_pos hline

theorem exists_documentMessage (h : b.Keeps filter m)
    (hfit : ∀ offset ∈ b.lineOffset, b.SumsFit offset m) :
    ∃ n, b.documentMessage filter m = .ok (some n) := by
  have hdrops := MessageFilter.drops_eq_false_iff.2 h.1
  cases hoffset : b.lineOffset with
  | none => exact ⟨_, documentMessage_eq_some_iff.2 ⟨hdrops, Or.inl ⟨hoffset, rfl⟩⟩⟩
  | some offset =>
    have hline : b.commentLineCount < m.line := by
      refine h.2.resolve_left fun hloc => ?_
      rw [lineOffset_eq_none_iff.2 hloc] at hoffset
      cases hoffset
    have hpass : b.SumsFit offset (filter.passOn m) := by
      obtain ⟨hl, hel, hc, hec⟩ := hfit offset hoffset
      rw [MessageFilter.passOn_eq]
      exact ⟨hl, hel, hc, hec⟩
    obtain ⟨n, hn⟩ := exists_relocate hpass
    exact ⟨n, documentMessage_eq_some_iff.2 ⟨hdrops, Or.inr ⟨offset, hoffset, hline, hn⟩⟩⟩

end Block

/-! ## One group -/

namespace Cycle

variable {filter : MessageFilter} {b : Block} {m : Message} {group out : List Message}

theorem documentMessages_cons {r : Option Message} (hm : b.documentMessage filter m = .ok r)
    (hgroup : documentMessages filter b group = .ok out) :
    documentMessages filter b (m :: group) = .ok (r.toList ++ out) :=
  mapM_filterMap_cons hm hgroup

theorem exists_documentMessages (hfit : ∀ m ∈ group, b.Keeps filter m →
      ∀ offset ∈ b.lineOffset, b.SumsFit offset m) :
    ∃ out, documentMessages filter b group = .ok out ∧
      List.Forall₂ (fun m n => b.documentMessage filter m = .ok (some n))
        (group.filter fun m => b.Keeps filter m) out := by
  induction group with
  | nil => exact ⟨[], rfl, .nil⟩
  | cons m group ih =>
    obtain ⟨out, hout, hall⟩ := ih fun m' hm' => hfit m' (List.mem_cons_of_mem m hm')
    by_cases hkeeps : b.Keeps filter m
    · obtain ⟨n, hn⟩ := Block.exists_documentMessage hkeeps (hfit m List.mem_cons_self hkeeps)
      refine ⟨n :: out, documentMessages_cons hn hout, ?_⟩
      rw [List.filter_cons_of_pos (by simpa using hkeeps)]
      exact .cons hn hall
    · refine ⟨out, documentMessages_cons (Block.documentMessage_of_not_keeps hkeeps) hout, ?_⟩
      rwa [List.filter_cons_of_neg (by simpa using hkeeps)]

/-! ## Whole rounds -/

/-- The messages to be reported, each with its block: in the order of the blocks and then of the
messages about a block. -/
def keptOf (filter : MessageFilter) (pairs : List (Block × List Message)) :
    List (Block × Message) :=
  pairs.flatMap fun p => (p.2.filter fun m => p.1.Keeps filter m).map fun m => (p.1, m)

def kept (c : Cycle) (groups : List (List Message)) : List (Block × Message) :=
  keptOf c.filter (c.blocks.zip groups)

theorem keptOf_cons (filter : MessageFilter) (p : Block × List Message)
    (pairs : List (Block × List Message)) :
    keptOf filter (p :: pairs) =
      (p.2.filter fun m => p.1.Keeps filter m).map (fun m => (p.1, m)) ++ keptOf filter pairs :=
  rfl

theorem exists_parts {pairs : List (Block × List Message)}
    (hfit : ∀ p ∈ keptOf filter pairs, ∀ offset ∈ p.1.lineOffset, p.1.SumsFit offset p.2) :
    ∃ parts,
      List.Forall₂ (fun p part => documentMessages filter p.1 p.2 = .ok part) pairs parts ∧
      List.Forall₂ (fun p n => p.1.documentMessage filter p.2 = .ok (some n))
        (keptOf filter pairs) parts.flatten := by
  induction pairs with
  | nil => exact ⟨[], .nil, .nil⟩
  | cons p pairs ih =>
    obtain ⟨b, group⟩ := p
    rw [keptOf_cons] at hfit ⊢
    -- the first group's kept messages stand in front of all others
    have hgroup : ∀ m ∈ group, b.Keeps filter m → ∀ offset ∈ b.lineOffset, b.SumsFit offset m := by
      intro m hm hkeeps
      refine hfit (b, m) (List.mem_append_left _ (List.mem_map.2 ⟨m, ?_, rfl⟩))
      exact List.mem_filter.2 ⟨hm, by simpa using hkeeps⟩
    obtain ⟨part, hpart, hkept⟩ := exists_documentMessages hgroup
    obtain ⟨parts, hparts, hall⟩ := ih fun p hp => hfit p (List.mem_append_right _ hp)
    refine ⟨part :: parts, .cons hpart hparts, List.rel_append ?_ hall⟩
    exact List.forall₂_map_left_iff.2 hkept

theorem postprocess_eq_groupCount_iff {c : Cycle} {groups : List (List Message)}
    {expected actual : Nat} :
    c.postprocess groups = .error (.groupCount expected actual) ↔
      groups.length ≠ c.blocks.length ∧ expected = c.blocks.length ∧ actual = groups.length := by
  unfold postprocess
  split
  · next hne => simp [hne, eq_comm]
  · next heq =>
    constructor
    · intro h
      cases hparts : (c.blocks.zip groups).mapM fun p => documentMessages c.filter p.1 p.2 with
      | error e => simp [hparts, Except.map, Failure.lift] at h
      | ok parts => simp [hparts, Except.map, Failure.lift] at h
    · rintro ⟨hne, -⟩
      exact absurd hne heq

/-- A round with a group for each block puts the messages of the groups together. -/
theorem postprocess_eq_flatten {c : Cycle} {groups parts : List (List Message)}
    (hlength : groups.length = c.blocks.length)
    (hparts : List.Forall₂ (fun p part => documentMessages c.filter p.1 p.2 = .ok part)
      (c.blocks.zip groups) parts) :
    c.postprocess groups = .ok parts.flatten := by
  unfold postprocess
  rw [if_neg (not_not_intro hlength), Failure.lift_eq_ok_iff, map_eq_ok_iff]
  exact ⟨parts, mapM_eq_ok_iff.2 hparts, rfl⟩

theorem postprocess_single (hgroup : documentMessages filter b group = .ok out) :
    postprocess ⟨[b], filter⟩ [group] = .ok out := by
  have h := @postprocess_eq_flatten ⟨[b], filter⟩ [group] [out] rfl (.cons hgroup .nil)
  simpa using h

/-- A round fails for its groups exactly when there is not one for each block. Else, where all sums
stay in their words, its messages are one for each message to be reported, in the same order, and
each has the rule, severity, text and further fields of the message it comes from, an end where
that has one, and no other fix than its fix. The messages of a round are those of the rounds of its
blocks alone, so what is said about a block depends on that block and its group only. -/
theorem postprocess_keeps (c : Cycle) (groups : List (List Message)) :
    (∀ expected actual, c.postprocess groups = .error (.groupCount expected actual) ↔
      groups.length ≠ c.blocks.length ∧ expected = c.blocks.length ∧ actual = groups.length) ∧
    (groups.length = c.blocks.length →
      (∀ p ∈ c.kept groups, ∀ offset ∈ p.1.lineOffset, p.1.SumsFit offset p.2) →
      ∃ parts, c.postprocess groups = .ok parts.flatten ∧
        List.Forall₂ (fun p part => postprocess ⟨[p.1], c.filter⟩ [p.2] = .ok part)
          (c.blocks.zip groups) parts ∧
        List.Forall₂ (fun p n => p.1.documentMessage c.filter p.2 = .ok (some n) ∧ n.Inherits p.2)
          (c.kept groups) parts.flatten) := by
  refine ⟨fun _ _ => postprocess_eq_groupCount_iff, ?_⟩
  intro hlength hfit
  obtain ⟨parts, hparts, hkept⟩ := exists_parts hfit
  refine ⟨parts, postprocess_eq_flatten hlength hparts, ?_, ?_⟩
  · exact hparts.imp fun _ _ hpart => postprocess_single hpart
  · exact hkept.imp fun _ _ hn => ⟨hn, Block.documentMessage_inherits hn⟩

/-- A message of a dropped rule, one about the comment and one about the code of a fenced script,
and one without a rule about a script without a location. -/
theorem postprocess_keeps_mixed :
    let fenced : Block := ⟨Text.ofString "ab", .block, some ⟨⟨0, 1, 1⟩, ⟨10, 3, 4⟩⟩, 1,
      [Text.ofString "/*eslint*/"], some ⟨[⟨0, 0⟩, ⟨11, -7⟩]⟩⟩
    let function : Block := ⟨Text.ofString "return 1", .function, none, 0, [], none⟩
    let semi := ((Message.ofRule "semi" "" 2 3).withEnd 2 4).withFix ⟨13, 13, ";"⟩
    let fatal := { Message.ofRule "" "Parsing error" 0 0 with ruleId := none }
    let c : Cycle := ⟨[fenced, function], .ofRules [] true⟩
    let groups := [[Message.ofRule "eol-last" "" 2 3, Message.ofRule "semi" "" 1 1, semi], [fatal]]
    ∃ out, c.postprocess groups = .ok out ∧
      List.Forall₂ (fun p n => p.1.documentMessage c.filter p.2 = .ok (some n) ∧ n.Inherits p.2)
        [(fenced, semi), (function, fatal)] out := by
  intro fenced function semi fatal c groups
  have hkept : c.kept groups = [(fenced, semi), (function, fatal)] := by cbv
  have hfit : ∀ p ∈ c.kept groups, ∀ offset ∈ p.1.lineOffset, p.1.SumsFit offset p.2 := by
    rw [hkept]
    intro p hp offset hoffset
    rcases List.mem_cons.1 hp with rfl | hp
    · obtain rfl : 1 = offset := Option.some.inj hoffset
      exact ⟨by decide, by decide, by decide, by decide⟩
    · rw [List.mem_singleton.1 hp] at hoffset
      cases hoffset
  obtain ⟨parts, hout, -, hall⟩ := (postprocess_keeps c groups).2 rfl hfit
  rw [hkept] at hall
  exact ⟨parts.flatten, hout, hall⟩

end Cycle
end Inlay
