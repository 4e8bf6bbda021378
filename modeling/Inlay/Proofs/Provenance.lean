import Mathlib
import Inlay.Proofs.Pipeline

/-! Where the fixes in the messages about a document come from. A fix of a block with a location is
mapped through the block's range map or dropped. A block without a location has no range map, and
its messages pass with their fixes as they are: a fix then still counts offsets of the block. -/

namespace Inlay

/-- `g` is the image of `f` under the range map of the block, and `f` starts behind the comments. -/
def Block.Maps (b : Block) (f g : Fix) : Prop :=
  ∃ map, b.rangeMap = some map ∧ b.commentLength ≤ f.start ∧
    g = ⟨map.toDocument f.start, map.toDocument f.stop, f.text⟩

namespace Cycle

theorem Reports.maps_or {c : Cycle} {groups : List (List Message)} {b : Block} {m n : Message}
    (h : c.Reports groups b m n) {g : Fix} (hg : n.fix = some g) :
    ∃ f, m.fix = some f ∧ (b.Maps f g ∨ (b.loc = none ∧ g = f)) := by
  obtain ⟨group, -, -, hmn⟩ := h
  rw [Block.documentMessage_fix hmn] at hg
  obtain ⟨f, hf, hfg⟩ := Option.bind_eq_some_iff.1 hg
  refine ⟨f, (MessageFilter.passOn_fix_eq_some_iff.1 hf).2, ?_⟩
  split at hfg
  · next hloc => exact Or.inr ⟨hloc, (Option.some.inj hfg).symm⟩
  · exact Or.inl (Block.relocateFix_eq_some_iff.1 hfg)

theorem reports_of_loc_eq_none {c : Cycle} {groups : List (List Message)} {b : Block}
    {group : List Message} {m : Message} (hb : (b, group) ∈ c.blocks.zip groups) (hm : m ∈ group)
    (hloc : b.loc = none) (hdrops : c.filter.drops m = false)
    (hkeeps : c.filter.keepsFixes = true) :
    c.Reports groups b m m := by
  refine ⟨group, hb, hm, Block.documentMessage_eq_some_iff.2 ⟨hdrops, Or.inl ⟨?_, ?_⟩⟩⟩
  · exact Block.lineOffset_eq_none_iff.2 hloc
  · simp [MessageFilter.passOn, hkeeps]

end Cycle

namespace Processor

theorem rangeMap_of_loc_eq_none {p : Processor} {document : Text} {c : Cycle}
    (h : p.preprocess document = .ok c) {b : Block} (hb : b ∈ c.blocks) (hloc : b.loc = none) :
    b.rangeMap = none := by
  obtain ⟨tree, -, hblocks, -⟩ := preprocess_eq_ok_iff.1 h
  obtain ⟨v, -, hv⟩ := (Cycle.mem_extract hblocks).1 hb
  exact Visit.rangeMap_of_loc_eq_none hv hloc

/-- The messages of a round are what becomes of the messages about its blocks. Their fixes are
mapped, those of blocks without a location apart. So all fixes are mapped exactly when no message
about such a block has a fix, is let through by its rule and may keep the fix. -/
theorem postprocess_fixes_mapped_iff {p : Processor} {document : Text} {c : Cycle}
    {groups : List (List Message)} {out : List Message} (hpre : p.preprocess document = .ok c)
    (hpost : c.postprocess groups = .ok out) :
    (∀ n, n ∈ out ↔ ∃ b m, c.Reports groups b m n) ∧
    (∀ b m n g, c.Reports groups b m n → n.fix = some g →
      ∃ f, m.fix = some f ∧ (b.Maps f g ∨ (b.loc = none ∧ g = f))) ∧
    ((∀ b m n g, c.Reports groups b m n → n.fix = some g → ∃ f, m.fix = some f ∧ b.Maps f g) ↔
      ∀ b group, (b, group) ∈ c.blocks.zip groups → b.loc = none →
        ∀ m ∈ group, m.fix ≠ none → c.filter.drops m = true ∨ c.filter.keepsFixes = false) := by
  refine ⟨fun n => Cycle.mem_postprocess hpost, fun b m n g h hg => h.maps_or hg, ?_, ?_⟩
  · intro hmaps b group hb hloc m hm hfix
    obtain ⟨g, hg⟩ := Option.ne_none_iff_exists'.1 hfix
    by_contra hcon
    push Not at hcon
    simp only [Bool.not_eq_true, Bool.not_eq_false] at hcon
    obtain ⟨f, -, map, hmap, -⟩ := hmaps b m m g
      (Cycle.reports_of_loc_eq_none hb hm hloc hcon.1 hcon.2) hg
    rw [rangeMap_of_loc_eq_none hpre (List.of_mem_zip hb).1 hloc] at hmap
    cases hmap
  · intro hnone b m n g h hg
    obtain ⟨f, hf, hfg | ⟨hloc, -⟩⟩ := h.maps_or hg
    · exact ⟨f, hf, hfg⟩
    · -- a message that kept its fix passed the filter, which the condition rules out
      obtain ⟨group, hb, hm, hmn⟩ := h
      have hdrops := (Block.documentMessage_eq_some_iff.1 hmn).1
      rw [Block.documentMessage_fix hmn] at hg
      obtain ⟨f', hf', -⟩ := Option.bind_eq_some_iff.1 hg
      obtain ⟨hkeeps, -⟩ := MessageFilter.passOn_fix_eq_some_iff.1 hf'
      rcases hnone b group hb hloc m hm (by simp [hf]) with hd | hk
      · simp [hd] at hdrops
      · simp [hk] at hkeeps

def ofTree (tree : Node) : Processor :=
  ⟨⟨"tree", .nesting, fun _ => .ok (some tree)⟩, 4, .ofRules [] true⟩

def mixedTree : Node :=
  .container .program none
    [.script .block (Text.ofString "ab") (some ⟨⟨0, 1, 1⟩, ⟨10, 3, 4⟩⟩),
      .script .function (Text.ofString "return 1") none] none

/-- A fix of the fenced script is mapped; the message about the function has none. -/
theorem fixes_mapped_mixed :
    let groups := [[(Message.ofRule "semi" "" 1 1).withFix ⟨0, 2, "cd"⟩],
      [Message.ofRule "semi" "" 1 1]]
    ∃ c out, (ofTree mixedTree).preprocess (Text.ofString "```\nab\n```\n") = .ok c ∧
      c.postprocess groups = .ok out ∧ out.map (·.fix) = [some ⟨4, 6, "cd"⟩, none] ∧
      ∀ b m n g, c.Reports groups b m n → n.fix = some g →
        ∃ f, m.fix = some f ∧ b.Maps f g := by
  intro groups
  let c : Cycle :=
    ⟨[⟨Text.ofString "ab", .block, some ⟨⟨0, 1, 1⟩, ⟨10, 3, 4⟩⟩, 4, [], some ⟨[⟨0, 4⟩]⟩⟩,
      ⟨Text.ofString "return 1", .function, none, 4, [], none⟩], .ofRules [] true⟩
  have hpre : (ofTree mixedTree).preprocess (Text.ofString "```\nab\n```\n") = .ok c := by cbv
  obtain ⟨out, hpost, hout⟩ : ∃ out, c.postprocess groups = .ok out ∧
      out.map (·.fix) = [some ⟨4, 6, "cd"⟩, none] := ⟨_, by cbv, by cbv⟩
  refine ⟨c, out, hpre, hpost, hout, (postprocess_fixes_mapped_iff hpre hpost).2.2.2 ?_⟩
  intro b group hb hloc m hm hfix
  simp only [c, groups, List.zip_cons_cons, List.zip_nil_right, List.mem_cons, List.not_mem_nil,
    or_false, Prod.mk.injEq] at hb
  rcases hb with ⟨rfl, rfl⟩ | ⟨rfl, rfl⟩
  · cases hloc
  · rw [List.mem_singleton.1 hm] at hfix
    exact absurd rfl hfix

/-- A function without a location: the fix of a message about it goes to the document as it is. -/
theorem unmapped_fix_reported :
    ¬ ∀ (p : Processor) (document : Text) (c : Cycle) (groups : List (List Message))
      (out : List Message), p.preprocess document = .ok c → c.postprocess groups = .ok out →
      ∀ n ∈ out, ∀ g, n.fix = some g →
        ∃ b m f, c.Reports groups b m n ∧ m.fix = some f ∧ b.Maps f g := by
  intro h
  let m := (Message.ofRule "semi" "" 1 1).withFix ⟨0, 4, "throw"⟩
  let b : Block := ⟨Text.ofString "return 1", .function, none, 0, [], none⟩
  have hpre : (ofTree (.script .function (Text.ofString "return 1") none)).preprocess
      (Text.ofString "Item") = .ok ⟨[b], .ofRules [] true⟩ := by cbv
  have hpost : Cycle.postprocess ⟨[b], .ofRules [] true⟩ [[m]] = .ok [m] := by cbv
  obtain ⟨b', m', f, ⟨group, hb, -⟩, -, map, hmap, -⟩ :=
    h _ _ _ _ _ hpre hpost m (by simp) _ rfl
  obtain ⟨rfl, -⟩ : b' = b ∧ group = [m] := by simpa using hb
  cases hmap

end Processor
end Inlay
