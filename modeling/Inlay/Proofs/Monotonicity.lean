import Inlay.Proofs.Confinement
import Inlay.Proofs.Selection

/-! The order of a range map. Each line of the code starts behind the one before it, and the
sentinel gives way to an entry at offset zero, so the offsets of a table rise from zero. Halving
then finds the last entry at or before any offset, and there always is one. Offsets of the code keep
their order in the document. Two of them meet there only behind the text of a line, where the code
has a `\r` that the document has not. -/

namespace Inlay

namespace RangeMap

/-- The table starts at offset zero, and its offsets rise. -/
structure WellFormed (m : RangeMap) : Prop where
  first : m.entries.head?.map (·.extracted) = some 0
  increasing : m.entries.Pairwise fun x y => x.extracted < y.extracted

/-- The entry is the last one of the table that starts at or before the offset. -/
def IsLastUpTo (m : RangeMap) (q : Nat) (e : RangeEntry) : Prop :=
  ∃ before after, m.entries = before ++ e :: after ∧ e.extracted ≤ q ∧
    ∀ x ∈ after, q < x.extracted

/-! ## Tables -/

theorem alignLines_increasing {x d : Nat} {raws codes : List Text} {es : List RangeEntry}
    (h : alignLines x d raws codes = some es) :
    es.Pairwise fun e f => e.extracted < f.extracted := by
  induction codes generalizing x d raws es with
  | nil =>
    obtain rfl : [] = es := by simpa [alignLines] using h
    exact List.Pairwise.nil
  | cons code codes ih =>
    cases raws with
    | nil => simp [alignLines] at h
    | cons raw raws =>
      obtain ⟨-, rest, hrest, rfl⟩ := alignLines_cons_eq_some_iff.1 h
      refine List.pairwise_cons.2 ⟨fun e he => ?_, ih hrest⟩
      have hle := le_extracted_of_alignLines hrest e he
      simp only [lineEntry]
      omega

theorem withSentinel_wellFormed {es : List RangeEntry}
    (h : es.Pairwise fun e f => e.extracted < f.extracted) : (withSentinel es).WellFormed := by
  cases es with
  | nil => exact ⟨rfl, List.pairwise_singleton _ _⟩
  | cons e es =>
    rw [withSentinel]
    by_cases hzero : e.extracted = 0
    · rw [if_pos hzero]
      exact ⟨by simp [hzero], h⟩
    · rw [if_neg hzero]
      refine ⟨rfl, List.pairwise_cons.2 ⟨fun f hf => ?_, h⟩⟩
      have hpos : 0 < e.extracted := Nat.pos_of_ne_zero hzero
      rcases List.mem_cons.1 hf with rfl | hf
      · exact hpos
      · exact hpos.trans ((List.pairwise_cons.1 h).1 f hf)

theorem exists_last_up_to {es : List RangeEntry} {q : Nat}
    (h : es.Pairwise fun e f => e.extracted < f.extracted) (hne : es ≠ [])
    (hfirst : ∀ e ∈ es.head?, e.extracted ≤ q) :
    ∃ before e after, es = before ++ e :: after ∧ (∀ x ∈ before, x.extracted ≤ q) ∧
      e.extracted ≤ q ∧ ∀ x ∈ after, q < x.extracted := by
  induction es with
  | nil => exact absurd rfl hne
  | cons e es ih =>
    have he : e.extracted ≤ q := hfirst e (by simp)
    obtain ⟨hlater, hes⟩ := List.pairwise_cons.1 h
    cases es with
    | nil => exact ⟨[], e, [], rfl, by simp, he, by simp⟩
    | cons f es =>
      by_cases hf : f.extracted ≤ q
      · obtain ⟨before, g, after, heq, hbefore, hg, hafter⟩ := ih hes (by simp) (by simpa using hf)
        refine ⟨e :: before, g, after, by rw [heq, List.cons_append], ?_, hg, hafter⟩
        exact List.forall_mem_cons.2 ⟨he, hbefore⟩
      · refine ⟨[], e, f :: es, rfl, by simp, he, List.forall_mem_cons.2 ⟨by omega, fun x hx => ?_⟩⟩
        have hfx := (List.pairwise_cons.1 hes).1 x hx
        omega

namespace WellFormed

variable {m : RangeMap}

theorem exists_last_up_to (h : m.WellFormed) (q : Nat) :
    ∃ before e after, m.entries = before ++ e :: after ∧ (∀ x ∈ before, x.extracted ≤ q) ∧
      e.extracted ≤ q ∧ ∀ x ∈ after, q < x.extracted := by
  obtain ⟨e, he, hzero⟩ := Option.map_eq_some_iff.1 h.first
  refine RangeMap.exists_last_up_to h.increasing ?_ fun f hf => ?_
  · intro hnil
    simp [hnil] at he
  · obtain rfl : e = f := Option.some.inj (he.symm.trans hf)
    omega

theorem isLastUpTo_entryFor (h : m.WellFormed) (q : Nat) : m.IsLastUpTo q (m.entryFor q) := by
  obtain ⟨before, e, after, hm, hbefore, he, hafter⟩ := h.exists_last_up_to q
  rw [entryFor_eq hm hbefore he hafter]
  exact ⟨before, after, hm, he, hafter⟩

/-- Some entry starts at or before the offset, so the index of the last one needs no fallback. -/
theorem partitionPoint_pos (h : m.WellFormed) (q : Nat) :
    0 < partitionPoint (fun e : RangeEntry => decide (e.extracted ≤ q)) m.entries := by
  obtain ⟨before, e, after, hm, hbefore, he, hafter⟩ := h.exists_last_up_to q
  rw [partitionPoint_entries hm hbefore he hafter]
  exact Nat.succ_pos before.length

end WellFormed
end RangeMap

namespace Layout

variable {layout : Layout} {document code : Text} {loc : Location} {comments : List Text}
  {map : RangeMap}

theorem rangeMap?_wellFormed (hmap : layout.rangeMap? document loc code comments = some map) :
    map.WellFormed := by
  cases layout with
  | fenced =>
    obtain ⟨_, _, _, es, -, -, hes, rfl⟩ := RangeMap.fenced?_eq_some_iff.1 hmap
    exact RangeMap.withSentinel_wellFormed (RangeMap.alignLines_increasing hes)
  | inline =>
    obtain ⟨-, rfl⟩ := RangeMap.inline?_eq_some_iff.1 hmap
    exact RangeMap.withSentinel_wellFormed (List.pairwise_singleton _ _)

theorem toDocument_monotoneOn (hmap : layout.rangeMap? document loc code comments = some map)
    (hlength : document.length + 2 < Word.bound64) :
    MonotoneOn map.toDocument
      (Set.Icc (commentLength comments) (commentLength comments + code.length)) := by
  rintro a ⟨ha, -⟩ e ⟨he, he'⟩ hae
  have hmono := (toDocument_mono hmap hlength (Nat.sub_le_sub_right hae (commentLength comments))
    (Nat.sub_le_of_le_add (by omega))).2
  rwa [Nat.add_sub_cancel' ha, Nat.add_sub_cancel' he] at hmono

end Layout

namespace RangeMap

variable {document code : Text} {loc : Location} {comments : List Text} {map : RangeMap}

/-- Every map of either layout is well formed, looking up any offset in it finds the last entry at
or before that offset, and the map keeps the order of the offsets of the code. On the text of code
lines it keeps them apart as well. -/
theorem toDocument_ordered (hlength : document.length < 2 ^ 63)
    (hmap : fenced? document loc code comments = some map ∨
      inline? document loc code comments = some map) :
    map.WellFormed ∧
    (∀ q, 0 < partitionPoint (fun e : RangeEntry => decide (e.extracted ≤ q)) map.entries ∧
      map.IsLastUpTo q (map.entryFor q)) ∧
    MonotoneOn map.toDocument
      (Set.Icc (commentLength comments) (commentLength comments + code.length)) ∧
    StrictMonoOn map.toDocument
      { q | commentLength comments ≤ q ∧ code.OnLine (q - commentLength comments) } := by
  obtain ⟨layout, hmap⟩ :
      ∃ layout : Layout, layout.rangeMap? document loc code comments = some map := by
    rcases hmap with hmap | hmap
    · exact ⟨.fenced, hmap⟩
    · exact ⟨.inline, hmap⟩
  have hbound : document.length + 2 < Word.bound64 := by
    unfold Word.bound64
    omega
  have hwell := Layout.rangeMap?_wellFormed hmap
  exact ⟨hwell, fun q => ⟨hwell.partitionPoint_pos q, hwell.isLastUpTo_entryFor q⟩,
    Layout.toDocument_monotoneOn hmap hbound,
    Layout.toDocument_strictMonoOn_lines hmap (by omega)⟩

/-- Code with a `\r` that the document has not, behind a comment: the offsets before and behind the
line break meet, those on the text of the two lines do not. -/
theorem toDocument_ordered_returns :
    let document := Text.ofString "```\na\nb\n```\n"
    let comments := [Text.ofString "/*eslint*/"]
    let map : RangeMap := ⟨[⟨0, 0⟩, ⟨11, -7⟩, ⟨14, -8⟩]⟩
    fenced? document ⟨⟨0, 1, 1⟩, ⟨11, 4, 4⟩⟩ (Text.ofString "a\r\nb") comments = some map ∧
    map.toDocument 13 = 6 ∧ map.toDocument 14 = 6 ∧ map.toDocument 13 ≤ map.toDocument 14 ∧
    map.toDocument 12 < map.toDocument 14 ∧ map.IsLastUpTo 13 (map.entryFor 13) := by
  intro document comments map
  have hmap : fenced? document ⟨⟨0, 1, 1⟩, ⟨11, 4, 4⟩⟩ (Text.ofString "a\r\nb") comments =
      some map := by decide +kernel
  have hfirst : (Text.ofString "a\r\nb").OnLine 1 :=
    ⟨[], Text.ofString "a\r", [Text.ofString "b"], 1, by cbv, by cbv, by cbv⟩
  have hsecond : (Text.ofString "a\r\nb").OnLine 3 :=
    ⟨[Text.ofString "a\r"], Text.ofString "b", [], 0, by cbv, by cbv, by cbv⟩
  obtain ⟨-, hlast, hmono, hstrict⟩ := toDocument_ordered (by decide +kernel) (Or.inl hmap)
  refine ⟨hmap, by decide +kernel, by decide +kernel, ?_, ?_, (hlast 13).2⟩
  · exact hmono ⟨by decide, by decide⟩ ⟨by decide, by decide⟩ (by decide)
  · exact hstrict ⟨by decide, hfirst⟩ ⟨by decide, hsecond⟩ (by decide)

end RangeMap
end Inlay
