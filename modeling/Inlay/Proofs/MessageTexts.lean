import Inlay.Proofs.MessageForm
import Inlay.Proofs.Reading

/-! Messages as they are printed. The numbers that every message has fit a word, so a message whose
other fields hold only such numbers is read back from the texts of its JSON form. -/

namespace Inlay

namespace Json

theorem isIntegral_nat_of_lt {n : Nat} (h : n < Word.bound64) : (nat n).IsIntegral := by
  rw [isIntegral_nat_iff, Number.maxWord]
  exact Nat.le_of_lt_succ h

end Json

namespace Fix

theorem isIntegral_toJson {f : Fix} (hstart : f.start < Word.bound64)
    (hstop : f.stop < Word.bound64) : f.toJson.IsIntegral := by
  rw [toJson, Json.isIntegral_obj_iff]
  simp [Json.isIntegral_arr_iff, Json.isIntegral_nat_of_lt hstart, Json.isIntegral_nat_of_lt hstop]

end Fix

namespace Message

variable {m : Message}

/-- Every number in the other fields is an integer that fits a word. -/
def IsIntegral (m : Message) : Prop := ∀ f ∈ m.extra, f.2.IsIntegral

theorem isIntegral_toJson (h : m.WellFormed) (hint : m.IsIntegral) : m.toJson.IsIntegral := by
  rw [toJson, Json.isIntegral_obj_iff]
  apply forall_mem_toFields Json.IsIntegral h
  · exact Json.isIntegral_null
  · exact Json.isIntegral_str
  · exact fun n hn => Json.isIntegral_nat_of_lt (Nat.lt_trans hn (by decide))
  · exact fun f hf => Fix.isIntegral_toJson (h.fix f hf).1 (h.fix f hf).2
  · exact hint

/-! ## Nothing is pruned from a printed message -/

theorem pruneFixFields_rawFields {fields : Json.Fields}
    (h : ∀ f ∈ fields, f.1 ∈ ["range", "text"]) :
    pruneFixFields (Json.rawFields fields) = Json.rawFields fields := by
  rw [pruneFixFields, Json.rawFields_eq_map, List.map_map]
  refine List.map_congr_left fun f hf => ?_
  have hname : some f.1 ∈ ["range", "text"].map some := List.mem_map_of_mem (h f hf)
  simp only [Function.comp_apply, RawJson.stringOf?_escaped]
  rw [if_pos (List.contains_iff_mem.2 hname)]

theorem pruneField_raw {f : String × Json} (h : f.1 = "fix" → ∃ fix : Fix, f.2 = fix.toJson) :
    pruneField (RawJson.escaped f.1, f.2.raw) = (RawJson.escaped f.1, f.2.raw) := by
  obtain ⟨name, j⟩ := f
  by_cases hname : name = "fix"
  · obtain ⟨fix, rfl⟩ := h hname
    rw [Fix.toJson, Json.raw, pruneField, RawJson.stringOf?_escaped, hname, if_pos rfl,
      pruneFixFields_rawFields (by simp)]
  · cases j with
    | obj fields =>
      rw [Json.raw, pruneField, RawJson.stringOf?_escaped, if_neg (by simpa using hname)]
    | _ => rfl

theorem prune_raw (h : m.WellFormed) : prune m.toJson.raw = m.toJson.raw := by
  have hfix : ∀ f ∈ m.toFields, f.1 = "fix" → ∃ fix : Fix, f.2 = fix.toJson := by
    rintro ⟨name, j⟩ hf rfl
    have hlookup := (Json.lookup_eq_some_iff_of_nodup (nodup_toFields h)).2 hf
    rw [lookup_toFields h (by decide), m.lookup_knownFields.2.2.2.2.2.2.2] at hlookup
    obtain ⟨fix, -, hj⟩ := Option.map_eq_some_iff.1 hlookup
    exact ⟨fix, hj.symm⟩
  rw [toJson, Json.raw, prune, Json.rawFields_eq_map, List.map_map]
  congr 1
  apply List.map_congr_left
  intro f hf
  exact pruneField_raw (hfix f hf)

/-- A text that spells the JSON form of a message is read as the message, unless it is nested too
deep. -/
theorem ofText?_of_spells (h : m.WellFormed) (hint : m.IsIntegral) {cs : List Char}
    (hcs : Json.Spells m.toJson.lexemes cs) :
    ofText? (Text.ofChars cs) = if m.toJson.height ≤ RawJson.maxDepth then some m else none := by
  have hintegral := isIntegral_toJson h hint
  rw [ofText?, Json.rawOfText?_of_spells hintegral hcs]
  simp only [Option.bind_eq_bind, Option.bind_some]
  rw [prune_raw h, Json.toJson?_raw hintegral 0 (Nat.zero_le _), Nat.zero_add]
  split
  · exact ofJson?_toJson_of_wellFormed h
  · rfl

/-- A message that was read is read back from its JSON form, as a value with its fields in any order
and as a text. -/
theorem toJson_reads_back {j : Json} {m : Message} (h : ofJson? j = some m)
    (hint : m.IsIntegral) :
    (∀ f ∈ m.extra, f.1 ∉ knownNames) ∧ m.toJson.HasDistinctNames ∧ ofJson? m.toJson = some m ∧
      (∀ k : Json, k.IsReordering m.toJson → ofJson? k = some m) ∧
      ∀ s ∈ [m.toJson.compact, m.toJson.pretty], ofText? (Text.ofString s) =
        if m.toJson.height ≤ RawJson.maxDepth then some m else none := by
  have hm := wellFormed_of_ofJson? h
  have hdistinct := hasDistinctNames_toJson hm
  have hvalue := ofJson?_toJson_of_wellFormed hm
  refine ⟨hm.others, hdistinct, hvalue, ?_, ?_⟩
  · rintro k ⟨hk, hcanonical⟩
    calc ofJson? k = ofJson? k.canonical := (ofJson?_canonical hk).symm
      _ = ofJson? m.toJson.canonical := by rw [hcanonical]
      _ = ofJson? m.toJson := ofJson?_canonical hdistinct
      _ = some m := hvalue
  · rw [List.forall_mem_cons, List.forall_mem_singleton, Text.ofString_eq_ofChars,
      Text.ofString_eq_ofChars]
    exact ⟨ofText?_of_spells hm hint (Json.spelling_compact _).spells,
      ofText?_of_spells hm hint (Json.spelling_prettyAt _ 0).spells⟩

/-- A message without a rule, with its fix in an array and with a field of its own, in which a name
stands twice. -/
def terseJson : Json :=
  .obj [("message", .str "Bad \"x\""), ("meta", .obj [("b", .arr [.num (.int (-2))]),
      ("a", .bool true), ("b", .nat 7)]), ("line", .nat 3), ("endLine", .null),
    ("fix", .arr [.arr [.nat 1, .nat 2], .str ""])]

def terse : Message :=
  ⟨none, .error, "Bad \"x\"", 3, 0, none, none, some ⟨1, 2, ""⟩,
    [("meta", .obj [("a", .bool true), ("b", .nat 7)])]⟩

theorem ofJson?_terseJson : ofJson? terseJson = some terse := rfl

theorem isIntegral_terse : terse.IsIntegral := by
  simp [IsIntegral, terse, Json.isIntegral_obj_iff, Json.isIntegral_nat_iff, Number.maxWord]

theorem toJson_reads_back_terse :
    ofJson? terseJson = some terse ∧ terse.IsIntegral ∧
      (∀ f ∈ terse.extra, f.1 ∉ knownNames) ∧ terse.toJson.HasDistinctNames ∧
      ofJson? terse.toJson = some terse ∧
      (∀ k : Json, k.IsReordering terse.toJson → ofJson? k = some terse) ∧
      ofText? (Text.ofString terse.toJson.compact) = some terse := by
  obtain ⟨hothers, hdistinct, hvalue, hreorder, htexts⟩ :=
    toJson_reads_back ofJson?_terseJson isIntegral_terse
  refine ⟨ofJson?_terseJson, isIntegral_terse, hothers, hdistinct, hvalue, hreorder, ?_⟩
  rw [htexts terse.toJson.compact List.mem_cons_self, if_pos (by decide)]

end Message
end Inlay
