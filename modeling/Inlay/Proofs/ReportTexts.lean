import Inlay.Cli.Report
import Inlay.Proofs.FailingLinters
import Inlay.Proofs.MessageTexts
import Inlay.Proofs.Pipeline

/-! Linter output that this program has printed itself. Reports are tried on the whole list before
messages are, and a message may carry a list of messages of its own, so a list of messages is taken
for reports when every message carries one, and else is read as it was printed. -/

namespace Inlay

namespace Message

/-- The message was read from JSON, and its numbers are read back exactly. -/
def IsDecoded (m : Message) : Prop := (∃ j, ofJson? j = some m) ∧ m.IsIntegral

theorem IsDecoded.wellFormed {m : Message} (h : m.IsDecoded) : m.WellFormed := by
  obtain ⟨⟨j, hj⟩, -⟩ := h
  exact wellFormed_of_ofJson? hj

theorem isDecoded_terse : terse.IsDecoded := ⟨⟨terseJson, ofJson?_terseJson⟩, isIntegral_terse⟩

/-- The messages that a message carries in a field of its own. -/
def nested? (m : Message) : Option (List Message) :=
  (m.extra.lookup "messages").bind listOfJson?

theorem listOfJson?_canonical {j : Json} (h : j.HasDistinctNames) :
    listOfJson? j.canonical = listOfJson? j := by
  cases j with
  | arr items =>
    rw [Json.hasDistinctNames_arr_iff] at h
    rw [Json.canonical_arr, listOfJson?, listOfJson?, List.mapM_map]
    exact option_mapM_congr fun j hj => ofJson?_canonical (h j hj)
  | obj fields =>
    rw [Json.canonical_obj]
    rfl
  | _ => rfl

theorem listOfJson?_listToJson {ms : List Message} (h : ∀ m ∈ ms, m.WellFormed) :
    listOfJson? (listToJson ms) = some ms := by
  rw [listToJson, listOfJson?, List.mapM_map, option_mapM_eq_some_iff]
  exact List.map_congr_left fun m hm => ofJson?_toJson_of_wellFormed (h m hm)

theorem hasDistinctNames_listToJson {ms : List Message} (h : ∀ m ∈ ms, m.WellFormed) :
    (listToJson ms).HasDistinctNames := by
  rw [listToJson, Json.hasDistinctNames_arr_iff, List.forall_mem_map]
  exact fun m hm => hasDistinctNames_toJson (h m hm)

theorem isIntegral_listToJson {ms : List Message} (h : ∀ m ∈ ms, m.IsDecoded) :
    (listToJson ms).IsIntegral := by
  rw [listToJson, Json.isIntegral_arr_iff, List.forall_mem_map]
  exact fun m hm => isIntegral_toJson (h m hm).wellFormed (h m hm).2

theorem lookup_toFields_of_notMem (m : Message) {name : String} (h : name ∉ knownNames) :
    m.toFields.lookup name = m.extra.lookup name := by
  have hnone : m.knownFields.lookup name = none := by
    refine List.lookup_eq_none_iff.2 fun f hf => ?_
    rw [bne_iff_ne]
    rintro rfl
    exact h (m.knownFields_sublist.subset (List.mem_map_of_mem hf))
  rw [toFields_eq, List.lookup_append, hnone, Option.none_or]

end Message

namespace FileReport

variable {r : FileReport}

theorem hasDistinctNames_toJson (h : ∀ m ∈ r.messages, m.WellFormed) :
    r.toJson.HasDistinctNames := by
  have hmessages := Message.hasDistinctNames_listToJson h
  rw [toJson, Json.hasDistinctNames_obj_iff]
  simp [Json.nat, hmessages]

theorem isIntegral_toJson (h : ∀ m ∈ r.messages, m.IsDecoded)
    (hlength : r.messages.length < Word.bound64) : r.toJson.IsIntegral := by
  have herrors : (Json.nat r.errors.length).IsIntegral :=
    Json.isIntegral_nat_of_lt (Nat.lt_of_le_of_lt (List.length_filter_le ..) hlength)
  have hwarnings : (Json.nat r.warnings.length).IsIntegral :=
    Json.isIntegral_nat_of_lt (Nat.lt_of_le_of_lt (List.length_filter_le ..) hlength)
  have hmessages := Message.isIntegral_listToJson h
  rw [toJson, Json.isIntegral_obj_iff]
  simp [herrors, hwarnings, hmessages]

end FileReport

theorem Cli.spells_jsonText (j : Json) :
    Json.Spells j.canonical.lexemes (Cli.jsonText j).toList := by
  have hend : Json.Spells [] ['\n'] := .blank (Or.inr rfl) .nil
  have hall := Json.spelling_prettyAt j.canonical 0 [] ['\n']
    (by simp [Json.Separates, Json.IsBlank]) hend
  rw [Cli.jsonText, String.toList_append]
  rwa [List.append_nil] at hall

namespace LinterOutput

/-! ## Values -/

theorem reportOf?_of_nodup {fields : Json.Fields} (h : (fields.map (·.1)).Nodup) :
    reportOf? (.obj fields) = (fields.lookup "messages").bind Message.listOfJson? := by
  simp only [reportOf?, Json.single?_of_nodup h, Option.bind_eq_bind, Option.bind_some]

theorem reportOf?_canonical {j : Json} (h : j.HasDistinctNames) :
    reportOf? j.canonical = reportOf? j := by
  cases j with
  | arr items =>
    rw [Json.canonical_arr]
    match items with
    | [ms] =>
      exact Message.listOfJson?_canonical (Json.hasDistinctNames_arr_iff.1 h ms List.mem_cons_self)
    | [] => rfl
    | _ :: _ :: _ => rfl
  | obj fields =>
    obtain ⟨hfields, hvalues⟩ := Json.hasDistinctNames_obj_iff.1 h
    have hsorted := (Json.sorted_sortFields (Json.canonicalFields fields)).nodup
    rw [Json.canonical_obj, reportOf?_of_nodup hsorted, reportOf?_of_nodup hfields,
      Json.lookup_canonical hfields]
    cases hmessages : fields.lookup "messages" with
    | none => rfl
    | some j =>
      have hj := hvalues _ ((Json.lookup_eq_some_iff_of_nodup hfields).1 hmessages)
      exact Message.listOfJson?_canonical hj
  | _ => rfl

/-- Objects may have their fields in any order. -/
theorem ofJson?_canonical {j : Json} (h : j.HasDistinctNames) :
    ofJson? j.canonical = ofJson? j := by
  have hreports : reportsOf? j.canonical = reportsOf? j := by
    cases j with
    | arr items =>
      rw [Json.hasDistinctNames_arr_iff] at h
      rw [Json.canonical_arr, reportsOf?, reportsOf?, List.mapM_map]
      exact option_mapM_congr fun j hj => reportOf?_canonical (h j hj)
    | obj fields =>
      rw [Json.canonical_obj]
      rfl
    | _ => rfl
  rw [ofJson?, ofJson?, hreports, Message.listOfJson?_canonical h]

theorem ofJson?_of_isReordering {k j : Json} (hj : j.HasDistinctNames) (hk : k.IsReordering j) :
    ofJson? k = ofJson? j := by
  rw [← ofJson?_canonical hk.1, hk.2, ofJson?_canonical hj]

theorem ofJson?_reports {rs : List FileReport} (h : ∀ r ∈ rs, ∀ m ∈ r.messages, m.WellFormed) :
    ofJson? (.arr (rs.map FileReport.toJson)) = some (rs.flatMap (·.messages)) := by
  have hreports : reportsOf? (.arr (rs.map FileReport.toJson)) = some (rs.map (·.messages)) := by
    rw [reportsOf?, List.mapM_map, option_mapM_eq_some_iff, List.map_map]
    refine List.map_congr_left fun r hr => ?_
    rw [Function.comp_apply, FileReport.toJson, reportOf?_of_nodup (by simp)]
    exact Message.listOfJson?_listToJson (h r hr)
  rw [ofJson?, hreports, List.flatMap_def]

/-- What a list of messages is read as: the messages that they carry when there are some and all of
them carry messages, and else the messages themselves. -/
def unwrap (ms : List Message) : List Message :=
  if ms ≠ [] ∧ ∀ m ∈ ms, m.nested?.isSome then ms.flatMap fun m => m.nested?.getD [] else ms

theorem reportsOf?_listToJson {ms : List Message} (h : ∀ m ∈ ms, m.WellFormed) :
    reportsOf? (Message.listToJson ms) = ms.mapM Message.nested? := by
  rw [Message.listToJson, reportsOf?, List.mapM_map]
  apply option_mapM_congr
  intro m hm
  rw [Function.comp_apply, Message.toJson, reportOf?_of_nodup (Message.nodup_toFields (h m hm)),
    m.lookup_toFields_of_notMem (by decide), Message.nested?]

theorem ofJson?_listToJson {ms : List Message} (h : ∀ m ∈ ms, m.WellFormed) :
    ofJson? (Message.listToJson ms) = some (unwrap ms) := by
  rw [ofJson?, reportsOf?_listToJson h, Message.listOfJson?_listToJson h, unwrap]
  -- one message that carries none spoils the list for reports
  by_cases hall : ∀ m ∈ ms, m.nested?.isSome
  · have hreports : ms.mapM Message.nested? = some (ms.map fun m => m.nested?.getD []) := by
      rw [option_mapM_eq_some_iff, List.map_map]
      refine List.map_congr_left fun m hm => ?_
      obtain ⟨inner, hinner⟩ := Option.isSome_iff_exists.1 (hall m hm)
      rw [Function.comp_apply, hinner, Option.getD_some]
    rw [hreports]
    cases ms with
    | nil => rfl
    | cons m ms => rw [if_pos ⟨List.cons_ne_nil _ _, hall⟩, List.flatMap_def]
  · have hreports : ms.mapM Message.nested? = none := by
      rw [Option.eq_none_iff_forall_ne_some]
      intro reports hsome
      apply hall
      intro m hm
      have hmem : m.nested? ∈ ms.map Message.nested? := List.mem_map_of_mem hm
      rw [option_mapM_eq_some_iff.1 hsome] at hmem
      obtain ⟨inner, -, hinner⟩ := List.mem_map.1 hmem
      rw [← hinner, Option.isSome_some]
    rw [hreports, if_neg fun h => hall h.2]

/-! ## Texts -/

theorem ofText_of_ofJson? {s : String} {k : Json} {ms : List Message}
    (hk : Json.ofText? (Text.ofString s) = some k) (h : ofJson? k = some ms) :
    ofText (Text.ofString s) = .ok ms :=
  ofText_eq_ok_iff.2 (Or.inl ⟨Text.isUtf8_ofString s, k, hk, ofJson?_eq_some_iff.1 h⟩)

/-- A printed array is read back, unless it is nested too deep. -/
theorem ofText_of_spells {s : String} {items : List Json} {ms : List Message}
    (hint : (Json.arr items).IsIntegral) (hs : Json.Spells (Json.arr items).lexemes s.toList)
    (h : ofJson? (.arr items) = some ms) :
    ofText (Text.ofString s) =
      if (Json.arr items).height ≤ RawJson.maxDepth then .ok ms else .error .malformedJson := by
  have hread := Json.ofText?_of_spells hint hs
  rw [← Text.ofString_eq_ofChars] at hread
  split
  · next hheight =>
    rw [if_pos hheight] at hread
    exact ofText_of_ofJson? hread h
  · next hheight =>
    have hopen : '[' ∈ s.toList :=
      hs.mem List.mem_cons_self (by decide : '[' ∈ Json.Lexeme.openArray.text)
    have hblank : (Text.ofString s).isBlankText = false := by
      rw [Text.ofString_eq_ofChars, Text.isBlankText, Text.charsLossy_ofChars, List.all_eq_false]
      exact ⟨'[', hopen, by decide⟩
    rw [ofText, Text.isUtf8_ofString, hblank, hread, if_neg hheight]
    rfl

/-- Reports that were printed are read as all their messages, in order, and a printed list of
messages is read as it was printed unless all messages carry messages. Both hold for every text that
is read as the printed value with its fields in some order, and for the printed text itself. -/
theorem ofText_reads_both_shapes {rs : List FileReport} {ms : List Message}
    (hrs : ∀ r ∈ rs, ∀ m ∈ r.messages, m.IsDecoded) (hms : ∀ m ∈ ms, m.IsDecoded) :
    (∀ (s : String) (k : Json), Json.ofText? (Text.ofString s) = some k →
        k.IsReordering (.arr (rs.map FileReport.toJson)) →
        ofText (Text.ofString s) = .ok (rs.flatMap (·.messages))) ∧
      ((∀ r ∈ rs, r.messages.length < Word.bound64) →
        ofText (Text.ofString (Cli.reportsJson rs)) =
          if (Json.arr (rs.map FileReport.toJson)).canonical.height ≤ RawJson.maxDepth then
            .ok (rs.flatMap (·.messages))
          else .error .malformedJson) ∧
      (∀ (s : String) (k : Json), Json.ofText? (Text.ofString s) = some k →
        k.IsReordering (Message.listToJson ms) → ofText (Text.ofString s) = .ok (unwrap ms)) ∧
      ∀ s ∈ [(Message.listToJson ms).compact, (Message.listToJson ms).pretty],
        ofText (Text.ofString s) =
          if (Message.listToJson ms).height ≤ RawJson.maxDepth then .ok (unwrap ms)
          else .error .malformedJson := by
  have hreports := ofJson?_reports fun r hr m hm => (hrs r hr m hm).wellFormed
  have hlist := ofJson?_listToJson fun m hm => (hms m hm).wellFormed
  have hdistinct : (Json.arr (rs.map FileReport.toJson)).HasDistinctNames := by
    rw [Json.hasDistinctNames_arr_iff, List.forall_mem_map]
    exact fun r hr => FileReport.hasDistinctNames_toJson fun m hm => (hrs r hr m hm).wellFormed
  have hlistDistinct := Message.hasDistinctNames_listToJson fun m hm => (hms m hm).wellFormed
  refine ⟨?_, ?_, ?_, ?_⟩
  · intro s k hs hk
    exact ofText_of_ofJson? hs ((ofJson?_of_isReordering hdistinct hk).trans hreports)
  · intro hlength
    have hint : (Json.arr (rs.map FileReport.toJson)).IsIntegral := by
      rw [Json.isIntegral_arr_iff, List.forall_mem_map]
      exact fun r hr => FileReport.isIntegral_toJson (hrs r hr) (hlength r hr)
    have hprinted := ofJson?_canonical hdistinct
    have hspells := Cli.spells_jsonText (.arr (rs.map FileReport.toJson))
    rw [hreports, Json.canonical_arr] at hprinted
    have hintegral := Json.isIntegral_canonical hint
    rw [Json.canonical_arr] at hspells hintegral ⊢
    exact ofText_of_spells hintegral hspells hprinted
  · intro s k hs hk
    exact ofText_of_ofJson? hs ((ofJson?_of_isReordering hlistDistinct hk).trans hlist)
  · have hint := Message.isIntegral_listToJson hms
    rw [List.forall_mem_cons, List.forall_mem_singleton]
    exact ⟨ofText_of_spells hint (Json.spelling_compact _).spells hlist,
      ofText_of_spells hint (Json.spelling_prettyAt _ 0).spells hlist⟩

def carrier : Message :=
  ⟨some "wrap", .warning, "", 1, 1, none, none, none,
    [("messages", (Message.listToJson [Message.terse]).canonical)]⟩

theorem isDecoded_carrier : carrier.IsDecoded := by
  refine ⟨⟨carrier.toJson, rfl⟩, ?_⟩
  have hterse : (Message.listToJson [Message.terse]).IsIntegral :=
    Message.isIntegral_listToJson (List.forall_mem_singleton.2 Message.isDecoded_terse)
  exact List.forall_mem_singleton.2 (Json.isIntegral_canonical hterse)

def threeReports : List FileReport :=
  [⟨⟨Text.ofString "a.md"⟩, [Message.terse, carrier]⟩, ⟨⟨Text.ofString "b.md"⟩, []⟩,
    ⟨⟨Text.ofString "a.md"⟩, [carrier]⟩]

theorem ofText_reads_both_shapes_nested :
    (∀ r ∈ threeReports, ∀ m ∈ r.messages, m.IsDecoded) ∧
      (∀ m ∈ [carrier, carrier], m.IsDecoded) ∧
      ofText (Text.ofString (Cli.reportsJson threeReports)) =
        .ok [Message.terse, carrier, carrier] ∧
      ofText (Text.ofString (Message.listToJson [carrier, carrier]).compact) =
        .ok [Message.terse, Message.terse] := by
  have hreports : ∀ r ∈ threeReports, ∀ m ∈ r.messages, m.IsDecoded := by
    simp [threeReports, Message.isDecoded_terse, isDecoded_carrier]
  have hlist : ∀ m ∈ [carrier, carrier], m.IsDecoded := by
    simp [isDecoded_carrier]
  obtain ⟨-, hprinted, -, hbare⟩ := ofText_reads_both_shapes hreports hlist
  refine ⟨hreports, hlist, ?_, ?_⟩
  · rw [hprinted (by decide), if_pos (by decide)]
    rfl
  · have hunwrap : unwrap [carrier, carrier] = [Message.terse, Message.terse] := by rfl
    rw [hbare _ List.mem_cons_self, if_pos (by decide), hunwrap]

end LinterOutput
end Inlay
