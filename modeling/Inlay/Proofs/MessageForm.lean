import Mathlib.Data.List.Sublists
import Inlay.Message.Wire
import Inlay.Proofs.FieldOrder

/-! The JSON form of messages. Whatever value a message is read from, its JSON form has no name
twice and is read as the same message, with its fields in any order: the fields that every message
has are written in a form that reading accepts, and the others are kept sorted, in canonical form
and apart from these. -/

namespace Inlay

namespace Json

theorem natBelow?_eq_some_iff {bound n : Nat} {j : Json} :
    j.natBelow? bound = some n ↔ n < bound ∧ j = nat n := by
  cases j with
  | num x =>
    cases x with
    | int i =>
      simp only [natBelow?, nat, Option.ite_none_right_eq_some, Bool.and_eq_true,
        decide_eq_true_eq, Option.some.injEq, num.injEq, Number.int.injEq]
      omega
    | real x => simp [natBelow?, nat]
  | _ => simp [natBelow?, nat]

theorem single?_of_nodup {fields : Fields} (h : (fields.map (·.1)).Nodup) (name : String) :
    single? name fields = some (fields.lookup name) := by
  induction fields with
  | nil => rfl
  | cons f fields ih =>
    rw [List.map_cons, List.nodup_cons] at h
    rw [lookup_cons_ite]
    by_cases hn : name = f.1
    · have hnone : fields.filter (·.1 == name) = [] := by
        refine List.filter_eq_nil_iff.2 fun g hg heq => h.1 ?_
        rw [← hn, ← beq_iff_eq.1 heq]
        exact List.mem_map_of_mem hg
      rw [single?, List.filter_cons_of_pos (by simp [hn]), hnone, if_pos hn]
    · rw [single?, List.filter_cons_of_neg (by simpa using Ne.symm hn), if_neg hn, ← ih h.2,
        single?]

theorem canonical_str? (j : Json) : j.canonical.str? = j.str? := by
  cases j <;> rfl

theorem canonical_natBelow? (bound : Nat) (j : Json) :
    j.canonical.natBelow? bound = j.natBelow? bound := by
  cases j <;> rfl

end Json

/-! ## Fixes -/

namespace Fix

theorem ofParts?_eq_some_iff {range text : Json} {f : Fix} :
    ofParts? range text = some f ↔
      f.start < Word.bound64 ∧ f.stop < Word.bound64 ∧
        range = .arr [.nat f.start, .nat f.stop] ∧ text = .str f.text := by
  unfold ofParts?
  split
  · next a b s =>
    simp only [Option.bind_eq_bind, Option.bind_eq_some_iff, Json.natBelow?_eq_some_iff,
      Option.some.injEq]
    constructor
    · rintro ⟨start, ⟨hstart, rfl⟩, stop, ⟨hstop, rfl⟩, rfl⟩
      exact ⟨hstart, hstop, rfl, rfl⟩
    · rintro ⟨hstart, hstop, hrange, htext⟩
      cases hrange
      cases htext
      exact ⟨f.start, ⟨hstart, rfl⟩, f.stop, ⟨hstop, rfl⟩, rfl⟩
  · next hno =>
    simp only [reduceCtorEq, false_iff]
    rintro ⟨-, -, rfl, rfl⟩
    exact hno _ _ _ rfl rfl

theorem bounds_of_ofJson? {j : Json} {f : Fix} (h : ofJson? j = some f) :
    f.start < Word.bound64 ∧ f.stop < Word.bound64 := by
  unfold ofJson? at h
  split at h
  · exact ⟨(ofParts?_eq_some_iff.1 h).1, (ofParts?_eq_some_iff.1 h).2.1⟩
  · simp only [Option.bind_eq_bind, Option.bind_eq_some_iff] at h
    obtain ⟨_, -, _, -, _, -, _, -, h⟩ := h
    exact ⟨(ofParts?_eq_some_iff.1 h).1, (ofParts?_eq_some_iff.1 h).2.1⟩
  · cases h

theorem ofParts?_canonical (range text : Json) :
    ofParts? range.canonical text.canonical = ofParts? range text := by
  cases range with
  | arr items =>
    rw [Json.canonical_arr]
    match items with
    | [a, b] =>
      cases text with
      | str s => simp only [List.map, ofParts?, Json.canonical, Json.canonical_natBelow?]
      | _ => rfl
    | [] => rfl
    | [_] => rfl
    | _ :: _ :: _ :: _ => rfl
  | _ => rfl

theorem ofJson?_of_nodup {fields : Json.Fields} (h : (fields.map (·.1)).Nodup) :
    ofJson? (.obj fields) =
      (fields.lookup "range").bind fun range => (fields.lookup "text").bind (ofParts? range) := by
  simp only [ofJson?, Json.single?_of_nodup h, Option.bind_eq_bind, Option.bind_some]

theorem ofJson?_canonical {j : Json} (h : j.HasDistinctNames) :
    ofJson? j.canonical = ofJson? j := by
  cases j with
  | arr items =>
    rw [Json.canonical_arr]
    match items with
    | [range, text] => exact ofParts?_canonical range text
    | [] => rfl
    | [_] => rfl
    | _ :: _ :: _ :: _ => rfl
  | obj fields =>
    have hfields := (Json.hasDistinctNames_obj_iff.1 h).1
    have hsorted := (Json.sorted_sortFields (Json.canonicalFields fields)).nodup
    rw [Json.canonical_obj, ofJson?_of_nodup hsorted, ofJson?_of_nodup hfields,
      Json.lookup_canonical hfields, Json.lookup_canonical hfields]
    simp only [Option.bind_map, Function.comp_def, ofParts?_canonical]
  | _ => rfl

theorem hasDistinctNames_toJson (f : Fix) : f.toJson.HasDistinctNames := by
  refine Json.hasDistinctNames_obj_iff.2 ⟨by simp, ?_⟩
  simp [Json.hasDistinctNames_arr_iff, Json.nat]

theorem ofJson?_toJson {f : Fix} (hstart : f.start < Word.bound64) (hstop : f.stop < Word.bound64) :
    ofJson? f.toJson = some f := by
  have hlookup : ∀ range text : Json,
      List.lookup "range" [("range", range), ("text", text)] = some range ∧
        List.lookup "text" [("range", range), ("text", text)] = some text := by
    simp [Json.lookup_cons_ite]
  rw [toJson, ofJson?_of_nodup (by simp), (hlookup _ _).1, (hlookup _ _).2, Option.bind_some,
    Option.bind_some]
  exact ofParts?_eq_some_iff.2 ⟨hstart, hstop, rfl, rfl⟩

end Fix

/-! ## Messages -/

namespace Message

/-- What a message that was read is like: its numbers are words, and its other fields are sorted, in
canonical form, and named otherwise than the fields that every message has. -/
structure WellFormed (m : Message) : Prop where
  line : m.line < Word.bound32
  column : m.column < Word.bound32
  endLine : ∀ n ∈ m.endLine, n < Word.bound32
  endColumn : ∀ n ∈ m.endColumn, n < Word.bound32
  fix : ∀ f ∈ m.fix, f.start < Word.bound64 ∧ f.stop < Word.bound64
  sorted : Json.Sorted m.extra
  canonical : ∀ f ∈ m.extra, f.2.canonical = f.2
  others : ∀ f ∈ m.extra, f.1 ∉ knownNames

theorem exists_of_optional? {α : Type} {read : Json → Option α} {o : Option Json} {x : Option α}
    (h : optional? read o = some x) : ∀ a ∈ x, ∃ j, read j = some a := by
  intro a ha
  cases ha
  match o with
  | none => cases h
  | some j =>
    unfold optional? at h
    split at h
    · cases h
    · cases h
    · next k _ _ =>
      obtain ⟨b, hb, hab⟩ := Option.map_eq_some_iff.1 h
      cases hab
      exact ⟨_, hb⟩

theorem lt_of_word32? {j : Json} {n : Nat} (h : word32? j = some n) : n < Word.bound32 :=
  (Json.natBelow?_eq_some_iff.1 h).1

theorem lt_of_defaulted? {o : Option Json} {n : Nat} (h : defaulted? 0 word32? o = some n) :
    n < Word.bound32 := by
  cases o with
  | none =>
    cases h
    decide
  | some j => exact lt_of_word32? h

theorem mem_extraOf {fields : Json.Fields} {f : String × Json} (h : f ∈ extraOf fields) :
    f.1 ∉ knownNames ∧ ∃ j : Json, f.2 = j.canonical := by
  obtain ⟨g, hg, rfl⟩ := Json.exists_of_mem_canonical h
  exact ⟨by simpa using (List.mem_filter.1 hg).2, g.2, rfl⟩

theorem wellFormed_of_ofJson? {j : Json} {m : Message} (h : ofJson? j = some m) :
    m.WellFormed := by
  cases j with
  | obj fields =>
    simp only [ofJson?, ofFields?, Option.bind_eq_bind, Option.bind_eq_some_iff,
      Option.some.injEq] at h
    obtain ⟨ruleId, -, severity, -, _, -, text, -, line, ⟨_, -, hline⟩, column, ⟨_, -, hcolumn⟩,
      endLine, ⟨_, -, hendLine⟩, endColumn, ⟨_, -, hendColumn⟩, fix, ⟨_, -, hfix⟩, rfl⟩ := h
    refine ⟨lt_of_defaulted? hline, lt_of_defaulted? hcolumn, ?_, ?_, ?_,
      Json.sorted_sortFields _, ?_, fun f hf => (mem_extraOf hf).1⟩
    · intro n hn
      obtain ⟨j, hj⟩ := exists_of_optional? hendLine n hn
      exact lt_of_word32? hj
    · intro n hn
      obtain ⟨j, hj⟩ := exists_of_optional? hendColumn n hn
      exact lt_of_word32? hj
    · intro f hf
      obtain ⟨j, hj⟩ := exists_of_optional? hfix f hf
      exact Fix.bounds_of_ofJson? hj
    · intro f hf
      obtain ⟨j, hj⟩ := (mem_extraOf hf).2
      rw [hj, Json.canonical_canonical]
  | _ => cases h

/-! ### Fields in any order -/

/-- The message in some fields, each of which is looked up. -/
def readFrom (get : String → Option Json) (extra : Json.Fields) : Option Message := do
  let ruleId ← optional? Json.str? (get "ruleId")
  let severity ← defaulted? .error severityOf? (get "severity")
  let text ← (get "message").bind Json.str?
  let line ← defaulted? 0 word32? (get "line")
  let column ← defaulted? 0 word32? (get "column")
  let endLine ← optional? word32? (get "endLine")
  let endColumn ← optional? word32? (get "endColumn")
  let fix ← optional? Fix.ofJson? (get "fix")
  some ⟨ruleId, severity, text, line, column, endLine, endColumn, fix, extra⟩

theorem ofFields?_of_nodup {fields : Json.Fields} (h : (fields.map (·.1)).Nodup) :
    ofFields? fields = readFrom (fun name => fields.lookup name) (extraOf fields) := by
  simp only [ofFields?, readFrom, Json.single?_of_nodup h, Option.bind_eq_bind, Option.bind_some]

/-- Sorting fields makes no value null. -/
theorem optional?_canonical {α : Type} {read : Json → Option α} {o : Option Json}
    (h : ∀ j ∈ o, read j.canonical = read j) :
    optional? read (o.map Json.canonical) = optional? read o := by
  match o with
  | none => rfl
  | some .null => rfl
  | some (.bool _) => rfl
  | some (.num _) => rfl
  | some (.str _) => rfl
  | some (.arr items) =>
    have hread := h _ rfl
    rw [Json.canonical_arr] at hread
    rw [Option.map_some, Json.canonical_arr, optional?, optional?, hread]
    all_goals simp
  | some (.obj fields) =>
    have hread := h _ rfl
    rw [Json.canonical_obj] at hread
    rw [Option.map_some, Json.canonical_obj, optional?, optional?, hread]
    all_goals simp

theorem defaulted?_canonical {α : Type} {default : α} {read : Json → Option α} {o : Option Json}
    (h : ∀ j ∈ o, read j.canonical = read j) :
    defaulted? default read (o.map Json.canonical) = defaulted? default read o := by
  cases o with
  | none => rfl
  | some j => exact h j rfl

theorem readFrom_canonical {get : String → Option Json} {extra : Json.Fields}
    (h : ∀ j ∈ get "fix", j.HasDistinctNames) :
    readFrom (fun name => (get name).map Json.canonical) extra = readFrom get extra := by
  have hword : ∀ j : Json, word32? j.canonical = word32? j := Json.canonical_natBelow? _
  have hseverity : ∀ j : Json, severityOf? j.canonical = severityOf? j := by
    intro j
    rw [severityOf?, Json.canonical_natBelow?, severityOf?]
  unfold readFrom
  rw [optional?_canonical fun j _ => Json.canonical_str? j,
    defaulted?_canonical fun j _ => hseverity j, defaulted?_canonical fun j _ => hword j,
    defaulted?_canonical fun j _ => hword j, optional?_canonical fun j _ => hword j,
    optional?_canonical fun j _ => hword j,
    optional?_canonical fun j hj => Fix.ofJson?_canonical (h j hj)]
  simp only [Option.bind_map, Function.comp_def, Json.canonical_str?]

theorem lookup_extraOf {fields : Json.Fields} (h : (fields.map (·.1)).Nodup) (name : String) :
    (extraOf fields).lookup name =
      if name ∈ knownNames then none else (fields.lookup name).map Json.canonical := by
  have hnodup : ((fields.filter fun f => !knownNames.contains f.1).map (·.1)).Nodup :=
    h.sublist (List.filter_sublist.map _)
  rw [extraOf, Json.lookup_canonical hnodup, Json.lookup_filter_names (!knownNames.contains ·)]
  by_cases hname : name ∈ knownNames <;> simp [hname]

theorem extraOf_canonical {fields : Json.Fields} (h : (fields.map (·.1)).Nodup) :
    extraOf (Json.sortFields (Json.canonicalFields fields)) = extraOf fields := by
  refine Json.Sorted.ext (Json.sorted_sortFields _) (Json.sorted_sortFields _) fun name => ?_
  have hsorted := (Json.sorted_sortFields (Json.canonicalFields fields)).nodup
  have htwice : Json.canonical ∘ Json.canonical = Json.canonical :=
    funext Json.canonical_canonical
  change (extraOf _).lookup name = (extraOf _).lookup name
  rw [lookup_extraOf hsorted, lookup_extraOf h, Json.lookup_canonical h, Option.map_map, htwice]

/-- The fields of a message may stand in any order. -/
theorem ofJson?_canonical {j : Json} (h : j.HasDistinctNames) :
    ofJson? j.canonical = ofJson? j := by
  cases j with
  | obj fields =>
    obtain ⟨hfields, hvalues⟩ := Json.hasDistinctNames_obj_iff.1 h
    have hsorted := (Json.sorted_sortFields (Json.canonicalFields fields)).nodup
    have hfix : ∀ j ∈ fields.lookup "fix", j.HasDistinctNames := fun j hj =>
      hvalues _ ((Json.lookup_eq_some_iff_of_nodup hfields).1 hj)
    rw [Json.canonical_obj, ofJson?, ofJson?, ofFields?_of_nodup hsorted,
      ofFields?_of_nodup hfields, extraOf_canonical hfields]
    simp only [Json.lookup_canonical hfields]
    exact readFrom_canonical hfix
  | arr items =>
    rw [Json.canonical_arr]
    rfl
  | _ => rfl

/-! ### Reading back -/

/-- The fields that every message has, without those that are absent. -/
def knownFields (m : Message) : Json.Fields :=
  [("ruleId", Json.ofOption (m.ruleId.map .str)), ("severity", .nat m.severity.level),
    ("message", .str m.text), ("line", .nat m.line), ("column", .nat m.column)]
  ++ field "endLine" (m.endLine.map .nat) ++ field "endColumn" (m.endColumn.map .nat)
  ++ field "fix" (m.fix.map Fix.toJson)

theorem toFields_eq (m : Message) : m.toFields = m.knownFields ++ m.extra := rfl

theorem knownFields_sublist (m : Message) : (m.knownFields.map (·.1)).Sublist knownNames := by
  have hfield : ∀ name o, ((field name o).map (·.1)).Sublist [name] := by
    intro name o
    cases o <;> simp [field]
  simp only [knownFields, List.map_append]
  exact (((List.Sublist.refl _).append (hfield _ _)).append (hfield _ _)).append (hfield _ _)

theorem lookup_field (name : String) (o : Option Json) (other : String) :
    (field name o).lookup other = if other = name then o else none := by
  cases o with
  | none => simp [field]
  | some j => simp [field, Json.lookup_cons_ite]

variable {m : Message}

theorem nodup_toFields (h : m.WellFormed) : (m.toFields.map (·.1)).Nodup := by
  rw [toFields_eq, List.map_append]
  have hknown : (m.knownFields.map (·.1)).Nodup :=
    (by decide : knownNames.Nodup).sublist m.knownFields_sublist
  refine List.nodup_append.2 ⟨hknown, h.sorted.nodup, ?_⟩
  rintro a ha b hb rfl
  obtain ⟨f, hf, rfl⟩ := List.mem_map.1 hb
  exact h.others f hf (m.knownFields_sublist.subset ha)

/-- What holds of the values of known fields and of the other fields holds of every field. -/
theorem forall_mem_toFields (P : Json → Prop) (h : m.WellFormed) (hnull : P .null)
    (hstr : ∀ s, P (.str s)) (hnat : ∀ n < Word.bound32, P (.nat n))
    (hfix : ∀ f ∈ m.fix, P f.toJson) (hextra : ∀ f ∈ m.extra, P f.2) :
    ∀ f ∈ m.toFields, P f.2 := by
  have hfield : ∀ {α : Type} (name : String) (write : α → Json) (o : Option α),
      (∀ a ∈ o, P (write a)) → ∀ f ∈ field name (o.map write), P f.2 := by
    intro α name write o ho
    cases o <;> simp_all [field]
  have hrule : P (Json.ofOption (m.ruleId.map .str)) := by
    cases m.ruleId with
    | none => exact hnull
    | some rule => exact hstr rule
  have hlevel : P (.nat m.severity.level) := hnat _ (by cases m.severity <;> decide)
  rw [toFields_eq, knownFields]
  simp only [List.forall_mem_append]
  refine ⟨⟨⟨⟨?_, ?_⟩, ?_⟩, ?_⟩, hextra⟩
  · simp [hrule, hlevel, hstr, hnat m.line h.line, hnat m.column h.column]
  · exact hfield _ _ _ fun n hn => hnat n (h.endLine n hn)
  · exact hfield _ _ _ fun n hn => hnat n (h.endColumn n hn)
  · exact hfield _ _ _ hfix

theorem hasDistinctNames_toJson (h : m.WellFormed) : m.toJson.HasDistinctNames := by
  refine Json.hasDistinctNames_obj_iff.2 ⟨nodup_toFields h, ?_⟩
  apply forall_mem_toFields Json.HasDistinctNames h
  · exact Json.hasDistinctNames_null
  · exact Json.hasDistinctNames_str
  · exact fun n _ => Json.hasDistinctNames_num _
  · exact fun f _ => f.hasDistinctNames_toJson
  · intro f hf
    rw [← h.canonical f hf]
    exact Json.hasDistinctNames_canonical _

theorem extraOf_toFields (h : m.WellFormed) : extraOf m.toFields = m.extra := by
  have hknown : m.knownFields.filter (fun f => !knownNames.contains f.1) = [] := by
    refine List.filter_eq_nil_iff.2 fun f hf => ?_
    simpa using m.knownFields_sublist.subset (List.mem_map_of_mem hf)
  have hextra : m.extra.filter (fun f => !knownNames.contains f.1) = m.extra := by
    refine List.filter_eq_self.2 fun f hf => ?_
    simpa using h.others f hf
  rw [extraOf, toFields_eq, List.filter_append, hknown, hextra, List.nil_append,
    Json.canonicalFields_of_canonical h.canonical, Json.sortFields_of_sorted h.sorted]

theorem lookup_toFields (h : m.WellFormed) {name : String} (hname : name ∈ knownNames) :
    m.toFields.lookup name = m.knownFields.lookup name := by
  have hnone : m.extra.lookup name = none := by
    refine List.lookup_eq_none_iff.2 fun f hf => ?_
    rw [bne_iff_ne]
    rintro rfl
    exact h.others f hf hname
  rw [toFields_eq, List.lookup_append, hnone, Option.or_none]

theorem word32?_nat {n : Nat} (h : n < Word.bound32) : word32? (.nat n) = some n :=
  Json.natBelow?_eq_some_iff.2 ⟨h, rfl⟩

theorem severityOf?_level (s : Severity) : severityOf? (.nat s.level) = some s := by
  have hlevel : (Json.nat s.level).natBelow? 256 = some s.level :=
    Json.natBelow?_eq_some_iff.2 ⟨by cases s <;> decide, rfl⟩
  rw [severityOf?, hlevel, Option.bind_some, Severity.ofLevel?_level]

theorem optional?_map {α : Type} {read : Json → Option α} {write : α → Json} {o : Option α}
    (h : ∀ a ∈ o, read (write a) = some a) (hnull : ∀ a ∈ o, write a ≠ .null) :
    optional? read (o.map write) = some o := by
  cases o with
  | none => rfl
  | some a =>
    have hread := h a rfl
    rw [Option.map_some, optional?, hread, Option.map_some]
    exact hnull a rfl

theorem lookup_knownFields (m : Message) :
    m.knownFields.lookup "ruleId" = some (Json.ofOption (m.ruleId.map .str)) ∧
      m.knownFields.lookup "severity" = some (.nat m.severity.level) ∧
      m.knownFields.lookup "message" = some (.str m.text) ∧
      m.knownFields.lookup "line" = some (.nat m.line) ∧
      m.knownFields.lookup "column" = some (.nat m.column) ∧
      m.knownFields.lookup "endLine" = m.endLine.map .nat ∧
      m.knownFields.lookup "endColumn" = m.endColumn.map .nat ∧
      m.knownFields.lookup "fix" = m.fix.map Fix.toJson := by
  simp [knownFields, List.lookup_append, Json.lookup_cons_ite, lookup_field]

theorem defaulted?_some {α : Type} (default : α) (read : Json → Option α) (j : Json) :
    defaulted? default read (some j) = read j := by
  rw [defaulted?]

theorem readFrom_knownFields (h : m.WellFormed) :
    readFrom (fun name => m.knownFields.lookup name) m.extra = some m := by
  have hrule : optional? Json.str? (some (Json.ofOption (m.ruleId.map .str))) = some m.ruleId := by
    cases m.ruleId <;> rfl
  have hendLine := optional?_map (fun n hn => word32?_nat (h.endLine n hn)) (by simp [Json.nat])
  have hendColumn := optional?_map (fun n hn => word32?_nat (h.endColumn n hn)) (by simp [Json.nat])
  have hfix := optional?_map (fun f hf => Fix.ofJson?_toJson (h.fix f hf).1 (h.fix f hf).2)
    (by simp [Fix.toJson])
  simp only [readFrom, m.lookup_knownFields, hrule, hendLine, hendColumn, hfix,
    defaulted?_some, severityOf?_level, word32?_nat h.line, word32?_nat h.column, Json.str?,
    Option.bind_eq_bind, Option.bind_some]

/-- The JSON form of a message that was read is read as this message. -/
theorem ofJson?_toJson_of_wellFormed (h : m.WellFormed) : ofJson? m.toJson = some m := by
  have hget : ∀ name ∈ knownNames, m.toFields.lookup name = m.knownFields.lookup name :=
    fun name hname => lookup_toFields h hname
  simp only [knownNames, List.forall_mem_cons] at hget
  rw [toJson, ofJson?, ofFields?_of_nodup (nodup_toFields h), extraOf_toFields h,
    ← readFrom_knownFields h]
  simp only [readFrom, hget]

end Message
end Inlay
