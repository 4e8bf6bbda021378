import Inlay.Proofs.ConfigForm
import Inlay.Proofs.RelaxedReading

/-! Configurations as they are printed. -/

namespace Inlay
namespace Config

open Schema

variable {c : Config}

/-! ## The JSON form -/

theorem isIntegral_strings (ss : List String) : (strings ss).IsIntegral := by
  rw [strings, Json.isIntegral_arr_iff, List.forall_mem_map]
  exact fun s _ => Json.isIntegral_str s

theorem canonical_strings (ss : List String) : (strings ss).canonical = strings ss := by
  rw [strings, Json.canonical_arr, List.map_map]
  rfl

theorem linterOf?_linterToJson (l : LinterCommand) : linterOf? (linterToJson l) = some l := by
  have hcommand : (linterToJson l).get? "command" = some (.str l.command) := by
    simp [linterToJson, Json.get?, Json.lookup_cons_ite]
  have hargs : (linterToJson l).get? "args" = some (strings l.args) := by
    simp [linterToJson, Json.get?]
  simp [linterOf?, fieldOr, hcommand, hargs, stringsOf?_strings, Json.str?]

theorem parserOf?_parserToJson (p : ParserCommand) : parserOf? (parserToJson p) = some p := by
  have hget : (parserToJson p).get? "command" = some (.str p.command) ∧
      (parserToJson p).get? "args" = some (strings p.args) ∧
      (parserToJson p).get? "input" = some (.str p.input.name) ∧
      (parserToJson p).get? "indentStyle" = some (.str p.indentStyle.name) := by
    simp [parserToJson, Json.get?, Json.lookup_cons_ite]
  simp [parserOf?, fieldOr, hget, stringsOf?_strings, Json.str?, ParserInput.ofName?_name,
    IndentStyle.ofName?_name]

theorem get?_toJson (c : Config) :
    c.toJson.get? "exclude" = some (strings c.excluded) ∧
      c.toJson.get? "fix" = some (.bool c.fix) ∧
      c.toJson.get? "include" = some (strings c.included) ∧
      c.toJson.get? "indentWidth" = some (.nat c.indentWidth) ∧
      c.toJson.get? "languages" = some (strings c.languages) ∧
      c.toJson.get? "linter" = some (linterToJson c.linter) ∧
      c.toJson.get? "parser" = c.parser.map parserToJson ∧
      c.toJson.get? "unsatisfiableRules" = some (strings c.unsatisfiableRules) := by
  cases hp : c.parser <;>
    simp [toJson, hp, Json.get?, Json.lookup_cons_ite]

theorem decode?_toJson (h : c.WellFormed) : decode? c.toJson = some c := by
  obtain ⟨parser, languages, rules, fix, width, linter, included, excluded, baseDir⟩ := c
  have hbase : baseDir = none := h.baseDir
  have hwidth : (Json.nat width).natBelow? Word.bound64 = some width :=
    Json.natBelow?_eq_some_iff.2 ⟨h.indentWidth, rfl⟩
  cases parser with
  | none =>
    simp only [decode?, fieldOr, get?_toJson]
    simp [stringsOf?_strings, linterOf?_linterToJson, hwidth, hbase, Json.bool?]
  | some p =>
    simp only [decode?, fieldOr, get?_toJson]
    have hnull : (parserToJson p).isNull = false := rfl
    simp [stringsOf?_strings, linterOf?_linterToJson, parserOf?_parserToJson, hwidth, hbase, hnull,
      Json.bool?]

theorem accepts_strings {n : Nat} {ss : List String} (h : ∀ s ∈ ss, n ≤ s.length) :
    Accepts (.array (.string n)) (strings ss) :=
  accepts_strings_iff.2 ⟨ss, rfl, h⟩

theorem accepts_texts (ss : List String) : Accepts texts (strings ss) :=
  accepts_strings fun _ _ => Nat.zero_le _

theorem accepts_linterToJson {l : LinterCommand} (h : 1 ≤ l.command.length) :
    Accepts (.object commandFields ["command"]) (linterToJson l) := by
  refine accepts_object_iff.2 ⟨_, rfl, ?_, by simp⟩
  simp only [List.forall_mem_cons, List.not_mem_nil, false_implies, implies_true, and_true]
  exact ⟨⟨_, rfl, accepts_texts _⟩, ⟨_, rfl, .string h⟩⟩

theorem accepts_parserToJson {p : ParserCommand} (h : 1 ≤ p.command.length) :
    Accepts (.object parserFields ["command"]) (parserToJson p) := by
  refine accepts_object_iff.2 ⟨_, rfl, ?_, by simp⟩
  simp only [List.forall_mem_cons, List.not_mem_nil, false_implies, implies_true, and_true]
  refine ⟨⟨_, rfl, accepts_texts _⟩, ⟨_, rfl, .string h⟩, ⟨_, rfl, .oneOf ?_⟩, ⟨_, rfl, .oneOf ?_⟩⟩
  · cases p.indentStyle <;> decide
  · cases p.input <;> decide

theorem accepts_toJson (h : c.WellFormed) : Accepts schema c.toJson := by
  have hwidth : Accepts (.integer 0) (.nat c.indentWidth) := by
    refine .integer rfl ?_
    simp [Number.isBelow]
  have hparser : ∀ f ∈ (c.parser.map fun p => ("parser", parserToJson p)).toList,
      f.1 = "parser" ∧ Accepts (.object parserFields ["command"]) f.2 := by
    cases hp : c.parser with
    | none => nofun
    | some p =>
      rw [Option.map_some, Option.toList_some, List.forall_mem_singleton]
      exact ⟨rfl, accepts_parserToJson (h.parser p hp)⟩
  refine accepts_object_iff.2 ⟨_, rfl, ?_, by simp⟩
  simp only [List.forall_mem_append, List.forall_mem_cons, List.not_mem_nil, false_implies,
    implies_true, and_true]
  refine ⟨⟨⟨⟨_, rfl, accepts_texts _⟩, ⟨_, rfl, .boolean _⟩, ⟨_, rfl, accepts_texts _⟩,
    ⟨_, rfl, hwidth⟩, ⟨_, rfl, accepts_strings h.languages⟩,
    ⟨_, rfl, accepts_linterToJson h.linter⟩⟩, ?_⟩, ⟨_, rfl, accepts_texts _⟩⟩
  intro f hf
  rw [(hparser f hf).1]
  exact ⟨_, rfl, (hparser f hf).2⟩

/-- The JSON form of a configuration is accepted and read as this configuration. -/
theorem ofJson_toJson (h : c.WellFormed) : ofJson c.toJson = .ok c :=
  ofJson_eq_ok_iff.2 ⟨accepts_toJson h, decode?_toJson h⟩

theorem isIntegral_toJson (h : c.WellFormed) : c.toJson.IsIntegral := by
  have hlinter : (linterToJson c.linter).IsIntegral := by
    simp [linterToJson, Json.isIntegral_obj_iff, isIntegral_strings]
  have hparser : ∀ p : ParserCommand, (parserToJson p).IsIntegral := by
    intro p
    simp [parserToJson, Json.isIntegral_obj_iff, isIntegral_strings]
  have hwidth : (Json.nat c.indentWidth).IsIntegral := by
    rw [Json.isIntegral_nat_iff]
    exact Nat.le_of_lt_succ h.indentWidth
  rw [toJson, Json.isIntegral_obj_iff]
  cases c.parser <;> simp [isIntegral_strings, hlinter, hparser, hwidth]

theorem canonical_linterToJson (l : LinterCommand) :
    (linterToJson l).canonical = linterToJson l :=
  Json.canonical_obj_of_sorted
    (List.pairwise_map.1 (by decide : ["args", "command"].Pairwise (· < ·)))
    (by simp [canonical_strings, Json.canonical])

theorem canonical_parserToJson (p : ParserCommand) :
    (parserToJson p).canonical = parserToJson p :=
  Json.canonical_obj_of_sorted
    (List.pairwise_map.1
      (by decide : ["args", "command", "indentStyle", "input"].Pairwise (· < ·)))
    (by simp [canonical_strings, Json.canonical])

theorem canonical_toJson (c : Config) : c.toJson.canonical = c.toJson := by
  have hnames : ["exclude", "fix", "include", "indentWidth", "languages", "linter", "parser",
      "unsatisfiableRules"].Pairwise (· < ·) := by decide
  rw [toJson]
  apply Json.canonical_obj_of_sorted
  · apply List.pairwise_map.1
    cases c.parser with
    | none =>
      have hsublist : ["exclude", "fix", "include", "indentWidth", "languages", "linter",
          "unsatisfiableRules"].Sublist ["exclude", "fix", "include", "indentWidth", "languages",
            "linter", "parser", "unsatisfiableRules"] := by decide
      exact hnames.sublist hsublist
    | some p => exact hnames
  · cases c.parser <;>
      simp [canonical_strings, canonical_linterToJson, canonical_parserToJson, Json.canonical,
        Json.nat]

/-! ## Texts -/

theorem wellFormed_of_ofJson {j : Json} (h : ofJson j = .ok c) : c.WellFormed := by
  obtain ⟨haccepts, hdecode⟩ := ofJson_eq_ok_iff.1 h
  obtain ⟨d, hd, heq⟩ := exists_decode? haccepts
  rw [heq, Option.map_eq_some_iff] at hdecode
  obtain ⟨width, hwidth, rfl⟩ := hdecode
  exact ⟨hd.parser, hd.languages, lt_of_width? hwidth, hd.linter, hd.baseDir⟩

theorem ofText_of_relaxed {t : Text} {j : Json} (h : Relaxed.ofText? t = some (some j)) :
    ofText t = ofJson j := by
  rw [ofText, h]
  rfl

/-- The JSON form of an accepted configuration, with its fields in any order and on one line or
several, is accepted and read as this configuration, and so is every other text that is read as this
value. -/
theorem ofText_toJson_reads_back {t : Text} {c : Config} (h : ofText t = .ok c) :
    c.baseDir = none ∧
      (∀ k : Json, k.IsReordering c.toJson → ∀ s ∈ [k.compact, k.pretty],
        ofText (Text.ofString s) = .ok c) ∧
      ∀ u : Text, Relaxed.ofText? u = some (some c.toJson) → ofText u = .ok c := by
  have hc : c.WellFormed := by
    rw [ofText] at h
    split at h
    · cases h
    · exact wellFormed_of_ofJson h
  have hread : ∀ u : Text, Relaxed.ofText? u = some (some c.toJson) → ofText u = .ok c := by
    intro u hu
    rw [ofText_of_relaxed hu, ofJson_toJson hc]
  refine ⟨hc.baseDir, ?_, hread⟩
  rintro k ⟨hdistinct, hcanonical⟩ s hs
  rw [canonical_toJson] at hcanonical
  have hint : k.IsIntegral := by
    apply Json.isIntegral_of_canonical hdistinct
    rw [hcanonical]
    exact isIntegral_toJson hc
  have hspells : Json.Spells k.lexemes s.toList := by
    simp only [List.mem_cons, List.not_mem_nil, or_false] at hs
    rcases hs with rfl | rfl
    · exact (Json.spelling_compact k).spells
    · exact (Json.spelling_prettyAt k 0).spells
  apply hread
  rw [Text.ofString_eq_ofChars, Relaxed.ofText?_of_spells hint hspells, hcanonical]

def sparseJson : Json :=
  .obj [("parser", .obj [("input", .str "stdin"), ("command", .str "md")]), ("$schema", .str ""),
    ("indentWidth", .nat 16), ("languages", .arr [.str "js", .str "a\n"]),
    ("linter", .obj [("command", .str "lint")])]

def sparse : Config :=
  ⟨some ⟨"md", [], .stdin, .nesting⟩, ["js", "a\n"], [], true, 16, ⟨"lint", []⟩, [], [], none⟩

theorem ofText_sparse : ofText (Text.ofString sparseJson.pretty) = .ok sparse := by
  have hint : sparseJson.IsIntegral := by
    simp [sparseJson, Json.isIntegral_obj_iff, Json.isIntegral_arr_iff, Json.isIntegral_nat_iff,
      Number.maxWord]
  have hread := Relaxed.ofText?_of_spells hint (Json.spelling_prettyAt sparseJson 0).spells
  rw [Text.ofString_eq_ofChars, Json.pretty, ofText_of_relaxed hread]
  rfl

theorem ofText_toJson_reads_back_sparse :
    ofText (Text.ofString sparseJson.pretty) = .ok sparse ∧ sparse.baseDir = none ∧
      (∀ k : Json, k.IsReordering sparse.toJson →
        ofText (Text.ofString k.compact) = .ok sparse) ∧
      ofText (Text.ofString sparse.toJson.compact) = .ok sparse := by
  obtain ⟨hbase, hprinted, -⟩ := ofText_toJson_reads_back ofText_sparse
  have hcompact : ∀ k : Json, k.IsReordering sparse.toJson →
      ofText (Text.ofString k.compact) = .ok sparse :=
    fun k hk => hprinted k hk k.compact List.mem_cons_self
  have hself := Json.isReordering_canonical sparse.toJson
  rw [canonical_toJson] at hself
  exact ⟨ofText_sparse, hbase, hcompact, hcompact _ hself⟩

end Config
end Inlay
