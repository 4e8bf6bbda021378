import Inlay.Config.Basic
import Inlay.Proofs.MessageForm
import Inlay.Proofs.Schemas

/-! Configurations that the schema accepts. Decoding one can fail in one place only: the schema
takes any number without a fraction for an indent width, and decoding wants an integer of a word. -/

namespace Inlay

namespace ParserInput

theorem ofName?_name (i : ParserInput) : ofName? i.name = some i := by
  cases i <;> rfl

theorem exists_ofName? {s : String} (h : s ∈ ["argument", "stdin"]) : ∃ i, ofName? s = some i := by
  simp only [List.mem_cons, List.not_mem_nil, or_false] at h
  rcases h with rfl | rfl
  · exact ⟨.argument, rfl⟩
  · exact ⟨.stdin, rfl⟩

end ParserInput

namespace IndentStyle

theorem ofName?_name (i : IndentStyle) : ofName? i.name = some i := by
  cases i <;> rfl

theorem exists_ofName? {s : String} (h : s ∈ ["nesting", "column"]) : ∃ i, ofName? s = some i := by
  simp only [List.mem_cons, List.not_mem_nil, or_false] at h
  rcases h with rfl | rfl
  · exact ⟨.nesting, rfl⟩
  · exact ⟨.column, rfl⟩

end IndentStyle

namespace Config

open Schema

/-- What the schema says about a configuration, and that it belongs to no directory. -/
structure WellFormed (c : Config) : Prop where
  parser : ∀ p ∈ c.parser, 1 ≤ p.command.length
  languages : ∀ s ∈ c.languages, 1 ≤ s.length
  indentWidth : c.indentWidth < Word.bound64
  linter : 1 ≤ c.linter.command.length
  baseDir : c.baseDir = none

/-! ## Parts of an accepted configuration -/

/-- Every field is known and is as its schema says. -/
def FieldsAccepted (fields : List (String × Schema)) (given : Json.Fields) : Prop :=
  ∀ f ∈ given, ∃ s, fields.lookup f.1 = some s ∧ Accepts s f.2

theorem FieldsAccepted.accepts_of_lookup {fields : List (String × Schema)} {given : Json.Fields}
    (h : FieldsAccepted fields given) {name : String} {s : Schema}
    (hs : fields.lookup name = some s) {v : Json} (hv : given.lookup name = some v) :
    Accepts s v := by
  obtain ⟨before, after, hgiven, -⟩ := List.lookup_eq_some_iff.1 hv
  obtain ⟨t, ht, haccepts⟩ := h (name, v) (by simp [hgiven])
  rw [hs, Option.some.injEq] at ht
  exact ht ▸ haccepts

/-- A field that decodes wherever its schema accepts it decodes, or has its default. -/
theorem FieldsAccepted.exists_fieldOr {fields : List (String × Schema)} {given : Json.Fields}
    (h : FieldsAccepted fields given) (name : String) {s : Schema} {α : Type} {P : α → Prop}
    {missing : α} {decode : Json → Option α} (hs : fields.lookup name = some s)
    (hmissing : P missing)
    (hdecode : ∀ v, Accepts s v → ∃ a, decode v = some a ∧ P a) :
    ∃ a, fieldOr (.obj given) name missing decode = some a ∧ P a := by
  have hget : (Json.obj given).get? name = given.lookup name := rfl
  rw [fieldOr, hget]
  cases hv : given.lookup name with
  | none => exact ⟨missing, rfl, hmissing⟩
  | some v => exact hdecode v (h.accepts_of_lookup hs hv)

theorem FieldsAccepted.exists_fieldOr_eq {fields : List (String × Schema)} {given : Json.Fields}
    (h : FieldsAccepted fields given) (name : String) {s : Schema} {α : Type} {missing : α}
    {decode : Json → Option α} (hs : fields.lookup name = some s)
    (hdecode : ∀ v, Accepts s v → ∃ a, decode v = some a) :
    ∃ a, fieldOr (.obj given) name missing decode = some a := by
  obtain ⟨a, ha, -⟩ := h.exists_fieldOr name (P := fun _ => True) hs trivial fun v hv => by
    obtain ⟨a, ha⟩ := hdecode v hv
    exact ⟨a, ha, trivial⟩
  exact ⟨a, ha⟩

theorem accepts_strings_iff {n : Nat} {v : Json} :
    Accepts (.array (.string n)) v ↔ ∃ ss, v = strings ss ∧ ∀ s ∈ ss, n ≤ s.length := by
  rw [accepts_array_iff]
  constructor
  · rintro ⟨js, rfl, hjs⟩
    induction js with
    | nil => exact ⟨[], rfl, by simp⟩
    | cons j js ih =>
      obtain ⟨hj, hrest⟩ := List.forall_mem_cons.1 hjs
      obtain ⟨s, rfl, hs⟩ := accepts_string_iff.1 hj
      obtain ⟨ss, hss, hlength⟩ := ih hrest
      rw [strings, Json.arr.injEq] at hss
      rw [hss]
      exact ⟨s :: ss, rfl, List.forall_mem_cons.2 ⟨hs, hlength⟩⟩
  · rintro ⟨ss, rfl, hss⟩
    refine ⟨ss.map .str, rfl, List.forall_mem_map.2 fun s hs => ?_⟩
    exact .string (hss s hs)

theorem stringsOf?_strings (ss : List String) : stringsOf? (strings ss) = some ss := by
  have hread : (strings ss).arr? = some (ss.map .str) := rfl
  rw [stringsOf?, hread, Option.bind_eq_bind, Option.bind_some, List.mapM_map]
  exact List.mapM_pure.trans (congrArg some (List.map_id ss))

theorem exists_stringsOf? {n : Nat} {v : Json} (h : Accepts (.array (.string n)) v) :
    ∃ ss, stringsOf? v = some ss ∧ ∀ s ∈ ss, n ≤ s.length := by
  obtain ⟨ss, rfl, hss⟩ := accepts_strings_iff.1 h
  exact ⟨ss, stringsOf?_strings ss, hss⟩

theorem FieldsAccepted.exists_strings {fields : List (String × Schema)} {given : Json.Fields}
    (h : FieldsAccepted fields given) (name : String) {n : Nat}
    (hs : fields.lookup name = some (.array (.string n))) :
    ∃ ss, fieldOr (.obj given) name [] stringsOf? = some ss ∧ ∀ s ∈ ss, n ≤ s.length :=
  h.exists_fieldOr name hs (by simp) fun _ hv => exists_stringsOf? hv

theorem FieldsAccepted.exists_command {fields : List (String × Schema)} {given : Json.Fields}
    (h : FieldsAccepted fields given) (hs : fields.lookup "command" = some (.string 1))
    (hrequired : ∀ name ∈ ["command"], (given.lookup name).isSome) :
    ∃ command, (Json.obj given).get? "command" = some (.str command) ∧ 1 ≤ command.length := by
  obtain ⟨v, hv⟩ := Option.isSome_iff_exists.1 (hrequired "command" List.mem_cons_self)
  obtain ⟨command, rfl, hcommand⟩ := accepts_string_iff.1 (h.accepts_of_lookup hs hv)
  exact ⟨command, hv, hcommand⟩

theorem exists_linterOf? {v : Json} (h : Accepts (.object commandFields ["command"]) v) :
    ∃ l, linterOf? v = some l ∧ 1 ≤ l.command.length := by
  obtain ⟨given, rfl, hgiven, hrequired⟩ := accepts_object_iff.1 h
  have hfields : FieldsAccepted commandFields given := hgiven
  obtain ⟨command, hget, hcommand⟩ := hfields.exists_command rfl hrequired
  obtain ⟨args, hargs, -⟩ := hfields.exists_strings "args" rfl
  refine ⟨⟨command, args⟩, ?_, hcommand⟩
  simp only [linterOf?, hget, hargs, Json.str?, Option.bind_eq_bind, Option.bind_some]

def parserFields : List (String × Schema) :=
  commandFields ++ [("input", .oneOf ["argument", "stdin"]),
    ("indentStyle", .oneOf ["nesting", "column"])]

theorem exists_parserOf? {v : Json} (h : Accepts (.object parserFields ["command"]) v) :
    ∃ p, parserOf? v = some p ∧ 1 ≤ p.command.length := by
  obtain ⟨given, rfl, hgiven, hrequired⟩ := accepts_object_iff.1 h
  have hfields : FieldsAccepted parserFields given := hgiven
  obtain ⟨command, hget, hcommand⟩ := hfields.exists_command rfl hrequired
  obtain ⟨args, hargs, -⟩ := hfields.exists_strings "args" rfl
  obtain ⟨input, hinput⟩ : ∃ i, fieldOr (.obj given) "input" .argument
      (fun v => v.str?.bind ParserInput.ofName?) = some i := by
    refine hfields.exists_fieldOr_eq "input" rfl fun v hv => ?_
    obtain ⟨s, rfl, hs⟩ := accepts_oneOf_iff.1 hv
    exact ParserInput.exists_ofName? hs
  obtain ⟨style, hstyle⟩ : ∃ i, fieldOr (.obj given) "indentStyle" .nesting
      (fun v => v.str?.bind IndentStyle.ofName?) = some i := by
    refine hfields.exists_fieldOr_eq "indentStyle" rfl fun v hv => ?_
    obtain ⟨s, rfl, hs⟩ := accepts_oneOf_iff.1 hv
    exact IndentStyle.exists_ofName? hs
  have hread : (Json.str command).str? = some command := rfl
  refine ⟨⟨command, args, input, style⟩, ?_, hcommand⟩
  simp only [parserOf?, hget, hargs, hinput, hstyle, hread, Option.bind_eq_bind,
    Option.bind_some]

/-! ## The whole -/

def width? (j : Json) : Option Nat := fieldOr j "indentWidth" 4 (Json.natBelow? Word.bound64)

/-- Of an accepted configuration everything decodes, except perhaps the indent width. -/
theorem exists_decode? {j : Json} (h : Accepts schema j) :
    ∃ c : Config, c.WellFormed ∧
      decode? j = (width? j).map fun width => { c with indentWidth := width } := by
  obtain ⟨given, rfl, hgiven, -⟩ := accepts_object_iff.1 h
  have hfields : FieldsAccepted _ given := hgiven
  obtain ⟨parser, hparser, hparserLength⟩ : ∃ p : Option ParserCommand,
      fieldOr (.obj given) "parser" none
        (fun v => if v.isNull then some none else (parserOf? v).map some) = some p ∧
      ∀ q ∈ p, 1 ≤ q.command.length := by
    refine hfields.exists_fieldOr "parser" rfl nofun fun v hv => ?_
    -- decoding would take null for no parser, but the schema wants an object
    obtain ⟨p, hp, hlength⟩ := exists_parserOf? hv
    obtain ⟨fields, rfl, -⟩ := accepts_object_iff.1 hv
    refine ⟨some p, ?_, fun q hq => Option.mem_some.1 hq ▸ hlength⟩
    rw [hp]
    rfl
  obtain ⟨languages, hlanguages, hlanguagesLength⟩ := hfields.exists_strings "languages" rfl
  obtain ⟨rules, hrules, -⟩ := hfields.exists_strings "unsatisfiableRules" rfl
  obtain ⟨fix, hfix⟩ : ∃ b, fieldOr (.obj given) "fix" true Json.bool? = some b := by
    refine hfields.exists_fieldOr_eq "fix" rfl fun v hv => ?_
    obtain ⟨b, rfl⟩ := accepts_boolean_iff.1 hv
    exact ⟨b, rfl⟩
  obtain ⟨linter, hlinter, hlinterLength⟩ : ∃ l,
      fieldOr (.obj given) "linter" .default linterOf? = some l ∧ 1 ≤ l.command.length :=
    hfields.exists_fieldOr "linter" rfl (by decide) fun v hv => exists_linterOf? hv
  obtain ⟨included, hincluded, -⟩ := hfields.exists_strings "include" rfl
  obtain ⟨excluded, hexcluded, -⟩ := hfields.exists_strings "exclude" rfl
  refine ⟨⟨parser, languages, rules, fix, 4, linter, included, excluded, none⟩,
    ⟨hparserLength, hlanguagesLength, (by decide : 4 < Word.bound64), hlinterLength, rfl⟩, ?_⟩
  simp only [decode?, hparser, hlanguages, hrules, hfix, hlinter, hincluded, hexcluded,
    Option.bind_eq_bind, Option.bind_some]
  rw [width?, Option.map_eq_bind]
  rfl

theorem width?_eq_none_iff {j : Json} :
    width? j = none ↔
      ∃ v, j.get? "indentWidth" = some v ∧ ∀ n < Word.bound64, v ≠ .nat n := by
  rw [width?, fieldOr]
  cases j.get? "indentWidth" with
  | none => simp
  | some v =>
    simp [Option.eq_none_iff_forall_ne_some, Json.natBelow?_eq_some_iff]

theorem lt_of_width? {j : Json} {n : Nat} (h : width? j = some n) : n < Word.bound64 := by
  rw [width?, fieldOr] at h
  cases hv : j.get? "indentWidth" with
  | none =>
    rw [hv] at h
    cases h
    decide
  | some v =>
    rw [hv] at h
    exact (Json.natBelow?_eq_some_iff.1 h).1

theorem ofJson_eq_ok_iff {j : Json} {c : Config} :
    ofJson j = .ok c ↔ Accepts schema j ∧ decode? j = some c := by
  rw [← check_eq_ok_iff, ofJson]
  cases schema.check j with
  | error v => simp
  | ok u => cases decode? j <;> simp

theorem ofJson_eq_undecodable_iff {j : Json} :
    ofJson j = .error .undecodable ↔ Accepts schema j ∧ decode? j = none := by
  rw [← check_eq_ok_iff, ofJson]
  cases schema.check j with
  | error v => simp
  | ok u => cases decode? j <;> simp

/-- A configuration that the schema accepts is refused when it is decoded exactly if its indent
width is no integer of a word, such as a number with a point. -/
theorem ofJson_refuses_accepted_iff (j : Json) :
    (ofJson j = .error .undecodable ↔ Accepts schema j ∧
        ∃ v, j.get? "indentWidth" = some v ∧ ∀ n < Word.bound64, v ≠ .nat n) ∧
      ((∃ c, ofJson j = .ok c) ↔ Accepts schema j ∧
        ∀ v, j.get? "indentWidth" = some v → ∃ n < Word.bound64, v = .nat n) := by
  have hnone : Accepts schema j → (decode? j = none ↔ width? j = none) := by
    intro h
    obtain ⟨c, -, hdecode⟩ := exists_decode? h
    rw [hdecode, Option.map_eq_none_iff]
  have hall : (∀ v, j.get? "indentWidth" = some v → ∃ n < Word.bound64, v = .nat n) ↔
      ¬ width? j = none := by
    simp only [width?_eq_none_iff, not_exists, not_and, not_forall, not_not, exists_prop]
  constructor
  · rw [ofJson_eq_undecodable_iff, ← width?_eq_none_iff]
    exact and_congr_right hnone
  · rw [hall]
    simp only [ofJson_eq_ok_iff, exists_and_left]
    refine and_congr_right fun h => ?_
    rw [← hnone h, ← Option.isSome_iff_exists, Option.isSome_iff_ne_none]

/-- The number that is written `4.0`. -/
def pointedFour : Number := .real ⟨false, 4503599627370496, -50⟩

theorem pointed_width_refused :
    Number.ofText? (Text.ofString "4.0") = some pointedFour ∧
      Accepts schema (.obj [("indentWidth", .num pointedFour)]) ∧
      ofJson (.obj [("indentWidth", .num pointedFour)]) = .error .undecodable := by
  refine ⟨by decide +kernel, check_eq_ok_iff.1 ?_, ?_⟩
  · rfl
  · rfl

end Config
end Inlay
