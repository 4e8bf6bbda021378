import Mathlib
import Inlay.Command.Linter
import Inlay.Proofs.Boundary

/-! What counts as a report of a linter that failed. Output is usable when it is UTF-8 and holds a
JSON value that is a list of reports or a list of messages. Without usable output the failure is
reported, with one gap: output is taken for empty before it is read only if all its bytes are ASCII
blanks, but what is blank in any other way, such as a vertical tab or a no-break space, holds no
messages when it is read. So a linter that fails and prints such blanks passes for one that found
nothing. -/

namespace Inlay

/-! ## Blank texts -/

namespace Text

theorem isBlankText_cons_of_lt {b : UInt8} (h : b < 0x80) (t : Text) :
    isBlankText (b :: t) = (isBlank (Char.ofNat b.toNat) && t.isBlankText) := by
  rw [isBlankText, charsLossy, pieces_cons_of_lt h]
  rfl

theorem isBlankText_of_isAsciiBlank {t : Text} (h : ∀ b ∈ t, isAsciiBlank b = true) :
    t.isBlankText = true := by
  have hbyte : ∀ b, isAsciiBlank b = true → b < 0x80 ∧ isBlank (Char.ofNat b.toNat) = true := by
    intro b hb
    simp only [isAsciiBlank, Bool.or_eq_true, beq_iff_eq] at hb
    rcases hb with (((rfl | rfl) | rfl) | rfl) | rfl <;> decide
  induction t with
  | nil => simp [isBlankText, charsLossy, pieces, piecesOnto]
  | cons b t ih =>
    obtain ⟨hb, ht⟩ := List.forall_mem_cons.1 h
    obtain ⟨hlt, hblank⟩ := hbyte b hb
    rw [isBlankText_cons_of_lt hlt, hblank, ih ht, Bool.and_self]

/-- The text is blank, but not by ASCII blanks alone. -/
def IsWideBlank (t : Text) : Prop :=
  t.isUtf8 = true ∧ t.isBlankText = true ∧ ∃ b ∈ t, isAsciiBlank b = false

end Text

namespace RawJson

theorem Lexer.start_of_blank {b : UInt8} (h : b < 0x80 → Text.isBlank (Char.ofNat b.toNat) = true) :
    start [] b = none ∨ b < 0x80 ∧ start [] b = some {} := by
  have hall : ∀ n < 256, (n < 128 → Text.isBlank (Char.ofNat n) = true) →
      (start [] (UInt8.ofNat n)).isNone = true ∨ n < 128 ∧ isSpace (UInt8.ofNat n) = true := by
    decide +kernel
  have hb := hall b.toNat b.toNat_lt fun hlt => h (UInt8.lt_iff_toNat_lt.2 hlt)
  rw [UInt8.ofNat_toNat] at hb
  rcases hb with hnone | ⟨hlt, hspace⟩
  · exact Or.inl (Option.isNone_iff_eq_none.1 hnone)
  · rw [start, if_pos hspace]
    exact Or.inr ⟨UInt8.lt_iff_toNat_lt.2 hlt, rfl⟩

theorem foldlM_step_of_blank {t : Text} (h : t.isBlankText = true) :
    t.foldlM Lexer.step {} = none ∨ t.foldlM Lexer.step {} = some {} := by
  induction t with
  | nil => exact Or.inr rfl
  | cons b t ih =>
    have hblank : b < 0x80 →
        Text.isBlank (Char.ofNat b.toNat) = true ∧ Text.isBlankText t = true := by
      intro hb
      rwa [Text.isBlankText_cons_of_lt hb, Bool.and_eq_true] at h
    have hstep : Lexer.step {} b = Lexer.start [] b := rfl
    rw [List.foldlM_cons, hstep]
    rcases Lexer.start_of_blank fun hb => (hblank hb).1 with hstart | ⟨hb, hstart⟩
    · rw [hstart]
      exact Or.inl rfl
    · rw [hstart]
      exact ih (hblank hb).2

theorem ofText?_of_blank {t : Text} (h : t.isBlankText = true) : ofText? t = none := by
  unfold ofText? tokens?
  rcases foldlM_step_of_blank h with hfold | hfold <;> rw [hfold] <;> rfl

end RawJson

/-! ## Reports -/

namespace LinterOutput

/-- The value is a list of reports with these messages, or else a list of these messages. -/
def Holds (j : Json) (ms : List Message) : Prop :=
  (∃ reports, reportsOf? j = some reports ∧ reports.flatten = ms) ∨
    (reportsOf? j = none ∧ Message.listOfJson? j = some ms)

/-- The text is UTF-8 and holds a JSON value with these messages. -/
def Reports (t : Text) (ms : List Message) : Prop :=
  t.isUtf8 = true ∧ ∃ j, Json.ofText? t = some j ∧ Holds j ms

theorem ofJson?_eq_some_iff {j : Json} {ms : List Message} :
    ofJson? j = some ms ↔ Holds j ms := by
  unfold ofJson? Holds
  cases reportsOf? j <;> simp

theorem not_reports_of_blank {t : Text} (h : t.isBlankText = true) (ms : List Message) :
    ¬ Reports t ms := by
  rintro ⟨-, j, hj, -⟩
  rw [Json.ofText?, RawJson.ofText?_of_blank h] at hj
  cases hj

theorem ofText_eq_ok_iff {t : Text} {ms : List Message} :
    ofText t = .ok ms ↔
      Reports t ms ∨ t.isUtf8 = true ∧ t.isBlankText = true ∧ ms = [] := by
  by_cases hblank : t.isBlankText = true
  · have hno := not_reports_of_blank hblank ms
    unfold ofText
    cases t.isUtf8 <;> simp [hblank, hno, eq_comm]
  · unfold ofText Reports
    simp only [← ofJson?_eq_some_iff]
    cases t.isUtf8 with
    | false => simp
    | true =>
      cases Json.ofText? t with
      | none => simp [hblank]
      | some j => cases hj : ofJson? j <;> simp [hblank, hj]

theorem Reports.exists_not_isAsciiBlank {t : Text} {ms : List Message} (h : Reports t ms) :
    ∃ b ∈ t, Text.isAsciiBlank b = false := by
  cases hall : t.all Text.isAsciiBlank with
  | false => simpa using hall
  | true =>
    have hblank := Text.isBlankText_of_isAsciiBlank (List.all_eq_true.1 hall)
    exact absurd h (not_reports_of_blank hblank ms)

end LinterOutput

/-! ## Failing linters -/

namespace LinterCommand

variable {program : String} {o : Outcome} {ms : List Message}

/-- A linter that failed has a result when its output is not empty and can be read. -/
theorem messagesOf_eq_ok_iff (hfail : o.status.isSuccess = false) :
    messagesOf program o = .ok ms ↔
      (∃ b ∈ o.stdout, Text.isAsciiBlank b = false) ∧ LinterOutput.ofText o.stdout = .ok ms := by
  unfold messagesOf
  by_cases hempty : o.stdout.all Text.isAsciiBlank = true
  · have hall : ¬ ∃ b ∈ o.stdout, Text.isAsciiBlank b = false := by simpa using hempty
    simp [hfail, hempty, hall]
  · have hsome : ∃ b ∈ o.stdout, Text.isAsciiBlank b = false := by simpa using hempty
    cases hread : LinterOutput.ofText o.stdout <;> simp [hfail, hempty, hsome]

theorem messagesOf_eq_error (hfail : o.status.isSuccess = false) {e : LintError}
    (h : messagesOf program o = .error e) : e = .failed program o.status o.complaint := by
  unfold messagesOf at h
  rw [hfail, Bool.not_false, Bool.true_and] at h
  split at h
  · exact (Except.error.inj h).symm
  · cases hread : LinterOutput.ofText o.stdout with
    | ok ms => simp [hread] at h
    | error fault =>
      rw [hread] at h
      exact (Except.error.inj h).symm

/-- Of a linter that ran and failed: its messages are those of the report in its output, or none
where the output is blank in a way that ASCII blanks are not, and otherwise its failure is the
error. So the messages always come from a report exactly when the output is not of that kind. -/
theorem lint_of_failed_iff (c : LinterCommand) (runner : Runner) (source : Text) (o : Outcome)
    (hrun : runner.run c.command (c.args.map Text.ofString) source = .ok o)
    (hfail : o.status.isSuccess = false) :
    (∀ ms, c.lint runner source = .ok ms ↔
      LinterOutput.Reports o.stdout ms ∨ o.stdout.IsWideBlank ∧ ms = []) ∧
    ((∀ ms, c.lint runner source = .ok ms → LinterOutput.Reports o.stdout ms) ↔
      ¬ o.stdout.IsWideBlank) ∧
    ∀ e, c.lint runner source = .error e → e = .failed c.command o.status o.complaint := by
  have hlint : c.lint runner source = messagesOf c.command o := by rw [lint, hrun]
  have hok : ∀ ms, c.lint runner source = .ok ms ↔
      LinterOutput.Reports o.stdout ms ∨ o.stdout.IsWideBlank ∧ ms = [] := by
    intro ms
    rw [hlint, messagesOf_eq_ok_iff hfail, LinterOutput.ofText_eq_ok_iff]
    constructor
    · rintro ⟨hsome, hreports | ⟨hutf8, hblank, hms⟩⟩
      · exact Or.inl hreports
      · exact Or.inr ⟨⟨hutf8, hblank, hsome⟩, hms⟩
    · rintro (hreports | ⟨⟨hutf8, hblank, hsome⟩, hms⟩)
      · exact ⟨hreports.exists_not_isAsciiBlank, Or.inl hreports⟩
      · exact ⟨hsome, Or.inr ⟨hutf8, hblank, hms⟩⟩
  refine ⟨hok, ?_, ?_⟩
  · constructor
    · intro h hwide
      exact LinterOutput.not_reports_of_blank hwide.2.1 [] (h [] ((hok []).2 (Or.inr ⟨hwide, rfl⟩)))
    · intro hno ms hms
      exact ((hok ms).1 hms).resolve_right fun hwide => hno hwide.1
  · intro e he
    rw [hlint] at he
    exact messagesOf_eq_error hfail he

def printing (status : Nat) (stdout : Text) : Runner := fun _ _ _ => .ok ⟨.code status, stdout, []⟩

def oneMessage : Text := Text.ofString "[\x7b\"message\":\"m\"\x7d]"

/-- A linter that fails because it found something. -/
theorem lint_of_failed_report :
    let found : Message := ⟨none, .error, "m", 0, 0, none, none, none, []⟩
    ¬ oneMessage.IsWideBlank ∧ LinterOutput.Reports oneMessage [found] ∧
      default.lint (printing 1 oneMessage) [] = .ok [found] := by
  intro found
  have hletters : oneMessage.isBlankText = false := by cbv
  have hnot : ¬ oneMessage.IsWideBlank := by
    rintro ⟨-, hblank, -⟩
    rw [hletters] at hblank
    cases hblank
  have hraw : RawJson.ofText? oneMessage =
      some (.array [.object [(Text.ofString "message", .string (Text.ofString "m"))]]) := by rfl
  have hplain : ∀ {t : Text}, RawJson.unescapeOnto [] t = some t →
      RawJson.stringOf? t = t.toString? := by
    intro t ht
    rw [RawJson.stringOf?, ht, Option.bind_some]
  have hname : RawJson.stringOf? (Text.ofString "message") = some "message" := by
    rw [hplain rfl]
    cbv
  have htext : RawJson.stringOf? (Text.ofString "m") = some "m" := by
    rw [hplain rfl]
    cbv
  have hjson : Json.ofText? oneMessage = some (.arr [.obj [("message", .str "m")]]) := by
    simp [Json.ofText?, hraw, RawJson.toJson?, RawJson.itemsToJson?, RawJson.fieldsToJson?,
      RawJson.maxDepth, hname, htext]
  have hreports : LinterOutput.Reports oneMessage [found] :=
    ⟨by cbv, _, hjson, Or.inr ⟨rfl, rfl⟩⟩
  obtain ⟨hok, -, -⟩ :=
    lint_of_failed_iff default (printing 1 oneMessage) [] ⟨.code 1, oneMessage, []⟩ rfl rfl
  exact ⟨hnot, hreports, (hok [found]).2 (Or.inl hreports)⟩

/-- A linter that fails and prints a no-break space has found nothing. -/
theorem lint_passes_wide_blank :
    ¬ ∀ (c : LinterCommand) (runner : Runner) (source : Text) (o : Outcome) (ms : List Message),
      runner.run c.command (c.args.map Text.ofString) source = .ok o →
      o.status.isSuccess = false → c.lint runner source = .ok ms →
      LinterOutput.Reports o.stdout ms := by
  intro h
  have hlint : default.lint (printing 1 [0xC2, 0xA0]) [] = .ok [] := by cbv
  have hreports := h default (printing 1 [0xC2, 0xA0]) [] ⟨.code 1, [0xC2, 0xA0], []⟩ [] rfl rfl
    hlint
  exact LinterOutput.not_reports_of_blank (by cbv) [] hreports

end LinterCommand
end Inlay
