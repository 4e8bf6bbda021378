import Mathlib.Data.List.Infix
import Mathlib.Data.List.TakeWhile
import Inlay.Proofs.Enclosure

/-! Which comments are directives. A comment is a body between the delimiters of one style, with
nothing behind it but line breaks. It is a directive when its body, without the blanks at both ends,
starts with the word `eslint` or with `global` and a blank. The readers of comments and directives
find just these. -/

namespace Inlay

/-! ## Trimming -/

section

variable {α : Type} {p : α → Bool} {xs ys : List α}

theorem dropWhile_eq_iff :
    xs.dropWhile p = ys ↔
      ∃ front, xs = front ++ ys ∧ (∀ x ∈ front, p x = true) ∧ ∀ x ∈ ys.head?, p x = false := by
  refine ⟨fun h => ?_, fun h => ?_⟩
  · subst h
    refine ⟨xs.takeWhile p, List.takeWhile_append_dropWhile.symm,
      fun x => List.mem_takeWhile_imp, fun x hx => ?_⟩
    have hhead := List.head?_dropWhile_not p xs
    rwa [Option.mem_def.1 hx] at hhead
  · obtain ⟨front, rfl, hfront, hhead⟩ := h
    rw [List.dropWhile_append_of_pos hfront]
    cases ys with
    | nil => rfl
    | cons y ys => simp [hhead y rfl]

theorem reverse_dropWhile_reverse_eq_iff :
    (xs.reverse.dropWhile p).reverse = ys ↔
      ∃ back, xs = ys ++ back ∧ (∀ x ∈ back, p x = true) ∧ ∀ x ∈ ys.getLast?, p x = false := by
  rw [List.reverse_eq_iff, dropWhile_eq_iff]
  refine ⟨fun h => ?_, fun h => ?_⟩
  · obtain ⟨back, hxs, hback, hlast⟩ := h
    rw [List.head?_reverse] at hlast
    refine ⟨back.reverse, ?_, fun x hx => hback x (List.mem_reverse.1 hx), hlast⟩
    rw [← List.reverse_reverse xs, hxs, List.reverse_append, List.reverse_reverse]
  · obtain ⟨back, rfl, hback, hlast⟩ := h
    refine ⟨back.reverse, List.reverse_append, fun x hx => hback x (List.mem_reverse.1 hx), ?_⟩
    rwa [List.head?_reverse]

end

namespace Text

/-- The words are what is left of some characters without the blanks at both ends. -/
def Trimmed (cs words : List Char) : Prop :=
  ∃ front back, cs = front ++ words ++ back ∧ (∀ c ∈ front, isBlank c = true) ∧
    (∀ c ∈ back, isBlank c = true) ∧ (∀ c ∈ words.head?, isBlank c = false) ∧
    ∀ c ∈ words.getLast?, isBlank c = false

theorem trimChars_eq_iff {cs words : List Char} : trimChars cs = words ↔ Trimmed cs words := by
  have htrim : trimChars cs = words ↔ ∃ back, cs.dropWhile isBlank = words ++ back ∧
      (∀ c ∈ back, isBlank c = true) ∧ ∀ c ∈ words.getLast?, isBlank c = false :=
    reverse_dropWhile_reverse_eq_iff
  rw [htrim]
  refine ⟨fun h => ?_, fun h => ?_⟩
  · obtain ⟨back, hdrop, hback, hlast⟩ := h
    obtain ⟨front, hcs, hfront, hhead⟩ := dropWhile_eq_iff.1 hdrop
    refine ⟨front, back, by rw [hcs, List.append_assoc], hfront, hback, fun c hc => ?_, hlast⟩
    exact hhead c (List.mem_head?_append_of_mem_head? hc)
  · obtain ⟨front, back, rfl, hfront, hback, hhead, hlast⟩ := h
    cases words with
    | nil =>
      -- all is blank, and the front takes it
      refine ⟨[], ?_, by simp, hlast⟩
      simpa using fun c (hc : c ∈ front ∨ c ∈ back) => hc.elim (hfront c) (hback c)
    | cons c words =>
      refine ⟨back, dropWhile_eq_iff.2 ⟨front, List.append_assoc _ _ _, hfront, ?_⟩, hback, hlast⟩
      simpa using hhead

end Text

/-! ## Comments -/

namespace CommentStyle

/-- No text starts with the delimiters of two styles. -/
theorem eq_of_delimits_of_delimits {s s' : CommentStyle} {t : Text} (h : s.delimits t = true)
    (h' : s'.delimits t = true) : s = s' := by
  simp only [delimits, Bool.and_eq_true, List.isPrefixOf_iff_prefix] at h h'
  have hopenings := List.prefix_or_prefix_of_prefix h.1.1 h'.1.1
  revert hopenings
  cases s <;> cases s' <;> decide

theorem delimits_enclosed (s : CommentStyle) (body : Text) :
    s.delimits (s.opening ++ body ++ s.closing) = true := by
  have hopening : s.opening <+: s.opening ++ body ++ s.closing := by
    rw [List.append_assoc]
    exact List.prefix_append _ _
  have hclosing : s.closing <:+ s.opening ++ body ++ s.closing := List.suffix_append _ _
  simp only [delimits, Bool.and_eq_true, decide_eq_true_eq, List.isPrefixOf_iff_prefix,
    List.isSuffixOf_iff_suffix, List.length_append]
  exact ⟨⟨hopening, hclosing⟩, by omega⟩

theorem slice_enclosed (s : CommentStyle) (body : Text) :
    let t := s.opening ++ body ++ s.closing
    (t.drop s.opening.length).take (t.length - s.opening.length - s.closing.length) = body := by
  intro t
  have heq := eq_of_delimits (s.delimits_enclosed body)
  exact (List.append_cancel_left (List.append_cancel_right heq)).symm

end CommentStyle

namespace Comment

open Text (newline carriageReturn isLineBreak)

/-- The text is a comment with a body: `<!--` and `-->` around it, `/*` and `*/` around it, or `//`
in front of what is left of a line; and nothing but line breaks behind. -/
def Encloses (text body : Text) : Prop :=
  ∃ breaks, (∀ b ∈ breaks, b = newline ∨ b = carriageReturn) ∧
    (text = .ofString "<!--" ++ body ++ .ofString "-->" ++ breaks ∨
      text = .ofString "/*" ++ body ++ .ofString "*/" ++ breaks ∨
      text = .ofString "//" ++ body ++ breaks ∧ newline ∉ body ∧
        ∀ b ∈ body.getLast?, b ≠ carriageReturn)

theorem isLineBreak_iff {b : UInt8} : isLineBreak b = true ↔ b = newline ∨ b = carriageReturn := by
  simp [isLineBreak]

theorem core_eq_iff {t u : Text} :
    core t = u ↔ ∃ breaks, t = u ++ breaks ∧ (∀ b ∈ breaks, b = newline ∨ b = carriageReturn) ∧
      ∀ b ∈ u.getLast?, isLineBreak b = false := by
  simp only [← isLineBreak_iff]
  exact reverse_dropWhile_reverse_eq_iff

theorem style?_eq_some_iff {t : Text} {s : CommentStyle} :
    style? t = some s ↔ s.delimits (core t) = true ∧ (s = .line → newline ∉ core t) := by
  refine ⟨fun h => ⟨delimits_of_style? h, fun hline hmem => ?_⟩, fun h => ?_⟩
  · subst hline
    have hcontains : (core t).contains newline = true := List.contains_iff_mem.2 hmem
    unfold style? at h
    rw [hcontains, Bool.not_true, Bool.and_false] at h
    split at h
    · cases h
    · split at h <;> cases h
  · obtain ⟨hs, hline⟩ := h
    have hother : ∀ s', s' ≠ s → s'.delimits (core t) = false := fun s' hne =>
      Bool.eq_false_iff.2 fun hs' => hne (CommentStyle.eq_of_delimits_of_delimits hs' hs)
    cases s with
    | html => simp [style?, hs]
    | block => simp [style?, hs, hother .html]
    | line => simp [style?, hs, hother .html, hother .block, hline rfl]

theorem body?_eq_some_iff_core {t body : Text} :
    body? t = some body ↔ ∃ s : CommentStyle,
      core t = s.opening ++ body ++ s.closing ∧ (s = .line → newline ∉ body) := by
  refine ⟨fun h => ?_, fun h => ?_⟩
  · obtain ⟨s, hs, hcore⟩ := core_eq_of_body? h
    refine ⟨s, hcore, fun hline hmem => (style?_eq_some_iff.1 hs).2 hline ?_⟩
    simp [hcore, hmem]
  · obtain ⟨s, hcore, hline⟩ := h
    have hs : style? t = some s := by
      rw [style?_eq_some_iff, hcore]
      refine ⟨s.delimits_enclosed body, fun hs => ?_⟩
      subst hs
      have hopening : newline ∉ CommentStyle.line.opening := by decide
      simpa [CommentStyle.closing, hopening] using hline rfl
    rw [body?, hs, Option.map_some, hcore, s.slice_enclosed]

theorem isLineBreak_of_closed {s : CommentStyle} (hs : s ≠ .line) (body : Text) {b : UInt8}
    (hb : b ∈ (s.opening ++ body ++ s.closing).getLast?) : isLineBreak b = false := by
  have hclosing : ∃ c, s.closing.getLast? = some c ∧ isLineBreak c = false := by
    cases s with
    | html => exact ⟨62, by decide, by decide⟩
    | block => exact ⟨47, by decide, by decide⟩
    | line => exact absurd rfl hs
  obtain ⟨c, hc, hbreak⟩ := hclosing
  rw [List.getLast?_append, hc, Option.some_or] at hb
  obtain rfl := Option.some.inj hb
  exact hbreak

theorem isLineBreak_of_line {body : Text} (hnewline : newline ∉ body)
    (hlast : ∀ b ∈ body.getLast?, b ≠ carriageReturn) {b : UInt8}
    (hb : b ∈ (CommentStyle.line.opening ++ body).getLast?) : isLineBreak b = false := by
  rw [List.getLast?_append] at hb
  cases hbody : body.getLast? with
  | none =>
    rw [hbody, Option.none_or] at hb
    obtain rfl : 47 = b := Option.some.inj hb
    rfl
  | some c =>
    rw [hbody, Option.some_or] at hb
    obtain rfl := Option.some.inj hb
    have hne : c ≠ newline := fun h => hnewline (h ▸ List.mem_of_getLast? hbody)
    rw [Bool.eq_false_iff, Ne, isLineBreak_iff, not_or]
    exact ⟨hne, hlast c hbody⟩

/-- The body that is read is the one that the text encloses. -/
theorem body?_eq_some_iff {t body : Text} : body? t = some body ↔ Encloses t body := by
  rw [body?_eq_some_iff_core]
  refine ⟨fun h => ?_, fun h => ?_⟩
  · obtain ⟨s, hcore, hline⟩ := h
    obtain ⟨breaks, ht, hbreaks, hlast⟩ := core_eq_iff.1 hcore
    refine ⟨breaks, hbreaks, ?_⟩
    cases s with
    | html => exact Or.inl ht
    | block => exact Or.inr (Or.inl ht)
    | line =>
      rw [CommentStyle.closing, List.append_nil] at ht hlast
      refine Or.inr (Or.inr ⟨ht, hline rfl, fun b hb hreturn => ?_⟩)
      have hbreak := hlast b (List.mem_getLast?_append_of_mem_getLast? hb)
      rw [hreturn] at hbreak
      cases hbreak
  · obtain ⟨breaks, hbreaks, ht | ht | ⟨ht, hnewline, hlast⟩⟩ := h
    · refine ⟨.html, core_eq_iff.2 ⟨breaks, ht, hbreaks, fun b => ?_⟩, by simp⟩
      exact isLineBreak_of_closed (by decide) body
    · refine ⟨.block, core_eq_iff.2 ⟨breaks, ht, hbreaks, fun b => ?_⟩, by simp⟩
      exact isLineBreak_of_closed (by decide) body
    · refine ⟨.line, ?_, fun _ => hnewline⟩
      rw [CommentStyle.closing, List.append_nil]
      exact core_eq_iff.2 ⟨breaks, ht, hbreaks, fun b => isLineBreak_of_line hnewline hlast⟩

end Comment

/-! ## Directives -/

namespace Directive

open Text (isBlank isWordChar Trimmed)

/-- The words of a directive start with the word `eslint` or with `global` and a blank. -/
def Opens (words : List Char) : Prop :=
  (∃ rest, words = "eslint".toList ++ rest ∧ ∀ c ∈ rest.head?, isWordChar c = false) ∨
    ∃ c rest, words = "global".toList ++ c :: rest ∧ isBlank c = true

theorem isPrefixOf_and_drop_iff {word cs : List Char} {k : List Char → Bool} :
    (word.isPrefixOf cs && k (cs.drop word.length)) = true ↔
      ∃ rest, cs = word ++ rest ∧ k rest = true := by
  rw [Bool.and_eq_true, List.isPrefixOf_iff_prefix]
  refine ⟨fun h => ?_, fun h => ?_⟩
  · obtain ⟨⟨rest, rfl⟩, hk⟩ := h
    exact ⟨rest, rfl, by rwa [List.drop_left] at hk⟩
  · obtain ⟨rest, rfl, hk⟩ := h
    exact ⟨List.prefix_append _ _, by rwa [List.drop_left]⟩

theorem isDirective_iff {words : List Char} : isDirective words = true ↔ Opens words := by
  have hword : ∀ rest, endsWord rest = true ↔ ∀ c ∈ rest.head?, isWordChar c = false :=
    fun rest => by cases rest <;> simp [endsWord]
  have hblank : ∀ rest, startsBlank rest = true ↔ ∃ c rest', rest = c :: rest' ∧ isBlank c = true :=
    fun rest => by cases rest <;> simp [startsBlank]
  rw [isDirective, Bool.or_eq_true, isPrefixOf_and_drop_iff, isPrefixOf_and_drop_iff]
  simp only [hword, hblank]
  refine or_congr_right ⟨fun h => ?_, fun h => ?_⟩
  · obtain ⟨_, rfl, c, rest, rfl, hc⟩ := h
    exact ⟨c, rest, rfl, hc⟩
  · obtain ⟨c, rest, rfl, hc⟩ := h
    exact ⟨_, rfl, c, rest, rfl, hc⟩

/-- A comment is a directive with a body, of which the words are what is left without the blanks at
both ends. -/
structure Reads (text body : Text) (words : List Char) : Prop where
  encloses : Comment.Encloses text body
  trimmed : Trimmed body.charsLossy words
  opens : Opens words

theorem reads_iff {text body : Text} {words : List Char} :
    Reads text body words ↔
      Comment.body? text = some body ∧ Text.trimChars body.charsLossy = words ∧
        isDirective words = true := by
  rw [Comment.body?_eq_some_iff, Text.trimChars_eq_iff, isDirective_iff]
  exact ⟨fun ⟨h, h', h''⟩ => ⟨h, h', h''⟩, fun ⟨h, h', h''⟩ => ⟨h, h', h''⟩⟩

theorem ofBody?_eq_some_iff {body : Text} {d : Directive} :
    ofBody? body = some d ↔ isDirective (Text.trimChars body.charsLossy) = true ∧
      d = if Text.trimChars body.charsLossy = skipBody.toList then .skip else .config body := by
  simp only [ofBody?, Bool.not_eq_true']
  generalize Text.trimChars body.charsLossy = words
  generalize skipBody.toList = skipWords
  cases isDirective words with
  | false => simp
  | true => by_cases hskip : words = skipWords <;> simp [hskip, eq_comm]

/-- The directive that is read from a comment is to skip the script, or is the body as it stands. -/
theorem ofComment?_eq_some_iff {text : Text} {d : Directive} :
    ofComment? text = some d ↔ ∃ body words, Reads text body words ∧
      d = if words = skipBody.toList then .skip else .config body := by
  simp only [ofComment?, Option.bind_eq_some_iff, ofBody?_eq_some_iff, reads_iff]
  refine ⟨fun h => ?_, fun h => ?_⟩
  · obtain ⟨body, hbody, hdirective, hd⟩ := h
    exact ⟨body, _, ⟨hbody, rfl, hdirective⟩, hd⟩
  · obtain ⟨body, _, ⟨hbody, rfl, hdirective⟩, hd⟩ := h
    exact ⟨body, hbody, hdirective, hd⟩

end Directive
end Inlay
