import Inlay.Proofs.Monotonicity

/-! Tables by indentation. Where code is cut out of a document by taking up to a fixed number of
spaces and tabs from each line, what a line loses can be read off the document line alone. The
table built this way goes on for all lines of the location, and the table of the block stops with
its code, but on the offsets of the code both say the same. It makes no difference that a line
ending's `\r` is set aside before lines are compared, since indentation never reaches it. -/

namespace Inlay

open Text (linesLength)

namespace Text

def isIndent (b : UInt8) : Bool := b == 0x20 || b == 0x9

/-- How many bytes a line loses to an indentation of `n`. -/
def indentOf (n : Nat) (l : Text) : Nat := min n (l.takeWhile isIndent).length

def outdent (n : Nat) (l : Text) : Text := l.drop (indentOf n l)

theorem length_outdent (n : Nat) (l : Text) : (outdent n l).length = l.length - indentOf n l :=
  List.length_drop

theorem indentOf_le_length (n : Nat) (l : Text) : indentOf n l ≤ l.length :=
  (Nat.min_le_right _ _).trans (List.takeWhile_prefix _).length_le

theorem indentOf_le_stripReturn (n : Nat) (l : Text) : indentOf n l ≤ l.stripReturn.length := by
  rcases eq_stripReturn_or l with h | h
  · rw [← h]
    exact indentOf_le_length n l
  · refine (Nat.min_le_right _ _).trans ?_
    have hreturn : [carriageReturn].takeWhile isIndent = [] := rfl
    rw [h, stripReturn_append_return, List.takeWhile_append, hreturn]
    split
    · simp
    · exact (List.takeWhile_prefix _).length_le

theorem outdent_notMem_newline {t l : Text} (n : Nat) (h : l ∈ t.lines) : newline ∉ outdent n l :=
  fun hmem => newline_notMem_of_mem_lines h (List.mem_of_mem_drop hmem)

theorem lines_of_notMem {l : Text} (h : newline ∉ l) : l.lines = [l] := by
  obtain ⟨m, ms, hms⟩ := exists_lines_eq_cons l
  have hlen := length_lines l
  rw [List.count_eq_zero.2 h, hms, List.length_cons] at hlen
  obtain rfl : ms = [] := List.length_eq_zero_iff.1 (by omega)
  rcases append_break_of_lines hms with ⟨-, rfl⟩ | ⟨u, rfl⟩
  · exact hms
  · simp at h

theorem lines_unlines_of_notMem {ls : List Text} (hne : ls ≠ []) (h : ∀ l ∈ ls, newline ∉ l) :
    (unlines ls).lines = ls := by
  obtain ⟨l, rest, rfl⟩ := List.exists_cons_of_ne_nil hne
  rw [lines_unlines, List.flatMap_congr fun m hm => lines_of_notMem (h m hm)]
  simp

end Text

namespace RangeMap

def indentEntry (n extracted document : Nat) (raw : Text) : RangeEntry :=
  ⟨extracted, (document + Text.indentOf n raw : Nat) - (extracted : Int)⟩

/-- The entries of lines that lose an indentation of up to `n`. Both cursors pass over what is left
of a line and its line break. -/
def indentEntries (n extracted document : Nat) : List Text → List RangeEntry
  | [] => []
  | raw :: raws =>
    indentEntry n extracted document raw ::
      indentEntries n (extracted + (raw.length - Text.indentOf n raw) + 1)
        (document + raw.length + 1) raws

/-- The table of a block by indentation: the sentinel, then an entry for each line of the location
after the first. -/
def indentTable (n : Nat) (loc : Location) (raw : Text) (comments : List Text) : RangeMap :=
  ⟨sentinel :: indentEntries n (commentLength comments)
    (loc.start.offset + (raw.lines.headD []).length + 1) raw.lines.tail⟩

/-! ## Lines -/

theorem lineFits_outdent (n : Nat) (raw : Text) : LineFits raw (Text.outdent n raw) := by
  unfold LineFits Text.outdent
  rw [Text.stripReturn_drop]
  exact List.drop_suffix _ _

theorem lineEntry_outdent (n x d : Nat) (raw : Text) :
    lineEntry x d raw (Text.outdent n raw) = indentEntry n x d raw := by
  have hle := Text.indentOf_le_stripReturn n raw
  have htrim : raw.stripReturn.length - (Text.outdent n raw).stripReturn.length =
      Text.indentOf n raw := by
    rw [Text.outdent, Text.stripReturn_drop, List.length_drop]
    omega
  rw [lineEntry, htrim, indentEntry]

theorem alignLines_outdent (n x d : Nat) (raws left : List Text) :
    alignLines x d (raws ++ left) (raws.map (Text.outdent n)) =
      some (indentEntries n x d raws) := by
  induction raws generalizing x d with
  | nil => cases left <;> rfl
  | cons raw raws ih =>
    refine alignLines_cons_eq_some_iff.2 ⟨lineFits_outdent n raw, _, ih _ _, ?_⟩
    rw [lineEntry_outdent, Text.length_outdent]
    rfl

theorem indentEntries_append (n x d : Nat) (raws left : List Text) :
    indentEntries n x d (raws ++ left) =
      indentEntries n x d raws ++
        indentEntries n (x + linesLength (raws.map (Text.outdent n))) (d + linesLength raws)
          left := by
  induction raws generalizing x d with
  | nil => rfl
  | cons raw raws ih =>
    have hx : x + (raw.length - Text.indentOf n raw) + 1 + linesLength (raws.map (Text.outdent n)) =
        x + linesLength ((raw :: raws).map (Text.outdent n)) := by
      rw [List.map_cons, Text.linesLength_cons, Text.length_outdent]
      omega
    have hd : d + raw.length + 1 + linesLength raws = d + linesLength (raw :: raws) := by
      rw [Text.linesLength_cons]
      omega
    rw [List.cons_append, indentEntries, ih, hx, hd]
    rfl

theorem le_extracted_of_indentEntries {n x d : Nat} {raws : List Text} :
    ∀ e ∈ indentEntries n x d raws, x ≤ e.extracted :=
  le_extracted_of_alignLines (alignLines_outdent n x d raws [])

/-! ## Tables -/

theorem delta_of_indentEntries {n x d q : Nat} {raws : List Text} {before after : List RangeEntry}
    {e : RangeEntry} (hes : indentEntries n x d raws = before ++ e :: after)
    (he : e.extracted ≤ q) (hafter : ∀ f ∈ after, q < f.extracted)
    (hq : q < x + linesLength (raws.map (Text.outdent n))) :
    0 ≤ q + e.delta ∧ q + e.delta < (d + linesLength raws : Nat) := by
  induction raws generalizing x d before with
  | nil => simp [indentEntries] at hes
  | cons raw raws ih =>
    have hindent := Text.indentOf_le_length n raw
    rw [List.map_cons, Text.linesLength_cons, Text.length_outdent] at hq
    rw [Text.linesLength_cons]
    rw [indentEntries] at hes
    cases before with
    | nil =>
      obtain ⟨rfl, rfl⟩ := List.cons.inj hes
      -- the offset is on this line, as the next one starts behind it
      have hline : q < x + (raw.length - Text.indentOf n raw) + 1 := by
        cases raws with
        | nil =>
          rw [List.map_nil, Text.linesLength_nil] at hq
          omega
        | cons next raws => exact hafter _ List.mem_cons_self
      simp only [indentEntry] at he ⊢
      omega
    | cons f before =>
      have hrest := ih (List.cons.inj hes).2 (by omega)
      omega

/-- Entries behind an offset play no part in looking it up. -/
theorem exists_isLastUpTo_indent {n x d q : Nat} {raws left : List Text} (hne : raws ≠ [])
    (hx : x ≤ q) (hq : q < x + linesLength (raws.map (Text.outdent n))) :
    ∃ e, IsLastUpTo ⟨sentinel :: indentEntries n x d (raws ++ left)⟩ q e ∧
      (withSentinel (indentEntries n x d raws)).toDocument q = Word.clamp64 (q + e.delta) ∧
      0 ≤ q + e.delta ∧ q + e.delta < (d + linesLength raws : Nat) := by
  have hrising := alignLines_increasing (alignLines_outdent n x d raws [])
  have hfirst : indentEntries n x d raws ≠ [] ∧
      ∀ e ∈ (indentEntries n x d raws).head?, e.extracted ≤ q := by
    obtain ⟨raw, rest, rfl⟩ := List.exists_cons_of_ne_nil hne
    simpa [indentEntries, indentEntry] using hx
  obtain ⟨before, e, after, hes, hbefore, he, hafter⟩ :=
    exists_last_up_to hrising hfirst.1 hfirst.2
  have happend := indentEntries_append n x d raws left
  rw [hes, List.append_assoc, List.cons_append] at happend
  refine ⟨e, ⟨sentinel :: before, _, congrArg (sentinel :: ·) happend, he, ?_⟩, ?_, ?_⟩
  · refine List.forall_mem_append.2 ⟨hafter, fun f hf => ?_⟩
    exact hq.trans_le (le_extracted_of_indentEntries f hf)
  · rw [toDocument, hes, entryFor_withSentinel hbefore he hafter]
  · exact delta_of_indentEntries hes he hafter hq

variable {document raw : Text} {loc : Location}

/-- Code cut out by indentation, from the first `k` lines after the delimiter line, has a map. It
moves each offset of the code by what the last entry at or before it says in the table by
indentation. Clamping changes nothing in a document that a word can measure. -/
theorem fenced?_eq_indentTable (comments : List Text) (n k : Nat)
    (hraw : loc.textIn? document = some raw) (hpos : 1 ≤ k) (hk : k ≤ raw.lines.tail.length) :
    let code := Text.unlines ((raw.lines.tail.take k).map (Text.outdent n))
    ∃ map, fenced? document loc code comments = some map ∧
      ∀ q, commentLength comments ≤ q → q ≤ commentLength comments + code.length →
        ∃ e, (indentTable n loc raw comments).IsLastUpTo q e ∧
          map.toDocument q = Word.clamp64 (q + e.delta) ∧
          (document.length < Word.bound64 → (map.toDocument q : Int) = q + e.delta) := by
  intro code
  obtain ⟨delimiter, raws, hlines⟩ := Text.exists_lines_eq_cons raw
  obtain ⟨kept, left, hcut, hlen⟩ : ∃ kept left, raws = kept ++ left ∧ kept.length = k := by
    rw [hlines, List.tail_cons] at hk
    exact ⟨raws.take k, raws.drop k, (List.take_append_drop k raws).symm, by simpa using hk⟩
  have hne : kept ≠ [] := by
    rintro rfl
    rw [List.length_nil] at hlen
    omega
  have hcode : code.lines = kept.map (Text.outdent n) := by
    have htake : raw.lines.tail.take k = kept := by
      rw [hlines, List.tail_cons, hcut, ← hlen, List.take_left]
    unfold code
    rw [htake]
    refine Text.lines_unlines_of_notMem (by simpa using hne) ?_
    intro l hl
    obtain ⟨r, hr, rfl⟩ := List.mem_map.1 hl
    refine Text.outdent_notMem_newline (t := raw) n ?_
    rw [hlines, hcut]
    simp [hr]
  have hlength : code.length + 1 = linesLength (kept.map (Text.outdent n)) := by
    rw [← hcode, Text.linesLength_lines]
  have hes : alignLines (commentLength comments) (loc.start.offset + delimiter.length + 1) raws
      code.lines = some (indentEntries n (commentLength comments)
        (loc.start.offset + delimiter.length + 1) kept) := by
    rw [hcode, hcut]
    exact alignLines_outdent _ _ _ _ _
  have hend : loc.start.offset + delimiter.length + linesLength kept ≤ document.length := by
    obtain ⟨hfill, hstop⟩ := linesLength_raws hraw hlines
    rw [hcut, Text.linesLength_append] at hfill
    omega
  refine ⟨_, fenced?_eq_some_iff.2 ⟨raw, delimiter, raws, _, hraw, hlines, hes, rfl⟩, ?_⟩
  intro q hq hq'
  have hbelow : q < commentLength comments + linesLength (kept.map (Text.outdent n)) := by omega
  obtain ⟨e, hlast, hmap, hnonneg, hlt⟩ := exists_isLastUpTo_indent hne hq hbelow
  refine ⟨e, ?_, hmap, fun hdocument => ?_⟩
  · rw [indentTable, hlines, hcut]
    exact hlast
  · rw [hmap, Word.clamp64]
    omega

/-- Two-byte line endings, a line with less indentation than the fence, one of blanks only and one
with more. The closing fence gets an entry in the table by indentation only. -/
theorem fenced?_eq_indentTable_ragged :
    let document := Text.ofString "  ```\r\n  a\r\n\tb\r\n   \r\n    c\r\n  ```\r\n"
    let loc : Location := ⟨⟨0, 1, 1⟩, ⟨33, 6, 6⟩⟩
    let comments := [Text.ofString "/*eslint*/"]
    let code := Text.ofString "a\r\nb\r\n \r\n  c\r"
    let map : RangeMap := ⟨[⟨0, 0⟩, ⟨11, -2⟩, ⟨14, -1⟩, ⟨17, 1⟩, ⟨20, 3⟩]⟩
    let table : RangeMap := ⟨[⟨0, 0⟩, ⟨11, -2⟩, ⟨14, -1⟩, ⟨17, 1⟩, ⟨20, 3⟩, ⟨25, 5⟩]⟩
    let raw : Text := document.take 33
    loc.textIn? document = some raw ∧
    fenced? document loc code comments = some map ∧
    indentTable 2 loc raw comments = table ∧
    (∃ e, table.IsLastUpTo 23 e ∧ (map.toDocument 23 : Int) = 23 + e.delta) ∧
    (∃ e, table.IsLastUpTo 24 e ∧ (map.toDocument 24 : Int) = 24 + e.delta) ∧
    map.toDocument 24 = 27 := by
  intro document loc comments code map table raw
  have hraw : loc.textIn? document = some raw := by decide +kernel
  have hmap : fenced? document loc code comments = some map := by decide +kernel
  have htable : indentTable 2 loc raw comments = table := by decide +kernel
  have hcode : Text.unlines ((raw.lines.tail.take 4).map (Text.outdent 2)) = code := by
    decide +kernel
  obtain ⟨map', hmap', hagree⟩ := fenced?_eq_indentTable comments 2 4 hraw (by decide)
    (by decide +kernel)
  rw [hcode, hmap] at hmap'
  obtain rfl := Option.some.inj hmap'
  rw [hcode, htable] at hagree
  have hlength : document.length < Word.bound64 := by decide +kernel
  have hend : commentLength comments + code.length = 24 := by decide +kernel
  rw [hend] at hagree
  obtain ⟨e, he, -, hdelta⟩ := hagree 23 (by decide) (by decide)
  obtain ⟨f, hf, -, hdelta'⟩ := hagree 24 (by decide) (by decide)
  exact ⟨hraw, hmap, htable, ⟨e, he, hdelta hlength⟩, ⟨f, hf, hdelta' hlength⟩, by decide +kernel⟩

end RangeMap
end Inlay
