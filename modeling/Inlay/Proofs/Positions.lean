import Inlay.Block.Basic
import Inlay.Proofs.Lines

/-! Lines and columns of offsets. Both count from one, and columns count bytes. The lines of a text
give both: an offset inside a line has the number of that line and its own distance from the start
of the line. The extracted text is read in the same way, its comments first. -/

namespace Inlay
namespace Text

/-- One more than the line breaks before the offset. -/
def lineAt (t : Text) (i : Nat) : Nat := 1 + (t.take i).count newline

/-- One more than the bytes between the offset and the last line break before it. -/
def columnAt (t : Text) (i : Nat) : Nat :=
  1 + ((t.take i).reverse.takeWhile (· != newline)).length

theorem length_lines (t : Text) : t.lines.length = 1 + t.count newline := by
  induction t with
  | nil => rfl
  | cons b t ih =>
    obtain ⟨l, ls, hls⟩ := exists_lines_eq_cons t
    rw [hls, List.length_cons] at ih
    rw [lines_cons, hls]
    by_cases hb : b = newline
    · subst hb
      rw [breakLine_newline, List.count_cons_self]
      simp only [List.length_cons]
      omega
    · rw [breakLine_of_ne hb, List.count_cons_of_ne hb, List.length_cons]
      exact ih

theorem exists_lines_eq_append (t : Text) : ∃ pre l, t.lines = pre ++ [l] :=
  ⟨_, _, (List.dropLast_concat_getLast (lines_ne_nil t)).symm⟩

/-- The last line of a text is the whole text or stands behind a line break. -/
theorem break_append_of_lines {t l : Text} {pre : List Text} (h : t.lines = pre ++ [l]) :
    (pre = [] ∧ t = l) ∨ ∃ u, t = u ++ newline :: l := by
  induction t generalizing pre l with
  | nil =>
    cases pre with
    | nil =>
      obtain ⟨rfl, -⟩ := List.cons.inj h
      exact Or.inl ⟨rfl, rfl⟩
    | cons p pre => simp [lines_nil] at h
  | cons b t ih =>
    obtain ⟨m, ms, hms⟩ := exists_lines_eq_cons t
    rw [lines_cons, hms] at h
    by_cases hb : b = newline
    · subst hb
      rw [breakLine_newline] at h
      cases pre with
      | nil => simp at h
      | cons p pre =>
        obtain ⟨-, hrest⟩ := List.cons.inj h
        rcases ih (hms.trans hrest) with ⟨-, rfl⟩ | ⟨u, rfl⟩
        · exact Or.inr ⟨[], rfl⟩
        · exact Or.inr ⟨newline :: u, rfl⟩
    · rw [breakLine_of_ne hb] at h
      cases pre with
      | nil =>
        obtain ⟨rfl, rfl⟩ := List.cons.inj h
        rcases append_break_of_lines hms with ⟨-, rfl⟩ | ⟨u, rfl⟩
        · exact Or.inl ⟨rfl, rfl⟩
        · -- a break behind the first line would make a second one
          have hlen := linesLength_lines (m ++ newline :: u)
          rw [hms] at hlen
          simp at hlen
      | cons p pre =>
        obtain ⟨rfl, rfl⟩ := List.cons.inj h
        rcases @ih l (m :: pre) hms with ⟨hnil, -⟩ | ⟨u, rfl⟩
        · cases hnil
        · exact Or.inr ⟨b :: u, rfl⟩

theorem takeWhile_reverse_append {s l : Text} (hl : newline ∉ l) :
    (s ++ l).reverse.takeWhile (· != newline) =
      l.reverse ++ s.reverse.takeWhile (· != newline) := by
  rw [List.reverse_append, List.takeWhile_append_of_pos]
  intro b hb
  have hne : b ≠ newline := fun h => hl (h ▸ List.mem_reverse.1 hb)
  simpa using hne

variable {t l : Text} {pre post : List Text} {k : Nat}

theorem lineAt_of_lines (h : t.lines = pre ++ l :: post) (hk : k ≤ l.length) :
    t.lineAt (linesLength pre + k) = pre.length + 1 := by
  obtain ⟨x, y, rfl, hlen, hx, -⟩ := exists_lines_cut h hk
  rw [lineAt, ← hlen, List.take_left, ← length_lines, hx]
  simp

/-- The column of an offset inside a line is its distance from the start of the line. -/
theorem columnAt_of_lines (h : t.lines = pre ++ l :: post) (hk : k ≤ l.length) :
    t.columnAt (linesLength pre + k) = k + 1 := by
  obtain ⟨x, y, rfl, hlen, hx, -⟩ := exists_lines_cut h hk
  have hl : newline ∉ l.take k := by
    apply newline_notMem_of_mem_lines (t := x)
    simp [hx]
  have hcolumn : (x.reverse.takeWhile (· != newline)).length = k := by
    rcases break_append_of_lines hx with ⟨-, hx'⟩ | ⟨u, hx'⟩
    · have := takeWhile_reverse_append (s := []) hl
      rw [List.nil_append] at this
      rw [hx', this]
      simp [hk]
    · rw [hx', List.append_cons, takeWhile_reverse_append hl]
      simp [hk]
  rw [columnAt, ← hlen, List.take_left, hcolumn]
  omega

theorem lineAt_append_add {x z : Text} (hl : newline ∉ l) (hk : k ≤ l.length) :
    lineAt (x ++ l ++ z) (x.length + k) = 1 + x.count newline := by
  have hcount : (l.take k).count newline = 0 :=
    List.count_eq_zero.2 fun h => hl (List.mem_of_mem_take h)
  rw [lineAt, List.append_assoc, List.take_length_add_append, List.take_append_of_le_length hk,
    List.count_append, hcount]
  rfl

theorem columnAt_append_add {x z : Text} (hl : newline ∉ l) (hk : k ≤ l.length) :
    columnAt (x ++ l ++ z) (x.length + k) = columnAt (x ++ l ++ z) x.length + k := by
  have htake : newline ∉ l.take k := fun h => hl (List.mem_of_mem_take h)
  rw [columnAt, columnAt, List.append_assoc, List.take_length_add_append,
    List.take_append_of_le_length hk, takeWhile_reverse_append htake, List.take_left]
  simp only [List.length_append, List.length_reverse, List.length_take]
  omega

/-- The lines of texts that are joined by line breaks are their lines one after the other. -/
theorem lines_unlines (t : Text) (ts : List Text) :
    (unlines (t :: ts)).lines = (t :: ts).flatMap lines := by
  induction ts generalizing t with
  | nil => simp [unlines]
  | cons u ts ih =>
    have hjoin : unlines (t :: u :: ts) = t ++ newline :: unlines (u :: ts) := by
      simp [unlines]
    obtain ⟨m, ms, hms⟩ := exists_lines_eq_cons (unlines (u :: ts))
    have hrest : lines (newline :: unlines (u :: ts)) = [] :: (unlines (u :: ts)).lines := by
      rw [lines_cons, hms, breakLine_newline]
    obtain ⟨pre, l, hpre⟩ := exists_lines_eq_append t
    rw [hjoin, lines_append hpre hrest, ih, List.flatMap_cons (x := t), hpre]
    simp

theorem linesLength_flatMap_lines (ts : List Text) :
    linesLength (ts.flatMap lines) = linesLength ts := by
  induction ts with
  | nil => rfl
  | cons t ts ih => rw [List.flatMap_cons, linesLength_append, linesLength_lines, ih]; rfl

end Text

namespace Block

open Text (linesLength)

/-- The extracted text has the lines of the comments, then those of the code, then an empty one. -/
theorem sourceText_lines (b : Block) :
    b.sourceText.lines = b.comments.flatMap Text.lines ++ (b.code.lines ++ [[]]) := by
  have hlines : b.sourceText.lines = (b.comments ++ [b.code, []]).flatMap Text.lines := by
    unfold sourceText
    cases b.comments with
    | nil => exact Text.lines_unlines _ _
    | cons comment comments => exact Text.lines_unlines _ _
  rw [hlines, List.flatMap_append]
  simp [Text.lines_nil]

theorem length_flatMap_comments (b : Block) :
    (b.comments.flatMap Text.lines).length = b.commentLineCount := by
  unfold commentLineCount
  induction b.comments with
  | nil => rfl
  | cons comment comments ih => simp [List.flatMap_cons, ih]

variable {b : Block} {pre post : List Text} {l : Text} {k : Nat}

theorem sourceText_lines_of_code (h : b.code.lines = pre ++ l :: post) :
    b.sourceText.lines = (b.comments.flatMap Text.lines ++ pre) ++ l :: (post ++ [[]]) := by
  rw [sourceText_lines, h]
  simp

theorem linesLength_comments_append (b : Block) (pre : List Text) (k : Nat) :
    b.commentLength + (linesLength pre + k) =
      linesLength (b.comments.flatMap Text.lines ++ pre) + k := by
  rw [Text.linesLength_append, Text.linesLength_flatMap_lines, Nat.add_assoc]
  rfl

theorem lineAt_sourceText (h : b.code.lines = pre ++ l :: post) (hk : k ≤ l.length) :
    b.sourceText.lineAt (b.commentLength + (linesLength pre + k)) =
      b.commentLineCount + pre.length + 1 := by
  rw [linesLength_comments_append, Text.lineAt_of_lines (sourceText_lines_of_code h) hk,
    List.length_append, length_flatMap_comments]

theorem columnAt_sourceText (h : b.code.lines = pre ++ l :: post) (hk : k ≤ l.length) :
    b.sourceText.columnAt (b.commentLength + (linesLength pre + k)) = k + 1 := by
  rw [linesLength_comments_append, Text.columnAt_of_lines (sourceText_lines_of_code h) hk]

end Block
end Inlay
