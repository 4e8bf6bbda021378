import Inlay.Proofs.Commutation
import Inlay.Proofs.Coordinates

/-! The comments before the code. The extracted text, the length of the comments and the number of
their lines are made apart from each other, and all offsets and lines of messages rest on their
agreement: what has the length of the comments ends where the code starts, and it has as many line
breaks as the comments have lines. -/

namespace Inlay
namespace Block

open Text (newline)

/-- The lines of the comments counted in words: each comment's lines are one word, and each sum is
one. -/
def commentLineCount32 (b : Block) : Except Overflow Nat :=
  b.comments.foldlM (fun n comment => Word.add32 n (Word.low32 comment.lines.length)) 0

theorem foldlM_add32 {comments : List Text} {n : Nat}
    (h : n + total (comments.map (·.lines.length)) < Word.bound32) :
    comments.foldlM (fun n comment => Word.add32 n (Word.low32 comment.lines.length)) n =
      .ok (n + total (comments.map (·.lines.length))) := by
  induction comments generalizing n with
  | nil => rfl
  | cons comment comments ih =>
    simp only [List.map_cons, total_cons] at h ⊢
    have hword : Word.low32 comment.lines.length = comment.lines.length :=
      Nat.mod_eq_of_lt (by omega)
    have hsum : Word.add32 n comment.lines.length = .ok (n + comment.lines.length) :=
      Word.add32_eq_ok.2 ⟨by omega, rfl⟩
    rw [List.foldlM_cons, hword, hsum, ← Nat.add_assoc]
    exact ih (by omega)

theorem commentLineCount32_eq {b : Block} (h : b.commentLineCount < Word.bound32) :
    b.commentLineCount32 = .ok b.commentLineCount := by
  rw [commentLineCount, ← Nat.zero_add (total _)] at h ⊢
  exact foldlM_add32 h

variable {b : Block} {front : Text}

/-- The line breaks of the whole text are those between its lines. Before the code stand those that
the lines of the code leave over. -/
theorem count_newline_of_sourceText (h : b.sourceText = front ++ (b.code ++ [newline])) :
    front.count newline = b.commentLineCount := by
  have hlines := congrArg List.length b.sourceText_lines
  rw [h, List.length_append, List.length_append, length_flatMap_comments, Text.length_lines,
    Text.length_lines, List.count_append, List.count_append, List.count_singleton_self,
    List.length_singleton] at hlines
  omega

/-- The code starts in the first column, so before it stands a line break or nothing at all. -/
theorem getLast?_of_sourceText (h : b.sourceText = front ++ (b.code ++ [newline]))
    (hlength : front.length = b.commentLength) (hfront : front ≠ []) :
    front.getLast? = some newline := by
  obtain ⟨l, ls, hcode⟩ := Text.exists_lines_eq_cons b.code
  have hstart : b.code.lines = [] ++ l :: ls := hcode
  have hcolumn := columnAt_sourceText hstart (Nat.zero_le _)
  rw [Text.linesLength_nil, Nat.add_zero, Nat.add_zero, Text.columnAt, h, ← hlength,
    List.take_left] at hcolumn
  have hnone : front.reverse.takeWhile (· != newline) = [] :=
    List.length_eq_zero_iff.1 (by omega)
  obtain ⟨start, last, rfl⟩ := (List.eq_nil_or_concat' front).resolve_left hfront
  rw [List.reverse_concat, List.takeWhile_cons] at hnone
  by_cases hlast : last = newline
  · rw [List.getLast?_concat, hlast]
  · simp [hlast] at hnone

/-- Behind the length of the comments stand the code and one line break. Before it stand as many
line breaks as the comments have lines, the last of them right before the code. Counted in words the
lines are the same number, if that is a word. -/
theorem comments_accounted (b : Block) (hcount : b.commentLineCount < Word.bound32) :
    b.sourceText.drop b.commentLength = b.code ++ [newline] ∧
    b.commentLineCount32 = .ok ((b.sourceText.take b.commentLength).count newline) ∧
    (b.sourceText.take b.commentLength).count newline = b.commentLineCount ∧
    (b.comments ≠ [] → (b.sourceText.take b.commentLength).getLast? = some newline) := by
  obtain ⟨front, hsource, hlength⟩ := b.sourceText_eq
  have htake : b.sourceText.take b.commentLength = front := by
    rw [hsource, ← hlength, List.take_left]
  have hbreaks := count_newline_of_sourceText hsource
  rw [htake]
  refine ⟨?_, ?_, hbreaks, fun hcomments => ?_⟩
  · rw [hsource, ← hlength, List.drop_left]
  · rw [hbreaks, commentLineCount32_eq hcount]
  · refine getLast?_of_sourceText hsource hlength fun hnil => ?_
    obtain ⟨comment, comments, heq⟩ := List.exists_cons_of_ne_nil hcomments
    rw [hnil, commentLength, heq, Inlay.commentLength, List.map_cons, total_cons,
      List.length_nil] at hlength
    omega

/-- The comment of the quoted script has a line break of its own. -/
theorem comments_accounted_quoted :
    quotedScript.extract quotedDocument .column 4 = .ok (some quotedBlock) ∧
    quotedBlock.commentLineCount < Word.bound32 ∧ quotedBlock.comments ≠ [] ∧
    quotedBlock.commentLineCount = 2 ∧ quotedBlock.commentLength = 19 ∧
    quotedBlock.sourceText.drop 19 = Text.ofString "é;\n cd\n" ∧
    (quotedBlock.sourceText.take 19).count newline = 2 ∧
    (quotedBlock.sourceText.take 19).getLast? = some newline := by
  have hcount : quotedBlock.commentLineCount < Word.bound32 := by decide +kernel
  have hlength : quotedBlock.commentLength = 19 := by decide +kernel
  obtain ⟨hcode, -, hbreaks, hlast⟩ := comments_accounted quotedBlock hcount
  rw [hlength] at hcode hbreaks hlast
  refine ⟨extract_quotedScript, hcount, by decide +kernel, by decide +kernel, hlength, ?_, ?_,
    hlast (by decide +kernel)⟩
  · rw [hcode]
    decide +kernel
  · rw [hbreaks]
    decide +kernel

end Block
end Inlay
