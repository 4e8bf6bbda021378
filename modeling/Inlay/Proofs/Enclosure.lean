import Mathlib.Data.List.Infix
import Inlay.Tree.Comment

/-! Where the comment that stands for a directive ends. The body of a document comment is what its
two delimiters leave, whatever stands between them, and it is put between the delimiters of a block
comment as it is. A script reads a block comment up to the first `*/`. So the comment ends where it
should exactly when its body has no `*/`; otherwise the rest of the body is read as code. -/

namespace Inlay

/-! ## Reading a block comment -/

namespace Script

/-- What stands behind the first closing mark of a block comment. -/
def afterClosing? : Text → Option Text
  | [] => none
  | b :: t =>
    if CommentStyle.block.closing.isPrefixOf (b :: t) then
      some ((b :: t).drop CommentStyle.block.closing.length)
    else afterClosing? t

def afterComment? (t : Text) : Option Text :=
  if CommentStyle.block.opening.isPrefixOf t then
    afterClosing? (t.drop CommentStyle.block.opening.length)
  else none

theorem afterClosing?_eq_some_iff {t rest : Text} :
    afterClosing? t = some rest ↔
      ∃ x, t = x ++ (CommentStyle.block.closing ++ rest) ∧
        ∀ y z, t = y ++ (CommentStyle.block.closing ++ z) → x.length ≤ y.length := by
  induction t with
  | nil =>
    have hne : CommentStyle.block.closing ≠ [] := by decide
    simp [afterClosing?, hne]
  | cons b t ih =>
    rw [afterClosing?]
    split
    · next hmark =>
      obtain ⟨u, hu⟩ := List.isPrefixOf_iff_prefix.1 hmark
      rw [← hu, List.drop_left, Option.some.injEq]
      constructor
      · rintro rfl
        exact ⟨[], rfl, fun _ _ _ => Nat.zero_le _⟩
      · rintro ⟨x, hx, hfirst⟩
        obtain rfl : x = [] := List.length_eq_zero_iff.1 (Nat.le_zero.1 (hfirst [] u rfl))
        exact List.append_cancel_left hx
    · next hmark =>
      rw [List.isPrefixOf_iff_prefix] at hmark
      -- no closing mark stands at the front, so all of them are those of the rest
      have hcons : ∀ {x z : Text}, b :: t = x ++ (CommentStyle.block.closing ++ z) →
          ∃ x', x = b :: x' ∧ t = x' ++ (CommentStyle.block.closing ++ z) := by
        intro x z hx
        cases x with
        | nil => exact absurd ⟨z, hx.symm⟩ hmark
        | cons a x =>
          obtain ⟨rfl, rfl⟩ := List.cons.inj hx
          exact ⟨x, rfl, rfl⟩
      rw [ih]
      constructor
      · rintro ⟨x, hx, hfirst⟩
        refine ⟨b :: x, by rw [hx, List.cons_append], fun y z hy => ?_⟩
        obtain ⟨y', rfl, hy'⟩ := hcons hy
        exact Nat.succ_le_succ (hfirst y' z hy')
      · rintro ⟨x, hx, hfirst⟩
        obtain ⟨x', rfl, hx'⟩ := hcons hx
        refine ⟨x', hx', fun y z hy => ?_⟩
        exact Nat.le_of_succ_le_succ (hfirst (b :: y) z (by rw [hy, List.cons_append]))

/-- A closing mark cannot start in front of the closing mark of a comment and end inside it. -/
theorem closing_isInfix_of_append {w rest z : Text} (hne : w ≠ [])
    (h : w ++ (CommentStyle.block.closing ++ rest) = CommentStyle.block.closing ++ z) :
    CommentStyle.block.closing <:+: w := by
  have hmark : CommentStyle.block.closing = [42, 47] := by decide
  rw [hmark] at h ⊢
  match w with
  | [] => exact absurd rfl hne
  | [b] => simp at h
  | a :: b :: w =>
    simp only [List.cons_append, List.nil_append, List.cons.injEq] at h
    obtain ⟨rfl, rfl, -⟩ := h
    exact ⟨[], w, rfl⟩

theorem afterComment?_eq_some_iff (body rest : Text) :
    afterComment? (CommentStyle.block.opening ++ body ++ CommentStyle.block.closing ++ rest) =
        some rest ↔
      ¬ CommentStyle.block.closing <:+: body := by
  have hread : afterComment?
      (CommentStyle.block.opening ++ body ++ CommentStyle.block.closing ++ rest) =
        afterClosing? (body ++ (CommentStyle.block.closing ++ rest)) := by
    simp [afterComment?]
  rw [hread, afterClosing?_eq_some_iff]
  constructor
  · rintro ⟨x, hx, hfirst⟩ ⟨p, q, rfl⟩
    obtain rfl := List.append_cancel_right hx
    have hle := hfirst p (q ++ (CommentStyle.block.closing ++ rest)) (by simp)
    have hpos : 0 < CommentStyle.block.closing.length := by decide
    simp only [List.length_append] at hle
    omega
  · intro hbody
    refine ⟨body, rfl, fun y z hy => ?_⟩
    by_contra hlt
    -- a mark that starts in the body is a mark of the body
    obtain ⟨w, rfl⟩ : y <+: body :=
      List.prefix_of_prefix_length_le ⟨_, hy.symm⟩ (List.prefix_append _ _) (by omega)
    rw [List.append_assoc] at hy
    have hw : w ≠ [] := by
      rintro rfl
      simp at hlt
    have hinside := closing_isInfix_of_append hw (List.append_cancel_left hy)
    exact hbody (hinside.trans (List.suffix_append y w).isInfix)

end Script

/-! ## Bodies of comments -/

theorem CommentStyle.eq_of_delimits {s : CommentStyle} {t : Text} (h : s.delimits t = true) :
    t = s.opening ++
      (t.drop s.opening.length).take (t.length - s.opening.length - s.closing.length) ++
        s.closing := by
  simp only [delimits, Bool.and_eq_true, decide_eq_true_eq, List.isPrefixOf_iff_prefix,
    List.isSuffixOf_iff_suffix] at h
  obtain ⟨⟨⟨u, rfl⟩, hclosing⟩, hlen⟩ := h
  rw [List.length_append] at hlen
  obtain ⟨body, rfl⟩ : s.closing <:+ u :=
    List.suffix_of_suffix_length_le hclosing (List.suffix_append _ _) (by omega)
  have hbody : (s.opening ++ (body ++ s.closing)).length - s.opening.length - s.closing.length =
      body.length := by
    simp only [List.length_append]
    omega
  rw [List.drop_left, hbody, List.take_left, List.append_assoc]

theorem Comment.delimits_of_style? {t : Text} {s : CommentStyle} (h : style? t = some s) :
    s.delimits (core t) = true := by
  unfold style? at h
  split at h
  · next hs =>
    obtain rfl := Option.some.inj h
    exact hs
  · split at h
    · next hs =>
      obtain rfl := Option.some.inj h
      exact hs
    · split at h
      · next hs =>
        obtain rfl := Option.some.inj h
        exact (Bool.and_eq_true_iff.1 hs).1
      · cases h

/-- The body of a comment is all that stands between its delimiters. -/
theorem Comment.core_eq_of_body? {t body : Text} (h : body? t = some body) :
    ∃ s, style? t = some s ∧ core t = s.opening ++ body ++ s.closing := by
  obtain ⟨s, hs, rfl⟩ := Option.map_eq_some_iff.1 h
  exact ⟨s, hs, CommentStyle.eq_of_delimits (delimits_of_style? hs)⟩

namespace Directive

theorem body?_of_ofComment? {t body : Text} (h : ofComment? t = some (.config body)) :
    Comment.body? t = some body := by
  obtain ⟨body', hbody', hdirective⟩ := Option.bind_eq_some_iff.1 h
  simp only [ofBody?] at hdirective
  split at hdirective
  · cases hdirective
  · split at hdirective
    · cases hdirective
    · obtain rfl : body' = body := by simpa using hdirective
      exact hbody'

/-- The comment for a directive is read to its very end, whatever follows it, exactly when the
document comment has no `*/` between its delimiters. A block comment is passed on as it stands, so
there the question is whether the document has a single comment. -/
theorem comment_enclosed_iff {t body : Text} (h : ofComment? t = some (.config body)) :
    ∃ style comment, Comment.style? t = some style ∧
      Comment.core t = style.opening ++ body ++ style.closing ∧
      (config body).comment? = some comment ∧ (style = .block → comment = Comment.core t) ∧
      (Script.afterComment? comment = some [] ↔ ¬ CommentStyle.block.closing <:+: body) ∧
      ∀ rest, Script.afterComment? (comment ++ rest) = some rest ↔
        ¬ CommentStyle.block.closing <:+: body := by
  obtain ⟨style, hstyle, hcore⟩ := Comment.core_eq_of_body? (body?_of_ofComment? h)
  refine ⟨style, _, hstyle, hcore, rfl, ?_, ?_, Script.afterComment?_eq_some_iff body⟩
  · rintro rfl
    exact hcore.symm
  · have hend := Script.afterComment?_eq_some_iff body []
    rwa [List.append_nil] at hend

/-- A body that ends in an asterisk, in a comment of the other style with a line break behind it. -/
theorem comment_enclosed_asterisk :
    let t := Text.ofString "<!-- eslint semi: 2 *-->\r\n"
    let body := Text.ofString " eslint semi: 2 *"
    let comment := Text.ofString "/* eslint semi: 2 **/"
    ofComment? t = some (.config body) ∧ (config body).comment? = some comment ∧
    Script.afterComment? (comment ++ Text.ofString "\na()\n") = some (Text.ofString "\na()\n") := by
  intro t body comment
  have hdirective : ofComment? t = some (.config body) := by decide +kernel
  have hcomment : (config body).comment? = some comment := by decide +kernel
  obtain ⟨_, comment', -, -, hcomment', -, -, henclosed⟩ := comment_enclosed_iff hdirective
  obtain rfl := Option.some.inj (hcomment.symm.trans hcomment')
  exact ⟨hdirective, hcomment, (henclosed _).2 (by decide +kernel)⟩

/-- Two block comments with code between them count as one comment, and the code is read as such. -/
theorem comment_not_enclosed :
    ¬ ∀ t body comment, ofComment? t = some (.config body) →
      (config body).comment? = some comment → Script.afterComment? comment = some [] := by
  intro h
  have hend := h (Text.ofString "/* eslint semi: 2 */ alert(1) /* x */")
    (Text.ofString " eslint semi: 2 */ alert(1) /* x ")
    (Text.ofString "/* eslint semi: 2 */ alert(1) /* x */") (by decide +kernel) (by decide +kernel)
  have hrest : Script.afterComment? (Text.ofString "/* eslint semi: 2 */ alert(1) /* x */") =
      some (Text.ofString " alert(1) /* x */") := by decide +kernel
  rw [hrest] at hend
  exact absurd hend (by decide)

end Directive
end Inlay
