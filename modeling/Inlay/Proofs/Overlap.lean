import Mathlib
import Inlay.Message.Fixing

/-! Which fixes are tried, in which order, and when two that were applied overlap. A fix is compared
with the fix kept last only. This is enough as long as that fix is not an insertion at the place
where the new one starts: the insertion overlaps nothing there and hides what was kept before it. -/

namespace Inlay

/-- `x` is tried before `y`: it starts later, or at the same place with a smaller index. -/
def IndexedFix.TriedBefore (x y : IndexedFix) : Prop :=
  y.fix.start < x.fix.start ∨ (x.fix.start = y.fix.start ∧ x.index < y.index)

/-- The fixes of the messages that a result lists as fixed, in the order of the messages. -/
def FixResult.fixes (r : FixResult) (ms : List Message) : List IndexedFix :=
  (Fixing.indexedFixes ms).filter fun x => r.applied.contains x.index

theorem Fix.overlaps_iff {x y : Fix} :
    x.overlaps y = true ↔ y.start < x.stop ∧ x.start < y.stop := by
  simp [Fix.overlaps]

theorem Fix.overlaps_comm (x y : Fix) : x.overlaps y = y.overlaps x := by
  rw [Bool.eq_iff_iff, Fix.overlaps_iff, Fix.overlaps_iff, and_comm]

theorem Fix.isApplicable_iff {content : Text} {f : Fix} :
    f.isApplicable content = true ↔
      f.start ≤ f.stop ∧ f.stop ≤ content.length ∧
        content.isBoundary f.start = true ∧ content.isBoundary f.stop = true := by
  simp [Fix.isApplicable, and_assoc]

theorem Fix.later_trans (x y z : Fix) :
    decide (y.start ≤ x.start) = true → decide (z.start ≤ y.start) = true →
      decide (z.start ≤ x.start) = true := by
  simp only [decide_eq_true_eq]
  omega

theorem Fix.later_total (x y : Fix) :
    (decide (y.start ≤ x.start) || decide (x.start ≤ y.start)) = true := by
  simp only [Bool.or_eq_true, decide_eq_true_eq]
  omega

namespace IndexedFix

theorem TriedBefore.asymm {x y : IndexedFix} (h : x.TriedBefore y) : ¬ y.TriedBefore x := by
  unfold TriedBefore at *
  omega

theorem TriedBefore.start_le {x y : IndexedFix} (h : x.TriedBefore y) :
    y.fix.start ≤ x.fix.start := by
  unfold TriedBefore at h
  omega

theorem triedBefore_or {x y : IndexedFix} (h : x.index ≠ y.index) :
    x.TriedBefore y ∨ y.TriedBefore x := by
  unfold TriedBefore
  omega

instance (x y : IndexedFix) : Decidable (x.TriedBefore y) :=
  inferInstanceAs (Decidable (_ ∨ _))

end IndexedFix

namespace Fixing

theorem mem_indexedFixes {ms : List Message} {x : IndexedFix} :
    x ∈ indexedFixes ms ↔ ∃ m, ms[x.index]? = some m ∧ m.fix = some x.fix := by
  simp only [indexedFixes, List.mem_filterMap, Option.map_eq_some_iff, Prod.exists,
    List.mk_mem_zipIdx_iff_getElem?]
  constructor
  · rintro ⟨m, i, hm, f, hf, rfl⟩
    exact ⟨m, hm, hf⟩
  · rintro ⟨m, hm, hf⟩
    exact ⟨m, x.index, hm, x.fix, hf, rfl⟩

theorem indexedFixes_pairwise (ms : List Message) :
    (indexedFixes ms).Pairwise fun x y => x.index < y.index := by
  have hidx : ms.zipIdx.Pairwise fun p q => p.2 < q.2 := by
    rw [← List.pairwise_map (f := Prod.snd), List.zipIdx_map_snd]
    exact List.pairwise_lt_range'
  refine List.Pairwise.filterMap _ ?_ hidx
  rintro ⟨m, i⟩ ⟨n, j⟩ hij x hx y hy
  obtain ⟨f, -, rfl⟩ := Option.map_eq_some_iff.1 hx
  obtain ⟨g, -, rfl⟩ := Option.map_eq_some_iff.1 hy
  exact hij

theorem indexedFixes_inj {ms : List Message} {x y : IndexedFix} (hx : x ∈ indexedFixes ms)
    (hy : y ∈ indexedFixes ms) (h : x.index = y.index) : x = y := by
  obtain ⟨m, hm, hf⟩ := mem_indexedFixes.1 hx
  obtain ⟨n, hn, hg⟩ := mem_indexedFixes.1 hy
  rw [h, hn, Option.some.injEq] at hm
  subst hm
  obtain ⟨i, f⟩ := x
  obtain ⟨j, g⟩ := y
  simp_all

theorem start_le_stop {ms : List Message} (hle : ∀ m ∈ ms, ∀ f ∈ m.fix, f.start ≤ f.stop)
    {x : IndexedFix} (hx : x ∈ indexedFixes ms) : x.fix.start ≤ x.fix.stop := by
  obtain ⟨m, hm, hf⟩ := mem_indexedFixes.1 hx
  exact hle m (List.mem_of_getElem? hm) x.fix hf

/-! ## The order of the candidates -/

theorem later_trans (x y z : IndexedFix) :
    decide (y.fix.start ≤ x.fix.start) = true → decide (z.fix.start ≤ y.fix.start) = true →
      decide (z.fix.start ≤ x.fix.start) = true := Fix.later_trans x.fix y.fix z.fix

theorem later_total (x y : IndexedFix) :
    (decide (y.fix.start ≤ x.fix.start) || decide (x.fix.start ≤ y.fix.start)) = true :=
  Fix.later_total x.fix y.fix

theorem backwards_sorted (fixes : List IndexedFix) :
    (backwards fixes).Pairwise fun x y => y.fix.start ≤ x.fix.start := by
  have h := List.pairwise_mergeSort later_trans later_total fixes
  simpa only [backwards, decide_eq_true_eq] using h

theorem backwards_pairwise {fixes : List IndexedFix}
    (h : fixes.Pairwise fun x y => x.index < y.index) :
    (backwards fixes).Pairwise IndexedFix.TriedBefore := by
  induction fixes with
  | nil => simp [backwards]
  | cons a fixes ih =>
    obtain ⟨ha, hfixes⟩ := List.pairwise_cons.1 h
    -- `a` is put behind what starts later and before everything else
    obtain ⟨l₁, l₂, hsort, hrest, hlater⟩ := List.mergeSort_cons later_trans later_total a fixes
    have hsorted := backwards_sorted (a :: fixes)
    have ih := ih hfixes
    unfold backwards at hsorted ih ⊢
    rw [hsort] at hsorted ⊢
    rw [hrest] at ih
    obtain ⟨h₁, h₂, h₁₂⟩ := List.pairwise_append.1 ih
    refine List.pairwise_append.2
      ⟨h₁, List.pairwise_cons.2 ⟨fun b hb => ?_, h₂⟩, fun b hb c hc => ?_⟩
    · have hmem : b ∈ fixes := by
        rw [← List.mem_mergeSort, hrest]
        exact List.mem_append_right _ hb
      have hle := (List.pairwise_cons.1 (List.pairwise_append.1 hsorted).2.1).1 b hb
      have hlt := ha b hmem
      unfold IndexedFix.TriedBefore
      omega
    · rcases List.mem_cons.1 hc with rfl | hc
      · have := hlater b hb
        simp only [Bool.not_eq_true', decide_eq_false_iff_not] at this
        exact Or.inl (by omega)
      · exact h₁₂ b hb c hc

theorem keep_eq (kept : List IndexedFix) (x : IndexedFix) :
    (keep kept x = x :: kept ∧ ∀ last ∈ kept.head?, x.fix.overlaps last.fix = false) ∨
      (keep kept x = kept ∧ ∃ last ∈ kept.head?, x.fix.overlaps last.fix = true) := by
  cases kept with
  | nil => exact Or.inl ⟨rfl, by simp⟩
  | cons last kept =>
    by_cases h : x.fix.overlaps last.fix
    · exact Or.inr ⟨by simp [keep, h], last, by simp, h⟩
    · exact Or.inl ⟨by simp [keep, h], by simpa using h⟩

theorem foldl_keep_sublist (fixes kept : List IndexedFix) :
    List.Sublist (fixes.foldl keep kept) (fixes.reverse ++ kept) := by
  induction fixes generalizing kept with
  | nil => simp
  | cons x fixes ih =>
    have h := ih (keep kept x)
    rw [List.foldl_cons, List.reverse_cons, List.append_assoc]
    refine h.trans (List.Sublist.append_left ?_ _)
    rcases keep_eq kept x with ⟨hk, -⟩ | ⟨hk, -⟩
    · rw [hk]; exact List.Sublist.refl _
    · rw [hk]; exact List.sublist_cons_self x kept

theorem foldl_keep_isChain (fixes : List IndexedFix) {kept : List IndexedFix}
    (h : kept.IsChain fun y x => y.fix.overlaps x.fix = false) :
    (fixes.foldl keep kept).IsChain fun y x => y.fix.overlaps x.fix = false := by
  induction fixes generalizing kept with
  | nil => exact h
  | cons x fixes ih =>
    apply ih
    rcases keep_eq kept x with ⟨hk, hlast⟩ | ⟨hk, -⟩
    · rw [hk]; exact List.isChain_cons.2 ⟨hlast, h⟩
    · rw [hk]; exact h

theorem subset_foldl_keep (fixes : List IndexedFix) {kept : List IndexedFix} {x : IndexedFix}
    (h : x ∈ kept) : x ∈ fixes.foldl keep kept := by
  induction fixes generalizing kept with
  | nil => exact h
  | cons y fixes ih =>
    apply ih
    rcases keep_eq kept y with ⟨hk, -⟩ | ⟨hk, -⟩
    · rw [hk]; exact List.mem_cons_of_mem y h
    · rw [hk]; exact h

theorem kept_or_overlaps {R : IndexedFix → IndexedFix → Prop} {fixes kept : List IndexedFix}
    (h : (kept.reverse ++ fixes).Pairwise R) {x : IndexedFix} (hx : x ∈ fixes) :
    x ∈ fixes.foldl keep kept ∨
      ∃ y ∈ fixes.foldl keep kept, R y x ∧ x.fix.overlaps y.fix = true := by
  induction fixes generalizing kept with
  | nil => simp at hx
  | cons a fixes ih =>
    rcases keep_eq kept a with ⟨hk, -⟩ | ⟨hk, last, hlast, hover⟩
    · rcases List.mem_cons.1 hx with rfl | hx
      · left
        rw [List.foldl_cons, hk]
        exact subset_foldl_keep fixes (List.mem_cons_self ..)
      · rw [List.foldl_cons, hk]
        exact ih (by simpa using h) hx
    · rw [List.foldl_cons, hk]
      rcases List.mem_cons.1 hx with rfl | hx
      · have hmem := List.mem_of_mem_head? hlast
        have hR := (List.pairwise_append.1 h).2.2 last (by simpa using hmem) x (by simp)
        exact Or.inr ⟨last, subset_foldl_keep fixes hmem, hR, hover⟩
      · refine ih (h.sublist ?_) hx
        exact List.Sublist.append_left (List.sublist_cons_self a fixes) _

theorem candidates_sublist (ms : List Message) :
    List.Sublist (candidates ms) (backwards (indexedFixes ms)) := by
  have h := (foldl_keep_sublist (backwards (indexedFixes ms)) []).reverse
  simpa [candidates, withoutOverlaps] using h

theorem candidates_pairwise (ms : List Message) :
    (candidates ms).Pairwise IndexedFix.TriedBefore :=
  (backwards_pairwise (indexedFixes_pairwise ms)).sublist (candidates_sublist ms)

theorem mem_backwards {fixes : List IndexedFix} {x : IndexedFix} :
    x ∈ backwards fixes ↔ x ∈ fixes := List.mem_mergeSort

theorem mem_indexedFixes_of_mem_candidates {ms : List Message} {x : IndexedFix}
    (h : x ∈ candidates ms) : x ∈ indexedFixes ms :=
  mem_backwards.1 ((candidates_sublist ms).subset h)

theorem candidates_isChain (ms : List Message) :
    (candidates ms).IsChain fun x y => y.fix.overlaps x.fix = false := by
  unfold candidates withoutOverlaps
  rw [List.isChain_reverse]
  exact foldl_keep_isChain _ List.isChain_nil

theorem candidate_or_overlaps {ms : List Message} {x : IndexedFix} (hx : x ∈ indexedFixes ms) :
    x ∈ candidates ms ∨
      ∃ y ∈ candidates ms, y.TriedBefore x ∧ x.fix.overlaps y.fix = true := by
  have hord : (([] : List IndexedFix).reverse ++ backwards (indexedFixes ms)).Pairwise
      IndexedFix.TriedBefore := backwards_pairwise (indexedFixes_pairwise ms)
  have h := kept_or_overlaps hord (mem_backwards.2 hx)
  simpa [candidates, withoutOverlaps] using h

/-! ## What was applied -/

theorem applyOne_eq (r : FixResult) (x : IndexedFix) :
    (x.fix.isApplicable r.content = true ∧
      applyOne r x = ⟨x.fix.applyTo r.content, x.index :: r.applied⟩) ∨
    (x.fix.isApplicable r.content = false ∧ applyOne r x = r) := by
  unfold applyOne
  cases h : x.fix.isApplicable r.content <;> simp

theorem mem_applied_applyOne {r : FixResult} {x : IndexedFix} {i : Nat} :
    i ∈ (applyOne r x).applied ↔
      i ∈ r.applied ∨ (x.index = i ∧ x.fix.isApplicable r.content = true) := by
  rcases applyOne_eq r x with ⟨ha, he⟩ | ⟨ha, he⟩
  · simp [he, ha, eq_comm, or_comm]
  · simp [he, ha]

/-- An index is listed when its fix could be applied to what the fixes before it left. -/
theorem mem_applied_foldl {xs : List IndexedFix} {r : FixResult} {i : Nat} :
    i ∈ (xs.foldl applyOne r).applied ↔
      i ∈ r.applied ∨ ∃ pre x post, xs = pre ++ x :: post ∧ x.index = i ∧
        x.fix.isApplicable (pre.foldl applyOne r).content = true := by
  induction xs generalizing r with
  | nil => simp
  | cons a xs ih =>
    rw [List.foldl_cons, ih, mem_applied_applyOne, or_assoc]
    refine or_congr_right ⟨?_, ?_⟩
    · rintro (⟨hi, ha⟩ | ⟨pre, x, post, rfl, hi, hx⟩)
      · exact ⟨[], a, xs, rfl, hi, ha⟩
      · exact ⟨a :: pre, x, post, rfl, hi, hx⟩
    · rintro ⟨pre, x, post, heq, hi, hx⟩
      cases pre with
      | nil =>
        obtain ⟨rfl, rfl⟩ := List.cons.inj heq
        exact Or.inl ⟨hi, hx⟩
      | cons b pre =>
        obtain ⟨rfl, rfl⟩ := List.cons.inj heq
        exact Or.inr ⟨pre, x, post, rfl, hi, hx⟩

def contentAfter (content : Text) (xs : List IndexedFix) : Text :=
  (xs.foldl applyOne ⟨content, []⟩).content

theorem mem_fixes_iff {content : Text} {ms : List Message} {x : IndexedFix} :
    x ∈ (applyFixes content ms).fixes ms ↔
      ∃ pre post, candidates ms = pre ++ x :: post ∧
        x.fix.isApplicable (contentAfter content pre) = true := by
  simp only [FixResult.fixes, applyFixes, List.mem_filter, List.contains_iff_mem,
    List.mem_mergeSort, mem_applied_foldl, List.not_mem_nil, false_or]
  constructor
  · rintro ⟨hx, pre, y, post, hc, hi, hy⟩
    have hmem : y ∈ candidates ms := by rw [hc]; simp
    have hxy := indexedFixes_inj hx (mem_indexedFixes_of_mem_candidates hmem) hi.symm
    subst hxy
    exact ⟨pre, post, hc, hy⟩
  · rintro ⟨pre, post, hc, hx⟩
    have hmem : x ∈ candidates ms := by rw [hc]; simp
    exact ⟨mem_indexedFixes_of_mem_candidates hmem, pre, x, post, hc, rfl, hx⟩

/-! ## Overlapping fixes -/

/-- Only an insertion at the start of the second fix lets it overlap one kept before. -/
theorem insertion_between {ms : List Message}
    (hle : ∀ m ∈ ms, ∀ f ∈ m.fix, f.start ≤ f.stop) {x y : IndexedFix}
    {pre post : List IndexedFix} (hc : candidates ms = pre ++ y :: post) (hx : x ∈ pre)
    (hover : x.fix.overlaps y.fix = true) :
    ∃ before z, pre = before ++ [z] ∧ x ∈ before ∧
      z.fix.start = y.fix.start ∧ z.fix.stop = y.fix.start := by
  obtain ⟨before, z, rfl⟩ : ∃ before z, pre = before ++ [z] :=
    ⟨pre.dropLast, pre.getLast (List.ne_nil_of_mem hx), (List.dropLast_append_getLast _).symm⟩
  have hchain := candidates_isChain ms
  have hord := candidates_pairwise ms
  rw [hc, List.append_assoc, List.singleton_append] at hchain hord
  have hzy : y.fix.overlaps z.fix = false := (List.isChain_append_cons_cons.1 hchain).2.1
  have hxne : x ∈ before := by
    rcases List.mem_append.1 hx with hx | hx
    · exact hx
    · rw [List.mem_singleton.1 hx, Fix.overlaps_comm, hzy] at hover
      exact absurd hover (by decide)
  refine ⟨before, z, rfl, hxne, ?_⟩
  have hxz := ((List.pairwise_append.1 hord).2.2 x hxne z (by simp)).start_le
  have hzy' := ((List.pairwise_cons.1 (List.pairwise_append.1 hord).2.1).1 y (by simp)).start_le
  have hz : z.fix.start ≤ z.fix.stop := by
    have hmem : z ∈ candidates ms := by rw [hc]; simp
    exact start_le_stop hle (mem_indexedFixes_of_mem_candidates hmem)
  rw [Fix.overlaps_iff] at hover
  rw [← Bool.not_eq_true, Fix.overlaps_iff] at hzy
  omega

theorem insertion_applied {content : Text} {before : List IndexedFix} {y z : IndexedFix}
    (hs : z.fix.start = y.fix.start) (he : z.fix.stop = y.fix.start)
    (hy : y.fix.isApplicable (contentAfter content (before ++ [z])) = true) :
    z.fix.isApplicable (contentAfter content before) = true := by
  unfold contentAfter at hy ⊢
  rw [List.foldl_append, List.foldl_cons, List.foldl_nil] at hy
  rcases applyOne_eq (before.foldl applyOne ⟨content, []⟩) z with ⟨ha, -⟩ | ⟨-, hr⟩
  · exact ha
  · -- nothing was changed between the two, so what lets `y` in lets `z` in
    rw [hr, Fix.isApplicable_iff] at hy
    rw [Fix.isApplicable_iff, hs, he]
    exact ⟨Nat.le_refl _, Nat.le_trans hy.1 hy.2.1, hy.2.2.1, hy.2.2.1⟩

theorem mem_of_triedBefore {ms : List Message} {x y : IndexedFix} {pre post : List IndexedFix}
    (hc : candidates ms = pre ++ y :: post) (hx : x ∈ candidates ms) (h : x.TriedBefore y) :
    x ∈ pre := by
  have hord := candidates_pairwise ms
  rw [hc] at hx hord
  rcases List.mem_append.1 hx with hx | hx
  · exact hx
  · rcases List.mem_cons.1 hx with rfl | hx
    · exact absurd h h.asymm
    · exact absurd h ((List.pairwise_cons.1 (List.pairwise_append.1 hord).2.1).1 x hx).asymm

/-- If two applied fixes overlap, an insertion at the start of the one tried later was applied
between them. -/
theorem applied_insertion_between {content : Text} {ms : List Message}
    (hle : ∀ m ∈ ms, ∀ f ∈ m.fix, f.start ≤ f.stop) {x y : IndexedFix}
    (hx : x ∈ (applyFixes content ms).fixes ms) (hy : y ∈ (applyFixes content ms).fixes ms)
    (hxy : x.TriedBefore y) (hover : x.fix.overlaps y.fix = true) :
    ∃ z ∈ (applyFixes content ms).fixes ms, x.TriedBefore z ∧ z.TriedBefore y ∧
      z.fix.start = y.fix.start ∧ z.fix.stop = y.fix.start := by
  obtain ⟨pre, post, hc, hy⟩ := mem_fixes_iff.1 hy
  obtain ⟨pre', post', hc', -⟩ := mem_fixes_iff.1 hx
  have hxc : x ∈ candidates ms := by rw [hc']; simp
  obtain ⟨before, z, rfl, hxb, hs, he⟩ :=
    insertion_between hle hc (mem_of_triedBefore hc hxc hxy) hover
  rw [List.append_assoc, List.singleton_append] at hc
  have hord := candidates_pairwise ms
  rw [hc] at hord
  refine ⟨z, mem_fixes_iff.2 ⟨before, y :: post, hc, insertion_applied hs he hy⟩, ?_, ?_, hs, he⟩
  · exact (List.pairwise_append.1 hord).2.2 x hxb z (by simp)
  · exact (List.pairwise_cons.1 (List.pairwise_append.1 hord).2.1).1 y (by simp)

/-- Applied fixes are pairwise free of overlaps exactly when none of them reaches over an applied
insertion at its own start to a fix applied before that insertion. -/
theorem applied_disjoint_iff (content : Text) (ms : List Message)
    (hle : ∀ m ∈ ms, ∀ f ∈ m.fix, f.start ≤ f.stop) :
    (∀ x ∈ (applyFixes content ms).fixes ms, ∀ y ∈ (applyFixes content ms).fixes ms,
      x.index ≠ y.index → x.fix.overlaps y.fix = false) ↔
    (∀ x ∈ (applyFixes content ms).fixes ms, ∀ z ∈ (applyFixes content ms).fixes ms,
      ∀ y ∈ (applyFixes content ms).fixes ms, x.TriedBefore z → z.TriedBefore y →
        z.fix.start = y.fix.start → z.fix.stop = y.fix.start →
          y.fix.stop ≤ x.fix.start ∨ x.fix.stop = y.fix.start) := by
  constructor
  · intro h x hx z hz y hy hxz hzy hs he
    have hne : x.index ≠ y.index := by
      intro hi
      rw [indexedFixes_inj (List.mem_of_mem_filter hx) (List.mem_of_mem_filter hy) hi] at hxz
      exact hxz.asymm hzy
    have hfree := h x hx y hy hne
    have hzx := hxz.start_le
    have hxle := start_le_stop hle (List.mem_of_mem_filter hx)
    rw [← Bool.not_eq_true, Fix.overlaps_iff] at hfree
    omega
  · intro h x hx y hy hne
    rw [← Bool.not_eq_true]
    intro hover
    -- whichever of the two was tried first, the insertion between them meets the condition
    rcases IndexedFix.triedBefore_or hne with hxy | hyx
    · obtain ⟨z, hz, hxz, hzy, hs, he⟩ := applied_insertion_between hle hx hy hxy hover
      have := h x hx z hz y hy hxz hzy hs he
      rw [Fix.overlaps_iff] at hover
      omega
    · rw [Fix.overlaps_comm] at hover
      obtain ⟨z, hz, hyz, hzx, hs, he⟩ := applied_insertion_between hle hy hx hyx hover
      have := h y hy z hz x hx hyz hzx hs he
      rw [Fix.overlaps_iff] at hover
      omega

def messagesOf (fixes : List Fix) : List Message :=
  fixes.map (Message.ofRule "rule" "text" 1 1).withFix

/-- A fix after an insertion at its own start that stops short of the fix before them. -/
theorem applied_disjoint_short_of_next :
    let ms := messagesOf [⟨2, 3, "x"⟩, ⟨1, 1, "y"⟩, ⟨1, 2, "z"⟩]
    let r := applyFixes (Text.ofString "abc") ms
    r.applied = [0, 1, 2] ∧ ∀ x ∈ r.fixes ms, ∀ y ∈ r.fixes ms,
      x.index ≠ y.index → x.fix.overlaps y.fix = false := by
  intro ms r
  have hr : r.fixes ms = [⟨0, 2, 3, "x"⟩, ⟨1, 1, 1, "y"⟩, ⟨2, 1, 2, "z"⟩] := by cbv
  refine ⟨by cbv, (applied_disjoint_iff _ ms (by decide)).2 ?_⟩
  change ∀ x ∈ r.fixes ms, ∀ z ∈ r.fixes ms, ∀ y ∈ r.fixes ms, _
  rw [hr]
  decide

/-- Three fixes at one place, an insertion among them: all are applied, and two of them overlap. -/
theorem applied_fixes_overlap :
    ¬ ∀ (content : Text) (ms : List Message), (∀ m ∈ ms, ∀ f ∈ m.fix, f.start ≤ f.stop) →
      ∀ x ∈ (applyFixes content ms).fixes ms, ∀ y ∈ (applyFixes content ms).fixes ms,
        x.index ≠ y.index → x.fix.overlaps y.fix = false := by
  intro h
  let ms := messagesOf [⟨0, 2, "x"⟩, ⟨0, 0, "y"⟩, ⟨0, 1, "z"⟩]
  have hr : (applyFixes (Text.ofString "abc") ms).fixes ms =
      [⟨0, 0, 2, "x"⟩, ⟨1, 0, 0, "y"⟩, ⟨2, 0, 1, "z"⟩] := by cbv
  have hfree := h (Text.ofString "abc") ms (by decide)
  rw [hr] at hfree
  exact absurd (hfree ⟨0, 0, 2, "x"⟩ (by simp) ⟨2, 0, 1, "z"⟩ (by simp) (by decide)) (by decide)

end Fixing
end Inlay
