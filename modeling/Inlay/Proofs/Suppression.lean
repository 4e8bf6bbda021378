import Inlay.Proofs.Reordering

/-! Which usable fixes are left out. A fix that could be applied to the text and overlaps no other
fix that is applied may be left out all the same, in two ways. The fix kept last before it is one
that it overlaps: overlaps are sorted out before ranges are checked, so a fix that does not fit the
text takes its place and is not applied either. Or insertions at its own start come before it: its
end still counts bytes of the original text, and lies inside a character of what was inserted. -/

namespace Inlay

def IndexedFix.isInsertionAt (x : IndexedFix) (i : Nat) : Bool :=
  x.fix.start == i && x.fix.stop == i

theorem IndexedFix.isInsertionAt_iff {x : IndexedFix} {i : Nat} :
    x.isInsertionAt i = true ↔ x.fix.start = i ∧ x.fix.stop = i := by
  simp [isInsertionAt]

namespace Fixing

/-- What insertions at one place leave there: each goes in front of those tried before it. -/
def joined (xs : List IndexedFix) : Text := xs.reverse.flatMap fun x => Text.ofString x.fix.text

/-- What is inserted at the start of a fix by messages in front of its own. -/
def insertedBefore (ms : List Message) (x : IndexedFix) : Text :=
  joined ((indexedFixes ms).filter fun z =>
    z.isInsertionAt x.fix.start && decide (z.index < x.index))

/-- `y` is the fix that was kept last when `x` is tried. -/
def KeptLast (ms : List Message) (y x : IndexedFix) : Prop :=
  y ∈ candidates ms ∧ y.TriedBefore x ∧ ∀ z ∈ candidates ms, y.TriedBefore z → ¬ z.TriedBefore x

/-- Each fix that could be applied to the text is applied or overlaps one that is. -/
def NoneSuppressed (content : Text) (ms : List Message) : Prop :=
  ∀ x ∈ indexedFixes ms, x.fix.isApplicable content = true →
    x.index ∉ (applyFixes content ms).applied →
      ∃ y ∈ (applyFixes content ms).fixes ms, x.fix.overlaps y.fix = true

/-! ## Which fixes are tried -/

theorem insertion_mem_candidates {ms : List Message} {x : IndexedFix} (hx : x ∈ indexedFixes ms)
    {i : Nat} (hins : x.isInsertionAt i = true) : x ∈ candidates ms := by
  obtain ⟨hstart, hstop⟩ := IndexedFix.isInsertionAt_iff.1 hins
  rcases candidate_or_overlaps hx with hc | ⟨y, -, hyx, hover⟩
  · exact hc
  · have hle := hyx.start_le
    rw [Fix.overlaps_iff] at hover
    omega

theorem not_overlaps_keptLast {ms : List Message} {x y : IndexedFix} (hx : x ∈ candidates ms)
    (hlast : KeptLast ms y x) : x.fix.overlaps y.fix = false := by
  obtain ⟨hy, hyx, hlast⟩ := hlast
  obtain ⟨pre, post, hc⟩ := List.append_of_mem hx
  have hypre := mem_of_triedBefore hc hy hyx
  obtain ⟨before, z, rfl⟩ := (List.eq_nil_or_concat' pre).resolve_left (List.ne_nil_of_mem hypre)
  have hchain := candidates_isChain ms
  have hord := candidates_pairwise ms
  rw [hc, List.append_assoc, List.singleton_append] at hchain hord
  have hzx := (List.pairwise_cons.1 (List.pairwise_append.1 hord).2.1).1 x (by simp)
  rcases List.mem_append.1 hypre with hybefore | hyz
  · have hyz := (List.pairwise_append.1 hord).2.2 y hybefore z (by simp)
    exact absurd hzx (hlast z (by rw [hc]; simp) hyz)
  · rw [List.mem_singleton.1 hyz]
    exact (List.isChain_append_cons_cons.1 hchain).2.1

theorem keptLast_of_head? {ms : List Message} {x y : IndexedFix} {front back : List IndexedFix}
    (hsort : backwards (indexedFixes ms) = front ++ x :: back)
    (hrun : candidates ms = (back.foldl keep (front.foldl keep [])).reverse)
    (hy : (front.foldl keep []).head? = some y) : KeptLast ms y x := by
  have hord := backwards_pairwise (indexedFixes_pairwise ms)
  rw [hsort] at hord
  have hfront := foldl_keep_sublist front []
  rw [List.append_nil] at hfront
  have hkept := (List.pairwise_reverse.2 (List.pairwise_append.1 hord).1).sublist hfront
  have hymem := List.mem_of_mem_head? hy
  have hyx := (List.pairwise_append.1 hord).2.2 y (by simpa using hfront.subset hymem) x (by simp)
  refine ⟨?_, hyx, fun z hz hyz hzx => ?_⟩
  · rw [hrun, List.mem_reverse]
    exact subset_foldl_keep back hymem
  · rw [hrun, List.mem_reverse] at hz
    rcases List.mem_append.1 ((foldl_keep_sublist back _).subset hz) with hzback | hzkept
    · have hxz := (List.pairwise_cons.1 (List.pairwise_append.1 hord).2.1).1 z
        (by simpa using hzback)
      exact hxz.asymm hzx
    · obtain ⟨rest, hrest⟩ : ∃ rest, front.foldl keep [] = y :: rest :=
        List.head?_eq_some_iff.1 hy
      rw [hrest] at hkept hzkept
      rcases List.mem_cons.1 hzkept with rfl | hzrest
      · exact hyz.asymm hyz
      · exact hyz.asymm ((List.pairwise_cons.1 hkept).1 z hzrest)

/-- A fix is tried exactly when it does not overlap the fix kept last before it. -/
theorem mem_candidates_iff {ms : List Message} {x : IndexedFix} (hx : x ∈ indexedFixes ms) :
    x ∈ candidates ms ↔ ∀ y, KeptLast ms y x → x.fix.overlaps y.fix = false := by
  refine ⟨fun hc y hlast => not_overlaps_keptLast hc hlast, fun hlast => ?_⟩
  obtain ⟨front, back, hsort⟩ := List.append_of_mem (mem_backwards.2 hx)
  have hrun : candidates ms = (back.foldl keep (keep (front.foldl keep []) x)).reverse := by
    rw [candidates, withoutOverlaps, hsort, List.foldl_append, List.foldl_cons]
  rcases keep_eq (front.foldl keep []) x with ⟨hk, -⟩ | ⟨hk, y, hy, hover⟩
  · rw [hrun, hk, List.mem_reverse]
    exact subset_foldl_keep back (List.mem_cons_self ..)
  · -- the fix was dropped for the one on top, which is then the one kept last
    rw [hk] at hrun
    exact absurd (hlast y (keptLast_of_head? hsort hrun hy)) (by simp [hover])

theorem insertions_tried_before {ms : List Message} {x : IndexedFix} {pre post : List IndexedFix}
    (hc : candidates ms = pre ++ x :: post) :
    (indexedFixes ms).filter (fun z => z.isInsertionAt x.fix.start && decide (z.index < x.index)) =
      pre.filter (·.isInsertionAt x.fix.start) := by
  have hord := candidates_pairwise ms
  rw [hc] at hord
  obtain ⟨hpre, -, hprex⟩ := List.pairwise_append.1 hord
  have hindex :
      (pre.filter (·.isInsertionAt x.fix.start)).Pairwise fun y z => y.index < z.index := by
    refine (hpre.filter _).imp_of_mem fun {y z} hy hz hyz => ?_
    have hys := (IndexedFix.isInsertionAt_iff.1 (List.mem_filter.1 hy).2).1
    have hzs := (IndexedFix.isInsertionAt_iff.1 (List.mem_filter.1 hz).2).1
    unfold IndexedFix.TriedBefore at hyz
    omega
  have hall := (indexedFixes_pairwise ms).filter
    fun z => z.isInsertionAt x.fix.start && decide (z.index < x.index)
  have hnodup : ∀ {xs : List IndexedFix}, xs.Pairwise (fun y z => y.index < z.index) → xs.Nodup :=
    fun h => h.imp fun {y z} hyz heq => by rw [heq] at hyz; exact Nat.lt_irrefl _ hyz
  refine List.Perm.eq_of_pairwise (fun y z _ _ hyz hzy => absurd hzy (Nat.lt_asymm hyz)) hall hindex
    ((List.perm_ext_iff_of_nodup (hnodup hall) (hnodup hindex)).2 fun z => ?_)
  simp only [List.mem_filter, Bool.and_eq_true, decide_eq_true_eq]
  constructor
  · rintro ⟨hz, hins, hlt⟩
    have hzs := (IndexedFix.isInsertionAt_iff.1 hins).1
    exact ⟨mem_of_triedBefore hc (insertion_mem_candidates hz hins) (Or.inr ⟨hzs, hlt⟩), hins⟩
  · rintro ⟨hz, hins⟩
    have hzs := (IndexedFix.isInsertionAt_iff.1 hins).1
    have hzx := hprex z hz x (by simp)
    refine ⟨mem_indexedFixes_of_mem_candidates (by rw [hc]; simp [hz]), hins, ?_⟩
    unfold IndexedFix.TriedBefore at hzx
    omega

/-! ## What a run leaves around a fix -/

theorem joined_concat (xs : List IndexedFix) (x : IndexedFix) :
    joined (xs ++ [x]) = Text.ofString x.fix.text ++ joined xs := by
  simp [joined]

theorem isString_joined (xs : List IndexedFix) : (joined xs).IsString := by
  induction xs using List.reverseRecOn with
  | nil => exact ⟨[], rfl⟩
  | append_singleton xs x ih =>
    rw [joined_concat]
    exact (Text.isString_ofString x.fix.text).append ih

theorem contentAfter_concat (content : Text) (xs : List IndexedFix) (x : IndexedFix) :
    contentAfter content (xs ++ [x]) =
      if x.fix.isApplicable (contentAfter content xs) then x.fix.applyTo (contentAfter content xs)
      else contentAfter content xs := by
  unfold contentAfter
  rw [List.foldl_append, List.foldl_cons, List.foldl_nil, applyOne]
  split <;> rfl

theorem exists_append_contentAfter {p q : Text} (hq : q.StartsChar) {xs : List IndexedFix}
    (hxs : ∀ x ∈ xs, p.length ≤ x.fix.start) :
    ∃ q', contentAfter (p ++ q) xs = p ++ q' ∧ q'.StartsChar := by
  induction xs using List.reverseRecOn with
  | nil => exact ⟨q, rfl, hq⟩
  | append_singleton xs x ih =>
    obtain ⟨hxs, hx⟩ := List.forall_mem_append.1 hxs
    obtain ⟨r, hr, hrchar⟩ := ih hxs
    rw [contentAfter_concat, hr]
    split
    · next happ => exact Fix.exists_append_of_applyTo hrchar (hx x (by simp)) happ
    · exact ⟨r, rfl, hrchar⟩

/-- The text is the original one up to the end of a range, but for what is inserted at its start. -/
structure Opened (content : Text) (x : Fix) (inserted t : Text) : Prop where
  isString : inserted.IsString
  eq_append : ∃ w, w.StartsChar ∧
    t = content.take x.start ++ (inserted ++ (content.extract x.start x.stop ++ w))

namespace Opened

variable {content inserted t : Text} {x y : Fix} (happ : x.isApplicable content = true)
  (hlt : x.start < x.stop)

include happ hlt

theorem start : Opened content x [] content := by
  have hw := Fix.startsChar_drop_stop happ hlt
  obtain ⟨p, c, hcut, rfl, rfl, -⟩ := Fix.exists_cut happ hlt hw
  refine ⟨⟨[], rfl⟩, content.drop x.stop, hw, ?_⟩
  rw [List.nil_append, ← hcut, List.take_append_drop]

theorem insertion (h : Opened content x inserted t) (hstart : y.start = x.start)
    (hstop : y.stop = x.start) :
    y.isApplicable t = true ∧
      Opened content x (Text.ofString y.text ++ inserted) (y.applyTo t) := by
  obtain ⟨hins, w, hw, rfl⟩ := h
  obtain ⟨p, c, -, rfl, rfl, hp, -, hchar, -⟩ := Fix.exists_cut happ hlt hw
  have hfront := hchar.imp_right fun hc =>
    Text.startsChar_append hins.startsChar fun _ => hc
  have hcut := @Fix.isApplicable_cut_iff _ [] (inserted ++ (content.extract x.start x.stop ++ w)) y
    (hstart.trans hp) (hstop.trans hp)
  have happly := @Fix.applyTo_cut _ [] (inserted ++ (content.extract x.start x.stop ++ w)) y
    (hstart.trans hp) (hstop.trans hp)
  rw [List.nil_append] at hcut happly
  refine ⟨hcut.2 ⟨hfront, by rwa [List.append_nil]⟩, ?_⟩
  exact ⟨(Text.isString_ofString y.text).append hins, w, hw, by rw [happly, List.append_assoc]⟩

theorem behind (h : Opened content x [] t) (hstart : x.stop ≤ y.start)
    (hy : y.isApplicable t = true) : Opened content x [] (y.applyTo t) := by
  obtain ⟨hins, w, hw, rfl⟩ := h
  obtain ⟨p, c, -, rfl, rfl, hp, hc, -⟩ := Fix.exists_cut happ hlt hw
  rw [List.nil_append, ← List.append_assoc] at hy ⊢
  obtain ⟨w', hw', hchar⟩ :=
    Fix.exists_append_of_applyTo hw (by rw [List.length_append]; omega) hy
  exact ⟨hins, w', hchar, by rw [hw', List.append_assoc, List.nil_append]⟩

theorem isApplicable_iff (h : Opened content x inserted t) :
    x.isApplicable t = true ↔
      (content.splice x.start x.start inserted).isBoundary x.stop = true := by
  obtain ⟨hins, w, hw, rfl⟩ := h
  have hw₀ := Fix.startsChar_drop_stop happ hlt
  obtain ⟨p, c, hcut, hpeq, hceq, hp, hc, -⟩ := Fix.exists_cut happ hlt hw₀
  obtain ⟨p', c', -, rfl, rfl, -, -, hchar, -⟩ := Fix.exists_cut happ hlt hw
  rw [← hpeq, ← hceq] at hchar ⊢
  rw [List.take_append_drop] at hcut
  have hsplice : content.splice x.start x.start inserted =
      (p ++ inserted ++ c) ++ content.drop x.stop := by
    have hdrop : content.drop x.start = c ++ content.drop x.stop := by
      conv_lhs => rw [hcut, hp, List.drop_left]
    rw [Text.splice, ← hpeq, hdrop]
    simp only [List.append_assoc]
  have hlen : x.stop ≤ (p ++ inserted ++ c).length := by
    simp only [List.length_append]
    omega
  have hstart : Text.isBoundary (p ++ (inserted ++ (c ++ w))) x.start = true := by
    rw [hp, Text.isBoundary_append_length]
    exact hchar.imp_right fun h => Text.startsChar_append hins.startsChar fun _ => h
  have hopen : p ++ (inserted ++ (c ++ w)) = (p ++ inserted ++ c) ++ w := by
    simp only [List.append_assoc]
  rw [Fix.isApplicable_iff, hstart, hopen, hsplice, Text.isBoundary_append_of_le hw hlen,
    Text.isBoundary_append_of_le hw₀ hlen, List.length_append]
  simp only [hlt.le, hlen.trans (Nat.le_add_right _ _), true_and]

end Opened

/-- Around a fix that no applied fix overlaps, the fixes tried before it change nothing but what
insertions at its start put there. -/
theorem opened_contentAfter {content : Text} {x : Fix} (happ : x.isApplicable content = true)
    (hlt : x.start < x.stop) {xs : List IndexedFix}
    (hord : xs.Pairwise fun y z => z.fix.start ≤ y.fix.start)
    (hxs : ∀ y ∈ xs, x.start ≤ y.fix.start ∧ y.fix.start ≤ y.fix.stop)
    (hfree : ∀ pre y post, xs = pre ++ y :: post →
      y.fix.isApplicable (contentAfter content pre) = true → x.overlaps y.fix = false) :
    Opened content x (joined (xs.filter (·.isInsertionAt x.start))) (contentAfter content xs) := by
  induction xs using List.reverseRecOn with
  | nil => exact Opened.start happ hlt
  | append_singleton xs y ih =>
    obtain ⟨hxs, hy⟩ := List.forall_mem_append.1 hxs
    obtain ⟨hord, -, hlater⟩ := List.pairwise_append.1 hord
    have hopened := ih hord hxs fun pre z post hz =>
      hfree pre z (post ++ [y]) (by rw [hz]; simp)
    obtain ⟨hstart, hle⟩ := hy y (by simp)
    rw [contentAfter_concat, List.filter_append]
    by_cases hins : y.isInsertionAt x.start = true
    · obtain ⟨hs, he⟩ := IndexedFix.isInsertionAt_iff.1 hins
      obtain ⟨hyapp, hopened'⟩ := hopened.insertion happ hlt hs he
      rw [if_pos hyapp, List.filter_cons_of_pos (by simpa using hins), List.filter_nil,
        joined_concat]
      exact hopened'
    · rw [List.filter_cons_of_neg (by simpa using hins), List.filter_nil, List.append_nil]
      split
      · next hyapp =>
        have hover := hfree xs y [] rfl hyapp
        rw [IndexedFix.isInsertionAt_iff] at hins
        rw [← Bool.not_eq_true, Fix.overlaps_iff] at hover
        -- what is applied behind the range comes before all insertions at its start
        have hnone : xs.filter (·.isInsertionAt x.start) = [] := by
          refine List.filter_eq_nil_iff.2 fun z hz hzins => ?_
          have hzs := (IndexedFix.isInsertionAt_iff.1 hzins).1
          have hzy := hlater z hz y (by simp)
          omega
        rw [hnone] at hopened ⊢
        exact hopened.behind happ hlt (by omega) hyapp
      · exact hopened

/-- An offset keeps its boundary while fixes that start there or later are tried. -/
theorem isBoundary_contentAfter {content : Text} {i : Nat} (hi : i ≤ content.length)
    (hboundary : content.isBoundary i = true) {xs : List IndexedFix}
    (hxs : ∀ x ∈ xs, i ≤ x.fix.start) :
    i ≤ (contentAfter content xs).length ∧ (contentAfter content xs).isBoundary i = true := by
  rcases (Text.isBoundary_iff hi).1 hboundary with rfl | hchar
  · exact ⟨Nat.zero_le _, Text.isBoundary_zero _⟩
  · obtain ⟨q, hq, hqchar⟩ := @exists_append_contentAfter (content.take i) _ hchar xs
      fun x hx => (List.length_take_le i content).trans (hxs x hx)
    rw [List.take_append_drop] at hq
    rw [hq]
    refine ⟨?_, Text.isBoundary_take_append hqchar hi⟩
    rw [List.length_append, List.length_take]
    omega

theorem isBoundary_splice_start {content inserted : Text} {i : Nat} (hi : i ≤ content.length)
    (hboundary : content.isBoundary i = true) (hins : inserted.IsString) :
    (content.splice i i inserted).isBoundary i = true := by
  rcases (Text.isBoundary_iff hi).1 hboundary with rfl | hchar
  · exact Text.isBoundary_zero _
  · rw [Text.splice, List.append_assoc]
    exact Text.isBoundary_take_append (Text.startsChar_append hins.startsChar fun _ => hchar) hi

/-! ## Fixes that no other applied fix overlaps -/

theorem mem_fixes_iff_of_candidates {content : Text} {ms : List Message} {x : IndexedFix}
    {pre post : List IndexedFix} (hc : candidates ms = pre ++ x :: post) :
    x ∈ (applyFixes content ms).fixes ms ↔
      x.fix.isApplicable (contentAfter content pre) = true := by
  have hnodup : (candidates ms).Nodup := List.Nodup.of_map _ (candidates_index_nodup ms)
  rw [mem_fixes_iff]
  constructor
  · rintro ⟨pre', post', hc', happ⟩
    rw [hc] at hnodup hc'
    obtain ⟨-, hpost, hdisjoint⟩ := List.nodup_append.1 hnodup
    have hxpre : x ∉ pre := fun h => hdisjoint x h x (by simp) rfl
    obtain ⟨rfl, -⟩ :=
      (List.append_cons_inj_of_notMem hxpre (List.nodup_cons.1 hpost).1).1 hc'
    exact happ
  · exact fun happ => ⟨pre, post, hc, happ⟩

/-- A usable fix that overlaps no other applied fix is applied exactly when it is tried and its end
stays a boundary behind what is inserted at its start. -/
theorem mem_fixes_iff_of_free {content : Text} {ms : List Message}
    (hle : ∀ m ∈ ms, ∀ f ∈ m.fix, f.start ≤ f.stop) {x : IndexedFix} (hx : x ∈ indexedFixes ms)
    (happ : x.fix.isApplicable content = true)
    (hfree : ∀ y ∈ (applyFixes content ms).fixes ms, y.index ≠ x.index →
      x.fix.overlaps y.fix = false) :
    x ∈ (applyFixes content ms).fixes ms ↔
      x ∈ candidates ms ∧
        (content.splice x.fix.start x.fix.start (insertedBefore ms x)).isBoundary x.fix.stop =
          true := by
  by_cases hc : x ∈ candidates ms
  · obtain ⟨pre, post, hcut⟩ := List.append_of_mem hc
    have hord := candidates_pairwise ms
    rw [hcut] at hord
    obtain ⟨hpre, -, hprex⟩ := List.pairwise_append.1 hord
    have hstart : ∀ y ∈ pre, x.fix.start ≤ y.fix.start :=
      fun y hy => (hprex y hy x (by simp)).start_le
    rw [mem_fixes_iff_of_candidates hcut, insertedBefore, insertions_tried_before hcut]
    simp only [hc, true_and]
    rcases Nat.lt_or_eq_of_le (start_le_stop hle hx) with hlt | heq
    · refine Opened.isApplicable_iff happ hlt (opened_contentAfter happ hlt
        (hpre.imp fun h => h.start_le) (fun y hy => ⟨hstart y hy, ?_⟩) ?_)
      · exact start_le_stop hle (mem_indexedFixes_of_mem_candidates (by rw [hcut]; simp [hy]))
      · rintro before y after rfl hyapp
        have hyx := hprex y (by simp) x (by simp)
        rw [List.append_assoc, List.cons_append] at hcut
        refine hfree y ((mem_fixes_iff_of_candidates hcut).2 hyapp) fun hindex => ?_
        have hmem : y ∈ candidates ms := by rw [hcut]; simp
        rw [indexedFixes_inj (mem_indexedFixes_of_mem_candidates hmem) hx hindex] at hyx
        exact hyx.asymm hyx
    · -- an insertion at a boundary can be applied whatever comes before it
      obtain ⟨-, hlen, hboundary, -⟩ := Fix.isApplicable_iff.1 happ
      obtain ⟨hlen', hboundary'⟩ := isBoundary_contentAfter (by omega) hboundary hstart
      have hsplice := isBoundary_splice_start (by omega) hboundary
        (isString_joined (pre.filter (·.isInsertionAt x.fix.start)))
      rw [Fix.isApplicable_iff, ← heq]
      simp only [le_refl, hlen', hboundary', hsplice, and_self]
  · have hout : x ∉ (applyFixes content ms).fixes ms := by
      intro hmem
      obtain ⟨pre, post, hcut, -⟩ := mem_fixes_iff.1 hmem
      exact hc (by rw [hcut]; simp)
    simp only [hout, hc, false_and]

/-- Each usable fix is applied or overlaps one that is, exactly when the following holds for every
usable fix that overlaps no other applied fix: it does not overlap the fix kept last before it
either, and its end splits no character once the insertions reported before it at its start are
put in. -/
theorem noneSuppressed_iff (content : Text) (ms : List Message)
    (hle : ∀ m ∈ ms, ∀ f ∈ m.fix, f.start ≤ f.stop) :
    NoneSuppressed content ms ↔
      ∀ x ∈ indexedFixes ms, x.fix.isApplicable content = true →
        (∀ y ∈ (applyFixes content ms).fixes ms, y.index ≠ x.index →
          x.fix.overlaps y.fix = false) →
        (∀ y, KeptLast ms y x → x.fix.overlaps y.fix = false) ∧
        (content.splice x.fix.start x.fix.start (insertedBefore ms x)).isBoundary x.fix.stop =
          true := by
  have happlied : ∀ x ∈ indexedFixes ms, x.index ∈ (applyFixes content ms).applied ↔
      x ∈ (applyFixes content ms).fixes ms := by
    intro x hx
    rw [FixResult.fixes, List.mem_filter, List.contains_iff_mem, and_iff_right hx]
  constructor
  · intro hnone x hx happ hfree
    rw [← mem_candidates_iff hx, ← mem_fixes_iff_of_free hle hx happ hfree, ← happlied x hx]
    by_contra hout
    obtain ⟨y, hy, hover⟩ := hnone x hx happ hout
    have hne : y.index ≠ x.index := by
      intro hindex
      rw [← hindex, happlied y (List.mem_of_mem_filter hy)] at hout
      exact hout hy
    rw [hfree y hy hne] at hover
    cases hover
  · intro hcond x hx happ hout
    by_contra hover
    have hfree : ∀ y ∈ (applyFixes content ms).fixes ms, x.fix.overlaps y.fix = false := by
      intro y hy
      rw [← Bool.not_eq_true]
      exact fun h => hover ⟨y, hy, h⟩
    have hboth := hcond x hx happ fun y hy _ => hfree y hy
    rw [← mem_candidates_iff hx,
      ← mem_fixes_iff_of_free hle hx happ fun y hy _ => hfree y hy] at hboth
    exact hout ((happlied x hx).2 hboth)

/-- A usable fix that overlaps an applied one, a fix out of range that takes the place of none, and
an insertion at the start of a fix that still ends on a boundary. -/
theorem noneSuppressed_mixed :
    let content := Text.ofString "caf\u00e9 abc"
    let ms := messagesOf [⟨5, 7, "x"⟩, ⟨3, 6, "over"⟩, ⟨8, 99, "out"⟩, ⟨0, 0, "!"⟩, ⟨0, 3, "y"⟩]
    (∀ m ∈ ms, ∀ f ∈ m.fix, f.start ≤ f.stop) ∧
    (applyFixes content ms).applied = [0, 3, 4] ∧ NoneSuppressed content ms := by
  intro content ms
  have hle : ∀ m ∈ ms, ∀ f ∈ m.fix, f.start ≤ f.stop := by decide
  have hcand : candidates ms =
      [⟨2, 8, 99, "out"⟩, ⟨0, 5, 7, "x"⟩, ⟨3, 0, 0, "!"⟩, ⟨4, 0, 3, "y"⟩] := by cbv
  have hfixes : (applyFixes content ms).fixes ms =
      [⟨0, 5, 7, "x"⟩, ⟨3, 0, 0, "!"⟩, ⟨4, 0, 3, "y"⟩] := by cbv
  refine ⟨hle, by cbv, (noneSuppressed_iff content ms hle).2 ?_⟩
  simp only [KeptLast, and_imp]
  rw [hfixes, hcand]
  decide +kernel

/-- A fix out of range takes the place of a usable one and is not applied either. And a character
put in at the start of a usable fix keeps that fix from being applied. -/
theorem usable_fix_suppressed :
    let outOfRange := messagesOf [⟨0, 2, "x"⟩, ⟨1, 100, "y"⟩]
    let inserted := messagesOf [⟨0, 0, "\u00e9"⟩, ⟨0, 1, "x"⟩]
    (∀ m ∈ outOfRange ++ inserted, ∀ f ∈ m.fix, f.start ≤ f.stop) ∧
    ¬ NoneSuppressed (Text.ofString "abc") outOfRange ∧
    ¬ NoneSuppressed (Text.ofString "ab") inserted := by
  intro outOfRange inserted
  refine ⟨by decide, fun h => ?_, fun h => ?_⟩
  · have hr : applyFixes (Text.ofString "abc") outOfRange = ⟨Text.ofString "abc", []⟩ := by cbv
    rw [NoneSuppressed, hr] at h
    obtain ⟨y, hy, -⟩ := h ⟨0, 0, 2, "x"⟩ (.head _) (by decide) (by decide)
    exact absurd hy List.not_mem_nil
  · have hr : applyFixes (Text.ofString "ab") inserted = ⟨Text.ofString "\u00e9ab", [0]⟩ := by cbv
    rw [NoneSuppressed, hr] at h
    obtain ⟨y, hy, hover⟩ := h ⟨1, 0, 1, "x"⟩ (.tail _ (.head _)) (by decide) (by decide)
    obtain rfl : y = ⟨0, 0, 0, "\u00e9"⟩ := List.mem_singleton.1 hy
    exact absurd hover (by decide)

end Fixing
end Inlay
