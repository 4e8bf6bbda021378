import Inlay.Proofs.Boundary
import Inlay.Proofs.Overlap

/-! Applying fixes one after the other, from the end of a text backwards, is the same as replacing
all their ranges at once. The invariant of the run: up to the start of the fix applied last the text
is still the original one, so what is in range and on boundaries there was so at the beginning. -/

namespace Inlay

namespace Text

/-- What stands from offset `pos` of a text on, once the ranges of fixes in ascending order are
replaced by their texts and every other byte is kept. -/
def replaceFrom (t : Text) (pos : Nat) : List Fix → Text
  | [] => t.drop pos
  | f :: fs => (t.drop pos).take (f.start - pos) ++ (ofString f.text ++ replaceFrom t f.stop fs)

/-- The text with the ranges of fixes in ascending order replaced, all at once. -/
def replaceAll (t : Text) (fs : List Fix) : Text := replaceFrom t 0 fs

/-- Ranges of the text in ascending order, none of which reaches into the next. -/
structure Ranges (t : Text) (fs : List Fix) : Prop where
  ordered : fs.Pairwise fun f g => f.stop ≤ g.start
  inside : ∀ f ∈ fs, f.isApplicable t = true

theorem Ranges.nil (t : Text) : Ranges t [] := ⟨List.Pairwise.nil, by simp⟩

theorem Ranges.tail {t : Text} {f : Fix} {fs : List Fix} (h : Ranges t (f :: fs)) :
    Ranges t fs :=
  ⟨(List.pairwise_cons.1 h.ordered).2, fun g hg => h.inside g (List.mem_cons_of_mem f hg)⟩

theorem Ranges.head_le {t : Text} {f : Fix} {fs : List Fix} (h : Ranges t (f :: fs)) :
    ∀ g ∈ fs.head?, f.stop ≤ g.start :=
  fun g hg => (List.pairwise_cons.1 h.ordered).1 g (List.mem_of_mem_head? hg)

theorem Ranges.head {t : Text} {f : Fix} {fs : List Fix} (h : Ranges t (f :: fs)) :
    f.start ≤ f.stop ∧ f.stop ≤ t.length ∧ t.isBoundary f.start = true ∧
      t.isBoundary f.stop = true :=
  Fix.isApplicable_iff.1 (h.inside f (List.mem_cons_self ..))

theorem replaceAll_nil (t : Text) : t.replaceAll [] = t := rfl

theorem replaceAll_cons (t : Text) (f : Fix) (fs : List Fix) :
    t.replaceAll (f :: fs) = t.take f.start ++ (ofString f.text ++ t.replaceFrom f.stop fs) := rfl

theorem splice_replaceAll {t : Text} {f : Fix} {fs : List Fix} (h : Ranges t (f :: fs)) :
    (t.replaceAll fs).splice f.start f.stop (ofString f.text) = t.replaceAll (f :: fs) := by
  obtain ⟨hle, hlen, -, -⟩ := h.head
  cases fs with
  | nil => simp [replaceAll_cons, replaceAll_nil, splice, replaceFrom]
  | cons g gs =>
    have hfg : f.stop ≤ g.start := h.head_le g (by simp)
    obtain ⟨hg, hglen, -, -⟩ := h.tail.head
    have htake : (t.replaceAll (g :: gs)).take f.start = t.take f.start := by
      rw [replaceAll_cons, List.take_append_of_le_length (by simp; omega), List.take_take,
        Nat.min_eq_left (by omega)]
    have hdrop : (t.replaceAll (g :: gs)).drop f.stop = t.replaceFrom f.stop (g :: gs) := by
      rw [replaceAll_cons, List.drop_append_of_le_length (by simp; omega), List.drop_take]
      rfl
    rw [splice, htake, hdrop, replaceAll_cons, List.append_assoc]

theorem startsChar_replaceFrom {t : Text} {pos : Nat} {fs : List Fix} (h : Ranges t fs)
    (hpos : StartsChar (t.drop pos)) (hle : ∀ f ∈ fs.head?, pos ≤ f.start) :
    StartsChar (t.replaceFrom pos fs) := by
  induction fs generalizing pos with
  | nil => exact hpos
  | cons f fs ih =>
    obtain ⟨hf, hlen, -, hstop⟩ := h.head
    have hposf : pos ≤ f.start := hle f (by simp)
    have hrest : StartsChar (t.drop f.stop) := by
      rcases (isBoundary_iff hlen).1 hstop with hz | hs
      · have : pos = f.stop := by omega
        rwa [← this]
      · exact hs
    refine startsChar_append (startsChar_take hpos _) fun _ => ?_
    exact startsChar_append (isString_ofString f.text).startsChar fun _ =>
      ih h.tail hrest h.head_le

theorem isBoundary_replaceAll {t : Text} {fs : List Fix} (h : Ranges t fs) {i : Nat}
    (hi : ∀ f ∈ fs.head?, i ≤ f.start) : (t.replaceAll fs).isBoundary i = t.isBoundary i := by
  cases fs with
  | nil => rfl
  | cons f fs =>
    obtain ⟨hf, hlen, hstart, hstop⟩ := h.head
    have htake : (t.take f.start).length = f.start := by
      rw [List.length_take]
      omega
    rw [replaceAll_cons]
    rcases Nat.lt_or_ge i f.start with hlt | hge
    · have ht := isBoundary_append_of_lt (s := t.take f.start) (t := t.drop f.start) (i := i)
        (by omega)
      rw [List.take_append_drop] at ht
      rw [isBoundary_append_of_lt (by omega), ht]
    · -- the first range starts at `i`: its text is a string, and after an empty one is a boundary
      have hif : i = f.start := Nat.le_antisymm (hi f (by simp)) hge
      subst hif
      rw [hstart]
      rcases Nat.eq_zero_or_pos f.start with hz | hpos
      · rw [hz]
        exact isBoundary_zero _
      · have hrest : StartsChar (t.drop f.stop) :=
          ((isBoundary_iff hlen).1 hstop).resolve_left (by omega)
        refine isBoundary_take_append ?_ (by omega)
        exact startsChar_append (isString_ofString f.text).startsChar fun _ =>
          startsChar_replaceFrom h.tail hrest h.head_le

theorem isApplicable_replaceAll {t : Text} {fs : List Fix} (h : Ranges t fs) {x : Fix}
    (hx : x.start ≤ x.stop) (hfs : ∀ f ∈ fs.head?, x.stop ≤ f.start) :
    x.isApplicable (t.replaceAll fs) = x.isApplicable t := by
  rw [Bool.eq_iff_iff, Fix.isApplicable_iff, Fix.isApplicable_iff, isBoundary_replaceAll h hfs,
    isBoundary_replaceAll h fun f hf => Nat.le_trans hx (hfs f hf)]
  cases fs with
  | nil => exact Iff.rfl
  | cons f fs =>
    obtain ⟨hf, hlen, -, -⟩ := h.head
    have hxf := hfs f (by simp)
    have hlong : f.start ≤ (t.replaceAll (f :: fs)).length := by
      rw [replaceAll_cons, List.length_append, List.length_take]
      omega
    constructor
    · rintro ⟨h₁, -, h₃⟩
      exact ⟨h₁, by omega, h₃⟩
    · rintro ⟨h₁, -, h₃⟩
      exact ⟨h₁, by omega, h₃⟩

end Text

namespace Fixing

def ascending (fixes : List IndexedFix) : List IndexedFix :=
  fixes.mergeSort fun x y => x.fix.start ≤ y.fix.start

theorem ascending_sorted (fixes : List IndexedFix) :
    (ascending fixes).Pairwise fun x y => x.fix.start ≤ y.fix.start := by
  have h := @List.pairwise_mergeSort _ (fun x y : IndexedFix => decide (x.fix.start ≤ y.fix.start))
    (by intro x y z; simp only [decide_eq_true_eq]; omega)
    (by intro x y; simp only [Bool.or_eq_true, decide_eq_true_eq]; omega) fixes
  simpa only [ascending, decide_eq_true_eq] using h

theorem foldl_applyOne {content : Text} {xs done : List IndexedFix}
    (hord : (xs.reverse ++ done).Pairwise fun x y => x.fix.stop ≤ y.fix.start)
    (hle : ∀ x ∈ xs, x.fix.start ≤ x.fix.stop)
    (hdone : ∀ x ∈ done, x.fix.isApplicable content = true) (applied : List Nat) :
    xs.foldl applyOne ⟨content.replaceAll (done.map (·.fix)), applied⟩ =
      ⟨content.replaceAll
          (((xs.filter (·.fix.isApplicable content)).reverse ++ done).map (·.fix)),
        (xs.filter (·.fix.isApplicable content)).reverse.map (·.index) ++ applied⟩ := by
  induction xs generalizing done applied with
  | nil => simp
  | cons x xs ih =>
    rw [List.reverse_cons, List.append_assoc, List.singleton_append] at hord
    have hxs : ∀ y ∈ xs, y.fix.start ≤ y.fix.stop := fun y hy => hle y (List.mem_cons_of_mem x hy)
    have hcons := (List.pairwise_append.1 hord).2.1
    have hbefore : ∀ f ∈ (done.map (·.fix)).head?, x.fix.stop ≤ f.start := by
      intro f hf
      obtain ⟨y, hy, rfl⟩ := List.mem_map.1 (List.mem_of_mem_head? hf)
      exact (List.pairwise_cons.1 hcons).1 y hy
    have hranges : Text.Ranges content (done.map (·.fix)) :=
      ⟨List.pairwise_map.2 (List.pairwise_cons.1 hcons).2, by simpa using hdone⟩
    have hsame := Text.isApplicable_replaceAll hranges (hle x (by simp)) hbefore
    rw [List.foldl_cons]
    cases happ : x.fix.isApplicable content with
    | false =>
      have hskip : applyOne ⟨content.replaceAll (done.map (·.fix)), applied⟩ x =
          ⟨content.replaceAll (done.map (·.fix)), applied⟩ := by simp [applyOne, hsame, happ]
      have hord' := hord.sublist (List.Sublist.append_left (List.sublist_cons_self x done) _)
      rw [hskip, ih hord' hxs hdone]
      simp [happ]
    | true =>
      have hdone' : ∀ y ∈ x :: done, y.fix.isApplicable content = true := by
        simpa [happ] using hdone
      have hranges' : Text.Ranges content ((x :: done).map (·.fix)) :=
        ⟨List.pairwise_map.2 hcons, by simpa using hdone'⟩
      have hone : applyOne ⟨content.replaceAll (done.map (·.fix)), applied⟩ x =
          ⟨content.replaceAll ((x :: done).map (·.fix)), x.index :: applied⟩ := by
        rw [applyOne, if_pos (by rw [hsame, happ]), Fix.applyTo]
        rw [List.map_cons] at hranges' ⊢
        rw [Text.splice_replaceAll hranges']
      rw [hone, ih hord hxs hdone']
      simp [happ]

/-- With distinct starts every candidate ends at or before the start of the one before it. -/
theorem candidates_disjoint {ms : List Message}
    (hle : ∀ m ∈ ms, ∀ f ∈ m.fix, f.start ≤ f.stop)
    (hdist : ((indexedFixes ms).map (·.fix.start)).Nodup) :
    (candidates ms).Pairwise fun x y => y.fix.stop ≤ x.fix.start := by
  refine (candidates_pairwise ms).imp_of_mem fun {x y} hx hy hxy => ?_
  have hinj := List.inj_on_of_nodup_map hdist
  obtain ⟨pre, post, hc⟩ := List.append_of_mem hy
  have hover : x.fix.overlaps y.fix ≠ true := by
    intro hover
    obtain ⟨before, z, rfl, -, hs, -⟩ :=
      insertion_between hle hc (mem_of_triedBefore hc hx hxy) hover
    have hz : z ∈ candidates ms := by rw [hc]; simp
    have hzy := hinj (mem_indexedFixes_of_mem_candidates hz)
      (mem_indexedFixes_of_mem_candidates hy) hs
    have hord := candidates_pairwise ms
    rw [hc, List.append_assoc, List.singleton_append, hzy] at hord
    have hyy := (List.pairwise_cons.1 (List.pairwise_append.1 hord).2.1).1 y (by simp)
    exact hyy.asymm hyy
  have hne : x.fix.start ≠ y.fix.start := by
    intro h
    rw [hinj (mem_indexedFixes_of_mem_candidates hx) (mem_indexedFixes_of_mem_candidates hy) h]
      at hxy
    exact hxy.asymm hxy
  have hstart := hxy.start_le
  have hxle := start_le_stop hle (mem_indexedFixes_of_mem_candidates hx)
  rw [ne_eq, Fix.overlaps_iff] at hover
  omega

/-! ## The list of applied fixes -/

theorem applied_sublist (xs : List IndexedFix) (r : FixResult) :
    List.Sublist (xs.foldl applyOne r).applied ((xs.map (·.index)).reverse ++ r.applied) := by
  induction xs generalizing r with
  | nil => simp
  | cons x xs ih =>
    have h := ih (applyOne r x)
    rw [List.foldl_cons, List.map_cons, List.reverse_cons, List.append_assoc]
    refine h.trans (List.Sublist.append_left ?_ _)
    rcases applyOne_eq r x with ⟨-, he⟩ | ⟨-, he⟩
    · rw [he]; exact List.Sublist.refl _
    · rw [he]; exact List.sublist_cons_self x.index r.applied

theorem candidates_index_nodup (ms : List Message) : ((candidates ms).map (·.index)).Nodup := by
  have h : ((indexedFixes ms).map (·.index)).Nodup :=
    List.pairwise_map.2 ((indexedFixes_pairwise ms).imp Nat.ne_of_lt)
  have hperm := ((List.mergeSort_perm (indexedFixes ms) fun x y =>
    decide (y.fix.start ≤ x.fix.start)).map (·.index)).nodup_iff.2 h
  exact hperm.sublist ((candidates_sublist ms).map _)

theorem fixes_index_ascending (r : FixResult) (ms : List Message) :
    ((r.fixes ms).map (·.index)).Pairwise (· < ·) :=
  List.pairwise_map.2 ((indexedFixes_pairwise ms).filter _)

theorem applied_eq_map_index (content : Text) (ms : List Message) :
    (applyFixes content ms).applied = ((applyFixes content ms).fixes ms).map (·.index) := by
  have hnodup : ((candidates ms).foldl applyOne ⟨content, []⟩).applied.Nodup := by
    refine List.Nodup.sublist (applied_sublist (candidates ms) ⟨content, []⟩) ?_
    simpa using candidates_index_nodup ms
  have hperm := List.mergeSort_perm ((candidates ms).foldl applyOne ⟨content, []⟩).applied
    fun i j => decide (i ≤ j)
  have hsorted : (applyFixes content ms).applied.Pairwise (· ≤ ·) :=
    List.pairwise_mergeSort' (· ≤ ·) _
  have hascending := fixes_index_ascending (applyFixes content ms) ms
  refine List.Perm.eq_of_pairwise (fun i j _ _ => Nat.le_antisymm) hsorted
    (hascending.imp Nat.le_of_lt) ?_
  refine (List.perm_ext_iff_of_nodup (hperm.nodup_iff.2 hnodup) (hascending.imp Nat.ne_of_lt)).2 ?_
  intro i
  rw [List.mem_map]
  constructor
  · intro hi
    obtain hr | ⟨pre, x, post, hc, rfl, -⟩ := mem_applied_foldl.1 (List.mem_mergeSort.1 hi)
    · simp at hr
    · have hx : x ∈ candidates ms := by rw [hc]; simp
      refine ⟨x, List.mem_filter.2 ⟨mem_indexedFixes_of_mem_candidates hx, ?_⟩, rfl⟩
      exact List.contains_iff_mem.2 hi
  · rintro ⟨x, hx, rfl⟩
    exact List.contains_iff_mem.1 (List.mem_filter.1 hx).2

/-! ## Fixes with distinct starts -/

section Distinct

variable {content : Text} {ms : List Message}
  (hle : ∀ m ∈ ms, ∀ f ∈ m.fix, f.start ≤ f.stop)
  (hdist : ((indexedFixes ms).map (·.fix.start)).Nodup)

include hle hdist

theorem run_candidates :
    (candidates ms).foldl applyOne ⟨content, []⟩ =
      ⟨content.replaceAll
          (((candidates ms).filter (·.fix.isApplicable content)).reverse.map (·.fix)),
        ((candidates ms).filter (·.fix.isApplicable content)).reverse.map (·.index)⟩ := by
  have hord : ((candidates ms).reverse ++ []).Pairwise
      fun (x y : IndexedFix) => x.fix.stop ≤ y.fix.start := by
    rw [List.append_nil, List.pairwise_reverse]
    exact candidates_disjoint hle hdist
  have hrange : ∀ x ∈ candidates ms, x.fix.start ≤ x.fix.stop :=
    fun x hx => start_le_stop hle (mem_indexedFixes_of_mem_candidates hx)
  have h := @foldl_applyOne content (candidates ms) [] hord hrange (by simp) []
  simpa [Text.replaceAll_nil] using h

theorem mem_fixes_iff_isApplicable {x : IndexedFix} :
    x ∈ (applyFixes content ms).fixes ms ↔
      x ∈ candidates ms ∧ x.fix.isApplicable content = true := by
  simp only [FixResult.fixes, applyFixes, run_candidates hle hdist, List.mem_filter,
    List.contains_iff_mem, List.mem_mergeSort, List.mem_map, List.mem_reverse]
  constructor
  · rintro ⟨hx, y, hy, hi⟩
    rwa [indexedFixes_inj hx (mem_indexedFixes_of_mem_candidates hy.1) hi.symm]
  · rintro ⟨hx, ha⟩
    exact ⟨mem_indexedFixes_of_mem_candidates hx, x, ⟨hx, ha⟩, rfl⟩

theorem ascending_fixes :
    ascending ((applyFixes content ms).fixes ms) =
      ((candidates ms).filter (·.fix.isApplicable content)).reverse := by
  have hnodup : (indexedFixes ms).Nodup := List.Nodup.of_map _ hdist
  have hperm := List.mergeSort_perm ((applyFixes content ms).fixes ms)
    fun x y => decide (x.fix.start ≤ y.fix.start)
  refine List.Perm.eq_of_pairwise ?_ (ascending_sorted _) ?_ (hperm.trans ?_)
  · intro x y hx hy hxy hyx
    have hx := List.mem_of_mem_filter (List.mem_mergeSort.1 hx)
    have hy := List.mem_of_mem_filter (List.mem_reverse.1 hy)
    exact List.inj_on_of_nodup_map hdist hx (mem_indexedFixes_of_mem_candidates hy)
      (Nat.le_antisymm hxy hyx)
  · rw [List.pairwise_reverse]
    exact ((candidates_pairwise ms).imp fun h => h.start_le).filter _
  · have hcand : (candidates ms).Nodup := List.Nodup.of_map _ (candidates_index_nodup ms)
    refine (List.perm_ext_iff_of_nodup (hnodup.filter _)
      (List.nodup_reverse.2 (hcand.filter _))).2 fun x => ?_
    constructor
    · intro hx
      exact List.mem_reverse.2 (List.mem_filter.2 ((mem_fixes_iff_isApplicable hle hdist).1 hx))
    · intro hx
      exact (mem_fixes_iff_isApplicable hle hdist).2 (List.mem_filter.1 (List.mem_reverse.1 hx))

theorem fixes_disjoint :
    ((applyFixes content ms).fixes ms).Pairwise fun x y =>
      x.fix.stop ≤ y.fix.start ∨ y.fix.stop ≤ x.fix.start := by
  have hord : (ascending ((applyFixes content ms).fixes ms)).Pairwise fun x y =>
      x.fix.stop ≤ y.fix.start ∨ y.fix.stop ≤ x.fix.start := by
    rw [ascending_fixes hle hdist, List.pairwise_reverse]
    exact ((candidates_disjoint hle hdist).imp Or.inl).filter _
  exact hord.perm (List.mergeSort_perm _ _) fun h => h.symm

theorem left_out {x : IndexedFix} (hx : x ∈ indexedFixes ms)
    (hout : x.index ∉ (applyFixes content ms).applied) :
    x.fix.isApplicable content = false ∨
      ∃ y ∈ candidates ms, x.fix.start < y.fix.start ∧ y.fix.start < x.fix.stop := by
  rcases candidate_or_overlaps hx with hc | ⟨y, hy, hyx, hover⟩
  · left
    rw [← Bool.not_eq_true]
    intro ha
    have hmem := (mem_fixes_iff_isApplicable hle hdist).2 ⟨hc, ha⟩
    exact hout (List.contains_iff_mem.1 (List.mem_filter.1 hmem).2)
  · have hne : y.fix.start ≠ x.fix.start := by
      intro h
      rw [List.inj_on_of_nodup_map hdist (mem_indexedFixes_of_mem_candidates hy) hx h] at hyx
      exact hyx.asymm hyx
    have hstart := hyx.start_le
    rw [Fix.overlaps_iff] at hover
    exact Or.inr ⟨y, hy, by omega, hover.1⟩

end Distinct

/-- Fixes with distinct starts are applied as if all at once: those listed are disjoint ranges of
the original text, the result is that text with these ranges replaced, and a fix is left out only
if its range does not fit the text or reaches over the start of a later one that was kept. -/
theorem applyFixes_eq_replaceAll (content : Text) (ms : List Message)
    (hle : ∀ m ∈ ms, ∀ f ∈ m.fix, f.start ≤ f.stop)
    (hdist : ((indexedFixes ms).map (·.fix.start)).Nodup) :
    let r := applyFixes content ms
    r.applied.Pairwise (· < ·) ∧
    r.applied = (r.fixes ms).map (·.index) ∧
    (r.fixes ms).Pairwise (fun x y => x.fix.stop ≤ y.fix.start ∨ y.fix.stop ≤ x.fix.start) ∧
    (∀ x ∈ r.fixes ms, x.fix.stop ≤ content.length ∧ content.isBoundary x.fix.start = true ∧
      content.isBoundary x.fix.stop = true) ∧
    r.content = content.replaceAll ((ascending (r.fixes ms)).map (·.fix)) ∧
    (∀ x ∈ indexedFixes ms, x.index ∉ r.applied →
      content.length < x.fix.stop ∨ content.isBoundary x.fix.start = false ∨
        content.isBoundary x.fix.stop = false ∨
        ∃ y ∈ candidates ms, x.fix.start < y.fix.start ∧ y.fix.start < x.fix.stop) := by
  intro r
  refine ⟨?_, applied_eq_map_index content ms, fixes_disjoint hle hdist, ?_, ?_, ?_⟩
  · rw [applied_eq_map_index content ms]
    exact fixes_index_ascending _ ms
  · intro x hx
    exact (Fix.isApplicable_iff.1 ((mem_fixes_iff_isApplicable hle hdist).1 hx).2).2
  · rw [ascending_fixes hle hdist]
    simp only [r, applyFixes, run_candidates hle hdist]
  · intro x hx hout
    rcases left_out hle hdist hx hout with ha | hy
    · rw [← Bool.not_eq_true, Fix.isApplicable_iff] at ha
      have := start_le_stop hle hx
      simp only [← Bool.not_eq_true]
      by_contra hcon
      push Not at hcon
      exact ha ⟨this, hcon.1, hcon.2.1, hcon.2.2.1⟩
    · exact Or.inr (Or.inr (Or.inr hy))

/-- Of four fixes one is out of range and one reaches over the starts of two others. These two are
applied, and one of them replaces a character of two bytes. -/
theorem applyFixes_eq_replaceAll_mixed :
    let content := Text.ofString "caf\u00e9 abc"
    let ms := messagesOf [⟨5, 6, "-"⟩, ⟨0, 6, "over"⟩, ⟨7, 99, "out"⟩, ⟨3, 5, "e"⟩]
    (∀ m ∈ ms, ∀ f ∈ m.fix, f.start ≤ f.stop) ∧
    ((indexedFixes ms).map (·.fix.start)).Nodup ∧
    (applyFixes content ms).applied = [0, 3] ∧
    (applyFixes content ms).content =
      content.replaceAll ((ascending ((applyFixes content ms).fixes ms)).map (·.fix)) := by
  intro content ms
  have hle : ∀ m ∈ ms, ∀ f ∈ m.fix, f.start ≤ f.stop := by decide
  have hdist : ((indexedFixes ms).map (·.fix.start)).Nodup := by decide
  exact ⟨hle, hdist, by cbv, (applyFixes_eq_replaceAll content ms hle hdist).2.2.2.2.1⟩

end Fixing
end Inlay
