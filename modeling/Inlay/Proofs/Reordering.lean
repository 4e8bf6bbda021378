import Inlay.Proofs.Replacement

/-! Fixes reported in another order. Fixes that can each be applied and do not overlap are all kept,
and a fix is applied to what the fixes before it left. Their order is given by their starts, so it
depends on the order of the messages only for an insertion at the start of a replacement. If the
replacement comes first, both are applied as they stand. If the insertion comes first, the
replacement takes away bytes that were just put in, and leaves as many of its own. -/

namespace Inlay

/-! ## Fixes in turn -/

namespace Fix

variable {p c w : Text} {f : Fix}

/-- A fix of the middle of a text that is cut in three can be applied when no cut splits a
character. -/
theorem isApplicable_cut_iff (hstart : f.start = p.length)
    (hstop : f.stop = p.length + c.length) :
    f.isApplicable (p ++ (c ++ w)) = true ↔
      (p = [] ∨ Text.StartsChar (c ++ w)) ∧ (p ++ c = [] ∨ w.StartsChar) := by
  have hlen : f.stop = (p ++ c).length := by rw [hstop, List.length_append]
  rw [isApplicable_iff, hstart, Text.isBoundary_append_length, ← List.append_assoc, hlen,
    Text.isBoundary_append_length]
  simp

theorem applyTo_cut (hstart : f.start = p.length) (hstop : f.stop = p.length + c.length) :
    f.applyTo (p ++ (c ++ w)) = p ++ (Text.ofString f.text ++ w) := by
  have hdrop : (p ++ (c ++ w)).drop f.stop = w := by
    rw [← List.append_assoc, hstop, ← List.length_append, List.drop_left]
  rw [applyTo, Text.splice, hdrop, hstart, List.take_left, List.append_assoc]

theorem exists_append_of_applyTo {q : Text} (hq : q.StartsChar) (hstart : p.length ≤ f.start)
    (happ : f.isApplicable (p ++ q) = true) :
    ∃ q', f.applyTo (p ++ q) = p ++ q' ∧ q'.StartsChar := by
  obtain ⟨hle, hlen, -, -⟩ := isApplicable_iff.1 happ
  -- cut the second part at both ends of the range
  obtain ⟨a, b, c, rfl, ha, hb⟩ : ∃ a b c, q = a ++ (b ++ c) ∧ f.start = (p ++ a).length ∧
      f.stop = (p ++ a).length + b.length := by
    rw [List.length_append] at hlen
    refine ⟨q.take (f.start - p.length), (q.drop (f.start - p.length)).take (f.stop - f.start),
      (q.drop (f.start - p.length)).drop (f.stop - f.start), by simp, ?_, ?_⟩
    · simp only [List.length_append, List.length_take]
      omega
    · simp only [List.length_append, List.length_take, List.length_drop]
      omega
  rw [← List.append_assoc] at happ ⊢
  obtain ⟨-, hc⟩ := (isApplicable_cut_iff ha hb).1 happ
  refine ⟨a ++ (Text.ofString f.text ++ c), ?_, ?_⟩
  · rw [applyTo_cut ha hb, List.append_assoc]
  · refine Text.startsChar_append (hq.of_isPrefix (List.prefix_append _ _)) fun hnil => ?_
    refine Text.startsChar_append (Text.isString_ofString f.text).startsChar fun _ => ?_
    rcases hc with hempty | hc
    · obtain rfl : b = [] := (List.append_eq_nil_iff.1 hempty).2
      rwa [hnil] at hq
    · exact hc

end Fix

/-- Applies fixes one after the other, each to what the one before left. There is no result when
one of them cannot be applied. -/
def applyInTurn? (t : Text) : List Fix → Option Text
  | [] => some t
  | f :: fs => if f.isApplicable t then applyInTurn? (f.applyTo t) fs else none

theorem applyInTurn?_cons_eq_some_iff {t u : Text} {f : Fix} {fs : List Fix} :
    applyInTurn? t (f :: fs) = some u ↔
      f.isApplicable t = true ∧ applyInTurn? (f.applyTo t) fs = some u := by
  simp [applyInTurn?]

theorem applyInTurn?_append (t : Text) (fs gs : List Fix) :
    applyInTurn? t (fs ++ gs) = (applyInTurn? t fs).bind fun u => applyInTurn? u gs := by
  induction fs generalizing t with
  | nil => rfl
  | cons f fs ih =>
    rw [List.cons_append, applyInTurn?, applyInTurn?]
    split
    · exact ih _
    · rfl

theorem applyInTurn?_append_eq_some_iff {t u : Text} {fs gs : List Fix} :
    applyInTurn? t (fs ++ gs) = some u ↔
      ∃ v, applyInTurn? t fs = some v ∧ applyInTurn? v gs = some u := by
  rw [applyInTurn?_append, Option.bind_eq_some_iff]

theorem applyInTurn?_append_text {p q : Text} (hq : q.StartsChar) {fs : List Fix}
    (hfs : ∀ f ∈ fs, f.start ≤ f.stop ∧ f.stop ≤ p.length)
    (hord : fs.Pairwise fun f g => g.stop ≤ f.start ∨ f.stop ≤ f.start) :
    applyInTurn? (p ++ q) fs = (applyInTurn? p fs).map (· ++ q) := by
  induction fs generalizing p with
  | nil => rfl
  | cons f fs ih =>
    obtain ⟨hle, hlen⟩ := hfs f List.mem_cons_self
    obtain ⟨hhead, htail⟩ := List.pairwise_cons.1 hord
    have happ : f.isApplicable (p ++ q) = f.isApplicable p := by
      have hlen' : f.stop ≤ p.length + q.length := by omega
      rw [Bool.eq_iff_iff, Fix.isApplicable_iff, Fix.isApplicable_iff,
        Text.isBoundary_append_of_le hq (by omega), Text.isBoundary_append_of_le hq hlen,
        List.length_append]
      simp only [hlen, hlen', true_and]
    have happly : f.applyTo (p ++ q) = f.applyTo p ++ q := by
      rw [Fix.applyTo, Fix.applyTo, Text.splice, Text.splice,
        List.take_append_of_le_length (by omega), List.drop_append_of_le_length hlen]
      simp
    rw [applyInTurn?, applyInTurn?, happ, happly]
    split
    · refine ih (fun g hg => ⟨(hfs g (List.mem_cons_of_mem f hg)).1, ?_⟩) htail
      -- either the fix ends before `f`, or `f` takes nothing away
      have hg := (hfs g (List.mem_cons_of_mem f hg)).2
      rw [Fix.applyTo, Text.length_splice (by omega)]
      rcases hhead g (by assumption) with h | h
      · omega
      · omega
    · rfl

theorem exists_append_of_applyInTurn? {p q u : Text} (hq : q.StartsChar) {fs : List Fix}
    (hfs : ∀ f ∈ fs, p.length ≤ f.start) (h : applyInTurn? (p ++ q) fs = some u) :
    ∃ q', u = p ++ q' ∧ q'.StartsChar := by
  induction fs generalizing q with
  | nil => exact ⟨q, (Option.some.inj h).symm, hq⟩
  | cons f fs ih =>
    obtain ⟨happ, hrest⟩ := applyInTurn?_cons_eq_some_iff.1 h
    obtain ⟨q', heq, hq'⟩ := Fix.exists_append_of_applyTo hq (hfs f List.mem_cons_self) happ
    rw [heq] at hrest
    exact ih hq' (fun g hg => hfs g (List.mem_cons_of_mem f hg)) hrest

/-! ## An insertion at the start of a replacement -/

/-- The insertion `x` may be passed by the replacement `y` that starts there: what `y` leaves of the
inserted text and the bytes it should have replaced is what comes of both when `y` is first. -/
def Fix.Slides (content : Text) (x y : Fix) : Prop :=
  let c := content.extract y.start y.stop
  Text.ofString y.text ++ (Text.ofString x.text ++ c).drop c.length =
    Text.ofString x.text ++ Text.ofString y.text

instance (content : Text) (x y : Fix) : Decidable (Fix.Slides content x y) :=
  inferInstanceAs (Decidable (_ = _))

section Tie

variable {p c w u : Text} {x y : Fix} (hx : x.start = p.length) (hx' : x.stop = p.length)
  (hy : y.start = p.length) (hy' : y.stop = p.length + c.length)
  (hchar : p = [] ∨ Text.StartsChar (c ++ w))

include hx hx' hy hy' hchar

theorem applyInTurn?_replacement_first (hw : w.StartsChar) :
    applyInTurn? (p ++ (c ++ w)) [y, x] =
      some (p ++ (Text.ofString x.text ++ (Text.ofString y.text ++ w))) := by
  have hyapp := (Fix.isApplicable_cut_iff hy hy').2 ⟨hchar, Or.inr hw⟩
  have hstart : Text.StartsChar (Text.ofString y.text ++ w) :=
    Text.startsChar_append (Text.isString_ofString y.text).startsChar fun _ => hw
  have hxapp := (@Fix.isApplicable_cut_iff p [] (Text.ofString y.text ++ w) x hx hx').2
    ⟨Or.inr hstart, Or.inr hstart⟩
  have hxapply := @Fix.applyTo_cut p [] (Text.ofString y.text ++ w) x hx hx'
  rw [List.nil_append] at hxapp hxapply
  simp [applyInTurn?, hyapp, Fix.applyTo_cut hy hy', hxapp, hxapply]

/-- With the insertion first the replacement takes as many bytes as it should, from the inserted
text on. It cannot be applied where these end inside a character. -/
theorem applyInTurn?_insertion_first_iff (hc : c ≠ []) :
    applyInTurn? (p ++ (c ++ w)) [x, y] = some u ↔
      Text.StartsChar ((Text.ofString x.text ++ c).drop c.length ++ w) ∧
        u = p ++ (Text.ofString y.text ++ ((Text.ofString x.text ++ c).drop c.length ++ w)) := by
  have hxapp := (@Fix.isApplicable_cut_iff p [] (c ++ w) x hx hx').2
    ⟨hchar, by rwa [List.append_nil]⟩
  have hxapply := @Fix.applyTo_cut p [] (c ++ w) x hx hx'
  rw [List.nil_append] at hxapp hxapply
  -- the text after the insertion, cut where the replacement ends
  have hcut : Text.ofString x.text ++ (c ++ w) = (Text.ofString x.text ++ c).take c.length ++
      ((Text.ofString x.text ++ c).drop c.length ++ w) := by
    rw [← List.append_assoc ((Text.ofString x.text ++ c).take c.length), List.take_append_drop,
      List.append_assoc]
  have hlen : y.stop = p.length + ((Text.ofString x.text ++ c).take c.length).length := by
    rw [hy', List.length_take, List.length_append]
    omega
  have hne : p ++ (Text.ofString x.text ++ c).take c.length ≠ [] := by
    intro hnil
    have hlength := congrArg List.length hnil
    have := List.length_pos_iff.2 hc
    simp only [List.length_append, List.length_take, List.length_nil] at hlength
    omega
  have hfront : p = [] ∨ Text.StartsChar (Text.ofString x.text ++ (c ++ w)) :=
    hchar.imp_right fun h =>
      Text.startsChar_append (Text.isString_ofString x.text).startsChar fun _ => h
  rw [applyInTurn?_cons_eq_some_iff, hxapply, applyInTurn?_cons_eq_some_iff, hcut,
    Fix.isApplicable_cut_iff hy hlen, Fix.applyTo_cut hy hlen, ← hcut]
  simp only [hxapp, hfront, hne, false_or, true_and, applyInTurn?, Option.some.injEq, @eq_comm _ u]

theorem applyInTurn?_swap (hw : w.StartsChar) (hc : c ≠ [])
    (hslides : Text.ofString y.text ++ (Text.ofString x.text ++ c).drop c.length =
      Text.ofString x.text ++ Text.ofString y.text) :
    applyInTurn? (p ++ (c ++ w)) [x, y] = applyInTurn? (p ++ (c ++ w)) [y, x] := by
  rw [applyInTurn?_replacement_first hx hx' hy hy' hchar hw]
  refine (applyInTurn?_insertion_first_iff hx hx' hy hy' hchar hc).2 ⟨?_, ?_⟩
  · -- what is left is the end of a string behind a string
    have hstring := (Text.isString_ofString x.text).append (Text.isString_ofString y.text)
    rw [← hslides] at hstring
    have hrest := (Text.isString_ofString y.text).of_append hstring
    exact Text.startsChar_append hrest.startsChar fun _ => hw
  · rw [← List.append_assoc (Text.ofString y.text), hslides, List.append_assoc]

/-- The order of the two does not matter for what comes of them and of fixes in front of them: the
insertion may be passed. -/
theorem append_drop_of_both_orders (hw : w.StartsChar) (hc : c ≠ []) {fs : List Fix}
    (hfs : ∀ f ∈ fs, f.start ≤ f.stop ∧ f.stop ≤ p.length)
    (hord : fs.Pairwise fun f g => g.stop ≤ f.start ∨ f.stop ≤ f.start)
    (hxy : applyInTurn? (p ++ (c ++ w)) (x :: y :: fs) = some u)
    (hyx : applyInTurn? (p ++ (c ++ w)) (y :: x :: fs) = some u) :
    Text.ofString y.text ++ (Text.ofString x.text ++ c).drop c.length =
      Text.ofString x.text ++ Text.ofString y.text := by
  obtain ⟨_, hpair, hxy⟩ := (@applyInTurn?_append_eq_some_iff _ _ [x, y] _).1 hxy
  obtain ⟨hrest, rfl⟩ :=
    (applyInTurn?_insertion_first_iff hx hx' hy hy' hchar hc).1 hpair
  obtain ⟨_, hpair, hyx⟩ := (@applyInTurn?_append_eq_some_iff _ _ [y, x] _).1 hyx
  rw [applyInTurn?_replacement_first hx hx' hy hy' hchar hw] at hpair
  obtain rfl := Option.some.inj hpair
  have hstart (s : String) {t : Text} (ht : t.StartsChar) :
      Text.StartsChar (Text.ofString s ++ t) :=
    Text.startsChar_append (Text.isString_ofString s).startsChar fun _ => ht
  -- the fixes in front do the same in both runs
  rw [applyInTurn?_append_text (hstart _ hrest) hfs hord] at hxy
  rw [applyInTurn?_append_text (hstart _ (hstart _ hw)) hfs hord] at hyx
  obtain ⟨v, hv, rfl⟩ := Option.map_eq_some_iff.1 hxy
  obtain ⟨_, hv', heq⟩ := Option.map_eq_some_iff.1 hyx
  obtain rfl := Option.some.inj (hv.symm.trans hv')
  have hsame := List.append_cancel_left heq
  rw [← List.append_assoc, ← List.append_assoc] at hsame
  exact (List.append_cancel_right hsame).symm

end Tie

/-! ## Compatible fixes -/

/-- Fixes that can each be applied to the text, of which no two overlap and no two are insertions at
one place. -/
structure Text.Compatible (content : Text) (fs : List Fix) : Prop where
  inside : ∀ f ∈ fs, f.isApplicable content = true
  apart : fs.Pairwise fun f g => f.overlaps g = false
  insertions : fs.Pairwise fun f g =>
    ¬ (f.start = f.stop ∧ g.start = g.stop ∧ f.start = g.start)

namespace Text.Compatible

variable {content : Text} {fs gs : List Fix}

theorem perm (h : content.Compatible fs) (hperm : gs.Perm fs) : content.Compatible gs where
  inside f hf := h.inside f (hperm.subset hf)
  apart := h.apart.perm hperm.symm fun hfg => by rwa [Fix.overlaps_comm]
  insertions := h.insertions.perm hperm.symm fun hfg ⟨h₁, h₂, h₃⟩ => hfg ⟨h₂, h₁, h₃.symm⟩

theorem of_cons {f : Fix} (h : content.Compatible (f :: fs)) : content.Compatible fs where
  inside g hg := h.inside g (List.mem_cons_of_mem f hg)
  apart := h.apart.of_cons
  insertions := h.insertions.of_cons

theorem range (h : content.Compatible fs) {f : Fix} (hf : f ∈ fs) :
    f.start ≤ f.stop ∧ f.stop ≤ content.length := by
  obtain ⟨hle, hlen, -, -⟩ := Fix.isApplicable_iff.1 (h.inside f hf)
  exact ⟨hle, hlen⟩

theorem insertion_unique (h : content.Compatible fs) {f g : Fix} (hf : f ∈ fs) (hg : g ∈ fs)
    (hfs : f.start = f.stop) (hgs : g.start = g.stop) (hfg : f.start = g.start) : f = g := by
  have : Std.Symm fun f g : Fix => ¬ (f.start = f.stop ∧ g.start = g.stop ∧ f.start = g.start) :=
    ⟨fun f g hfg ⟨h₁, h₂, h₃⟩ => hfg ⟨h₂, h₁, h₃.symm⟩⟩
  by_contra hne
  exact h.insertions.forall hf hg hne ⟨hfs, hgs, hfg⟩

theorem ranges_unique (h : content.Compatible fs) (hperm : gs.Perm fs) (hgs : content.Ranges gs)
    (hfs : content.Ranges fs) : gs = fs := by
  refine hperm.eq_of_pairwise ?_ hgs.ordered hfs.ordered
  intro f g hf hg hfg hgf
  have hf := hperm.subset hf
  have := (h.range hf).1
  have := (h.range hg).1
  exact h.insertion_unique hf hg (by omega) (by omega) (by omega)

end Text.Compatible

/-- Of two compatible fixes in the order in which they are tried, the second ends at or before the
start of the first, or the first is an insertion at the start of the second. -/
def Fix.Precedes (f g : Fix) : Prop :=
  (g.stop ≤ f.start ∧ (f.start = f.stop → g.start < f.start)) ∨
    (f.start = f.stop ∧ g.start = f.start ∧ g.start < g.stop)

namespace Fixing

def descending (fs : List Fix) : List Fix := fs.mergeSort fun f g => g.start ≤ f.start

theorem descending_perm (fs : List Fix) : (descending fs).Perm fs := List.mergeSort_perm _ _

theorem descending_sorted (fs : List Fix) :
    (descending fs).Pairwise fun f g => g.start ≤ f.start := by
  have h := List.pairwise_mergeSort Fix.later_trans Fix.later_total fs
  simpa only [descending, decide_eq_true_eq] using h

theorem descending_cons (f : Fix) (fs : List Fix) :
    descending (f :: fs) = (descending fs).filter (fun g => f.start < g.start) ++
      f :: (descending fs).filter (fun g => g.start ≤ f.start) := by
  obtain ⟨later, others, hsort, hrest, hlater⟩ :=
    List.mergeSort_cons Fix.later_trans Fix.later_total f fs
  have hsorted := descending_sorted (f :: fs)
  unfold descending at hsorted ⊢
  rw [hsort] at hsorted ⊢
  have hothers := (List.pairwise_cons.1 (List.pairwise_append.1 hsorted).2.1).1
  simp only [Bool.not_eq_true', decide_eq_false_iff_not, Nat.not_le] at hlater
  have hlater' : ∀ g ∈ later, ¬ g.start ≤ f.start := fun g hg => Nat.not_le.2 (hlater g hg)
  have hothers' : ∀ g ∈ others, ¬ f.start < g.start := fun g hg => Nat.not_lt.2 (hothers g hg)
  rw [hrest, List.filter_append, List.filter_append, List.filter_eq_self.2 (by simpa using hlater),
    List.filter_eq_nil_iff.2 (by simpa using hothers'), List.append_nil,
    List.filter_eq_nil_iff.2 (by simpa using hlater'),
    List.filter_eq_self.2 (by simpa using hothers), List.nil_append]

theorem descending_pair {x y : Fix} (h : y.start = x.start) (fs : List Fix) :
    descending (x :: y :: fs) = (descending fs).filter (fun g => x.start < g.start) ++
      x :: y :: (descending fs).filter (fun g => g.start ≤ x.start) := by
  have hnone : ∀ g : Fix, (decide (x.start < g.start) && decide (g.start ≤ x.start)) = false := by
    intro g
    rw [Bool.and_eq_false_iff, decide_eq_false_iff_not, decide_eq_false_iff_not]
    omega
  have hnone' : ∀ g : Fix, (decide (g.start ≤ x.start) && decide (x.start < g.start)) = false :=
    fun g => by rw [Bool.and_comm, hnone]
  rw [descending_cons x, descending_cons y, h]
  simp [h, hnone, hnone']

theorem descending_precedes {content : Text} {fs : List Fix} (h : content.Compatible fs) :
    (descending fs).Pairwise Fix.Precedes := by
  have hfs := h.perm (descending_perm fs)
  refine (((descending_sorted fs).and hfs.apart).and hfs.insertions).imp_of_mem ?_
  rintro f g hf hg ⟨⟨hstart, hover⟩, hinsert⟩
  have := (hfs.range hf).1
  have := (hfs.range hg).1
  rw [← Bool.not_eq_true, Fix.overlaps_iff] at hover
  unfold Fix.Precedes
  omega

theorem map_fix_indexedFixes (ms : List Message) :
    (indexedFixes ms).map (·.fix) = ms.filterMap (·.fix) := by
  conv_rhs => rw [← List.zipIdx_map_fst 0 ms, List.filterMap_map]
  rw [indexedFixes, List.map_filterMap]
  refine List.filterMap_congr fun m _ => ?_
  simp [Function.comp_def]

theorem foldl_keep_of_apart {fixes kept : List IndexedFix}
    (h : (kept.reverse ++ fixes).Pairwise fun x y => x.fix.overlaps y.fix = false) :
    fixes.foldl keep kept = fixes.reverse ++ kept := by
  induction fixes generalizing kept with
  | nil => rfl
  | cons x fixes ih =>
    have hkeep : keep kept x = x :: kept := by
      rcases keep_eq kept x with ⟨hk, -⟩ | ⟨-, last, hlast, hover⟩
      · exact hk
      · have hmem := List.mem_of_mem_head? hlast
        have hfree := (List.pairwise_append.1 h).2.2 last (by simpa using hmem) x (by simp)
        rw [Fix.overlaps_comm, hover] at hfree
        cases hfree
    rw [List.foldl_cons, hkeep, ih (by simpa using h)]
    simp

theorem candidates_of_compatible {content : Text} {ms : List Message}
    (h : content.Compatible (ms.filterMap (·.fix))) :
    candidates ms = backwards (indexedFixes ms) := by
  have hapart := h.apart
  rw [← map_fix_indexedFixes, List.pairwise_map] at hapart
  have hback : (backwards (indexedFixes ms)).Pairwise fun x y => x.fix.overlaps y.fix = false :=
    hapart.perm (List.mergeSort_perm _ _).symm fun hxy => by rwa [Fix.overlaps_comm]
  rw [candidates, withoutOverlaps, foldl_keep_of_apart (by simpa using hback), List.append_nil,
    List.reverse_reverse]

theorem map_fix_backwards (ms : List Message) :
    (backwards (indexedFixes ms)).map (·.fix) = descending (ms.filterMap (·.fix)) := by
  rw [← map_fix_indexedFixes]
  exact List.map_mergeSort fun x _ y _ => rfl

/-! ## Runs in which every fix is applied -/

theorem foldl_applyOne_of_applyInTurn? {xs : List IndexedFix} {t u : Text} (applied : List Nat)
    (h : applyInTurn? t (xs.map (·.fix)) = some u) :
    xs.foldl applyOne ⟨t, applied⟩ = ⟨u, (xs.map (·.index)).reverse ++ applied⟩ := by
  induction xs generalizing t applied with
  | nil => simpa [applyInTurn?] using h
  | cons x xs ih =>
    obtain ⟨happ, hrest⟩ := applyInTurn?_cons_eq_some_iff.1 h
    rw [List.foldl_cons, applyOne, if_pos happ, ih _ hrest]
    simp

theorem applyInTurn?_of_length {xs : List IndexedFix} {r : FixResult}
    (h : (xs.foldl applyOne r).applied.length = xs.length + r.applied.length) :
    applyInTurn? r.content (xs.map (·.fix)) = some (xs.foldl applyOne r).content := by
  induction xs generalizing r with
  | nil => rfl
  | cons x xs ih =>
    have hle := (applied_sublist xs (applyOne r x)).length_le
    rw [List.foldl_cons] at h ⊢
    rw [List.length_append, List.length_reverse, List.length_map] at hle
    rw [List.length_cons] at h
    rcases applyOne_eq r x with ⟨happ, he⟩ | ⟨-, he⟩
    · rw [List.map_cons, applyInTurn?, if_pos happ]
      rw [he] at h ⊢
      exact ih (by rw [h, List.length_cons]; omega)
    · rw [he] at h hle
      omega

/-- A fix of every message that has one is applied, and this leaves `u`, exactly when the fixes can
be applied in turn and leave `u`. -/
theorem applyFixes_complete_iff {content u : Text} {ms : List Message}
    (h : content.Compatible (ms.filterMap (·.fix))) :
    (applyFixes content ms).applied = (indexedFixes ms).map (·.index) ∧
        (applyFixes content ms).content = u ↔
      applyInTurn? content (descending (ms.filterMap (·.fix))) = some u := by
  rw [← map_fix_backwards, ← candidates_of_compatible h]
  have hperm : (candidates ms).Perm (indexedFixes ms) := by
    rw [candidates_of_compatible h]
    exact List.mergeSort_perm _ _
  constructor
  · rintro ⟨happlied, rfl⟩
    have hlen := congrArg List.length happlied
    rw [applyFixes, List.length_mergeSort, List.length_map, ← hperm.length_eq] at hlen
    exact applyInTurn?_of_length hlen
  · intro hrun
    have hfold := foldl_applyOne_of_applyInTurn? [] hrun
    refine ⟨?_, by rw [applyFixes, hfold]⟩
    rw [applied_eq_map_index, FixResult.fixes, List.filter_eq_self.2]
    intro x hx
    rw [applyFixes, hfold, List.contains_iff_mem, List.mem_mergeSort, List.append_nil,
      List.mem_reverse]
    exact List.mem_map_of_mem (hperm.mem_iff.2 hx)

end Fixing

/-! ## Both orders -/

theorem Fix.exists_cut {content w : Text} {f : Fix} (happ : f.isApplicable content = true)
    (hlt : f.start < f.stop) (hw : w.StartsChar) :
    ∃ p c, content.take f.stop ++ w = p ++ (c ++ w) ∧ p = content.take f.start ∧
      c = content.extract f.start f.stop ∧ f.start = p.length ∧ f.stop = p.length + c.length ∧
      (p = [] ∨ Text.StartsChar (c ++ w)) ∧ c ≠ [] := by
  obtain ⟨hle, hlen, hstart, -⟩ := isApplicable_iff.1 happ
  have hp : (content.take f.start).length = f.start := by
    rw [List.length_take]
    omega
  have hc : (content.extract f.start f.stop).length = f.stop - f.start := by
    rw [List.extract_eq_take_drop, List.length_take, List.length_drop]
    omega
  have hcut : content.take f.start ++ content.extract f.start f.stop = content.take f.stop := by
    rw [List.extract_eq_take_drop, ← List.take_add]
    congr 1
    omega
  refine ⟨_, _, ?_, rfl, rfl, hp.symm, by omega, ?_, ?_⟩
  · rw [← List.append_assoc, hcut]
  · rcases (Text.isBoundary_iff (by omega)).1 hstart with hzero | hchar
    · rw [hzero]
      exact Or.inl rfl
    · right
      have hdrop :
          content.drop f.start = content.extract f.start f.stop ++ content.drop f.stop := by
        obtain ⟨k, hk⟩ := Nat.exists_eq_add_of_le hle
        rw [List.extract_eq_take_drop, hk, Nat.add_sub_cancel_left, ← List.drop_drop,
          List.take_append_drop]
      rw [hdrop] at hchar
      exact Text.startsChar_append_of hchar hw
  · intro hnil
    rw [hnil, List.length_nil] at hc
    omega

theorem Fix.startsChar_drop_stop {content : Text} {f : Fix} (happ : f.isApplicable content = true)
    (hlt : f.start < f.stop) : Text.StartsChar (content.drop f.stop) := by
  obtain ⟨-, hlen, -, hstop⟩ := isApplicable_iff.1 happ
  exact ((Text.isBoundary_iff hlen).1 hstop).resolve_left (by omega)

theorem Text.replaceAll_eq_take_append {content : Text} {fs : List Fix} {e : Nat}
    (hle : ∀ f ∈ fs.head?, e ≤ f.start) :
    content.replaceAll fs = content.take e ++ content.replaceFrom e fs := by
  cases fs with
  | nil => exact (List.take_append_drop e content).symm
  | cons f fs =>
    obtain ⟨k, hk⟩ := Nat.exists_eq_add_of_le (hle f (by simp))
    rw [replaceAll_cons, replaceFrom, hk, List.take_add, Nat.add_sub_cancel_left, List.append_assoc]

section Run

variable {content : Text} {done : List Fix} {x y : Fix}

theorem applyInTurn?_replaceAll (h : content.Ranges (x :: done)) (xs : List Fix) :
    applyInTurn? (content.replaceAll done) (x :: xs) =
      applyInTurn? (content.replaceAll (x :: done)) xs := by
  have happ := Text.isApplicable_replaceAll h.tail h.head.1 h.head_le
  rw [applyInTurn?, happ, if_pos (h.inside x List.mem_cons_self), Fix.applyTo,
    Text.splice_replaceAll h]

theorem applyInTurn?_replaceAll_tie (h : content.Ranges (x :: y :: done)) (hx : x.start = x.stop)
    (hy : y.start = x.start) (hlt : y.start < y.stop) (hslides : Fix.Slides content x y)
    (xs : List Fix) :
    applyInTurn? (content.replaceAll done) (x :: y :: xs) =
      applyInTurn? (content.replaceAll (x :: y :: done)) xs := by
  have hyapp := h.inside y (by simp)
  have hw := Text.startsChar_replaceFrom h.tail.tail (Fix.startsChar_drop_stop hyapp hlt)
    h.tail.head_le
  obtain ⟨p, c, hcut, -, rfl, hstart, hstop, hchar, hc⟩ := Fix.exists_cut hyapp hlt hw
  have hswap := applyInTurn?_swap (by omega) (by omega) hstart hstop hchar hw hc hslides
  rw [← hcut, ← Text.replaceAll_eq_take_append h.tail.head_le] at hswap
  calc applyInTurn? (content.replaceAll done) ([x, y] ++ xs)
      = applyInTurn? (content.replaceAll done) ([y, x] ++ xs) := by
        rw [applyInTurn?_append, applyInTurn?_append, hswap]
    _ = applyInTurn? (content.replaceAll (x :: y :: done)) xs := by
        rw [List.cons_append, applyInTurn?_replaceAll h.tail, List.cons_append,
          applyInTurn?_replaceAll h, List.nil_append]

end Run

/-- Every insertion among the fixes slides past the replacement that starts there. -/
def Text.InsertionsSlide (content : Text) (fs : List Fix) : Prop :=
  ∀ x ∈ fs, ∀ y ∈ fs, x.start = x.stop → y.start = x.start → y.start < y.stop →
    Fix.Slides content x y

/-- Only the fix that is tried next can reach over the start of a fix, and only if that fix is an
insertion at its start. -/
theorem Fix.Precedes.ahead_or_tie {x : Fix} {xs : List Fix} (h : (x :: xs).Pairwise Precedes) :
    (∀ f ∈ xs, f.stop ≤ x.start) ∨
      ∃ y ys, xs = y :: ys ∧ x.start = x.stop ∧ y.start = x.start ∧ y.start < y.stop ∧
        ∀ f ∈ ys, f.stop ≤ x.start := by
  cases xs with
  | nil => exact Or.inl (by simp)
  | cons y ys =>
    obtain ⟨hx, hxs⟩ := List.pairwise_cons.1 h
    have hxy := hx y List.mem_cons_self
    have hys : ∀ f ∈ ys, f.stop ≤ x.start := by
      intro f hf
      have hxf := hx f (List.mem_cons_of_mem y hf)
      have hyf := (List.pairwise_cons.1 hxs).1 f hf
      unfold Precedes at hxy hxf hyf
      omega
    rcases hxy with ⟨hstop, -⟩ | ⟨hins, hstart, hlt⟩
    · exact Or.inl (List.forall_mem_cons.2 ⟨hstop, hys⟩)
    · exact Or.inr ⟨y, ys, rfl, hins, hstart, hlt, hys⟩

theorem Text.Ranges.cons {content : Text} {f : Fix} {fs : List Fix} (h : content.Ranges fs)
    (happ : f.isApplicable content = true) (hfs : ∀ g ∈ fs, f.stop ≤ g.start) :
    content.Ranges (f :: fs) :=
  ⟨List.pairwise_cons.2 ⟨hfs, h.ordered⟩, List.forall_mem_cons.2 ⟨happ, h.inside⟩⟩

/-- Fixes in the order in which they are tried, applied before those of `done`, have the effect of
replacing all ranges at once. -/
theorem exists_ranges_of_slides {content : Text} {fs : List Fix} (h : content.Compatible fs)
    (hslide : content.InsertionsSlide fs) {xs done : List Fix} (hsub : xs ⊆ fs)
    (hord : xs.Pairwise Fix.Precedes) (hdone : content.Ranges done)
    (hbefore : ∀ x ∈ xs, ∀ f ∈ done, x.stop ≤ f.start) :
    ∃ gs, gs.Perm (xs ++ done) ∧ content.Ranges gs ∧
      applyInTurn? (content.replaceAll done) xs = some (content.replaceAll gs) := by
  -- an insertion and the replacement at its place are one step, so the induction is on the length
  induction hlen : xs.length using Nat.strong_induction_on generalizing xs done with
  | _ n ih =>
    subst hlen
    cases xs with
    | nil => exact ⟨done, List.Perm.refl _, hdone, rfl⟩
    | cons x xs =>
      obtain ⟨hxfs, hxs⟩ := List.cons_subset.1 hsub
      obtain ⟨hxdone, hxsdone⟩ := List.forall_mem_cons.1 hbefore
      obtain hahead | ⟨y, ys, rfl, hins, hstart, hlt, hahead⟩ := Fix.Precedes.ahead_or_tie hord
      · have hx := hdone.cons (h.inside x hxfs) hxdone
        obtain ⟨gs, hperm, hgs, hrun⟩ := ih xs.length (by simp) hxs hord.of_cons hx
          (fun f hf => List.forall_mem_cons.2 ⟨hahead f hf, hxsdone f hf⟩) rfl
        refine ⟨gs, hperm.trans List.perm_middle, hgs, ?_⟩
        rw [applyInTurn?_replaceAll hx, hrun]
      · obtain ⟨hyfs, hys⟩ := List.cons_subset.1 hxs
        obtain ⟨hydone, hysdone⟩ := List.forall_mem_cons.1 hxsdone
        have hy := hdone.cons (h.inside y hyfs) hydone
        have hxy := hy.cons (h.inside x hxfs) (List.forall_mem_cons.2 ⟨by omega, hxdone⟩)
        have hysxy : ∀ f ∈ ys, ∀ g ∈ x :: y :: done, f.stop ≤ g.start := by
          intro f hf
          have := hahead f hf
          exact List.forall_mem_cons.2 ⟨this, List.forall_mem_cons.2 ⟨by omega, hysdone f hf⟩⟩
        obtain ⟨gs, hperm, hgs, hrun⟩ :=
          ih ys.length (by simp) hys hord.of_cons.of_cons hxy hysxy rfl
        refine ⟨gs, hperm.trans (List.perm_middle.trans (List.perm_middle.cons x)), hgs, ?_⟩
        rw [applyInTurn?_replaceAll_tie hxy hins hstart hlt
          (hslide x hxfs y hyfs hins hstart hlt), hrun]

theorem slides_of_same_result {content u : Text} {x y : Fix} {fs : List Fix}
    (h : content.Compatible (x :: y :: fs)) (hx : x.start = x.stop) (hy : y.start = x.start)
    (hlt : y.start < y.stop)
    (hxy : applyInTurn? content (Fixing.descending (x :: y :: fs)) = some u)
    (hyx : applyInTurn? content (Fixing.descending (y :: x :: fs)) = some u) :
    Fix.Slides content x y := by
  have hyapp := h.inside y (by simp)
  have hfs : content.Compatible fs := h.of_cons.of_cons
  have hapart : ∀ f ∈ fs, f.start ≤ f.stop ∧ y.overlaps f = false := fun f hf =>
    ⟨(hfs.range hf).1, (List.pairwise_cons.1 h.of_cons.apart).1 f hf⟩
  rw [Fixing.descending_pair hy] at hxy
  rw [Fixing.descending_pair hy.symm, hy] at hyx
  obtain ⟨t, hlater, hxy⟩ := applyInTurn?_append_eq_some_iff.1 hxy
  obtain ⟨_, ht, hyx⟩ := applyInTurn?_append_eq_some_iff.1 hyx
  obtain rfl := Option.some.inj (hlater.symm.trans ht)
  -- what starts later leaves the text alone up to the end of `y`
  obtain ⟨w, rfl, hw⟩ : ∃ w, t = content.take y.stop ++ w ∧ w.StartsChar := by
    rw [← List.take_append_drop y.stop content] at hlater
    refine exists_append_of_applyInTurn? (Fix.startsChar_drop_stop hyapp hlt) ?_ hlater
    intro f hf
    obtain ⟨hmem, hstart⟩ := List.mem_filter.1 hf
    obtain ⟨hle, hover⟩ := hapart f ((Fixing.descending_perm fs).subset hmem)
    rw [← Bool.not_eq_true, Fix.overlaps_iff] at hover
    rw [decide_eq_true_eq] at hstart
    rw [List.length_take]
    omega
  obtain ⟨p, c, hcut, -, rfl, hstart, hstop, hchar, hc⟩ := Fix.exists_cut hyapp hlt hw
  rw [hcut] at hxy hyx
  refine append_drop_of_both_orders (by omega) (by omega) hstart hstop hchar hw hc ?_ ?_ hxy hyx
  · intro f hf
    obtain ⟨hmem, hle'⟩ := List.mem_filter.1 hf
    obtain ⟨hle, hover⟩ := hapart f ((Fixing.descending_perm fs).subset hmem)
    rw [← Bool.not_eq_true, Fix.overlaps_iff] at hover
    rw [decide_eq_true_eq] at hle'
    omega
  · refine ((Fixing.descending_precedes hfs).filter _).imp ?_
    rintro f g (⟨hstop, -⟩ | ⟨hins, -, -⟩)
    · exact Or.inl hstop
    · exact Or.inr hins.ge

namespace Fixing

/-- If all insertions slide, the fixes are applied in turn from whatever order they are given in,
as if all at once. -/
theorem exists_arrangement {content : Text} {fs : List Fix} (h : content.Compatible fs)
    (hslide : content.InsertionsSlide fs) :
    ∃ u, ∀ gs, gs.Perm fs → applyInTurn? content (descending gs) = some u := by
  have hrun : ∀ gs, gs.Perm fs → ∃ ks, ks.Perm fs ∧ content.Ranges ks ∧
      applyInTurn? content (descending gs) = some (content.replaceAll ks) := by
    intro gs hgs
    have hperm := (descending_perm gs).trans hgs
    obtain ⟨ks, hks, hranges, hrun⟩ := exists_ranges_of_slides h hslide hperm.subset
      (descending_precedes (h.perm hgs)) (Text.Ranges.nil content) (by simp)
    rw [List.append_nil] at hks
    exact ⟨ks, hks.trans hperm, hranges, hrun⟩
  obtain ⟨ks, hks, hranges, -⟩ := hrun fs (List.Perm.refl fs)
  refine ⟨content.replaceAll ks, fun gs hgs => ?_⟩
  obtain ⟨ks', hks', hranges', hrun'⟩ := hrun gs hgs
  rw [hrun', (h.perm hks).ranges_unique (hks'.trans hks.symm) hranges' hranges]

/-- Compatible fixes are all applied with one result, in whatever order their messages come, exactly
when every insertion at the start of a replacement slides past it. -/
theorem applyFixes_perm_iff (content : Text) (ms : List Message)
    (h : content.Compatible (ms.filterMap (·.fix))) :
    (∀ ms', ms'.Perm ms →
      (applyFixes content ms').applied = (indexedFixes ms').map (·.index) ∧
        (applyFixes content ms').content = (applyFixes content ms).content) ↔
    content.InsertionsSlide (ms.filterMap (·.fix)) := by
  constructor
  · intro hall x hx y hy hins hstart hlt
    obtain ⟨m, hm, hmx⟩ := List.mem_filterMap.1 hx
    obtain ⟨n, hn, hny⟩ := List.mem_filterMap.1 hy
    have hne : n ≠ m := by
      rintro rfl
      rw [hmx, Option.some.injEq] at hny
      subst hny
      omega
    -- the two messages in front of all others, in both orders
    obtain ⟨rest, hrest⟩ : ∃ rest, (m :: n :: rest).Perm ms := by
      classical
      have hn := (List.mem_erase_of_ne hne).2 hn
      exact ⟨_, ((List.perm_cons_erase hm).trans ((List.perm_cons_erase hn).cons m)).symm⟩
    have hrun : ∀ ms' : List Message, ms'.Perm ms →
        applyInTurn? content (descending (ms'.filterMap (·.fix))) =
          some (applyFixes content ms).content := fun ms' hperm =>
      (applyFixes_complete_iff (h.perm (hperm.filterMap _))).1 (hall ms' hperm)
    have hxy := hrun _ hrest
    have hyx := hrun _ ((List.Perm.swap m n rest).trans hrest)
    have hcomp := h.perm (hrest.filterMap _)
    rw [List.filterMap_cons_some hmx, List.filterMap_cons_some hny] at hxy hcomp
    rw [List.filterMap_cons_some hny, List.filterMap_cons_some hmx] at hyx
    exact slides_of_same_result hcomp hins hstart hlt hxy hyx
  · intro hslide ms' hperm
    obtain ⟨u, hu⟩ := exists_arrangement h hslide
    obtain ⟨-, hms⟩ := (applyFixes_complete_iff h).2 (hu _ (List.Perm.refl _))
    have hms' := hperm.filterMap (·.fix)
    rw [hms]
    exact (applyFixes_complete_iff (h.perm hms')).2 (hu _ hms')

/-- An insertion that slides past the replacement at its place, between fixes that touch them. -/
theorem applyFixes_perm_slide :
    let content := Text.ofString "xab"
    let ms := messagesOf [⟨3, 3, "!"⟩, ⟨1, 1, "a"⟩, ⟨2, 3, "c"⟩, ⟨1, 2, "aa"⟩, ⟨0, 1, "y"⟩]
    content.Compatible (ms.filterMap (·.fix)) ∧
    ∀ ms' : List Message, ms'.Perm ms →
      (applyFixes content ms').applied = (indexedFixes ms').map (·.index) ∧
        (applyFixes content ms').content = Text.ofString "yaaac!" := by
  intro content ms
  have hcomp : content.Compatible (ms.filterMap (·.fix)) := ⟨by decide, by decide, by decide⟩
  have hcontent : (applyFixes content ms).content = Text.ofString "yaaac!" := by cbv
  refine ⟨hcomp, ?_⟩
  rw [← hcontent]
  exact (applyFixes_perm_iff content ms hcomp).2 (by unfold Text.InsertionsSlide; decide)

/-- An insertion before a replacement at its place: the replacement takes the inserted text away and
leaves the byte it should have replaced. With the messages exchanged it does not. -/
theorem applyFixes_depends_on_order :
    ¬ ∀ (content : Text) (ms : List Message), content.Compatible (ms.filterMap (·.fix)) →
      ∀ ms', ms'.Perm ms →
        (applyFixes content ms').applied = (indexedFixes ms').map (·.index) ∧
          (applyFixes content ms').content = (applyFixes content ms).content := by
  intro h
  let x : Fix := ⟨1, 1, "y"⟩
  let y : Fix := ⟨1, 2, "z"⟩
  have hcomp : (Text.ofString "abc").Compatible ((messagesOf [y, x]).filterMap (·.fix)) :=
    ⟨by decide, by decide, by decide⟩
  have hxy : (applyFixes (Text.ofString "abc") (messagesOf [x, y])).content =
      Text.ofString "azbc" := by cbv
  have hyx : (applyFixes (Text.ofString "abc") (messagesOf [y, x])).content =
      Text.ofString "ayzc" := by cbv
  have hsame := (h _ _ hcomp (messagesOf [x, y]) (List.Perm.swap _ _ _)).2
  rw [hxy, hyx] at hsame
  exact absurd hsame (by decide)

end Fixing
end Inlay
