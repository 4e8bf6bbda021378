import Mathlib
import Inlay.Proofs.Discovery

/-! What a search lists and when it fails. It fails for the first argument that neither names a file
nor can be read as a pattern, and then for a set of patterns that the compiler refuses. Else it
lists, in the order of their components and each once, the paths that arguments stand for. The list
is told by the set of arguments and the set of files that a walk comes by: their order and how often
they come is of no account. -/

namespace Inlay

/-! ## The order of components -/

namespace Component

def rank : Component → Nat
  | .root => 0
  | .here => 1
  | .above => 2
  | .name _ => 3

/-- The root before the current directory before the directory above before names, and names by
their bytes. -/
def Precedes : Component → Component → Prop
  | .name s, .name t => List.Lex (· < ·) s t
  | c, d => c.rank < d.rank

theorem byteMarks_lt_iff {s t : Text} :
    s.map (·.toNat + 1) < t.map (·.toNat + 1) ↔ List.Lex (· < ·) s t := by
  induction s generalizing t with
  | nil => cases t <;> simp
  | cons b s ih =>
    cases t with
    | nil => simp
    | cons c t =>
      rw [List.map_cons, List.map_cons, List.cons_lt_cons_iff, List.cons_lex_cons_iff, ih,
        Nat.add_lt_add_iff_right, Nat.add_right_cancel_iff, UInt8.toNat_inj, UInt8.lt_iff_toNat_lt]

theorem mark_lt_mark_iff {c d : Component} : c.mark < d.mark ↔ c.Precedes d := by
  cases c <;> cases d <;>
    simp [mark, Precedes, rank, List.cons_lt_cons_iff, byteMarks_lt_iff]

theorem append_zero_lt_iff {xs ys as bs : List Nat} (hx : 0 ∉ xs) (hy : 0 ∉ ys) :
    xs ++ 0 :: as < ys ++ 0 :: bs ↔ xs < ys ∨ xs = ys ∧ as < bs := by
  induction xs generalizing ys with
  | nil =>
    cases ys with
    | nil => simp
    | cons y ys =>
      have hpos : 0 < y := Nat.pos_of_ne_zero fun h => hy (h ▸ List.mem_cons_self)
      simp [List.cons_lt_cons_iff, hpos]
  | cons x xs ih =>
    cases ys with
    | nil =>
      have hne : x ≠ 0 := fun h => hx (h ▸ List.mem_cons_self)
      simp [List.cons_lt_cons_iff, hne]
    | cons y ys =>
      rw [List.cons_append, List.cons_append, List.cons_lt_cons_iff, List.cons_lt_cons_iff,
        ih (List.not_mem_of_not_mem_cons hx) (List.not_mem_of_not_mem_cons hy), List.cons.injEq]
      tauto

theorem flatMap_key_lt_iff {cs ds : List Component} :
    cs.flatMap key < ds.flatMap key ↔ List.Lex Precedes cs ds := by
  induction cs generalizing ds with
  | nil =>
    cases ds with
    | nil => simp
    | cons d ds =>
      obtain ⟨x, xs, hd⟩ := List.exists_cons_of_ne_nil (l := d.key) (by simp [key_eq])
      simp [hd]
  | cons c cs ih =>
    cases ds with
    | nil => simp [key_eq]
    | cons d ds =>
      simp only [List.flatMap_cons, key_eq, List.append_assoc, List.singleton_append]
      rw [append_zero_lt_iff (zero_notMem_mark c) (zero_notMem_mark d), mark_lt_mark_iff,
        mark_injective.eq_iff, List.cons_lex_cons_iff, ← ih]

end Component

theorem isAtMostInOrder_iff {as bs : List Nat} : isAtMostInOrder as bs = true ↔ ¬ bs < as := by
  induction as generalizing bs with
  | nil => simp [isAtMostInOrder]
  | cons a as ih =>
    cases bs with
    | nil => simp [isAtMostInOrder]
    | cons b bs =>
      simp only [isAtMostInOrder, Bool.or_eq_true, decide_eq_true_eq, Bool.and_eq_true,
        beq_iff_eq, ih, List.cons_lt_cons_iff]
      rcases lt_trichotomy a b with h | rfl | h
      · simp [h, h.not_gt, h.ne']
      · simp
      · simp [h, h.not_gt, h.ne']

/-- One path comes strictly before another: its components come first in the order of
dictionaries. -/
def Path.Precedes (p q : Path) : Prop := List.Lex Component.Precedes p.components q.components

theorem Path.precedes_iff {p q : Path} : p.Precedes q ↔ p.key < q.key :=
  Component.flatMap_key_lt_iff.symm

theorem Path.precedes_of_isAtMost {p q : Path} (h : p.isAtMost q = true)
    (hne : p.isSame q = false) : p.Precedes q := by
  rw [Path.precedes_iff]
  rw [isSame, beq_eq_false_iff_ne] at hne
  exact lt_of_le_of_ne (not_lt.1 (isAtMostInOrder_iff.1 h)) hne

namespace GlobCompiler

theorem withLimit_eq_none_iff {limit : Nat} {globs : List Glob} :
    withLimit limit globs = none ↔ ∀ g ∈ globs, g.depth ≤ limit := by
  simp [withLimit]

/-- A limit on depths is a matter of what is in the set. -/
theorem withLimit_congr {limit : Nat} (globs globs' : List Glob)
    (h : ∀ g, g ∈ globs ↔ g ∈ globs') :
    withLimit limit globs = none ↔ withLimit limit globs' = none := by
  simp only [withLimit_eq_none_iff, h]

end GlobCompiler

namespace PathFilter

/-! ## Lists in order -/

theorem inOrder_precedes (paths : List Path) : (inOrder paths).Pairwise Path.Precedes := by
  have hatMost : (inOrder paths).Pairwise fun p q => p.isAtMost q = true :=
    (mergeSort_pairwise paths).sublist (dropRepeats_sublist _)
  exact (hatMost.and (inOrder_pairwise paths)).imp fun h => Path.precedes_of_isAtMost h.1 h.2

/-- A list in strict order is told by what its paths mean. -/
theorem forall₂_isSame {paths paths' : List Path} (h : paths.Pairwise Path.Precedes)
    (h' : paths'.Pairwise Path.Precedes) (hsub : ∀ p ∈ paths, ∃ q ∈ paths', q.isSame p = true)
    (hsub' : ∀ q ∈ paths', ∃ p ∈ paths, p.isSame q = true) :
    List.Forall₂ (fun p q => p.isSame q = true) paths paths' := by
  have hkeys : ∀ ps : List Path, ps.Pairwise Path.Precedes → (ps.map Path.key).Pairwise (· < ·) :=
    fun ps hps => List.pairwise_map.2 (hps.imp Path.precedes_iff.1)
  have hmem : ∀ ps qs : List Path, (∀ p ∈ ps, ∃ q ∈ qs, q.isSame p = true) →
      ∀ k, k ∈ ps.map Path.key → k ∈ qs.map Path.key := by
    rintro ps qs hall k hk
    obtain ⟨p, hp, rfl⟩ := List.mem_map.1 hk
    obtain ⟨q, hq, hsame⟩ := hall p hp
    exact List.mem_map.2 ⟨q, hq, beq_iff_eq.1 hsame⟩
  have heq : paths.map Path.key = paths'.map Path.key :=
    (hkeys _ h).eq_of_mem_iff (hkeys _ h') fun k =>
      ⟨hmem paths paths' hsub k, hmem paths' paths hsub' k⟩
  rw [← List.forall₂_eq_eq_eq, List.forall₂_map_left_iff, List.forall₂_map_right_iff] at heq
  exact heq.imp fun p q hpq => beq_iff_eq.2 hpq

/-! ## Failures -/

theorem mapM_parse_eq_error_iff {patterns : List String} {e : ConfigError} :
    patterns.mapM Glob.parse = .error e ↔
      ∃ a, patterns.find? (fun a => (Glob.ofString? a).isNone) = some a ∧ e = .badPattern a := by
  induction patterns with
  | nil => simp [pure, Except.pure]
  | cons a patterns ih =>
    rw [List.mapM_cons, bind_eq_error_iff, List.find?_cons, Glob.parse]
    cases Glob.ofString? a with
    | none => simp [eq_comm]
    | some g => simp [bind_eq_error_iff, ih, pure, Except.pure]

/-- The patterns in the arguments that name no file. -/
def Reads (isFile : Path → Bool) (arguments : List String) (globs : List Glob) : Prop :=
  List.Forall₂ (fun a g => Glob.ofString? a = some g)
    (arguments.filter fun a => !isFile (.ofString a)) globs

variable {f : PathFilter} {compiler : GlobCompiler} {isFile : Path → Bool}
  {arguments arguments' : List String} {walked walked' paths : List Path}

theorem mapM_parse_eq_ok_iff {globs : List Glob} :
    (arguments.filter fun a => !isFile (.ofString a)).mapM Glob.parse = .ok globs ↔
      Reads isFile arguments globs := by
  have hparse : ∀ a g, Glob.parse a = .ok g ↔ Glob.ofString? a = some g := fun a g => by
    unfold Glob.parse
    cases Glob.ofString? a <;> simp
  simp only [mapM_eq_ok_iff, hparse, Reads]

theorem Reads.mem_iff {globs : List Glob} (h : Reads isFile arguments globs) {g : Glob} :
    g ∈ globs ↔ ∃ a ∈ arguments, isFile (.ofString a) = false ∧ Glob.parse a = .ok g := by
  rw [mem_mapM (mapM_parse_eq_ok_iff.2 h)]
  simp only [List.mem_filter, Bool.not_eq_true', and_assoc]

/-- A search fails for the first argument that names no file and is no pattern, or for the set of
patterns if there is no such argument. -/
theorem select_eq_error_iff {e : ConfigError} :
    f.select compiler isFile walked arguments = .error e ↔
      (∃ a, arguments.find? (fun a => !isFile (.ofString a) && (Glob.ofString? a).isNone) = some a ∧
        e = .badPattern a) ∨
      ∃ globs reason, Reads isFile arguments globs ∧ globs ≠ [] ∧ compiler globs = some reason ∧
        e = .badPatternSet reason := by
  have hpatterns : ((fun a => !a) ∘ fun a : String => isFile (.ofString a)) =
      fun a => !isFile (.ofString a) := rfl
  simp only [select, List.partition_eq_filter_filter, bind_eq_error_iff,
    GlobCompiler.parse_eq_error_iff, hpatterns, mapM_parse_eq_error_iff, mapM_parse_eq_ok_iff,
    List.find?_filter, pure, Except.pure, reduceCtorEq, and_false, exists_false, or_false,
    Bool.decide_and, Bool.decide_eq_true]

theorem select_singleton_refused {a : String} {g : Glob} {reason : String}
    (hfile : isFile (.ofString a) = false) (hread : Glob.ofString? a = some g)
    (hreason : compiler [g] = some reason) :
    f.select compiler isFile walked [a] = .error (.badPatternSet reason) := by
  refine select_eq_error_iff.2 (Or.inr ⟨[g], reason, ?_, List.cons_ne_nil g [], hreason, rfl⟩)
  simp [Reads, hfile, hread]

def HasBadPattern (isFile : Path → Bool) (arguments : List String) : Prop :=
  ∃ a ∈ arguments, isFile (.ofString a) = false ∧ Glob.ofString? a = none

theorem exists_find?_iff :
    (∃ a, arguments.find? (fun a => !isFile (.ofString a) && (Glob.ofString? a).isNone) = some a) ↔
      HasBadPattern isFile arguments := by
  rw [← Option.isSome_iff_exists, List.find?_isSome]
  simp only [HasBadPattern, Bool.and_eq_true, Bool.not_eq_true', Option.isNone_iff_eq_none]

theorem select_eq_badPattern_iff :
    (∃ a, f.select compiler isFile walked arguments = .error (.badPattern a)) ↔
      HasBadPattern isFile arguments := by
  simp only [select_eq_error_iff, ← exists_find?_iff, ConfigError.badPattern.injEq, reduceCtorEq,
    and_false, exists_false, or_false]
  exact ⟨fun ⟨_, a, h, _⟩ => ⟨a, h⟩, fun ⟨a, h⟩ => ⟨a, a, h, rfl⟩⟩

theorem exists_select_eq_error_iff :
    (∃ e, f.select compiler isFile walked arguments = .error e) ↔
      HasBadPattern isFile arguments ∨
        ∃ globs, Reads isFile arguments globs ∧ globs ≠ [] ∧ compiler globs ≠ none := by
  simp only [select_eq_error_iff, exists_or, ← exists_find?_iff, Option.ne_none_iff_exists']
  refine or_congr ⟨?_, ?_⟩ ⟨?_, ?_⟩
  · rintro ⟨_, a, h, rfl⟩
    exact ⟨a, h⟩
  · rintro ⟨a, h⟩
    exact ⟨_, a, h, rfl⟩
  · rintro ⟨_, globs, reason, hreads, hne, hreason, rfl⟩
    exact ⟨globs, hreads, hne, reason, hreason⟩
  · rintro ⟨globs, hreads, hne, reason, hreason⟩
    exact ⟨_, globs, reason, hreads, hne, hreason, rfl⟩

/-! ## What is listed -/

theorem mem_of_select (h : f.select compiler isFile walked arguments = .ok paths) :
    paths.Pairwise Path.Precedes ∧ (∀ p ∈ paths, f.Picks isFile walked arguments p) ∧
      ∀ p, f.Picks isFile walked arguments p → ∃ q ∈ paths, q.isSame p = true := by
  obtain ⟨picked, rfl, hpicked⟩ := exists_picked h
  refine ⟨inOrder_precedes picked, fun p hp => ?_, fun p hp => ?_⟩
  · exact (hpicked p).1 (mem_of_mem_inOrder hp)
  · exact exists_isSame_inOrder ((hpicked p).2 hp)

section

variable (hwalked : walked'.Perm walked) (harguments : ∀ a, a ∈ arguments' ↔ a ∈ arguments)

include hwalked harguments

theorem picks_congr {p : Path} :
    f.Picks isFile walked' arguments' p ↔ f.Picks isFile walked arguments p := by
  simp only [Picks, harguments, hwalked.mem_iff]

/-- Neither the order of the arguments nor that of the walk is of account, nor are repeats. -/
theorem forall₂_of_select {paths' : List Path}
    (h : f.select compiler isFile walked arguments = .ok paths)
    (h' : f.select compiler isFile walked' arguments' = .ok paths') :
    List.Forall₂ (fun p q => p.isSame q = true) paths paths' := by
  obtain ⟨hordered, hmem, hall⟩ := mem_of_select h
  obtain ⟨hordered', hmem', hall'⟩ := mem_of_select h'
  refine forall₂_isSame hordered hordered' (fun p hp => ?_) fun q hq => ?_
  · exact hall' p ((picks_congr hwalked harguments).2 (hmem p hp))
  · exact hall q ((picks_congr hwalked harguments).1 (hmem' q hq))

end

/-! ## Order and repeats -/

theorem hasBadPattern_congr (harguments : ∀ a, a ∈ arguments' ↔ a ∈ arguments) :
    HasBadPattern isFile arguments' ↔ HasBadPattern isFile arguments := by
  simp only [HasBadPattern, harguments]

theorem exists_reads_iff :
    (∃ globs, Reads isFile arguments globs) ↔ ¬ HasBadPattern isFile arguments := by
  have hfails :
      (∃ e, (arguments.filter fun a => !isFile (.ofString a)).mapM Glob.parse = .error e) ↔
        HasBadPattern isFile arguments := by
    simp only [mapM_parse_eq_error_iff, List.find?_filter, Bool.decide_and, Bool.decide_eq_true,
      ← exists_find?_iff]
    exact ⟨fun ⟨_, a, hfind, _⟩ => ⟨a, hfind⟩, fun ⟨a, hfind⟩ => ⟨_, a, hfind, rfl⟩⟩
  simp only [← hfails, ← mapM_parse_eq_ok_iff]
  cases (arguments.filter fun a => !isFile (.ofString a)).mapM Glob.parse <;> simp

/-- A set is refused whatever the order of the arguments, if that is a matter of its members. -/
theorem refused_congr (harguments : ∀ a, a ∈ arguments' ↔ a ∈ arguments)
    (hcompiler : ∀ globs globs' : List Glob, (∀ g, g ∈ globs ↔ g ∈ globs') →
      (compiler globs = none ↔ compiler globs' = none))
    (h : ∃ globs, Reads isFile arguments globs ∧ globs ≠ [] ∧ compiler globs ≠ none) :
    ∃ globs, Reads isFile arguments' globs ∧ globs ≠ [] ∧ compiler globs ≠ none := by
  obtain ⟨globs, hreads, hne, hrefused⟩ := h
  obtain ⟨globs', hreads'⟩ := exists_reads_iff.2 fun hbad =>
    exists_reads_iff.1 ⟨globs, hreads⟩ ((hasBadPattern_congr harguments).1 hbad)
  have hmem : ∀ g, g ∈ globs ↔ g ∈ globs' := fun g => by
    simp only [hreads.mem_iff, hreads'.mem_iff, harguments]
  refine ⟨globs', hreads', fun hnil => ?_, fun hnone => hrefused ((hcompiler _ _ hmem).2 hnone)⟩
  obtain ⟨g, hg⟩ := List.exists_mem_of_ne_nil globs hne
  rw [hmem, hnil] at hg
  cases hg

/-- A search fails for the first argument that names no file and is no pattern; if there is none,
exactly when the compiler refuses the set of the patterns. Else it lists, in strict order, exactly
what is picked: the arguments that name files and the paths of the walk that another argument
matches, without those that the filter rejects, and each in one of its spellings. With the arguments
in another order or repeated, and after a walk in another order, it fails for an argument or lists
the same, and it fails for the set if that is a matter of what is in the set. -/
theorem select_lists_picked (f : PathFilter) (compiler : GlobCompiler) (isFile : Path → Bool)
    (hwalked : walked'.Perm walked) (harguments : ∀ a, a ∈ arguments' ↔ a ∈ arguments) :
    let outcome := f.select compiler isFile walked arguments
    let outcome' := f.select compiler isFile walked' arguments'
    (∀ e, outcome = .error e ↔
      (∃ a, arguments.find? (fun a => !isFile (.ofString a) && (Glob.ofString? a).isNone) = some a ∧
        e = .badPattern a) ∨
      ∃ globs reason, Reads isFile arguments globs ∧ globs ≠ [] ∧ compiler globs = some reason ∧
        e = .badPatternSet reason) ∧
    ((∀ globs, compiler globs = none) → ((∃ e, outcome = .error e) ↔
      ∃ a ∈ arguments, isFile (.ofString a) = false ∧ Glob.ofString? a = none)) ∧
    (∀ paths, outcome = .ok paths → paths.Pairwise Path.Precedes ∧
      (∀ p ∈ paths, f.Picks isFile walked arguments p) ∧
      ∀ p, f.Picks isFile walked arguments p → ∃ q ∈ paths, q.isSame p = true) ∧
    ((∃ a, outcome = .error (.badPattern a)) ↔ ∃ a, outcome' = .error (.badPattern a)) ∧
    (∀ paths paths', outcome = .ok paths → outcome' = .ok paths' →
      List.Forall₂ (fun p q => p.isSame q = true) paths paths') ∧
    ((∀ globs globs' : List Glob, (∀ g, g ∈ globs ↔ g ∈ globs') →
        (compiler globs = none ↔ compiler globs' = none)) →
      ((∃ e, outcome = .error e) ↔ ∃ e, outcome' = .error e)) := by
  intro outcome outcome'
  have hbad := @hasBadPattern_congr isFile _ _ harguments
  refine ⟨fun e => select_eq_error_iff, fun hnone => ?_, fun paths => mem_of_select, ?_,
    fun paths paths' => forall₂_of_select hwalked harguments, fun hcompiler => ?_⟩
  · rw [exists_select_eq_error_iff]
    exact or_iff_left fun ⟨globs, _, _, hrefused⟩ => hrefused (hnone globs)
  · rw [select_eq_badPattern_iff, select_eq_badPattern_iff, hbad]
  · rw [exists_select_eq_error_iff, exists_select_eq_error_iff, hbad]
    refine or_congr_right ⟨refused_congr harguments hcompiler, refused_congr ?_ hcompiler⟩
    exact fun a => (harguments a).symm

def withoutA : PathFilter := ⟨[], [⟨[.anyBytes, .literal (Text.ofString "a.md")]⟩]⟩

def workTree : FileTree :=
  .ofFiles [("a.md", []), ("d/b.md", [])] [] [Text.ofString "work"]

def workArguments : List String := ["/work/d//b.md", "**/*.md", "d/b.md", "/work/d/b.md"]

/-- A file named from the root and from the current directory and matched by a pattern below an
absolute base, with the arguments and the walk in two orders. -/
theorem select_lists_picked_work :
    (withoutA.discover .default workTree workArguments (.ofString "/work") =
      .ok [.ofString "/work/d//b.md", .ofString "d/b.md"] ∧
    withoutA.select .default workTree.isFile (workTree.walk (.ofString "/work")).reverse
      (workArguments.reverse ++ workArguments) =
        .ok [.ofString "/work/d/b.md", .ofString "d/b.md"]) ∧
    (Path.ofString "/work/d//b.md").Precedes (.ofString "d/b.md") ∧
    withoutA.Chosen workTree workArguments (.ofString "/work") (.ofString "/work/d//b.md") ∧
    (Path.ofString "/work/d//b.md").isSame (.ofString "/work/d/b.md") = true ∧
    ∃ e, withoutA.select .default workTree.isFile (workTree.walk (.ofString "/work")).reverse
      ["[x", "a.md"] = .error e := by
  have h : withoutA.select .default workTree.isFile (workTree.walk (.ofString "/work"))
      workArguments = .ok [.ofString "/work/d//b.md", .ofString "d/b.md"] := by cbv
  have h' : withoutA.select .default workTree.isFile (workTree.walk (.ofString "/work")).reverse
      (workArguments.reverse ++ workArguments) =
        .ok [.ofString "/work/d/b.md", .ofString "d/b.md"] := by cbv
  have harguments : ∀ a, a ∈ workArguments.reverse ++ workArguments ↔ a ∈ workArguments := by
    simp only [List.mem_append, List.mem_reverse, or_self, implies_true]
  obtain ⟨-, -, hlists, -, hsame, -⟩ := select_lists_picked withoutA .default workTree.isFile
    (List.reverse_perm _) harguments
  obtain ⟨hordered, hmem, -⟩ := hlists _ h
  have hbad : withoutA.select .default workTree.isFile (workTree.walk (.ofString "/work"))
      ["a.md", "[x"] = .error (.badPattern "[x") := by cbv
  obtain ⟨-, -, -, -, -, hfails⟩ := select_lists_picked withoutA .default workTree.isFile
    (List.reverse_perm (workTree.walk (.ofString "/work")))
    (fun _ => (List.Perm.swap "a.md" "[x" []).mem_iff)
  refine ⟨⟨h, h'⟩, ?_, ?_, ?_, (hfails GlobCompiler.withLimit_congr).1 ⟨_, hbad⟩⟩
  · exact (List.pairwise_cons.1 hordered).1 _ (List.mem_singleton_self _)
  · exact hmem _ List.mem_cons_self
  · exact (List.forall₂_cons.1 (hsame _ _ h h')).1

end PathFilter

namespace Glob

/-! ## Braces in braces -/

/-- A letter in so many braces. -/
def nested : Nat → GlobToken
  | 0 => .literal (String.utf8EncodeChar 'a')
  | n + 1 => .alternatives [[nested n]]

def nestedChars (n : Nat) : List Char :=
  List.replicate n '\x7b' ++ 'a' :: List.replicate n '\x7d'

theorem isVoid_nested (n : Nat) : (nested n).isVoid = false := by
  induction n with
  | zero => rfl
  | succ n ih => simp [nested, GlobToken.isVoid, GlobToken.areVoidBranches, GlobToken.areVoid, ih]

theorem areVoidBranches_nested (n : Nat) : GlobToken.areVoidBranches [[nested n]] = false :=
  isVoid_nested (n + 1)

theorem pieceCount_nested (n : Nat) : (nested n).pieceCount = 1 := by
  cases n with
  | zero => rfl
  | succ n => simp [nested, GlobToken.pieceCount, areVoidBranches_nested]

theorem depth_nested (n : Nat) : (nested n).depth = n := by
  induction n with
  | zero => rfl
  | succ n ih =>
    simp [nested, GlobToken.depth, areVoidBranches_nested, GlobToken.areVoid, isVoid_nested,
      GlobToken.depthOfBranches, GlobToken.pieceCountAll, GlobToken.depthAll, pieceCount_nested,
      ih, Nat.add_comm]

theorem nestedChars_succ (n : Nat) (cs : List Char) :
    nestedChars (n + 1) ++ cs = '\x7b' :: (nestedChars n ++ '\x7d' :: cs) := by
  have hclose : List.replicate (n + 1) '\x7d' ++ cs = List.replicate n '\x7d' ++ '\x7d' :: cs := by
    rw [List.replicate_succ', List.append_assoc, List.singleton_append]
  rw [nestedChars, List.append_assoc, List.cons_append, hclose, List.replicate_succ, nestedChars]
  simp

namespace Reader

theorem readAll?_cons {r next : Reader} {c : Char} {cs : List Char} (fuel : Nat)
    (h : r.token? c cs = some (next, cs)) :
    readAll? (fuel + 1) r (c :: cs) = readAll? fuel { next with before := some c } cs := by
  simp [readAll?, h]

/-- The braces that are opened are closed again, and nothing stays of them but the token. -/
theorem readAll?_nested (n fuel : Nat) (r : Reader) (cs : List Char) :
    ∃ before, readAll? (fuel + (nestedChars n).length) r (nestedChars n ++ cs) =
      readAll? fuel { r with current := nested n :: r.current, before } cs := by
  induction n generalizing fuel r cs with
  | zero =>
    have ha : r.token? 'a' cs = some (r.pushChar 'a', cs) := rfl
    exact ⟨some 'a', readAll?_cons fuel ha⟩
  | succ n ih =>
    obtain ⟨before, hinner⟩ :=
      ih (fuel + 1) { r.openBrace with before := some '\x7b' } ('\x7d' :: cs)
    have hlength : fuel + (nestedChars (n + 1)).length =
        fuel + 1 + (nestedChars n).length + 1 := by
      simp only [nestedChars, List.length_append, List.length_replicate, List.length_cons]
      omega
    refine ⟨some '\x7d', ?_⟩
    rw [nestedChars_succ, hlength, readAll?_cons _ rfl, hinner, readAll?_cons _ rfl]
    rfl

end Reader

theorem ofString?_nested (n : Nat) :
    ofString? (String.ofList (nestedChars n)) = some ⟨[nested n]⟩ := by
  obtain ⟨before, hread⟩ := Reader.readAll?_nested n 0 .start []
  rw [Nat.zero_add, List.append_nil] at hread
  rw [ofString?, String.toList_ofList, hread]
  rfl

theorem depth_nested_token (n : Nat) : Glob.depth ⟨[nested n]⟩ = n + 1 := by
  have hdepth : Glob.depth ⟨[nested n]⟩ = 1 + GlobToken.depthAll [nested n] := by
    cases n <;> rfl
  rw [hdepth, GlobToken.depthAll, depth_nested, GlobToken.depthAll, Nat.max_zero, Nat.add_comm]

end Glob

theorem GlobCompiler.withLimit_nested {limit n : Nat} (h : limit ≤ n) :
    ∃ reason, GlobCompiler.withLimit limit [⟨[Glob.nested n]⟩] = some reason := by
  rw [← Option.ne_none_iff_exists', Ne, withLimit_eq_none_iff]
  simpa [Glob.depth_nested_token] using h

theorem FileTree.isFile_of_files_eq_nil {t : FileTree} (h : t.files = []) (p : Path) :
    t.isFile p = false := by
  have hentry : ∀ names content, t.entry? names ≠ some (.file content) := fun names content => by
    unfold entry? content?
    rw [h, List.lookup_nil]
    cases t.isDirectory names <;> simp
  by_cases htext : p.text = []
  · simp [isFile, find, htext]
  · cases hfollow : t.follow t.current p.components with
    | error e => simp [isFile, find, htext, hfollow]
    | ok names =>
      cases hfound : t.entry? names with
      | none => simp [isFile, find, htext, hfollow, hfound]
      | some entry =>
        cases entry with
        | file content => exact absurd hfound (hentry names content)
        | directory => simp [isFile, find, htext, hfollow, hfound]

namespace PathFilter

/-- A letter in more braces than the program's compiler takes. -/
def deepPattern : String := String.ofList (Glob.nestedChars 300)

/-- A search can fail though each argument can be read as a pattern, and which argument an error
names depends on their order. -/
theorem discover_fails_for_valid :
    ¬ ((∃ e, discover ⟨[], []⟩ .default (.ofFiles []) [deepPattern] ⟨Path.dot⟩ = .error e) ↔
      ∃ a ∈ [deepPattern], (FileTree.ofFiles []).isFile (.ofString a) = false ∧
        Glob.ofString? a = none) ∧
    discover ⟨[], []⟩ .default (.ofFiles []) ["[x", "[y"] ⟨Path.dot⟩ =
      .error (.badPattern "[x") ∧
    discover ⟨[], []⟩ .default (.ofFiles []) ["[y", "[x"] ⟨Path.dot⟩ =
      .error (.badPattern "[y") := by
  refine ⟨fun hclaim => ?_, by cbv, by cbv⟩
  have hvalid : Glob.ofString? deepPattern = some ⟨[Glob.nested 300]⟩ := Glob.ofString?_nested 300
  obtain ⟨reason, hreason⟩ := @GlobCompiler.withLimit_nested 250 300 (by decide)
  have hfails : discover ⟨[], []⟩ .default (.ofFiles []) [deepPattern] ⟨Path.dot⟩ =
      .error (.badPatternSet reason) :=
    select_singleton_refused (FileTree.isFile_of_files_eq_nil rfl _) hvalid hreason
  obtain ⟨a, ha, -, hnone⟩ := hclaim.1 ⟨_, hfails⟩
  rw [List.mem_singleton.1 ha, hvalid] at hnone
  cases hnone

end PathFilter
end Inlay
