import Mathlib
import Inlay.Files.Finder
import Inlay.Proofs.Outcomes

/-! Which paths a search gives, and when two of them name one file. Paths are sorted and repeats are
dropped by comparing components. A leading dot is a component of its own, so a path with it and the
same path without it are both kept. Every other way to spell a file twice is seen through. -/

namespace Inlay

/-! ## The order of paths -/

theorem isAtMostInOrder_total (as bs : List Nat) :
    isAtMostInOrder as bs = true ∨ isAtMostInOrder bs as = true := by
  induction as generalizing bs with
  | nil => exact .inl rfl
  | cons a as ih =>
    cases bs with
    | nil => exact .inr rfl
    | cons b bs =>
      rcases lt_trichotomy a b with h | rfl | h
      · exact .inl (by simp [isAtMostInOrder, h])
      · simpa [isAtMostInOrder] using ih bs
      · exact .inr (by simp [isAtMostInOrder, h])

theorem isAtMostInOrder_trans {as bs cs : List Nat} (h : isAtMostInOrder as bs = true)
    (h' : isAtMostInOrder bs cs = true) : isAtMostInOrder as cs = true := by
  induction as generalizing bs cs with
  | nil => rfl
  | cons a as ih =>
    cases bs with
    | nil => cases h
    | cons b bs =>
      cases cs with
      | nil => cases h'
      | cons c cs =>
        simp only [isAtMostInOrder, Bool.or_eq_true, decide_eq_true_eq, Bool.and_eq_true,
          beq_iff_eq] at h h' ⊢
        rcases h with h | ⟨rfl, h⟩
        · rcases h' with h' | ⟨rfl, -⟩
          · exact .inl (h.trans h')
          · exact .inl h
        · rcases h' with h' | ⟨rfl, h'⟩
          · exact .inl h'
          · exact .inr ⟨rfl, ih h h'⟩

theorem isAtMostInOrder_antisymm {as bs : List Nat} (h : isAtMostInOrder as bs = true)
    (h' : isAtMostInOrder bs as = true) : as = bs := by
  induction as generalizing bs with
  | nil =>
    cases bs with
    | nil => rfl
    | cons b bs => cases h'
  | cons a as ih =>
    cases bs with
    | nil => cases h
    | cons b bs =>
      simp only [isAtMostInOrder, Bool.or_eq_true, decide_eq_true_eq, Bool.and_eq_true,
        beq_iff_eq] at h h'
      obtain rfl : a = b := by omega
      rw [ih (by simpa using h) (by simpa using h')]

namespace Component

def mark : Component → List Nat
  | .root => [1]
  | .here => [2]
  | .above => [3]
  | .name bytes => 4 :: bytes.map (·.toNat + 1)

theorem key_eq (c : Component) : c.key = c.mark ++ [0] := by
  cases c <;> rfl

theorem zero_notMem_mark (c : Component) : 0 ∉ c.mark := by
  cases c <;> simp [mark]

theorem mark_injective : Function.Injective mark := by
  have hbyte : Function.Injective fun b : UInt8 => b.toNat + 1 := fun a b h =>
    UInt8.toNat_inj.1 (Nat.succ.inj h)
  intro c d h
  cases c <;> cases d <;> simp [mark] at h ⊢
  exact hbyte.list_map h

theorem append_zero_inj {xs ys as bs : List Nat} (hx : 0 ∉ xs) (hy : 0 ∉ ys)
    (h : xs ++ 0 :: as = ys ++ 0 :: bs) : xs = ys ∧ as = bs := by
  induction xs generalizing ys with
  | nil => cases ys <;> simp_all
  | cons x xs ih =>
    cases ys with
    | nil =>
      obtain ⟨rfl, -⟩ := List.cons.inj h
      exact absurd List.mem_cons_self hx
    | cons y ys =>
      simp only [List.cons_append, List.cons.injEq] at h
      obtain ⟨hxs, has⟩ :=
        ih (List.not_mem_of_not_mem_cons hx) (List.not_mem_of_not_mem_cons hy) h.2
      exact ⟨by rw [h.1, hxs], has⟩

/-- No key is the beginning of another, so components can be read back from their keys. -/
theorem flatMap_key_injective :
    Function.Injective fun cs : List Component => cs.flatMap key := by
  intro cs ds h
  induction cs generalizing ds with
  | nil =>
    cases ds with
    | nil => rfl
    | cons d ds => simp [key_eq] at h
  | cons c cs ih =>
    cases ds with
    | nil => simp [key_eq] at h
    | cons d ds =>
      simp only [List.flatMap_cons, key_eq, List.append_assoc, List.singleton_append] at h
      obtain ⟨hmark, hrest⟩ := append_zero_inj (zero_notMem_mark c) (zero_notMem_mark d) h
      rw [mark_injective hmark, ih (by simpa [key_eq] using hrest)]

end Component

namespace Path

theorem isSame_iff {p q : Path} : p.isSame q = true ↔ p.components = q.components := by
  rw [isSame, beq_iff_eq]
  exact Component.flatMap_key_injective.eq_iff

def names (p : Path) : List Text := p.pieces.filter fun piece => piece ≠ [] && piece ≠ dot

/-- Two paths name one file: they agree once dots and repeated slashes are gone. -/
def SameFile (p q : Path) : Prop := p.isAbsolute = q.isAbsolute ∧ p.names = q.names

instance (p q : Path) : Decidable (p.SameFile q) :=
  inferInstanceAs (Decidable (_ ∧ _))

theorem SameFile.symm {p q : Path} (h : p.SameFile q) : q.SameFile p := ⟨h.1.symm, h.2.symm⟩

theorem SameFile.trans {p q r : Path} (h : p.SameFile q) (h' : q.SameFile r) : p.SameFile r :=
  ⟨h.1.trans h'.1, h.2.trans h'.2⟩

instance : Std.Symm fun p q : Path => ¬ p.SameFile q := ⟨fun _ _ h h' => h h'.symm⟩

def isDotted (p : Path) : Bool := p.pieces.head? = some dot

theorem split_ne_nil (separator : UInt8) (t : Text) : t.split separator ≠ [] := by
  cases t with
  | nil => simp [Text.split]
  | cons b t =>
    rw [Text.split, List.foldr_cons, Text.splitStep.eq_def]
    repeat' split
    all_goals simp

theorem isDotted_of_isAbsolute {p : Path} (h : p.isAbsolute = true) : p.isDotted = false := by
  obtain ⟨_ | ⟨b, t⟩⟩ := p
  · simp [isAbsolute] at h
  · obtain rfl : b = slash := by simpa [isAbsolute] using h
    obtain ⟨first, rest, hsplit⟩ := List.exists_cons_of_ne_nil (split_ne_nil slash t)
    have hpieces : Text.split slash (slash :: t) = [] :: first :: rest := by
      rw [Text.split, List.foldr_cons, ← Text.split, hsplit, Text.splitStep, if_pos rfl]
    simp [isDotted, pieces, hpieces, dot]

def stand (piece : Text) : Component := if piece = dotDot then .above else .name piece

theorem stand_injective : Function.Injective stand := by
  intro x y h
  unfold stand at h
  split at h <;> split at h <;> simp_all

theorem componentOf?_eq (piece : Text) :
    componentOf? piece = if piece ≠ [] && piece ≠ dot then some (stand piece) else none := by
  unfold componentOf? stand
  by_cases hnil : piece = [] <;> by_cases hdot : piece = dot <;> simp [hnil, hdot]
  split <;> rfl

theorem filterMap_componentOf? (p : Path) :
    p.pieces.filterMap componentOf? = p.names.map stand := by
  rw [names]
  induction p.pieces with
  | nil => rfl
  | cons piece rest ih =>
    rw [List.filterMap_cons, componentOf?_eq, List.filter_cons]
    by_cases hpiece : (decide (piece ≠ []) && decide (piece ≠ dot)) = true
    · simp only [if_pos hpiece, ih, List.map_cons]
    · simp only [if_neg hpiece, ih]

theorem components_eq (p : Path) : p.components =
    (if p.isAbsolute then [.root] else if p.isDotted then [.here] else []) ++
      p.names.map stand := by
  rw [components, filterMap_componentOf?]
  simp [isDotted]

theorem notMem_map_stand {c : Component} (hc : c = .root ∨ c = .here) (pieces : List Text) :
    c ∉ pieces.map stand := by
  rw [List.mem_map]
  rintro ⟨piece, -, rfl⟩
  unfold stand at hc
  split at hc <;> simp at hc

theorem root_mem_components_iff {p : Path} : .root ∈ p.components ↔ p.isAbsolute = true := by
  rw [components_eq, List.mem_append, or_iff_left (notMem_map_stand (.inl rfl) _)]
  cases p.isAbsolute <;> cases p.isDotted <;> simp

theorem here_mem_components_iff {p : Path} : .here ∈ p.components ↔ p.isDotted = true := by
  rw [components_eq, List.mem_append, or_iff_left (notMem_map_stand (.inr rfl) _)]
  cases habs : p.isAbsolute with
  | true => simp [isDotted_of_isAbsolute habs]
  | false => cases p.isDotted <;> simp

/-- Components are what a path names and whether it is spelled with a dot in front. -/
theorem components_eq_iff {p q : Path} :
    p.components = q.components ↔ p.SameFile q ∧ p.isDotted = q.isDotted := by
  constructor
  · intro h
    have habs : p.isAbsolute = q.isAbsolute := by
      rw [Bool.eq_iff_iff, ← root_mem_components_iff, ← root_mem_components_iff, h]
    have hdot : p.isDotted = q.isDotted := by
      rw [Bool.eq_iff_iff, ← here_mem_components_iff, ← here_mem_components_iff, h]
    rw [components_eq, components_eq, habs, hdot] at h
    exact ⟨⟨habs, stand_injective.list_map (List.append_cancel_left h)⟩, hdot⟩
  · rintro ⟨⟨habs, hnames⟩, hdot⟩
    rw [components_eq, components_eq, habs, hdot, hnames]

theorem isSame_of_between {p q r : Path} (hpq : p.isAtMost q = true) (hqr : q.isAtMost r = true)
    (h : p.isSame r = true) : p.isSame q = true := by
  rw [isSame, beq_iff_eq] at h ⊢
  rw [isAtMost, ← h] at hqr
  exact isAtMostInOrder_antisymm hpq hqr

end Path

/-! ## Sets of patterns -/

theorem GlobCompiler.parse_eq_ok_iff {compiler : GlobCompiler} {patterns : List String}
    {globs : List Glob} :
    compiler.parse patterns = .ok globs ↔
      patterns.mapM Glob.parse = .ok globs ∧ (globs ≠ [] → compiler globs = none) := by
  simp only [parse, bind_eq_ok_iff]
  refine ⟨fun ⟨gs, hgs, h⟩ => ?_, fun ⟨hgs, h⟩ => ⟨globs, hgs, ?_⟩⟩
  · cases gs with
    | nil =>
      obtain rfl := Except.ok.inj h
      exact ⟨hgs, fun hne => absurd rfl hne⟩
    | cons g gs =>
      cases hc : compiler (g :: gs) with
      | some reason => simp [hc] at h
      | none =>
        simp only [hc, List.isEmpty_cons, Bool.false_eq_true, if_false] at h
        obtain rfl := Except.ok.inj h
        exact ⟨hgs, fun _ => hc⟩
  · cases globs with
    | nil => rfl
    | cons g gs => simp [h (List.cons_ne_nil g gs), pure, Except.pure]

theorem GlobCompiler.parse_eq_error_iff {compiler : GlobCompiler} {patterns : List String}
    {e : ConfigError} :
    compiler.parse patterns = .error e ↔
      patterns.mapM Glob.parse = .error e ∨ ∃ globs reason, patterns.mapM Glob.parse = .ok globs ∧
        globs ≠ [] ∧ compiler globs = some reason ∧ e = .badPatternSet reason := by
  simp only [parse, bind_eq_error_iff]
  refine or_congr_right (exists_congr fun globs => ?_)
  cases globs with
  | nil => simp [pure, Except.pure]
  | cons g gs =>
    cases hc : compiler (g :: gs) <;> simp [pure, Except.pure, eq_comm]

namespace PathFilter

/-! ## Repeats -/

theorem exists_dropRepeats_cons (p : Path) (rest : List Path) :
    ∃ others, dropRepeats (p :: rest) = p :: others := by
  cases rest with
  | nil => exact ⟨[], rfl⟩
  | cons q rest =>
    rw [dropRepeats]
    repeat' split
    all_goals exact ⟨_, rfl⟩

/-- A path in front is kept, and takes the place of the next one if that means the same. -/
theorem dropRepeats_cons_cons {q : Path} {rest others : List Path}
    (h : dropRepeats (q :: rest) = q :: others) (p : Path) :
    dropRepeats (p :: q :: rest) =
      if p.isSame q then p :: others else p :: q :: others := by
  rw [dropRepeats, h]

theorem dropRepeats_sublist (paths : List Path) : (dropRepeats paths).Sublist paths := by
  induction paths with
  | nil => exact List.Sublist.refl _
  | cons p rest ih =>
    cases rest with
    | nil => exact List.Sublist.refl _
    | cons q rest =>
      obtain ⟨others, hd⟩ := exists_dropRepeats_cons q rest
      rw [hd] at ih
      rw [dropRepeats_cons_cons hd]
      split
      · exact ((List.sublist_cons_self q others).trans ih).cons_cons p
      · exact ih.cons_cons p

theorem exists_isSame_dropRepeats {paths : List Path} {x : Path} (hx : x ∈ paths) :
    ∃ y ∈ dropRepeats paths, y.isSame x = true := by
  induction paths with
  | nil => cases hx
  | cons p rest ih =>
    cases rest with
    | nil =>
      obtain rfl := List.mem_singleton.1 hx
      exact ⟨x, List.mem_singleton_self x, Path.isSame_iff.2 rfl⟩
    | cons q rest =>
      obtain ⟨others, hd⟩ := exists_dropRepeats_cons q rest
      rw [dropRepeats_cons_cons hd]
      rw [hd] at ih
      rcases List.mem_cons.1 hx with rfl | hx
      · exact ⟨x, by split <;> simp, Path.isSame_iff.2 rfl⟩
      · obtain ⟨y, hy, hsame⟩ := ih hx
        split
        next hpq =>
          rcases List.mem_cons.1 hy with rfl | hy
          · rw [Path.isSame_iff] at hsame hpq
            exact ⟨p, List.mem_cons_self, Path.isSame_iff.2 (hpq.trans hsame)⟩
          · exact ⟨y, List.mem_cons_of_mem _ hy, hsame⟩
        next => exact ⟨y, List.mem_cons_of_mem _ hy, hsame⟩

/-- In a sorted list the paths that mean the same stand together, so one of them is left. -/
theorem dropRepeats_pairwise {paths : List Path}
    (h : paths.Pairwise fun p q => p.isAtMost q = true) :
    (dropRepeats paths).Pairwise fun p q => p.isSame q = false := by
  induction paths with
  | nil => exact .nil
  | cons p rest ih =>
    cases rest with
    | nil => exact List.pairwise_singleton _ _
    | cons q rest =>
      obtain ⟨others, hd⟩ := exists_dropRepeats_cons q rest
      obtain ⟨hp, hrest⟩ := List.pairwise_cons.1 h
      have hothers := ih hrest
      have hsub := dropRepeats_sublist (q :: rest)
      rw [hd] at hothers hsub
      obtain ⟨hq, htail⟩ := List.pairwise_cons.1 hothers
      rw [dropRepeats_cons_cons hd]
      split
      next hpq =>
        refine List.pairwise_cons.2 ⟨fun x hx => ?_, htail⟩
        rw [Path.isSame, beq_iff_eq] at hpq
        have := hq x hx
        rwa [Path.isSame, ← hpq] at this
      next hpq =>
        refine List.pairwise_cons.2 ⟨fun x hx => ?_, hothers⟩
        rcases List.mem_cons.1 hx with rfl | hx
        · simpa using hpq
        · -- `x` comes after `q`, so it cannot mean the same as `p` unless `q` does.
          have hqx : q.isAtMost x = true :=
            (List.pairwise_cons.1 (hrest.sublist hsub)).1 x hx
          refine Bool.eq_false_iff.2 fun hpx => hpq ?_
          exact Path.isSame_of_between (hp q List.mem_cons_self) hqx hpx

theorem mergeSort_pairwise (paths : List Path) :
    (paths.mergeSort Path.isAtMost).Pairwise fun p q => p.isAtMost q = true := by
  refine List.pairwise_mergeSort (fun p q r hpq hqr => ?_) (fun p q => ?_) paths
  · exact isAtMostInOrder_trans hpq hqr
  · rw [Bool.or_eq_true]
    exact isAtMostInOrder_total p.key q.key

theorem inOrder_pairwise (paths : List Path) :
    (inOrder paths).Pairwise fun p q => p.isSame q = false :=
  dropRepeats_pairwise (mergeSort_pairwise paths)

theorem mem_of_mem_inOrder {paths : List Path} {p : Path} (h : p ∈ inOrder paths) : p ∈ paths :=
  List.mem_mergeSort.1 ((dropRepeats_sublist _).subset h)

theorem exists_isSame_inOrder {paths : List Path} {p : Path} (h : p ∈ paths) :
    ∃ q ∈ inOrder paths, q.isSame p = true :=
  exists_isSame_dropRepeats (List.mem_mergeSort.2 h)

/-! ## What is found -/

/-- A path that arguments stand for and the filter keeps: an argument that is a file, or a path of
the walk that another argument matches. -/
def Picks (f : PathFilter) (isFile : Path → Bool) (walked : List Path) (arguments : List String)
    (p : Path) : Prop :=
  f.rejects p = false ∧
    ((∃ a ∈ arguments, p = .ofString a ∧ isFile p = true) ∨
      (p ∈ walked ∧ ∃ a ∈ arguments, isFile (.ofString a) = false ∧
        ∃ g, Glob.parse a = .ok g ∧ g.isMatch p = true))

def Chosen (f : PathFilter) (files : FileTree) (arguments : List String) (base p : Path) : Prop :=
  f.Picks files.isFile (files.walk base) arguments p

variable {f : PathFilter} {compiler : GlobCompiler} {isFile : Path → Bool} {walked : List Path}
  {files : FileTree} {arguments : List String} {base : Path} {paths : List Path}

/-- The paths found before they are sorted, in whatever order a walk comes by the files. -/
theorem exists_picked (h : f.select compiler isFile walked arguments = .ok paths) :
    ∃ picked, paths = inOrder picked ∧ ∀ p, p ∈ picked ↔ f.Picks isFile walked arguments p := by
  simp only [select, bind_eq_ok_iff, pure, Except.pure, Except.ok.injEq,
    List.partition_eq_filter_filter] at h
  obtain ⟨globs, hparse, rfl⟩ := h
  have hglobs := (GlobCompiler.parse_eq_ok_iff.1 hparse).1
  refine ⟨_, rfl, fun p => ?_⟩
  simp only [List.mem_filter, List.mem_append, List.mem_map, List.any_eq_true, mem_mapM hglobs,
    Picks, Function.comp_apply, Bool.not_eq_true']
  rw [and_comm]
  refine and_congr_right fun _ => or_congr ⟨?_, ?_⟩ (and_congr_right fun _ => ⟨?_, ?_⟩)
  · rintro ⟨a, ⟨ha, hfile⟩, rfl⟩
    exact ⟨a, ha, rfl, hfile⟩
  · rintro ⟨a, ha, rfl, hfile⟩
    exact ⟨a, ⟨ha, hfile⟩, rfl⟩
  · rintro ⟨g, ⟨a, ⟨ha, hfile⟩, hg⟩, hmatch⟩
    exact ⟨a, ha, hfile, g, hg, hmatch⟩
  · rintro ⟨a, ha, hfile, g, hg, hmatch⟩
    exact ⟨g, ⟨a, ⟨ha, hfile⟩, hg⟩, hmatch⟩

/-- No file is found twice exactly when none is chosen both with a dot in front of its path and
without one. -/
theorem discover_distinct_iff (h : f.discover compiler files arguments base = .ok paths) :
    (paths.Pairwise fun p q => ¬ p.SameFile q) ↔
      ∀ p q, f.Chosen files arguments base p → f.Chosen files arguments base q →
        p.SameFile q → p.isDotted = q.isDotted := by
  obtain ⟨picked, rfl, hpicked⟩ := exists_picked h
  simp only [Chosen, ← hpicked]
  constructor
  · intro hpair p q hp hq hsame
    obtain ⟨p', hp', hpp⟩ := exists_isSame_inOrder hp
    obtain ⟨q', hq', hqq⟩ := exists_isSame_inOrder hq
    obtain ⟨hpfile, hpdot⟩ := Path.components_eq_iff.1 (Path.isSame_iff.1 hpp)
    obtain ⟨hqfile, hqdot⟩ := Path.components_eq_iff.1 (Path.isSame_iff.1 hqq)
    have hfile : p'.SameFile q' := hpfile.trans (hsame.trans hqfile.symm)
    have heq : p' = q' := by
      by_contra hne
      exact hpair.forall hp' hq' hne hfile
    rw [← hpdot, ← hqdot, heq]
  · intro hdot
    refine (inOrder_pairwise picked).imp_of_mem fun {p q} hp hq hne hsame => ?_
    have heq := hdot p q (mem_of_mem_inOrder hp) (mem_of_mem_inOrder hq) hsame
    exact Bool.eq_false_iff.1 hne (Path.isSame_iff.2 (Path.components_eq_iff.2 ⟨hsame, heq⟩))

def nestedTree : FileTree := .ofFiles [("a.md", []), ("d/b.md", [])]

theorem discover_distinct_respelled :
    discover ⟨[], []⟩ .default nestedTree ["d//b.md", "a.md", "d/./b.md", "a.md"] ⟨Path.dot⟩ =
      .ok [.ofString "a.md", .ofString "d//b.md"] ∧
    ∀ p q, Chosen ⟨[], []⟩ nestedTree ["d//b.md", "a.md", "d/./b.md", "a.md"] ⟨Path.dot⟩ p →
      Chosen ⟨[], []⟩ nestedTree ["d//b.md", "a.md", "d/./b.md", "a.md"] ⟨Path.dot⟩ q →
      p.SameFile q → p.isDotted = q.isDotted := by
  have h : discover ⟨[], []⟩ .default nestedTree ["d//b.md", "a.md", "d/./b.md", "a.md"]
      ⟨Path.dot⟩ = .ok [.ofString "a.md", .ofString "d//b.md"] := by cbv
  exact ⟨h, (discover_distinct_iff h).1 (by decide)⟩

/-- A file that is an argument and that a pattern matches as well is found twice. -/
theorem discover_repeats_dotted :
    discover ⟨[], []⟩ .default (.ofFiles [("a.md", [])]) ["a.md", "**/*.md"] ⟨Path.dot⟩ =
      .ok [.ofString "./a.md", .ofString "a.md"] ∧
    ¬ [Path.ofString "./a.md", .ofString "a.md"].Pairwise fun p q => ¬ p.SameFile q :=
  ⟨by cbv, by decide⟩

end PathFilter
end Inlay
