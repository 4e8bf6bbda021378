import Inlay.Cli.Run
import Inlay.Proofs.Overlap
import Inlay.Proofs.Pipeline

/-! What a run that fixes leaves behind. Writing a file keeps the shape of its tree and all other
files, so files that are fixed in turn do not see each other, as long as no two paths lead to one
file. From that, what is reported for each path, what its file holds in the end and the exit code
are functions of the tree the run started from. -/

namespace Inlay

/-! ## Writing -/

namespace FileTree

def target? (t : FileTree) (p : Path) : Option Names :=
  match t.find p with
  | .ok (names, .file _) => some names
  | _ => none

def isReadOnly (t : FileTree) (p : Path) : Bool := (t.target? p).any t.readOnly.contains

/-- No two of the paths lead to one file. -/
def Apart (t : FileTree) (paths : List Path) : Prop := (paths.filterMap t.target?).Nodup

instance (t : FileTree) (paths : List Path) : Decidable (t.Apart paths) :=
  inferInstanceAs (Decidable (paths.filterMap t.target?).Nodup)

variable {t u : FileTree} {p : Path} {names : Names} {content : Text}

theorem Apart.tail {paths : List Path} (h : t.Apart (p :: paths)) : t.Apart paths :=
  List.Nodup.sublist ((List.sublist_cons_self p paths).filterMap _) h

theorem Apart.target?_ne {paths : List Path} (h : t.Apart (p :: paths))
    (hp : t.target? p = some names) : ∀ q ∈ paths, t.target? q ≠ some names := by
  intro q hq hnames
  rw [Apart, List.filterMap_cons_some hp, List.nodup_cons] at h
  exact h.1 (List.mem_filterMap.2 ⟨q, hq, hnames⟩)

theorem entry?_eq_file_iff :
    t.entry? names = some (.file content) ↔ t.content? names = some content := by
  unfold entry?
  cases t.content? names with
  | none => simp only [ite_eq_iff]; simp
  | some c => simp

theorem entry?_of_find {e : FileEntry} (h : t.find p = .ok (names, e)) :
    t.entry? names = some e := by
  unfold find at h
  repeat' split at h
  all_goals simp_all

theorem find_eq_file_iff : t.find p = .ok (names, .file content) ↔
    t.target? p = some names ∧ t.content? names = some content := by
  constructor
  · intro h
    exact ⟨by simp [target?, h], entry?_eq_file_iff.1 (entry?_of_find h)⟩
  · rintro ⟨ht, hc⟩
    unfold target? at ht
    split at ht
    next n c hf =>
      obtain rfl := Option.some.inj ht
      have hn : t.content? n = some c := entry?_eq_file_iff.1 (entry?_of_find hf)
      rw [hf, Option.some.inj (hn.symm.trans hc)]
    next => cases ht

theorem read_eq_ok_iff : t.read p = .ok content ↔
    ∃ names, t.target? p = some names ∧ t.content? names = some content := by
  simp only [← find_eq_file_iff]
  unfold read
  split <;> simp_all

theorem readText_eq_ok_iff : t.readText p = .ok content ↔
    t.read p = .ok content ∧ content.isUtf8 = true := by
  unfold readText
  cases t.read p with
  | error e => simp
  | ok c =>
    rw [Except.ok.injEq]
    dsimp only
    split
    next hc => simp +contextual [← hc]
    next hc =>
      simp only [reduceCtorEq, false_iff, not_and]
      rintro rfl
      exact hc

/-- The same files, directories and permissions, whatever the files hold. -/
structure SameShape (t u : FileTree) : Prop where
  names : u.files.map (·.1) = t.files.map (·.1)
  directories : u.directories = t.directories
  current : u.current = t.current
  readOnly : u.readOnly = t.readOnly

namespace SameShape

theorem refl (t : FileTree) : SameShape t t := ⟨rfl, rfl, rfl, rfl⟩

theorem trans {v : FileTree} (h : SameShape t u) (h' : SameShape u v) : SameShape t v :=
  ⟨h'.names.trans h.names, h'.directories.trans h.directories, h'.current.trans h.current,
    h'.readOnly.trans h.readOnly⟩

theorem isSome_content? (h : SameShape t u) (names : Names) :
    (u.content? names).isSome = (t.content? names).isSome := by
  have hmem : ∀ v : FileTree, (v.content? names).isSome = (v.files.map (·.1)).contains names := by
    intro v
    unfold content?
    induction v.files with
    | nil => rfl
    | cons f files ih =>
      rw [List.lookup_cons, List.map_cons, List.contains_cons, ← ih]
      cases names == f.1 <;> rfl
  rw [hmem, hmem, h.names]

theorem isDirectory_eq (h : SameShape t u) (names : Names) :
    u.isDirectory names = t.isDirectory names := by
  have hany : ∀ v : FileTree, (v.files.any fun f => names.isPrefixOf f.1 && names != f.1) =
      (v.files.map (·.1)).any fun n => names.isPrefixOf n && names != n := by
    intro v
    rw [List.any_map]
    rfl
  unfold isDirectory
  rw [hany, hany, h.names, h.directories, h.current]

theorem entry?_eq_or (h : SameShape t u) (names : Names) :
    u.entry? names = t.entry? names ∨
      ∃ c d, u.entry? names = some (.file c) ∧ t.entry? names = some (.file d) := by
  have hsome := h.isSome_content? names
  unfold entry?
  rw [h.isDirectory_eq]
  cases hu : u.content? names with
  | none =>
    have ht : t.content? names = none := by simpa [hu] using hsome.symm
    exact .inl (by rw [ht])
  | some c =>
    obtain ⟨d, ht⟩ := Option.isSome_iff_exists.1 (by simpa [hu] using hsome.symm)
    exact .inr ⟨c, d, rfl, by rw [ht]⟩

theorem follow_eq (h : SameShape t u) (place : Names) (cs : List Component) :
    u.follow place cs = t.follow place cs := by
  induction cs generalizing place with
  | nil => rfl
  | cons c cs ih =>
    unfold follow
    obtain he | ⟨_, _, hu, ht⟩ := h.entry?_eq_or place
    · simp only [he, ih]
    · rw [hu, ht]

theorem target?_eq (h : SameShape t u) (p : Path) : u.target? p = t.target? p := by
  unfold target? find
  rw [h.current, h.follow_eq]
  cases t.follow t.current p.components with
  | error e => rfl
  | ok n =>
    obtain he | ⟨_, _, hu, ht⟩ := h.entry?_eq_or n
    · simp only [he]
    · simp only [hu, ht]
      by_cases hp : p.text = [] <;> cases asksForDirectory p <;> simp [hp]

theorem apart_iff (h : SameShape t u) (paths : List Path) : u.Apart paths ↔ t.Apart paths := by
  rw [Apart, Apart, funext h.target?_eq]

theorem isReadOnly_eq (h : SameShape t u) (p : Path) : u.isReadOnly p = t.isReadOnly p := by
  rw [isReadOnly, isReadOnly, h.target?_eq, h.readOnly]

end SameShape

theorem sameShape_setContent (t : FileTree) (names : Names) (content : Text) :
    SameShape t (t.setContent names content) := by
  refine ⟨?_, rfl, rfl, rfl⟩
  rw [setContent, List.map_map]
  refine List.map_congr_left fun f _ => ?_
  by_cases hf : f.1 = names <;> simp [hf]

theorem content?_setContent (t : FileTree) (names n : Names) (content : Text) :
    (t.setContent names content).content? n =
      if n = names then (t.content? n).map fun _ => content else t.content? n := by
  obtain ⟨files, directories, current, readOnly⟩ := t
  simp only [content?, setContent]
  induction files with
  | nil => simp
  | cons f files ih =>
    obtain ⟨m, c⟩ := f
    by_cases hm : m = names
    · subst hm
      by_cases hn : n = m
      · simp [hn]
      · have hne : (n == m) = false := by simpa using hn
        simpa [List.lookup_cons, hne, hn] using ih
    · by_cases hn : n = m
      · subst hn
        simp [hm]
      · have hne : (n == m) = false := by simpa using hn
        simpa [List.lookup_cons, hne, hm] using ih

theorem write_eq (h : t.target? p = some names) (content : Text) :
    t.write p content =
      if t.isReadOnly p then .error .permissionDenied else .ok (t.setContent names content) := by
  have hro : t.isReadOnly p = t.readOnly.contains names := by simp [isReadOnly, h]
  unfold target? at h
  split at h
  next n c hf =>
    obtain rfl := Option.some.inj h
    rw [write, hf, hro]
  next => cases h

/-- One file holds a new content, and nothing else is different. -/
structure Replaces (t : FileTree) (names : Names) (content : Text) (u : FileTree) : Prop where
  shape : SameShape t u
  holds : u.content? names = some content
  others : ∀ n, n ≠ names → u.content? n = t.content? n

namespace Replaces

theorem refl (h : t.content? names = some content) : Replaces t names content t :=
  ⟨.refl t, h, fun _ _ => rfl⟩

theorem setContent {old : Text} (h : t.content? names = some old) (content : Text) :
    Replaces t names content (t.setContent names content) := by
  refine ⟨sameShape_setContent t names content, ?_, fun n hn => ?_⟩
  · simp [content?_setContent, h]
  · simp [content?_setContent, hn]

theorem readText_eq {c : Text} (h : Replaces t names content u) (hp : t.target? p ≠ some names)
    (hread : t.readText p = .ok c) : u.readText p = .ok c := by
  obtain ⟨hr, hutf8⟩ := readText_eq_ok_iff.1 hread
  obtain ⟨n, hn, hc⟩ := read_eq_ok_iff.1 hr
  have hne : n ≠ names := fun he => hp (he ▸ hn)
  refine readText_eq_ok_iff.2 ⟨read_eq_ok_iff.2 ⟨n, ?_, ?_⟩, hutf8⟩
  · rw [h.shape.target?_eq, hn]
  · rw [h.others n hne, hc]

end Replaces
end FileTree

/-! ## Fixing in turn -/

namespace Fixing

/-- The messages whose index is not among those applied, in order. -/
def unfixed (applied : List Nat) (ms : List Message) : List Message :=
  ((List.range ms.length).filter (· ∉ applied)).filterMap (ms[·]?)

theorem zipIdx_filter_map (keep : Nat → Bool) (ms : List Message) (k : Nat) :
    ((ms.zipIdx k).filter fun x => keep x.2).map (·.1) =
      ((List.range ms.length).filter fun i => keep (k + i)).filterMap (ms[·]?) := by
  induction ms generalizing k with
  | nil => rfl
  | cons m ms ih =>
    have hrest := ih (k + 1)
    have hshift : (fun i => keep (k + 1 + i)) = fun i => keep (k + (i + 1)) := by
      funext i
      rw [Nat.add_right_comm, Nat.add_assoc]
    rw [hshift] at hrest
    rw [List.zipIdx_cons, List.length_cons, List.range_succ_eq_map, List.filter_cons,
      List.filter_cons, List.filter_map]
    cases keep k <;> simp [hrest, List.filterMap_map, Function.comp_def]

theorem remaining_eq_unfixed (r : FixResult) (ms : List Message) :
    r.remaining ms = unfixed r.applied ms := by
  have h := zipIdx_filter_map (fun i => !r.applied.contains i) ms 0
  simpa [FixResult.remaining, unfixed] using h

theorem unfixed_nil (ms : List Message) : unfixed [] ms = ms := by
  rw [← remaining_eq_unfixed ⟨[], []⟩]
  simp [FixResult.remaining]

theorem applied_nil_of_no_fix {ms : List Message} (h : ∀ m ∈ ms, m.fix = none) (content : Text) :
    (applyFixes content ms).applied = [] := by
  have hnone : candidates ms = [] := by
    refine List.eq_nil_iff_forall_not_mem.2 fun x hx => ?_
    obtain ⟨m, hm, hfix⟩ := mem_indexedFixes.1 (mem_indexedFixes_of_mem_candidates hx)
    rw [h m (List.mem_of_getElem? hm)] at hfix
    cases hfix
  simp [applyFixes, hnone]

end Fixing

namespace Cli

/-- Whether fixing leaves a file as it is: nothing was applied, or the file cannot be written. -/
def isUntouched (files : FileTree) (path : Path) (content : Text) (ms : List Message) : Bool :=
  (applyFixes content ms).applied = [] || files.isReadOnly path

/-- The messages about a file that are still to be reported once it has been fixed. -/
def leftOver (files : FileTree) (path : Path) (content : Text) (ms : List Message) :
    List Message :=
  if isUntouched files path content ms then ms
  else Fixing.unfixed (applyFixes content ms).applied ms

def fixedContent (files : FileTree) (path : Path) (content : Text) (ms : List Message) : Text :=
  if isUntouched files path content ms then content else (applyFixes content ms).content

theorem isUntouched_eq {t u : FileTree} (h : t.SameShape u) : isUntouched u = isUntouched t := by
  funext path content ms
  rw [isUntouched, isUntouched, h.isReadOnly_eq]

theorem leftOver_eq {t u : FileTree} (h : t.SameShape u) : leftOver u = leftOver t := by
  funext path content ms
  rw [leftOver, leftOver, isUntouched_eq h]

theorem fixedContent_eq {t u : FileTree} (h : t.SameShape u) :
    fixedContent u = fixedContent t := by
  funext path content ms
  rw [fixedContent, fixedContent, isUntouched_eq h]

theorem exists_fixReport {t : FileTree} {path : Path} {names : Names} {content : Text}
    (ht : t.target? path = some names) (hread : t.readText path = .ok content)
    (ms : List Message) :
    ∃ u, fixReport t ⟨path, ms⟩ = (⟨path, leftOver t path content ms⟩, u) ∧
      t.Replaces names (fixedContent t path content ms) u := by
  have hcontent : t.content? names = some content := by
    obtain ⟨n, hn, hc⟩ := FileTree.read_eq_ok_iff.1 (FileTree.readText_eq_ok_iff.1 hread).1
    rwa [Option.some.inj (ht.symm.trans hn)]
  unfold fixReport leftOver fixedContent isUntouched
  split
  next =>
    simp only [FileTree.fix, hread]
    by_cases hnil : (applyFixes content ms).applied = []
    · refine ⟨t, ?_, ?_⟩
      · simp [FixResult.isModified, hnil, Fixing.remaining_eq_unfixed, Fixing.unfixed_nil]
      · simpa [hnil] using FileTree.Replaces.refl hcontent
    · have hmod : (applyFixes content ms).isModified = true := by
        simpa [FixResult.isModified] using hnil
      simp only [hmod, if_true, FileTree.write_eq ht, hnil, decide_false, Bool.false_or]
      cases hro : t.isReadOnly path with
      | true => exact ⟨t, by simp, by simpa using FileTree.Replaces.refl hcontent⟩
      | false =>
        refine ⟨t.setContent names (applyFixes content ms).content, ?_, ?_⟩
        · simp [Fixing.remaining_eq_unfixed]
        · simpa using FileTree.Replaces.setContent hcontent _
  next hfix =>
    have hnone : ∀ m ∈ ms, m.fix = none := by simpa using hfix
    have hnil := Fixing.applied_nil_of_no_fix hnone content
    exact ⟨t, by simp [hnil], by simpa [hnil] using FileTree.Replaces.refl hcontent⟩

/-- What the files of some paths hold once all of them are fixed. `linted` gives the content and
the messages of a path whose file could be linted. -/
structure FixesAll (linted : Path → Option (Text × List Message)) (t : FileTree)
    (paths : List Path) (u : FileTree) : Prop where
  shape : t.SameShape u
  holds : ∀ path ∈ paths, ∀ content ms, linted path = some (content, ms) →
    u.read path = .ok (fixedContent t path content ms)
  others : ∀ names, (∀ path ∈ paths, (linted path).isSome → t.target? path ≠ some names) →
    u.content? names = t.content? names

/-- The reports of the paths that could be linted, with the messages that `select` keeps. -/
def reportsOf (linted : Path → Option (Text × List Message))
    (select : Path → Text → List Message → List Message) (paths : List Path) : List FileReport :=
  paths.filterMap fun path =>
    (linted path).map fun (content, ms) => ⟨path, select path content ms⟩

section

variable {linted : Path → Option (Text × List Message)} {t v u : FileTree} {path : Path}
  {paths : List Path} {names : Names} {content : Text} {ms : List Message}

theorem FixesAll.cons_of_none (hl : linted path = none) (h : FixesAll linted t paths u) :
    FixesAll linted t (path :: paths) u := by
  refine ⟨h.shape, fun q hq content ms hlinted => ?_, fun names hnames => ?_⟩
  · rcases List.mem_cons.1 hq with rfl | hq
    · rw [hl] at hlinted
      cases hlinted
    · exact h.holds q hq content ms hlinted
  · exact h.others names fun q hq => hnames q (List.mem_cons_of_mem _ hq)

theorem FixesAll.cons_of_some (hl : linted path = some (content, ms))
    (ht : t.target? path = some names) (helse : ∀ q ∈ paths, t.target? q ≠ some names)
    (hrep : t.Replaces names (fixedContent t path content ms) v)
    (h : FixesAll linted v paths u) : FixesAll linted t (path :: paths) u := by
  refine ⟨hrep.shape.trans h.shape, fun q hq c ns hlinted => ?_, fun n hn => ?_⟩
  · rcases List.mem_cons.1 hq with rfl | hq
    · obtain ⟨rfl, rfl⟩ : content = c ∧ ms = ns := by simpa [hl] using hlinted
      refine FileTree.read_eq_ok_iff.2 ⟨names, ?_, ?_⟩
      · rw [h.shape.target?_eq, hrep.shape.target?_eq, ht]
      · rw [h.others names fun q hq _ => by simpa only [hrep.shape.target?_eq] using helse q hq]
        exact hrep.holds
    · rw [h.holds q hq c ns hlinted, fixedContent_eq hrep.shape]
  · have hnames : n ≠ names := fun he =>
      hn path List.mem_cons_self (by simp [hl]) (he ▸ ht)
    rw [h.others n fun q hq hsome => by
      simpa only [hrep.shape.target?_eq] using hn q (List.mem_cons_of_mem _ hq) hsome]
    exact hrep.others n hnames

theorem exists_fixAll (hapart : t.Apart paths)
    (hread : ∀ path ∈ paths, ∀ content ms, linted path = some (content, ms) →
      t.readText path = .ok content) :
    ∃ u, fixAll t (reportsOf linted (fun _ _ ms => ms) paths) =
        (reportsOf linted (leftOver t) paths, u) ∧
      FixesAll linted t paths u := by
  induction paths generalizing t with
  | nil => exact ⟨t, rfl, .refl t, by simp, fun _ _ => rfl⟩
  | cons path paths ih =>
    cases hl : linted path with
    | none =>
      obtain ⟨u, hu, hs⟩ := ih hapart.tail fun q hq => hread q (List.mem_cons_of_mem _ hq)
      exact ⟨u, by simpa [reportsOf, hl] using hu, hs.cons_of_none hl⟩
    | some cm =>
      obtain ⟨content, ms⟩ := cm
      have hr := hread path List.mem_cons_self content ms hl
      obtain ⟨names, ht, -⟩ := FileTree.read_eq_ok_iff.1 (FileTree.readText_eq_ok_iff.1 hr).1
      obtain ⟨v, hv, hrep⟩ := exists_fixReport ht hr ms
      -- The paths that are left lead elsewhere, so the tree they find differs from `t` in no way
      -- that matters to them.
      have helse : ∀ q ∈ paths, t.target? q ≠ some names := hapart.target?_ne ht
      obtain ⟨u, hu, hs⟩ := ih ((hrep.shape.apart_iff paths).2 hapart.tail)
        (fun q hq c ns hq' => hrep.readText_eq (helse q hq)
          (hread q (List.mem_cons_of_mem _ hq) c ns hq'))
      rw [leftOver_eq hrep.shape] at hu
      refine ⟨u, ?_, .cons_of_some hl ht helse hrep hs⟩
      simp only [reportsOf, List.filterMap_cons, hl, Option.map_some, fixAll] at hu ⊢
      rw [hv, hu]

end

/-! ## Linting -/

variable {p : Processor} {linter : Linter} {files : FileTree} {path : Path} {paths : List Path}

def linted? (p : Processor) (linter : Linter) (files : FileTree) (path : Path) :
    Option (Text × List Message) :=
  match files.readText path with
  | .error _ => none
  | .ok content =>
    match p.lint linter content with
    | .error _ => none
    | .ok ms => some (content, ms)

def complaint? (p : Processor) (linter : Linter) (files : FileTree) (path : Path) :
    Option String :=
  match files.readText path with
  | .error _ => some ("Failed to read " ++ path.toString)
  | .ok content =>
    match p.lint linter content with
    | .error cause => some cause.message
    | .ok _ => none

def Overflows (p : Processor) (linter : Linter) (files : FileTree) (path : Path) : Prop :=
  ∃ content cause, files.readText path = .ok content ∧
    p.lint linter content = .error (.overflow cause)

def failuresOf (p : Processor) (linter : Linter) (files : FileTree) (paths : List Path) :
    List (Path × String) :=
  paths.filterMap fun path => (complaint? p linter files path).map (path, ·)

theorem lintFile_cases (p : Processor) (linter : Linter) (files : FileTree) (path : Path) :
    (∃ content ms, linted? p linter files path = some (content, ms) ∧
      complaint? p linter files path = none ∧ ¬ Overflows p linter files path ∧
      lintFile p linter files path = .ok (.ok ms)) ∨
    (∃ message, linted? p linter files path = none ∧
      complaint? p linter files path = some message ∧ ¬ Overflows p linter files path ∧
      lintFile p linter files path = .ok (.error message)) ∨
    (Overflows p linter files path ∧ ∃ cause, lintFile p linter files path = .error cause) := by
  unfold linted? complaint? Overflows lintFile
  cases files.readText path with
  | error e => exact .inr (.inl ⟨_, rfl, rfl, by simp, rfl⟩)
  | ok content =>
    dsimp only
    cases hl : p.lint linter content with
    | ok ms => exact .inl ⟨content, ms, rfl, rfl, by simp [hl], rfl⟩
    | error cause =>
      cases cause with
      | overflow c => exact .inr (.inr ⟨⟨content, c, rfl, hl⟩, _, rfl⟩)
      | _ => exact .inr (.inl ⟨_, rfl, rfl, by simp [hl], rfl⟩)

theorem not_overflows (h : (lintFile p linter files path).toOption.isSome = true) :
    ¬ Overflows p linter files path := by
  obtain ⟨_, _, -, -, ho, -⟩ | ⟨_, -, -, ho, -⟩ | ⟨-, cause, hf⟩ :=
    lintFile_cases p linter files path
  · exact ho
  · exact ho
  · simp [hf, Except.toOption] at h

theorem lintAll_eq_ok_iff {linted : Linted} :
    lintAll p linter files paths = .ok linted ↔
      (∀ path ∈ paths, ¬ Overflows p linter files path) ∧
      linted = ⟨reportsOf (linted? p linter files) (fun _ _ ms => ms) paths,
        failuresOf p linter files paths⟩ := by
  induction paths generalizing linted with
  | nil => simp [lintAll, reportsOf, failuresOf, eq_comm]
  | cons path paths ih =>
    simp only [lintAll, bind_eq_ok_iff, ih, List.forall_mem_cons]
    obtain ⟨content, ms, hl, hc, ho, hf⟩ | ⟨message, hl, hc, ho, hf⟩ | ⟨ho, cause, hf⟩ :=
      lintFile_cases p linter files path
    · simp [hf, ho, hl, hc, reportsOf, failuresOf, pure, Except.pure, eq_comm]
    · simp [hf, ho, hl, hc, reportsOf, failuresOf, pure, Except.pure, eq_comm]
    · simp [hf, ho]

/-! ## Runs -/

/-- Some file could not be linted, or some message that fixing leaves is an error. -/
def Complains (p : Processor) (linter : Linter) (files : FileTree) (paths : List Path) : Prop :=
  ∃ path ∈ paths, linted? p linter files path = none ∨
    ∃ content ms, linted? p linter files path = some (content, ms) ∧
      ∃ m ∈ leftOver files path content ms, m.severity = .error

/-- What a run with fixing comes to on some paths, as a function of the files it started from. -/
structure FixRun (p : Processor) (linter : Linter) (files : FileTree) (paths : List Path)
    (format : OutputFormat) (r : Result) : Prop where
  printed : r.stdout =
    printReports format (reportsOf (linted? p linter files) (leftOver files) paths)
  failed : r.failures = failuresOf p linter files paths
  fixed : FixesAll (linted? p linter files) files paths r.files
  code : (r.code = 1 ∧ Complains p linter files paths) ∨
    (r.code = 0 ∧ ¬ Complains p linter files paths)

theorem mem_reportsOf {linted : Path → Option (Text × List Message)}
    {select : Path → Text → List Message → List Message} {r : FileReport} :
    r ∈ reportsOf linted select paths ↔
      ∃ path ∈ paths, ∃ content ms, linted path = some (content, ms) ∧
        r = ⟨path, select path content ms⟩ := by
  simp [reportsOf, eq_comm]

theorem any_hasErrors_iff {linted : Path → Option (Text × List Message)}
    {select : Path → Text → List Message → List Message} :
    (reportsOf linted select paths).any FileReport.hasErrors = true ↔
      ∃ path ∈ paths, ∃ content ms, linted path = some (content, ms) ∧
        ∃ m ∈ select path content ms, m.severity = .error := by
  simp only [List.any_eq_true, mem_reportsOf]
  constructor
  · rintro ⟨_, ⟨path, hpath, content, ms, hl, rfl⟩, herr⟩
    refine ⟨path, hpath, content, ms, hl, ?_⟩
    simpa [FileReport.hasErrors, Message.isError] using herr
  · rintro ⟨path, hpath, content, ms, hl, herr⟩
    exact ⟨_, ⟨path, hpath, content, ms, hl, rfl⟩,
      by simpa [FileReport.hasErrors, Message.isError] using herr⟩

theorem readText_of_linted? {content : Text} {ms : List Message}
    (h : linted? p linter files path = some (content, ms)) : files.readText path = .ok content := by
  unfold linted? at h
  repeat' split at h
  all_goals simp_all

theorem complaint?_eq_none_iff :
    complaint? p linter files path = none ↔ linted? p linter files path ≠ none := by
  unfold complaint? linted?
  repeat' split
  all_goals simp

theorem failuresOf_eq_nil_iff :
    failuresOf p linter files paths = [] ↔ ∀ path ∈ paths, linted? p linter files path ≠ none := by
  simp only [failuresOf, List.filterMap_eq_nil_iff, Option.map_eq_none_iff, complaint?_eq_none_iff]

/-- The exit code, from the failures and from what is left to report. -/
theorem code_complains (code : Nat)
    (hcode : code = if (failuresOf p linter files paths).isEmpty then
      codeOf (reportsOf (linted? p linter files) (leftOver files) paths) else 1) :
    (code = 1 ∧ Complains p linter files paths) ∨
      (code = 0 ∧ ¬ Complains p linter files paths) := by
  have hsplit : Complains p linter files paths ↔
      ¬ failuresOf p linter files paths = [] ∨
        (reportsOf (linted? p linter files) (leftOver files) paths).any
          FileReport.hasErrors = true := by
    rw [failuresOf_eq_nil_iff, any_hasErrors_iff, Complains]
    push Not
    simp only [and_or_left, exists_or]
  rw [hsplit, hcode, codeOf]
  by_cases hf : failuresOf p linter files paths = []
  · cases List.any _ FileReport.hasErrors <;> simp [hf]
  · simp [hf]

/-- A run with fixing lints all files, then fixes them. -/
theorem lint_fix_eq {w : World} {config : Config} {patterns : List String} {filter : PathFilter}
    (hfilter : PathFilter.ofPatterns w.compiler config.included config.excluded = .ok filter)
    (hpaths : filter.discover w.compiler w.files patterns ⟨Path.dot⟩ = .ok paths)
    (format : OutputFormat) :
    lint w config patterns format true =
      (lintAll (.ofConfig config w.runner) (config.linterCommand.lint w.runner) w.files paths).map
        fun linted =>
          let (reports, files) := fixAll w.files linted.reports
          ⟨if linted.failures.isEmpty then codeOf reports else 1, printReports format reports,
            linted.failures, files⟩ := by
  unfold lint
  rw [hfilter]
  dsimp only [Failure.lift, bind, Except.bind]
  rw [hpaths]
  dsimp only
  cases lintAll (.ofConfig config w.runner) (config.linterCommand.lint w.runner) w.files paths with
  | error e => rfl
  | ok linted => rfl

/-- A run with fixing comes to what it should exactly when arithmetic stays in range for every
file it finds. -/
theorem lint_fixes_iff (w : World) (config : Config) (patterns : List String)
    (format : OutputFormat) {filter : PathFilter} {paths : List Path}
    (hfilter : PathFilter.ofPatterns w.compiler config.included config.excluded = .ok filter)
    (hpaths : filter.discover w.compiler w.files patterns ⟨Path.dot⟩ = .ok paths)
    (hapart : w.files.Apart paths) :
    (∃ r, lint w config patterns format true = .ok r ∧
      FixRun (.ofConfig config w.runner) (config.linterCommand.lint w.runner) w.files paths
        format r) ↔
    ∀ path ∈ paths, ¬ Overflows (.ofConfig config w.runner) (config.linterCommand.lint w.runner)
      w.files path := by
  simp only [lint_fix_eq hfilter hpaths, map_eq_ok_iff, lintAll_eq_ok_iff]
  constructor
  · rintro ⟨r, ⟨_, ⟨ho, -⟩, -⟩, -⟩
    exact ho
  · intro ho
    obtain ⟨u, hu, hs⟩ := exists_fixAll hapart fun path _ content ms hl =>
      readText_of_linted? hl
    refine ⟨_, ⟨_, ⟨ho, rfl⟩, rfl⟩, ?_⟩
    rw [hu]
    exact ⟨rfl, rfl, hs, code_complains _ rfl⟩

def oneLine : Text := Text.ofString "```js\na\n```\n"

def printing (stdout : String) : Runner := fun _ _ _ => .ok ⟨.code 0, Text.ofString stdout, []⟩

def mixedWorld : World :=
  ⟨.ofFiles [("a.md", oneLine), ("b.md", [255]), ("c.md", oneLine)] ["c.md"],
    printing ("[\x7b\"message\":\"m\",\"line\":1,\"fix\":\x7b\"range\":[0,1],\"text\":\"b\"\x7d\x7d,"
      ++ "\x7b\"message\":\"n\",\"line\":1\x7d]"), .default, []⟩

theorem lint_fixes_mixed :
    ∃ r, lint mixedWorld .default ["a.md", "b.md", "c.md"] .text true = .ok r ∧
      FixRun (.ofConfig .default mixedWorld.runner)
        (Config.default.linterCommand.lint mixedWorld.runner) mixedWorld.files
        [.ofString "a.md", .ofString "b.md", .ofString "c.md"] .text r := by
  have hpaths : PathFilter.discover ⟨[], []⟩ mixedWorld.compiler mixedWorld.files
      ["a.md", "b.md", "c.md"] ⟨Path.dot⟩ =
      .ok [.ofString "a.md", .ofString "b.md", .ofString "c.md"] := by cbv
  refine (lint_fixes_iff mixedWorld .default _ .text rfl hpaths (by decide +kernel)).2 ?_
  have hok : ∀ path ∈ [Path.ofString "a.md", .ofString "b.md", .ofString "c.md"],
      (lintFile (.ofConfig .default mixedWorld.runner)
        (Config.default.linterCommand.lint mixedWorld.runner) mixedWorld.files
        path).toOption.isSome = true := by
    decide +kernel
  exact fun path hpath => not_overflows (hok path hpath)

/-- The linter names a line that no word can hold once it is moved into the document. -/
def hugeLineWorld : World :=
  ⟨.ofFiles [("a.md", oneLine), ("b.md", [255])],
    printing "[\x7b\"message\":\"m\",\"line\":4294967295\x7d]", .default, []⟩

theorem exists_error_of_code {α : Type} {r : Except Failure α} {code : Nat} (hne : code ≠ 0)
    (h : (match r with
      | .error cause => failureCode cause
      | .ok _ => 0) = code) :
    ∃ cause, r = .error cause ∧ failureCode cause = code := by
  cases r with
  | error cause => exact ⟨cause, rfl, h⟩
  | ok _ => exact absurd h.symm hne

/-- One message that overflows takes the whole run with it: nothing is reported, also not that
another file cannot be read, and the exit code is neither zero nor one. -/
theorem fix_run_lost_to_overflow :
    PathFilter.discover ⟨[], []⟩ hugeLineWorld.compiler hugeLineWorld.files ["a.md", "b.md"]
      ⟨Path.dot⟩ = .ok [.ofString "a.md", .ofString "b.md"] ∧
    hugeLineWorld.files.Apart [.ofString "a.md", .ofString "b.md"] ∧
    ∃ cause, lint hugeLineWorld .default ["a.md", "b.md"] .text true = .error cause ∧
      failureCode cause = 101 := by
  have hpaths : PathFilter.discover ⟨[], []⟩ hugeLineWorld.compiler hugeLineWorld.files
      ["a.md", "b.md"] ⟨Path.dot⟩ = .ok [.ofString "a.md", .ofString "b.md"] := by cbv
  obtain ⟨cause, hlint, hcode⟩ : ∃ cause, lintAll (.ofConfig .default hugeLineWorld.runner)
      (Config.default.linterCommand.lint hugeLineWorld.runner) hugeLineWorld.files
      [.ofString "a.md", .ofString "b.md"] = .error cause ∧ failureCode cause = 101 :=
    exists_error_of_code (by decide) (by decide +kernel)
  refine ⟨hpaths, by decide +kernel, cause, ?_, hcode⟩
  rw [lint_fix_eq rfl hpaths, hlint]
  rfl

end Cli
end Inlay
