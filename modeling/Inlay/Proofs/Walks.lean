import Inlay.Proofs.Discovery
import Inlay.Proofs.Residues

/-! One file in two spellings. A walk of the current directory comes by each file under its names
with a dot in front, and an argument may give the names alone. Patterns are matched against the path
as it is spelled. So a filter treats both alike exactly when the patterns and what they leave behind
the dot do, and it always does when each pattern floats. -/

namespace Inlay

/-! ## Paths from names -/

namespace Path

/-- What a file or directory can be called. -/
structure IsName (n : Text) : Prop where
  ne_nil : n ≠ []
  noSlash : slash ∉ n
  ne_dot : n ≠ dot
  ne_dotDot : n ≠ dotDot

def ofNames (names : Names) : Path := ⟨List.intercalate [slash] names⟩

def current : Path := ⟨dot⟩

/-- What stands in front of each path that a walk of the current directory comes by. -/
def dotSlash : Text := dot ++ [slash]

theorem split_append_slash {n : Text} (h : slash ∉ n) (t : Text) :
    Text.split slash (n ++ slash :: t) = n :: Text.split slash t := by
  induction n with
  | nil =>
    obtain ⟨first, rest, hsplit⟩ := List.exists_cons_of_ne_nil (split_ne_nil slash t)
    rw [List.nil_append, Text.split, List.foldr_cons, ← Text.split, hsplit, Text.splitStep,
      if_pos rfl]
  | cons b n ih =>
    have hb : b ≠ slash := fun h' => h (h' ▸ List.mem_cons_self)
    have hrest := ih (List.not_mem_of_not_mem_cons h)
    rw [List.cons_append, Text.split, List.foldr_cons, ← Text.split, hrest, Text.splitStep,
      if_neg hb]

theorem split_of_notMem {n : Text} (h : slash ∉ n) : Text.split slash n = [n] := by
  induction n with
  | nil => rfl
  | cons b n ih =>
    have hb : b ≠ slash := fun h' => h (h' ▸ List.mem_cons_self)
    rw [Text.split, List.foldr_cons, ← Text.split, ih (List.not_mem_of_not_mem_cons h),
      Text.splitStep, if_neg hb]

variable {names : Names}

theorem pieces_ofNames (hne : names ≠ []) (hnames : ∀ n ∈ names, IsName n) :
    (ofNames names).pieces = names := by
  induction names with
  | nil => exact absurd rfl hne
  | cons n names ih =>
    have hn := (hnames n List.mem_cons_self).noSlash
    cases names with
    | nil =>
      rw [pieces, ofNames, List.intercalate_singleton]
      exact split_of_notMem hn
    | cons m names =>
      have hrest := ih (List.cons_ne_nil m names) fun k hk => hnames k (List.mem_cons_of_mem n hk)
      have hjoin :
          (ofNames (n :: m :: names)).text = n ++ slash :: (ofNames (m :: names)).text := by
        simp [ofNames]
      rw [pieces, hjoin, split_append_slash hn, ← pieces, hrest]

theorem isAbsolute_ofNames (hnames : ∀ n ∈ names, IsName n) :
    (ofNames names).isAbsolute = false := by
  cases names with
  | nil => rfl
  | cons n names =>
    obtain ⟨b, n', rfl⟩ := List.exists_cons_of_ne_nil (hnames n List.mem_cons_self).ne_nil
    have hb : b ≠ slash := fun h =>
      (hnames _ List.mem_cons_self).noSlash (h ▸ List.mem_cons_self)
    cases names <;> simp [isAbsolute, ofNames, hb]

theorem join_current (hnames : ∀ n ∈ names, IsName n) :
    current.join (ofNames names) = ⟨dotSlash ++ (ofNames names).text⟩ := by
  rw [join, isAbsolute_ofNames hnames]
  rfl

theorem pieces_join_current (hne : names ≠ []) (hnames : ∀ n ∈ names, IsName n) :
    (current.join (ofNames names)).pieces = dot :: names := by
  rw [join_current hnames, pieces, dotSlash, List.append_assoc, List.singleton_append,
    split_append_slash (by decide), ← pieces, pieces_ofNames hne hnames]

theorem filterMap_componentOf?_names (hnames : ∀ n ∈ names, IsName n) :
    names.filterMap componentOf? = names.map Component.name := by
  rw [← List.filterMap_eq_map]
  refine List.filterMap_congr fun n hn => ?_
  obtain ⟨hnil, -, hdot, hdotDot⟩ := hnames n hn
  simp [componentOf?, hnil, hdot, hdotDot]

theorem components_ofNames (hne : names ≠ []) (hnames : ∀ n ∈ names, IsName n) :
    (ofNames names).components = names.map Component.name := by
  rw [components, isAbsolute_ofNames hnames, pieces_ofNames hne hnames,
    filterMap_componentOf?_names hnames]
  have hhead : names.head? ≠ some dot := fun h =>
    (hnames dot (List.mem_of_mem_head? h)).ne_dot rfl
  simp [hhead]

theorem components_join_current (hne : names ≠ []) (hnames : ∀ n ∈ names, IsName n) :
    (current.join (ofNames names)).components = .here :: names.map Component.name := by
  have hrelative : (current.join (ofNames names)).isAbsolute = false := by
    rw [join_current hnames]
    rfl
  rw [components, hrelative, pieces_join_current hne hnames]
  simp [componentOf?, filterMap_componentOf?_names hnames]

/-- Names taken one after the other from a directory are the path from them all. -/
theorem foldl_join {base : Text} (hbase : base ≠ []) (hlast : base.getLast? ≠ some slash)
    (hnames : ∀ n ∈ names, IsName n) :
    names.foldl (fun (p : Path) name => p.join ⟨name⟩) ⟨base⟩ =
      ⟨base ++ names.flatMap (slash :: ·)⟩ := by
  induction names generalizing base with
  | nil => simp
  | cons n names ih =>
    obtain ⟨hne, hslash, -, -⟩ := hnames n List.mem_cons_self
    have hrelative : (⟨n⟩ : Path).isAbsolute = false := by
      rw [isAbsolute, beq_eq_false_iff_ne]
      exact fun h => hslash (List.mem_of_mem_head? h)
    have hjoin : join ⟨base⟩ ⟨n⟩ = ⟨base ++ slash :: n⟩ := by
      simp [join, hrelative, hbase, hlast]
    have hend : (base ++ slash :: n).getLast? ≠ some slash := by
      obtain ⟨front, last, rfl⟩ := (List.eq_nil_or_concat' n).resolve_left hne
      have hlt : last ≠ slash := fun h => hslash (by simp [h])
      rw [← List.cons_append, ← List.append_assoc, List.getLast?_concat]
      simpa using hlt
    rw [List.foldl_cons, hjoin, ih (by simp) hend fun k hk => hnames k (List.mem_cons_of_mem n hk)]
    simp

theorem slash_intercalate (hne : names ≠ []) :
    slash :: List.intercalate [slash] names = names.flatMap (slash :: ·) := by
  induction names with
  | nil => exact absurd rfl hne
  | cons n names ih =>
    cases names with
    | nil => simp
    | cons m names => simp [← ih (List.cons_ne_nil m names)]

end Path

/-! ## Files of a tree -/

namespace FileTree

/-- Files have names, and none lies above another or above the current directory, nor is it that
directory. -/
structure WellFormed (t : FileTree) : Prop where
  names : ∀ f ∈ t.files, f.1 ≠ [] ∧ ∀ n ∈ f.1, Path.IsName n
  apart : ∀ f ∈ t.files, ∀ g ∈ t.files, f.1 <+: g.1 → f.1 = g.1
  current : ∀ f ∈ t.files, ¬ f.1 <+: t.current

variable {t : FileTree} {names : Names} {content : Text}

theorem mem_files_of_content? (h : t.content? names = some content) :
    (names, content) ∈ t.files := by
  obtain ⟨before, after, hfiles, -⟩ := List.lookup_eq_some_iff.1 h
  simp [hfiles]

theorem entry?_eq_directory {at_ : Names} (hnone : t.content? at_ = none)
    (hdirectory : t.isDirectory at_ = true) : t.entry? at_ = some .directory := by
  unfold entry?
  rw [hnone, hdirectory]
  rfl

theorem WellFormed.entry?_above (h : t.WellFormed) {above below : Names} {content : Text}
    (hfile : (above ++ below, content) ∈ t.files) (hbelow : below ≠ []) :
    t.entry? above = some .directory := by
  refine entry?_eq_directory ?_ ?_
  · by_contra hsome
    obtain ⟨c, hc⟩ := Option.ne_none_iff_exists'.1 hsome
    have heq := h.apart _ (mem_files_of_content? hc) _ hfile (List.prefix_append _ _)
    exact hbelow (List.append_right_eq_self.1 heq.symm)
  · rw [isDirectory, Bool.or_eq_true, List.any_eq_true]
    refine Or.inr ⟨_, hfile, ?_⟩
    simp [hbelow]

theorem WellFormed.entry?_current (h : t.WellFormed) : t.entry? t.current = some .directory := by
  refine entry?_eq_directory ?_ ?_
  · by_contra hsome
    obtain ⟨c, hc⟩ := Option.ne_none_iff_exists'.1 hsome
    exact h.current _ (mem_files_of_content? hc) List.prefix_rfl
  · simp [isDirectory]

theorem WellFormed.follow_names (h : t.WellFormed) {above below : Names}
    (hfile : (above ++ below, content) ∈ t.files) :
    t.follow above (below.map Component.name) = .ok (above ++ below) := by
  induction below generalizing above with
  | nil => simp [follow]
  | cons n below ih =>
    rw [List.append_cons] at hfile ⊢
    rw [List.map_cons, follow, h.entry?_above (by simpa using hfile) (List.cons_ne_nil n below)]
    exact ih hfile

/-- A path whose components lead to a file and whose last piece is a name finds the file. -/
theorem find_of_follow {p : Path} {first : Text} {pieces : List Text}
    (hpieces : p.pieces = first :: pieces) (hfirst : first ≠ [])
    (hlast : ∀ last ∈ p.pieces.getLast?, Path.IsName last)
    (hfollow : t.follow t.current p.components = .ok names)
    (hcontent : t.content? names = some content) :
    t.find p = .ok (names, .file content) := by
  have htext : p.text ≠ [] := by
    intro hnil
    rw [Path.pieces, hnil] at hpieces
    exact hfirst (List.cons.inj hpieces).1.symm
  have hasks : asksForDirectory p = false := by
    unfold asksForDirectory
    cases hl : p.pieces.getLast? with
    | none => rfl
    | some last =>
      have hname := hlast last hl
      simp [hname.ne_nil, hname.ne_dot]
  simp [find, htext, hfollow, entry?, hcontent, hasks]

theorem WellFormed.follow_file (h : t.WellFormed)
    (hcontent : t.content? (t.current ++ names) = some content) :
    names ≠ [] ∧ (∀ n ∈ names, Path.IsName n) ∧
      t.follow t.current (names.map Component.name) = .ok (t.current ++ names) := by
  have hfile := mem_files_of_content? hcontent
  refine ⟨fun hnil => ?_, fun n hn => ?_, h.follow_names hfile⟩
  · rw [hnil, List.append_nil] at hfile
    exact h.current _ hfile List.prefix_rfl
  · exact (h.names _ hfile).2 n (List.mem_append_right _ hn)

theorem WellFormed.find_ofNames (h : t.WellFormed)
    (hcontent : t.content? (t.current ++ names) = some content) :
    t.find (.ofNames names) = .ok (t.current ++ names, .file content) := by
  obtain ⟨hne, hnames, hfollow⟩ := h.follow_file hcontent
  have hpieces := Path.pieces_ofNames hne hnames
  obtain ⟨first, rest, hcons⟩ := List.exists_cons_of_ne_nil hne
  have hfirst : first ∈ names := by simp [hcons]
  refine find_of_follow (hpieces.trans hcons) (hnames first hfirst).ne_nil (fun last hlast => ?_) ?_
    hcontent
  · rw [hpieces] at hlast
    exact hnames last (List.mem_of_getLast? hlast)
  · rw [Path.components_ofNames hne hnames, hfollow]

theorem WellFormed.find_join_current (h : t.WellFormed)
    (hcontent : t.content? (t.current ++ names) = some content) :
    t.find (Path.current.join (.ofNames names)) = .ok (t.current ++ names, .file content) := by
  obtain ⟨hne, hnames, hfollow⟩ := h.follow_file hcontent
  have hpieces := Path.pieces_join_current hne hnames
  refine find_of_follow hpieces (by decide) (fun last hlast => ?_) ?_ hcontent
  · rw [hpieces, List.getLast?_cons_of_ne_nil hne] at hlast
    exact hnames last (List.mem_of_getLast? hlast)
  · rw [Path.components_join_current hne hnames, follow, h.entry?_current]
    exact hfollow

theorem WellFormed.mem_walk_current (h : t.WellFormed)
    (hcontent : t.content? (t.current ++ names) = some content) :
    Path.current.join (.ofNames names) ∈ t.walk Path.current := by
  obtain ⟨hne, hnames, -⟩ := h.follow_file hcontent
  have hfollow : t.follow t.current Path.current.components = .ok t.current := by
    have hcomponents : Path.current.components = [.here] := by decide
    rw [hcomponents, follow, h.entry?_current]
    rfl
  have hfind : t.find Path.current = .ok (t.current, .directory) := by
    rw [find, if_neg (by decide), hfollow]
    simp only [h.entry?_current]
  rw [walk, hfind]
  have hmem := mem_files_of_content? hcontent
  refine List.mem_map.2 ⟨(t.current ++ names, content), List.mem_filter.2 ⟨hmem, ?_⟩, ?_⟩
  · simp
  · rw [Path.join_current hnames, List.drop_left, Path.current,
      Path.foldl_join (by decide) (by decide) hnames, ← Path.slash_intercalate hne]
    rfl

end FileTree

/-! ## Patterns -/

namespace Glob

open GlobToken (behindFront runAll)

/-- A pattern for names wherever they stand: what comes behind its leading directories, or all of it
if it has none, leaves nothing but itself behind the dot and the slash. -/
def Floats (g : Glob) : Prop :=
  ∃ rest, (∀ left ∈ behindFront Path.dotSlash rest, left = rest) ∧
    (g.tokens = .leading :: rest ∨ g.tokens = rest ∧ rest ∈ behindFront Path.dotSlash rest)

theorem Floats.isMatch_dotSlash {g : Glob} (h : g.Floats) (p : Path) :
    g.isMatch ⟨Path.dotSlash ++ p.text⟩ = g.isMatch p := by
  obtain ⟨rest, hleft, htokens⟩ := h
  have hrest : runAll List.isEmpty rest (Path.dotSlash ++ p.text) = true →
      runAll List.isEmpty rest p.text = true := by
    rw [GlobToken.runAll_append_text, List.any_eq_true]
    rintro ⟨left, hmem, hmatch⟩
    rwa [hleft left hmem] at hmatch
  by_cases hleading : g.tokens = [.leading]
  · simp only [isMatch, hleading]
  · rw [isMatch_of_ne hleading, isMatch_of_ne hleading, Bool.eq_iff_iff]
    rcases htokens with htokens | ⟨htokens, hself⟩
    · -- the directories in front take the dot and the slash
      have hslash : GlobToken.afterSlashes (Path.dotSlash ++ p.text) =
          p.text :: GlobToken.afterSlashes p.text := by
        simp [Path.dotSlash, Path.dot, GlobToken.afterSlashes, Path.slash]
      simp only [htokens, runAll, GlobToken.run, hslash, List.any_cons, Bool.or_eq_true]
      tauto
    · rw [htokens]
      refine ⟨hrest, fun hmatch => ?_⟩
      rw [GlobToken.runAll_append_text, List.any_eq_true]
      exact ⟨rest, hself, hmatch⟩

/-- A pattern that starts with a byte that is no dot. -/
def IsRooted (g : Glob) : Prop :=
  ∃ b bytes rest, g.tokens = .literal (b :: bytes) :: rest ∧ Path.dotSlash.head? ≠ some b

theorem IsRooted.isMatch_dotSlash {g : Glob} (h : g.IsRooted) (p : Path) :
    g.isMatch ⟨Path.dotSlash ++ p.text⟩ = false := by
  obtain ⟨b, bytes, rest, htokens, hb⟩ := h
  have hne : 46 ≠ b := fun heq => hb (heq ▸ rfl)
  simp [isMatch, htokens, runAll, GlobToken.run, Path.dotSlash, Path.dot, Ne.symm hne]

end Glob

/-! ## Filters -/

namespace PathFilter

/-- Whether a path is left out by what the patterns leave behind `front`. -/
def rejectsBehind (f : PathFilter) (front : Text) (p : Path) : Bool :=
  f.excluded.any (·.matchesBehind front p) ||
    (!f.included.isEmpty && !f.included.any (·.matchesBehind front p))

theorem rejects_append (f : PathFilter) (front : Text) (p : Path) :
    f.rejects ⟨front ++ p.text⟩ = f.rejectsBehind front p := by
  simp only [rejects, rejectsBehind, Glob.isMatch_append]

variable {f : PathFilter}

theorem rejects_dotSlash_of_floats (hincluded : ∀ g ∈ f.included, g.Floats)
    (hexcluded : ∀ g ∈ f.excluded, g.Floats) (p : Path) :
    f.rejects ⟨Path.dotSlash ++ p.text⟩ = f.rejects p := by
  have hany : ∀ globs : List Glob, (∀ g ∈ globs, g.Floats) →
      globs.any (·.isMatch ⟨Path.dotSlash ++ p.text⟩) = globs.any (·.isMatch p) := by
    intro globs hglobs
    rw [Bool.eq_iff_iff, List.any_eq_true, List.any_eq_true]
    refine exists_congr fun g => and_congr_right fun hg => ?_
    rw [(hglobs g hg).isMatch_dotSlash]
  rw [rejects, rejects, hany _ hincluded, hany _ hexcluded]

/-- Where all patterns are rooted, those to leave out have no effect on a walk, and those to keep
leave out everything that it comes by. -/
theorem rejects_dotSlash_of_isRooted (hincluded : ∀ g ∈ f.included, g.IsRooted)
    (hexcluded : ∀ g ∈ f.excluded, g.IsRooted) (p : Path) :
    f.rejects ⟨Path.dotSlash ++ p.text⟩ = !f.included.isEmpty := by
  have hany : ∀ globs : List Glob, (∀ g ∈ globs, g.IsRooted) →
      globs.any (·.isMatch ⟨Path.dotSlash ++ p.text⟩) = false := by
    intro globs hglobs
    rw [List.any_eq_false]
    intro g hg
    rw [(hglobs g hg).isMatch_dotSlash]
    exact Bool.false_ne_true
  rw [rejects, hany _ hincluded, hany _ hexcluded, Bool.false_or, Bool.not_false, Bool.and_true]

/-- A file below the current directory is found under its names, and a walk of that directory comes
by it with a dot in front of them. The filter treats both alike exactly when the patterns and what
they leave behind the dot and the slash do. It always does when all patterns float. When all are
rooted, it looks at the file in the first spelling only. -/
theorem rejects_walked_iff (f : PathFilter) {files : FileTree} {names : Names} {content : Text}
    (hfiles : files.WellFormed)
    (hcontent : files.content? (files.current ++ names) = some content) :
    let p := Path.ofNames names
    let entry := Path.current.join p
    files.find p = .ok (files.current ++ names, .file content) ∧
    files.find entry = .ok (files.current ++ names, .file content) ∧
    entry ∈ files.walk Path.current ∧
    (f.rejects p = f.rejects entry ↔ f.rejects p = f.rejectsBehind Path.dotSlash p) ∧
    ((∀ g ∈ f.included, g.Floats) → (∀ g ∈ f.excluded, g.Floats) →
      f.rejects p = f.rejects entry) ∧
    ((∀ g ∈ f.included, g.IsRooted) → (∀ g ∈ f.excluded, g.IsRooted) →
      f.rejects entry = !f.included.isEmpty) := by
  intro p entry
  obtain ⟨-, hnames, -⟩ := hfiles.follow_file hcontent
  have hentry : entry = ⟨Path.dotSlash ++ p.text⟩ := Path.join_current hnames
  refine ⟨hfiles.find_ofNames hcontent, hfiles.find_join_current hcontent,
    hfiles.mem_walk_current hcontent, ?_, fun hincluded hexcluded => ?_,
    fun hincluded hexcluded => ?_⟩
  · rw [hentry, rejects_append]
  · rw [hentry, rejects_dotSlash_of_floats hincluded hexcluded]
  · rw [hentry, rejects_dotSlash_of_isRooted hincluded hexcluded]

def docsTree : FileTree := .ofFiles [("docs/a.md", [])] [] [Text.ofString "work"]

def docsNames : Names := [Text.ofString "docs", Text.ofString "a.md"]

def markdownTokens : List GlobToken :=
  .anyBytes :: ".md".toList.map fun c => .literal (Text.ofChars [c])

def outTokens : List GlobToken :=
  "out".toList.map (fun c => .literal (Text.ofChars [c])) ++ [.trailing]

def markdownOnly : PathFilter := ⟨[⟨.leading :: markdownTokens⟩], [⟨.leading :: outTokens⟩]⟩

theorem rejects_walked_markdown :
    ofPatterns .default ["**/*.md"] ["**/out/**"] = .ok markdownOnly ∧
    docsTree.WellFormed ∧ docsTree.content? (docsTree.current ++ docsNames) = some [] ∧
    docsTree.find (.ofNames docsNames) = .ok (docsTree.current ++ docsNames, .file []) ∧
    Path.current.join (.ofNames docsNames) ∈ docsTree.walk Path.current ∧
    (∀ g ∈ markdownOnly.included ++ markdownOnly.excluded, g.Floats) ∧
    markdownOnly.rejects (.ofNames docsNames) = false ∧
    markdownOnly.rejects (Path.current.join (.ofNames docsNames)) = false := by
  have htree : docsTree.files = [(docsTree.current ++ docsNames, [])] := by cbv
  have hnames : ∀ n ∈ docsTree.current ++ docsNames, Path.IsName n := by
    have hname : ∀ n ∈ docsTree.current ++ docsNames,
        n ≠ [] ∧ Path.slash ∉ n ∧ n ≠ Path.dot ∧ n ≠ Path.dotDot := by decide
    exact fun n hn => ⟨(hname n hn).1, (hname n hn).2.1, (hname n hn).2.2.1, (hname n hn).2.2.2⟩
  have hfiles : docsTree.WellFormed := by
    refine ⟨?_, ?_, ?_⟩ <;> rw [htree]
    · exact List.forall_mem_singleton.2 ⟨by decide, hnames⟩
    · simp
    · exact List.forall_mem_singleton.2 (by decide)
  have hcontent : docsTree.content? (docsTree.current ++ docsNames) = some [] := by cbv
  have hmarkdown : GlobToken.behindFront Path.dotSlash markdownTokens = [markdownTokens] := by rfl
  have hout : GlobToken.behindFront Path.dotSlash outTokens = [] := by rfl
  have hincluded : ∀ g ∈ markdownOnly.included, g.Floats := by
    simp only [markdownOnly, List.mem_singleton, forall_eq]
    exact ⟨markdownTokens, by simp [hmarkdown], Or.inl rfl⟩
  have hexcluded : ∀ g ∈ markdownOnly.excluded, g.Floats := by
    simp only [markdownOnly, List.mem_singleton, forall_eq]
    exact ⟨outTokens, by simp [hout], Or.inl rfl⟩
  obtain ⟨hfind, -, hwalk, -, hfloats, -⟩ := rejects_walked_iff markdownOnly hfiles hcontent
  have hkept : markdownOnly.rejects (.ofNames docsNames) = false := by cbv
  refine ⟨by cbv, hfiles, hcontent, hfind, hwalk, ?_, hkept, ?_⟩
  · exact List.forall_mem_append.2 ⟨hincluded, hexcluded⟩
  · rw [← hfloats hincluded hexcluded, hkept]

/-- A pattern that names a directory from the top holds for an argument and for no path of a
walk. -/
theorem walked_though_excluded :
    docsTree.isFile (.ofString "docs/a.md") = true ∧
    Path.ofString "./docs/a.md" ∈ docsTree.walk Path.current ∧
    (ofPatterns .default [] ["docs/**"]).map (·.rejects (.ofString "docs/a.md")) = .ok true ∧
    (ofPatterns .default [] ["docs/**"]).map (·.rejects (.ofString "./docs/a.md")) = .ok false ∧
    (ofPatterns .default ["docs/**"] []).map (·.rejects (.ofString "docs/a.md")) = .ok false ∧
    (ofPatterns .default ["docs/**"] []).map (·.rejects (.ofString "./docs/a.md")) = .ok true :=
  ⟨by cbv, by decide, by cbv, by cbv, by cbv, by cbv⟩

end PathFilter
end Inlay
