import Provenance.Proofs.Glob.Meaning
import Provenance.Proofs.Path.Spelling
import Provenance.Proofs.Scan.Failing

/-!
What patterns exclude below a directory. They are matched with the path of a file relative to the root
and with its name, at any depth. A name that is not UTF-8 is matched as if it were empty: the empty
pattern excludes such a file, and a pattern that matches its name may leave it in. For every other file
patterns are about the name and the relative path and nothing else.
-/
namespace Provenance

/-- The bytes that patterns see of a name. -/
def FileName.seen (name : FileName) : Bytes :=
  if Utf8.isValid name.bytes then name.bytes else []

theorem FileName.seen_of_text {name : FileName} (h : ∃ t, Utf8.encode t = name.bytes) :
    name.seen = name.bytes := by
  rw [FileName.seen, if_pos (Utf8.isValid_iff.mpr h)]

theorem FileName.seen_of_not_text {name : FileName} (h : ¬∃ t, Utf8.encode t = name.bytes) :
    name.seen = [] := by
  rw [FileName.seen, if_neg (fun hvalid => h (Utf8.isValid_iff.mp hvalid))]

/-- A pattern that an engine can read matches a whole byte string. -/
def PatternEngine.Matches (engine : PatternEngine) (matcher : engine.Pattern → Bytes → Prop)
    (pattern : Text) (bytes : Bytes) : Prop :=
  ∃ own, engine.read pattern = .ok own ∧ matcher own bytes

variable {engine : PatternEngine} {matcher : engine.Pattern → Bytes → Prop}

/-- The empty pattern matches nothing but the empty byte string. -/
theorem PatternEngine.Means.matches_nil_iff (hengine : engine.Means matcher) {bytes : Bytes} :
    engine.Matches matcher [] bytes ↔ bytes = [] := by
  obtain ⟨own, -, hread, -, hmatcher⟩ := hengine.empty
  rw [Matches, hread, ← hmatcher]
  simp only [Except.ok.injEq, exists_eq_left']

namespace Exclusion

variable {patterns : List Text} {exclusion : Exclusion}

/-- An exclusion is built of patterns that can all be read. -/
theorem exists_build_of_ofPatterns (h : ofPatterns engine patterns = .ok exclusion) :
    ∃ read : List engine.Pattern, patterns.map engine.read = read.map .ok ∧
      engine.build read = .ok exclusion := by
  rcases exists_build_or_fault engine patterns with ⟨read, other, hread, hbuild, hother⟩ |
    ⟨fault, hfault⟩
  · rw [hother] at h
    cases h
    exact ⟨read, hread, hbuild⟩
  · rw [ofPatterns_of_fault hfault] at h
    cases h

/-- What holds of what some pattern is read as holds of something that has been read. -/
theorem exists_read_iff {read : List engine.Pattern}
    (hread : patterns.map engine.read = read.map .ok) (P : engine.Pattern → Prop) :
    (∃ pattern ∈ patterns, ∃ own, engine.read pattern = .ok own ∧ P own) ↔ ∃ own ∈ read, P own := by
  constructor
  · rintro ⟨pattern, hpattern, own, hown, hP⟩
    have hmem : engine.read pattern ∈ read.map Except.ok := hread ▸ List.mem_map_of_mem hpattern
    obtain ⟨other, hother, heq⟩ := List.mem_map.mp hmem
    rw [hown] at heq
    cases heq
    exact ⟨own, hother, hP⟩
  · rintro ⟨own, hown, hP⟩
    have hmem : Except.ok own ∈ patterns.map engine.read := hread ▸ List.mem_map_of_mem hown
    obtain ⟨pattern, hpattern, hparse⟩ := List.mem_map.mp hmem
    exact ⟨pattern, hpattern, own, hparse, hP⟩

theorem isMatch_iff (hengine : engine.Means matcher) (h : ofPatterns engine patterns = .ok exclusion)
    {bytes : Bytes} :
    exclusion.isMatch bytes = true ↔ ∃ pattern ∈ patterns, engine.Matches matcher pattern bytes := by
  obtain ⟨read, hread, hbuild⟩ := exists_build_of_ofPatterns h
  rw [hengine.isMatch_iff hbuild]
  exact (exists_read_iff hread fun own => matcher own bytes).symm

/-- With no patterns there is nothing that matches, so nothing is lost by not asking. -/
theorem excludes_iff (hengine : engine.Means matcher)
    (h : ofPatterns engine patterns = .ok exclusion) (path root : Path) :
    exclusion.excludes path root = true ↔ exclusion.isMatch (matchedName path) = true ∨
      exclusion.isMatch ((path.below? root).getD path).bytes = true := by
  obtain ⟨read, hread, hbuild⟩ := exists_build_of_ofPatterns h
  rw [excludes, Bool.and_eq_true, Bool.or_eq_true, Bool.not_eq_true', and_iff_right_iff_imp]
  intro hmatch
  rw [← Bool.not_eq_true, hengine.isEmpty_iff hbuild]
  rintro rfl
  simp [hengine.isMatch_iff hbuild] at hmatch

/-- The empty pattern can be used. -/
theorem exists_ofPatterns_nil (hengine : engine.Means matcher) :
    ∃ exclusion, ofPatterns engine [[]] = .ok exclusion := by
  obtain ⟨own, exclusion, hread, hbuild, -⟩ := hengine.empty
  have hall : [[]].map engine.read = [own].map .ok := congrArg (fun first => [first]) hread
  refine ⟨exclusion, ?_⟩
  rw [ofPatterns_of_read hall, hbuild]
  rfl

theorem excludes_none (path root : Path) : Exclusion.none.excludes path root = false := rfl

end Exclusion

namespace Scan

variable {root : Path} {above : List FileName} {name : FileName}

theorem matchedName_walkedPath (root : Path) (above : List FileName) (name : FileName) :
    Exclusion.matchedName (walkedPath root (above ++ [name])) = name.seen := by
  have hends := endsIn_walkedPath root (List.append_ne_nil_of_right_ne_nil above
    (List.cons_ne_nil name []))
  rw [List.getLast_concat] at hends
  rw [Exclusion.matchedName, hends.fileName?_eq]
  rfl

/-- What is left of the path of a file below the root are the names on the way to it. -/
theorem below?_walkedPath (root : Path) {names : List FileName} (h : names ≠ []) :
    (walkedPath root names).below? root = some (Path.ofNames names) := by
  have hprefix : root.components.isPrefixOf (root.components ++ names.map Component.name) = true :=
    List.isPrefixOf_iff_prefix.mpr (List.prefix_append _ _)
  have hbytes : Component.bytes ∘ Component.name = FileName.bytes := rfl
  rw [walkedPath, Path.below?, Path.components_join_ofNames root h, if_pos hprefix,
    List.drop_left, List.map_map, hbytes]
  rfl

theorem bytes_ofNames_ne_nil {names : List FileName} (h : names ≠ []) :
    (Path.ofNames names).bytes ≠ [] := by
  intro hnil
  have hcomponents := Path.components_ofNames h
  have hempty : (Path.mk []).components = [] := rfl
  rw [show Path.ofNames names = ⟨[]⟩ from congrArg Path.mk hnil, hempty] at hcomponents
  exact h (List.map_eq_nil_iff.mp hcomponents.symm)

/-- Of what a walk comes to, the files that are not excluded are contributed. -/
theorem pathsOf_directory_eq_filter (exclusion : Exclusion) (root : Path) (modified : Instant)
    (entries : Listing) :
    pathsOf exclusion root (.directory modified entries) =
      (pathsOf .none root (.directory modified entries)).filter
        fun path => !exclusion.excludes path root := by
  simp only [pathsOf, Exclusion.excludes_none]
  split <;> simp

/-- A file below a root, told by the names on the way to it, is contributed. -/
abbrev Kept (exclusion : Exclusion) (root : Path) (object : Object) (names : List FileName) : Prop :=
  walkedPath root names ∈ pathsOf exclusion root object

/-- Whatever the patterns are, a file is excluded just if one of them matches these bytes or the path
of the file relative to the root. -/
def ExcludedBy (engine : PatternEngine) (matcher : engine.Pattern → Bytes → Prop) (seen : Bytes)
    (root : Path) (object : Object) (names : List FileName) : Prop :=
  ∀ patterns exclusion, Exclusion.ofPatterns engine patterns = .ok exclusion →
    (¬Kept exclusion root object names ↔
      ∃ pattern ∈ patterns, engine.Matches matcher pattern seen ∨
        engine.Matches matcher pattern (Path.ofNames names).bytes)

/-- The empty pattern matches a name that is seen as empty, and nothing else. -/
theorem matches_nil_seen_iff (hengine : engine.Means matcher) {seen : Bytes}
    {names : List FileName} (hnames : names ≠ []) :
    (engine.Matches matcher [] seen ∨ engine.Matches matcher [] (Path.ofNames names).bytes) ↔
      seen = [] := by
  rw [hengine.matches_nil_iff, hengine.matches_nil_iff,
    or_iff_left (bytes_ofNames_ne_nil hnames)]

section

variable {modified : Instant} {entries : Listing}

/-- Every file that a walk comes to is excluded by its relative path and by its name as it is seen. -/
theorem excludedBy_seen (hengine : engine.Means matcher)
    (hmet : Kept .none root (.directory modified entries) (above ++ [name])) :
    ExcludedBy engine matcher name.seen root (.directory modified entries) (above ++ [name]) := by
  intro patterns exclusion hread
  have hnames : above ++ [name] ≠ [] := by simp
  have hexcluded : exclusion.excludes (walkedPath root (above ++ [name])) root = true ↔
      ∃ pattern ∈ patterns, engine.Matches matcher pattern name.seen ∨
        engine.Matches matcher pattern (Path.ofNames (above ++ [name])).bytes := by
    rw [Exclusion.excludes_iff hengine hread, matchedName_walkedPath, below?_walkedPath root hnames,
      Option.getD_some, Exclusion.isMatch_iff hengine hread, Exclusion.isMatch_iff hengine hread,
      ← exists_or]
    simp only [← and_or_left]
  rw [Kept, pathsOf_directory_eq_filter, List.mem_filter, ← hexcluded, Bool.not_eq_true']
  simp [hmet]

/-- A name that is seen as empty is excluded by the empty pattern. -/
theorem not_kept_of_not_text (hengine : engine.Means matcher)
    (hmet : Kept .none root (.directory modified entries) (above ++ [name]))
    (hodd : ¬∃ t, Utf8.encode t = name.bytes) {exclusion : Exclusion}
    (hread : Exclusion.ofPatterns engine [[]] = .ok exclusion) :
    ¬Kept exclusion root (.directory modified entries) (above ++ [name]) := by
  apply (excludedBy_seen hengine hmet _ _ hread).mpr
  refine ⟨[], List.mem_singleton_self _, ?_⟩
  exact (matches_nil_seen_iff hengine (by simp)).mpr (FileName.seen_of_not_text hodd)

theorem excludedBy_bytes_of_text (hengine : engine.Means matcher)
    (hmet : Kept .none root (.directory modified entries) (above ++ [name]))
    (htext : ∃ t, Utf8.encode t = name.bytes) :
    ExcludedBy engine matcher name.bytes root (.directory modified entries) (above ++ [name]) := by
  have hseen := excludedBy_seen hengine hmet
  rwa [FileName.seen_of_text htext] at hseen

/-- The name itself does not decide, if it is not UTF-8: it is not empty, but the empty pattern excludes
the file. -/
theorem text_of_excludedBy_bytes (hengine : engine.Means matcher)
    (hmet : Kept .none root (.directory modified entries) (above ++ [name]))
    (hbytes : ExcludedBy engine matcher name.bytes root (.directory modified entries)
      (above ++ [name])) :
    ∃ t, Utf8.encode t = name.bytes := by
  by_contra hodd
  obtain ⟨exclusion, hread⟩ := Exclusion.exists_ofPatterns_nil hengine
  have hexcluded := not_kept_of_not_text hengine hmet hodd hread
  obtain ⟨pattern, hpattern, hmatches⟩ := (hbytes _ _ hread).mp hexcluded
  rw [List.mem_singleton.mp hpattern, matches_nil_seen_iff hengine (by simp)] at hmatches
  exact name.bytes_ne_nil hmatches

/-- What is excluded below a directory, whatever patterns mean otherwise. Patterns are matched with the
relative path and with the name as it is seen, which is to say with the name itself just if it is UTF-8.
Then the empty pattern adds nothing to others, and a pattern that matches the name excludes the file
wherever it stands. A file with another name is excluded by the empty pattern alone. -/
theorem excludedBy_bytes_iff (hengine : engine.Means matcher)
    (hmet : Kept .none root (.directory modified entries) (above ++ [name])) :
    ExcludedBy engine matcher name.seen root (.directory modified entries) (above ++ [name]) ∧
    (ExcludedBy engine matcher name.bytes root (.directory modified entries) (above ++ [name]) ↔
      ∃ t, Utf8.encode t = name.bytes) ∧
    ((∃ t, Utf8.encode t = name.bytes) →
      ∀ patterns exclusion, Exclusion.ofPatterns engine patterns = .ok exclusion →
        (∀ exclusion', Exclusion.ofPatterns engine ([] :: patterns) = .ok exclusion' →
          (Kept exclusion' root (.directory modified entries) (above ++ [name]) ↔
            Kept exclusion root (.directory modified entries) (above ++ [name]))) ∧
        ∀ pattern ∈ patterns, engine.Matches matcher pattern name.bytes →
          ¬Kept exclusion root (.directory modified entries) (above ++ [name])) ∧
    ((¬∃ t, Utf8.encode t = name.bytes) →
      ∀ exclusion, Exclusion.ofPatterns engine [[]] = .ok exclusion →
        ¬Kept exclusion root (.directory modified entries) (above ++ [name])) := by
  refine ⟨excludedBy_seen hengine hmet, ⟨text_of_excludedBy_bytes hengine hmet,
    excludedBy_bytes_of_text hengine hmet⟩, ?_,
    fun hodd _ hread => not_kept_of_not_text hengine hmet hodd hread⟩
  intro htext patterns exclusion hread
  have hbytes := excludedBy_bytes_of_text hengine hmet htext
  constructor
  · intro exclusion' hread'
    apply not_iff_not.mp
    rw [hbytes _ _ hread, hbytes _ _ hread']
    have hnames : above ++ [name] ≠ [] := by simp
    simp only [List.mem_cons, exists_eq_or_imp, matches_nil_seen_iff hengine hnames,
      name.bytes_ne_nil, false_or]
  · intro pattern hpattern hmatches
    exact (hbytes _ _ hread).mpr ⟨pattern, hpattern, Or.inl hmatches⟩

end

/-- A name that is not UTF-8. -/
def oddName : FileName := ⟨[0xFF, 0x2E, 0x63, 0x73], by decide⟩

def plainName : FileName := ⟨Utf8.encode "a.cs".toList, by decide⟩

/-- The name of a directory. -/
def innerName : FileName := ⟨Utf8.encode "s".toList, by decide⟩

/-- A directory with a file of an odd name, and one with a file of a plain name, each also in a
directory inside. -/
def oddAndPlain : Object :=
  .directory ⟨0⟩ [(oddName, .file ⟨0⟩ []), (plainName, .file ⟨0⟩ []),
    (innerName, .directory ⟨0⟩ [(oddName, .file ⟨0⟩ []), (plainName, .file ⟨0⟩ [])])]

/-- The empty pattern alone. -/
def nothingAtAll : Exclusion := Glob.exclusion [[]]

/-- The pattern `?.cs` alone. -/
def oneLetter : Exclusion :=
  Glob.exclusion [[.anyByte, .literal '.', .literal 'c', .literal 's']]

theorem ofPatterns_nothingAtAll : Exclusion.ofPatterns Glob.engine [[]] = .ok nothingAtAll := by
  cbv

theorem ofPatterns_oneLetter : Exclusion.ofPatterns Glob.engine ["?.cs".toList] = .ok oneLetter := by
  cbv

theorem matches_oneLetter {bytes : Bytes} (h : oneLetter.isMatch bytes = true) :
    Glob.engine.Matches Glob.Writes "?.cs".toList bytes := by
  obtain ⟨pattern, hpattern, hmatches⟩ :=
    (Exclusion.isMatch_iff Glob.means_engine ofPatterns_oneLetter).mp h
  rwa [List.mem_singleton.mp hpattern] at hmatches

/-- The empty pattern excludes a file whose name is odd, though it matches neither the name nor the
relative path; and the pattern `?.cs`, which matches the name, leaves the file in where it stands in a
directory inside. -/
theorem excluded_oddName :
    (¬Glob.engine.Matches Glob.Writes [] oddName.bytes ∧
      ¬Glob.engine.Matches Glob.Writes [] (Path.ofNames [oddName]).bytes ∧
      Exclusion.ofPatterns Glob.engine [[]] = .ok nothingAtAll ∧
      ¬Kept nothingAtAll (.ofText "d".toList) oddAndPlain [oddName]) ∧
    (Glob.engine.Matches Glob.Writes "?.cs".toList oddName.bytes ∧
      Exclusion.ofPatterns Glob.engine ["?.cs".toList] = .ok oneLetter ∧
      Kept oneLetter (.ofText "d".toList) oddAndPlain [innerName, oddName]) ∧
    ¬ExcludedBy Glob.engine Glob.Writes oddName.bytes (.ofText "d".toList) oddAndPlain
      [innerName, oddName] := by
  have hnil (bytes : Bytes) (hne : bytes ≠ []) : ¬Glob.engine.Matches Glob.Writes [] bytes :=
    fun h => hne (Glob.means_engine.matches_nil_iff.mp h)
  have hmatches : Glob.engine.Matches Glob.Writes "?.cs".toList oddName.bytes :=
    matches_oneLetter (by decide)
  have hkept : Kept oneLetter (.ofText "d".toList) oddAndPlain [innerName, oddName] := by decide
  refine ⟨⟨hnil _ oddName.bytes_ne_nil, hnil _ (by decide), ofPatterns_nothingAtAll, by decide⟩,
    ⟨hmatches, ofPatterns_oneLetter, hkept⟩, ?_⟩
  intro hexcluded
  exact (hexcluded _ _ ofPatterns_oneLetter).mpr ⟨_, List.mem_singleton_self _, Or.inl hmatches⟩ hkept

/-- In the directory inside, the pattern `?.cs` excludes the file with the plain name, and the empty
pattern the one with the odd name. -/
theorem excluded_oddAndPlain :
    ¬Kept oneLetter (.ofText "d".toList) oddAndPlain [innerName, plainName] ∧
      ¬Kept nothingAtAll (.ofText "d".toList) oddAndPlain [innerName, oddName] := by
  have hplain : Kept .none (.ofText "d".toList) oddAndPlain ([innerName] ++ [plainName]) := by decide
  have hodd : Kept .none (.ofText "d".toList) oddAndPlain ([innerName] ++ [oddName]) := by decide
  constructor
  · exact ((excludedBy_bytes_iff Glob.means_engine hplain).2.2.1 ⟨_, rfl⟩ _ _
      ofPatterns_oneLetter).2 _ (List.mem_singleton_self _) (matches_oneLetter (by decide))
  · refine (excludedBy_bytes_iff Glob.means_engine hodd).2.2.2 ?_ _ ofPatterns_nothingAtAll
    rw [← Utf8.isValid_iff]
    decide

end Scan

end Provenance
