import Provenance.CommandLine.Outcome
import Provenance.Proofs.Json.Legible
import Provenance.Text.Utf8.RoundTrip

/-!
The encoding of a report is faithful. It fails only where a path among the roots or the files is not
UTF-8. Otherwise nothing of the report is lost: paths are text and are read back from it, a status is
told from its fields and a file from its status and path, whose fields all have different names. As a
document can be read in only one way, its text determines the report.
-/
namespace Provenance

section

variable {α β : Type} {f : α → Option β}

theorem mapM_eq_none_iff (f : α → Option β) (as : List α) :
    as.mapM f = none ↔ ∃ a ∈ as, f a = none := by
  induction as with
  | nil => simp
  | cons a as ih =>
    rw [List.mapM_cons, List.exists_mem_cons_iff]
    cases ha : f a with
    | none => simp
    | some b =>
      rw [← ih]
      cases as.mapM f <;> simp

/-- Lists whose members are mapped one by one, each to what no other member is mapped to. -/
theorem eq_of_mapM_eq_some (hf : ∀ a a' b, f a = some b → f a' = some b → a = a')
    {as as' : List α} {bs : List β} (h : as.mapM f = some bs) (h' : as'.mapM f = some bs) :
    as = as' := by
  induction as generalizing as' bs with
  | nil =>
    cases h
    cases as' with
    | nil => rfl
    | cons a' as' => simp [Option.bind_eq_some_iff] at h'
  | cons a as ih =>
    rw [List.mapM_cons] at h
    obtain ⟨b, ha, hrest⟩ := Option.bind_eq_some_iff.mp h
    obtain ⟨others, has, hbs⟩ := Option.bind_eq_some_iff.mp hrest
    cases hbs
    cases as' with
    | nil => cases h'
    | cons a' as' =>
      rw [List.mapM_cons] at h'
      obtain ⟨b', ha', hrest'⟩ := Option.bind_eq_some_iff.mp h'
      obtain ⟨others', has', hbs'⟩ := Option.bind_eq_some_iff.mp hrest'
      cases hbs'
      rw [hf a a' b ha ha', ih has has']

end

namespace Path

/-- A path that is UTF-8 is read back from the text that it is shown as. -/
theorem eq_of_display {p q : Path} (hp : p.isText = true) (hq : q.isText = true)
    (h : p.display = q.display) : p = q := by
  have hbytes : ∀ {p : Path}, p.isText = true → Utf8.encode p.display = p.bytes :=
    fun h => beq_iff_eq.mp h
  have heq : p.bytes = q.bytes := by rw [← hbytes hp, ← hbytes hq, h]
  obtain ⟨b⟩ := p
  exact congrArg Path.mk heq

theorem isText_eq_false_iff {p : Path} : p.isText = false ↔ ∀ t, Utf8.encode t ≠ p.bytes := by
  rw [isText, ← Bool.not_eq_true, Utf8.isValid_iff, not_exists]

end Path

namespace Report

theorem encodePath?_eq_some_iff {path : Path} {value : Json} :
    encodePath? path = some value ↔ path.isText = true ∧ value = .text path.display := by
  rw [encodePath?]
  cases path.isText <;> simp [eq_comm]

theorem encodePath?_eq_none_iff {path : Path} : encodePath? path = none ↔ path.isText = false := by
  rw [encodePath?]
  cases path.isText <;> simp

/-- A path that a text spells is written as that text. -/
theorem encodePath?_ofText (t : Text) : encodePath? (.ofText t) = some (.text t) := by
  have hdisplay : (Path.ofText t).display = t := Utf8.decode_encode t
  rw [encodePath?_eq_some_iff, hdisplay, Path.isText, Utf8.isValid_iff]
  exact ⟨⟨t, rfl⟩, rfl⟩

theorem encodePath?_inj {path path' : Path} {value : Json} (h : encodePath? path = some value)
    (h' : encodePath? path' = some value) : path = path' := by
  obtain ⟨htext, rfl⟩ := encodePath?_eq_some_iff.mp h
  obtain ⟨htext', hvalue⟩ := encodePath?_eq_some_iff.mp h'
  exact Path.eq_of_display htext htext' (Json.text.inj hvalue)

theorem encodeEvidence_injective : Function.Injective encodeEvidence := by
  intro evidence evidence' h
  cases evidence with
  | fileName =>
    cases evidence' with
    | fileName => rfl
    | marker text => simp [encodeEvidence] at h
  | marker text =>
    cases evidence' with
    | fileName => simp [encodeEvidence] at h
    | marker text' => simpa [encodeEvidence] using h

theorem skipName_injective : Function.Injective skipName := by
  intro reason reason'
  cases reason <;> cases reason' <;> decide

/-- The field `status` tells the kind, and the field behind it the rest. -/
theorem statusFields_injective : Function.Injective statusFields := by
  intro status status' h
  cases status <;> cases status' <;> simp [statusFields] at h ⊢
  · exact encodeEvidence_injective h
  · exact skipName_injective h
  · exact h

/-- No field of a status has the name of another one, or of the field that holds the path. -/
theorem nodup_fieldNames (status : Status) :
    ("path".toList :: (statusFields status).map Prod.fst).Nodup := by
  cases status with
  | generated evidence =>
    have hnames : ["path".toList, "status".toList, "evidence".toList].Nodup := by decide
    exact hnames
  | skipped reason =>
    have hnames : ["path".toList, "status".toList, "reason".toList].Nodup := by decide
    exact hnames
  | failed error =>
    have hnames : ["path".toList, "status".toList, "error".toList].Nodup := by decide
    exact hnames
  | authored => decide
  | unknown => decide

theorem encodeFile?_eq_some_iff {file : FileVerdict} {value : Json} :
    encodeFile? file = some value ↔ file.path.isText = true ∧
      value = .object (("path".toList, .text file.path.display) :: statusFields file.status) := by
  rw [encodeFile?]
  constructor
  · intro h
    obtain ⟨path, hpath, hvalue⟩ := Option.bind_eq_some_iff.mp h
    obtain ⟨htext, rfl⟩ := encodePath?_eq_some_iff.mp hpath
    exact ⟨htext, (Option.some.inj hvalue).symm⟩
  · rintro ⟨htext, rfl⟩
    rw [encodePath?_eq_some_iff.mpr ⟨htext, rfl⟩]
    rfl

theorem encodeFile?_eq_none_iff {file : FileVerdict} :
    encodeFile? file = none ↔ file.path.isText = false := by
  rw [← encodePath?_eq_none_iff, encodeFile?]
  cases encodePath? file.path <;> simp

theorem encodeFile?_inj {file file' : FileVerdict} {value : Json}
    (h : encodeFile? file = some value) (h' : encodeFile? file' = some value) : file = file' := by
  obtain ⟨htext, rfl⟩ := encodeFile?_eq_some_iff.mp h
  obtain ⟨htext', hvalue⟩ := encodeFile?_eq_some_iff.mp h'
  obtain ⟨hpath, hstatus⟩ := List.cons.inj (Json.object.inj hvalue)
  obtain ⟨path, status⟩ := file
  obtain ⟨path', status'⟩ := file'
  have hdisplay := Json.text.inj (congrArg Prod.snd hpath)
  rw [FileVerdict.mk.injEq]
  exact ⟨Path.eq_of_display htext htext' hdisplay, statusFields_injective hstatus⟩

theorem encodeSummary_injective : Function.Injective encodeSummary := by
  intro s s' h
  obtain ⟨files, generated, authored, skipped, unknown, failed⟩ := s
  obtain ⟨files', generated', authored', skipped', unknown', failed'⟩ := s'
  simpa [encodeSummary] using h

/-- The paths that a report names. -/
def paths (r : Report) : List Path :=
  r.roots ++ r.files.map FileVerdict.path

/-- A report is encoded unless one of its paths is in the way. -/
theorem encode?_eq_none_iff {r : Report} :
    r.encode? = none ↔ ∃ path ∈ r.paths, path.isText = false := by
  have hroots := mapM_eq_none_iff encodePath? r.roots
  have hfiles := mapM_eq_none_iff encodeFile? r.files
  simp only [encodePath?_eq_none_iff] at hroots
  simp only [encodeFile?_eq_none_iff] at hfiles
  have hpaths : (∃ path ∈ r.paths, path.isText = false) ↔
      r.roots.mapM encodePath? = none ∨ r.files.mapM encodeFile? = none := by
    rw [hroots, hfiles]
    simp only [paths, List.mem_append, or_and_right, exists_or, List.mem_map,
      exists_exists_and_eq_and]
  rw [hpaths, encode?]
  cases r.roots.mapM encodePath? <;> cases r.files.mapM encodeFile? <;> simp

theorem encode?_inj {r r' : Report} {value : Json} (h : r.encode? = some value)
    (h' : r'.encode? = some value) : r = r' := by
  obtain ⟨roots, hroots, hrest⟩ := Option.bind_eq_some_iff.mp h
  obtain ⟨files, hfiles, hvalue⟩ := Option.bind_eq_some_iff.mp hrest
  obtain ⟨roots', hroots', hrest'⟩ := Option.bind_eq_some_iff.mp h'
  obtain ⟨files', hfiles', hvalue'⟩ := Option.bind_eq_some_iff.mp hrest'
  have hfields := Json.object.inj (Option.some.inj (hvalue.trans hvalue'.symm))
  simp only [List.cons.injEq, Prod.mk.injEq, true_and, and_true, Json.array.injEq] at hfields
  obtain ⟨rfl, hsummary, rfl⟩ := hfields
  obtain ⟨ownRoots, summary, ownFiles⟩ := r
  obtain ⟨ownRoots', summary', ownFiles'⟩ := r'
  rw [Report.mk.injEq]
  exact ⟨eq_of_mapM_eq_some (fun _ _ _ => encodePath?_inj) hroots hroots',
    encodeSummary_injective hsummary, eq_of_mapM_eq_some (fun _ _ _ => encodeFile?_inj) hfiles hfiles'⟩

/-- With a document asked for, the report is rendered just if it is encoded. -/
theorem render_of_json {i : CommandLine.Invocation} (hjson : i.json = true) (r : Report) :
    (r.encode? = none ∧ CommandLine.render i r = .failure 2 encodingFault) ∨
      ∃ value, r.encode? = some value ∧ CommandLine.render i r = .success value.pretty := by
  rw [CommandLine.render, if_pos hjson]
  cases r.encode? with
  | none => exact Or.inl ⟨rfl, rfl⟩
  | some value => exact Or.inr ⟨value, rfl, rfl⟩

/-- A report has no document just if one of its paths is not UTF-8. Otherwise its text, also as the
program prints it, is that of no other report: the roots, the counts and the files with their statuses
are the same byte by byte. No two fields of a file share a name. -/
theorem document_determines_report :
    (∀ r : Report, r.encode? = none ↔
      ∃ path ∈ r.roots ++ r.files.map FileVerdict.path, ∀ t, Utf8.encode t ≠ path.bytes) ∧
    (∀ (r r' : Report) (value value' : Json), r.encode? = some value → r'.encode? = some value' →
      value.pretty = value'.pretty →
        r.roots = r'.roots ∧ r.summary = r'.summary ∧ r.files = r'.files) ∧
    (∀ (i : CommandLine.Invocation) (r r' : Report), i.json = true →
      (CommandLine.render i r).exitCode = 0 → (CommandLine.render i r').exitCode = 0 →
        (CommandLine.render i r).output = (CommandLine.render i r').output → r = r') ∧
    ∀ (file : FileVerdict) (value : Json), encodeFile? file = some value →
      ∃ fields, value = .object fields ∧ (fields.map Prod.fst).Nodup := by
  have hinj : ∀ (r r' : Report) (value value' : Json), r.encode? = some value →
      r'.encode? = some value' → value.pretty = value'.pretty → r = r' := by
    intro r r' value value' h h' htext
    obtain rfl := Json.pretty_injective htext
    exact encode?_inj h h'
  refine ⟨?_, ?_, ?_, ?_⟩
  · intro r
    simp only [← Path.isText_eq_false_iff]
    exact encode?_eq_none_iff
  · intro r r' value value' h h' htext
    obtain rfl := hinj r r' value value' h h' htext
    exact ⟨rfl, rfl, rfl⟩
  · intro i r r' hjson hcode hcode' houtput
    rcases render_of_json hjson r with ⟨-, hrender⟩ | ⟨value, hvalue, hrender⟩
    · rw [hrender] at hcode
      cases hcode
    rcases render_of_json hjson r' with ⟨-, hrender'⟩ | ⟨value', hvalue', hrender'⟩
    · rw [hrender'] at hcode'
      cases hcode'
    rw [hrender, hrender'] at houtput
    exact hinj r r' value value' hvalue hvalue' (List.append_cancel_right houtput)
  · intro file value h
    obtain ⟨-, rfl⟩ := encodeFile?_eq_some_iff.mp h
    exact ⟨_, rfl, nodup_fieldNames file.status⟩

/-- A report with characters that have to be escaped, or take more than one byte. -/
def quotedReport : Report :=
  ⟨[.ofText "é\"".toList], ⟨1, 0, 0, 0, 0, 1⟩, [⟨.ofText "\\.cs".toList, .failed "\t\x01".toList⟩]⟩

theorem document_quotedReport :
    ∃ value value', quotedReport.encode? = some value ∧
      encode? ⟨[⟨[0xC3, 0xA9, 0x22]⟩], ⟨1, 0, 0, 0, 0, 1⟩,
        [⟨⟨[0x5C, 0x2E, 0x63, 0x73]⟩, .failed ['\t', '\x01']⟩]⟩ = some value' ∧
      value.pretty = value'.pretty ∧ quotedReport.roots = [⟨[0xC3, 0xA9, 0x22]⟩] := by
  have hvalue : quotedReport.encode? = some (.object
      [("roots".toList, .array [.text "é\"".toList]),
        ("summary".toList, encodeSummary ⟨1, 0, 0, 0, 0, 1⟩),
        ("files".toList, .array [.object [("path".toList, .text "\\.cs".toList),
          ("status".toList, .text "failed".toList), ("error".toList, .text "\t\x01".toList)]])]) := by
    rw [encode?, quotedReport, List.mapM_cons, List.mapM_cons, encodePath?_ofText, encodeFile?,
      encodePath?_ofText]
    rfl
  exact ⟨_, _, hvalue, hvalue, rfl,
    (document_determines_report.2.1 quotedReport _ _ _ hvalue hvalue rfl).1⟩

end Report

end Provenance
