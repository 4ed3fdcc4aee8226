import Provenance.Disk
import Provenance.Proofs.Path.Spelling

/-!
File systems that follow a path step by step. Two spellings of a path are followed alike, as far as
both can be looked up at all: one may be too long, and one may go on behind the name of a file, where
only a directory may be followed by a separator. A file system is taken to keep to that, and one that
is held in memory does.
-/
namespace Provenance

/-- What spellings of one path have in common. -/
structure FileSystem.Stepwise (fs : FileSystem) : Prop where
  /-- Where two spellings of a path lead somewhere, they lead to the same object. -/
  object_eq : ∀ {p q : Path} {object object' : Object}, p.components = q.components →
    fs p = .ok object → fs q = .ok object' → object = object'
  /-- Where two of them end in their name and can be looked up, they also fail for one reason. -/
  eq_of_named : ∀ {p q : Path} {name other : FileName}, p.components = q.components →
    p.EndsIn name → q.EndsIn other → p.bytes.length ≤ maxPath → q.bytes.length ≤ maxPath →
    fs p = fs q
  /-- Nothing follows the name of a file. -/
  endsIn_of_file : ∀ {p : Path} {modified : Instant} {content : Except Obstacle Bytes},
    fs p = .ok (.file modified content) → ∃ name, p.EndsIn name
  /-- What is too long leads nowhere. -/
  length_le : ∀ {p : Path} {object : Object}, fs p = .ok object → p.bytes.length ≤ maxPath

namespace Disk

/-- The steps that stretches of a path stand for. -/
def stepsOf (stretches : List Bytes) : List Component :=
  stretches.filterMap Component.ofStretch?

/-- The last stretch stands for a step. -/
def EndsInStep (stretches : List Bytes) : Prop :=
  ∀ last, stretches.getLast? = some last → (Component.ofStretch? last).isSome = true

section

variable {links : Nat} {modified : Instant} {here : Listing} {above : List (Instant × Listing)}
  {stretch : Bytes} {rest : List Bytes}

theorem follow_blank (h : Component.ofStretch? stretch = none) :
    follow links modified here above (stretch :: rest) = follow links modified here above rest := by
  rw [follow.eq_def]
  simp only [h]

theorem follow_blanks {blanks : List Bytes} (h : ∀ b ∈ blanks, Component.ofStretch? b = none) :
    follow links modified here above (blanks ++ rest) = follow links modified here above rest := by
  induction blanks with
  | nil => rfl
  | cons first blanks ih =>
    rw [List.cons_append, follow_blank (h first List.mem_cons_self),
      ih fun b hb => h b (List.mem_cons_of_mem _ hb)]

theorem follow_up (h : Component.ofStretch? stretch = some .up) :
    follow links modified here above (stretch :: rest) =
      match above with
      | [] => .error .missing
      | (outerModified, outer) :: above => follow links outerModified outer above rest := by
  rw [follow.eq_def]
  simp only [h]
  cases above <;> rfl

theorem follow_name {name : FileName} (h : Component.ofStretch? stretch = some (.name name)) :
    follow links modified here above (stretch :: rest) =
      if maxName < name.bytes.length then .error .nameTooLong
      else match Listing.find? here name with
        | none => .error .missing
        | some (.file changed content) =>
          if rest = [] then .ok (.file changed (.ok content)) else .error .notDirectory
        | some (.directory changed entries) =>
          follow links changed entries ((modified, here) :: above) rest
        | some (.link target) =>
          match links with
          | 0 => .error .linkLoop
          | links + 1 =>
            if target.bytes.head? = some separator then .error .missing
            else follow links modified here above (target.stretches ++ rest) := by
  rw [follow.eq_def]
  simp only [h]
  rfl

end

theorem ofStretch?_eq_up_or_name {stretch : Bytes} {step : Component}
    (h : Component.ofStretch? stretch = some step) : step = .up ∨ ∃ name, step = .name name := by
  rw [Component.ofStretch?] at h
  split at h
  · exact Or.inl (Option.some.inj h).symm
  · obtain ⟨name, -, rfl⟩ := Option.map_eq_some_iff.mp h
    exact Or.inr ⟨name, rfl⟩

/-- Stretches that end in a step are empty or have a step. -/
theorem EndsInStep.stepsOf_ne_nil {ss : List Bytes} (h : EndsInStep ss) (hne : ss ≠ []) :
    stepsOf ss ≠ [] := by
  obtain ⟨others, last, rfl⟩ := List.eq_nil_or_concat ss |>.resolve_left hne
  obtain ⟨step, hstep⟩ := Option.isSome_iff_exists.mp (h last (by simp))
  rw [stepsOf, List.concat_eq_append, List.filterMap_append]
  simp [hstep]

theorem EndsInStep.of_append {before after : List Bytes} (h : EndsInStep (before ++ after)) :
    EndsInStep after := by
  intro last hlast
  apply h
  rw [List.getLast?_append, hlast]
  rfl

theorem EndsInStep.tail {stretch : Bytes} {rest : List Bytes} (h : EndsInStep (stretch :: rest)) :
    EndsInStep rest :=
  EndsInStep.of_append (show EndsInStep ([stretch] ++ rest) from h)

theorem EndsInStep.append {after : List Bytes} (h : EndsInStep after) (hne : after ≠ [])
    (before : List Bytes) : EndsInStep (before ++ after) := by
  intro last hlast
  apply h
  rw [List.getLast?_append, List.getLast?_eq_some_getLast hne] at hlast
  rw [List.getLast?_eq_some_getLast hne]
  exact hlast

theorem stepsOf_append (before after : List Bytes) :
    stepsOf (before ++ after) = stepsOf before ++ stepsOf after :=
  List.filterMap_append

/-- Both rows of stretches end in a step, or both lead somewhere. -/
def Comparable (links : Nat) (modified : Instant) (here : Listing)
    (above : List (Instant × Listing)) (ss ss' : List Bytes) : Prop :=
  (EndsInStep ss ∧ EndsInStep ss') ∨
    (∃ object, follow links modified here above ss = .ok object) ∧
      ∃ object, follow links modified here above ss' = .ok object

/-- With so many links, comparable rows of stretches with the same steps are followed alike. -/
def FollowsAlike (links : Nat) : Prop :=
  ∀ {ss ss' : List Bytes} {modified : Instant} {here : Listing} {above : List (Instant × Listing)},
    stepsOf ss = stepsOf ss' → Comparable links modified here above ss ss' →
    follow links modified here above ss = follow links modified here above ss'

section

variable {links : Nat} {modified : Instant} {here : Listing} {above : List (Instant × Listing)}
  {stretch stretch' : Bytes} {rest rest' : List Bytes}

/-- Behind a name in which both rows end, or which is a file in both, stands nothing in both. -/
theorem eq_nil_iff_of_endsInStep (h : EndsInStep rest) (h' : EndsInStep rest')
    (hsteps : stepsOf rest = stepsOf rest') : rest = [] ↔ rest' = [] := by
  constructor
  · intro hnil
    by_contra hne
    rw [hnil] at hsteps
    exact h'.stepsOf_ne_nil hne hsteps.symm
  · intro hnil
    by_contra hne
    rw [hnil] at hsteps
    exact h.stepsOf_ne_nil hne hsteps

/-- A step upwards is taken by both rows. -/
theorem follow_up_congr (hstep : Component.ofStretch? stretch = some .up)
    (hstep' : Component.ofStretch? stretch' = some .up)
    (hends : Comparable links modified here above (stretch :: rest) (stretch' :: rest'))
    (ih : ∀ {modified here above}, Comparable links modified here above rest rest' →
      follow links modified here above rest = follow links modified here above rest') :
    follow links modified here above (stretch :: rest) =
      follow links modified here above (stretch' :: rest') := by
  rw [Comparable, follow_up hstep, follow_up hstep'] at hends
  rw [follow_up hstep, follow_up hstep']
  cases above with
  | nil => rfl
  | cons outer above =>
    apply ih
    rcases hends with ⟨hend, hend'⟩ | hleads
    · exact Or.inl ⟨hend.tail, hend'.tail⟩
    · exact Or.inr hleads

/-- A step to a name is taken by both rows, into a directory or along a link. -/
theorem follow_name_congr {name : FileName}
    (hstep : Component.ofStretch? stretch = some (.name name))
    (hstep' : Component.ofStretch? stretch' = some (.name name))
    (hsteps : stepsOf rest = stepsOf rest')
    (hends : Comparable links modified here above (stretch :: rest) (stretch' :: rest'))
    (hlinks : ∀ fewer < links, FollowsAlike fewer)
    (ih : ∀ {modified here above}, Comparable links modified here above rest rest' →
      follow links modified here above rest = follow links modified here above rest') :
    follow links modified here above (stretch :: rest) =
      follow links modified here above (stretch' :: rest') := by
  rw [Comparable, follow_name hstep, follow_name hstep'] at hends
  rw [follow_name hstep, follow_name hstep']
  by_cases hlong : maxName < name.bytes.length
  · rw [if_pos hlong, if_pos hlong]
  · simp only [if_neg hlong] at hends ⊢
    have hbehind (h : EndsInStep (stretch :: rest) ∧ EndsInStep (stretch' :: rest')) :
        EndsInStep rest ∧ EndsInStep rest' :=
      ⟨h.1.tail, h.2.tail⟩
    cases hfound : Listing.find? here name with
    | none => rfl
    | some entry =>
      simp only [hfound] at hends
      cases entry with
      | file changed content =>
        dsimp only at hends ⊢
        have hiff : rest = [] ↔ rest' = [] := by
          rcases hends with hend | ⟨⟨object, hobject⟩, object', hobject'⟩
          · exact eq_nil_iff_of_endsInStep (hbehind hend).1 (hbehind hend).2 hsteps
          · have hnil : rest = [] := by
              by_contra hne
              rw [if_neg hne] at hobject
              cases hobject
            have hnil' : rest' = [] := by
              by_contra hne
              rw [if_neg hne] at hobject'
              cases hobject'
            exact ⟨fun _ => hnil', fun _ => hnil⟩
        exact if_congr hiff rfl rfl
      | directory changed entries =>
        exact ih (hends.imp_left hbehind)
      | link target =>
        cases links with
        | zero => rfl
        | succ links =>
          simp only at hends ⊢
          split
          · rfl
          · next habsolute =>
            simp only [if_neg habsolute] at hends
            have htarget : stepsOf (target.stretches ++ rest) =
                stepsOf (target.stretches ++ rest') := by
              rw [stepsOf_append, stepsOf_append, hsteps]
            rcases hends with hend | hleads
            · obtain ⟨hrest, hrest'⟩ := hbehind hend
              have hiff := eq_nil_iff_of_endsInStep hrest hrest' hsteps
              by_cases hnil : rest = []
              · rw [hnil, hiff.mp hnil]
              · apply hlinks links (Nat.lt_succ_self links) htarget
                exact Or.inl ⟨hrest.append hnil _, hrest'.append (mt hiff.mpr hnil) _⟩
            · exact hlinks links (Nat.lt_succ_self links) htarget (Or.inr hleads)

end

theorem followsAlike (links : Nat) : FollowsAlike links := by
  induction links using Nat.strong_induction_on with
  | _ links hlinks =>
    intro ss
    induction ss with
    | nil =>
      intro ss' modified here above hsteps _
      have hblank : ∀ b ∈ ss', Component.ofStretch? b = none :=
        List.filterMap_eq_nil_iff.mp hsteps.symm
      rw [← List.append_nil ss', follow_blanks hblank]
    | cons stretch rest ih =>
      intro ss' modified here above hsteps hends
      cases hstep : Component.ofStretch? stretch with
      | none =>
        have hrest : stepsOf rest = stepsOf ss' := by
          rw [← hsteps, stepsOf, stepsOf, List.filterMap_cons_none hstep]
        rw [Comparable, follow_blank hstep] at hends
        rw [follow_blank hstep]
        apply ih hrest
        exact hends.imp_left fun h => ⟨h.1.tail, h.2⟩
      | some step =>
        rw [stepsOf, List.filterMap_cons_some hstep] at hsteps
        obtain ⟨blanks, stretch', rest', rfl, hblanks, hstep', hrest⟩ :=
          List.filterMap_eq_cons_iff.mp hsteps.symm
        have hends' : Comparable links modified here above (stretch :: rest)
            (stretch' :: rest') := by
          rw [Comparable, follow_blanks hblanks] at hends
          exact hends.imp_left fun h => ⟨h.1, h.2.of_append⟩
        rw [follow_blanks hblanks]
        rcases ofStretch?_eq_up_or_name hstep with rfl | ⟨name, rfl⟩
        · exact follow_up_congr hstep hstep' hends' fun h => ih hrest.symm h
        · exact follow_name_congr hstep hstep' hrest.symm hends' hlinks fun h => ih hrest.symm h

theorem eq_bytes_of_ofStretch? {stretch : Bytes} {name : FileName}
    (h : Component.ofStretch? stretch = some (.name name)) : stretch = name.bytes := by
  rw [Component.ofStretch?] at h
  split at h
  · cases h
  · obtain ⟨found, hfound, heq⟩ := Option.map_eq_some_iff.mp h
    rw [FileName.ofBytes?] at hfound
    split at hfound
    · rw [← Component.name.inj heq, ← Option.some.inj hfound]
    · cases hfound

/-- What leads to a file ends in a name. -/
theorem exists_getLast?_of_file {links : Nat} {ss : List Bytes} {modified changed : Instant}
    {here : Listing} {above : List (Instant × Listing)} {content : Except Obstacle Bytes}
    (h : follow links modified here above ss = .ok (.file changed content)) :
    ∃ name : FileName, ss.getLast? = some name.bytes := by
  have hcons {stretch : Bytes} {rest : List Bytes}
      (hrest : ∃ name : FileName, rest.getLast? = some name.bytes) :
      ∃ name : FileName, (stretch :: rest).getLast? = some name.bytes := by
    obtain ⟨name, hname⟩ := hrest
    rw [List.getLast?_cons, hname]
    exact ⟨name, rfl⟩
  fun_induction follow links modified here above ss
  case case3 ih => exact hcons (ih h)
  case case6 name hstep _ _ _ _ => exact ⟨name, congrArg some (eq_bytes_of_ofStretch? hstep)⟩
  case case8 ih => exact hcons (ih h)
  case case11 rest name hstep _ _ _ _ _ ih =>
    by_cases hnil : rest = []
    · subst hnil
      exact ⟨name, congrArg some (eq_bytes_of_ofStretch? hstep)⟩
    · obtain ⟨last, hlast⟩ := ih h
      rw [List.getLast?_append, List.getLast?_eq_some_getLast hnil] at hlast
      apply hcons
      rw [List.getLast?_eq_some_getLast hnil]
      exact ⟨last, hlast⟩
  case case12 ih => exact hcons (ih h)
  case case13 ih => exact hcons (ih h)
  case case14 ih => exact hcons (ih h)
  all_goals cases h

end Disk

namespace Path

/-- Whether a step is one that a stretch stands for wherever it is. -/
def isStep : Component → Bool
  | .top | .here => false
  | .up | .name _ => true

/-- The steps can be told from the front of a path. -/
theorem filter_isStep_components (p : Path) :
    p.components.filter isStep = Disk.stepsOf p.stretches := by
  have hfront : ∀ step ∈ front p.stretches, isStep step = false := by
    intro step hstep
    unfold front at hstep
    split at hstep
    · rw [List.mem_singleton.mp hstep]
      rfl
    · split at hstep
      · rw [List.mem_singleton.mp hstep]
        rfl
      · cases hstep
    · cases hstep
  have hsteps : ∀ step ∈ Disk.stepsOf p.stretches, isStep step = true := by
    intro step hstep
    obtain ⟨stretch, -, hstretch⟩ := List.mem_filterMap.mp hstep
    rcases Disk.ofStretch?_eq_up_or_name hstretch with rfl | ⟨name, rfl⟩
    · rfl
    · rfl
  have hnone : (front p.stretches).filter isStep = [] := by
    apply List.filter_eq_nil_iff.mpr
    intro step hstep
    rw [hfront step hstep]
    exact Bool.false_ne_true
  rw [components, List.filter_append, hnone, List.nil_append]
  exact List.filter_eq_self.mpr hsteps

theorem stepsOf_of_components {p q : Path} (h : p.components = q.components) :
    Disk.stepsOf p.stretches = Disk.stepsOf q.stretches := by
  rw [← filter_isStep_components, ← filter_isStep_components, h]

/-- A stretch stands for a step unless it is empty or a single dot. -/
theorem exists_ofStretch? {stretch : Bytes} (hnil : stretch ≠ []) (hdot : stretch ≠ [dot])
    (hfree : separator ∉ stretch) : ∃ step, Component.ofStretch? stretch = some step := by
  rw [Component.ofStretch?]
  by_cases hdots : stretch = [dot, dot]
  · rw [if_pos hdots]
    exact ⟨_, rfl⟩
  · have hordinary : isOrdinaryName stretch = true := by
      simp only [isOrdinaryName, Bool.and_eq_true, bne_iff_ne, Bool.not_eq_true',
        List.contains_eq_mem, decide_eq_false_iff_not]
      exact ⟨⟨⟨hnil, hdot⟩, hdots⟩, hfree⟩
    rw [if_neg hdots, FileName.ofBytes?, dif_pos hordinary]
    exact ⟨_, rfl⟩

theorem separator_notMem_of_mem_stretches {p : Path} {stretch : Bytes}
    (h : stretch ∈ p.stretches) : separator ∉ stretch := by
  intro hmem
  have hfree := sep_eq_false_of_mem_splitWhere h hmem
  rw [beq_self_eq_true] at hfree
  cases hfree

/-- Whether a path is empty or begins at the top can be told from its components. -/
theorem absent_iff (p : Path) :
    (p.bytes = [] ∨ p.bytes.head? = some separator) ↔
      (p.components = [] ∨ p.components.head? = some .top) := by
  obtain ⟨bytes⟩ := p
  cases bytes with
  | nil => exact iff_of_true (Or.inl rfl) (Or.inl rfl)
  | cons b bytes =>
    have hrest := splitWhere_ne_nil (· == separator) bytes
    obtain ⟨first, others, hsplit⟩ := List.exists_cons_of_ne_nil hrest
    by_cases hb : b = separator
    · have hstretches : stretches ⟨b :: bytes⟩ = [] :: first :: others := by
        rw [stretches, splitWhere, hsplit, if_pos (beq_iff_eq.mpr hb)]
      apply iff_of_true
      · exact Or.inr (congrArg some hb)
      · rw [components, hstretches]
        exact Or.inr rfl
    · have hstretches : stretches ⟨b :: bytes⟩ = (b :: first) :: others := by
        rw [stretches, splitWhere, hsplit, if_neg (mt beq_iff_eq.mp hb)]
      have hfree := separator_notMem_of_mem_stretches (hstretches ▸ List.mem_cons_self)
      apply iff_of_false
      · rintro (hnil | hhead)
        · cases hnil
        · exact hb (Option.some.inj hhead)
      · rw [components, hstretches, front]
        · by_cases hdot : b :: first = [dot]
          · rw [if_pos hdot]
            rintro (hnil | htop)
            · cases hnil
            · cases htop
          · obtain ⟨step, hstep⟩ := exists_ofStretch? (List.cons_ne_nil b first) hdot hfree
            rw [if_neg hdot, List.nil_append, List.filterMap_cons_some hstep]
            rintro (hnil | htop)
            · cases hnil
            · rcases Disk.ofStretch?_eq_up_or_name hstep with rfl | ⟨name, rfl⟩
              · cases htop
              · cases htop
        · intro _ _ h
          cases h

theorem mem_joinWith_iff {α : Type} {glue a : α} (ha : a ≠ glue) (parts : List (List α)) :
    a ∈ joinWith [glue] parts ↔ ∃ part ∈ parts, a ∈ part := by
  induction parts with
  | nil => simp [joinWith]
  | cons first others ih =>
    cases others with
    | nil => simp [joinWith]
    | cons second others => simp [joinWith, ih, ha]

/-- So can whether a zero occurs. -/
theorem contains_zero_iff (p : Path) :
    p.bytes.contains 0 = true ↔ ∃ name, .name name ∈ p.components ∧ 0 ∈ name.bytes := by
  have hjoined := joinWith_splitWhere separator p.bytes
  rw [List.contains_iff_mem, ← hjoined, mem_joinWith_iff (by decide)]
  constructor
  · rintro ⟨stretch, hstretch, hzero⟩
    have hfree := separator_notMem_of_mem_stretches (p := p) hstretch
    have hne (other : Bytes) (h : 0 ∉ other) : stretch ≠ other := fun heq => h (heq ▸ hzero)
    obtain ⟨step, hstep⟩ := exists_ofStretch? (hne [] nofun) (hne [dot] (by decide)) hfree
    have hmem : step ∈ p.components :=
      List.mem_append_right _ (List.mem_filterMap.mpr ⟨stretch, hstretch, hstep⟩)
    rcases Disk.ofStretch?_eq_up_or_name hstep with rfl | ⟨name, rfl⟩
    · rw [Component.ofStretch?, if_neg (hne [dot, dot] (by decide))] at hstep
      obtain ⟨name, -, heq⟩ := Option.map_eq_some_iff.mp hstep
      cases heq
    · exact ⟨name, hmem, Disk.eq_bytes_of_ofStretch? hstep ▸ hzero⟩
  · rintro ⟨name, hname, hzero⟩
    have hstep : .name name ∈ p.components.filter isStep :=
      List.mem_filter.mpr ⟨hname, rfl⟩
    rw [filter_isStep_components] at hstep
    obtain ⟨stretch, hstretch, hof⟩ := List.mem_filterMap.mp hstep
    exact ⟨stretch, hstretch, Disk.eq_bytes_of_ofStretch? hof ▸ hzero⟩

end Path

namespace Disk

variable {d : Disk} {p q : Path}

theorem follow_of_view {object : Object} (h : d.view p = .ok object) :
    p.bytes.length ≤ FileSystem.maxPath ∧
      follow maxLinks ⟨0⟩ d.entries [] p.stretches = .ok object := by
  rw [view] at h
  split at h
  · cases h
  · split at h
    · cases h
    · next hlong =>
      split at h
      · cases h
      · exact ⟨Nat.le_of_not_lt hlong, h⟩

theorem endsInStep_of_endsIn {name : FileName} (h : p.EndsIn name) : EndsInStep p.stretches := by
  intro last hlast
  rw [h] at hlast
  rw [← Option.some.inj hlast, Component.ofStretch?_bytes]
  rfl

/-- Following paths from a directory in memory keeps to their steps. -/
theorem stepwise_view (d : Disk) : d.view.Stepwise where
  object_eq hsame hobject hobject' := by
    have hfollow := (follow_of_view hobject).2
    have hfollow' := (follow_of_view hobject').2
    have heq := followsAlike maxLinks (Path.stepsOf_of_components hsame)
      (Or.inr ⟨⟨_, hfollow⟩, _, hfollow'⟩)
    rw [hfollow, hfollow'] at heq
    exact Except.ok.inj heq
  eq_of_named {p q name other} hsame hname hother hlength hlength' := by
    have hzero : p.bytes.contains 0 = q.bytes.contains 0 := by
      rw [Bool.eq_iff_iff, Path.contains_zero_iff, Path.contains_zero_iff, hsame]
    have habsent : (p.bytes = [] ∨ p.bytes.head? = some separator) ↔
        (q.bytes = [] ∨ q.bytes.head? = some separator) := by
      rw [Path.absent_iff, Path.absent_iff, hsame]
    have hfollow : follow maxLinks ⟨0⟩ d.entries [] p.stretches =
        follow maxLinks ⟨0⟩ d.entries [] q.stretches :=
      followsAlike maxLinks (Path.stepsOf_of_components hsame)
        (Or.inl ⟨endsInStep_of_endsIn hname, endsInStep_of_endsIn hother⟩)
    rw [view, view, hzero, if_neg (Nat.not_lt.mpr hlength), if_neg (Nat.not_lt.mpr hlength'),
      hfollow]
    simp only [habsent]
  endsIn_of_file hfile := exists_getLast?_of_file (follow_of_view hfile).2
  length_le hobject := (follow_of_view hobject).1

end Disk

end Provenance
