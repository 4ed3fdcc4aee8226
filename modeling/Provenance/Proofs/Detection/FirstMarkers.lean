import Provenance.Proofs.Detection.EntryPoints

/-!
Which marker is found. A marker counts if it is a whole plain comment with at most one other plain
comment in front of it, which is no marker itself. Items of the other kind do not matter, whatever
their text is and wherever they stand, and neither does anything behind the second plain comment.
-/
namespace Provenance.Marker

variable {items items' : List Trivia} {m : Text}

def isComment (t : Trivia) : Bool := t.kind == .singleLine

/-- The marker among the first `n` plain comments. -/
def findWithin? (n : Nat) (items : List Trivia) : Option Text :=
  ((items.filter isComment).take n).findSome? fun t => ofText? t.text

theorem find?_eq_findWithin? (items : List Trivia) : find? items = findWithin? 2 items := rfl

/-- Fewer than `n` plain comments stand in front of the marker, and none of them is a marker. -/
def Leads (n : Nat) (items : List Trivia) (m : Text) : Prop :=
  m ∈ known ∧ ∃ before after, items = before ++ .singleLine m :: after ∧
    before.countP isComment < n ∧ ∀ t ∈ before, t.kind = .singleLine → t.text ∉ known

theorem not_leads_zero : ¬Leads 0 items m := by
  rintro ⟨-, before, after, -, hcount, -⟩
  exact Nat.not_lt_zero _ hcount

theorem not_leads_nil {n : Nat} : ¬Leads n [] m := by
  rintro ⟨-, before, after, hitems, -⟩
  cases before <;> cases hitems

/-- What stands in front of all plain comments does not count. -/
theorem leads_cons_other {n : Nat} {t : Trivia} (ht : t.kind ≠ .singleLine) :
    Leads n (t :: items) m ↔ Leads n items m := by
  have hcount : isComment t = false := beq_eq_false_iff_ne.mpr ht
  constructor
  · rintro ⟨hm, before, after, hitems, hbound, hfree⟩
    cases before with
    | nil =>
      rw [List.nil_append, List.cons.injEq] at hitems
      exact absurd (hitems.1 ▸ rfl) ht
    | cons first before =>
      rw [List.cons_append, List.cons.injEq] at hitems
      obtain ⟨rfl, hitems⟩ := hitems
      rw [List.countP_cons_of_neg (by simp [hcount])] at hbound
      exact ⟨hm, before, after, hitems, hbound, fun u hu => hfree u (List.mem_cons_of_mem _ hu)⟩
  · rintro ⟨hm, before, after, rfl, hbound, hfree⟩
    refine ⟨hm, t :: before, after, rfl, ?_, List.forall_mem_cons.mpr ⟨fun h => absurd h ht, hfree⟩⟩
    rwa [List.countP_cons_of_neg (by simp [hcount])]

/-- A plain comment that is a marker hides all others. -/
theorem leads_cons_known {n : Nat} {text : Text} (htext : text ∈ known) :
    Leads (n + 1) (.singleLine text :: items) m ↔ text = m := by
  constructor
  · rintro ⟨-, before, after, hitems, -, hfree⟩
    cases before with
    | nil =>
      rw [List.nil_append, List.cons.injEq] at hitems
      exact congrArg Trivia.text hitems.1
    | cons first before =>
      rw [List.cons_append, List.cons.injEq] at hitems
      obtain ⟨rfl, -⟩ := hitems
      exact absurd htext (hfree _ List.mem_cons_self rfl)
  · rintro rfl
    exact ⟨htext, [], items, rfl, Nat.succ_pos n, nofun⟩

/-- A plain comment that is no marker uses up one place. -/
theorem leads_cons_comment {n : Nat} {text : Text} (htext : text ∉ known) :
    Leads (n + 1) (.singleLine text :: items) m ↔ Leads n items m := by
  constructor
  · rintro ⟨hm, before, after, hitems, hbound, hfree⟩
    cases before with
    | nil =>
      rw [List.nil_append, List.cons.injEq] at hitems
      have hsame : text = m := congrArg Trivia.text hitems.1
      exact absurd (hsame ▸ hm) htext
    | cons first before =>
      rw [List.cons_append, List.cons.injEq] at hitems
      obtain ⟨rfl, hitems⟩ := hitems
      rw [List.countP_cons_of_pos rfl] at hbound
      exact ⟨hm, before, after, hitems, by omega, fun u hu => hfree u (List.mem_cons_of_mem _ hu)⟩
  · rintro ⟨hm, before, after, rfl, hbound, hfree⟩
    refine ⟨hm, .singleLine text :: before, after, rfl, ?_,
      List.forall_mem_cons.mpr ⟨fun _ => htext, hfree⟩⟩
    rw [List.countP_cons_of_pos rfl]
    omega

theorem findWithin?_eq_some_iff (n : Nat) (items : List Trivia) :
    findWithin? n items = some m ↔ Leads n items m := by
  induction items generalizing n with
  | nil => simp [findWithin?, not_leads_nil]
  | cons t items ih =>
    obtain ⟨kind, text⟩ := t
    cases kind with
    | other =>
      rw [leads_cons_other (by simp), ← ih, findWithin?, findWithin?,
        List.filter_cons_of_neg Bool.false_ne_true]
    | singleLine =>
      rw [findWithin?, List.filter_cons_of_pos rfl]
      cases n with
      | zero => simp [not_leads_zero]
      | succ n =>
        rw [List.take_succ_cons, List.findSome?_cons, ofText?_eq]
        by_cases htext : text ∈ known
        · rw [if_pos htext]
          exact Option.some_inj.trans (leads_cons_known htext).symm
        · rw [if_neg htext]
          exact (ih n).trans (leads_cons_comment htext).symm

/-- The items with some of the other kind put in anywhere. -/
inductive WithOthers : List Trivia → List Trivia → Prop
  | nil : WithOthers [] []
  | keep (t : Trivia) {items items' : List Trivia} (h : WithOthers items items') :
    WithOthers (t :: items) (t :: items')
  | insert (text : Text) {items items' : List Trivia} (h : WithOthers items items') :
    WithOthers items (.other text :: items')

theorem WithOthers.refl (items : List Trivia) : WithOthers items items := by
  induction items with
  | nil => exact .nil
  | cons t items ih => exact .keep t ih

theorem WithOthers.filter_eq (h : WithOthers items items') :
    items'.filter isComment = items.filter isComment := by
  induction h with
  | nil => rfl
  | keep t h ih => rw [List.filter_cons, List.filter_cons, ih]
  | insert text h ih => rw [List.filter_cons_of_neg Bool.false_ne_true, ih]

theorem WithOthers.find?_eq (h : WithOthers items items') : find? items' = find? items := by
  rw [find?_eq_findWithin?, find?_eq_findWithin?, findWithin?, findWithin?, h.filter_eq]

/-- Two plain comments are enough, whatever comes behind them. -/
theorem find?_append_of_two {front : List Trivia} (h : 2 ≤ front.countP isComment)
    (after : List Trivia) : find? (front ++ after) = find? front := by
  rw [List.countP_eq_length_filter] at h
  rw [find?_eq_findWithin?, find?_eq_findWithin?, findWithin?, findWithin?, List.filter_append,
    List.take_append_of_le_length h]

/-- What a parsed file answers decides what the entry points find. -/
structure Decides (items : List Trivia) (unit : Polled (Option (List Trivia))) (signal : Signal) :
    Prop where
  found : (unit.run signal).1 = .ok (some items) →
    ((Detection.findMarker unit).run signal).1 = .ok (find? items) ∧
      ((Detection.isMarked unit).run signal).1 = .ok (find? items).isSome
  /-- Without a first token, or without anything in front of it, no file is generated. -/
  notFound : (unit.run signal).1 = .ok none ∨ (unit.run signal).1 = .ok (some []) →
    ((Detection.findMarker unit).run signal).1 = .ok none ∧
      ((Detection.isMarked unit).run signal).1 = .ok false

theorem decides (items : List Trivia) (unit : Polled (Option (List Trivia))) (signal : Signal) :
    Decides items unit signal := by
  have hfind (answer : Option (List Trivia)) (h : (unit.run signal).1 = .ok answer) :
      ((Detection.findMarker unit).run signal).1 = .ok (answer.bind find?) ∧
        ((Detection.isMarked unit).run signal).1 = .ok (answer.bind find?).isSome := by
    rw [Detection.run_isMarked, Detection.run_findMarker, h]
    exact ⟨rfl, rfl⟩
  constructor
  · exact hfind (some items)
  · rintro (h | h)
    · exact hfind none h
    · exact hfind (some []) h

/-- The marker found among any items is the one that stands as a plain comment with at most one
plain comment in front of it, which is no marker; if there is none nothing is found. Items of the
other kind may be put in anywhere or taken out, and what stands behind the second plain comment may
be anything. This is what the search for a marker in a parsed file comes to. -/
theorem find?_first_two (items : List Trivia) :
    (∀ m, find? items = some m ↔ m ∈ known ∧ ∃ before after,
      items = before ++ .singleLine m :: after ∧ before.countP isComment ≤ 1 ∧
        ∀ t ∈ before, t.kind = .singleLine → t.text ∉ known) ∧
    (find? items = none ↔ ∀ m, ¬Leads 2 items m) ∧
    (∀ items', WithOthers items items' → find? items' = find? items) ∧
    (∀ front after after', items = front ++ after → 2 ≤ front.countP isComment →
      find? (front ++ after') = find? items) ∧
    ∀ unit signal, Decides items unit signal := by
  have hleads : ∀ m, find? items = some m ↔ Leads 2 items m :=
    fun _ => findWithin?_eq_some_iff 2 items
  refine ⟨fun m => ?_, ?_, fun items' => WithOthers.find?_eq, ?_, decides items⟩
  · simp only [hleads, Leads, Nat.lt_succ_iff]
  · simp only [← hleads, Option.eq_none_iff_forall_ne_some, ne_eq]
  · rintro front after after' rfl hcount
    rw [find?_append_of_two hcount, find?_append_of_two hcount]

/-- Two markers behind a plain comment, and items of the other kind. -/
def markersBehindLicence : List Trivia :=
  [.other "// <auto-generated>".toList, .singleLine "// Licence".toList, .other "#pragma x".toList,
    .singleLine "// <autogenerated>".toList, .singleLine "// <auto-generated>".toList]

/-- A parsed file with these items in front of its first token. -/
def answeringMarkers : Polled (Option (List Trivia)) := pure (some markersBehindLicence)

/-- The marker in the last place that counts is found, with another item in front, without what
stands behind it, and in a parsed file. -/
theorem find?_markersBehindLicence :
    find? markersBehindLicence = some "// <autogenerated>".toList ∧
    (WithOthers markersBehindLicence (.other "/* x */".toList :: markersBehindLicence) ∧
      find? (.other "/* x */".toList :: markersBehindLicence) = some "// <autogenerated>".toList) ∧
    (2 ≤ (markersBehindLicence.take 4).countP isComment ∧
      find? (markersBehindLicence.take 4 ++ []) = some "// <autogenerated>".toList) ∧
    ((Detection.findMarker answeringMarkers).run .never).1 =
      .ok (some "// <autogenerated>".toList) := by
  obtain ⟨hfound, -, hothers, hbehind, hdecides⟩ := find?_first_two markersBehindLicence
  have hmarker : find? markersBehindLicence = some "// <autogenerated>".toList :=
    (hfound _).mpr ⟨by decide, markersBehindLicence.take 3, markersBehindLicence.drop 4, rfl,
      by decide, by decide⟩
  have hinserted := WithOthers.insert "/* x */".toList (.refl markersBehindLicence)
  refine ⟨hmarker, ⟨hinserted, (hothers _ hinserted).trans hmarker⟩, ⟨by decide, ?_⟩, ?_⟩
  · exact (hbehind _ (markersBehindLicence.drop 4) [] rfl (by decide)).trans hmarker
  · exact ((hdecides answeringMarkers .never).found rfl).1.trans
      (congrArg Except.ok hmarker)

end Provenance.Marker
