import Provenance.Text.Basic

/-!
One text with two kinds of line breaks. Carriage returns are put in front of some line feeds of a text
that has none, or in front of all. Both texts can be read side by side: they go on with the same
character, or with a line feed and a carriage return in front of it.
-/
namespace Provenance

namespace Text

/-- The text with a carriage return in front of every line feed. -/
def withReturns : Text → Text
  | [] => []
  | c :: t => if c = '\n' then '\r' :: '\n' :: withReturns t else c :: withReturns t

/-- The text with every carriage return in front of a line feed taken away. -/
def toLineFeeds : Text → Text
  | [] => []
  | '\r' :: '\n' :: t => '\n' :: toLineFeeds t
  | c :: t => c :: toLineFeeds t

/-- The text without any carriage return. -/
def withoutReturns (t : Text) : Text := t.filter (· != '\r')

end Text

/-- The second text is the first one with carriage returns in front of some of its line feeds. -/
inductive SameLines : Text → Text → Prop
  | nil : SameLines [] []
  | same {c : Char} {t t' : Text} : c ≠ '\r' → SameLines t t' → SameLines (c :: t) (c :: t')
  | returned {t t' : Text} : SameLines t t' → SameLines ('\n' :: t) ('\r' :: '\n' :: t')

variable {c : Char} {t t' u : Text} {p : Char → Bool}

namespace SameLines

theorem withReturns (h : '\r' ∉ t) : SameLines t t.withReturns := by
  induction t with
  | nil => exact nil
  | cons c t ih =>
    have htail := ih fun hmem => h (List.mem_cons_of_mem c hmem)
    rw [Text.withReturns]
    split
    · next hfeed =>
      subst hfeed
      exact returned htail
    · exact same (fun hreturn => h (hreturn ▸ List.mem_cons_self)) htail

theorem withoutReturns_eq (h : SameLines t t') : t'.withoutReturns = t := by
  induction h with
  | nil => rfl
  | same hc h ih =>
    rw [Text.withoutReturns, List.filter_cons_of_pos (by simpa using hc)]
    exact congrArg _ ih
  | returned h ih =>
    rw [Text.withoutReturns, List.filter_cons_of_neg (by decide),
      List.filter_cons_of_pos (by decide)]
    exact congrArg _ ih

theorem toLineFeeds_eq (h : SameLines t t') : t'.toLineFeeds = t := by
  induction h with
  | nil => rfl
  | same hc h ih =>
    rw [Text.toLineFeeds, ih]
    rintro u rfl
    exact absurd rfl hc
  | returned h ih => rw [Text.toLineFeeds, ih]

/-- A text of one line is written in one way only. -/
theorem eq_of_notMem (h : SameLines t t') (hline : '\n' ∉ t) : t' = t := by
  induction h with
  | nil => rfl
  | same hc h ih => rw [ih fun hmem => hline (List.mem_cons_of_mem _ hmem)]
  | returned h ih => exact absurd List.mem_cons_self hline

theorem return_notMem (h : SameLines t t') : '\r' ∉ t := by
  induction h with
  | nil => nofun
  | same hc h ih =>
    intro hmem
    rcases List.mem_cons.mp hmem with heq | hmem
    · exact hc heq.symm
    · exact ih hmem
  | returned h ih =>
    intro hmem
    rcases List.mem_cons.mp hmem with heq | hmem
    · cases heq
    · exact ih hmem

theorem head?_cases (h : SameLines t t') :
    t'.head? = t.head? ∨ t.head? = some '\n' ∧ t'.head? = some '\r' := by
  cases h with
  | nil => exact Or.inl rfl
  | same hc h => exact Or.inl rfl
  | returned h => exact Or.inr ⟨rfl, rfl⟩

theorem head?_eq_some_iff (h : SameLines t t') (hfeed : c ≠ '\n') (hreturn : c ≠ '\r') :
    t'.head? = some c ↔ t.head? = some c := by
  rcases h.head?_cases with heq | ⟨heq, heq'⟩
  · rw [heq]
  · rw [heq, heq', Option.some.injEq, Option.some.injEq]
    exact ⟨fun hc => absurd hc.symm hreturn, fun hc => absurd hc.symm hfeed⟩

/-- What comes behind any place of the second text has the same lines without its returns. -/
theorem drop_right (h : SameLines t t') (n : Nat) :
    SameLines (Text.withoutReturns (t'.drop n)) (t'.drop n) := by
  induction h generalizing n with
  | nil =>
    rw [List.drop_nil]
    exact nil
  | same hc h ih =>
    cases n with
    | zero =>
      rw [List.drop_zero, (same hc h).withoutReturns_eq]
      exact same hc h
    | succ n => exact ih n
  | returned h ih =>
    cases n with
    | zero =>
      rw [List.drop_zero, h.returned.withoutReturns_eq]
      exact h.returned
    | succ n =>
      cases n with
      | zero =>
        have hfeed := same (show '\n' ≠ '\r' by decide) h
        rw [List.drop_succ_cons, List.drop_zero, hfeed.withoutReturns_eq]
        exact hfeed
      | succ n => exact ih n

/-- So has what the second text begins with, unless it is cut in front of a line feed. -/
theorem of_isPrefix (h : SameLines t t') (hu : u <+: t') (hlast : u.getLast? ≠ some '\r') :
    SameLines (Text.withoutReturns u) u := by
  induction h generalizing u with
  | nil =>
    rw [List.prefix_nil.mp hu]
    exact nil
  | @same c t t' hc h ih =>
    rcases List.prefix_cons_iff.mp hu with rfl | ⟨v, rfl, hv⟩
    · exact nil
    · have htail := same hc (ih hv fun hv => hlast (by rw [List.getLast?_cons, hv]; rfl))
      rw [htail.withoutReturns_eq]
      exact htail
  | @returned t t' h ih =>
    rcases List.prefix_cons_iff.mp hu with rfl | ⟨v, rfl, hv⟩
    · exact nil
    · rcases List.prefix_cons_iff.mp hv with rfl | ⟨w, rfl, hw⟩
      · exact absurd rfl hlast
      · have htail := (ih hw fun hw => hlast (by
          rw [List.getLast?_cons, List.getLast?_cons, hw]; rfl)).returned
        rw [htail.withoutReturns_eq]
        exact htail

end SameLines

theorem withoutReturns_append (t u : Text) :
    Text.withoutReturns (t ++ u) = t.withoutReturns ++ u.withoutReturns :=
  List.filter_append ..

theorem withoutReturns_of_notMem (h : '\r' ∉ t) : t.withoutReturns = t := by
  rw [Text.withoutReturns, List.filter_eq_self]
  intro c hc
  exact bne_iff_ne.mpr fun hreturn => h (hreturn ▸ hc)

/-- Where the rule for what is trimmed covers carriage returns, they can be taken away before or
after. -/
theorem trimEnd_withoutReturns (hp : p '\r' = true) (t : Text) :
    (Text.withoutReturns t).trimEnd p = Text.withoutReturns (t.trimEnd p) := by
  have hdrop : ∀ u : Text, (Text.withoutReturns u).dropWhile p =
      Text.withoutReturns (u.dropWhile p) := by
    intro u
    induction u with
    | nil => rfl
    | cons c u ih =>
      by_cases hc : c = '\r'
      · subst hc
        rw [Text.withoutReturns, List.filter_cons_of_neg (by decide), List.dropWhile_cons_of_pos hp]
        exact ih
      · have hcons : Text.withoutReturns (c :: u) = c :: Text.withoutReturns u :=
          List.filter_cons_of_pos (by simpa using hc)
        rw [hcons, List.dropWhile_cons, List.dropWhile_cons]
        split
        · exact ih
        · exact hcons.symm
  have hreverse : (Text.withoutReturns t).reverse = Text.withoutReturns t.reverse :=
    (List.filter_reverse ..).symm
  rw [Text.trimEnd, Text.trimEnd, hreverse, hdrop]
  exact (List.filter_reverse ..).symm

end Provenance
