import Provenance.Proofs.Syntax.Lexemes
import Provenance.Proofs.Text.LineBreaks

/-!
The leading trivia of two texts with the same lines. The line that holds a place is, without its
carriage returns, the line that holds the origin of the place; it is a directive line in both texts or
in none, and lines with different starts have different origins. What a piece of trivia is cut out of
may end within a line break, but what is left after trimming does not. So lexemes that have the same
origins give pieces with the same lines.
-/
namespace Provenance

/-- The piece with line feeds alone as line breaks. -/
def Trivia.withLineFeeds (item : Trivia) : Trivia := ⟨item.kind, item.text.toLineFeeds⟩

namespace Syntax

variable {t t' : Text} {n : Nat} {language : Language} {line line' : Line} {l : Lexeme}

/-- The place that a place in the text has without the carriage returns in front of it. -/
def origin (t : Text) (n : Nat) : Nat := (Text.withoutReturns (t.take n)).length

theorem take_origin (h : SameLines t t') (n : Nat) :
    t.take (origin t' n) = Text.withoutReturns (t'.take n) := by
  have hall : t = Text.withoutReturns (t'.take n) ++ Text.withoutReturns (t'.drop n) := by
    rw [← withoutReturns_append, List.take_append_drop, h.withoutReturns_eq]
  rw [hall]
  exact List.take_left

theorem drop_origin (h : SameLines t t') (n : Nat) :
    t.drop (origin t' n) = Text.withoutReturns (t'.drop n) := by
  have hall : t = Text.withoutReturns (t'.take n) ++ Text.withoutReturns (t'.drop n) := by
    rw [← withoutReturns_append, List.take_append_drop, h.withoutReturns_eq]
  rw [hall]
  exact List.drop_left

theorem origin_le (h : SameLines t t') (n : Nat) : origin t' n ≤ t.length := by
  rw [origin, ← take_origin h]
  exact List.length_take_le' ..

/-- Places with nothing but a carriage return between them have one origin. -/
theorem origin_add (t : Text) (n m : Nat) :
    origin t (n + m) = origin t n + (Text.withoutReturns ((t.drop n).take m)).length := by
  rw [origin, List.take_add, withoutReturns_append, List.length_append, origin]

theorem takeWhile_withoutReturns (t : Text) :
    (Text.withoutReturns t).takeWhile (fun c => !(c == '\n')) =
      Text.withoutReturns (t.takeWhile fun c => !(c == '\n')) := by
  have hreturn : (fun c : Char => !(c != '\r') || !(c == '\n')) = fun c => !(c == '\n') := by
    funext c
    by_cases hc : c = '\r'
    · subst hc
      rfl
    · simp [hc]
  rw [Text.withoutReturns, List.takeWhile_filter, hreturn]
  rfl

theorem afterLast_withoutReturns (t : Text) :
    afterLast (· == '\n') (Text.withoutReturns t) =
      Text.withoutReturns (afterLast (· == '\n') t) := by
  have hreverse : (Text.withoutReturns t).reverse = Text.withoutReturns t.reverse :=
    (List.filter_reverse ..).symm
  rw [afterLast, afterLast, hreverse, takeWhile_withoutReturns]
  exact (List.filter_reverse ..).symm

/-- The line without its carriage returns. -/
def originalLine (t : Text) (line : Line) : Line :=
  ⟨origin t line.start, Text.withoutReturns line.text⟩

theorem lineHolding?_origin (h : SameLines t t') (hn : n ≤ t'.length) :
    lineHolding? t (origin t' n) = (lineHolding? t' n).map (originalLine t') := by
  obtain ⟨front, hfront⟩ := exists_append_afterLast (· == '\n') (t'.take n)
  have hlength : n = front.length + (afterLast (· == '\n') (t'.take n)).length := by
    rw [← List.length_append, ← hfront, List.length_take, Nat.min_eq_left hn]
  have htake : t'.take front.length = front := by
    rw [← Nat.min_eq_left (show front.length ≤ n by omega), ← List.take_take, hfront]
    exact List.take_left
  have hstart : origin t' (n - (afterLast (· == '\n') (t'.take n)).length) =
      origin t' n - (Text.withoutReturns (afterLast (· == '\n') (t'.take n))).length := by
    have hfirst : n - (afterLast (· == '\n') (t'.take n)).length = front.length := by omega
    have hwhole : origin t' n = (Text.withoutReturns front).length +
        (Text.withoutReturns (afterLast (· == '\n') (t'.take n))).length := by
      rw [← List.length_append, ← withoutReturns_append, ← hfront, origin]
    rw [hfirst, hwhole, origin, htake, Nat.add_sub_cancel]
  rw [lineHolding?_eq (origin_le h n), lineHolding?_eq hn, take_origin h, drop_origin h,
    afterLast_withoutReturns, takeWhile_withoutReturns, ← withoutReturns_append, Option.map_some,
    originalLine, hstart]

theorem isDirective_originalLine : (originalLine t line).IsDirective ↔ line.IsDirective := by
  have hreturn : (fun c : Char => decide ((c != '\r') = true ∧ (!isWhiteSpace c) = true)) =
      fun c => !isWhiteSpace c := by
    funext c
    by_cases hc : c = '\r'
    · subst hc
      decide
    · simp [hc]
  rw [Line.IsDirective, Line.IsDirective, originalLine, Text.withoutReturns, List.find?_filter,
    hreturn]

theorem directiveHolding?_origin (h : SameLines t t') (hn : n ≤ t'.length) :
    directiveHolding? t (origin t' n) language =
      (directiveHolding? t' n language).map (originalLine t') := by
  rw [directiveHolding?, directiveHolding?, lineHolding?_origin h hn]
  split
  · cases lineHolding? t' n with
    | none => rfl
    | some line =>
      by_cases hdirective : line.IsDirective
      · simp [Option.filter_some, isDirective_originalLine, hdirective]
      · simp [Option.filter_some, isDirective_originalLine, hdirective]
  · rfl

/-- A line that starts later has a line feed in front of it, so it has a later origin. -/
theorem origin_lt_of_start_lt {i j : Nat} (hi : i ≤ t.length) (hj : j ≤ t.length)
    (hline : lineHolding? t i = some line) (hline' : lineHolding? t j = some line')
    (hlt : line.start < line'.start) : origin t line.start < origin t line'.start := by
  have hbegins : line.start ≤ t.length := Nat.le_trans (holds_of_lineHolding? hline).1 hi
  have hbegins' : line'.start ≤ t.length := Nat.le_trans (holds_of_lineHolding? hline').1 hj
  have hself : lineHolding? t line.start = some line :=
    lineHolding?_of_holds (mem_lines hline) ⟨Nat.le_refl _, Nat.le_add_right _ _⟩ hbegins
  have hstop := Line.stop_lt_start (mem_lines hline) (mem_lines hline') hlt
  rw [stop_of_lineHolding? hbegins hself] at hstop
  have hfeed : ((t.drop line.start).take (line'.start - line.start)).any (· == '\n') = true := by
    by_contra hfree
    have hle := le_length_takeWhile (· == '\n')
      (show line'.start - line.start ≤ (t.drop line.start).length by rw [List.length_drop]; omega)
      (Bool.eq_false_iff.mpr hfree)
    omega
  obtain ⟨c, hmem, hc⟩ := List.any_eq_true.mp hfeed
  have hc : c = '\n' := beq_iff_eq.mp hc
  have hpos : 0 < (Text.withoutReturns ((t.drop line.start).take (line'.start - line.start))).length :=
    List.length_pos_of_mem (List.mem_filter.mpr ⟨hmem, by rw [hc]; rfl⟩)
  have hsum : line'.start = line.start + (line'.start - line.start) := by omega
  rw [hsum, origin_add]
  omega

theorem start_eq_of_origin_eq {i j : Nat} (hi : i ≤ t.length) (hj : j ≤ t.length)
    (hline : lineHolding? t i = some line) (hline' : lineHolding? t j = some line')
    (horigin : origin t line.start = origin t line'.start) : line.start = line'.start := by
  rcases Nat.lt_trichotomy line.start line'.start with hlt | heq | hlt
  · exact absurd horigin (Nat.ne_of_lt (origin_lt_of_start_lt hi hj hline hline' hlt))
  · exact heq
  · exact absurd horigin.symm (Nat.ne_of_lt (origin_lt_of_start_lt hj hi hline' hline hlt))

theorem getLast?_trimEnd_ne {p : Char → Bool} {c : Char} (hc : p c = true) (t : Text) :
    (t.trimEnd p).getLast? ≠ some c := by
  intro hlast
  have hnot := List.head?_dropWhile_not p t.reverse
  rw [Text.trimEnd, List.getLast?_reverse] at hlast
  rw [hlast] at hnot
  exact absurd hc (by simp [hnot])

/-- What is trimmed of its carriage returns has the same lines in both texts. -/
theorem sameLines_trimEnd {p : Char → Bool} {u : Text} (h : SameLines t t') (hp : p '\r' = true)
    (hu : u <+: t'.drop n) : SameLines (Text.withoutReturns (u.trimEnd p)) (u.trimEnd p) := by
  obtain ⟨rest, htext, -⟩ := exists_append_trimEnd p u
  have hbegins : u.trimEnd p <+: u := ⟨rest, htext.symm⟩
  exact (h.drop_right n).of_isPrefix (hbegins.trans hu) (getLast?_trimEnd_ne hp u)

/-- The lexeme without the carriage returns in front of it and in it. -/
def Lexeme.original (t : Text) (l : Lexeme) : Lexeme := ⟨l.kind, origin t l.start, origin t l.stop⟩

/-- It covers the text without its carriage returns. -/
theorem slice_original (h : SameLines t t') (hinside : l.start ≤ l.stop) :
    (l.original t').slice t = Text.withoutReturns (l.slice t') := by
  have hwidth : origin t' l.stop - origin t' l.start =
      (Text.withoutReturns (l.slice t')).length := by
    have hsum : origin t' l.stop = origin t' (l.start + (l.stop - l.start)) := by
      rw [Nat.add_sub_cancel' hinside]
    rw [hsum, origin_add, Nat.add_sub_cancel_left, Lexeme.slice]
  have hsplit : Text.withoutReturns (t'.drop l.start) = Text.withoutReturns (l.slice t') ++
      Text.withoutReturns ((t'.drop l.start).drop (l.stop - l.start)) := by
    rw [← withoutReturns_append, Lexeme.slice, List.take_append_drop]
  show (t.drop (origin t' l.start)).take (origin t' l.stop - origin t' l.start) = _
  rw [drop_origin h, hwidth, hsplit]
  exact List.take_left

theorem isDocumentation_cons (c : Char) (t : Text) :
    Trivia.isDocumentation language (c :: t) =
      if c = '/' then decide (t.head? ≠ some '/')
      else decide (c = '!') && Trivia.hasInnerDocs language := by
  by_cases hslash : c = '/'
  · subst hslash
    cases t with
    | nil => rfl
    | cons d t =>
      by_cases hd : d = '/'
      · subst hd
        rfl
      · simp [Trivia.isDocumentation, hd]
  · by_cases hmark : c = '!'
    · subst hmark
      rfl
    · simp [Trivia.isDocumentation, hslash, hmark]

theorem isDocumentation_sameLines (h : SameLines t t') :
    Trivia.isDocumentation language t' = Trivia.isDocumentation language t := by
  cases h with
  | nil => rfl
  | returned h => rfl
  | same hc h =>
    have hslash := h.head?_eq_some_iff (show '/' ≠ '\n' by decide) (by decide)
    rw [isDocumentation_cons, isDocumentation_cons]
    simp only [ne_eq, hslash]

theorem commentKind_cons_cons (c d : Char) (t : Text) :
    Trivia.commentKind (c :: d :: t) language =
      if c = '/' ∧ d = '/' then
        if Trivia.isDocumentation language t then .other else .singleLine
      else .other := by
  by_cases hc : c = '/'
  · by_cases hd : d = '/'
    · subst hc hd
      rfl
    · simp [Trivia.commentKind, hd]
  · simp [Trivia.commentKind, hc]

theorem commentKind_sameLines (h : SameLines t t') :
    Trivia.commentKind t' language = Trivia.commentKind t language := by
  cases h with
  | nil => rfl
  | returned h => rfl
  | same hc h =>
    cases h with
    | nil => rfl
    | same hd h => rw [commentKind_cons_cons, commentKind_cons_cons, isDocumentation_sameLines h]
    | returned h => simp [commentKind_cons_cons]

/-- A lexeme gives the same piece in both texts. -/
theorem toTrivia_original (h : SameLines t t') (hinside : l.start ≤ l.stop) :
    (l.original t').toTrivia t language = (l.toTrivia t' language).withLineFeeds ∧
      SameLines (l.toTrivia t' language).text.toLineFeeds (l.toTrivia t' language).text := by
  have hcut := sameLines_trimEnd (p := fun c => c == '\r' || c == '\n') h rfl
    (List.take_prefix (l.stop - l.start) (t'.drop l.start))
  rw [← Lexeme.slice, ← trimEnd_withoutReturns rfl, ← slice_original h hinside] at hcut
  have hkind : (l.original t').kind = l.kind := rfl
  constructor
  · rw [Trivia.withLineFeeds, Lexeme.text_toTrivia, hcut.toLineFeeds_eq, Lexeme.toTrivia,
      Lexeme.toTrivia, hkind]
    split
    · rw [commentKind_sameLines hcut]
    · rfl
  · rw [Lexeme.text_toTrivia, hcut.toLineFeeds_eq]
    exact hcut

/-- A directive line gives the same piece in both texts. -/
theorem content_originalLine (h : SameLines t t') (hn : n ≤ t'.length)
    (hline : lineHolding? t' n = some line) :
    (originalLine t' line).placed.item = line.placed.item.withLineFeeds ∧
      SameLines line.content.toLineFeeds line.content := by
  have hcut := sameLines_trimEnd (p := (· == '\r')) h rfl (text_prefix_of_lineHolding? hline hn)
  rw [← trimEnd_withoutReturns rfl] at hcut
  have hcontent : (originalLine t' line).content = line.content.toLineFeeds := hcut.toLineFeeds_eq.symm
  refine ⟨congrArg Trivia.other hcontent, ?_⟩
  rw [← hcontent]
  exact hcut

/-- The pieces of lexemes, without carriage returns, are those of the lexemes in the text without them.
Each start that has been noted is one of a line. -/
theorem triviaOf_original {noted : List Nat} {ls : List Lexeme} (h : SameLines t t')
    (hinside : ∀ l ∈ ls, l.start < l.stop ∧ l.stop ≤ t'.length)
    (hnoted : ∀ start ∈ noted, ∃ i ≤ t'.length, ∃ line, lineHolding? t' i = some line ∧
      line.start = start) :
    (Lexeme.triviaOf t language (noted.map (origin t')) (ls.map (·.original t'))).map Placed.item =
      (Lexeme.triviaOf t' language noted ls).map fun placed => placed.item.withLineFeeds := by
  induction ls generalizing noted with
  | nil => rfl
  | cons l ls ih =>
    have hin := hinside l List.mem_cons_self
    have hle : l.start ≤ t'.length := by omega
    have hothers := fun noted : List Nat => @ih noted fun other hother =>
      hinside other (List.mem_cons_of_mem _ hother)
    have hkind : (l.original t').kind = l.kind := rfl
    have hplace : (l.original t').start = origin t' l.start := rfl
    rw [List.map_cons, Lexeme.triviaOf, Lexeme.triviaOf, hkind, hplace, directiveHolding?_origin h hle]
    split
    · cases hline : directiveHolding? t' l.start language with
      | none => exact hothers noted hnoted
      | some line =>
        have hholding := (directiveHolding?_eq_some_iff.mp hline).2.1
        have hsame : origin t' line.start ∈ noted.map (origin t') ↔ line.start ∈ noted := by
          refine ⟨fun hmem => ?_, fun hmem => List.mem_map_of_mem hmem⟩
          obtain ⟨start, hstart, horigin⟩ := List.mem_map.mp hmem
          obtain ⟨j, hj, other, hother, rfl⟩ := hnoted start hstart
          rw [start_eq_of_origin_eq hle hj hholding hother horigin.symm]
          exact hstart
        have hstart : (originalLine t' line).start = origin t' line.start := rfl
        simp only [Option.map_some, hstart, hsame]
        split
        · exact hothers noted hnoted
        · have hnext := hothers (line.start :: noted) fun start hmem => by
            rcases List.mem_cons.mp hmem with rfl | hmem
            · exact ⟨l.start, hle, line, hholding, rfl⟩
            · exact hnoted start hmem
          rw [List.map_cons, List.map_cons, (content_originalLine h hle hholding).1, ← hnext]
          rfl
    · rw [List.map_cons, List.map_cons, hothers noted hnoted]
      exact congrArg (· :: _) (toTrivia_original h (Nat.le_of_lt hin.1)).1

theorem isCode_original (h : SameLines t t') (hle : l.start ≤ t'.length) :
    (l.original t').isCode t language = l.isCode t' language := by
  rw [Lexeme.isCode, Lexeme.isCode, Lexeme.original, directiveHolding?_origin h hle,
    Option.isNone_map]

/-- The leading trivia of both texts are the same but for the carriage returns in them. -/
theorem leadingOf_original {ls : List Lexeme} (h : SameLines t t') (horder : InOrder t' ls) :
    (leadingOf t language (ls.map (·.original t'))).map (fun items => items.map Placed.item) =
      (leadingOf t' language ls).map
        fun items => items.map fun placed => placed.item.withLineFeeds := by
  have hcode : ∀ l ∈ ls, (l.original t').isCode t language = l.isCode t' language := by
    intro l hl
    have hin := horder.inside l hl
    exact isCode_original h (by omega)
  have hfront : (Lexeme.triviaOf t language ([].map (origin t'))
      ((inFront t' language ls).map (·.original t'))).map Placed.item =
      (Lexeme.triviaOf t' language [] (inFront t' language ls)).map
        fun placed => placed.item.withLineFeeds :=
    triviaOf_original h (fun l hl => horder.inside l (mem_of_mem_inFront hl)) nofun
  rw [List.map_nil] at hfront
  rw [leadingOf_map hcode, leadingOf, Option.map_map, Option.map_map]
  exact congrArg (fun items => (firstToken? t' language ls).map fun _ => items) hfront

/-- No piece of trivia is cut off between a carriage return and its line feed. -/
theorem sameLines_of_leadingOf {ls : List Lexeme} (h : SameLines t t') (horder : InOrder t' ls)
    {items : List Placed} {placed : Placed} (hitems : leadingOf t' language ls = some items)
    (hplaced : placed ∈ items) : SameLines placed.item.text.toLineFeeds placed.item.text := by
  obtain ⟨-, -, rfl⟩ := Option.map_eq_some_iff.mp hitems
  obtain ⟨l, hl, hcases⟩ := Lexeme.mem_triviaOf hplaced
  have hinside := horder.inside l (mem_of_mem_inFront hl)
  rcases hcases with ⟨-, rfl⟩ | ⟨-, line, hline, -, rfl⟩
  · exact (toTrivia_original h (Nat.le_of_lt hinside.1)).2
  · exact (content_originalLine h (by omega) (directiveHolding?_eq_some_iff.mp hline).2.1).2

/-- A known marker is one line, so it is told in the same way with carriage returns. -/
theorem ofText?_sameLines (h : SameLines t t') : Marker.ofText? t = Marker.ofText? t' := by
  have hfeed : ∀ marker ∈ Marker.known, '\n' ∉ marker := by decide
  have hreturn : ∀ marker ∈ Marker.known, '\r' ∉ marker := by decide
  by_cases hmem : t ∈ Marker.known
  · rw [h.eq_of_notMem (hfeed t hmem)]
  · have hmem' : t' ∉ Marker.known := by
      intro hmem'
      have hfree : Text.withoutReturns t' = t' := by
        refine List.filter_eq_self.mpr fun c hc => bne_iff_ne.mpr ?_
        rintro rfl
        exact hreturn t' hmem' hc
      rw [h.withoutReturns_eq] at hfree
      exact hmem (hfree ▸ hmem')
    rw [Marker.ofText?_eq, Marker.ofText?_eq, if_neg hmem, if_neg hmem']

/-- Nor does the rule for markers tell pieces apart by their line breaks. -/
theorem find?_withLineFeeds {items : List Trivia}
    (h : ∀ item ∈ items, SameLines item.text.toLineFeeds item.text) :
    Marker.find? (items.map Trivia.withLineFeeds) = Marker.find? items := by
  have hcandidates : Marker.candidates (items.map Trivia.withLineFeeds) =
      (Marker.candidates items).map Trivia.withLineFeeds := by
    rw [Marker.candidates, List.filter_map, ← List.map_take]
    rfl
  have htexts : ∀ item ∈ Marker.candidates items,
      Marker.ofText? item.withLineFeeds.text = Marker.ofText? item.text := fun item hitem =>
    ofText?_sameLines (h item (List.mem_filter.mp (List.mem_of_mem_take hitem)).1)
  rw [Marker.find?, hcandidates, List.findSome?_map, Marker.find?]
  clear hcandidates
  generalize Marker.candidates items = looked at htexts ⊢
  induction looked with
  | nil => rfl
  | cons item others ih =>
    rw [List.findSome?_cons, List.findSome?_cons, Function.comp_apply, htexts item List.mem_cons_self,
      ih fun other hother => htexts other (List.mem_cons_of_mem _ hother)]

/-- To the language a carriage return in front of a line feed is part of the line break. -/
def ReadsBothBreaks (lexing : Lexing) : Prop :=
  ∀ text language ls, '\r' ∉ text → lexing text language = some ls →
    ∃ ls', lexing text.withReturns language = some ls' ∧
      ls'.map (·.original text.withReturns) = ls

end Syntax

end Provenance
