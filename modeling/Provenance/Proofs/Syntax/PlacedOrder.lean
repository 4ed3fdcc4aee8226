import Provenance.Proofs.Syntax.Lexemes

/-!
Where the pieces of trivia stand. Lexemes that stand one behind the other are taken in order, and so are
the directive lines that they stand on. But a line reaches over everything on it, comments included. So
the pieces are in order exactly if no extra lexeme shares a character with a line that is taken, and
then nothing but the line itself begins on it.
-/
namespace Provenance.Syntax

variable {source : Text} {language : Language} {ls : List Lexeme} {noted : List Nat} {l : Lexeme}

namespace Placed

/-- The end of the text of a piece, without the line break that its lexeme may end with. -/
def textStop (placed : Placed) : Nat := placed.start + placed.item.text.length

/-- The text of one piece ends before that of the other begins. -/
def Before (a b : Placed) : Prop := a.textStop ≤ b.start

instance : DecidableRel Before := fun a b => inferInstanceAs (Decidable (a.textStop ≤ b.start))

/-- The texts of two pieces share a character. -/
def Overlaps (a b : Placed) : Prop := a.start < b.textStop ∧ b.start < a.textStop

end Placed

/-- Comments and directives begin with something visible. -/
def BeginVisibly (source : Text) (ls : List Lexeme) : Prop :=
  ∀ l ∈ ls, l.kind ≠ .token → source[l.start]?.any (fun c => !isWhiteSpace c) = true

instance (source : Text) (ls : List Lexeme) : Decidable (BeginVisibly source ls) :=
  inferInstanceAs (Decidable (∀ l ∈ ls, _ → _))

theorem BeginVisibly.exists_char (h : BeginVisibly source ls) (hl : l ∈ ls)
    (hextra : l.kind ≠ .token) : ∃ c, source[l.start]? = some c ∧ isWhiteSpace c = false := by
  obtain ⟨c, hc, hvisible⟩ := (Option.any_eq_true _ _).mp (h l hl hextra)
  exact ⟨c, hc, by simpa using hvisible⟩

/-- A directive line that a token stands on. It is taken as a whole. -/
def TakenLine (source : Text) (language : Language) (ls : List Lexeme) (line : Line) : Prop :=
  ∃ l ∈ ls, l.kind = .token ∧ directiveHolding? source l.start language = some line

/-- No comment, and no directive that is a lexeme of its own, shares a character with a line that is
taken. -/
def ApartFromLines (source : Text) (language : Language) (ls : List Lexeme) : Prop :=
  ∀ l ∈ ls, l.kind ≠ .token → ∀ line, TakenLine source language ls line →
    ¬(l.placed source language).Overlaps line.placed

theorem TakenLine.mem_lines {line : Line} (h : TakenLine source language ls line) :
    line ∈ lines source := by
  obtain ⟨l, -, -, hline⟩ := h
  exact Syntax.mem_lines (directiveHolding?_eq_some_iff.mp hline).2.1

theorem TakenLine.cons {line : Line} (h : TakenLine source language ls line) (l : Lexeme) :
    TakenLine source language (l :: ls) line := by
  obtain ⟨other, hother, hboth⟩ := h
  exact ⟨other, List.mem_cons_of_mem l hother, hboth⟩

theorem TakenLine.placed_mem {line : Line} (h : TakenLine source language ls line)
    (hnoted : line.start ∉ noted) : line.placed ∈ Lexeme.triviaOf source language noted ls := by
  obtain ⟨l, hl, hkind, hline⟩ := h
  exact Lexeme.line_placed_mem_triviaOf hl hkind hline hnoted

theorem textStop_line (line : Line) : line.placed.textStop = line.start + line.content.length := rfl

theorem textStop_placed_le (h : l.start ≤ l.stop) :
    (l.placed source language).textStop ≤ l.stop := by
  have hle := length_trimEnd_le (fun c => c == '\r' || c == '\n') (l.slice source)
  have hslice : (l.slice source).length ≤ l.stop - l.start := List.length_take_le _ _
  simp only [Placed.textStop, Lexeme.placed, Lexeme.text_toTrivia]
  omega

/-- What is visible and starts no later than a line ends, starts in front of the end of its text. -/
theorem lt_textStop_of_visible {line : Line} {i : Nat} {c : Char} (hline : line ∈ lines source)
    (hc : source[i]? = some c) (hvisible : isWhiteSpace c = false) (hle : i ≤ line.stop) :
    i < line.placed.textStop := by
  rw [textStop_line]
  by_cases hstart : line.start ≤ i
  · have hin : i ≤ source.length := Nat.le_of_lt (List.getElem?_eq_some_iff.mp hc).1
    exact lt_of_visible (lineHolding?_of_holds hline ⟨hstart, hle⟩ hin) hc hvisible
  · omega

/-- Something of a lexeme is left if its first character is visible. -/
theorem lt_textStop_placed {c : Char} (hinside : l.start < l.stop ∧ l.stop ≤ source.length)
    (hc : source[l.start]? = some c) (hvisible : isWhiteSpace c = false) :
    l.start < (l.placed source language).textStop := by
  obtain ⟨rest, htext, hrest⟩ :=
    exists_append_trimEnd (fun c => c == '\r' || c == '\n') (l.slice source)
  have hhead : (l.slice source).head? = some c := by
    rw [Lexeme.slice, List.head?_take, if_neg (by omega), List.head?_drop, hc]
  have hne : (l.slice source).trimEnd (fun c => c == '\r' || c == '\n') ≠ [] := by
    intro hnil
    rw [hnil, List.nil_append] at htext
    have hbreak := hrest c (htext ▸ List.mem_of_head? hhead)
    rcases (Bool.or_eq_true _ _).mp hbreak with heq | heq
    · rw [beq_iff_eq.mp heq] at hvisible
      exact absurd hvisible (by decide)
    · rw [beq_iff_eq.mp heq] at hvisible
      exact absurd hvisible (by decide)
  have hpos := List.length_pos_iff.mpr hne
  show l.start < l.start + (l.toTrivia source language).text.length
  rw [Lexeme.text_toTrivia]
  omega

/-- What is taken in order is apart from the lines that are taken. -/
theorem not_overlaps_of_pairwise
    (h : (Lexeme.triviaOf source language noted ls).Pairwise Placed.Before) :
    ∀ l ∈ ls, l.kind ≠ .token → ∀ line, TakenLine source language ls line → line.start ∉ noted →
      ¬(l.placed source language).Overlaps line.placed := by
  induction ls generalizing noted with
  | nil => exact nofun
  | cons first ls ih =>
    rintro l hl hextra line ⟨other, hother, hkind, hline⟩ hnoted hboth
    rcases Lexeme.triviaOf_cons_cases source language noted first ls with
      ⟨hfirst, heq⟩ | ⟨hfirst, hin, heq⟩ | ⟨hfirst, line', hline', -, heq⟩
    -- The first lexeme is extra: it may be the one that would share a character with a later line.
    · rw [heq, List.pairwise_cons] at h
      have hother' : other ∈ ls :=
        (List.mem_cons.mp hother).resolve_left fun hsame => hfirst (hsame ▸ hkind)
      rcases List.mem_cons.mp hl with rfl | hl
      · have hbefore := h.1 _ (Lexeme.line_placed_mem_triviaOf hother' hkind hline hnoted)
        exact Nat.not_lt_of_le hbefore hboth.2
      · exact ih h.2 l hl hextra line ⟨other, hother', hkind, hline⟩ hnoted hboth
    · rw [heq] at h
      have hl' : l ∈ ls :=
        (List.mem_cons.mp hl).resolve_left fun hsame => hextra (hsame ▸ hfirst)
      rcases List.mem_cons.mp hother with rfl | hother
      · exact hnoted (hin line hline)
      · exact ih h l hl' hextra line ⟨other, hother, hkind, hline⟩ hnoted hboth
    -- The first lexeme gives a line: that is the line in question, or the line comes later.
    · rw [heq, List.pairwise_cons] at h
      have hl' : l ∈ ls :=
        (List.mem_cons.mp hl).resolve_left fun hsame => hextra (hsame ▸ hfirst)
      by_cases hstart : line.start = line'.start
      · have hmem := mem_lines (directiveHolding?_eq_some_iff.mp hline).2.1
        have hmem' := mem_lines (directiveHolding?_eq_some_iff.mp hline').2.1
        have hsame : line = line' := Line.eq_of_start_eq hmem hmem' hstart
        have hbefore := h.1 _ (Lexeme.placed_mem_triviaOf hl' hextra)
        exact Nat.not_lt_of_le hbefore (hsame ▸ hboth.1)
      · have hother' : other ∈ ls := by
          refine (List.mem_cons.mp hother).resolve_left ?_
          rintro rfl
          exact hstart (by rw [Option.some.inj (hline.symm.trans hline')])
        refine ih h.2 l hl' hextra line ⟨other, hother', hkind, hline⟩ ?_ hboth
        exact fun hmem => (List.mem_cons.mp hmem).elim hstart hnoted

/-- A line that starts earlier is taken in front of one that starts later. -/
theorem placed_before_of_start_lt {line line' : Line} (h : line ∈ lines source)
    (h' : line' ∈ lines source) (hlt : line.start < line'.start) :
    line.placed.Before line'.placed := by
  have hstop := Line.stop_lt_start h h' hlt
  have hlength := length_content_le line
  rw [Line.stop] at hstop
  show line.placed.textStop ≤ line'.start
  rw [textStop_line]
  omega

section

variable {first : Lexeme} {placed : Placed} (h : InOrder source (first :: ls))
  (hfree : ApartFromLines source language (first :: ls))

include h hfree

/-- An extra lexeme ends before the pieces of later ones begin. A line could reach back to it only by
holding its first character. -/
theorem extra_before (hvisible : BeginVisibly source (first :: ls)) (hfirst : first.kind ≠ .token)
    (hplaced : placed ∈ Lexeme.triviaOf source language noted ls) :
    (first.placed source language).Before placed := by
  have hinside := h.inside first List.mem_cons_self
  have hstop : (first.placed source language).textStop ≤ first.stop :=
    textStop_placed_le (Nat.le_of_lt hinside.1)
  obtain ⟨other, hother, hcases⟩ := Lexeme.mem_triviaOf hplaced
  have hle := (List.pairwise_cons.mp h.apart).1 other hother
  rcases hcases with ⟨-, rfl⟩ | ⟨hkind, line, hline, -, rfl⟩
  · exact Nat.le_trans hstop hle
  · obtain ⟨c, hc, hblank⟩ := hvisible.exists_char List.mem_cons_self hfirst
    have hholding := (directiveHolding?_eq_some_iff.mp hline).2.1
    have hreach : first.start ≤ line.stop := by
      have hholds := (holds_of_lineHolding? hholding).2
      omega
    have hlt : first.start < line.placed.textStop :=
      lt_textStop_of_visible (mem_lines hholding) hc hblank hreach
    exact Nat.le_of_not_lt fun hover =>
      hfree first List.mem_cons_self hfirst line
        ⟨other, List.mem_cons_of_mem _ hother, hkind, hline⟩ ⟨hlt, hover⟩

/-- A line that has been taken ends before the pieces of later lexemes begin, as it is not taken
again. -/
theorem line_before {line : Line} (hfirst : first.kind = .token)
    (hline : directiveHolding? source first.start language = some line)
    (hplaced : placed ∈ Lexeme.triviaOf source language (line.start :: noted) ls) :
    line.placed.Before placed := by
  have hinside := h.inside first List.mem_cons_self
  have hholding := (directiveHolding?_eq_some_iff.mp hline).2.1
  obtain ⟨other, hother, hcases⟩ := Lexeme.mem_triviaOf hplaced
  have hle := (List.pairwise_cons.mp h.apart).1 other hother
  rcases hcases with ⟨hextra, rfl⟩ | ⟨-, line', hline', hnew, rfl⟩
  · have hstart := (holds_of_lineHolding? hholding).1
    have hstop : other.start ≤ (other.placed source language).textStop := Nat.le_add_right _ _
    have hleft : line.start < (other.placed source language).textStop := by omega
    exact Nat.le_of_not_lt fun hover =>
      hfree other (List.mem_cons_of_mem _ hother) hextra line
        ⟨first, List.mem_cons_self, hfirst, hline⟩ ⟨hover, hleft⟩
  · have hinside' := h.inside other (List.mem_cons_of_mem _ hother)
    have hholding' := (directiveHolding?_eq_some_iff.mp hline').2.1
    have hstarts : line.start ≤ line'.start :=
      start_le_start (by omega) (by omega) hholding hholding'
    have hne : line'.start ≠ line.start := fun heq => hnew (heq ▸ List.mem_cons_self)
    exact placed_before_of_start_lt (mem_lines hholding) (mem_lines hholding') (by omega)

end

/-- Lexemes in order give pieces in order if the extra ones are apart from the lines that are taken. -/
theorem pairwise_triviaOf (h : InOrder source ls) (hvisible : BeginVisibly source ls)
    (hfree : ApartFromLines source language ls) :
    (Lexeme.triviaOf source language noted ls).Pairwise Placed.Before := by
  induction ls generalizing noted with
  | nil => exact List.Pairwise.nil
  | cons first ls ih =>
    have hrest : ∀ noted, (Lexeme.triviaOf source language noted ls).Pairwise Placed.Before := by
      intro noted
      apply ih h.tail
      · exact fun l hl => hvisible l (List.mem_cons_of_mem _ hl)
      · intro l hl hextra line hline
        exact hfree l (List.mem_cons_of_mem _ hl) hextra line (hline.cons first)
    rcases Lexeme.triviaOf_cons_cases source language noted first ls with
      ⟨hfirst, heq⟩ | ⟨-, -, heq⟩ | ⟨hfirst, line, hline, -, heq⟩
    · rw [heq, List.pairwise_cons]
      exact ⟨fun placed hplaced => extra_before h hfree hvisible hfirst hplaced, hrest noted⟩
    · rw [heq]
      exact hrest noted
    · rw [heq, List.pairwise_cons]
      exact ⟨fun placed hplaced => line_before h hfree hfirst hline hplaced, hrest _⟩

/-- The pieces are in order exactly if the extra lexemes are apart from the lines that are taken. -/
theorem pairwise_triviaOf_iff (h : InOrder source ls) (hvisible : BeginVisibly source ls) :
    (Lexeme.triviaOf source language [] ls).Pairwise Placed.Before ↔
      ApartFromLines source language ls := by
  refine ⟨?_, pairwise_triviaOf h hvisible⟩
  intro hpair l hl hextra line hline
  exact not_overlaps_of_pairwise hpair l hl hextra line hline List.not_mem_nil

/-- If they are, a line that is taken is a piece of its own, and no other piece begins on it. -/
theorem eq_line_placed_of_apart (h : InOrder source ls) (hvisible : BeginVisibly source ls)
    (hfree : ApartFromLines source language ls) {line : Line}
    (htaken : TakenLine source language ls line) {placed : Placed}
    (hplaced : placed ∈ Lexeme.triviaOf source language [] ls) (hholds : line.Holds placed.start) :
    placed = line.placed := by
  have hmem := htaken.mem_lines
  obtain ⟨l, hl, ⟨hextra, rfl⟩ | ⟨-, line', hline', -, rfl⟩⟩ := Lexeme.mem_triviaOf hplaced
  · obtain ⟨c, hc, hblank⟩ := hvisible.exists_char hl hextra
    have hbegins : line.start ≤ l.start := hholds.1
    refine absurd ⟨lt_textStop_of_visible hmem hc hblank hholds.2, ?_⟩
      (hfree l hl hextra line htaken)
    exact Nat.lt_of_le_of_lt hbegins (lt_textStop_placed (h.inside l hl) hc hblank)
  · have hstart : line'.Holds line'.placed.start := ⟨Nat.le_refl _, Nat.le_add_right _ _⟩
    have hmem' := mem_lines (directiveHolding?_eq_some_iff.mp hline').2.1
    rw [eq_of_holds hmem hmem' hholds hstart]

end Provenance.Syntax
