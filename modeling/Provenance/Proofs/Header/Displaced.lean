import Provenance.Proofs.Header.Lexing
import Provenance.Proofs.Syntax.Displaced

/-!
How the parser of headers reads a text with another one in front of it. Where that one is read for
itself and leaves nothing open, the stretches of the text follow it unchanged, one by one further on. A
byte order mark is such a text too, although a token on its line ends the header.
-/
namespace Provenance.Header

open Syntax

variable {language : Language} {d : Dialect} {before source t : Text} {s : Stretch}

def Stretch.moved (n : Nat) (s : Stretch) : Stretch := ⟨n + s.start, s.kind, s.text⟩

theorem Stretch.lexeme?_moved (n : Nat) (s : Stretch) :
    (s.moved n).lexeme? = s.lexeme?.map (·.moved n) := by
  obtain ⟨start, kind, text⟩ := s
  have hstop : n + start + text.length = n + (start + text.length) := Nat.add_assoc _ _ _
  cases kind <;> simp [moved, lexeme?, stop, Lexeme.moved, hstop]

/-- The stretches of a text that starts further on. -/
theorem stretchesFrom_add (d : Dialect) (levels : List Level) (n start : Nat) (text : Text) :
    stretchesFrom d levels (n + start) text =
      (stretchesFrom d levels start text).map (·.moved n) := by
  fun_induction stretchesFrom d levels start text with
  | case1 => simp [stretchesFrom]
  | case2 levels start c t kind k opened hrec ih =>
    rw [stretchesFrom_cons, hrec, List.map_cons, ← ih]
    simp only [Stretch.moved, Nat.add_assoc]

/-- What is in the header of a text behind another one is in the header of the text, if what ends the
one ends the other. -/
theorem exists_of_mem_header_map {n : Nat} {ls : List Stretch}
    (hends : ∀ k ∈ ls, k.endsHeader d t = true → (k.moved n).endsHeader d source = true)
    (hs : s ∈ header d source (ls.map (·.moved n))) :
    ∃ k ∈ header d t ls, s = k.moved n := by
  induction ls with
  | nil => cases hs
  | cons k ls ih =>
    rw [List.map_cons] at hs
    have hothers := ih fun other hother => hends other (List.mem_cons_of_mem k hother)
    cases hend : (k.moved n).endsHeader d source with
    | true =>
      rw [header_cons_of_ends _ hend, List.mem_singleton] at hs
      refine ⟨k, ?_, hs⟩
      cases hend' : k.endsHeader d t with
      | true => exact header_cons_of_ends ls hend' ▸ List.mem_singleton_self k
      | false => exact header_cons_of_not_ends ls hend' ▸ List.mem_cons_self
    | false =>
      have hend' : k.endsHeader d t = false := by
        rw [← Bool.not_eq_true]
        intro htrue
        rw [hends k List.mem_cons_self htrue] at hend
        cases hend
      rw [header_cons_of_not_ends _ hend] at hs
      rw [header_cons_of_not_ends ls hend']
      rcases List.mem_cons.mp hs with rfl | hs
      · exact ⟨k, List.mem_cons_self, rfl⟩
      · obtain ⟨other, hother, heq⟩ := hothers hs
        exact ⟨other, List.mem_cons_of_mem k hother, heq⟩

theorem endsHeader_of_noToken (h : s.kind ≠ .token) : s.endsHeader d source = false := by
  rw [← Bool.not_eq_true]
  exact fun hends => h (Stretch.endsHeader_eq_true_iff.mp hends).1

/-- Behind a text that is read for itself as blanks and comments, a well-formed text stays so, and its
lexemes follow. -/
theorem lexing_append {front : List Stretch} {ls : List Lexeme}
    (hsplit : stretches (.ofLanguage language) (before ++ t) =
      front ++ (stretches (.ofLanguage language) t).map (·.moved before.length))
    (hfront : ∀ s ∈ front, s.kind = .blank ∨ s.kind = .comment)
    (hends : ∀ s ∈ stretches (.ofLanguage language) t,
      s.endsHeader (.ofLanguage language) t = true →
      (s.moved before.length).endsHeader (.ofLanguage language) (before ++ t) = true)
    (hfree : ∀ s ∈ headerOf language t, s.isSound language t = true →
      (s.moved before.length).endsHeader (.ofLanguage language) (before ++ t) = true →
      directiveHolding? (before ++ t) (before.length + s.start) language = none)
    (hwell : lexing t language = some ls) :
    lexing (before ++ t) language =
      some (front.filterMap Stretch.lexeme? ++ ls.map (·.moved before.length)) := by
  obtain ⟨hsound, rfl⟩ := lexing_eq_some_iff.mp hwell
  have hquiet : ∀ s ∈ front, s.endsHeader (.ofLanguage language) (before ++ t) = false := by
    intro s hs
    apply endsHeader_of_noToken
    rcases hfront s hs with hkind | hkind <;> rw [hkind] <;> nofun
  refine lexing_eq_some_iff.mpr ⟨?_, ?_⟩
  · intro s hs
    rw [headerOf, hsplit, header_append hquiet] at hs
    rw [Stretch.isSound_eq_true_iff]
    rcases List.mem_append.mp hs with hs | hs
    · refine ⟨?_, fun hend => ?_⟩
      · intro hdirective
        rcases hfront s hs with hkind | hkind <;> rw [hkind] at hdirective <;> cases hdirective
      · rw [hquiet s hs] at hend
        cases hend
    · obtain ⟨k, hk, rfl⟩ := exists_of_mem_header_map hends hs
      have hwhole := (Stretch.isSound_eq_true_iff.mp (hsound k hk)).1
      exact ⟨hwhole, hfree k hk (hsound k hk)⟩
  · rw [hsplit, List.filterMap_append, List.filterMap_map, List.map_filterMap]
    exact congrArg _ (List.filterMap_congr fun s _ => s.lexeme?_moved before.length)

theorem lineFront_whiteSpace {gap : Text} (hgap : ∀ c ∈ gap, isWhiteSpace c = true) :
    lineFront gap = .nothing := by
  induction gap with
  | nil => rfl
  | cons c gap ih =>
    have hstep : LineFront.nothing.step c = .nothing := by
      by_cases hlf : c = '\n'
      · rw [LineFront.step, if_pos hlf]
      · rw [LineFront.step, if_neg hlf]
        exact if_pos (hgap c List.mem_cons_self)
    rw [lineFront, List.foldl_cons, hstep]
    exact ih fun b hb => hgap b (List.mem_cons_of_mem c hb)

theorem lineFront_of_endsFresh (h : EndsFresh before) : lineFront before = .nothing := by
  rw [← lineFront_afterLast]
  exact lineFront_whiteSpace h

/-- Where a line begins afresh, a stretch ends the header as it does in the text alone. -/
theorem endsHeader_moved (h : EndsFresh before) (s : Stretch) (t : Text) :
    (s.moved before.length).endsHeader d (before ++ t) = s.endsHeader d t := by
  have hfront : (s.moved before.length).front (before ++ t) = s.front t := by
    simp only [Stretch.front, Stretch.moved, List.take_length_add_append, lineFront_append,
      lineFront_of_endsFresh h]
    rfl
  rw [Stretch.endsHeader, Stretch.endsHeader, hfront]
  rfl

/-- The lexemes behind a text with a fresh line at its end. -/
theorem lexing_append_of_endsFresh {front : List Stretch} {ls : List Lexeme} (h : EndsFresh before)
    (hsplit : stretches (.ofLanguage language) (before ++ t) =
      front ++ (stretches (.ofLanguage language) t).map (·.moved before.length))
    (hfront : ∀ s ∈ front, s.kind = .blank ∨ s.kind = .comment)
    (hwell : lexing t language = some ls) :
    lexing (before ++ t) language =
      some (front.filterMap Stretch.lexeme? ++ ls.map (·.moved before.length)) := by
  refine lexing_append hsplit hfront ?_ ?_ hwell
  · intro s _ hends
    rw [endsHeader_moved h, hends]
  · intro s hs hsound hends
    rw [endsHeader_moved h] at hends
    have hnone := (Stretch.isSound_eq_true_iff.mp hsound).2 hends
    have hle := Nat.le_of_lt (liesIn_of_mem_headerOf hs).lt_length
    rw [← Option.isNone_iff_eq_none, ← Option.not_isSome, h.isSome_directiveHolding? language hle,
      hnone]
    rfl

theorem endsHeader_marked_of_lf (hlf : '\n' ∈ t.take s.start) :
    (s.moved 1).endsHeader d (Utf8.byteOrderMark :: t) = s.endsHeader d t := by
  have hfront : lineFront ((Utf8.byteOrderMark :: t).take (1 + s.start)) =
      lineFront (t.take s.start) := by
    rw [Nat.add_comm, List.take_succ_cons, lineFront, List.foldl_cons, foldl_step_of_mem hlf,
      lineFront_afterLast]
  have hsame : (s.moved 1).front (Utf8.byteOrderMark :: t) = s.front t := by
    simp only [Stretch.front, Stretch.moved, hfront]
  rw [Stretch.endsHeader, Stretch.endsHeader, hsame]
  rfl

/-- Behind a mark every token of the first line ends the header. -/
theorem endsHeader_marked_of_free (hfree : '\n' ∉ t.take s.start) (hkind : s.kind = .token) :
    (s.moved 1).endsHeader d (Utf8.byteOrderMark :: t) = true := by
  have hfront : lineFront ((Utf8.byteOrderMark :: t).take (1 + s.start)) = .other := by
    rw [Nat.add_comm, List.take_succ_cons, lineFront, List.foldl_cons]
    exact foldl_step_of_ne_nothing
      (show LineFront.nothing.step Utf8.byteOrderMark ≠ .nothing by decide) hfree
  have hother : ∀ c, LineFront.other.including c = .other := by
    intro c
    by_cases hc : c = '\n'
    · simp [LineFront.including, hc]
    · simp [LineFront.including, LineFront.step, hc]
  have hsign : (s.moved 1).front (Utf8.byteOrderMark :: t) ≠ .sign := by
    simp only [Stretch.front, Stretch.moved, hfront, hother]
    split <;> decide
  exact Stretch.endsHeader_eq_true_iff.mpr ⟨hkind, fun hboth => hsign hboth.2⟩

theorem stretches_marked (d : Dialect) (h : t.head? ≠ some Utf8.byteOrderMark) :
    stretches d ([Utf8.byteOrderMark] ++ t) =
      [⟨0, .blank, [Utf8.byteOrderMark]⟩] ++ (stretches d t).map (·.moved 1) := by
  rw [List.singleton_append, stretches, if_pos rfl, stretches_eq_stretchesFrom h]
  exact congrArg _ (stretchesFrom_add d [] 1 0 t)

theorem lexing_skipsMark : SkipsMark lexing := by
  intro t language ls hmark hwell
  refine lexing_append (stretches_marked _ hmark) ?_ ?_ ?_ hwell
  · intro s hs
    rw [List.mem_singleton.mp hs]
    exact Or.inl rfl
  · intro s _ hends
    by_cases hlf : '\n' ∈ t.take s.start
    · exact (endsHeader_marked_of_lf hlf).trans hends
    · exact endsHeader_marked_of_free hlf (Stretch.endsHeader_eq_true_iff.mp hends).1
  · intro s hs hsound hends
    have hle := Nat.le_of_lt (liesIn_of_mem_headerOf hs).lt_length
    by_cases hlf : '\n' ∈ t.take s.start
    · have hnone := (Stretch.isSound_eq_true_iff.mp hsound).2
        ((endsHeader_marked_of_lf hlf).symm.trans hends)
      rw [directiveHolding?_append_of_lf _ language hle hlf, hnone]
      rfl
    · exact directiveHolding?_cons_of_free (by decide) (by decide) hle hlf

end Provenance.Header
