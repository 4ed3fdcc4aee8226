import Mathlib.Data.List.Basic
import Provenance.Proofs.Header.LineFronts
import Provenance.Proofs.Syntax.Lexemes

/-!
How the parser of headers reads a text. Its trees list the stretches of the header that are not blank,
so it follows the lexing that gives these stretches, wherever every directive of the header is whole. A
stretch that ends the header stands on no line with a number sign in front, and whatever two texts have
in front of a first token that they share is read alike.
-/
namespace Provenance.Header

open Syntax

variable {language : Language} {source text text' : Text} {d : Dialect} {s : Stretch} {node : Node}

theorem directives_ofLanguage (language : Language) :
    (Dialect.ofLanguage language).directives = true ↔ language = .cSharp := by
  cases language <;> simp [Dialect.ofLanguage, Dialect.cSharp, Dialect.plain, Dialect.web]

namespace Stretch

/-- The lexeme that a stretch is, unless it is blank. -/
def lexeme? (s : Stretch) : Option Lexeme :=
  match s.kind with
  | .blank => none
  | .comment => some ⟨.comment, s.start, s.stop⟩
  | .directive => some ⟨.directive, s.start, s.stop⟩
  | .token => some ⟨.token, s.start, s.stop⟩

/-- What a lexeme has from the stretch that it is. -/
structure Is (s : Stretch) (l : Lexeme) : Prop where
  start_eq : l.start = s.start
  stop_eq : l.stop = s.stop
  kind_iff : l.kind = .token ↔ s.kind = .token

theorem is_of_lexeme? {l : Lexeme} (h : s.lexeme? = some l) : s.Is l := by
  obtain ⟨start, kind, text⟩ := s
  cases kind with
  | blank => cases h
  | comment => cases h; exact ⟨rfl, rfl, by simp⟩
  | directive => cases h; exact ⟨rfl, rfl, by simp⟩
  | token => cases h; exact ⟨rfl, rfl, by simp⟩

/-- The node of a stretch is a leaf in its place, and the lexeme that the stretch is. -/
theorem leaf_of_node? (h : s.node? = some node) (hs : s.text ≠ []) :
    node.children = [] ∧ node.start = s.start ∧ node.stop = s.stop ∧ node.lexeme? = s.lexeme? := by
  have hpos : 0 < s.text.length := List.length_pos_iff.mpr hs
  obtain ⟨start, kind, text⟩ := s
  have hcomment : occursIn "comment".toList "comment".toList = true := by decide
  have hdirective : occursIn "comment".toList "directive".toList = false := by decide
  cases kind with
  | blank => cases h
  | comment =>
    cases h
    refine ⟨rfl, rfl, rfl, ?_⟩
    rw [Node.lexeme?, if_pos rfl, Node.isComment, hcomment]
    rfl
  | directive =>
    cases h
    refine ⟨rfl, rfl, rfl, ?_⟩
    rw [Node.lexeme?, if_pos rfl, Node.isComment, hdirective]
    rfl
  | token =>
    cases h
    have hspan : (start != start + text.length) = true := bne_iff_ne.mpr (by simp only at hpos; omega)
    exact ⟨rfl, rfl, rfl,
      by simp [Node.lexeme?, Node.coversText, Node.isLeaf, hspan, lexeme?, stop]⟩

theorem node?_eq_none_iff : s.node? = none ↔ s.lexeme? = none := by
  obtain ⟨start, kind, text⟩ := s
  cases kind <;> simp [node?, Piece.toNode?, lexeme?]

theorem LiesIn.lt_length (h : s.LiesIn 0 source) : s.start < source.length := by
  have hlt := h.start_lt_stop
  have hstop := h.stop_le
  omega

theorem LiesIn.exists_char (h : s.LiesIn 0 source) :
    ∃ c cs, s.text = c :: cs ∧ source[s.start]? = some c := by
  have hhead := h.head?_eq
  rw [Nat.sub_zero, List.head?_drop] at hhead
  obtain ⟨c, cs, htext⟩ := List.exists_cons_of_ne_nil h.ne_nil
  rw [htext] at hhead
  exact ⟨c, cs, htext, hhead⟩

theorem LiesIn.front_eq (h : s.LiesIn 0 source) : s.front source = frontAt source s.start := by
  obtain ⟨c, cs, htext, hchar⟩ := h.exists_char
  rw [front, frontAt, htext, hchar]

theorem endsHeader_eq_true_iff :
    s.endsHeader d source = true ↔
      s.kind = .token ∧ ¬(d.directives = true ∧ s.front source = .sign) := by
  rw [endsHeader, decide_eq_true_eq]

/-- A token on no directive line ends the header. -/
theorem LiesIn.endsHeader (h : s.LiesIn 0 source) (hkind : s.kind = .token)
    (hline : directiveHolding? source s.start language = none) :
    s.endsHeader (.ofLanguage language) source = true := by
  rw [endsHeader_eq_true_iff]
  refine ⟨hkind, ?_⟩
  intro hsign
  rw [directives_ofLanguage, h.front_eq] at hsign
  obtain ⟨line, hholding⟩ := exists_lineHolding?_eq (Nat.le_of_lt h.lt_length)
  have hsome := directiveHolding?_eq_some_iff.mpr
    ⟨hsign.1, hholding, isDirective_of_frontAt h.lt_length hholding hsign.2⟩
  rw [hline] at hsome
  cases hsome

/-- The stretch of a token that is code ends the header. -/
theorem LiesIn.endsHeader_of_isCode (h : s.LiesIn 0 source) {l : Lexeme} (hl : s.lexeme? = some l)
    (hcode : l.isCode source language = true) :
    s.endsHeader (.ofLanguage language) source = true := by
  obtain ⟨hkind, hline⟩ := Lexeme.isCode_eq_true_iff.mp hcode
  have his := is_of_lexeme? hl
  rw [his.start_eq] at hline
  exact h.endsHeader (his.kind_iff.mp hkind) hline

end Stretch

theorem visitsAll_eq_self {nodes : List Node} (h : ∀ node ∈ nodes, node.children = []) :
    Node.visitsAll nodes = nodes := by
  induction nodes with
  | nil => exact Node.visitsAll_nil
  | cons node nodes ih =>
    have hchildren := h node List.mem_cons_self
    have hvisits : node.visits = [node] := by
      rw [Node.visits_eq, hchildren, Node.visitsAll_nil, ite_self]
    rw [Node.visitsAll_cons, hvisits, ih fun other hother => h other (List.mem_cons_of_mem _ hother)]
    rfl

theorem header_isPrefix (d : Dialect) (source : Text) (ls : List Stretch) :
    header d source ls <+: ls := by
  induction ls with
  | nil => exact List.prefix_refl []
  | cons l ls ih =>
    cases h : l.endsHeader d source with
    | true =>
      rw [header_cons_of_ends ls h]
      exact ⟨ls, rfl⟩
    | false =>
      rw [header_cons_of_not_ends ls h]
      exact List.prefix_cons_inj l |>.mpr ih

theorem header_append {ls others : List Stretch} (h : ∀ l ∈ ls, l.endsHeader d source = false) :
    header d source (ls ++ others) = ls ++ header d source others := by
  induction ls with
  | nil => rfl
  | cons l ls ih =>
    rw [List.cons_append, header_cons_of_not_ends _ (h l List.mem_cons_self),
      ih fun k hk => h k (List.mem_cons_of_mem l hk)]
    rfl

/-- The stretches of the header of a text. -/
def headerOf (language : Language) (text : Text) : List Stretch :=
  header (.ofLanguage language) text (stretches (.ofLanguage language) text)

theorem mem_stretches_of_mem_headerOf (h : s ∈ headerOf language text) :
    s ∈ stretches (.ofLanguage language) text :=
  (header_isPrefix _ text _).subset h

theorem liesIn_of_mem_headerOf (h : s ∈ headerOf language text) : s.LiesIn 0 text :=
  liesIn_of_mem_stretches (mem_stretches_of_mem_headerOf h)

/-- A directive is whole, and the token that ends a header stands on no directive line. -/
def Stretch.isSound (language : Language) (text : Text) (s : Stretch) : Bool :=
  IsWhole s.kind s.text && (!s.endsHeader (.ofLanguage language) text ||
    (directiveHolding? text s.start language).isNone)

/-- The lexemes of the texts whose headers are without a syntax error. -/
def lexing : Lexing := fun text language =>
  if (headerOf language text).all (·.isSound language text) then
    some ((stretches (.ofLanguage language) text).filterMap Stretch.lexeme?)
  else none

theorem Stretch.isSound_eq_true_iff : s.isSound language text = true ↔
    IsWhole s.kind s.text ∧ (s.endsHeader (.ofLanguage language) text = true →
      directiveHolding? text s.start language = none) := by
  rw [isSound, Bool.and_eq_true, decide_eq_true_iff, Bool.or_eq_true, Bool.not_eq_true',
    Option.isNone_iff_eq_none]
  cases s.endsHeader (.ofLanguage language) text <;> simp

theorem lexing_eq_some_iff {ls : List Lexeme} : lexing text language = some ls ↔
    (∀ s ∈ headerOf language text, s.isSound language text = true) ∧
      (stretches (.ofLanguage language) text).filterMap Stretch.lexeme? = ls := by
  rw [lexing]
  split
  · next hsound =>
    have hall := List.all_eq_true.mp hsound
    exact ⟨fun h => ⟨hall, Option.some.inj h⟩, fun h => congrArg some h.2⟩
  · next hsound =>
    exact ⟨nofun, fun h => absurd (List.all_eq_true.mpr h.1) hsound⟩

section

theorem children_rootOf (text : Text) (language : Language) :
    (rootOf text language).children = (headerOf language text).filterMap Stretch.node? :=
  nodesFrom_pieces (.ofLanguage language) text

theorem exists_stretch_of_mem (h : node ∈ (rootOf text language).children) :
    ∃ s ∈ headerOf language text, s.node? = some node := by
  rw [children_rootOf] at h
  exact List.mem_filterMap.mp h

theorem inside_of_mem (h : node ∈ (rootOf text language).children) :
    node.start < node.stop ∧ node.stop ≤ text.length := by
  obtain ⟨s, hs, hnode⟩ := exists_stretch_of_mem h
  have hlies := liesIn_of_mem_headerOf hs
  obtain ⟨-, hstart, hstop, -⟩ := Stretch.leaf_of_node? hnode hlies.ne_nil
  have hlt := hlies.start_lt_stop
  have hle := hlies.stop_le
  rw [hstart, hstop]
  omega

theorem visits_rootOf (text : Text) (language : Language) :
    (rootOf text language).visits = rootOf text language :: (rootOf text language).children := by
  have hleaves : ∀ node ∈ (rootOf text language).children, node.children = [] := by
    intro node hnode
    obtain ⟨s, hs, hmade⟩ := exists_stretch_of_mem hnode
    exact (Stretch.leaf_of_node? hmade (liesIn_of_mem_headerOf hs).ne_nil).1
  rw [Node.visits_eq, visitsAll_eq_self hleaves]
  rfl

theorem pairwise_children (text : Text) (language : Language) :
    (rootOf text language).children.Pairwise fun a b => a.stop ≤ b.start := by
  rw [children_rootOf, List.pairwise_filterMap]
  have hstretches := (pairwise_stretches (.ofLanguage language) text).sublist
    (header_isPrefix (.ofLanguage language) text _).sublist
  refine hstretches.imp_of_mem fun {a b} ha hb hle node hnode node' hnode' => ?_
  obtain ⟨-, -, hstop, -⟩ := Stretch.leaf_of_node? hnode (liesIn_of_mem_headerOf ha).ne_nil
  obtain ⟨-, hstart, -⟩ := Stretch.leaf_of_node? hnode' (liesIn_of_mem_headerOf hb).ne_nil
  rw [hstop, hstart]
  exact hle

theorem start_rootOf (text : Text) (language : Language) : (rootOf text language).start =
    ((rootOf text language).children.head?.map Node.start).getD text.length := rfl

theorem stop_rootOf (text : Text) (language : Language) : (rootOf text language).stop =
    ((rootOf text language).children.getLast?.map Node.stop).getD text.length := rfl

/-- The root covers its nodes, and without any the empty stretch at the end of the text. -/
theorem inside_rootOf (text : Text) (language : Language) :
    (rootOf text language).start ≤ (rootOf text language).stop ∧
      (rootOf text language).stop ≤ text.length := by
  have hinside : ∀ node ∈ (rootOf text language).children,
      node.start < node.stop ∧ node.stop ≤ text.length := fun node hnode => inside_of_mem hnode
  have hordered := pairwise_children text language
  rw [start_rootOf, stop_rootOf]
  cases hnodes : (rootOf text language).children with
  | nil => simp
  | cons first others =>
    rw [hnodes] at hinside hordered
    have hfirst := hinside first List.mem_cons_self
    have hlast := List.getLast?_eq_some_getLast (List.cons_ne_nil first others)
    have hmem := List.getLast_mem (List.cons_ne_nil first others)
    have hstop := hinside _ hmem
    rw [hlast]
    simp only [List.head?_cons, Option.map_some, Option.getD_some]
    rcases List.mem_cons.mp hmem with heq | hothers
    · rw [heq]
      omega
    · have hle := (List.pairwise_cons.mp hordered).1 _ hothers
      omega

theorem fitsIn_rootOf (text : Text) (language : Language) :
    (rootOf text language).FitsIn text := by
  constructor
  · intro node hnode
    rw [visits_rootOf] at hnode
    rcases List.mem_cons.mp hnode with rfl | hnode
    · exact inside_rootOf text language
    · have hinside := inside_of_mem hnode
      omega
  · have hordered : (rootOf text language).children.Pairwise fun a b => a.start ≤ b.start := by
      refine (pairwise_children text language).imp_of_mem ?_
      intro a b ha hb hle
      have hinside := inside_of_mem ha
      omega
    rw [visits_rootOf]
    cases hleaf : (rootOf text language).isLeaf with
    | false =>
      rw [List.filter_cons_of_neg (by simp [hleaf])]
      exact hordered.sublist List.filter_sublist
    | true =>
      have hnil : (rootOf text language).children = [] := by
        simpa [Node.isLeaf] using And.right (Bool.and_eq_true_iff.mp hleaf)
      rw [hnil, List.filter_cons_of_pos hleaf]
      exact List.pairwise_singleton _ _

/-- The root is passed over: it has nodes below it or covers no text. -/
theorem lexeme?_rootOf (text : Text) (language : Language) :
    (rootOf text language).lexeme? = none := by
  have hcovers : (rootOf text language).coversText = false := by
    cases hnodes : (rootOf text language).children with
    | nil =>
      have hspan : ((rootOf text language).start != (rootOf text language).stop) = false := by
        rw [start_rootOf, stop_rootOf, hnodes]
        simp
      rw [Node.coversText, hspan, Bool.and_false]
    | cons first others => simp [Node.coversText, Node.isLeaf, hnodes]
  rw [Node.lexeme?, hcovers]
  rfl

theorem lexemes_rootOf (text : Text) (language : Language) :
    (rootOf text language).lexemes = (headerOf language text).filterMap Stretch.lexeme? := by
  rw [Node.lexemes, visits_rootOf, List.filterMap_cons_none (lexeme?_rootOf text language),
    children_rootOf, List.filterMap_filterMap]
  apply List.filterMap_congr
  intro s hs
  cases hnode : s.node? with
  | none => exact (Stretch.node?_eq_none_iff.mp hnode).symm
  | some node => exact (Stretch.leaf_of_node? hnode (liesIn_of_mem_headerOf hs).ne_nil).2.2.2

theorem inOrder_of_lexing {ls : List Lexeme} (hwell : lexing text language = some ls) :
    InOrder text ls := by
  obtain ⟨-, rfl⟩ := lexing_eq_some_iff.mp hwell
  constructor
  · rw [List.pairwise_filterMap]
    refine (pairwise_stretches (.ofLanguage language) text).imp ?_
    intro a b hle l hl l' hl'
    rw [(Stretch.is_of_lexeme? hl).stop_eq, (Stretch.is_of_lexeme? hl').start_eq]
    exact hle
  · intro l hl
    obtain ⟨s, hs, hl⟩ := List.mem_filterMap.mp hl
    have hlies := liesIn_of_mem_stretches hs
    have his := Stretch.is_of_lexeme? hl
    have hlt := hlies.start_lt_stop
    have hle := hlies.stop_le
    rw [his.start_eq, his.stop_eq]
    omega

/-- In a header without a syntax error the token that ends it is code. -/
theorem isCode_of_endsHeader (hsound : s.isSound language text = true)
    (hends : s.endsHeader (.ofLanguage language) text = true) :
    ∃ l, s.lexeme? = some l ∧ l.isCode text language = true := by
  have hkind := (Stretch.endsHeader_eq_true_iff.mp hends).1
  have hline := (Stretch.isSound_eq_true_iff.mp hsound).2 hends
  refine ⟨⟨.token, s.start, s.stop⟩, by rw [Stretch.lexeme?, hkind], ?_⟩
  exact Lexeme.isCode_eq_true_iff.mpr ⟨rfl, hline⟩

/-- The header ends with the first stretch that can end it. -/
theorem headerOf_eq_of_split {before after : List Stretch} {last : Stretch}
    (hsplit : stretches (.ofLanguage language) text = before ++ last :: after)
    (hbefore : ∀ s ∈ before, s.endsHeader (.ofLanguage language) text = false)
    (hlast : last.endsHeader (.ofLanguage language) text = true) :
    headerOf language text = before ++ [last] := by
  rw [headerOf, hsplit, header_append hbefore, header_cons_of_ends after hlast]

/-- A header is all of its text, or it ends with the first stretch that can end it. -/
theorem headerOf_cases (language : Language) (text : Text) :
    (headerOf language text = stretches (.ofLanguage language) text ∧
      ∀ s ∈ stretches (.ofLanguage language) text,
        s.endsHeader (.ofLanguage language) text = false) ∨
    ∃ before last after, stretches (.ofLanguage language) text = before ++ last :: after ∧
      (∀ s ∈ before, s.endsHeader (.ofLanguage language) text = false) ∧
      last.endsHeader (.ofLanguage language) text = true := by
  cases hfind : (stretches (.ofLanguage language) text).find?
      (·.endsHeader (.ofLanguage language) text) with
  | none =>
    have hfree : ∀ s ∈ stretches (.ofLanguage language) text,
        s.endsHeader (.ofLanguage language) text = false :=
      fun s hs => Bool.eq_false_iff.mpr (List.find?_eq_none.mp hfind s hs)
    refine Or.inl ⟨?_, hfree⟩
    rw [headerOf, header, hfind, List.takeWhile_eq_self_iff.mpr fun s hs => by rw [hfree s hs]; rfl]
    exact List.append_nil _
  | some last =>
    obtain ⟨hlast, before, after, hsplit, hbefore⟩ := List.find?_eq_some_iff_append.mp hfind
    exact Or.inr ⟨before, last, after, hsplit, fun s hs => by simpa using hbefore s hs, hlast⟩

theorem parser_follows : Follows parser lexing where
  exists_root text language ls hwell := by
    obtain ⟨hsound, rfl⟩ := lexing_eq_some_iff.mp hwell
    refine ⟨rootOf text language, rfl, fitsIn_rootOf text language, ?_, ?_⟩
    · rw [lexemes_rootOf]
      exact (header_isPrefix _ text _).filterMap _
    · intro hnone
      rw [lexemes_rootOf] at hnone ⊢
      rcases headerOf_cases language text with ⟨hall, -⟩ | ⟨before, last, after, hsplit, hbefore, hlast⟩
      · rw [hall]
      · have hmem : last ∈ headerOf language text := by
          rw [headerOf_eq_of_split hsplit hbefore hlast]
          exact List.mem_append_right before List.mem_cons_self
        obtain ⟨l, hl, hcode⟩ := isCode_of_endsHeader (hsound last hmem) hlast
        exact absurd hcode
          (List.find?_eq_none.mp hnone l (List.mem_filterMap.mpr ⟨last, hmem, hl⟩))
  inOrder _ _ _ hwell := inOrder_of_lexing hwell

end

/-- The stretches around the one that is the first token. -/
structure Parted (language : Language) (text : Text) (before : List Stretch) (last : Stretch)
    (after : List Stretch) (token : Lexeme) : Prop where
  split : stretches (.ofLanguage language) text = before ++ last :: after
  noEnd : ∀ s ∈ before, s.endsHeader (.ofLanguage language) text = false
  isEnd : last.endsHeader (.ofLanguage language) text = true
  lexeme_eq : last.lexeme? = some token

/-- In a text without a syntax error the first token ends the header. -/
theorem exists_parted {ls : List Lexeme} {token : Lexeme}
    (hwell : lexing text language = some ls)
    (htoken : firstToken? text language ls = some token) :
    ∃ before last after, Parted language text before last after token ∧
      inFront text language ls = before.filterMap Stretch.lexeme? := by
  obtain ⟨hsound, rfl⟩ := lexing_eq_some_iff.mp hwell
  have hends : ∀ s ∈ stretches (.ofLanguage language) text, ∀ l, s.lexeme? = some l →
      l.isCode text language = true → s.endsHeader (.ofLanguage language) text = true :=
    fun s hs l hl hcode => (liesIn_of_mem_stretches hs).endsHeader_of_isCode hl hcode
  rcases headerOf_cases language text with ⟨-, hfree⟩ | ⟨before, last, after, hsplit, hbefore, hlast⟩
  · obtain ⟨s, hs, hl⟩ := List.mem_filterMap.mp (List.mem_of_find?_eq_some htoken)
    have hend := hends s hs token hl (List.find?_some htoken)
    rw [hfree s hs] at hend
    cases hend
  · have hmem : last ∈ headerOf language text := by
      rw [headerOf_eq_of_split hsplit hbefore hlast]
      exact List.mem_append_right before List.mem_cons_self
    obtain ⟨l, hl, hcode⟩ := isCode_of_endsHeader (hsound last hmem) hlast
    have hfree : ∀ k ∈ before.filterMap Stretch.lexeme?, k.isCode text language = false := by
      intro k hk
      obtain ⟨s, hs, hk⟩ := List.mem_filterMap.mp hk
      rw [← Bool.not_eq_true]
      intro hcode'
      have hend := hends s (hsplit ▸ List.mem_append_left _ hs) k hk hcode'
      rw [hbefore s hs] at hend
      cases hend
    rw [hsplit, List.filterMap_append, List.filterMap_cons_some hl] at htoken ⊢
    rw [firstToken?, List.find?_append, List.find?_eq_none.mpr fun k hk => by simp [hfree k hk],
      List.find?_cons_of_pos hcode, Option.none_or, Option.some.injEq] at htoken
    subst htoken
    refine ⟨before, last, after, ⟨hsplit, hbefore, hlast, hl⟩, ?_⟩
    rw [inFront, List.takeWhile_append_of_pos fun k hk => by simp [hfree k hk],
      List.takeWhile_cons_of_neg (by simp [hcode]), List.append_nil]

namespace Parted

variable {before before' after after' : List Stretch} {last last' : Stretch} {token : Lexeme}

theorem last_liesIn (h : Parted language text before last after token) : last.LiesIn 0 text := by
  apply liesIn_of_mem_stretches (d := .ofLanguage language)
  rw [h.split]
  exact List.mem_append_right _ List.mem_cons_self

/-- What stands in front of the one that ends the header is what does not end it. -/
theorem mem_before_iff (h : Parted language text before last after token) :
    s ∈ before ↔ s ∈ stretches (.ofLanguage language) text ∧ s.start < last.start := by
  have hpairs := pairwise_stretches (.ofLanguage language) text
  have hlt := h.last_liesIn.start_lt_stop
  constructor
  · intro hs
    have hmem : s ∈ stretches (.ofLanguage language) text := h.split ▸ List.mem_append_left _ hs
    rw [h.split] at hpairs
    have hle := (List.pairwise_append.mp hpairs).2.2 s hs last List.mem_cons_self
    exact ⟨hmem, Nat.lt_of_lt_of_le (liesIn_of_mem_stretches hmem).start_lt_stop hle⟩
  · rintro ⟨hs, hstart⟩
    rw [h.split] at hs hpairs
    rcases List.mem_append.mp hs with hin | hin
    · exact hin
    · rcases List.mem_cons.mp hin with rfl | hin
      · exact absurd hstart (Nat.lt_irrefl _)
      · have hle := (List.pairwise_cons.mp (List.pairwise_append.mp hpairs).2.1).1 s hin
        omega

/-- Any list of stretches in front of it is the one that parts them. -/
theorem eq_before (h : Parted language text before last after token)
    (hsplit : stretches (.ofLanguage language) text = before' ++ last :: after') :
    before' = before := by
  have hpairs := pairwise_stretches (.ofLanguage language) text
  rw [hsplit] at hpairs
  have hfree : ∀ k ∈ before', k.endsHeader (.ofLanguage language) text = false := by
    intro k hk
    have hmem : k ∈ stretches (.ofLanguage language) text := hsplit ▸ List.mem_append_left _ hk
    have hle := (List.pairwise_append.mp hpairs).2.2 k hk last List.mem_cons_self
    exact h.noEnd k (h.mem_before_iff.mpr
      ⟨hmem, Nat.lt_of_lt_of_le (liesIn_of_mem_stretches hmem).start_lt_stop hle⟩)
  have heq := headerOf_eq_of_split hsplit hfree h.isEnd
  rw [headerOf_eq_of_split h.split h.noEnd h.isEnd] at heq
  exact (List.append_cancel_right heq).symm

theorem wellFormedUpTo (h : Parted language text before last after token) {ls : List Lexeme}
    (hwell : lexing text language = some ls) :
    WellFormedUpTo (.ofLanguage language) text last := by
  intro k hk hle
  have hlt := (liesIn_of_mem_stretches hk).start_lt_stop
  refine (Stretch.isSound_eq_true_iff.mp ((lexing_eq_some_iff.mp hwell).1 k ?_)).1
  rw [headerOf_eq_of_split h.split h.noEnd h.isEnd]
  exact List.mem_append_left _ (h.mem_before_iff.mpr ⟨hk, Nat.lt_of_lt_of_le hlt hle⟩)

/-- A first token of two texts that agree up to and with it is the same stretch of both. -/
theorem last_eq (h : Parted language text before last after token)
    (h' : Parted language text' before' last' after' token)
    (hsame : Agree token.stop text text') : last' = last := by
  have hmem : last ∈ stretches (.ofLanguage language) text := by
    rw [h.split]
    exact List.mem_append_right _ List.mem_cons_self
  have hmem' : last' ∈ stretches (.ofLanguage language) text' := by
    rw [h'.split]
    exact List.mem_append_right _ List.mem_cons_self
  have his := Stretch.is_of_lexeme? h.lexeme_eq
  have his' := Stretch.is_of_lexeme? h'.lexeme_eq
  have hkind := (Stretch.endsHeader_eq_true_iff.mp h.isEnd).1
  have hkind' := (Stretch.endsHeader_eq_true_iff.mp h'.isEnd).1
  have hstart : last'.start = last.start := his'.start_eq.symm.trans his.start_eq
  have hstop : last'.start + last'.text.length = last.start + last.text.length :=
    his'.stop_eq.symm.trans his.stop_eq
  have htext : last'.text = last.text := by
    rw [← slice_of_mem_stretches hmem, ← slice_of_mem_stretches hmem', hstart,
      show last'.text.length = last.text.length by omega]
    have hwidth : token.stop - last.start = last.text.length := by
      rw [his.stop_eq, Stretch.stop]
      omega
    have hdrop := hsame.drop last.start
    rw [hwidth] at hdrop
    exact hdrop.symm
  obtain ⟨start, kind, lastText⟩ := last
  obtain ⟨start', kind', lastText'⟩ := last'
  simp only at hkind hkind' hstart htext
  rw [hkind, hkind', hstart, htext]

end Parted

/-- The lexing reads what stands in front of a first token from left to right. -/
theorem lexing_leftToRight : LeftToRight lexing := by
  intro text text' language ls ls' token hwell hwell' htoken htoken' hsame
  obtain ⟨before, last, after, h, hfront⟩ := exists_parted hwell htoken
  obtain ⟨before', last', after', h', hfront'⟩ := exists_parted hwell' htoken'
  have hagree : Agree token.stop text text' := hsame.symm
  obtain rfl := h.last_eq h' hagree
  have hstop : last'.stop = token.stop := (Stretch.is_of_lexeme? h.lexeme_eq).stop_eq.symm
  obtain ⟨stem, rest, rest', hstem, hstem'⟩ :=
    stretches_local (keepsSlashes_ofLanguage language) (hstop ▸ hagree)
      (h.split ▸ List.mem_append_right _ List.mem_cons_self)
      (h'.split ▸ List.mem_append_right _ List.mem_cons_self)
      (h.wellFormedUpTo hwell) (h'.wellFormedUpTo hwell')
  rw [hfront, hfront', ← h.eq_before hstem, ← h'.eq_before hstem']

end Provenance.Header
