import Provenance.Proofs.Scan.Classification
import Provenance.Proofs.Syntax.CursorWalk
import Provenance.Proofs.Syntax.LinePlaces

/-!
What a walk sees of a tree: its lexemes, which are the extra nodes and the leaves that cover text. The
leading trivia depend on nothing else. So whatever is known of the way a parser reads a language is
stated of the lexemes of its trees, and what follows for the leading trivia holds for every tree with
these lexemes.
-/
namespace Provenance.Syntax

inductive LexemeKind
  | comment
  /-- An extra piece that is no comment. -/
  | directive
  | token
deriving DecidableEq, Repr

structure Lexeme where
  kind : LexemeKind
  start : Nat
  stop : Nat
deriving DecidableEq, Repr

namespace Lexeme

/-- A token on no directive line. -/
def isCode (source : Text) (language : Language) (l : Lexeme) : Bool :=
  l.kind = .token && (directiveHolding? source l.start language).isNone

def slice (l : Lexeme) (source : Text) : Text := (source.drop l.start).take (l.stop - l.start)

def toTrivia (l : Lexeme) (source : Text) (language : Language) : Trivia :=
  let text := (l.slice source).trimEnd fun c => c == '\r' || c == '\n'
  if l.kind = .comment then ⟨Trivia.commentKind text language, text⟩ else .other text

def placed (l : Lexeme) (source : Text) (language : Language) : Placed :=
  ⟨l.start, l.stop, l.toTrivia source language⟩

/-- The trivia of lexemes in order. Lines that start at a place in `noted` have been taken already. -/
def triviaOf (source : Text) (language : Language) (noted : List Nat) : List Lexeme → List Placed
  | [] => []
  | l :: ls =>
    if l.kind = .token then
      match directiveHolding? source l.start language with
      | none => triviaOf source language noted ls
      | some line =>
        if line.start ∈ noted then triviaOf source language noted ls
        else line.placed :: triviaOf source language (line.start :: noted) ls
    else l.placed source language :: triviaOf source language noted ls

end Lexeme

def firstToken? (source : Text) (language : Language) (ls : List Lexeme) : Option Lexeme :=
  ls.find? (·.isCode source language)

/-- The lexemes in front of the first token. -/
def inFront (source : Text) (language : Language) (ls : List Lexeme) : List Lexeme :=
  ls.takeWhile fun l => !l.isCode source language

/-- The leading trivia that lexemes make. -/
def leadingOf (source : Text) (language : Language) (ls : List Lexeme) : Option (List Placed) :=
  (firstToken? source language ls).map fun _ =>
    Lexeme.triviaOf source language [] (inFront source language ls)

section

variable {source : Text} {language : Language} {noted : List Nat} {ls : List Lexeme} {l : Lexeme}
  {line : Line} {placed : Placed}

namespace Lexeme

theorem isCode_eq_true_iff : l.isCode source language = true ↔
    l.kind = .token ∧ directiveHolding? source l.start language = none := by
  simp [isCode]

theorem isCode_of_extra (h : l.kind ≠ .token) (source : Text) (language : Language) :
    l.isCode source language = false := by
  rw [← Bool.not_eq_true, isCode_eq_true_iff]
  exact fun hcode => h hcode.1

theorem text_toTrivia (l : Lexeme) (source : Text) (language : Language) :
    (l.toTrivia source language).text =
      (l.slice source).trimEnd fun c => c == '\r' || c == '\n' := by
  rw [toTrivia]
  split <;> rfl

/-- What the first lexeme adds: itself if it is extra, or its directive line unless that has been
noted. -/
theorem triviaOf_cons_cases (source : Text) (language : Language) (noted : List Nat) (l : Lexeme)
    (ls : List Lexeme) :
    (l.kind ≠ .token ∧ triviaOf source language noted (l :: ls) =
        l.placed source language :: triviaOf source language noted ls) ∨
    (l.kind = .token ∧
      (∀ line, directiveHolding? source l.start language = some line → line.start ∈ noted) ∧
      triviaOf source language noted (l :: ls) = triviaOf source language noted ls) ∨
    (l.kind = .token ∧ ∃ line, directiveHolding? source l.start language = some line ∧
      line.start ∉ noted ∧ triviaOf source language noted (l :: ls) =
        line.placed :: triviaOf source language (line.start :: noted) ls) := by
  rw [triviaOf]
  by_cases hkind : l.kind = .token
  · cases hline : directiveHolding? source l.start language with
    | none => exact Or.inr (Or.inl ⟨hkind, nofun, by simp [hkind]⟩)
    | some line =>
      by_cases hnoted : line.start ∈ noted
      · refine Or.inr (Or.inl ⟨hkind, ?_, by simp [hkind, hnoted]⟩)
        intro other hother
        exact Option.some.inj hother ▸ hnoted
      · exact Or.inr (Or.inr ⟨hkind, line, rfl, hnoted, by simp [hkind, hnoted]⟩)
  · exact Or.inl ⟨hkind, if_neg hkind⟩

/-- Every piece of trivia is an extra lexeme, or a directive line that holds a token and has not been
noted before. -/
theorem mem_triviaOf (h : placed ∈ triviaOf source language noted ls) :
    ∃ l ∈ ls, (l.kind ≠ .token ∧ placed = l.placed source language) ∨
      (l.kind = .token ∧ ∃ line, directiveHolding? source l.start language = some line ∧
        line.start ∉ noted ∧ placed = line.placed) := by
  induction ls generalizing noted with
  | nil => cases h
  | cons l ls ih =>
    have hlater : ∀ noted' : List Nat, (∀ start, start ∉ noted' → start ∉ noted) →
        placed ∈ triviaOf source language noted' ls →
        ∃ other ∈ l :: ls, (other.kind ≠ .token ∧ placed = other.placed source language) ∨
          (other.kind = .token ∧ ∃ line, directiveHolding? source other.start language = some line ∧
            line.start ∉ noted ∧ placed = line.placed) := by
      intro noted' hnoted h
      obtain ⟨other, hother, hcases⟩ := ih h
      refine ⟨other, List.mem_cons_of_mem l hother, hcases.imp_right ?_⟩
      rintro ⟨hkind, line, hline, hstart, hplaced⟩
      exact ⟨hkind, line, hline, hnoted _ hstart, hplaced⟩
    rcases triviaOf_cons_cases source language noted l ls with
      ⟨hkind, heq⟩ | ⟨-, -, heq⟩ | ⟨hkind, line, hline, hnoted, heq⟩
    · rw [heq] at h
      rcases List.mem_cons.mp h with hplaced | h
      · exact ⟨l, List.mem_cons_self, Or.inl ⟨hkind, hplaced⟩⟩
      · exact hlater noted (fun _ => id) h
    · rw [heq] at h
      exact hlater noted (fun _ => id) h
    · rw [heq] at h
      rcases List.mem_cons.mp h with hplaced | h
      · exact ⟨l, List.mem_cons_self, Or.inr ⟨hkind, line, hline, hnoted, hplaced⟩⟩
      · exact hlater _ (fun _ => mt (List.mem_cons_of_mem _)) h

theorem placed_mem_triviaOf (hl : l ∈ ls) (hkind : l.kind ≠ .token) :
    l.placed source language ∈ triviaOf source language noted ls := by
  induction ls generalizing noted with
  | nil => cases hl
  | cons other ls ih =>
    rcases List.mem_cons.mp hl with rfl | hl
    · rw [triviaOf, if_neg hkind]
      exact List.mem_cons_self
    · rcases triviaOf_cons_cases source language noted other ls with
        ⟨-, heq⟩ | ⟨-, -, heq⟩ | ⟨-, line, -, -, heq⟩
      · rw [heq]
        exact List.mem_cons_of_mem _ (ih hl)
      · rw [heq]
        exact ih hl
      · rw [heq]
        exact List.mem_cons_of_mem _ (ih hl)

/-- A directive line that holds a token is a piece of trivia, unless it has been noted before. -/
theorem line_placed_mem_triviaOf (hl : l ∈ ls) (hkind : l.kind = .token)
    (hline : directiveHolding? source l.start language = some line) (hnoted : line.start ∉ noted) :
    line.placed ∈ triviaOf source language noted ls := by
  induction ls generalizing noted with
  | nil => cases hl
  | cons other ls ih =>
    rcases List.mem_cons.mp hl with rfl | hl
    · simp [triviaOf, hkind, hline, hnoted]
    · rcases triviaOf_cons_cases source language noted other ls with
        ⟨-, heq⟩ | ⟨-, -, heq⟩ | ⟨-, line', hline', -, heq⟩
      · rw [heq]
        exact List.mem_cons_of_mem _ (ih hl hnoted)
      · rw [heq]
        exact ih hl hnoted
      · rw [heq]
        by_cases hstart : line.start = line'.start
        · have hmem := mem_lines (directiveHolding?_eq_some_iff.mp hline).2.1
          have hmem' := mem_lines (directiveHolding?_eq_some_iff.mp hline').2.1
          rw [Line.eq_of_start_eq hmem hmem' hstart]
          exact List.mem_cons_self
        · apply List.mem_cons_of_mem
          apply ih hl
          intro hmem
          exact (List.mem_cons.mp hmem).elim hstart hnoted

/-- Extra lexemes are taken as they come. -/
theorem triviaOf_append_of_extra {extras : List Lexeme} (h : ∀ l ∈ extras, l.kind ≠ .token)
    (ls : List Lexeme) :
    triviaOf source language noted (extras ++ ls) =
      extras.map (·.placed source language) ++ triviaOf source language noted ls := by
  induction extras with
  | nil => rfl
  | cons l extras ih =>
    rw [List.cons_append, triviaOf, if_neg (h l List.mem_cons_self),
      ih fun other hother => h other (List.mem_cons_of_mem _ hother)]
    rfl

/-- Lexemes that are cut out of two texts alike and stand on the same directive lines make the same
trivia. -/
theorem triviaOf_congr {source' : Text}
    (hplaced : ∀ l ∈ ls, l.kind ≠ .token →
      l.placed source' language = l.placed source language)
    (hlines : ∀ l ∈ ls, l.kind = .token →
      directiveHolding? source' l.start language = directiveHolding? source l.start language) :
    triviaOf source' language noted ls = triviaOf source language noted ls := by
  induction ls generalizing noted with
  | nil => rfl
  | cons l ls ih =>
    have hrest : ∀ noted, triviaOf source' language noted ls = triviaOf source language noted ls := by
      intro noted
      apply ih
      · exact fun other hother => hplaced other (List.mem_cons_of_mem l hother)
      · exact fun other hother => hlines other (List.mem_cons_of_mem l hother)
    rw [triviaOf, triviaOf]
    split
    · next hkind => simp only [hlines l List.mem_cons_self hkind, hrest]
    · next hkind => rw [hplaced l List.mem_cons_self hkind, hrest]

end Lexeme

/-- The lexemes are parted by the first token. -/
theorem exists_split_of_firstToken {token : Lexeme} (h : firstToken? source language ls = some token) :
    token.isCode source language = true ∧ ∃ after, ls = inFront source language ls ++ token :: after ∧
      ∀ l ∈ inFront source language ls, l.isCode source language = false := by
  obtain ⟨htoken, before, after, hsplit, hbefore⟩ := List.find?_eq_some_iff_append.mp h
  have hfront : inFront source language ls = before := by
    rw [inFront, hsplit, List.takeWhile_append_of_pos hbefore,
      List.takeWhile_cons_of_neg (by simp [htoken]), List.append_nil]
  refine ⟨htoken, after, ?_, ?_⟩
  · rw [hfront, hsplit]
  · rw [hfront]
    intro l hl
    simpa using hbefore l hl

/-- Lexemes with a first token behind those that are no code. -/
theorem leadingOf_append {before after : List Lexeme} {token : Lexeme}
    (hbefore : ∀ l ∈ before, l.isCode source language = false)
    (htoken : token.isCode source language = true) :
    leadingOf source language (before ++ token :: after) =
      some (Lexeme.triviaOf source language [] before) := by
  have hfind : firstToken? source language (before ++ token :: after) = some token := by
    rw [firstToken?, List.find?_append, List.find?_eq_none.mpr fun l hl => by simp [hbefore l hl],
      List.find?_cons_of_pos htoken]
    rfl
  have hfront : inFront source language (before ++ token :: after) = before := by
    rw [inFront, List.takeWhile_append_of_pos fun l hl => by simp [hbefore l hl],
      List.takeWhile_cons_of_neg (by simp [htoken]), List.append_nil]
  rw [leadingOf, hfind, hfront]
  rfl

theorem leadingOf_eq_none (h : ∀ l ∈ ls, l.isCode source language = false) :
    leadingOf source language ls = none := by
  rw [leadingOf, firstToken?, List.find?_eq_none.mpr fun l hl => by simp [h l hl]]
  rfl

/-- Lexemes of another text that are code just if these are have the first token at the same place in
the list. -/
theorem leadingOf_map {source' : Text} {f : Lexeme → Lexeme}
    (hcode : ∀ l ∈ ls, (f l).isCode source' language = l.isCode source language) :
    leadingOf source' language (ls.map f) = (firstToken? source language ls).map fun _ =>
      Lexeme.triviaOf source' language [] ((inFront source language ls).map f) := by
  cases htoken : firstToken? source language ls with
  | none =>
    apply leadingOf_eq_none
    intro l hl
    obtain ⟨k, hk, rfl⟩ := List.mem_map.mp hl
    rw [hcode k hk]
    exact Bool.eq_false_iff.mpr (List.find?_eq_none.mp htoken k hk)
  | some token =>
    obtain ⟨htrue, after, hsplit, hfree⟩ := exists_split_of_firstToken htoken
    generalize inFront source language ls = front at hsplit hfree
    subst hsplit
    rw [List.map_append, List.map_cons, leadingOf_append]
    · rfl
    · intro l hl
      obtain ⟨k, hk, rfl⟩ := List.mem_map.mp hl
      rw [hcode k (List.mem_append_left _ hk), hfree k hk]
    · rw [hcode token (List.mem_append_right _ List.mem_cons_self), htrue]

/-- Nothing behind the first token matters. -/
theorem leadingOf_of_prefix {all : List Lexeme} (h : ls <+: all)
    (hwhole : firstToken? source language ls = none → ls = all) :
    leadingOf source language ls = leadingOf source language all := by
  cases htoken : firstToken? source language ls with
  | none => rw [hwhole htoken]
  | some token =>
    obtain ⟨hcode, after, hsplit, hfree⟩ := exists_split_of_firstToken htoken
    obtain ⟨rest, hall⟩ := h
    have hlonger : all = inFront source language ls ++ token :: (after ++ rest) := by
      rw [← hall]
      conv => lhs; rw [hsplit, List.append_assoc, List.cons_append]
    conv => lhs; rw [hsplit]
    rw [hlonger, leadingOf_append hfree hcode, leadingOf_append hfree hcode]

end

namespace Node

/-- The lexeme that a node is, if it is one. -/
def lexeme? (node : Node) : Option Lexeme :=
  if node.isExtra then
    some ⟨if node.isComment then .comment else .directive, node.start, node.stop⟩
  else if node.coversText then some ⟨.token, node.start, node.stop⟩
  else none

/-- The lexemes of a tree, in the order in which a walk comes to them. -/
def lexemes (root : Node) : List Lexeme := root.visits.filterMap lexeme?

variable {node : Node} {nodes : List Node} {l : Lexeme} {source : Text} {language : Language}
  {noted : List Nat}

theorem placed_of_lexeme? (hextra : node.isExtra = true) (h : node.lexeme? = some l) :
    l.kind ≠ .token ∧ l.placed source language = node.placed source language := by
  rw [lexeme?, if_pos hextra, Option.some.injEq] at h
  subst h
  cases hcomment : node.isComment with
  | true => simp [Lexeme.placed, Lexeme.toTrivia, Lexeme.slice, placed, toTrivia, slice, hcomment]
  | false => simp [Lexeme.placed, Lexeme.toTrivia, Lexeme.slice, placed, toTrivia, slice, hcomment]

theorem isExtra_of_coversText (h : node.coversText = true) : node.isExtra = false := by
  rw [coversText, Bool.and_eq_true, Bool.and_eq_true, isLeaf, Bool.and_eq_true] at h
  simpa using h.1.1.1

theorem lexeme?_of_coversText (h : node.coversText = true) :
    node.lexeme? = some ⟨.token, node.start, node.stop⟩ := by
  rw [lexeme?, isExtra_of_coversText h, if_neg Bool.false_ne_true, if_pos h]

/-- The trivia of nodes are those of the lexemes among them. -/
theorem triviaOf_eq (nodes : List Node) (noted : List Nat) :
    Syntax.triviaOf source language noted nodes =
      Lexeme.triviaOf source language noted (nodes.filterMap lexeme?) := by
  induction nodes generalizing noted with
  | nil => rfl
  | cons node nodes ih =>
    rw [Syntax.triviaOf]
    cases hextra : node.isExtra with
    | true =>
      obtain ⟨l, hl⟩ : ∃ l, node.lexeme? = some l := ⟨_, if_pos hextra⟩
      obtain ⟨hkind, hplaced⟩ : l.kind ≠ .token ∧
          l.placed source language = node.placed source language := placed_of_lexeme? hextra hl
      rw [if_pos rfl, List.filterMap_cons_some hl, Lexeme.triviaOf, if_neg hkind, hplaced, ih]
    | false =>
      cases hcovers : node.coversText with
      | true =>
        have hline : node.directive? source language =
            directiveHolding? source node.start language := by
          rw [directive?, if_pos hcovers]
        rw [if_neg Bool.false_ne_true, List.filterMap_cons_some (lexeme?_of_coversText hcovers),
          Lexeme.triviaOf, if_pos rfl, hline]
        cases directiveHolding? source node.start language with
        | none => simp only [ih]
        | some line => simp only [ih]
      | false =>
        have hnone : node.lexeme? = none := by simp [lexeme?, hextra, hcovers]
        have hline : node.directive? source language = none := by simp [directive?, hcovers]
        rw [if_neg Bool.false_ne_true, List.filterMap_cons_none hnone, hline, ih]

theorem isToken_eq_any (node : Node) :
    node.isToken source language = node.lexeme?.any (·.isCode source language) := by
  cases hcovers : node.coversText with
  | true => simp [isToken, directive?, hcovers, lexeme?_of_coversText hcovers, Lexeme.isCode]
  | false =>
    cases hextra : node.isExtra with
    | true =>
      obtain ⟨l, hl⟩ : ∃ l, node.lexeme? = some l := ⟨_, if_pos hextra⟩
      obtain ⟨hkind, -⟩ : l.kind ≠ .token ∧
          l.placed source language = node.placed source language := placed_of_lexeme? hextra hl
      simp [isToken, hcovers, hl, Lexeme.isCode, hkind]
    | false => simp [isToken, hcovers, lexeme?, hextra]

/-- The leading trivia of a tree are those of its lexemes. -/
theorem triviaBeforeToken_eq (nodes : List Node) :
    triviaBeforeToken source language [] nodes =
      leadingOf source language (nodes.filterMap lexeme?) := by
  have hany : nodes.any (·.isToken source language) =
      (firstToken? source language (nodes.filterMap lexeme?)).isSome := by
    induction nodes with
    | nil => rfl
    | cons node nodes ih =>
      rw [List.any_cons, ih, isToken_eq_any]
      cases hl : node.lexeme? with
      | none => rw [List.filterMap_cons_none hl]; rfl
      | some l =>
        rw [List.filterMap_cons_some hl]
        cases hcode : l.isCode source language <;> simp [hcode, firstToken?]
  have hfront : (nodes.takeWhile fun node => !node.isToken source language).filterMap lexeme? =
      inFront source language (nodes.filterMap lexeme?) := by
    clear hany
    induction nodes with
    | nil => rfl
    | cons node nodes ih =>
      rw [List.takeWhile_cons, isToken_eq_any]
      cases hl : node.lexeme? with
      | none =>
        simp only [Option.any_none, Bool.not_false, if_true]
        rw [List.filterMap_cons_none hl, List.filterMap_cons_none hl, ih]
      | some l =>
        rw [List.filterMap_cons_some hl, inFront, List.takeWhile_cons]
        cases hcode : l.isCode source language with
        | true => simp [hcode]
        | false =>
          simp only [Option.any_some, hcode, Bool.not_false, if_true]
          rw [List.filterMap_cons_some hl, ih, inFront]
  rw [triviaBeforeToken, hany, triviaOf_eq, hfront, leadingOf]
  cases firstToken? source language (nodes.filterMap lexeme?) <;> rfl

theorem placedTrivia_eq (root : Node) (source : Text) (language : Language) :
    placedTrivia root source language = leadingOf source language root.lexemes :=
  triviaBeforeToken_eq root.visits

end Node

/-- The lexemes of the well-formed texts of each language. -/
abbrev Lexing := Text → Language → Option (List Lexeme)

/-- Lexemes that stand one behind the other in a text and cover some of it each. -/
structure InOrder (source : Text) (ls : List Lexeme) : Prop where
  apart : ls.Pairwise fun a b => a.stop ≤ b.start
  inside : ∀ l ∈ ls, l.start < l.stop ∧ l.stop ≤ source.length

theorem mem_of_mem_inFront {source : Text} {language : Language} {l : Lexeme} {ls : List Lexeme}
    (h : l ∈ inFront source language ls) : l ∈ ls :=
  (List.takeWhile_prefix _).subset h

namespace InOrder

variable {source : Text} {language : Language} {noted : List Nat} {l : Lexeme} {ls : List Lexeme}
  {placed : Placed}

theorem tail (h : InOrder source (l :: ls)) : InOrder source ls where
  apart := (List.pairwise_cons.mp h.apart).2
  inside other hother := h.inside other (List.mem_cons_of_mem l hother)

theorem to_inFront (h : InOrder source ls) (language : Language) :
    InOrder source (inFront source language ls) where
  apart := h.apart.sublist (List.takeWhile_sublist _)
  inside l hl := h.inside l (mem_of_mem_inFront hl)

/-- Every piece of trivia is cut out of the text at its place. -/
theorem isPrefix_drop (h : InOrder source ls)
    (hplaced : placed ∈ Lexeme.triviaOf source language noted ls) :
    placed.item.text <+: source.drop placed.start := by
  obtain ⟨l, hl, ⟨-, rfl⟩ | ⟨hkind, line, hline, -, rfl⟩⟩ := Lexeme.mem_triviaOf hplaced
  · have hslice : l.slice source <+: source.drop l.start := List.take_prefix _ _
    have htrimmed : (l.toTrivia source language).text <+: l.slice source := by
      obtain ⟨rest, heq, -⟩ :=
        exists_append_trimEnd (fun c => c == '\r' || c == '\n') (l.slice source)
      rw [Lexeme.text_toTrivia]
      exact ⟨rest, heq.symm⟩
    exact htrimmed.trans hslice
  · have hinside := h.inside l hl
    obtain ⟨rest, heq, -⟩ := exists_append_trimEnd (· == '\r') line.text
    have hcontent : line.content <+: line.text := ⟨rest, heq.symm⟩
    exact hcontent.trans
      (text_prefix_of_lineHolding? (directiveHolding?_eq_some_iff.mp hline).2.1 (by omega))

end InOrder

/-- The parser makes a tree of every well-formed text. Its comments and directives are extra nodes, its
leaves are the tokens, and both stand in the order of the text. What stands behind the first token may
be missing. -/
structure Follows (parser : Parser) (lexing : Lexing) : Prop where
  exists_root : ∀ text language ls, lexing text language = some ls →
    ∃ root, parser text language = some root ∧ root.FitsIn text ∧ root.lexemes <+: ls ∧
      (firstToken? text language root.lexemes = none → root.lexemes = ls)
  inOrder : ∀ text language ls, lexing text language = some ls → InOrder text ls

/-- A parser that follows a lexing follows it of fewer texts. -/
theorem Follows.restrict {parser : Parser} {lexing lexing' : Lexing} (h : Follows parser lexing)
    (hfewer : ∀ text language ls, lexing' text language = some ls → lexing text language = some ls) :
    Follows parser lexing' where
  exists_root text language ls hwell := h.exists_root text language ls (hfewer _ _ _ hwell)
  inOrder text language ls hwell := h.inOrder text language ls (hfewer _ _ _ hwell)

/-- What stands in front of the first token is read without a look behind it. -/
def LeftToRight (lexing : Lexing) : Prop :=
  ∀ text text' language ls ls' token, lexing text language = some ls →
    lexing text' language = some ls' → firstToken? text language ls = some token →
    firstToken? text' language ls' = some token → text'.take token.stop = text.take token.stop →
    inFront text' language ls' = inFront text language ls

section

variable {parser : Parser} {lexing : Lexing} {text : Text} {language : Language} {ls : List Lexeme}

/-- The leading trivia of a well-formed text are those of its lexemes. -/
theorem Follows.settles (h : Follows parser lexing) (hwell : lexing text language = some ls) :
    ∃ tree polls, SyntaxTree.parse parser text language = some tree ∧
      Settles tree.leadingTrivia polls
        (.ok ((leadingOf text language ls).map fun items => items.map Placed.item)) := by
  obtain ⟨root, hroot, hfits, hprefix, hwhole⟩ := h.exists_root text language ls hwell
  obtain ⟨polls, -, hsettles⟩ := settles_leadingTrivia root text language hfits
  rw [Node.placedTrivia_eq, leadingOf_of_prefix hprefix hwhole] at hsettles
  exact ⟨⟨root, text, language⟩, polls, by rw [SyntaxTree.parse, hroot]; rfl, hsettles⟩

theorem Follows.run_leadingTrivia (h : Follows parser lexing) {file : SourceFile}
    (hlanguage : file.language? = some language) (hwell : lexing file.text language = some ls) :
    (file.leadingTrivia parser).run .never =
      (.ok ((leadingOf file.text language ls).map fun items => items.map Placed.item), .never) := by
  obtain ⟨tree, polls, htree, hsettles⟩ := h.settles hwell
  rw [SourceFile.leadingTrivia, hlanguage]
  simp only [htree]
  exact (settles_bind settles_poll (settles_bind settles_poll hsettles)).run_never

end

end Provenance.Syntax
