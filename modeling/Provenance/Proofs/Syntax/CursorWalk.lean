import Provenance.Proofs.Syntax.PreOrder

/-!
The walk with a cursor against the list of nodes in pre-order. Each poll is followed by a visit, and
the cursor moves on to the next node of the list, so the walk settles after as many polls as nodes.
What it has noted is a list of pieces and the line noted last; because leaves stand in order, a line
that has been noted before can only be this one.
-/
namespace Provenance.Syntax

open Node

variable {source : Text} {language : Language}

theorem visit_enter {p : Progress} {node : Node} (h : visit source language p node = .enter) :
    node.isExtra = false ∧ node.children ≠ [] := by
  unfold visit at h
  split at h
  · cases h
  · next hextra =>
    split at h
    · next hchildren =>
      refine ⟨by simpa using hextra, ?_⟩
      intro hnil
      simp [hnil] at hchildren
    · split at h
      · cases h
      · split at h <;> cases h

theorem visit_pass {p q : Progress} {node : Node} (h : visit source language p node = .pass q) :
    node.visits = [node] := by
  rw [visits_eq]
  unfold visit at h
  split at h
  · next hextra => simp [hextra]
  · split at h
    · cases h
    · next hchildren =>
      have hnil : node.children = [] := by simpa using hchildren
      simp [hnil]

/-- The walk asks one poll for each node that it comes to. -/
theorem settles_walk (c : Cursor) (p : Progress) :
    ∃ polls ≤ c.remaining.length,
      Settles (walk source language c p) polls (.ok (scan source language p c.remaining)) := by
  induction hweight : c.weight using Nat.strong_induction_on generalizing c p with
  | h weight ih =>
    subst hweight
    have hvisits : c.remaining = c.node :: c.remaining.tail := by
      rw [Cursor.remaining, visits_eq]
      rfl
    rw [walk]
    cases hvisit : visit source language p c.node with
    | found =>
      refine ⟨1 + 0, ?_, settles_bind settles_poll ?_⟩
      · rw [hvisits, List.length_cons]
        omega
      · rw [hvisits, scan, hvisit]
        exact settles_pure _
    | enter =>
      obtain ⟨hextra, hchildren⟩ := visit_enter hvisit
      cases hchild : c.firstChild? with
      | none =>
        obtain ⟨child, others, heq⟩ := List.exists_cons_of_ne_nil hchildren
        simp [Cursor.firstChild?, heq] at hchild
      | some d =>
        have hremaining := Cursor.remaining_firstChild? hextra hchild
        obtain ⟨polls, hpolls, hsettles⟩ := ih d.weight (Cursor.weight_firstChild? hchild) d p rfl
        refine ⟨1 + polls, ?_, settles_bind settles_poll ?_⟩
        · rw [hremaining, List.length_cons]
          omega
        · rw [hremaining, scan, hvisit]
          exact hsettles
    | pass q =>
      have hremaining : c.remaining = c.node :: c.rest := by
        rw [Cursor.remaining, visit_pass hvisit, List.singleton_append]
      have hrest := Cursor.remaining_next? c
      cases hnext : c.next? with
      | none =>
        rw [hnext] at hrest
        refine ⟨1 + 0, ?_, settles_bind settles_poll ?_⟩
        · rw [hremaining, List.length_cons]
          omega
        · rw [hremaining, scan, hvisit, ← hrest]
          exact settles_pure _
      | some d =>
        rw [hnext] at hrest
        obtain ⟨polls, hpolls, hsettles⟩ := ih d.weight (Cursor.weight_next? hnext) d q rfl
        have hd : d.remaining = c.rest := hrest
        refine ⟨1 + polls, ?_, settles_bind settles_poll ?_⟩
        · rw [hremaining, List.length_cons, ← hd]
          omega
        · rw [hremaining, scan, hvisit, ← hd]
          exact hsettles

/-- What has been noted about lines: the places where they start, the last of them first, none of them
behind the leaves that come next. -/
structure Remembers (p : Progress) (noted : List Nat) (source : Text) (language : Language)
    (nodes : List Node) : Prop where
  last_eq : p.lastDirective = noted.head?
  le_last : ∀ start ∈ noted, ∀ last, noted.head? = some last → start ≤ last
  last_le : ∀ last, noted.head? = some last → ∀ node ∈ nodes, ∀ line,
    node.directive? source language = some line → last ≤ line.start

theorem Remembers.mem_iff {p : Progress} {noted : List Nat} {node : Node} {nodes : List Node}
    {line : Line} (h : Remembers p noted source language (node :: nodes))
    (hline : node.directive? source language = some line) :
    line.start ∈ noted ↔ p.lastDirective = some line.start := by
  rw [h.last_eq]
  constructor
  · intro hmem
    cases hhead : noted.head? with
    | none => simp [List.head?_eq_none_iff.mp hhead] at hmem
    | some last =>
      have hle := h.le_last _ hmem last hhead
      have hge := h.last_le last hhead node List.mem_cons_self line hline
      rw [Option.some.injEq]
      omega
  · exact fun hhead => List.mem_of_head? hhead

theorem Remembers.tail {p q : Progress} {noted : List Nat} {node : Node} {nodes : List Node}
    (h : Remembers p noted source language (node :: nodes))
    (hq : q.lastDirective = p.lastDirective) : Remembers q noted source language nodes where
  last_eq := by rw [hq, h.last_eq]
  le_last := h.le_last
  last_le last hlast other hother := h.last_le last hlast other (List.mem_cons_of_mem _ hother)

/-- A line that has not been noted is noted in front of the others, and leaves that come later stand on
it or behind it. -/
theorem Remembers.note {p : Progress} {noted : List Nat} {node : Node} {nodes : List Node}
    {line : Line} (h : Remembers p noted source language (node :: nodes))
    (hin : ∀ other ∈ node :: nodes, other.start ≤ source.length)
    (hordered : ((node :: nodes).filter isLeaf).Pairwise fun a b => a.start ≤ b.start)
    (hline : node.directive? source language = some line) (items : List Trivia) :
    Remembers ⟨items, some line.start⟩ (line.start :: noted) source language nodes where
  last_eq := rfl
  le_last := by
    intro start hstart last hlast
    simp only [List.head?_cons, Option.some.injEq] at hlast
    subst hlast
    rcases List.mem_cons.mp hstart with rfl | hstart
    · exact Nat.le_refl _
    · cases hhead : noted.head? with
      | none => simp [List.head?_eq_none_iff.mp hhead] at hstart
      | some first =>
        have hle := h.le_last start hstart first hhead
        have hge := h.last_le first hhead node List.mem_cons_self line hline
        omega
  last_le := by
    intro last hlast other hother line' hline'
    simp only [List.head?_cons, Option.some.injEq] at hlast
    subst hlast
    obtain ⟨hcovers, hholding⟩ := coversText_of_directive? hline
    obtain ⟨hcovers', hholding'⟩ := coversText_of_directive? hline'
    have hleaf : node.isLeaf = true := by
      simp only [Node.coversText, Bool.and_eq_true] at hcovers
      exact hcovers.1.1
    have hleaf' : other.isLeaf = true := by
      simp only [Node.coversText, Bool.and_eq_true] at hcovers'
      exact hcovers'.1.1
    rw [List.filter_cons_of_pos hleaf] at hordered
    have hle : node.start ≤ other.start :=
      (List.pairwise_cons.mp hordered).1 other (List.mem_filter.mpr ⟨hother, hleaf'⟩)
    exact start_le_start hle (hin other (List.mem_cons_of_mem _ hother))
      (directiveHolding?_eq_some_iff.mp hholding).2.1
      (directiveHolding?_eq_some_iff.mp hholding').2.1

/-- What the walk does about a node that lies in the text. -/
theorem visit_eq (p : Progress) {node : Node} (h : node.start ≤ source.length) :
    visit source language p node =
      if node.isExtra then .pass (p.note (node.toTrivia source language))
      else if node.isToken source language then .found
      else
        match node.directive? source language with
        | some line => .pass (p.noteDirective line.start line.content)
        | none => if node.children.isEmpty then .pass p else .enter := by
  rw [visit, directiveLine?_eq language h]
  cases hextra : node.isExtra with
  | true => rfl
  | false =>
    cases hchildren : node.children.isEmpty with
    | false => simp [isToken, directive?, coversText, isLeaf, hchildren]
    | true =>
      cases hbare : node.isBare with
      | true =>
        have hcovers : node.coversText = false := by
          simp only [isBare, Bool.or_eq_true, beq_iff_eq] at hbare
          rcases hbare with hmissing | hspan
          · simp [coversText, hmissing]
          · simp [coversText, hspan]
        simp [isToken, directive?, hcovers]
      | false =>
        have hcovers : node.coversText = true := by
          simp only [isBare, Bool.or_eq_false_iff, beq_eq_false_iff_ne] at hbare
          simp [coversText, isLeaf, hextra, hchildren, hbare.1, hbare.2]
        simp only [isToken, directive?, hcovers, if_true, Bool.true_and]
        cases directiveHolding? source node.start language <;> rfl

theorem triviaBeforeToken_cons_of_token {noted : List Nat} {node : Node} (nodes : List Node)
    (h : node.isToken source language = true) :
    triviaBeforeToken source language noted (node :: nodes) = some [] := by
  simp [triviaBeforeToken, h, triviaOf]

theorem triviaBeforeToken_cons {noted : List Nat} {node : Node} (nodes : List Node)
    (h : node.isToken source language = false) :
    triviaBeforeToken source language noted (node :: nodes) =
      if nodes.any (·.isToken source language) then
        some (triviaOf source language noted
          (node :: nodes.takeWhile fun other => !other.isToken source language))
      else none := by
  simp [triviaBeforeToken, h]

/-- The walk with one line in memory finds the trivia of nodes that stand in order. -/
theorem scan_eq (nodes : List Node) (p : Progress) (noted : List Nat)
    (hin : ∀ node ∈ nodes, node.start ≤ source.length)
    (hordered : (nodes.filter isLeaf).Pairwise fun a b => a.start ≤ b.start)
    (h : Remembers p noted source language nodes) :
    scan source language p nodes =
      (triviaBeforeToken source language noted nodes).map
        fun placed => p.items ++ placed.map Placed.item := by
  induction nodes generalizing p noted with
  | nil => rfl
  | cons node nodes ih =>
    have hin' : ∀ other ∈ nodes, other.start ≤ source.length :=
      fun other hother => hin other (List.mem_cons_of_mem _ hother)
    have hordered' : (nodes.filter isLeaf).Pairwise fun a b => a.start ≤ b.start :=
      hordered.sublist ((List.sublist_cons_self node nodes).filter _)
    rw [scan, visit_eq p (hin node List.mem_cons_self)]
    cases hextra : node.isExtra with
    | true =>
      have htoken : node.isToken source language = false := by
        simp [isToken, coversText, isLeaf, hextra]
      have htail := ih (p.note (node.toTrivia source language)) noted hin' hordered' (h.tail rfl)
      rw [triviaBeforeToken_cons nodes htoken]
      simp only [if_true]
      rw [htail, triviaBeforeToken]
      split <;> simp [triviaOf, hextra, Progress.note, Node.placed]
    | false =>
      cases htoken : node.isToken source language with
      | true =>
        rw [triviaBeforeToken_cons_of_token nodes htoken]
        simp
      | false =>
        rw [triviaBeforeToken_cons nodes htoken]
        cases hline : node.directive? source language with
        | none =>
          have htail := ih p noted hin' hordered' (h.tail rfl)
          rw [triviaBeforeToken] at htail
          simp only [Bool.false_eq_true, if_false, triviaOf, hextra, hline]
          cases node.children.isEmpty with
          | true => exact htail
          | false => exact htail
        | some line =>
          simp only [Bool.false_eq_true, if_false, triviaOf, hextra, hline]
          by_cases hnoted : line.start ∈ noted
          · have hlast := (h.mem_iff hline).mp hnoted
            have htail := ih p noted hin' hordered' (h.tail rfl)
            rw [Progress.noteDirective, if_pos hlast, htail, triviaBeforeToken, if_pos hnoted]
          · have hlast := mt (h.mem_iff hline).mpr hnoted
            have htail := ih _ _ hin' hordered'
              (h.note hin hordered hline (p.items ++ [.other line.content]))
            rw [Progress.noteDirective, if_neg hlast, htail, triviaBeforeToken, if_neg hnoted]
            split <;> simp [Line.placed]

theorem remembers_none (nodes : List Node) :
    Remembers Progress.none [] source language nodes where
  last_eq := rfl
  le_last := by simp
  last_le := by simp

/-- The walk settles, after at most as many polls as the tree has nodes, on the leading trivia that
the recursion over the tree finds. -/
theorem settles_leadingTrivia (root : Node) (source : Text) (language : Language)
    (h : root.FitsIn source) :
    ∃ polls ≤ root.size,
      Settles (leadingTrivia root source language) polls
        (.ok ((placedTrivia root source language).map fun placed => placed.map Placed.item)) := by
  obtain ⟨polls, hpolls, hsettles⟩ := settles_walk (.ofRoot root) .none
  have hremaining : (Cursor.ofRoot root).remaining = root.visits := by
    simp [Cursor.ofRoot, Cursor.remaining, Cursor.rest, Cursor.visitsAbove]
  have hin : ∀ node ∈ root.visits, node.start ≤ source.length := by
    intro node hnode
    have hinside := h.inside node hnode
    omega
  rw [hremaining, scan_eq root.visits .none [] hin h.ordered (remembers_none _)] at hsettles
  refine ⟨polls, ?_, ?_⟩
  · rw [hremaining] at hpolls
    exact Nat.le_trans hpolls root.length_visits_le
  · rw [leadingTrivia, placedTrivia]
    simpa [Progress.none] using hsettles

/-- With a signal that does not fire on the way, the walk ends, after at most one poll a node, with the
pieces of trivia that the recursion over the tree finds in front of the first token. -/
theorem leadingTrivia_eq_placedTrivia (root : Node) (source : Text) (language : Language)
    (h : root.FitsIn source) :
    ∃ polls ≤ root.size, ∀ signal : Signal, signal.Lasts polls →
      (leadingTrivia root source language).run signal =
        (.ok ((placedTrivia root source language).map fun placed => placed.map Placed.item),
          signal.after polls) := by
  obtain ⟨polls, hpolls, hsettles⟩ := settles_leadingTrivia root source language h
  exact ⟨polls, hpolls, fun signal hlasts => (hsettles signal).1 hlasts⟩

/-- A condition with a comment on its line, a subtree without text and a missing leaf, then a block
with the first token in it. -/
def conditionalTree : Node :=
  ⟨"unit".toList, false, false, 0, 25,
    [⟨"if".toList, false, false, 0, 13,
        [⟨"#if".toList, false, false, 0, 3, []⟩, ⟨"A".toList, false, false, 4, 5, []⟩,
          ⟨"comment".toList, true, false, 6, 10, [⟨"text".toList, false, false, 8, 10, []⟩]⟩,
          ⟨"\n".toList, false, false, 10, 11, []⟩, ⟨"list".toList, false, false, 11, 11, []⟩]⟩,
      ⟨"block".toList, false, false, 11, 25,
        [⟨";".toList, false, true, 11, 11, []⟩, ⟨"line_comment".toList, true, false, 12, 19, []⟩,
          ⟨"\x7b".toList, false, false, 19, 20, []⟩, ⟨"comment".toList, true, false, 21, 24, []⟩]⟩]⟩

theorem leadingTrivia_conditionalTree :
    conditionalTree.FitsIn "#if A // x\n // <y>\n\x7b //z\n".toList ∧
      ∃ polls ≤ conditionalTree.size, ∀ signal : Signal, signal.Lasts polls →
        (leadingTrivia conditionalTree "#if A // x\n // <y>\n\x7b //z\n".toList .cSharp).run signal =
          (.ok (some [.other "#if A // x".toList, .singleLine "// x".toList,
            .singleLine "// <y>".toList]), signal.after polls) := by
  have hfits : conditionalTree.FitsIn "#if A // x\n // <y>\n\x7b //z\n".toList :=
    ⟨by decide, by decide⟩
  have hplaced : (placedTrivia conditionalTree "#if A // x\n // <y>\n\x7b //z\n".toList .cSharp).map
      (fun placed => placed.map Placed.item) = some [.other "#if A // x".toList,
        .singleLine "// x".toList, .singleLine "// <y>".toList] := by decide
  refine ⟨hfits, ?_⟩
  rw [← hplaced]
  exact leadingTrivia_eq_placedTrivia conditionalTree _ .cSharp hfits

end Provenance.Syntax
