import Provenance.Header.Tree
import Provenance.Proofs.Header.PieceLocality

/-!
All stretches of a text, also those that a header no longer lists because they stand behind its first
token. They are consecutive and cover the text; the header lists them up to the first one that is
code. Two texts that agree up to and with a stretch of both have the same stretches up to it.
-/
namespace Provenance.Header

/-- A piece with the place where it starts. -/
structure Stretch where
  start : Nat
  kind : PieceKind
  text : Text
deriving DecidableEq, Repr

namespace Stretch

def stop (l : Stretch) : Nat := l.start + l.text.length

end Stretch

/-- The stretches of a text that starts at `start` while something may be open. -/
def stretchesFrom (d : Dialect) (levels : List Level) (start : Nat) (text : Text) : List Stretch :=
  match text with
  | [] => []
  | c :: t =>
    let (kind, n, opened) := d.recognize levels c t
    ⟨start, kind, c :: t.take n⟩ :: stretchesFrom d opened (start + (t.take n).length + 1) (t.drop n)
termination_by text.length
decreasing_by
  simp only [List.length_drop, List.length_cons]
  omega

def stretches (d : Dialect) (text : Text) : List Stretch :=
  match text with
  | [] => []
  | c :: t =>
    if c = Utf8.byteOrderMark then ⟨0, .blank, [c]⟩ :: stretchesFrom d [] 1 t
    else stretchesFrom d [] 0 (c :: t)

section

variable {d : Dialect} {levels : List Level} {start : Nat} {text : Text} {l : Stretch}

theorem stretchesFrom_cons (d : Dialect) (levels : List Level) (start : Nat) (c : Char) (t : Text) :
    stretchesFrom d levels start (c :: t) =
      ⟨start, (d.recognize levels c t).1, c :: t.take (d.recognize levels c t).2.1⟩ ::
        stretchesFrom d (d.recognize levels c t).2.2
          (start + (t.take (d.recognize levels c t).2.1).length + 1)
          (t.drop (d.recognize levels c t).2.1) := by
  rw [stretchesFrom]

/-- A stretch is a stretch of the text with at least one character. -/
structure Stretch.LiesIn (l : Stretch) (start : Nat) (text : Text) : Prop where
  le_start : start ≤ l.start
  stop_le : l.stop ≤ start + text.length
  ne_nil : l.text ≠ []
  head?_eq : (text.drop (l.start - start)).head? = l.text.head?

theorem Stretch.LiesIn.start_lt_stop (h : l.LiesIn start text) : l.start < l.stop := by
  have hpos : 0 < l.text.length := List.length_pos_iff.mpr h.ne_nil
  rw [Stretch.stop]
  omega

theorem liesIn_of_mem_stretchesFrom (h : l ∈ stretchesFrom d levels start text) :
    l.LiesIn start text := by
  fun_induction stretchesFrom d levels start text with
  | case1 => cases h
  | case2 levels start c t kind n opened hrec ih =>
    rcases List.mem_cons.mp h with rfl | h
    · refine ⟨Nat.le_refl _, ?_, nofun, ?_⟩
      · simp only [Stretch.stop, List.length_cons, List.length_take]
        omega
      · rw [Nat.sub_self]
        rfl
    · obtain ⟨hle, hstop, hne, hhead⟩ := ih h
      have hpos : 0 < l.text.length := List.length_pos_iff.mpr hne
      rw [List.length_take] at hle hstop hhead
      rw [List.length_drop, Stretch.stop] at hstop
      refine ⟨by omega, ?_, hne, ?_⟩
      · rw [Stretch.stop, List.length_cons]
        omega
      · rw [List.drop_drop] at hhead
        have hoffset : l.start - start = n + (l.start - (start + min n t.length + 1)) + 1 := by
          omega
        rw [hoffset, List.drop_succ_cons]
        exact hhead

/-- The stretches stand one behind the other. -/
theorem pairwise_stretchesFrom (d : Dialect) (levels : List Level) (start : Nat) (text : Text) :
    (stretchesFrom d levels start text).Pairwise fun a b => a.stop ≤ b.start := by
  fun_induction stretchesFrom d levels start text with
  | case1 => exact List.Pairwise.nil
  | case2 levels start c t kind n opened hrec ih =>
    refine List.pairwise_cons.mpr ⟨?_, ih⟩
    intro other hother
    have hle := (liesIn_of_mem_stretchesFrom hother).le_start
    simp only [Stretch.stop, List.length_cons]
    omega

end

/-- What the visible part of the last line of a text begins with. -/
def lineFront (before : Text) : LineFront := before.foldl LineFront.step .nothing

namespace Stretch

/-- The same for the line of a stretch, up to and with its first character. -/
def front (source : Text) (l : Stretch) : LineFront :=
  match l.text with
  | [] => lineFront (source.take l.start)
  | c :: _ => (lineFront (source.take l.start)).including c

/-- Whether a header ends with the stretch. -/
def endsHeader (d : Dialect) (source : Text) (l : Stretch) : Bool :=
  l.kind = .token ∧ ¬(d.directives = true ∧ l.front source = .sign)

def node? (l : Stretch) : Option Syntax.Node := (Piece.mk l.kind l.text).toNode? l.start

end Stretch

/-- The stretches up to and with the first one that ends the header. -/
def header (d : Dialect) (source : Text) (ls : List Stretch) : List Stretch :=
  (ls.takeWhile fun l => !l.endsHeader d source) ++ (ls.find? (·.endsHeader d source)).toList

theorem header_cons_of_ends {d : Dialect} {source : Text} {l : Stretch} (ls : List Stretch)
    (h : l.endsHeader d source = true) : header d source (l :: ls) = [l] := by
  rw [header, List.takeWhile_cons, List.find?_cons_of_pos h, h]
  rfl

theorem header_cons_of_not_ends {d : Dialect} {source : Text} {l : Stretch} (ls : List Stretch)
    (h : l.endsHeader d source = false) :
    header d source (l :: ls) = l :: header d source ls := by
  rw [header, List.takeWhile_cons, List.find?_cons_of_neg (by simp [h]), h]
  rfl

theorem filterMap_cons_eq {α β : Type} (f : α → Option β) (a : α) (as : List α) :
    (a :: as).filterMap f = (f a).toList ++ as.filterMap f := by
  rw [List.filterMap_cons]
  cases f a <;> rfl

/-- The nodes of a header are those of its stretches. -/
theorem nodesFrom_piecesFrom (d : Dialect) (before : Text) (levels : List Level) (text : Text) :
    nodesFrom before.length (piecesFrom d ⟨lineFront before, levels⟩ text) =
      (header d (before ++ text) (stretchesFrom d levels before.length text)).filterMap
        Stretch.node? := by
  induction hlength : text.length using Nat.strong_induction_on generalizing before levels text with
  | h length ih =>
    subst hlength
    cases text with
    | nil => simp [piecesFrom, stretchesFrom, header, nodesFrom]
    | cons c t =>
      have htake : (before ++ c :: t).take before.length = before := List.take_left
      have hfront : Stretch.front (before ++ c :: t) ⟨before.length, (d.recognize levels c t).1,
          c :: t.take (d.recognize levels c t).2.1⟩ = (lineFront before).including c := by
        simp only [Stretch.front, htake]
      rw [stretchesFrom_cons, piecesFrom]
      simp only []
      split
      · next hstop =>
        rw [header_cons_of_ends]
        · rw [nodesFrom, nodesFrom, List.append_nil, filterMap_cons_eq]
          exact (List.append_nil _).symm
        · simp only [Stretch.endsHeader, hfront, decide_eq_true_eq]
          exact hstop
      · next hstop =>
        rw [header_cons_of_not_ends]
        · have hsplit : before ++ c :: t = (before ++ c :: t.take (d.recognize levels c t).2.1) ++
              t.drop (d.recognize levels c t).2.1 := by
            simp
          have hfold : (c :: t.take (d.recognize levels c t).2.1).foldl LineFront.step
              (lineFront before) =
              lineFront (before ++ c :: t.take (d.recognize levels c t).2.1) := by
            rw [lineFront, lineFront, List.foldl_append]
          have hlen : (before ++ c :: t.take (d.recognize levels c t).2.1).length =
              before.length + (t.take (d.recognize levels c t).2.1).length + 1 := by
            rw [List.length_append, List.length_cons, Nat.add_assoc]
          have hrest := ih (t.drop (d.recognize levels c t).2.1).length
            (by rw [List.length_drop, List.length_cons]; omega)
            (before ++ c :: t.take (d.recognize levels c t).2.1) (d.recognize levels c t).2.2
            (t.drop (d.recognize levels c t).2.1) rfl
          rw [← hsplit, hlen] at hrest
          rw [nodesFrom, hfold, filterMap_cons_eq]
          exact congrArg _ hrest
        · simp only [Stretch.endsHeader, hfront, decide_eq_false_iff_not]
          exact hstop

/-- The nodes of the header of a text. -/
theorem nodesFrom_pieces (d : Dialect) (text : Text) :
    nodesFrom 0 (pieces d text) =
      (header d text (stretches d text)).filterMap Stretch.node? := by
  cases text with
  | nil => rfl
  | cons c t =>
    rw [pieces, stretches]
    split
    · next hmark =>
      rw [header_cons_of_not_ends _ rfl, nodesFrom, filterMap_cons_eq]
      exact congrArg _ (nodesFrom_piecesFrom d [c] [] t)
    · exact nodesFrom_piecesFrom d [] [] (c :: t)

section

variable {d : Dialect} {l : Stretch}

/-- A stretch that others follow has all the characters that were counted. -/
theorem length_take_of_mem {levels : List Level} {start n : Nat} {t : Text}
    (h : l ∈ stretchesFrom d levels start (t.drop n)) : (t.take n).length = n := by
  have hlies := liesIn_of_mem_stretchesFrom h
  have hpos : 0 < l.text.length := List.length_pos_iff.mpr hlies.ne_nil
  have hle := hlies.le_start
  have hstop := hlies.stop_le
  rw [Stretch.stop, List.length_drop] at hstop
  rw [List.length_take]
  omega

/-- The text of a stretch is what stands at its place. -/
theorem slice_of_mem_stretchesFrom {levels : List Level} {start : Nat}
    (h : l ∈ stretchesFrom d levels start text) :
    (text.drop (l.start - start)).take l.text.length = l.text := by
  fun_induction stretchesFrom d levels start text with
  | case1 => cases h
  | case2 levels start c t kind n opened hrec ih =>
    rcases List.mem_cons.mp h with rfl | h
    · simp
    · have hle := (liesIn_of_mem_stretchesFrom h).le_start
      have hcount := length_take_of_mem h
      have hrest := ih h
      rw [hcount] at hle hrest
      rw [List.drop_drop] at hrest
      have hoffset : l.start - start = n + (l.start - (start + n + 1)) + 1 := by omega
      rw [hoffset, List.drop_succ_cons]
      exact hrest

theorem stretchesFrom_local {levels : List Level} {start : Nat} {text text' : Text}
    (hd : d.KeepsSlashes) (h : Agree (l.stop - start) text text')
    (hl : l ∈ stretchesFrom d levels start text) (hl' : l ∈ stretchesFrom d levels start text')
    (hwhole : ∀ k ∈ stretchesFrom d levels start text, k.stop ≤ l.start → IsWhole k.kind k.text)
    (hwhole' : ∀ k ∈ stretchesFrom d levels start text', k.stop ≤ l.start → IsWhole k.kind k.text) :
    ∃ before after after', stretchesFrom d levels start text = before ++ l :: after ∧
      stretchesFrom d levels start text' = before ++ l :: after' := by
  induction hlength : text.length using Nat.strong_induction_on
    generalizing levels start text text' with
  | h length ih =>
    subst hlength
    have hlies := liesIn_of_mem_stretchesFrom hl
    have hlies' := liesIn_of_mem_stretchesFrom hl'
    have hpos : 0 < l.text.length := List.length_pos_iff.mpr hlies.ne_nil
    have hstart := hlies.le_start
    have hstop : l.stop = l.start + l.text.length := rfl
    rcases h.cases_of_pos (by omega) with ⟨rfl, rfl⟩ | ⟨c, t, t', rfl, rfl, ht⟩
    · simp [stretchesFrom] at hl
    · rw [stretchesFrom_cons] at hl hl' hwhole hwhole' ⊢
      rw [stretchesFrom_cons]
      rcases List.mem_cons.mp hl with hhead | htail
      · rcases List.mem_cons.mp hl' with hhead' | htail'
        · exact ⟨[], _, _, by rw [← hhead]; rfl, by rw [← hhead']; rfl⟩
        · have hle := (liesIn_of_mem_stretchesFrom htail').le_start
          have hat : l.start = start := congrArg Stretch.start hhead
          omega
      · have htailLies := liesIn_of_mem_stretchesFrom htail
        have hle := htailLies.le_start
        rcases List.mem_cons.mp hl' with hhead' | htail'
        · have hat : l.start = start := congrArg Stretch.start hhead'
          omega
        · have hcount := length_take_of_mem htail
          have hcount' := length_take_of_mem htail'
          have hle' := (liesIn_of_mem_stretchesFrom htail').le_start
          have hsame : d.recognize levels c t' = d.recognize levels c t := by
            refine recognize_local hd ht (by omega) (by omega) (hwhole _ List.mem_cons_self ?_)
              (hwhole' _ List.mem_cons_self ?_)
            · simp only [Stretch.stop, List.length_cons]
              omega
            · simp only [Stretch.stop, List.length_cons]
              omega
          rw [hsame] at htail' hwhole' hcount' ⊢
          rw [hcount] at htail hwhole ⊢
          rw [hcount'] at htail' hwhole' ⊢
          have hrest := ht.drop (d.recognize levels c t).2.1
          have hwidth : l.stop - start - 1 - (d.recognize levels c t).2.1 =
              l.stop - (start + (d.recognize levels c t).2.1 + 1) := by omega
          rw [hwidth] at hrest
          obtain ⟨before, after, after', heq, heq'⟩ :=
            ih _ (by rw [List.length_drop, List.length_cons]; omega) hrest htail htail'
              (fun k hk => hwhole k (List.mem_cons_of_mem _ hk))
              (fun k hk => hwhole' k (List.mem_cons_of_mem _ hk)) rfl
          have htake : t'.take (d.recognize levels c t).2.1 = t.take (d.recognize levels c t).2.1 :=
            (ht.mono (by omega)).symm
          refine ⟨⟨start, (d.recognize levels c t).1, c :: t.take (d.recognize levels c t).2.1⟩ ::
            before, after, after', ?_, ?_⟩
          · rw [heq, List.cons_append]
          · rw [heq', htake, List.cons_append]

theorem stretches_eq_stretchesFrom {text : Text} (h : text.head? ≠ some Utf8.byteOrderMark) :
    stretches d text = stretchesFrom d [] 0 text := by
  cases text with
  | nil => simp [stretches, stretchesFrom]
  | cons c t =>
    have hc : c ≠ Utf8.byteOrderMark := fun heq => h (congrArg some heq)
    rw [stretches, if_neg hc]

theorem liesIn_of_mem_stretches {text : Text} (h : l ∈ stretches d text) : l.LiesIn 0 text := by
  unfold stretches at h
  split at h
  · cases h
  · next c t =>
    split at h
    · next hmark =>
      rcases List.mem_cons.mp h with rfl | h
      · refine ⟨Nat.le_refl _, ?_, nofun, rfl⟩
        simp only [Stretch.stop, List.length_cons, List.length_nil]
        omega
      · obtain ⟨hle, hstop, hne, hhead⟩ := liesIn_of_mem_stretchesFrom h
        refine ⟨Nat.zero_le _, ?_, hne, ?_⟩
        · rw [List.length_cons]
          omega
        · have hoffset : l.start - 0 = l.start - 1 + 1 := by omega
          rw [hoffset, List.drop_succ_cons]
          exact hhead
    · exact liesIn_of_mem_stretchesFrom h

theorem slice_of_mem_stretches (h : l ∈ stretches d text) :
    (text.drop l.start).take l.text.length = l.text := by
  unfold stretches at h
  split at h
  · cases h
  · next c t =>
    split at h
    · rcases List.mem_cons.mp h with rfl | h
      · rfl
      · have hle := (liesIn_of_mem_stretchesFrom h).le_start
        have hslice := slice_of_mem_stretchesFrom h
        have hoffset : l.start = l.start - 1 + 1 := by omega
        rw [hoffset, List.drop_succ_cons]
        exact hslice
    · exact slice_of_mem_stretchesFrom h

theorem pairwise_stretches (d : Dialect) (text : Text) :
    (stretches d text).Pairwise fun a b => a.stop ≤ b.start := by
  unfold stretches
  split
  · exact List.Pairwise.nil
  · split
    · refine List.pairwise_cons.mpr ⟨?_, pairwise_stretchesFrom d _ _ _⟩
      intro other hother
      exact (liesIn_of_mem_stretchesFrom hother).le_start
    · exact pairwise_stretchesFrom d _ _ _

/-- Every directive in front of the stretch is whole, as in a text without a syntax error. -/
def WellFormedUpTo (d : Dialect) (text : Text) (l : Stretch) : Prop :=
  ∀ k ∈ stretches d text, k.stop ≤ l.start → IsWhole k.kind k.text

/-- Two texts that agree up to and with a stretch of both, and are well-formed up to it, have the same
stretches up to it. -/
theorem stretches_local {text text' : Text} (hd : d.KeepsSlashes) (h : Agree l.stop text text')
    (hl : l ∈ stretches d text) (hl' : l ∈ stretches d text') (hwhole : WellFormedUpTo d text l)
    (hwhole' : WellFormedUpTo d text' l) :
    ∃ before after after', stretches d text = before ++ l :: after ∧
      stretches d text' = before ++ l :: after' := by
  have hpos : 0 < l.text.length := List.length_pos_iff.mpr (liesIn_of_mem_stretches hl).ne_nil
  have hstop : l.stop = l.start + l.text.length := rfl
  unfold WellFormedUpTo at hwhole hwhole'
  rcases h.cases_of_pos (by omega) with ⟨rfl, rfl⟩ | ⟨c, t, t', rfl, rfl, ht⟩
  · cases hl
  · unfold stretches at hl hl' hwhole hwhole' ⊢
    by_cases hmark : c = Utf8.byteOrderMark
    · simp only [if_pos hmark] at hl hl' hwhole hwhole' ⊢
      rcases List.mem_cons.mp hl with hhead | htail
      · rcases List.mem_cons.mp hl' with hhead' | htail'
        · exact ⟨[], _, _, by rw [← hhead]; rfl, by rw [← hhead']; rfl⟩
        · have hle := (liesIn_of_mem_stretchesFrom htail').le_start
          rw [hhead] at hle
          cases hle
      · rcases List.mem_cons.mp hl' with hhead' | htail'
        · have hle := (liesIn_of_mem_stretchesFrom htail).le_start
          rw [hhead'] at hle
          cases hle
        · obtain ⟨before, after, after', heq, heq'⟩ := stretchesFrom_local hd ht htail htail'
            (fun k hk => hwhole k (List.mem_cons_of_mem _ hk))
            (fun k hk => hwhole' k (List.mem_cons_of_mem _ hk))
          refine ⟨⟨0, .blank, [c]⟩ :: before, after, after', ?_, ?_⟩
          · rw [heq, List.cons_append]
          · rw [heq', List.cons_append]
    · simp only [if_neg hmark] at hl hl' hwhole hwhole' ⊢
      exact stretchesFrom_local hd h hl hl' hwhole hwhole'

end

end Provenance.Header
