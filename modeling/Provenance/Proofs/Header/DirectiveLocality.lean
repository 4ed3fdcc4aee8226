import Provenance.Header.Directive
import Provenance.Proofs.Header.CommentLocality
import Provenance.Proofs.Header.TokenLocality

/-!
How far a directive reaches that ends with its line feed. It is read part by part, and each part is
decided by its own characters and the one behind them. A directive that is never completed is
different, since only the end of the text tells that it is not; it ends in front of its line feed.
-/
namespace Provenance.Header

variable {d : Dialect} {m n : Nat} {t t' : Text}

/-- A slash is read together with the character behind it; in reach of one of the texts only, that
character would be counted there. -/
theorem messageTail_local (h : Agree m t t') (hlt : messageTail t < m) (hlt' : messageTail t' < m) :
    messageTail t' = messageTail t := by
  fun_induction messageTail t generalizing m t' with
  | case1 => rw [h.eq_nil (by omega), messageTail]
  | case2 =>
    by_cases hone : m = 1
    · omega
    · obtain ⟨t1, rfl, h1⟩ := h.exists_cons (by omega)
      rw [h1.eq_nil (by omega), messageTail]
  | case3 t =>
    by_cases hone : m = 1
    · omega
    · obtain ⟨t1, rfl, h1⟩ := h.exists_cons (by omega)
      obtain ⟨t2, rfl, -⟩ := h1.exists_cons (by omega)
      rw [messageTail, if_pos rfl]
  | case4 c t hc ih =>
    obtain ⟨t1, rfl, h1⟩ := h.exists_cons (by omega)
    obtain ⟨t2, rfl, h2⟩ := h1.exists_cons (by omega)
    rw [messageTail, if_neg hc] at hlt' ⊢
    rw [ih h2 (by omega) (by omega)]
  | case5 t ih =>
    obtain ⟨t1, rfl, h1⟩ := h.exists_cons (by omega)
    obtain ⟨t2, rfl, h2⟩ := h1.exists_cons (by omega)
    obtain ⟨t3, rfl, h3⟩ := h2.exists_cons (by omega)
    rw [messageTail] at hlt' ⊢
    rw [ih h3 (by omega) (by omega)]
  | case6 t ih =>
    obtain ⟨t1, rfl, h1⟩ := h.exists_cons (by omega)
    obtain ⟨t2, rfl, h2⟩ := h1.exists_cons (by omega)
    rw [messageTail] at hlt' ⊢
    rw [ih h2 (by omega) (by omega)]
  | case7 t =>
    obtain ⟨t1, rfl, -⟩ := h.exists_cons (by omega)
    simp [messageTail]
  | case8 c t hend hslash hcrlf hlf hc ih =>
    obtain ⟨t1, rfl, h1⟩ := h.exists_cons (by omega)
    have hrule : messageTail (c :: t1) = messageTail t1 + 1 := by
      rw [messageTail]
      · rw [if_neg hc]
      · rintro rfl rfl
        rcases h1.symm.cases_of_pos (by omega) with ⟨-, rfl⟩ | ⟨a, u, u', hnil, -, -⟩
        · exact hend rfl rfl
        · cases hnil
      · rintro a u rfl rfl
        obtain ⟨t2, rfl, -⟩ := h1.symm.exists_cons (by omega)
        exact hslash a t2 rfl rfl
      · rintro u rfl rfl
        obtain ⟨t2, rfl, h2⟩ := h1.symm.exists_cons (by omega)
        have hcount : messageTail ('\r' :: t2) = messageTail t2 + 1 := by simp [messageTail]
        obtain ⟨t3, rfl, -⟩ := h2.exists_cons (by omega)
        exact hcrlf t3 rfl rfl
      · rintro u rfl rfl
        obtain ⟨t2, rfl, -⟩ := h1.symm.exists_cons (by omega)
        exact hlf t2 rfl rfl
    rw [hrule] at hlt' ⊢
    rw [ih h1 (by omega) (by omega)]

/-- The word of a directive that stands behind a number sign, with what it waits for. -/
def directiveWord? (t : Text) : Option (Text × Frame) :=
  directiveWords.find? fun entry => entry.1.isPrefixOf (signGap t).2

theorem directiveStart?_eq (t : Text) :
    directiveStart? t =
      (directiveWord? t).map fun entry => (entry.2, (signGap t).1 + entry.1.length) := rfl

theorem isPrefixOf_of_directiveWord? {entry : Text × Frame} (h : Agree m t t')
    (hlt : (signGap t).1 + entry.1.length < m) (hword : directiveWord? t = some entry) :
    entry.1.isPrefixOf (signGap t').2 = true := by
  have hrest := (signGap_local h (by omega)).2
  have hfound := List.find?_some hword
  exact hrest.isPrefixOf (by omega) hfound

theorem directiveStart?_local {frame : Frame} (h : Agree m t t')
    (hn : directiveStart? t = some (frame, n)) (hlt : n < m)
    (hlt' : ∀ frame' k, directiveStart? t' = some (frame', k) → k < m) :
    directiveStart? t' = some (frame, n) := by
  rw [directiveStart?_eq] at hn ⊢
  obtain ⟨entry, hword, hentry⟩ := Option.map_eq_some_iff.mp hn
  cases hentry
  have hsame : directiveWord? t = directiveWord? t' := by
    refine find?_eq_find? ?_ ?_
    · intro other hother
      have heq : other = entry := Option.some.inj (hother.symm.trans hword)
      subst heq
      exact isPrefixOf_of_directiveWord? h hlt hword
    · intro other hother
      refine isPrefixOf_of_directiveWord? h.symm ?_ hother
      exact hlt' other.2 _ (by rw [directiveStart?_eq, directiveWord?, hother]; rfl)
  rw [← hsame, hword, (signGap_local h (by omega)).1]
  rfl

theorem readPart_local {c : Char} (h : Agree m t t') (hlt : (d.readPart c t).2 < m) :
    d.readPart c t' = d.readPart c t := by
  unfold Dialect.readPart at hlt ⊢
  simp only [] at hlt ⊢
  split at hlt
  · next hquote =>
    rw [if_pos hquote, if_pos hquote, quotedTail_local h hlt]
  · next hquote =>
    rw [if_neg hquote, if_neg hquote]
    split at hlt
    · next hdigit =>
      rw [if_pos hdigit, if_pos hdigit, h.takeWhile_eq hlt]
    · next hdigit =>
      rw [if_neg hdigit, if_neg hdigit]
      split at hlt
      · next hword =>
        rw [if_pos hword, if_pos hword, h.takeWhile_eq hlt]
      · next hword =>
        rw [if_neg hword, if_neg hword]

namespace Frame

theorem afterLineFeed_local (h : Agree m t t') (hm : 0 < m) (frame : Frame) :
    frame.afterLineFeed d t' = frame.afterLineFeed d t := by
  cases frame with
  | message mayBeEmpty begun =>
    cases mayBeEmpty with
    | false => rfl
    | true => rw [afterLineFeed, afterLineFeed, h.head? hm]
  | lineFeed => rfl
  | sentence form parts => rfl

theorem afterPart?_local {c : Char} {frame next : Frame} (h : Agree m t t')
    (hn : frame.afterPart? d c t = some (next, n)) (hlt : n < m)
    (hlt' : ∀ next' k, frame.afterPart? d c t' = some (next', k) → k < m) :
    frame.afterPart? d c t' = some (next, n) := by
  cases frame with
  | message mayBeEmpty begun =>
    cases begun with
    | false =>
      rw [afterPart?] at hn hlt' ⊢
      cases hn
      rw [messageTail_local h hlt (hlt' _ _ rfl)]
    | true =>
      rw [afterPart?] at hn hlt' ⊢
      cases hn
      have hmax' := hlt' _ _ rfl
      have hfirst := messageTail_local h (Nat.lt_of_le_of_lt (Nat.le_max_left _ _) hlt)
        (Nat.lt_of_le_of_lt (Nat.le_max_left _ _) hmax')
      have hsecond : messageTail (c :: t') = messageTail (c :: t) := by
        have hle := Nat.lt_of_le_of_lt (Nat.le_max_right _ _) hlt
        have hle' := Nat.lt_of_le_of_lt (Nat.le_max_right _ _) hmax'
        exact messageTail_local (h.cons c) (by omega) (by omega)
      rw [hfirst, hsecond]
  | lineFeed => cases hn
  | sentence form parts =>
    have hread : some (sentence form (parts ++ [(d.readPart c t).1]), (d.readPart c t).2) =
        some (next, n) := hn
    obtain ⟨hnext, rfl⟩ := Prod.mk.inj (Option.some.inj hread)
    change some (sentence form (parts ++ [(d.readPart c t').1]), (d.readPart c t').2) = _
    rw [readPart_local h hlt, hnext]

/-- Where no comment begins, a directive or a part of one does. -/
def readPlain? (d : Dialect) (c : Char) (t : Text) (frame : Frame) : Option (List Frame × Nat) :=
  match if c = '#' then directiveStart? t else none with
  | some (inner, n) => some ([inner, frame.afterAside], n)
  | none => (frame.afterPart? d c t).map fun (next, n) => ([next], n)

theorem read?_of_visible {c : Char} (hfeed : c ≠ '\n') (hblank : d.isBlank c = false) (t : Text)
    (frame : Frame) :
    frame.read? d c t =
      match d.commentTail? c t with
      | some n => some ([frame.afterAside], n)
      | none => readPlain? d c t frame := by
  rw [read?, if_neg hfeed, hblank]
  rfl

theorem readPlain?_local {c : Char} {frame : Frame} {opened : List Frame} (h : Agree m t t')
    (hn : readPlain? d c t frame = some (opened, n)) (hlt : n < m)
    (hlt' : ∀ opened' k, readPlain? d c t' frame = some (opened', k) → k < m) :
    readPlain? d c t' frame = some (opened, n) := by
  unfold readPlain? at hn hlt' ⊢
  have hstart : (if c = '#' then directiveStart? t else none) =
      (if c = '#' then directiveStart? t' else none) := by
    by_cases hsign : c = '#'
    · rw [if_pos hsign, if_pos hsign]
      rw [if_pos hsign] at hn hlt'
      apply Option.ext
      intro entry
      have hbound : ∀ frame' k, directiveStart? t = some (frame', k) → k < m := by
        intro frame' k hstart
        rw [hstart] at hn
        cases hn
        exact hlt
      have hbound' : ∀ frame' k, directiveStart? t' = some (frame', k) → k < m := by
        intro frame' k hstart
        rw [hstart] at hlt'
        exact hlt' _ _ rfl
      exact ⟨fun hstart => directiveStart?_local h hstart (hbound _ _ hstart) hbound',
        fun hstart => directiveStart?_local h.symm hstart (hbound' _ _ hstart) hbound⟩
    · rw [if_neg hsign, if_neg hsign]
  rw [← hstart] at hlt' ⊢
  split at hn
  · exact hn
  · next hnone =>
    rw [hnone] at hlt'
    obtain ⟨part, hpart, hsame⟩ := Option.map_eq_some_iff.mp hn
    obtain ⟨next, k⟩ := part
    cases hsame
    have hbound : ∀ next' k, frame.afterPart? d c t' = some (next', k) → k < m := by
      intro next' k hnext
      exact hlt' [next'] k (by simp only [hnext, Option.map_some])
    simp only [afterPart?_local h hpart hlt hbound, Option.map_some]

/-- What reading on from a character gives: a line feed and other blanks first, then comments, then
directives, and at last the parts that the frame waits for. -/
theorem read?_local {c : Char} {frame : Frame} {opened : List Frame} (hd : d.KeepsSlashes)
    (h : Agree m t t') (hm : 0 < m) (hn : frame.read? d c t = some (opened, n)) (hlt : n < m)
    (hlt' : ∀ opened' k, frame.read? d c t' = some (opened', k) → k < m) :
    frame.read? d c t' = some (opened, n) := by
  by_cases hfeed : c = '\n'
  · rw [read?, if_pos hfeed] at hn ⊢
    rw [afterLineFeed_local h hm]
    exact hn
  · cases hblank : d.isBlank c with
    | true =>
      rw [read?, if_neg hfeed, if_pos hblank] at hn ⊢
      exact hn
    | false =>
      rw [read?_of_visible hfeed hblank] at hn ⊢
      simp only [read?_of_visible hfeed hblank] at hlt'
      have hbound' : ∀ k, d.commentTail? c t' = some k → k < m := by
        intro k hk
        rw [hk] at hlt'
        exact hlt' _ _ rfl
      cases hcomment : d.commentTail? c t with
      | some k =>
        rw [hcomment] at hn
        have hsame : ([frame.afterAside], k) = (opened, n) := Option.some.inj hn
        cases hsame
        rw [commentTail?_local hd h hcomment hlt hbound']
      | none =>
        have hcomment' : d.commentTail? c t' = none := by
          cases hcomment' : d.commentTail? c t' with
          | none => rfl
          | some k =>
            have hback := commentTail?_local hd h.symm hcomment' (hbound' k hcomment')
              (fun j hj => by rw [hcomment] at hj; cases hj)
            rw [hcomment] at hback
            cases hback
        rw [hcomment] at hn
        rw [hcomment'] at hlt' ⊢
        exact readPlain?_local h hn hlt hlt'

end Frame

theorem framesTail?_cons {frame : Frame} {outer : List Frame} {c : Char} :
    framesTail? d (frame :: outer) (c :: t) =
      match frame.read? d c t with
      | none => none
      | some (opened, n) => (framesTail? d (opened ++ outer) (t.drop n)).map (· + n + 1) := by
  cases hread : frame.read? d c t with
  | none => simp only [framesTail?, hread]
  | some read => simp only [framesTail?, hread]

theorem framesTail?_local {frames : List Frame} {n' : Nat} (hd : d.KeepsSlashes) (h : Agree m t t')
    (hn : framesTail? d frames t = some n) (hn' : framesTail? d frames t' = some n') (hlt : n < m)
    (hlt' : n' < m) : n' = n := by
  induction hlength : t.length using Nat.strong_induction_on generalizing m n n' t t' frames with
  | h length ih =>
    subst hlength
    cases frames with
    | nil =>
      rw [framesTail?] at hn hn'
      cases hn
      cases hn'
      rfl
    | cons frame outer =>
      rcases h.cases_of_pos (by omega) with ⟨rfl, rfl⟩ | ⟨c, u, u', rfl, rfl, hu⟩
      · rw [framesTail?] at hn
        cases hn
      · rw [framesTail?_cons] at hn hn'
        split at hn
        · cases hn
        · next opened k hread =>
          split at hn'
          · cases hn'
          · next opened' k' hread' =>
            obtain ⟨j, hj, rfl⟩ := Option.map_eq_some_iff.mp hn
            obtain ⟨j', hj', rfl⟩ := Option.map_eq_some_iff.mp hn'
            have hbound' : ∀ other i, frame.read? d c u' = some (other, i) → i < m - 1 := by
              intro other i hi
              rw [hread'] at hi
              cases hi
              omega
            have hsame := Frame.read?_local hd hu (by omega) hread (by omega) hbound'
            rw [hread'] at hsame
            cases hsame
            have hrest := ih _ (by rw [List.length_drop, List.length_cons]; omega) (hu.drop k) hj hj'
              (by omega) (by omega) rfl
            omega

/-- A directive that ends with a line feed has been completed. -/
theorem exists_framesTail? (hn : d.directiveTail? t = some n)
    (hend : ('#' :: t.take n).getLast? = some '\n') :
    ∃ frame k j, directiveStart? t = some (frame, k) ∧
      framesTail? d [frame] (t.drop k) = some j ∧ n = k + j := by
  obtain ⟨⟨frame, k⟩, hstart, hcount⟩ := Option.map_eq_some_iff.mp hn
  refine ⟨frame, k, ?_⟩
  cases hframes : framesTail? d [frame] (t.drop k) with
  | some j =>
    simp only [hframes] at hcount
    exact ⟨j, hstart, rfl, hcount.symm⟩
  | none =>
    simp only [hframes] at hcount
    subst hcount
    have hline : t.take (t.takeWhile (· != '\n')).length = t.takeWhile (· != '\n') :=
      (List.prefix_iff_eq_take.mp (List.takeWhile_prefix _)).symm
    rw [hline] at hend
    rcases List.mem_cons.mp (List.mem_of_getLast? hend) with hsign | hmem
    · cases hsign
    · have hfree := List.all_eq_true.mp List.all_takeWhile '\n' hmem
      cases hfree

theorem directiveTail?_local (hd : d.KeepsSlashes) (h : Agree m t t')
    (hn : d.directiveTail? t = some n) (hend : ('#' :: t.take n).getLast? = some '\n') (hlt : n < m)
    (hlt' : ∀ k, d.directiveTail? t' = some k →
      k < m ∧ ('#' :: t'.take k).getLast? = some '\n') : d.directiveTail? t' = some n := by
  obtain ⟨frame, k, j, hstart, hframes, rfl⟩ := exists_framesTail? hn hend
  have hbound' : ∀ frame' i, directiveStart? t' = some (frame', i) → i < m := by
    intro frame' i hstart'
    obtain ⟨i', htail'⟩ : ∃ i', d.directiveTail? t' = some i' := by
      rw [Dialect.directiveTail?, hstart']
      exact ⟨_, rfl⟩
    obtain ⟨hi', hend'⟩ := hlt' i' htail'
    obtain ⟨frame2, k2, j2, hstart2, -, rfl⟩ := exists_framesTail? htail' hend'
    rw [hstart'] at hstart2
    cases hstart2
    omega
  have hstart' := directiveStart?_local h hstart (by omega) hbound'
  obtain ⟨i', htail'⟩ : ∃ i', d.directiveTail? t' = some i' := by
    rw [Dialect.directiveTail?, hstart']
    exact ⟨_, rfl⟩
  obtain ⟨hi', hend'⟩ := hlt' i' htail'
  obtain ⟨frame2, k2, j2, hstart2, hframes2, rfl⟩ := exists_framesTail? htail' hend'
  rw [hstart'] at hstart2
  cases hstart2
  rw [htail', framesTail?_local hd (h.drop k) hframes hframes2 (by omega) (by omega)]

end Provenance.Header
