import Provenance.Header.Comment
import Provenance.Proofs.Text.Agreement

/-!
How far a comment reaches is decided by its own characters and by the one behind them. Each function
that measures comments gives the same answer on two texts that agree beyond the answer. An answer can
be that there is no closing mark; then a text that agrees may have one, but only further on.
-/
namespace Provenance.Header

variable {m n : Nat} {t t' : Text}

theorem lineTail_local {ends : Char → Bool} (h : Agree m t t') (hlt : lineTail ends t < m) :
    lineTail ends t' = lineTail ends t := by
  rw [lineTail, lineTail, h.takeWhile_eq hlt]

theorem joinedTail_local (h : Agree m t t') (hlt : joinedTail t < m) :
    joinedTail t' = joinedTail t := by
  fun_induction joinedTail t generalizing m t' with
  | case1 => rw [h.eq_nil (by omega), joinedTail]
  | case2 t ih =>
    obtain ⟨t1, rfl, h1⟩ := h.exists_cons (by omega)
    obtain ⟨t2, rfl, h2⟩ := h1.exists_cons (by omega)
    obtain ⟨t3, rfl, h3⟩ := h2.exists_cons (by omega)
    rw [joinedTail, ih h3 (by omega)]
  | case3 t ih =>
    obtain ⟨t1, rfl, h1⟩ := h.exists_cons (by omega)
    obtain ⟨t2, rfl, h2⟩ := h1.exists_cons (by omega)
    rw [joinedTail, ih h2 (by omega)]
  | case4 t hcrlf hlf =>
    obtain ⟨t1, rfl, h1⟩ := h.exists_cons (by omega)
    simp [joinedTail]
  | case5 c t hcrlf hlf hc ih =>
    obtain ⟨t1, rfl, h1⟩ := h.exists_cons (by omega)
    have htail := ih h1 (by omega)
    rw [joinedTail]
    · rw [if_neg hc, htail]
    · -- A carriage return would be counted, so the line feed behind it is in reach too.
      rintro u rfl rfl
      obtain ⟨t2, rfl, h2⟩ := h1.symm.exists_cons (by omega)
      have hcount : joinedTail ('\r' :: t2) = joinedTail t2 + 1 := by simp [joinedTail]
      obtain ⟨t3, rfl, -⟩ := h2.exists_cons (by omega)
      exact hcrlf t3 rfl rfl
    · rintro u rfl rfl
      obtain ⟨t2, rfl, -⟩ := h1.symm.exists_cons (by omega)
      exact hlf t2 rfl rfl

/-- A closing mark has two characters. -/
theorem two_le_flatTail? (h : flatTail? t = some n) : 2 ≤ n := by
  fun_induction flatTail? t generalizing n with
  | case1 => cases h
  | case2 t =>
    cases h
    omega
  | case3 c t hnot ih =>
    obtain ⟨k, hk, rfl⟩ := Option.map_eq_some_iff.mp h
    have hle := ih hk
    omega

theorem flatTail?_local (h : Agree m t t') (hn : flatTail? t = some n) (hle : n ≤ m) :
    flatTail? t' = some n := by
  fun_induction flatTail? t generalizing m n t' with
  | case1 => cases hn
  | case2 t =>
    cases hn
    obtain ⟨t1, rfl, h1⟩ := h.exists_cons (by omega)
    obtain ⟨t2, rfl, h2⟩ := h1.exists_cons (by omega)
    rw [flatTail?]
  | case3 c t hnot ih =>
    obtain ⟨k, hk, rfl⟩ := Option.map_eq_some_iff.mp hn
    have htwo := two_le_flatTail? hk
    obtain ⟨t1, rfl, h1⟩ := h.exists_cons (by omega)
    have htail := ih h1 hk (by omega)
    rw [flatTail?]
    · rw [htail]
      rfl
    · rintro u rfl rfl
      obtain ⟨t2, rfl, -⟩ := h1.symm.exists_cons (by omega)
      exact hnot t2 rfl rfl

/-- One character inside a nested comment tells how it goes on, or that it ends. -/
theorem nestedTail?_cons (byLowByte : Bool) (half : Half) (depth : Nat) (c : Char) :
    (∃ half' depth', ∀ t, nestedTail? byLowByte half depth (c :: t) =
      (nestedTail? byLowByte half' depth' t).map (· + 1)) ∨
    half ≠ .neither ∧ ∃ written, ∀ t, nestedTail? byLowByte half depth (c :: t) =
      if written && c == '/' then some 1 else none := by
  by_cases hstar : seen byLowByte c = '*'
  · cases half with
    | neither => exact Or.inl ⟨.star (c == '*'), depth, fun t => by simp [nestedTail?, hstar]⟩
    | slash => exact Or.inl ⟨.neither, depth + 1, fun t => by simp [nestedTail?, hstar]⟩
    | star written => exact Or.inl ⟨.star (c == '*'), depth, fun t => by simp [nestedTail?, hstar]⟩
  · by_cases hslash : seen byLowByte c = '/'
    · cases half with
      | neither => exact Or.inl ⟨.slash, depth, fun t => by simp [nestedTail?, hslash]⟩
      | slash =>
        exact Or.inl ⟨if byLowByte then .neither else .slash, depth,
          fun t => by simp [nestedTail?, hslash]⟩
      | star written =>
        cases depth with
        | zero => exact Or.inr ⟨nofun, written, fun t => by simp [nestedTail?, hslash]⟩
        | succ depth => exact Or.inl ⟨.neither, depth, fun t => by simp [nestedTail?, hslash]⟩
    · exact Or.inl ⟨.neither, depth, fun t => by simp [nestedTail?, hstar, hslash]⟩

theorem nestedTail?_local {byLowByte : Bool} {half : Half} {depth : Nat} (h : Agree m t t')
    (hn : nestedTail? byLowByte half depth t = some n) (hle : n ≤ m) :
    nestedTail? byLowByte half depth t' = some n ∧ 0 < n := by
  induction t generalizing half depth m n t' with
  | nil =>
    rw [nestedTail?] at hn
    cases hn
  | cons c t ih =>
    rcases nestedTail?_cons byLowByte half depth c with ⟨half', depth', hstep⟩ | ⟨-, written, hstep⟩
    · rw [hstep] at hn
      obtain ⟨k, hk, rfl⟩ := Option.map_eq_some_iff.mp hn
      obtain ⟨t1, rfl, h1⟩ := h.exists_cons (by omega)
      refine ⟨?_, by omega⟩
      rw [hstep, (ih h1 hk (by omega)).1]
      rfl
    · rw [hstep] at hn
      split at hn
      · next hclose =>
        cases hn
        obtain ⟨t1, rfl, -⟩ := h.exists_cons (by omega)
        rw [hstep, if_pos hclose]
        exact ⟨rfl, Nat.one_pos⟩
      · cases hn

theorem two_le_nestedTail? {byLowByte : Bool} {depth : Nat}
    (hn : nestedTail? byLowByte .neither depth t = some n) : 2 ≤ n := by
  cases t with
  | nil =>
    rw [nestedTail?] at hn
    cases hn
  | cons c t =>
    rcases nestedTail?_cons byLowByte .neither depth c with ⟨half', depth', hstep⟩ | ⟨hne, -⟩
    · rw [hstep] at hn
      obtain ⟨k, hk, rfl⟩ := Option.map_eq_some_iff.mp hn
      have hpos := (nestedTail?_local (Agree.refl k t) hk (Nat.le_refl k)).2
      omega
    · exact absurd rfl hne

theorem beginsDocumentation_local (h : Agree m t t') (hm : 2 ≤ m) :
    beginsDocumentation t' = beginsDocumentation t := by
  cases t with
  | nil => rw [h.eq_nil (by omega)]
  | cons c t =>
    obtain ⟨t1, rfl, h1⟩ := h.exists_cons (by omega)
    cases t with
    | nil => rw [h1.eq_nil (by omega)]
    | cons next t =>
      obtain ⟨t2, rfl, -⟩ := h1.exists_cons (by omega)
      rfl

theorem tail?_local {form : BlockForm} (h : Agree m t t') (hn : form.tail? t = some n)
    (hle : n ≤ m) : form.tail? t' = some n := by
  cases form with
  | flat => exact flatTail?_local h hn hle
  | nested => exact (nestedTail?_local h hn hle).1
  | nestedByLowByte =>
    rw [BlockForm.tail?] at hn ⊢
    split at hn
    · next hdocumentation =>
      obtain ⟨k, hk, rfl⟩ := Option.map_eq_some_iff.mp hn
      have htwo := two_le_nestedTail? hk
      rw [beginsDocumentation_local h (by omega), if_pos hdocumentation,
        (nestedTail?_local (h.drop 1) hk (by omega)).1]
      rfl
    · next hdocumentation =>
      have htwo := two_le_nestedTail? hn
      rw [beginsDocumentation_local h (by omega), if_neg hdocumentation,
        (nestedTail?_local h hn hle).1]

/-- The characters of the first line. -/
def firstLine (t : Text) : Text := t.takeWhile (· != '\n')

/-- The block comment that all that is visible in the first line opens. -/
def heldBlock? (form : BlockForm) (t : Text) : Option Nat :=
  if (firstLine t).dropWhile isAsciiBlank = ['/', '*'] then form.tail? (t.drop (firstLine t).length)
  else none

theorem heldTail_of_none {form : BlockForm} (hblock : heldBlock? form t = none) :
    heldTail form t = (firstLine t).length := by
  cases t with
  | nil => simp [heldTail, firstLine]
  | cons c t =>
    rw [heldBlock?, firstLine] at hblock
    simp only [heldTail, hblock, firstLine]

theorem firstLine_ne_nil {form : BlockForm} (hblock : heldBlock? form t = some n) :
    firstLine t ≠ [] := by
  intro hnil
  rw [heldBlock?, hnil] at hblock
  cases hblock

/-- Behind a block that a line holds, the line goes on. -/
theorem heldTail_of_some {form : BlockForm} (hblock : heldBlock? form t = some n) :
    heldTail form t =
      (firstLine t).length + n + heldTail form (t.drop ((firstLine t).length + n)) := by
  have hpos : 0 < (firstLine t).length := List.length_pos_iff.mpr (firstLine_ne_nil hblock)
  cases t with
  | nil => cases hpos
  | cons c t =>
    obtain ⟨k, hk⟩ : ∃ k, (firstLine (c :: t)).length + n = k + 1 :=
      ⟨(firstLine (c :: t)).length + n - 1, by omega⟩
    have hunfold : heldTail form (c :: t) = (firstLine (c :: t)).length + n +
        heldTail form (t.drop ((firstLine (c :: t)).length + n - 1)) := by
      have hopens := hblock
      rw [heldBlock?, firstLine] at hopens
      simp only [heldTail, hopens, firstLine]
    rw [hunfold]
    simp only [hk, List.drop_succ_cons, Nat.add_sub_cancel]

theorem heldBlock?_local {form : BlockForm} (h : Agree m t t') (hline : (firstLine t).length < m)
    (hn : heldBlock? form t = some n) (hle : (firstLine t).length + n ≤ m) :
    heldBlock? form t' = some n := by
  have hsame : firstLine t' = firstLine t := h.takeWhile_eq hline
  unfold heldBlock? at hn ⊢
  rw [hsame]
  split at hn
  · next hvisible =>
    rw [if_pos hvisible]
    exact tail?_local (h.drop _) hn (by omega)
  · cases hn

theorem length_firstLine_le_heldTail (form : BlockForm) (t : Text) :
    (firstLine t).length ≤ heldTail form t := by
  cases hblock : heldBlock? form t with
  | none =>
    have heq := heldTail_of_none hblock
    omega
  | some n =>
    have heq := heldTail_of_some hblock
    omega

/-- A block that only one of the texts closes would be counted in full. -/
theorem heldTail_local {form : BlockForm} (h : Agree m t t') (hlt : heldTail form t < m)
    (hlt' : heldTail form t' < m) : heldTail form t' = heldTail form t := by
  induction hlength : t.length using Nat.strong_induction_on generalizing m t t' with
  | h length ih =>
    subst hlength
    have hline := length_firstLine_le_heldTail form t
    have hline' := length_firstLine_le_heldTail form t'
    have hsame : firstLine t' = firstLine t := h.takeWhile_eq (Nat.lt_of_le_of_lt hline hlt)
    cases hblock : heldBlock? form t with
    | none =>
      have hblock' : heldBlock? form t' = none := by
        cases hblock' : heldBlock? form t' with
        | none => rfl
        | some n =>
          have hcount := heldTail_of_some hblock'
          have hback := heldBlock?_local h.symm (by omega) hblock' (by omega)
          rw [hback] at hblock
          cases hblock
      rw [heldTail_of_none hblock, heldTail_of_none hblock', hsame]
    | some n =>
      have hcount := heldTail_of_some hblock
      have hblock' := heldBlock?_local h (by omega) hblock (by omega)
      have hcount' := heldTail_of_some hblock'
      rw [hsame] at hcount'
      have hshorter : (t.drop ((firstLine t).length + n)).length < t.length := by
        have hpos := List.length_pos_iff.mpr (firstLine_ne_nil hblock)
        have hle : (firstLine t).length ≤ t.length := (List.takeWhile_prefix _).length_le
        rw [List.length_drop]
        omega
      rw [hcount, hcount', ih _ hshorter (h.drop _) (by omega) (by omega) rfl]

/-- A slash ends no comment. -/
def Dialect.KeepsSlashes (d : Dialect) : Prop := d.endsComment '/' = false

theorem keepsSlashes_ofLanguage (language : Language) :
    (Dialect.ofLanguage language).KeepsSlashes := by
  cases language <;> rfl

section

variable {d : Dialect}

open Dialect

theorem length_takeWhile_le_joinedTail (t : Text) :
    (t.takeWhile (· == '/')).length ≤ joinedTail t := by
  fun_induction joinedTail t with
  | case1 => simp
  | case2 t ih => simp
  | case3 t ih => simp
  | case4 t hcrlf hlf => simp
  | case5 c t hcrlf hlf hc ih =>
    rw [List.takeWhile_cons]
    split
    · rw [List.length_cons]
      omega
    · exact Nat.zero_le _

theorem length_takeWhile_le_lineTail (hd : d.KeepsSlashes) (t : Text) :
    (t.takeWhile (· == '/')).length ≤ lineTail d.endsComment t := by
  induction t with
  | nil => simp
  | cons c t ih =>
    rw [List.takeWhile_cons]
    split
    · next hslash =>
      have hc : c = '/' := by simpa using hslash
      have hkeeps : (!d.endsComment c) = true := by
        rw [hc, hd]
        rfl
      rw [lineTail] at ih ⊢
      rw [List.takeWhile_cons, if_pos hkeeps, List.length_cons, List.length_cons]
      omega
    · exact Nat.zero_le _

theorem plainTail?_local (hd : d.KeepsSlashes) (h : Agree m t t')
    (hn : lineTail?.plainTail? d t = some n) (hlt : n < m) :
    lineTail?.plainTail? d t' = some n := by
  have hslashes : (t.takeWhile (· == '/')).length < m := by
    unfold lineTail?.plainTail? at hn
    split at hn
    · cases hn
    · split at hn
      · have hle := length_takeWhile_le_joinedTail t
        cases hn
        omega
      · have hle := length_takeWhile_le_lineTail hd t
        cases hn
        omega
  have hstar := (h.dropWhile hslashes).head? (by omega)
  unfold lineTail?.plainTail? at hn ⊢
  rw [← hstar]
  split at hn
  · cases hn
  · next hmeets =>
    rw [if_neg hmeets]
    split at hn
    · next hjoins =>
      cases hn
      rw [if_pos hjoins, joinedTail_local h hlt]
    · next hjoins =>
      cases hn
      rw [if_neg hjoins, lineTail_local h hlt]

/-- A comment behind four slashes that holds blocks. -/
def Dialect.Holds (d : Dialect) (t : Text) (form : BlockForm) (rest : Text) : Prop :=
  d.blocks = some form ∧ t = '/' :: '/' :: rest ∧ d.slashesHoldBlocks = true

theorem lineTail?_of_holds {form : BlockForm} {rest : Text} (h : d.Holds t form rest) :
    d.lineTail? t = some (heldTail form rest + 2) := by
  obtain ⟨hblocks, rfl, hholds⟩ := h
  unfold lineTail?
  rw [hblocks]
  simp only [hholds, if_true]

theorem lineTail?_of_not_holds (h : ∀ form rest, ¬d.Holds t form rest) :
    d.lineTail? t = lineTail?.plainTail? d t := by
  unfold lineTail?
  split
  · next form rest hblocks =>
    split
    · next hholds => exact absurd ⟨hblocks, rfl, hholds⟩ (h form rest)
    · rfl
  · rfl

theorem Dialect.Holds.local {form : BlockForm} {rest : Text} (hholds : d.Holds t form rest)
    (h : Agree m t t') (hm : 2 ≤ m) : ∃ rest', d.Holds t' form rest' ∧ Agree (m - 2) rest rest' := by
  obtain ⟨hblocks, rfl, hslashes⟩ := hholds
  obtain ⟨t1, rfl, h1⟩ := h.exists_cons (by omega)
  obtain ⟨t2, rfl, h2⟩ := h1.exists_cons (by omega)
  exact ⟨t2, ⟨hblocks, rfl, hslashes⟩, h2⟩

theorem lineTail?_local (hd : d.KeepsSlashes) (h : Agree m t t') (hn : d.lineTail? t = some n)
    (hlt : n < m) (hlt' : ∀ k, d.lineTail? t' = some k → k < m) : d.lineTail? t' = some n := by
  by_cases hholds : ∃ form rest, d.Holds t form rest
  · obtain ⟨form, rest, hholds⟩ := hholds
    have hcount := (lineTail?_of_holds hholds).symm.trans hn
    rw [Option.some.injEq] at hcount
    obtain ⟨rest', hholds', hrest⟩ := hholds.local h (by omega)
    have hbound := hlt' _ (lineTail?_of_holds hholds')
    rw [lineTail?_of_holds hholds', heldTail_local hrest (by omega) (by omega), hcount]
  · have hnot : ∀ form rest, ¬d.Holds t form rest :=
      fun form rest hyes => hholds ⟨form, rest, hyes⟩
    have hnot' : ∀ form rest, ¬d.Holds t' form rest := by
      intro form rest hyes
      have hbound := hlt' _ (lineTail?_of_holds hyes)
      obtain ⟨rest', hback, -⟩ := hyes.local h.symm (by omega)
      exact hnot form rest' hback
    rw [lineTail?_of_not_holds hnot] at hn
    rw [lineTail?_of_not_holds hnot', plainTail?_local hd h hn hlt]

theorem commentTail?_local {c : Char} (hd : d.KeepsSlashes) (h : Agree m t t')
    (hn : d.commentTail? c t = some n) (hlt : n < m)
    (hlt' : ∀ k, d.commentTail? c t' = some k → k < m) : d.commentTail? c t' = some n := by
  unfold commentTail? at hn
  split at hn
  · next u =>
    obtain ⟨k, hk, rfl⟩ := Option.map_eq_some_iff.mp hn
    obtain ⟨u', rfl, hu⟩ := h.exists_cons (by omega)
    have hbound : ∀ j, d.lineTail? u' = some j → j < m - 1 := by
      intro j hj
      have hmore := hlt' (j + 1) (by rw [commentTail?, hj]; rfl)
      omega
    rw [commentTail?, lineTail?_local hd hu hk (by omega) hbound]
    rfl
  · next u =>
    obtain ⟨form, hblocks, hform⟩ := Option.bind_eq_some_iff.mp hn
    obtain ⟨k, hk, hsum⟩ := Option.bind_eq_some_iff.mp hform
    have hcount : k + 1 = n := Option.some.inj hsum
    obtain ⟨u', rfl, hu⟩ := h.exists_cons (by omega)
    rw [commentTail?]
    exact Option.bind_eq_some_iff.mpr ⟨form, hblocks,
      Option.bind_eq_some_iff.mpr ⟨k, tail?_local hu hk (by omega), hsum⟩⟩
  · next u =>
    split at hn
    · next hmarkup =>
      cases hn
      obtain ⟨u1, rfl, h1⟩ := h.exists_cons (by omega)
      obtain ⟨u2, rfl, h2⟩ := h1.exists_cons (by omega)
      obtain ⟨u3, rfl, h3⟩ := h2.exists_cons (by omega)
      rw [commentTail?, if_pos hmarkup, commentTail?.markupTail, commentTail?.markupTail,
        lineTail_local h3]
      rw [commentTail?.markupTail] at hlt
      omega
    · cases hn
  · next u =>
    split at hn
    · next hmarkup =>
      cases hn
      obtain ⟨u1, rfl, h1⟩ := h.exists_cons (by omega)
      obtain ⟨u2, rfl, h2⟩ := h1.exists_cons (by omega)
      rw [commentTail?, if_pos hmarkup, commentTail?.markupTail, commentTail?.markupTail,
        lineTail_local h2]
      rw [commentTail?.markupTail] at hlt
      omega
    · cases hn
  · cases hn

end

end Provenance.Header
