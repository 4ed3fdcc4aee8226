import Provenance.Header.Quotation
import Provenance.Proofs.Text.Agreement

/-!
How far a token reaches, and what it leaves open, is decided by its own characters and by the one
behind them. What a token is taken for can depend on more: two quotes are a text of their own unless a
third one follows. But then one of the two readings reaches as far as the texts have to be read to
tell them apart, so on texts that agree beyond both readings there is only one.
-/
namespace Provenance.Header

variable {d : Dialect} {m n : Nat} {t t' : Text}

theorem quotedTail_local {quote : Char} (h : Agree m t t') (hlt : quotedTail quote t < m) :
    quotedTail quote t' = quotedTail quote t := by
  fun_induction quotedTail quote t generalizing m t' with
  | case1 => rw [h.eq_nil (by omega), quotedTail]
  | case2 t =>
    obtain ⟨t1, rfl, h1⟩ := h.exists_cons (by omega)
    obtain ⟨t2, rfl, h2⟩ := h1.exists_cons (by omega)
    rw [quotedTail, if_pos rfl]
  | case3 c t hc ih =>
    obtain ⟨t1, rfl, h1⟩ := h.exists_cons (by omega)
    obtain ⟨t2, rfl, h2⟩ := h1.exists_cons (by omega)
    rw [quotedTail, if_neg hc, ih h2 (by omega)]
  | case4 t hnot =>
    obtain ⟨t1, rfl, h1⟩ := h.exists_cons (by omega)
    rw [quotedTail]
    · rw [if_pos rfl]
    · rintro c u hc rfl
      obtain ⟨t2, rfl, -⟩ := h1.symm.exists_cons (by omega)
      exact hnot c t2 hc rfl
  | case5 t hnot hquote =>
    obtain ⟨t1, rfl, -⟩ := h.exists_cons (by omega)
    rw [quotedTail]
    · rw [if_neg hquote, if_pos rfl]
    · rintro c u hc
      cases hc
  | case6 c t hnot hquote hc ih =>
    obtain ⟨t1, rfl, h1⟩ := h.exists_cons (by omega)
    rw [quotedTail]
    · rw [if_neg hquote, if_neg hc, ih h1 (by omega)]
    · rintro a u ha rfl
      obtain ⟨t2, rfl, -⟩ := h1.symm.exists_cons (by omega)
      exact hnot a t2 ha rfl

theorem verbatimTail_local (h : Agree m t t') (hlt : verbatimTail t < m) :
    verbatimTail t' = verbatimTail t := by
  fun_induction verbatimTail t generalizing m t' with
  | case1 => rw [h.eq_nil (by omega), verbatimTail]
  | case2 t ih =>
    obtain ⟨t1, rfl, h1⟩ := h.exists_cons (by omega)
    obtain ⟨t2, rfl, h2⟩ := h1.exists_cons (by omega)
    rw [verbatimTail, ih h2 (by omega)]
  | case3 t hnot =>
    obtain ⟨t1, rfl, h1⟩ := h.exists_cons (by omega)
    rw [verbatimTail]
    · rw [if_pos rfl]
    · rintro u - rfl
      obtain ⟨t2, rfl, -⟩ := h1.symm.exists_cons (by omega)
      exact hnot t2 rfl rfl
  | case4 c t hnot hc ih =>
    obtain ⟨t1, rfl, h1⟩ := h.exists_cons (by omega)
    rw [verbatimTail]
    · rw [if_neg hc, ih h1 (by omega)]
    · rintro u rfl
      exact absurd rfl hc

theorem signGap_local (h : Agree m t t') (hlt : (signGap t).1 < m) :
    (signGap t').1 = (signGap t).1 ∧ Agree (m - (signGap t).1) (signGap t).2 (signGap t').2 := by
  simp only [signGap] at hlt ⊢
  exact ⟨by rw [h.takeWhile_eq hlt], h.dropWhile hlt⟩

/-- The word of a condition that stands behind a number sign. -/
def conditionalWord? (t : Text) : Option Text :=
  conditionalWords.find? (·.isPrefixOf (signGap t).2)

theorem signTail_of_some {word : Text} (hword : conditionalWord? t = some word) :
    signTail d t = (signGap t).1 + word.length := by
  rw [conditionalWord?] at hword
  simp only [signTail, hword]

theorem signTail_of_none (hword : conditionalWord? t = none) :
    signTail d t = (signGap t).1 + ((signGap t).2.takeWhile d.isWord).length := by
  rw [conditionalWord?] at hword
  simp only [signTail, hword]

theorem signGap_le_signTail (d : Dialect) (t : Text) : (signGap t).1 ≤ signTail d t := by
  cases hword : conditionalWord? t with
  | some word =>
    rw [signTail_of_some hword]
    omega
  | none =>
    rw [signTail_of_none hword]
    omega

theorem isPrefixOf_of_conditionalWord? {word : Text} (h : Agree m t t') (hlt : signTail d t < m)
    (hword : conditionalWord? t = some word) : word.isPrefixOf (signGap t').2 = true := by
  have hgap := signGap_le_signTail d t
  have hrest := (signGap_local h (by omega)).2
  have hlength := signTail_of_some (d := d) hword
  have hfound := List.find?_some hword
  exact hrest.isPrefixOf (by omega) hfound

theorem conditionalWord?_local (h : Agree m t t') (hlt : signTail d t < m)
    (hlt' : signTail d t' < m) : conditionalWord? t = conditionalWord? t' :=
  find?_eq_find? (fun _ hword => isPrefixOf_of_conditionalWord? h hlt hword)
    fun _ hword => isPrefixOf_of_conditionalWord? h.symm hlt' hword

theorem signTail_local (h : Agree m t t') (hlt : signTail d t < m) (hlt' : signTail d t' < m) :
    signTail d t' = signTail d t := by
  have hgap := signGap_le_signTail d t
  obtain ⟨hsame, hrest⟩ := signGap_local h (by omega)
  have hword' := conditionalWord?_local h hlt hlt'
  cases hword : conditionalWord? t with
  | some word =>
    rw [hword] at hword'
    rw [signTail_of_some hword, signTail_of_some hword'.symm, hsame]
  | none =>
    rw [hword] at hword'
    rw [signTail_of_none hword] at hlt ⊢
    rw [signTail_of_none hword'.symm, hsame, hrest.takeWhile_eq (by omega)]

/-- The first two characters of a token tell which rule measures it. -/
theorem tokenTail_cases (d : Dialect) (c a : Char) :
    (∀ u, d.tokenTail c (a :: u) = (u.takeWhile (· != '\n')).length + 1) ∨
    (∀ u, d.tokenTail c (a :: u) = signTail d (a :: u)) ∨
    (∀ u, d.tokenTail c (a :: u) = verbatimTail u + 1) ∨
    (∃ quote, ∀ u, d.tokenTail c (a :: u) = quotedTail quote (a :: u)) ∨
    (∀ u, d.tokenTail c (a :: u) = ((a :: u).takeWhile d.isWord).length) ∨
    ∃ k, ∀ u, d.tokenTail c (a :: u) = k := by
  by_cases hsign : c = '#'
  · subst hsign
    by_cases hbang : a = '!'
    · subst hbang
      exact Or.inl fun u => rfl
    · exact Or.inr (Or.inl fun u => by simp [Dialect.tokenTail, hbang])
  · by_cases hat : c = '@' ∧ a = '"'
    · obtain ⟨rfl, rfl⟩ := hat
      exact Or.inr (Or.inr (Or.inl fun u => rfl))
    · by_cases hquote : c = '"' ∨ c = '\''
      · refine Or.inr (Or.inr (Or.inr (Or.inl ?_)))
        rcases hquote with rfl | rfl
        · exact ⟨_, fun u => rfl⟩
        · exact ⟨_, fun u => rfl⟩
      · refine Or.inr (Or.inr (Or.inr (Or.inr ?_)))
        by_cases hpair : (c = '?' ∧ a = '?') ∨ (c = ':' ∧ a = ':')
        · rcases hpair with ⟨rfl, rfl⟩ | ⟨rfl, rfl⟩
          · exact Or.inr ⟨1, fun u => rfl⟩
          · exact Or.inr ⟨1, fun u => rfl⟩
        · have hword : ∀ u, d.tokenTail c (a :: u) =
              if d.isWord c then ((a :: u).takeWhile d.isWord).length else 0 := by
            intro u
            unfold Dialect.tokenTail
            split <;> simp_all
          cases hisWord : d.isWord c with
          | true => exact Or.inl fun u => by rw [hword, hisWord, if_pos rfl]
          | false => exact Or.inr ⟨0, fun u => by simp [hword, hisWord]⟩

theorem tokenTail_local {c : Char} (h : Agree m t t') (hlt : d.tokenTail c t < m)
    (hlt' : d.tokenTail c t' < m) : d.tokenTail c t' = d.tokenTail c t := by
  rcases h.cases_of_pos (by omega) with ⟨rfl, rfl⟩ | ⟨a, u, u', rfl, rfl, hu⟩
  · rfl
  · rcases tokenTail_cases d c a with hrule | hrule | hrule | ⟨quote, hrule⟩ | hrule | ⟨k, hrule⟩
    · rw [hrule] at hlt ⊢
      rw [hrule, hu.takeWhile_eq (by omega)]
    · rw [hrule] at hlt hlt' ⊢
      rw [hrule, signTail_local h hlt hlt']
    · rw [hrule] at hlt ⊢
      rw [hrule, verbatimTail_local hu (by omega)]
    · rw [hrule] at hlt ⊢
      rw [hrule, quotedTail_local h hlt]
    · rw [hrule] at hlt ⊢
      rw [hrule, h.takeWhile_eq hlt]
    · rw [hrule, hrule]

/-- Only two of the words behind a number sign open a condition. -/
theorem opensCondition_eq (c : Char) (t : Text) :
    Level.opensCondition c t = (c == '#' &&
      (conditionalWord? t == some "if".toList || conditionalWord? t == some "elif".toList)) := by
  unfold Level.opensCondition conditionalWord? conditionalWords
  generalize (signGap t).2 = rest
  simp only [List.any_cons, List.any_nil, List.find?_cons, List.find?_nil, Bool.or_false]
  cases ("if".toList).isPrefixOf rest with
  | true => rfl
  | false =>
    cases ("elif".toList).isPrefixOf rest with
    | true => rfl
    | false =>
      cases ("else".toList).isPrefixOf rest with
      | true => rfl
      | false => cases ("endif".toList).isPrefixOf rest <;> rfl

theorem opensCondition_local {c : Char} (h : Agree m t t') (hlt : d.tokenTail c t < m)
    (hlt' : d.tokenTail c t' < m) : Level.opensCondition c t' = Level.opensCondition c t := by
  rw [opensCondition_eq, opensCondition_eq]
  by_cases hsign : c = '#'
  · subst hsign
    rcases h.cases_of_pos (by omega) with ⟨rfl, rfl⟩ | ⟨a, u, u', rfl, rfl, -⟩
    · rfl
    · by_cases hbang : a = '!'
      · subst hbang
        rfl
      · have hrule : ∀ v, d.tokenTail '#' (a :: v) = signTail d (a :: v) :=
          fun v => by simp [Dialect.tokenTail, hbang]
        rw [hrule] at hlt hlt'
        rw [conditionalWord?_local h hlt hlt']
  · have hother : (c == '#') = false := beq_eq_false_iff_ne.mpr hsign
    rw [hother, Bool.false_and, Bool.false_and]

namespace QuotedForm

theorem opening?_local {c : Char} {form : QuotedForm} (h : Agree m t t')
    (hn : opening? c t = some (form, n)) (hlt : n < m)
    (hlt' : ∀ form' k, opening? c t' = some (form', k) → k < m) :
    opening? c t' = some (form, n) := by
  unfold opening? at hn hlt' ⊢
  simp only [] at hn hlt' ⊢
  split at hn
  · split at hn
    · next hrun =>
      cases hn
      rw [h.takeWhile_eq hlt, if_pos hrun]
    · cases hn
  · split at hn
    · cases hn
      obtain ⟨t1, rfl, h1⟩ := h.exists_cons (by omega)
      obtain ⟨t2, rfl, -⟩ := h1.exists_cons (by omega)
      rfl
    · cases hn
  · split at hn
    · next u hdrop =>
      cases hn
      have hrest := h.drop (t.takeWhile (· == '$')).length
      rw [hdrop] at hrest
      obtain ⟨t1, hdrop1, h1⟩ := hrest.exists_cons (by omega)
      obtain ⟨t2, rfl, -⟩ := h1.exists_cons (by omega)
      have hsigns : t'.takeWhile (· == '$') = t.takeWhile (· == '$') := h.takeWhile_eq (by omega)
      simp only [hsigns, hdrop1]
    · next u hdrop =>
      have hsigns : t'.takeWhile (· == '$') = t.takeWhile (· == '$') := by
        refine h.takeWhile_eq ?_
        split at hn <;> cases hn <;> omega
      have hrest := h.drop (t.takeWhile (· == '$')).length
      rw [hdrop] at hrest
      obtain ⟨u', hdrop', hu⟩ := hrest.exists_cons (by split at hn <;> cases hn <;> omega)
      simp only [hsigns, hdrop'] at hlt' ⊢
      split at hn
      · next hrun =>
        cases hn
        rw [hu.takeWhile_eq (by omega), if_pos hrun]
      · next hrun =>
        -- If a third quote followed in the other text, that text's token would reach it.
        cases hn
        rw [if_neg]
        intro hrun'
        rw [if_pos hrun'] at hlt'
        have hbound := hlt' _ _ rfl
        exact hrun (hu.symm.le_length_takeWhile (by omega) hrun')
    · cases hn
  · cases hn

/-- The characters of a run. -/
def run (mark : Char) (t : Text) : Nat := (t.takeWhile (· == mark)).length

/-- The first character of literal text tells by which rule it is divided. -/
theorem unit_cases (form : QuotedForm) (c : Char) :
    (∀ u, form.unit (c :: u) = if u = [] then 1 else 2) ∨
    (∃ mark, ∀ u, form.unit (c :: u) = if 2 ≤ run mark (c :: u) then 2 else 0) ∨
    (∃ mark stop, ∀ u, form.unit (c :: u) =
      if run mark (c :: u) = stop then 0 else run mark (c :: u)) ∨
    ∃ k, ∀ u, form.unit (c :: u) = k := by
  by_cases hslash : form = .escaped ∧ c = '\\'
  · obtain ⟨rfl, rfl⟩ := hslash
    left
    intro u
    cases u <;> rfl
  · right
    by_cases hquote : c = '"'
    · subst hquote
      cases form with
      | escaped => exact Or.inr (Or.inr ⟨0, fun u => rfl⟩)
      | doubled => exact Or.inl ⟨'"', fun u => rfl⟩
      | fenced closing opening => exact Or.inr (Or.inl ⟨'"', closing, fun u => rfl⟩)
    · by_cases hbrace : c = '{'
      · subst hbrace
        cases form with
        | escaped => exact Or.inl ⟨'{', fun u => rfl⟩
        | doubled => exact Or.inl ⟨'{', fun u => rfl⟩
        | fenced closing opening => exact Or.inr (Or.inl ⟨'{', opening, fun u => rfl⟩)
      · refine Or.inr (Or.inr ⟨1, fun u => ?_⟩)
        unfold unit
        split <;> simp_all

theorem unit_local {form : QuotedForm} (h : Agree m t t') (hlt : form.unit t < m)
    (hlt' : form.unit t' < m) : form.unit t' = form.unit t := by
  rcases h.cases_of_pos (by omega) with ⟨rfl, rfl⟩ | ⟨c, u, u', rfl, rfl, hu⟩
  · rfl
  · rcases unit_cases form c with hrule | ⟨mark, hrule⟩ | ⟨mark, stop, hrule⟩ | ⟨k, hrule⟩
    · rw [hrule] at hlt
      rw [hrule, hrule]
      split at hlt
      · next hnil =>
        subst hnil
        rw [hu.eq_nil (by omega)]
      · next hmore =>
        rw [if_neg hmore, if_neg]
        rintro rfl
        exact hmore (hu.symm.eq_nil (by omega))
    · rw [hrule] at hlt hlt'
      rw [hrule, hrule]
      by_cases hpair : 2 ≤ run mark (c :: u)
      · rw [if_pos hpair] at hlt ⊢
        have hpair' : 2 ≤ run mark (c :: u') := h.le_length_takeWhile (by omega) hpair
        rw [if_pos hpair']
      · rw [if_neg hpair]
        split at hlt'
        · next hpair' => exact absurd (h.symm.le_length_takeWhile (by omega) hpair') hpair
        · next hpair' => rw [if_neg hpair']
    · rw [hrule] at hlt hlt'
      rw [hrule, hrule]
      by_cases hstop : run mark (c :: u) = stop
      · rw [if_pos hstop]
        split at hlt'
        · next hstop' => rw [if_pos hstop']
        · next hstop' =>
          have hsame : run mark (c :: u) = run mark (c :: u') :=
            congrArg List.length (h.symm.takeWhile_eq hlt')
          exact absurd (hsame.symm.trans hstop) hstop'
      · rw [if_neg hstop] at hlt ⊢
        have hsame : run mark (c :: u') = run mark (c :: u) :=
          congrArg List.length (h.takeWhile_eq hlt)
        rw [hsame, if_neg hstop]
    · rw [hrule, hrule]

theorem literalTail_of_zero {form : QuotedForm} (hunit : form.unit t = 0) :
    form.literalTail t = 0 := by
  cases t with
  | nil => simp [literalTail]
  | cons c t =>
    rw [literalTail, hunit]

theorem literalTail_of_pos {form : QuotedForm} (hunit : form.unit t = n + 1) :
    form.literalTail t = form.literalTail (t.drop (n + 1)) + (n + 1) := by
  cases t with
  | nil => cases form <;> cases hunit
  | cons c t =>
    rw [literalTail, hunit, List.drop_succ_cons]
    exact Nat.add_assoc _ _ _

theorem unit_le_literalTail (form : QuotedForm) (t : Text) : form.unit t ≤ form.literalTail t := by
  cases hunit : form.unit t with
  | zero => exact Nat.zero_le _
  | succ n =>
    rw [literalTail_of_pos hunit]
    omega

theorem literalTail_local {form : QuotedForm} (h : Agree m t t') (hlt : form.literalTail t < m)
    (hlt' : form.literalTail t' < m) : form.literalTail t' = form.literalTail t := by
  induction hlength : t.length using Nat.strong_induction_on generalizing m t t' with
  | h length ih =>
    subst hlength
    have hle := unit_le_literalTail form t
    have hle' := unit_le_literalTail form t'
    have hsame : form.unit t' = form.unit t := unit_local h (by omega) (by omega)
    cases hunit : form.unit t with
    | zero => rw [literalTail_of_zero hunit, literalTail_of_zero (hsame.trans hunit)]
    | succ n =>
      have hcount := literalTail_of_pos hunit
      have hcount' := literalTail_of_pos (hsame.trans hunit)
      have hshorter : (t.drop (n + 1)).length < t.length := by
        cases t with
        | nil => cases form <;> cases hunit
        | cons c t =>
          rw [List.drop_succ_cons, List.length_drop, List.length_cons]
          omega
      rw [hcount, hcount', ih _ hshorter (h.drop _) (by omega) (by omega) rfl]

end QuotedForm

namespace Level

theorem token?_local {c : Char} {level : Level} {opened : List Level} (h : Agree m t t')
    (hn : level.token? c t = some (n, opened)) (hlt : n < m)
    (hlt' : ∀ k opened', level.token? c t' = some (k, opened') → k < m) :
    level.token? c t' = some (n, opened) := by
  cases level with
  | condition depth complete => exact hn
  | quoted form =>
    have hlit : form.literalTail (c :: t') = form.literalTail (c :: t) := by
      refine QuotedForm.literalTail_local (h.cons c) ?_ ?_
      · rw [token?] at hn
        split at hn
        · next k hk =>
          cases hn
          omega
        · next hk => omega
      · simp only [token?] at hlt'
        cases hk : form.literalTail (c :: t') with
        | zero => omega
        | succ k =>
          have hbound := hlt' k [quoted form] (by rw [hk])
          omega
    rw [token?] at hn ⊢
    rw [hlit]
    exact hn
  | hole braces depth choices =>
    rw [token?] at hn ⊢
    rw [← h.head? (by omega)]
    split at hn
    · cases hn
    · next hdepth =>
      rw [if_neg hdepth]
      split at hn
      · next hclose =>
        rw [if_pos hclose]
        exact hn
      · next hclose =>
        rw [if_neg hclose]
        split at hn
        · next hcolon =>
          rw [if_pos hcolon]
          cases hn
          rw [h.takeWhile_eq hlt]
        · cases hn

theorem step_local {c : Char} (h : Agree m t t') (hm : 0 < m) (level : Level) :
    level.step d c t' = level.step d c t := by
  cases level with
  | condition depth complete => rfl
  | quoted form => rfl
  | hole braces depth choices => rw [step, step, h.head? hm]

end Level

theorem readToken_of_some {levels : List Level} {c : Char} {form : QuotedForm}
    (hopen : QuotedForm.opening? c t = some (form, n)) :
    d.readToken levels c t = (n, .quoted form :: levels) := by
  unfold Dialect.readToken
  rw [hopen]

theorem readToken_of_none {levels : List Level} {c : Char}
    (hopen : QuotedForm.opening? c t = none) :
    d.readToken levels c t = (d.tokenTail c t,
      if Level.opensCondition c t then .condition 0 false :: levels
      else
        match levels with
        | [] => []
        | level :: outer => level.step d c t :: outer) := by
  cases levels with
  | nil => simp only [Dialect.readToken, hopen]
  | cons level outer => simp only [Dialect.readToken, hopen]

theorem readToken_local {levels : List Level} {c : Char} (h : Agree m t t')
    (hlt : (d.readToken levels c t).1 < m) (hlt' : (d.readToken levels c t').1 < m) :
    d.readToken levels c t' = d.readToken levels c t := by
  have hbound : ∀ form k, QuotedForm.opening? c t = some (form, k) → k < m := by
    intro form k hopen
    rw [readToken_of_some hopen] at hlt
    exact hlt
  have hbound' : ∀ form k, QuotedForm.opening? c t' = some (form, k) → k < m := by
    intro form k hopen
    rw [readToken_of_some hopen] at hlt'
    exact hlt'
  cases hopen : QuotedForm.opening? c t with
  | some result =>
    obtain ⟨form, n⟩ := result
    have hopen' := QuotedForm.opening?_local h hopen (hbound form n hopen) hbound'
    rw [readToken_of_some hopen, readToken_of_some hopen']
  | none =>
    have hopen' : QuotedForm.opening? c t' = none := by
      cases hopen' : QuotedForm.opening? c t' with
      | none => rfl
      | some result =>
        obtain ⟨form, n⟩ := result
        have hback := QuotedForm.opening?_local h.symm hopen' (hbound' form n hopen') hbound
        rw [hopen] at hback
        cases hback
    rw [readToken_of_none hopen] at hlt ⊢
    rw [readToken_of_none hopen'] at hlt' ⊢
    rw [tokenTail_local h hlt hlt', opensCondition_local h hlt hlt']
    cases levels with
    | nil => rfl
    | cons level outer => simp only [Level.step_local h (Nat.zero_lt_of_lt hlt)]

end Provenance.Header
