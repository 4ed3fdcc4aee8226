import Provenance.Header.Piece
import Provenance.Proofs.Header.DirectiveLocality

/-!
What begins with a character is decided by the characters that belong to it and by the one behind
them, whatever is open. The ways to read the character are tried in turn, and on two texts that agree
beyond what either reading takes, the same way is the first to succeed.
-/
namespace Provenance.Header

variable {d : Dialect} {levels : List Level} {m : Nat} {c : Char} {t t' : Text}

theorem blankTail?_local {n : Nat} (h : Agree m t t') (hn : d.blankTail? c t = some n)
    (hlt : n < m) : d.blankTail? c t' = some n := by
  unfold Dialect.blankTail? at hn ⊢
  split at hn
  · next hblank =>
    rw [if_pos hblank]
    exact hn
  · next hblank =>
    rw [if_neg hblank]
    split at hn
    · next hjoin =>
      rw [if_pos hjoin]
      split at hn
      · cases hn
        obtain ⟨t1, rfl, -⟩ := h.exists_cons (by omega)
        rfl
      · cases hn
        obtain ⟨t1, rfl, h1⟩ := h.exists_cons (by omega)
        obtain ⟨t2, rfl, -⟩ := h1.exists_cons (by omega)
        rfl
      · cases hn
    · cases hn

/-- What the characters make up is whole: a directive has its line feed. -/
def IsWhole (kind : PieceKind) (text : Text) : Prop :=
  kind = .directive → text.getLast? = some '\n'

instance (kind : PieceKind) (text : Text) : Decidable (IsWhole kind text) :=
  inferInstanceAs (Decidable (_ → _))

theorem recognizeCode_of_blank {n : Nat} (hblank : d.blankTail? c t = some n) :
    d.recognizeCode levels c t = (.blank, n, levels) := by
  unfold Dialect.recognizeCode
  rw [hblank]

theorem recognizeCode_of_comment {n : Nat} (hblank : d.blankTail? c t = none)
    (hcomment : d.commentTail? c t = some n) :
    d.recognizeCode levels c t = (.comment, n, levels) := by
  unfold Dialect.recognizeCode
  rw [hblank, hcomment]

/-- A directive, where the language has directives and the character is a number sign. -/
def Dialect.signTail? (d : Dialect) (c : Char) (t : Text) : Option Nat :=
  if d.directives && c == '#' then d.directiveTail? t else none

theorem recognizeCode_of_directive {n : Nat} (hblank : d.blankTail? c t = none)
    (hcomment : d.commentTail? c t = none) (hsign : d.signTail? c t = some n) :
    d.recognizeCode levels c t = (.directive, n, levels) := by
  unfold Dialect.recognizeCode
  rw [Dialect.signTail?] at hsign
  rw [hblank, hcomment]
  simp only [hsign]

theorem recognizeCode_of_token (hblank : d.blankTail? c t = none)
    (hcomment : d.commentTail? c t = none) (hsign : d.signTail? c t = none) :
    d.recognizeCode levels c t = (.token, d.readToken levels c t) := by
  unfold Dialect.recognizeCode
  rw [Dialect.signTail?] at hsign
  rw [hblank, hcomment]
  simp only [hsign]

theorem signTail?_local {n : Nat} (hd : d.KeepsSlashes) (h : Agree m t t')
    (hn : d.signTail? c t = some n) (hend : (c :: t.take n).getLast? = some '\n') (hlt : n < m)
    (hlt' : ∀ k, d.signTail? c t' = some k → k < m ∧ (c :: t'.take k).getLast? = some '\n') :
    d.signTail? c t' = some n := by
  unfold Dialect.signTail? at hn hlt' ⊢
  split at hn
  · next hsign =>
    have hc : c = '#' := by
      simp only [Bool.and_eq_true, beq_iff_eq] at hsign
      exact hsign.2
    subst hc
    rw [if_pos hsign] at hlt' ⊢
    exact directiveTail?_local hd h hn hend hlt hlt'
  · cases hn

theorem recognizeCode_local (hd : d.KeepsSlashes) (h : Agree m t t')
    (hlt : (d.recognizeCode levels c t).2.1 < m) (hlt' : (d.recognizeCode levels c t').2.1 < m)
    (hwhole : IsWhole (d.recognizeCode levels c t).1
      (c :: t.take (d.recognizeCode levels c t).2.1))
    (hwhole' : IsWhole (d.recognizeCode levels c t').1
      (c :: t'.take (d.recognizeCode levels c t').2.1)) :
    d.recognizeCode levels c t' = d.recognizeCode levels c t := by
  have hbound : ∀ k, d.blankTail? c t = some k → k < m := by
    intro k hk
    rw [recognizeCode_of_blank hk] at hlt
    exact hlt
  have hbound' : ∀ k, d.blankTail? c t' = some k → k < m := by
    intro k hk
    rw [recognizeCode_of_blank hk] at hlt'
    exact hlt'
  have hblank : d.blankTail? c t' = d.blankTail? c t :=
    Option.ext fun k => ⟨fun hk => blankTail?_local h.symm hk (hbound' k hk),
      fun hk => blankTail?_local h hk (hbound k hk)⟩
  cases hblank0 : d.blankTail? c t with
  | some n =>
    rw [recognizeCode_of_blank hblank0, recognizeCode_of_blank (hblank.trans hblank0)]
  | none =>
    have hblank1 := hblank.trans hblank0
    have hbound : ∀ k, d.commentTail? c t = some k → k < m := by
      intro k hk
      rw [recognizeCode_of_comment hblank0 hk] at hlt
      exact hlt
    have hbound' : ∀ k, d.commentTail? c t' = some k → k < m := by
      intro k hk
      rw [recognizeCode_of_comment hblank1 hk] at hlt'
      exact hlt'
    have hcomment : d.commentTail? c t' = d.commentTail? c t :=
      Option.ext fun k => ⟨fun hk => commentTail?_local hd h.symm hk (hbound' k hk) hbound,
        fun hk => commentTail?_local hd h hk (hbound k hk) hbound'⟩
    cases hcomment0 : d.commentTail? c t with
    | some n =>
      rw [recognizeCode_of_comment hblank0 hcomment0,
        recognizeCode_of_comment hblank1 (hcomment.trans hcomment0)]
    | none =>
      have hcomment1 := hcomment.trans hcomment0
      have hbound : ∀ k, d.signTail? c t = some k →
          k < m ∧ (c :: t.take k).getLast? = some '\n' := by
        intro k hk
        rw [recognizeCode_of_directive hblank0 hcomment0 hk] at hlt hwhole
        exact ⟨hlt, hwhole rfl⟩
      have hbound' : ∀ k, d.signTail? c t' = some k →
          k < m ∧ (c :: t'.take k).getLast? = some '\n' := by
        intro k hk
        rw [recognizeCode_of_directive hblank1 hcomment1 hk] at hlt' hwhole'
        exact ⟨hlt', hwhole' rfl⟩
      have hsign : d.signTail? c t' = d.signTail? c t :=
        Option.ext fun k =>
          ⟨fun hk => signTail?_local hd h.symm hk (hbound' k hk).2 (hbound' k hk).1 hbound,
            fun hk => signTail?_local hd h hk (hbound k hk).2 (hbound k hk).1 hbound'⟩
      cases hsign0 : d.signTail? c t with
      | some n =>
        rw [recognizeCode_of_directive hblank0 hcomment0 hsign0,
          recognizeCode_of_directive hblank1 hcomment1 (hsign.trans hsign0)]
      | none =>
        have hsign1 := hsign.trans hsign0
        rw [recognizeCode_of_token hblank0 hcomment0 hsign0] at hlt ⊢
        rw [recognizeCode_of_token hblank1 hcomment1 hsign1] at hlt' ⊢
        rw [readToken_local h hlt hlt']

theorem recognize_local (hd : d.KeepsSlashes) (h : Agree m t t')
    (hlt : (d.recognize levels c t).2.1 < m) (hlt' : (d.recognize levels c t').2.1 < m)
    (hwhole : IsWhole (d.recognize levels c t).1 (c :: t.take (d.recognize levels c t).2.1))
    (hwhole' : IsWhole (d.recognize levels c t').1 (c :: t'.take (d.recognize levels c t').2.1)) :
    d.recognize levels c t' = d.recognize levels c t := by
  cases levels with
  | nil => exact recognizeCode_local hd h hlt hlt' hwhole hwhole'
  | cons level outer =>
    unfold Dialect.recognize at hlt hlt' hwhole hwhole' ⊢
    simp only [] at hlt hlt' hwhole hwhole' ⊢
    have hbound : ∀ k opened, level.token? c t = some (k, opened) → k < m := by
      intro k opened hk
      rw [hk] at hlt
      exact hlt
    have hbound' : ∀ k opened, level.token? c t' = some (k, opened) → k < m := by
      intro k opened hk
      rw [hk] at hlt'
      exact hlt'
    have htoken : level.token? c t' = level.token? c t :=
      Option.ext fun result =>
        ⟨fun hk => Level.token?_local h.symm hk (hbound' _ _ hk) hbound,
          fun hk => Level.token?_local h hk (hbound _ _ hk) hbound'⟩
    rw [htoken] at hlt' hwhole' ⊢
    cases htoken0 : level.token? c t with
    | some result => rfl
    | none =>
      rw [htoken0] at hlt hlt' hwhole hwhole'
      exact recognizeCode_local hd h hlt hlt' hwhole hwhole'

end Provenance.Header
