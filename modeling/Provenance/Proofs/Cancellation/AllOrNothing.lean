import Mathlib.Data.Nat.Find
import Provenance.Proofs.Cancellation.Polling
import Provenance.Proofs.Scan.Classification

/-!
Cancelled work gives nothing, and work that gives something gives the whole. Signals are all the ways
in which polls can be answered once it is agreed that a signal stays fired: each is told by how many
polls pass. Work that settles therefore comes, under every such schedule of answers, to the result that
it comes to when nobody cancels it, or to none at all.
-/
namespace Provenance

namespace Signal

/-- The answer that a poll gets after `n` others. -/
def answer (s : Signal) (n : Nat) : Bool :=
  (s.after n).hasFired

/-- Once the answer is that the signal has fired, it stays so. -/
theorem answer_mono {s : Signal} {m n : Nat} (hle : m ≤ n) (h : s.answer m = true) :
    s.answer n = true := by
  obtain ⟨remaining⟩ := s
  cases remaining with
  | none => cases h
  | some k =>
    have hm : k - m = 0 := by simpa [answer, after, hasFired] using h
    have hn : k - n = 0 := by omega
    simp [answer, after, hasFired, hn]

/-- Every schedule of answers that keeps to this is that of a signal. -/
theorem exists_answer_eq {schedule : Nat → Bool}
    (hmono : ∀ m n, m ≤ n → schedule m = true → schedule n = true) :
    ∃ s : Signal, s.answer = schedule := by
  by_cases hfires : ∃ n, schedule n = true
  · have hleast := Nat.find_spec hfires
    refine ⟨⟨some (Nat.find hfires)⟩, ?_⟩
    funext n
    by_cases hn : Nat.find hfires ≤ n
    · have hzero : Nat.find hfires - n = 0 := by omega
      simp [answer, after, hasFired, hzero, hmono _ n hn hleast]
    · have hpos : Nat.find hfires - n ≠ 0 := by omega
      have hnot := Nat.find_min hfires (Nat.lt_of_not_le hn)
      simp [answer, after, hasFired, hpos, Bool.eq_false_iff.mpr hnot]
  · refine ⟨never, ?_⟩
    funext n
    have hnot : schedule n = false := Bool.eq_false_iff.mpr fun hn => hfires ⟨n, hn⟩
    rw [hnot]
    rfl

theorem after_eq_fired {s : Signal} {n : Nat} (h : ¬s.Lasts n) : s.after n = fired := by
  obtain ⟨remaining⟩ := s
  cases remaining with
  | none => exact absurd (lasts_never n) h
  | some k =>
    have hlt : ¬n ≤ k := by
      intro hle
      apply h
      intro k' hk'
      cases hk'
      exact hle
    have hzero : k - n = 0 := by omega
    simp [after, fired, hzero]

end Signal

open Signal

/-- The work comes to a result if it is never cancelled. With any signal it comes to the same result,
or it is cancelled because the signal has fired. -/
structure AllOrNothing {α : Type} (work : Polled α) : Prop where
  finishes : ∃ a, (work.run never).1 = .ok a
  whole_or_cancelled : ∀ signal : Signal, (work.run signal).1 = (work.run never).1 ∨
    ((work.run signal).1 = .error .cancelled ∧ (work.run signal).2.hasFired = true)

section

variable {α : Type} {work : Polled α} {polls : Nat}

theorem Settles.allOrNothing {a : α} (h : Settles work polls (.ok a)) : AllOrNothing work := by
  constructor
  · rw [h.run_never]
    exact ⟨a, rfl⟩
  · intro signal
    by_cases hlasts : signal.Lasts polls
    · apply Or.inl
      rw [(h signal).1 hlasts, h.run_never]
    · apply Or.inr
      rw [(h signal).2 hlasts]
      exact ⟨rfl, rfl⟩

end

/-- No walk through a tree is left half-way with what it has noted. -/
theorem Syntax.allOrNothing_leadingTrivia (root : Node) (source : Text) (language : Language) :
    AllOrNothing (Syntax.leadingTrivia root source language) := by
  obtain ⟨polls, -, hsettles⟩ := @settles_walk source language (.ofRoot root) .none
  exact hsettles.allOrNothing

namespace SourceFile

variable (parser : Parser)

theorem allOrNothing_leadingTrivia (file : SourceFile) :
    AllOrNothing (file.leadingTrivia parser) := by
  obtain ⟨polls, trivia, hsettles⟩ := file.exists_settles_leadingTrivia parser
  exact hsettles.allOrNothing

theorem allOrNothing_detect (file : SourceFile) : AllOrNothing (file.detect parser) := by
  cases hname : NameRule.fires file.name with
  | true =>
    have hdetect : file.detect parser = pure (some .fileName) := by
      rw [detect, Detection.detect, if_pos hname]
    rw [hdetect]
    exact (settles_pure _).allOrNothing
  | false =>
    obtain ⟨polls, marker, hsettles, -⟩ := exists_settles_detect parser hname
    exact hsettles.allOrNothing

theorem allOrNothing_isGenerated (file : SourceFile) :
    AllOrNothing (file.isGenerated parser) := by
  cases hname : NameRule.fires file.name with
  | true =>
    have hgenerated : file.isGenerated parser = pure true := by
      rw [isGenerated, Detection.isGenerated, if_pos hname]
    rw [hgenerated]
    exact (settles_pure _).allOrNothing
  | false =>
    obtain ⟨polls, marker, hsettles, -⟩ := file.exists_settles_findMarker parser
    have hgenerated : file.isGenerated parser =
        (do let marker ← Detection.findMarker (file.leadingTrivia parser); pure marker.isSome) := by
      rw [isGenerated, Detection.isGenerated, if_neg (Bool.eq_false_iff.mp hname),
        Detection.isMarked]
    rw [hgenerated]
    apply Settles.allOrNothing
    exact settles_bind hsettles (settles_pure _)

end SourceFile

end Provenance
