import Provenance.Glob.Engine

/-!
Patterns that nest too deeply. Every group is a level of the expression, so a pattern with enough
groups inside each other can be read, but no set can be made with it.
-/
namespace Provenance.Glob

/-- What is wrong with patterns together is that one of them nests too deeply. -/
theorem depthReason?_isSome_iff {tokens : List (List Token)} :
    (depthReason? tokens).isSome = true ↔
      ∃ pattern ∈ tokens, Lookup.of pattern ≠ .text ∧ isTooDeep pattern = true := by
  have hmem (lookup : Lookup) (pattern : List Token) :
      pattern ∈ tokens.filter (fun tokens => Lookup.of tokens = lookup) ↔
        pattern ∈ tokens ∧ Lookup.of pattern = lookup := by
    rw [List.mem_filter, decide_eq_true_iff]
  rw [depthReason?]
  dsimp only
  constructor
  · intro hsome
    split at hsome
    · next pattern hfind =>
      have hpattern := (hmem _ _).mp (List.mem_of_find?_eq_some hfind)
      refine ⟨pattern, hpattern.1, ?_, List.find?_some hfind⟩
      rw [hpattern.2]
      exact Lookup.noConfusion
    · rw [Option.isSome_map, List.findIdx?_isSome] at hsome
      obtain ⟨pattern, hpattern, hdeep⟩ := List.any_eq_true.mp hsome
      have hpattern := (hmem _ _).mp hpattern
      refine ⟨pattern, hpattern.1, ?_, hdeep⟩
      rw [hpattern.2]
      exact Lookup.noConfusion
  · rintro ⟨pattern, hpattern, hlookup, hdeep⟩
    split
    · rfl
    · next hnone =>
      rw [Option.isSome_map, List.findIdx?_isSome, List.any_eq_true]
      refine ⟨pattern, (hmem _ _).mpr ⟨hpattern, ?_⟩, hdeep⟩
      cases hof : Lookup.of pattern with
      | text => exact absurd hof hlookup
      | expression => rfl
      | extension =>
        have hnot := List.find?_eq_none.mp hnone pattern ((hmem _ _).mpr ⟨hpattern, hof⟩)
        exact absurd hdeep hnot

/-- A question mark in so many groups inside each other. -/
def nestedGroups (n : Nat) : Text :=
  List.replicate n '\x7b' ++ '?' :: List.replicate n '\x7d'

/-- The token that such a pattern is read as. -/
def nestedToken : Nat → Token
  | 0 => .anyByte
  | n + 1 => .group [[nestedToken n]]

theorem readFrom_openings (n : Nat) (current : List Token) (groups : List OpenGroup)
    (previous : Option Char) (t : Text) :
    readFrom ⟨current, groups⟩ previous (List.replicate (n + 1) '\x7b' ++ t) =
      readFrom ⟨[], List.replicate n ⟨[], []⟩ ++ ⟨current, []⟩ :: groups⟩ (some '\x7b') t := by
  induction n generalizing current groups previous with
  | zero =>
    rw [List.replicate_one, List.singleton_append, readFrom]
    rfl
  | succ n ih =>
    rw [List.replicate_succ, List.cons_append, readFrom, Reader.openGroup, ih,
      List.replicate_succ', List.append_assoc]
    rfl

theorem readFrom_closings (n m : Nat) (previous : Option Char) :
    readFrom ⟨[nestedToken m], List.replicate n ⟨[], []⟩⟩ previous
        (List.replicate n '\x7d') = .ok ⟨[nestedToken (m + n)], []⟩ := by
  induction n generalizing m previous with
  | zero =>
    rw [List.replicate_zero, List.replicate_zero, readFrom]
    rfl
  | succ n ih =>
    rw [List.replicate_succ, List.replicate_succ, readFrom]
    have hrest := ih (m + 1) (some '\x7d')
    rw [Nat.add_right_comm] at hrest
    exact hrest

theorem read_nestedGroups (n : Nat) :
    engine.read (nestedGroups n) = .ok [nestedToken n] := by
  have hread : readFrom .start none (nestedGroups n) = .ok ⟨[nestedToken n], []⟩ := by
    have hinner (groups : List OpenGroup) (previous : Option Char) (t : Text) :
        readFrom ⟨[], groups⟩ previous ('?' :: t) =
          readFrom ⟨[nestedToken 0], groups⟩ (some '?') t := by
      rw [readFrom]
      rfl
    cases n with
    | zero => exact (hinner _ _ _).trans (readFrom_closings 0 0 _)
    | succ n =>
      rw [nestedGroups, Reader.start, readFrom_openings, hinner, ← List.replicate_succ',
        readFrom_closings, Nat.zero_add]
  apply read_of_tokens
  rw [parse, hread]
  rfl

/-- Every group is a level. -/
theorem tokensDepths_nestedToken (n : Nat) : tokensDepths [nestedToken n] = [n] := by
  induction n with
  | zero => rfl
  | succ n ih =>
    rw [nestedToken, tokensDepths, Token.depths, branchesDepths, ih]
    rfl

/-- With a pattern among them that nests too deeply no set is made. -/
theorem exists_build_error_of_nested {n : Nat} {patterns : List (List Token)} (h : 250 ≤ n)
    (hpattern : [nestedToken n] ∈ patterns) : ∃ reason, engine.build patterns = .error reason := by
  have hlookup : Lookup.of [nestedToken n] ≠ .text := by
    cases n with
    | zero => omega
    | succ n => exact nofun
  have hdeep : isTooDeep [nestedToken n] = true := by
    have hmax : Nat.max 0 n = n := Nat.zero_max n
    rw [isTooDeep, tokensDepths_nestedToken, maxDepth, List.foldl_cons, List.foldl_nil, hmax,
      decide_eq_true_iff]
    omega
  obtain ⟨reason, hreason⟩ := Option.isSome_iff_exists.mp
    (depthReason?_isSome_iff.mpr ⟨_, hpattern, hlookup, hdeep⟩)
  refine ⟨reason, ?_⟩
  simp only [engine, hreason]
  rfl

end Provenance.Glob
