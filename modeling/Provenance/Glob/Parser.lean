import Provenance.Glob.Token

/-!
Reading a wildcard pattern from left to right. The reader keeps the tokens of the branch that it is
in and, for each group that is open, what stood in front of the group and the branches read so far.
Two stars are special only as a whole component of the path: what stands before and behind them
decides whether they open, close or join the rest of the pattern.
-/
namespace Provenance.Glob

/-- A group that has been opened: the tokens in front of it and its finished branches, both with
the last one first. -/
structure OpenGroup where
  before : List Token
  branches : List (List Token)

/-- The tokens of the current branch, last first, and the open groups, innermost first. -/
structure Reader where
  current : List Token
  groups : List OpenGroup

namespace Reader

def start : Reader := ⟨[], []⟩

def push (r : Reader) (token : Token) : Reader :=
  { r with current := token :: r.current }

/-- Two stars that are no whole component mean what one star means. -/
def pushRuns (r : Reader) : Reader :=
  (r.push .anyRun).push .anyRun

def inGroup (r : Reader) : Bool :=
  !r.groups.isEmpty

def openGroup (r : Reader) : Reader :=
  ⟨[], ⟨r.current, []⟩ :: r.groups⟩

/-- A comma begins a new branch in a group and is an ordinary character elsewhere. -/
def comma (r : Reader) : Reader :=
  match r.groups with
  | [] => r.push (.literal ',')
  | group :: outer => ⟨[], { group with branches := r.current.reverse :: group.branches } :: outer⟩

def closeGroup (r : Reader) : Except Defect Reader :=
  match r.groups with
  | [] => throw .unopenedGroup
  | group :: outer =>
    pure ⟨.group (r.current.reverse :: group.branches).reverse :: group.before, outer⟩

/-- Two stars behind a separator take its place, unless directories are covered already. -/
def absorb (r : Reader) (token : Token) : Reader :=
  match r.current with
  | .leadingDirectories :: _ | .trailingDirectories :: _ => r
  | _ :: before => { r with current := token :: before }
  | [] => r.push token

end Reader

def extendRange (ranges : List (Char × Char)) (c : Char) : Except Defect (List (Char × Char)) :=
  match ranges with
  | [] => pure [(c, c)]
  | (low, _) :: others => if c < low then throw (.invalidRange low c) else pure ((low, c) :: others)

/-- Reads a character class after its bracket and its sign of negation. The ranges read so far come
last first; `opening` holds before the first character, and `upTo` after a dash that may stand
between two ends of a range. -/
def readClass (ranges : List (Char × Char)) (opening upTo : Bool) :
    Text → Except Defect (List (Char × Char) × Text)
  | [] => throw .unclosedClass
  | c :: t =>
    if c = ']' ∧ ¬opening then
      pure ((if upTo then ('-', '-') :: ranges else ranges).reverse, t)
    else if c = '-' ∧ ¬opening ∧ ¬upTo then readClass ranges false true t
    else if upTo then do readClass (← extendRange ranges c) false false t
    else readClass ((c, c) :: ranges) false false t

theorem length_readClass {ranges ranges' : List (Char × Char)} {opening upTo : Bool} {t rest : Text}
    (h : readClass ranges opening upTo t = .ok (ranges', rest)) : rest.length < t.length := by
  induction t generalizing ranges opening upTo with
  | nil => simp [readClass, throw, throwThe, MonadExceptOf.throw] at h
  | cons c t ih =>
    rw [readClass] at h
    split at h
    · cases h
      simp
    · split at h
      · exact Nat.lt_succ_of_lt (ih h)
      · split at h
        · cases hrange : extendRange ranges c with
          | error defect => simp [hrange, bind, Except.bind] at h
          | ok extended =>
            simp only [hrange, bind, Except.bind] at h
            exact Nat.lt_succ_of_lt (ih h)
        · exact Nat.lt_succ_of_lt (ih h)

def readNegation : Text → Bool × Text
  | [] => (false, [])
  | c :: t => if c = '!' ∨ c = '^' then (true, t) else (false, c :: t)

theorem length_readNegation (t : Text) : (readNegation t).2.length ≤ t.length := by
  cases t with
  | nil => simp [readNegation]
  | cons c t =>
    rw [readNegation]
    split <;> simp

/-- Whether two stars stand at the beginning of a component, given what stands in front of them. -/
def beginsComponent (r : Reader) (previous : Option Char) : Bool :=
  previous == some '/' || (r.inGroup && (previous == some ',' || previous == some '{'))

def readStars (r : Reader) (previous : Option Char) (t : Text) : Reader × Option Char × Text :=
  if r.current.isEmpty then
    match t with
    | [] => (r.push .leadingDirectories, some '*', [])
    | '/' :: t => (r.push .leadingDirectories, some '/', t)
    | t => (r.pushRuns, some '*', t)
  else if beginsComponent r previous then
    match t with
    | [] => (r.absorb .trailingDirectories, some '*', [])
    | '/' :: t => (r.absorb .innerDirectories, some '/', t)
    | c :: t =>
      if r.inGroup && (c == ',' || c == '}') then (r.absorb .trailingDirectories, some '*', c :: t)
      else (r.pushRuns, some '*', c :: t)
  else (r.pushRuns, some '*', t)

theorem length_readStars (r : Reader) (previous : Option Char) (t : Text) :
    (readStars r previous t).2.2.length ≤ t.length := by
  unfold readStars
  split
  · split <;> simp
  · split
    · split
      · simp
      · simp
      · split <;> simp
    · simp

/-- Reads on with the rest of a pattern; `previous` is the character in front of it. -/
def readFrom (r : Reader) (previous : Option Char) : Text → Except Defect Reader
  | [] => pure r
  | '?' :: t => readFrom (r.push .anyByte) (some '?') t
  | '*' :: '*' :: t =>
    let next := readStars r previous t
    have := length_readStars r previous t
    readFrom next.1 next.2.1 next.2.2
  | '*' :: t => readFrom (r.push .anyRun) (some '*') t
  | '[' :: t =>
    match _h : readClass [] true false (readNegation t).2 with
    | .error defect => throw defect
    | .ok (ranges, rest) =>
      have := length_readClass _h
      have := length_readNegation t
      readFrom (r.push (.oneOf (readNegation t).1 ranges)) (some ']') rest
  | '{' :: t => readFrom r.openGroup (some '{') t
  | '}' :: t => do readFrom (← r.closeGroup) (some '}') t
  | ',' :: t => readFrom r.comma (some ',') t
  | ['\\'] => throw .danglingEscape
  | '\\' :: c :: t => readFrom (r.push (.literal c)) (some c) t
  | c :: t => readFrom (r.push (.literal c)) (some c) t
termination_by t => t.length

def parse (pattern : Text) : Except Defect (List Token) := do
  let r ← readFrom .start none pattern
  if r.inGroup then throw .unclosedGroup else pure r.current.reverse

end Provenance.Glob
