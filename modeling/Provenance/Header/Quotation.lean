import Provenance.Header.Token

/-!
What a token opens and a later token closes: the condition of a directive of C#, which a line feed
ends, quoted text with code in it, and the holes that hold the code. Such text is a token between
two quotes, and a hole lies between two braces. The innermost of what is open says which tokens come
next.
-/
namespace Provenance.Header

/-- How quoted text is written that is no single token. -/
inductive QuotedForm
  /-- A backslash takes the next character along. -/
  | escaped
  /-- A quote is written twice. -/
  | doubled
  /-- The text stands between runs of so many quotes, and a run of so many braces opens a hole. -/
  | fenced (quotes braces : Nat)
deriving DecidableEq, Repr

namespace QuotedForm

def quotes : QuotedForm → Nat
  | escaped | doubled => 1
  | fenced quotes _ => quotes

def braces : QuotedForm → Nat
  | escaped | doubled => 1
  | fenced _ braces => braces

/-- How many of the first characters are literal text and cannot be divided; none in front of a
closing quote or a hole. -/
def unit (form : QuotedForm) (text : Text) : Nat :=
  let quotes := (text.takeWhile (· == '"')).length
  let braces := (text.takeWhile (· == '{')).length
  match form, text with
  | _, [] => 0
  | escaped, '\\' :: _ :: _ => 2
  | escaped, '"' :: _ => 0
  | doubled, '"' :: _ => if 2 ≤ quotes then 2 else 0
  | escaped, '{' :: _ | doubled, '{' :: _ => if 2 ≤ braces then 2 else 0
  | fenced closing _, '"' :: _ => if quotes = closing then 0 else quotes
  | fenced _ opening, '{' :: _ => if braces = opening then 0 else braces
  | _, _ :: _ => 1

def literalTail (form : QuotedForm) (text : Text) : Nat :=
  match text with
  | [] => 0
  | c :: t =>
    match form.unit (c :: t) with
    | 0 => 0
    | n + 1 => literalTail form (t.drop n) + n + 1
termination_by text.length
decreasing_by
  simp only [List.length_drop, List.length_cons]
  omega

/-- The quoted text that a token opens which begins with `c`, with the characters of `t` that belong
to the token. -/
def opening? (c : Char) (t : Text) : Option (QuotedForm × Nat) :=
  let run (quote : Char) (t : Text) : Nat := (t.takeWhile (· == quote)).length
  match c with
  | '"' => if 2 ≤ run '"' t then some (.fenced (run '"' t + 1) 0, run '"' t) else none
  | '@' =>
    match t with
    | '$' :: '"' :: _ => some (.doubled, 2)
    | _ => none
  | '$' =>
    let signs := run '$' t
    match t.drop signs with
    | '@' :: '"' :: _ => some (.doubled, signs + 2)
    | '"' :: t =>
      if 2 ≤ run '"' t then some (.fenced (run '"' t + 1) (signs + 1), signs + run '"' t + 1)
      else some (.escaped, signs + 1)
    | _ => none
  | _ => none

end QuotedForm

/-- What has been opened and not closed. -/
inductive Level
  /-- The condition of a directive with `depth` open brackets; it can end where it is `complete`. -/
  | condition (depth : Nat) (complete : Bool)
  | quoted (form : QuotedForm)
  /-- A hole between so many braces, with `depth` open brackets, and `choices` question marks that
  still want their colon. -/
  | hole (braces depth choices : Nat)
deriving DecidableEq, Repr

namespace Level

def step (d : Dialect) (c : Char) (t : Text) : Level → Level
  | condition depth _ =>
    if c = '(' then condition (depth + 1) false
    else if c = ')' then condition (depth - 1) true
    else condition depth (c == '\'' || d.isWord c)
  | quoted form => quoted form
  | hole braces depth choices =>
    if c = '(' ∨ c = '[' ∨ c = '{' then hole braces (depth + 1) choices
    else if c = ')' ∨ c = ']' ∨ c = '}' then hole braces (depth - 1) choices
    else if depth ≠ 0 then hole braces depth choices
    else if c = '?' ∧ t.head?.all (fun next => next != '?' && next != '.' && next != '[') then
      hole braces depth (choices + 1)
    else if c = ':' ∧ t.head? ≠ some ':' then hole braces depth (choices - 1)
    else hole braces depth choices

/-- The token that only means what it does at this level: the characters of `t` that belong to it, and
the levels that are open after it in place of this one, innermost first. -/
def token? (c : Char) (t : Text) : Level → Option (Nat × List Level)
  | condition depth complete => if c = '\n' ∧ depth = 0 ∧ complete then some (0, []) else none
  | quoted form =>
    match form.literalTail (c :: t) with
    | n + 1 => some (n, [quoted form])
    | 0 =>
      if c = '"' then some (form.quotes - 1, [])
      else some (form.braces - 1, [hole form.braces 0 0, quoted form])
  | hole braces depth choices =>
    if depth ≠ 0 then none
    else if c = '}' then some (braces - 1, [])
    else if c = ':' ∧ choices = 0 ∧ t.head? ≠ some ':' then
      some ((t.takeWhile fun c => c != '}' && c != '"').length, [hole braces depth choices])
    else none

def opensCondition (c : Char) (t : Text) : Bool :=
  c == '#' && ["if".toList, "elif".toList].any (·.isPrefixOf (signGap t).2)

end Level

/-- The next token of code, which begins with `c`: the characters of `t` that belong to it, and the
levels that are open after it. -/
def Dialect.readToken (d : Dialect) (levels : List Level) (c : Char) (t : Text) :
    Nat × List Level :=
  match QuotedForm.opening? c t with
  | some (form, n) => (n, .quoted form :: levels)
  | none =>
    (d.tokenTail c t,
      if Level.opensCondition c t then .condition 0 false :: levels
      else
        match levels with
        | [] => []
        | level :: outer => level.step d c t :: outer)

end Provenance.Header
