import Provenance.Header.Dialect

/-!
How far a comment reaches. Each function takes the text after the opening mark and counts the
characters that still belong to the comment; a block comment that is never closed is none.
-/
namespace Provenance.Header

def lineTail (ends : Char → Bool) (t : Text) : Nat :=
  (t.takeWhile fun c => !ends c).length

/-- Characters up to the first line feed that no backslash hides. -/
def joinedTail : Text → Nat
  | [] => 0
  | '\\' :: '\r' :: '\n' :: t => joinedTail t + 3
  | '\\' :: '\n' :: t => joinedTail t + 2
  | c :: t => if c = '\n' then 0 else joinedTail t + 1

def flatTail? : Text → Option Nat
  | [] => none
  | '*' :: '/' :: _ => some 2
  | _ :: t => (flatTail? t).map (· + 1)

/-- What the last character of a block comment may be the first half of; of a star, whether it was
written as such. -/
inductive Half
  | neither | slash
  | star (written : Bool)
deriving DecidableEq, Repr

def seen (byLowByte : Bool) (c : Char) : Char :=
  if byLowByte then Char.ofNat (c.toNat % 256) else c

/-- Characters up to the closing mark that leaves no comment open; `depth` more than one are. -/
def nestedTail? (byLowByte : Bool) : Half → Nat → Text → Option Nat
  | _, _, [] => none
  | half, depth, c :: t =>
    match half, depth, seen byLowByte c with
    | .slash, depth, '*' => (nestedTail? byLowByte .neither (depth + 1) t).map (· + 1)
    | .slash, depth, '/' =>
      (nestedTail? byLowByte (if byLowByte then .neither else .slash) depth t).map (· + 1)
    | .star written, 0, '/' => if written && c == '/' then some 1 else none
    | .star _, depth + 1, '/' => (nestedTail? byLowByte .neither depth t).map (· + 1)
    | .star _, depth, '*' => (nestedTail? byLowByte (.star (c == '*')) depth t).map (· + 1)
    | .neither, depth, '/' => (nestedTail? byLowByte .slash depth t).map (· + 1)
    | .neither, depth, '*' => (nestedTail? byLowByte (.star (c == '*')) depth t).map (· + 1)
    | _, depth, _ => (nestedTail? byLowByte .neither depth t).map (· + 1)

/-- Whether the text begins with a star that marks documentation, and so is half of nothing. -/
def beginsDocumentation : Text → Bool
  | c :: next :: _ => seen true c == '*' && next != '*' && next != '/'
  | _ => false

def BlockForm.tail? : BlockForm → Text → Option Nat
  | flat, t => flatTail? t
  | nested, t => nestedTail? false .neither 0 t
  | nestedByLowByte, t =>
    if beginsDocumentation t then (nestedTail? true .neither 0 (t.drop 1)).map (· + 1)
    else nestedTail? true .neither 0 t

/-- Characters of a line and, if all that is visible in it opens a block comment, of this comment and
the line behind it. -/
def heldTail (form : BlockForm) (text : Text) : Nat :=
  match text with
  | [] => 0
  | c :: t =>
    let line := (c :: t).takeWhile (· != '\n')
    match if line.dropWhile isAsciiBlank = ['/', '*'] then form.tail? ((c :: t).drop line.length)
        else none with
    | none => line.length
    | some n => line.length + n + heldTail form (t.drop (line.length + n - 1))
termination_by text.length
decreasing_by
  simp only [List.length_drop, List.length_cons]
  omega

/-- Characters of a comment of one line after its opening mark, if the mark opens one. -/
def Dialect.lineTail? (d : Dialect) (t : Text) : Option Nat :=
  match d.blocks, t with
  | some form, '/' :: '/' :: rest =>
    if d.slashesHoldBlocks then some (heldTail form rest + 2) else plainTail? t
  | _, t => plainTail? t
where
  /-- The same, for a comment that holds nothing. -/
  plainTail? (t : Text) : Option Nat :=
    if d.slashesMeetStar && (t.dropWhile (· == '/')).head? == some '*' then none
    else if d.joinsLines then some (joinedTail t)
    else some (lineTail d.endsComment t)

def Dialect.commentTail? (d : Dialect) (c : Char) (t : Text) : Option Nat :=
  match c, t with
  | '/', '/' :: t => (d.lineTail? t).map (· + 1)
  | '/', '*' :: t => do
    let form ← d.blocks
    let n ← form.tail? t
    pure (n + 1)
  | '<', '!' :: '-' :: '-' :: t => if d.markup then some (markupTail t + 3) else none
  | '-', '-' :: '>' :: t => if d.markup then some (markupTail t + 2) else none
  | _, _ => none
where
  /-- Comments of web pages reach over a carriage return. -/
  markupTail (t : Text) : Nat :=
    lineTail (fun c => c == '\n' || Dialect.isUnicodeBreak c) t

end Provenance.Header
