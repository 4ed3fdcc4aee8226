import Provenance.Header.Dialect

/-!
How far a token reaches. Tokens have to be told apart only on a line that counts as a directive of
C#, where comments may stand between them; quoted text must then hide the marks of comments. A token
is a word, a quoted text, a number sign with the word after it, or else a single character.
-/
namespace Provenance.Header

def Dialect.isWord (d : Dialect) (c : Char) : Bool :=
  c.isAlphanum || c == '_' || (128 ≤ c.toNat && !d.isBlank c)

/-- Characters up to and with the closing quote; a quoted text ends with its line at the latest. -/
def quotedTail (quote : Char) : Text → Nat
  | [] => 0
  | '\\' :: c :: t => if c = '\n' then 1 else quotedTail quote t + 2
  | c :: t => if c = quote then 1 else if c = '\n' then 0 else quotedTail quote t + 1

/-- Characters up to and with the closing quote, where a quote is written twice. -/
def verbatimTail : Text → Nat
  | [] => 0
  | '"' :: '"' :: t => verbatimTail t + 2
  | c :: t => if c = '"' then 1 else verbatimTail t + 1

def signGap (t : Text) : Nat × Text :=
  let isGap (c : Char) : Bool := c == ' ' || c == '\t'
  ((t.takeWhile isGap).length, t.dropWhile isGap)

/-- The words that divide a text into conditional parts; they end where they are complete. -/
def conditionalWords : List Text :=
  ["if".toList, "elif".toList, "else".toList, "endif".toList]

def signTail (d : Dialect) (t : Text) : Nat :=
  let (gap, rest) := signGap t
  match conditionalWords.find? (·.isPrefixOf rest) with
  | some word => gap + word.length
  | none => gap + (rest.takeWhile d.isWord).length

def Dialect.tokenTail (d : Dialect) (c : Char) (t : Text) : Nat :=
  match c, t with
  | '#', '!' :: t => (t.takeWhile (· != '\n')).length + 1
  | '#', t => signTail d t
  | '@', '"' :: t => verbatimTail t + 1
  | '"', t => quotedTail '"' t
  | '\'', t => quotedTail '\'' t
  | '?', '?' :: _ | ':', ':' :: _ => 1
  | c, t => if d.isWord c then (t.takeWhile d.isWord).length else 0

end Provenance.Header
