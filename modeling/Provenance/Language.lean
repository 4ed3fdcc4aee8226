import Provenance.Path

/-!
The programming languages whose headers are understood, and how a file name tells which one it is.
-/
namespace Provenance

inductive Language
  | cSharp | rust | typeScript | tsx | javaScript | go | java | c | cPlusPlus | swift | zig
deriving DecidableEq, Repr

namespace Language

def all : List Language :=
  [cSharp, rust, typeScript, tsx, javaScript, go, java, c, cPlusPlus, swift, zig]

def extensions : Language → List Text
  | cSharp => ["cs".toList]
  | rust => ["rs".toList]
  | typeScript => ["ts".toList, "mts".toList, "cts".toList]
  | tsx => ["tsx".toList]
  | javaScript => ["js".toList, "jsx".toList, "mjs".toList, "cjs".toList]
  | go => ["go".toList]
  | java => ["java".toList]
  | c => ["c".toList, "h".toList]
  | cPlusPlus => ["cpp".toList, "hpp".toList, "cc".toList, "cxx".toList, "hh".toList]
  | swift => ["swift".toList]
  | zig => ["zig".toList]

def name : Language → Text
  | cSharp => "c#".toList
  | rust => "rust".toList
  | typeScript => "typescript".toList
  | tsx => "tsx".toList
  | javaScript => "javascript".toList
  | go => "go".toList
  | java => "java".toList
  | c => "c".toList
  | cPlusPlus => "c++".toList
  | swift => "swift".toList
  | zig => "zig".toList

/-- The language with this extension, whatever the case of its ASCII letters. -/
def ofExtension? (ext : Bytes) : Option Language :=
  all.find? fun l => l.extensions.any fun e => Utf8.encode e == ext.map lowerByte

def ofPath? (p : Path) : Option Language :=
  p.extension?.bind ofExtension?

end Language

end Provenance
