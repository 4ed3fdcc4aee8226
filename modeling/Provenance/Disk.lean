import Provenance.FileSystem

/-!
A file system held in memory: a tree of files, directories and symbolic links below the current
directory. A path is followed stretch by stretch. A link puts its target in front of what is still to
follow, and only so many links are followed on one path. What lies above the current directory is
not part of the tree.
-/
namespace Provenance

def Listing.find? (l : Listing) (name : FileName) : Option Entry :=
  (List.find? (fun entry => entry.1 == name) l).map Prod.snd

def Listing.put (name : FileName) (entry : Entry) : Listing → Listing
  | [] => [(name, entry)]
  | other :: l => if other.1 = name then (name, entry) :: l else other :: Listing.put name entry l

def Listing.erase (name : FileName) (l : Listing) : Listing :=
  l.filter fun entry => entry.1 != name

structure Disk where
  entries : Listing

namespace Disk

def empty : Disk := ⟨[]⟩

def maxLinks : Nat := 40

def maxName : Nat := 255

/-- Follows the stretches of a path from a directory; `above` holds the directories above it,
innermost first, and the time is that of the directory. -/
def follow (links : Nat) (modified : Instant) (here : Listing) (above : List (Instant × Listing)) :
    List Bytes → Except Obstacle Object
  | [] => pure (.directory modified here)
  | stretch :: rest =>
    match Component.ofStretch? stretch with
    | some .up =>
      match above with
      | [] => throw .missing
      | (outerModified, outer) :: above => follow links outerModified outer above rest
    | some (.name name) =>
      if maxName < name.bytes.length then throw .nameTooLong
      else
        match Listing.find? here name with
        | none => throw .missing
        | some (.file changed content) =>
          if rest = [] then pure (.file changed (.ok content)) else throw .notDirectory
        | some (.directory changed entries) =>
          follow links changed entries ((modified, here) :: above) rest
        | some (.link target) =>
          match links with
          | 0 => throw .linkLoop
          | links + 1 =>
            if target.bytes.head? = some separator then throw .missing
            else follow links modified here above (target.stretches ++ rest)
    | some .top | some .here | none => follow links modified here above rest
termination_by stretches => (links, stretches.length)

/-- What each path leads to. The time of the current directory itself is never asked for. -/
def view (d : Disk) : FileSystem := fun path =>
  if path.bytes.contains 0 then throw .nulByte
  else if FileSystem.maxPath < path.bytes.length then throw .nameTooLong
  else if path.bytes = [] ∨ path.bytes.head? = some separator then throw .missing
  else follow maxLinks ⟨0⟩ d.entries [] path.stretches

def listingAt : List FileName → Listing → Option Listing
  | [], l => some l
  | name :: names, l =>
    match Listing.find? l name with
    | some (.directory _ entries) => listingAt names entries
    | _ => none

def linkAt (d : Disk) (place : List FileName) (name : FileName) : Option Path :=
  match (listingAt place d.entries).bind (Listing.find? · name) with
  | some (.link target) => some target
  | _ => none

/-- The place that a change of a path is about, from the top of the disk: links on the way are
followed, and steps upwards undone. The last step is followed too if `last` says so. -/
def locate (d : Disk) (last : Bool) (links : Nat) (place : List FileName) :
    List Component → List FileName
  | [] => place
  | .top :: steps | .here :: steps => locate d last links place steps
  | .up :: steps => locate d last links place.dropLast steps
  | .name name :: steps =>
    match if steps = [] ∧ ¬last then none else d.linkAt place name with
    | none => locate d last links (place ++ [name]) steps
    | some target =>
      match links with
      | 0 => locate d last 0 (place ++ [name]) steps
      | links + 1 => locate d last links place (target.components ++ steps)
termination_by steps => (links, steps.length)

def putAt (now : Instant) (entry : Entry) : List FileName → Listing → Listing
  | [], l => l
  | [name], l => Listing.put name entry l
  | name :: names, l =>
    match Listing.find? l name with
    | some (.directory modified entries) =>
      Listing.put name (.directory modified (putAt now entry names entries)) l
    | _ => Listing.put name (.directory now (putAt now entry names [])) l

/-- The disk with a directory that a path leads to, which is made if it is missing. -/
def withDirectory (d : Disk) (now : Instant) (steps : List Component) : Disk :=
  let place := d.locate true maxLinks [] steps
  if (listingAt place d.entries).isSome then d
  else ⟨putAt now (.directory now []) place d.entries⟩

/-- The disk with all directories that a path goes through. They are made from the top, so a
directory that the path leaves again is made as well. -/
def withDirectories (d : Disk) (now : Instant) (steps : List Component) : Disk :=
  (List.range steps.length).foldl (fun d n => d.withDirectory now (steps.take (n + 1))) d

def eraseAt : List FileName → Listing → Listing
  | [], l => l
  | [name], l => Listing.erase name l
  | name :: names, l =>
    match Listing.find? l name with
    | some (.directory modified entries) =>
      Listing.put name (.directory modified (eraseAt names entries)) l
    | _ => l

def hasPlaceOf (d : Disk) (path : Path) : Bool :=
  match follow maxLinks ⟨0⟩ d.entries [] path.stretches.dropLast with
  | .ok (.directory _ _) => true
  | _ => false

inductive Change
  | write (path : Path) (modified : Instant) (content : Bytes)
  | makeDirectory (path : Path)
  | link (path target : Path)
  | remove (path : Path)

/-- The disk after a change; directories that it makes are as old as `now`. Removing makes none, and
what no directory holds cannot be removed. Writing and making a directory go through a link in the
last place, the other changes are about the link itself. -/
def apply (d : Disk) (now : Instant) : Change → Disk
  | .write path modified content =>
    let d := d.withDirectories now path.components.dropLast
    ⟨putAt now (.file modified content) (d.locate true maxLinks [] path.components) d.entries⟩
  | .makeDirectory path => d.withDirectories now path.components
  | .link path target =>
    let d := d.withDirectories now path.components.dropLast
    ⟨putAt now (.link target) (d.locate false maxLinks [] path.components) d.entries⟩
  | .remove path =>
    if d.hasPlaceOf path then ⟨eraseAt (d.locate false maxLinks [] path.components) d.entries⟩
    else d

end Disk

end Provenance
