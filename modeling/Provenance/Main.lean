import Provenance.CommandLine.Arguments
import Provenance.Glob.Engine
import Provenance.Header.Tree

/-!
The program. It looks at the disk as far as its arguments make that necessary, hands what it has
seen to the pure part as a file system, and writes what the pure part answers.
-/
namespace Provenance.Main

/-- The obstacle that the system reports under a number, which may come with its sign changed. -/
def obstacleOfNumber (code : UInt32) (details : String) : Obstacle :=
  let number := if code.toNat < 0x80000000 then code.toNat else 0x100000000 - code.toNat
  match number with
  | 20 => .notDirectory
  | 36 => .nameTooLong
  | 40 => .linkLoop
  | number => .other (details.toList ++ " (os error ".toList ++ Text.ofNat number ++ ")".toList)

def obstacleOf : IO.Error → Obstacle
  | .noFileOrDirectory .. => .missing
  | .permissionDenied .. => .denied
  | .alreadyExists _ code details | .otherError code details | .resourceBusy code details
  | .resourceVanished code details | .unsupportedOperation code details
  | .hardwareFault code details | .unsatisfiedConstraints code details
  | .illegalOperation code details | .protocolError code details | .timeExpired code details
  | .interrupted _ code details | .invalidArgument _ code details
  | .resourceExhausted _ code details | .inappropriateType _ code details
  | .noSuchThing _ code details => obstacleOfNumber code details
  | .unexpectedEof => .other "unexpected end of file".toList
  | .userError message => .other message.toList

def attempt {α : Type} (work : IO α) : IO (Except Obstacle α) := do
  match ← work.toBaseIO with
  | .ok a => pure (.ok a)
  | .error e => pure (.error (obstacleOf e))

def modifiedOf (data : IO.FS.Metadata) : Instant :=
  .ofParts data.modified.sec data.modified.nsec.toNat

/-- The entries below a directory, without the bytes of the files. What is neither a file nor a
directory is no more looked into than a link, and a directory that cannot be read has no entries. -/
partial def listingOf (place : IO.FS.DirEntry) : IO Listing := do
  match ← place.path.readDir.toBaseIO with
  | .error _ => pure []
  | .ok children =>
    let mut listing := []
    for child in children do
      match FileName.ofBytes? (Utf8.encode child.fileName.toList),
          ← child.path.symlinkMetadata.toBaseIO with
      | some name, .ok data =>
        match data.type with
        | .file => listing := (name, .file (modifiedOf data) []) :: listing
        | .dir => listing := (name, .directory (modifiedOf data) (← listingOf child)) :: listing
        | _ => listing := (name, .link ⟨[]⟩) :: listing
      | _, _ => pure ()
    pure listing

/-- What a path leads to: a directory with all that is below it, or a file with its bytes. -/
def objectAt (path : Path) (withBytes : Bool) : IO (Except Obstacle Object) := do
  if path.bytes.contains 0 then return .error .nulByte
  if path.bytes = [] then return .error .missing
  let place : IO.FS.DirEntry := ⟨".", String.ofList path.display⟩
  match ← attempt place.path.metadata with
  | .error e => pure (.error e)
  | .ok data =>
    if data.type == .dir then
      pure (.ok (.directory (modifiedOf data) (← listingOf place)))
    else if data.byteSize == 0 || !withBytes then
      pure (.ok (.file (modifiedOf data) (.ok [])))
    else
      let bytes ← attempt (IO.FS.readBinFile place.path)
      pure (.ok (.file (modifiedOf data) (bytes.map ByteArray.toList)))

abbrev Sightings := List (Path × Except Obstacle Object)

/-- The sightings as a file system; what has not been seen is not there. -/
def Sightings.fileSystem (seen : Sightings) : FileSystem := fun path =>
  match seen.find? fun entry => entry.1 == path with
  | some entry => entry.2
  | none => .error .missing

def tools : CommandLine.Tools := ⟨Header.parser, Glob.engine, CommandLine.interface⟩

def look (arguments : List Bytes) : IO Sightings := do
  let .ok i := tools.interface.read arguments | return []
  if i.completions.isSome then return []
  let .ok exclusion := Exclusion.ofPatterns tools.patterns i.patterns | return []
  let roots ← i.roots.mapM fun root => do
    pure (root, ← objectAt root (Scan.settledByName? root).isNone)
  let .ok paths := Scan.collect (Sightings.fileSystem roots) exclusion i.roots | return roots
  let unsettled := paths.filter fun path => (Scan.settledByName? path).isNone
  let files ← unsettled.mapM fun path => do pure (path, ← objectAt path true)
  pure (roots ++ files)

/-- The signal of a timer for some seconds when so many milliseconds have gone by: all that is still
to be classified comes before the timer goes off, or after it. -/
def timerAfter (elapsed seconds : Nat) : Signal :=
  if 1000 * seconds ≤ elapsed then .fired else .never

end Provenance.Main

open Provenance Main in
def main (arguments : List String) : IO UInt32 := do
  let begun ← IO.monoMsNow
  let arguments := arguments.map fun argument => Utf8.encode argument.toList
  let seen ← look arguments
  let elapsed := (← IO.monoMsNow) - begun
  let outcome := CommandLine.run tools seen.fileSystem (timerAfter elapsed) arguments
  IO.print (String.ofList outcome.output)
  IO.eprint (String.ofList outcome.errors)
  pure (UInt32.ofNat outcome.exitCode)
