import MoveCodec.Command.Run

/-!
# Command line

Runs a command on the files of the disk and prints its outcome.
-/
namespace MoveCodec

def FileReason.ofError : IO.Error → FileReason
  | .noFileOrDirectory .. => .missing
  | .inappropriateType _ _ details =>
    if details.toLower.startsWith "is a" then .isDirectory else .notDirectory
  | .invalidArgument _ _ details =>
    if details.toLower.startsWith "file name" then .nameTooLong else .invalid
  | .permissionDenied .. => .other "permission denied"
  | e => .other (toString e)

instance : Files IO where
  isDirectory path := do
    try (← IO.FS.realPath path).isDir
    catch _ => return false
  read path := do
    try return .ok (← IO.FS.readBinFile path).data.toList
    catch e =>
      let reason := FileReason.ofError e
      return .error ⟨if reason = .isDirectory then "read" else "open", path, reason⟩
  write path contents := do
    try
      IO.FS.writeBinFile path ⟨contents.toArray⟩
      return .ok ()
    catch e => return .error ⟨"open", path, .ofError e⟩

end MoveCodec

def main (args : List String) : IO UInt32 := do
  let outcome ← MoveCodec.Command.execute {} args
  IO.print outcome.stdout
  IO.eprint outcome.stderr
  return outcome.code
