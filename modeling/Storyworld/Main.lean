import Storyworld.CommandLine
import Storyworld.Token.Lexer

namespace Storyworld.Main

/-! The program: looks up the paths its arguments name, runs, and writes what the run gives. -/

/-- The text of some bytes. -/
def text (bytes : ByteArray) : Disk.Contents :=
  match Lexer.readBytes bytes.toList with
  | .ok text => .ok text
  | .error _ => .error .notText

/-- What a path leads to. -/
def look (path : String) : IO Disk.Entry := do
  let here := (← IO.currentDir) / path
  if ← here.isDir then
    let length := here.toString.length
    let mut files := []
    for file in ← here.walkDir do
      if !(← file.isDir) then
        let name := ((file.toString.drop length).dropWhile (· = '/')).toString
        if Disk.isSource name then files := (name, text (← IO.FS.readBinFile file)) :: files
    return .folder files
  else if ← here.pathExists then return .file (text (← IO.FS.readBinFile here))
  else return .file (.error .missing)

end Storyworld.Main

/-- Runs the command that the arguments make. -/
def main (args : List String) : IO UInt32 := do
  let result ←
    match Storyworld.CommandLine.Arguments.ofList? args with
    | none => pure Storyworld.CommandLine.usage
    | some arguments => do
      let mut entries := []
      for path in arguments.paths do
        entries := (path, ← Storyworld.Main.look path) :: entries
      let known := entries
      pure <| Storyworld.CommandLine.run
        (fun path => (known.lookup path).getD (.file (.error .missing))) arguments
  IO.print result.stdout
  IO.eprint result.stderr
  return UInt32.ofNat result.code
