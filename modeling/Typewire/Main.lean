import Typewire.Command.Line

/-! # The program

Reads the files that a command line names, runs it, and carries out the reply.
-/

namespace Typewire

def readFile? (path : String) : IO (Option String) := do
  try return some (← IO.FS.readFile path)
  catch _ => return none

partial def readLines (stream : IO.FS.Stream) (read : String) : IO String := do
  let line ← stream.getLine
  if line.isEmpty then return read else readLines stream (read ++ line)

def readStdin? : IO (Option String) := do
  try return some (← readLines (← IO.getStdin) "")
  catch _ => return none

def carryOut (reply : Reply) : IO Reply := do
  match reply.file? with
  | none => return reply
  | some (path, text) =>
    try
      IO.FS.writeFile path text
      return reply
    catch _ => return reply.unwritten

end Typewire

open Typewire in
def main (words : List String) : IO UInt32 := do
  let files ← (CommandLine.inputs words).mapM fun path => do return (path, ← readFile? path)
  let stdin? ← if CommandLine.readsStdin words then readStdin? else pure none
  let read (path : String) := (List.lookup path files).join
  let reply ← carryOut (CommandLine.run read stdin? words)
  IO.print reply.printed
  unless reply.complaint.isEmpty do IO.eprintln reply.complaint
  return reply.exit.toUInt32
