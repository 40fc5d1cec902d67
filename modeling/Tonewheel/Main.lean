import Tonewheel.Host.Command

/-!
# The program (SPEC_FULL, section 13)

The command line over the real file system.
-/

namespace Tonewheel.Host

def completes (act : IO Unit) : IO Bool := do
  try
    act
    return true
  catch _ => return false

def systemFiles : Files IO where
  readFile path := do
    try
      return some (← IO.FS.readBinFile path).toList
    catch _ => return none
  makeDirectories path := completes (IO.FS.createDirAll path)
  writeFile path bytes := completes (IO.FS.writeBinFile path ⟨bytes.toArray⟩)
  print text := IO.print text
  report text := IO.eprint text

end Tonewheel.Host

def main (arguments : List String) : IO UInt32 :=
  Tonewheel.Host.Command.runArguments Tonewheel.Host.systemFiles arguments
