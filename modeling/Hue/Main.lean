import Hue.Tool.Assembler
import Hue.Tool.Disassembler

/-!
The command line: the first argument names the tool, the others are its own.
-/
namespace Hue.Tool

def fileError : IO.Error → FileError
  | .noFileOrDirectory _ _ _ => .notFound
  | e => .other (toString e)

instance : FileAccess IO where
  read path := do
    try return .ok (← IO.FS.readBinFile path)
    catch e => return .error (fileError e)
  write path content := do
    try
      IO.FS.writeBinFile path content
      return .ok ()
    catch e => return .error (fileError e)

def runTool : List String → IO Outcome
  | "asm" :: args => Assembler.run args
  | "disasm" :: args => Disassembler.run args
  | _ => return .usage (Assembler.usageText ++ Disassembler.usageText)

end Hue.Tool

def main (args : List String) : IO UInt32 := do
  let outcome ← Hue.Tool.runTool args
  IO.print outcome.stdout
  IO.eprint outcome.stderr
  return UInt32.ofNat outcome.status
