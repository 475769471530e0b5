import IntScript.Shell.Conversation
import IntScript.Shell.Options

/-!
# The command

The report of the command, as a function of its options and of what it reads.
-/

namespace IntScript.Shell

/-- The report of the command, given the bytes of the file it is pointed at, or the reason why they
cannot be read, and the bytes of the standard input. -/
def report (fuel : Nat) (options : Options) (contents : Except String ByteArray)
    (input : ByteArray) : Option Report :=
  match options.origin with
  | .conversation => ofInput fuel options.callLimit input
  | .file path => ofFile fuel options.callLimit options.mode path contents
  | .inline source => ofSource fuel options.callLimit options.mode source inlineFile
  | .nowhere => ofNothing fuel options.callLimit

end IntScript.Shell
