import LzCodec.Corruption

/-!
# Failures

A call fails because a read or write was refused, or because its input is no frame.
-/

namespace LzCodec

/-- Why a read or write was refused. -/
inductive SystemError where
  | notFound
  | notADirectory
  | isADirectory
  | storageFull
  | tooManyLinks
  | nameTooLong
  | invalidArgument
  /-- A path holds a zero byte, at which it would end. -/
  | zeroInPath
  | other (text : String)
  deriving DecidableEq, Repr

def SystemError.message : SystemError → String
  | notFound => "No such file or directory (os error 2)"
  | notADirectory => "Not a directory (os error 20)"
  | isADirectory => "Is a directory (os error 21)"
  | storageFull => "No space left on device (os error 28)"
  | tooManyLinks => "Too many levels of symbolic links (os error 40)"
  | nameTooLong => "File name too long (os error 36)"
  | invalidArgument => "Invalid argument (os error 22)"
  | zeroInPath => "file name contained an unexpected NUL byte"
  | other text => text

inductive Failure where
  | system (error : SystemError)
  | corrupt (error : Corruption)
  deriving DecidableEq, Repr

namespace Failure

def isCorrupt : Failure → Bool
  | system _ => false
  | corrupt _ => true

/-- The message of what was refused or found wrong. -/
def cause : Failure → String
  | system e => e.message
  | corrupt e => e.message

def message : Failure → String
  | f@(system _) => "i/o error: " ++ f.cause
  | f@(corrupt _) => "corrupt stream: " ++ f.cause

end Failure

end LzCodec
