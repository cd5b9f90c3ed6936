import LedisDB.Values

/-!
# Errors and words of the server

The errors that the modelled commands return (`server/const.go` and the errors built
from arguments) with their texts, and the forms in capitals and in small letters in which
command names are compared.
-/

namespace LedisDB

inductive ServerErr
  | ErrEmptyCommand
  | ErrNotFound
  | ErrNotAuthenticated
  | ErrAuthenticationFailure
  | ErrCmdParams
  | ErrValue
  | ErrSyntax
  | errScoreOverflow
  | invalidArgument (arg : Bytes)
  | invalidKeyType (arg : Bytes)
  | atoi (arg : Bytes) (e : Err)
  | regexp (pattern : Bytes)
  | ledis (e : Err)
  deriving DecidableEq

/-- The texts of the errors of `strconv.Atoi`, of `regexp.Compile` and of the engine. -/
structure ErrorTexts where
  atoi : Bytes → Err → Bytes
  regexp : Bytes → Bytes
  ledis : Err → Bytes

def ServerErr.Error (texts : ErrorTexts) : ServerErr → Bytes
  | .ErrEmptyCommand => str "empty command"
  | .ErrNotFound => str "command not found"
  | .ErrNotAuthenticated => str "not authenticated"
  | .ErrAuthenticationFailure => str "authentication failure"
  | .ErrCmdParams => str "invalid command param"
  | .ErrValue => str "value is not an integer or out of range"
  | .ErrSyntax => str "syntax error"
  | .errScoreOverflow => str "zset score overflow"
  | .invalidArgument arg => str "invalid argument " ++ arg
  | .invalidKeyType arg => str "invalid key type " ++ arg
  | .atoi arg e => texts.atoi arg e
  | .regexp pattern => texts.regexp pattern
  | .ledis e => texts.ledis e

/-- `strings.ToUpper`, as far as it can yield ASCII: besides the small letters these are
the dotless i and the long s. -/
def toUpper : Bytes → Bytes
  | 0xc4 :: 0xb1 :: bs => 73 :: toUpper bs
  | 0xc5 :: 0xbf :: bs => 83 :: toUpper bs
  | b :: bs => (if 97 ≤ b ∧ b ≤ 122 then b - 32 else b) :: toUpper bs
  | [] => []

def lowerSlice (buf : Bytes) : Bytes := buf.map fun r => if 65 ≤ r ∧ r ≤ 90 then r + 32 else r

def upperSlice (buf : Bytes) : Bytes := buf.map fun r => if 97 ≤ r ∧ r ≤ 122 then r - 32 else r

end LedisDB
