import Winunitd.Unit.Names

/-
  Error values of the planner, the executor and the manager.

  An `Err` keeps the structure that the code inspects
  (`errors.Is`, `errors.As`) and the text that it prints.

  Key definitions include:
    * `Err`
    * `Err.message`
    * `Err.isSkipped`
-/

------------------------------------------------------------
-- Errors
------------------------------------------------------------

namespace Winunitd

namespace Core

/- Error values over unit names. -/
inductive Err (N : Type) where
| text (msg : String)
| skipped
| canceled
| deadlineExceeded
| exitStatus (code : UInt32)
| account (user : String) (err : Err N)
| wrap (msg : String) (err : Err N)
| join (first second : Err N)
| dependency (unit required : N) (err : Err N)
deriving DecidableEq, Repr

namespace Err

variable {N : Type}

/- `errors.Is(err, ErrSkipped)`. -/
def isSkipped : Err N → Bool
| .skipped => true
| .account _ err => err.isSkipped
| .wrap _ err => err.isSkipped
| .join a b => a.isSkipped || b.isSkipped
| .dependency _ _ err => err.isSkipped
| _ => false

variable [UnitNames N]

/- The text of an error. -/
def message : Err N → String
| .text msg => msg
| .skipped => "skipped"
| .canceled => "context canceled"
| .deadlineExceeded => "context deadline exceeded"
| .exitStatus code =>
    if 0xC0000000 ≤ code then
      "signal-equivalent: exit status " ++ toString code
    else
      "exit status " ++ toString code
| .account user err => "User=" ++ user ++ ": " ++ err.message
| .wrap msg err => msg ++ ": " ++ err.message
| .join a b => a.message ++ "\n" ++ b.message
| .dependency unit required err =>
    UnitNames.text unit ++ " failed because required " ++
      UnitNames.text required ++ " failed: " ++ err.message

end Err

end Core

end Winunitd
