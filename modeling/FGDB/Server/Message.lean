import FGDB.Common

/-!
# Messages and transactions

The command of a message is one byte. Five of its values are commands; a message
may carry any other.
-/

namespace FGDB.Server

open Foundation

/-- `msg_command_t`. -/
inductive Command
  | peek
  | select
  | insert
  | update
  | delete
  deriving DecidableEq, Repr

def Command.code : Command → UInt8
  | peek => 0x1
  | select => 0x2
  | insert => 0x3
  | update => 0x4
  | delete => 0x5

/-- `msg_t`. -/
structure Msg where
  cmd : UInt8
  key : Str
  val : Str
  deriving DecidableEq, Repr

/-- `transaction_t`; the ancestor is the request it answers, and `none` is NULL. -/
structure Transaction where
  ancestor : Option ℕ
  msg : Msg
  deriving DecidableEq, Repr

end FGDB.Server
