/-!
# Compiler options
-/

namespace Bies

/-- What to do with a name that is bound nowhere and names no function. -/
inductive UnboundPolicy where
  /-- Give it a slot of the current function. -/
  | implicitBinding
  /-- Refuse the program. -/
  | reject
deriving DecidableEq, Repr

/-- Which values the parameters of a function are taken to hold after a call. -/
inductive CalleePolicy where
  /-- The arguments of the call. -/
  | callArguments
  /-- What the first slots of the caller hold. -/
  | callerPrefix
deriving DecidableEq, Repr

structure Options where
  unbound : UnboundPolicy := .implicitBinding
  callee : CalleePolicy := .callArguments
deriving DecidableEq, Repr

end Bies
