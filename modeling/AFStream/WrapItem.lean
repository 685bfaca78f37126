/-
# Items between threads

Every record travels wrapped: a type, a sequence number and the thread and worker
that produced it.
-/

import Mathlib.Data.Nat.Notation

namespace AFStream

universe u

/-- `ITEM_TYPE` -/
inductive ItemType
  | normal
  | finish
  | timeout
  | reverse
  | ack
  deriving DecidableEq, Repr

/-- `WrapItem` -/
structure WrapItem (T : Type u) where
  itemType : ItemType
  seq : ℕ
  thrSource : ℕ
  workerSource : ℕ
  data : T
  deriving DecidableEq, Repr

end AFStream
