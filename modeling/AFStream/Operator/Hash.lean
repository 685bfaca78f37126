/-
# Hash functions

A `Hash` object is a member of a family of hash functions. Its parameters are computed
from a seed that the operator tracker of the worker counts up, so the objects of a worker
get their parameters in the order in which they are created.
-/

import AFStream.Foundation.Bytes

namespace AFStream.Operator

open AFStream.Foundation

/-- `AwareHash` -/
def awareHash (data : List UInt8) (hash scale hardener : UInt32) : UInt32 :=
  data.foldl (fun hash byte => hash * scale + byte.toUInt32) hash ^^^ hardener

/-- `OperatorTracker::GetSeed`: the seed, and the counter behind it. -/
def getSeed (counter : UInt32) : UInt64 × UInt32 := (counter.toUInt64, counter + 1)

/-- `Hash` -/
structure Hash where
  hash : UInt64
  scale : UInt64
  hardener : UInt64
  maxValue : ℕ

namespace Hash

/-- The constructor. All three parameters are hashed from the seed in the same way. -/
def create (maxValue : ℕ) (seed : UInt64) : Hash :=
  let parameter := awareHash (Codec.uint64.encode seed) 388650253 388650319 1176845762
  { hash := parameter.toUInt64
    scale := parameter.toUInt64
    hardener := parameter.toUInt64
    maxValue := maxValue }

/-- `GetHashValue` -/
def getHashValue (hash : Hash) (key : List UInt8) : ℕ :=
  (awareHash key hash.hash.toUInt32 hash.scale.toUInt32 hash.hardener.toUInt32).toNat %
    hash.maxValue

theorem getHashValue_lt {hash : Hash} (hpos : 0 < hash.maxValue) (key : List UInt8) :
    hash.getHashValue key < hash.maxValue :=
  Nat.mod_lt _ hpos

end Hash

end AFStream.Operator
