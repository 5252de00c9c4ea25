/-!
# The error enumeration of the crate
-/
namespace AntsPool

inductive Error
  | lackPoolFunc
  | invalidPoolExpiry
  | poolClosed
  | poolOverload
  | invalidPreAllocSize
  | timeout
  | invalidPoolIndex
  | invalidLoadBalancingStrategy
  | invalidMultiPoolSize
  | queueIsFull
  | canceled
  | deadlineExceeded
  | pools (detail : String)
deriving Repr, DecidableEq

/-- `Display for Error`. -/
def Error.message : Error → String
  | lackPoolFunc => "must provide function for pool"
  | invalidPoolExpiry => "invalid expiry for pool"
  | poolClosed => "this pool has been closed"
  | poolOverload => "too many goroutines blocked on submit or Nonblocking is set"
  | invalidPreAllocSize => "can not set up a negative capacity under PreAlloc mode"
  | timeout => "operation timed out"
  | invalidPoolIndex => "invalid pool index"
  | invalidLoadBalancingStrategy => "invalid load-balancing strategy"
  | invalidMultiPoolSize => "invalid size for multiple pool"
  | queueIsFull => "the queue is full"
  | canceled => "context canceled"
  | deadlineExceeded => "context deadline exceeded"
  | pools detail => detail

end AntsPool
