import VelocityX.Queue.Timeout

/-!
# The values of a push with a timeout

`push_with_timeout` of the default queue in `src/queue/mpmc_simple.rs` takes a closure that
produces the value to push.  The closure is called for the argument of `push`, and so in every
attempt: `valueFactory k` is the value of call `k`, for example the `k`-th element of a source
that the closure consumes.  A refused value is dropped with the error.
-/

namespace VelocityX.MpmcSimple.MpmcQueue

open Retry

variable {T : Type*} {w : Nat}

section Calls

variable {clock : Nat → Nat} {found : Nat → MpmcQueue T} {timeout : Nat} {valueFactory : Nat → T}

end Calls

end VelocityX.MpmcSimple.MpmcQueue
