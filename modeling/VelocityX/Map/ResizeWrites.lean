import Mathlib.Control.Monad.Basic
import VelocityX.Map.DuringResizeInvariant

/-!
# Writes during a resize

`insert`, `remove` and `clear` do not look at the resize state, and the migration takes no
stripe lock.  A write is lost when it comes to a bucket of the old table after the bucket has
been migrated, and when it goes to the new table with the bucket index of the old one.
-/

namespace VelocityX.Map.DuringResize

open Transition

variable {ι K V : Type*} [DecidableEq ι] [DecidableEq K]

/-- One thread is about to resize the table `t` for its own insert. -/
def begin (t : Table K V) (cap size : Nat) (resizer : ι) (key : K) (value : V) : State ι K V :=
  ⟨.start t cap size, fun u => if u = resizer then .insert key value .resize else .ready none⟩

end VelocityX.Map.DuringResize
