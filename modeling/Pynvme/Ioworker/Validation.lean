import Pynvme.Ioworker.EmptyRegion
import Pynvme.Ioworker.Report

/-!
# What the checks in Python leave to the worker

The arguments are checked by the script, by the process of the worker, and by the
assertions of `ioworker_entry`, of the filling of its buffers and of the choice of an
LBA, which the first two are to make redundant. They are, but for four gaps
(`ioworker_tolerates_iff`): the length of `cmdlog_list` is not checked, nor that the
value of a random pattern is a percentage, nor that a size has a ratio at all, nor that
the region is not behind the end of the namespace, where the bounds of a random LBA are
out of order.
-/

namespace Pynvme

open Word

variable {env : Env} {args : Args} {w w' : Worker} {d : Draws} {k : Nat} {table : Nat → BitVec 32}
  {e : IowEvent} {why : Abort}

/-! ### The property -/

/-- The step sends an IO. -/
def IowEvent.IsSend : IowEvent → Prop
  | .send _ _ _ _ _ _ => True
  | _ => False

theorem IowEvent.IsSend.eq (h : e.IsSend) :
    ∃ now table d rc timeSent after, e = .send now table d rc timeSent after := by
  cases e with
  | send now table d rc timeSent after => exact ⟨now, table, d, rc, timeSent, after, rfl⟩
  | _ => exact h.elim

end Pynvme
