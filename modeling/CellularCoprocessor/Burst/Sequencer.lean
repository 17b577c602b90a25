import CellularCoprocessor.Burst.Descriptor
import CellularCoprocessor.Memory.Handshake

/-!
# Burst sequencing

Each word of a burst takes two phases on the memory bus: a request is issued, and then its answer
is committed. One activation performs at most one phase. The answer is looked at only while a
request is pending.
-/

namespace CellularCoprocessor.Burst

inductive Activation where
  /-- A request for the next word is to be presented until it is answered. -/
  | issued (request : Request)
  | waiting
  /-- The next word was moved; `last` tells whether it was the last one. -/
  | committed (last : Bool)
  /-- There is nothing to move. -/
  | done
  deriving DecidableEq

def request (b : Burst) (s : Scratchpad) : Request :=
  match b.direction with
  | .load => .read b.address
  | .store => .write b.address (s.read b.index)

/-- What the scratchpad holds once the pending request is answered with `data`. -/
def receive (b : Burst) (s : Scratchpad) (data : UInt64) : Scratchpad :=
  match b.direction with
  | .load => s.write b.index data
  | .store => s

def advance (b : Burst) (s : Scratchpad) (r : Response) : Activation × Burst × Scratchpad :=
  if b.pending then
    if r.ready then
      let moved := { b with index := b.index + 1, pending := false }
      (.committed moved.isExhausted, moved, b.receive s r.data)
    else (.waiting, b, s)
  else if b.isExhausted then (.done, b, s)
  else (.issued (b.request s), { b with pending := true }, s)

end CellularCoprocessor.Burst
