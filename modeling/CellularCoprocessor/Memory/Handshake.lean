/-!
# The memory handshake

The coprocessor presents at most one request and holds it until it is answered. A response with
`ready` set answers the request being presented; its data matters for a read only.
-/

namespace CellularCoprocessor

inductive Access where
  | read
  | write (data : UInt64)
  deriving DecidableEq

structure Request where
  address : UInt32
  access : Access
  deriving DecidableEq

namespace Request

def read (address : UInt32) : Request := ⟨address, .read⟩

def write (address : UInt32) (data : UInt64) : Request := ⟨address, .write data⟩

def isWrite (r : Request) : Bool :=
  match r.access with
  | .read => false
  | .write _ => true

end Request

structure Response where
  ready : Bool
  data : UInt64
  deriving DecidableEq

namespace Response

def idle : Response := ⟨false, 0⟩

def answer (data : UInt64) : Response := ⟨true, data⟩

end Response

end CellularCoprocessor
