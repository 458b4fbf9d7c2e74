import CallWeaver.Iax.TrunkTimestamps

/-! # The entries of a trunk packet

The receiver of a trunk takes the frames out of a packet in the order of the queue, in both
layouts. It reads a packet into a buffer of 4096 bytes, and what is behind it is lost.
-/

namespace CallWeaver.Iax.Trunk

open List Function

variable {timestamps memory : Bool} {tpeer tpeer' : TrunkPeer} {frs : List Voice} {a : Arrival}
  {calls : ℕ → Option RxCall}

end CallWeaver.Iax.Trunk
