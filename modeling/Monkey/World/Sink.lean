/-!
# Sinks

Where a program's output goes. A sink takes a piece of output as a whole, or it writes some of its
bytes and refuses the rest with a reason of its own. What it does with a piece can depend on all the
pieces that it was offered before.
-/

namespace Monkey

/-- What a sink makes of a piece of output that it does not take as a whole. -/
structure Refusal where
  /-- How many bytes it writes nevertheless. -/
  accepted : Nat
  /-- The reason given for refusing the rest. -/
  reason : String

/-- A sink and what has been written to it. -/
structure Sink where
  /-- What has been written. -/
  written : ByteArray
  /-- The pieces that the sink has been offered, the latest first. -/
  offered : List ByteArray
  /-- How the sink meets a further piece after the offered ones; nothing if it takes it. -/
  judge : List ByteArray → ByteArray → Option Refusal

namespace Sink

/-- An empty sink that takes everything. -/
def unlimited : Sink := ⟨.empty, [], fun _ _ => none⟩

/-- An empty sink with room for the given number of bytes. It takes as much of a piece as it still has
room for. -/
def limited (room : Nat) (reason : String) : Sink where
  written := .empty
  offered := []
  judge offered bytes :=
    let left := room - offered.foldl (fun total piece => total + piece.size) 0
    if bytes.size ≤ left then none else some ⟨left, reason⟩

/-- How the sink meets a further piece. -/
def refusal? (s : Sink) (bytes : ByteArray) : Option Refusal := s.judge s.offered bytes

/-- The bytes of a further piece that are written. -/
def taken (s : Sink) (bytes : ByteArray) : ByteArray :=
  match s.refusal? bytes with
  | none => bytes
  | some refusal => bytes.extract 0 refusal.accepted

/-- The sink after it is offered a further piece. -/
def write (s : Sink) (bytes : ByteArray) : Sink :=
  { s with written := s.written ++ s.taken bytes, offered := bytes :: s.offered }

end Sink

end Monkey
