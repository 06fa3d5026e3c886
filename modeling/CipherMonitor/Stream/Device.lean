import CipherMonitor.Action

/-!
# Byte devices

* `ByteInput`, `ByteInput.take` — what the reads of an input will give, and reading of a number of
  bytes over as many reads as it takes.
* `ByteOutput`, `ByteOutput.put` — bytes written so far, with room for more or without a bound.
-/

namespace CipherMonitor

/-- What one read of an input device gives, cut short by the reader if it wants less. -/
inductive Delivery
  /-- Some bytes.  If there are none of them, the reader takes this for the end of the input, though
  later reads may give more. -/
  | bytes (bytes : List UInt8)
  /-- The read was interrupted and is to be repeated. -/
  | interrupted
  /-- The read failed, with the kind and the wording of the device. -/
  | failed (kind text : String)
  deriving DecidableEq

/-- The reads to come; after the last one the input has ended. -/
abbrev ByteInput := List Delivery

namespace ByteInput

/-- The next `n` bytes, fewer only at the end of the input or in front of a read that gives nothing, and
the reads to come after them. -/
def takeFrom : (n : Nat) → ByteInput → Except ByteError (List UInt8) × ByteInput
  | 0, input => (.ok [], input)
  | _ + 1, [] => (.ok [], [])
  | n + 1, .interrupted :: rest => takeFrom (n + 1) rest
  | _ + 1, .failed kind text :: rest => (.error (.device kind text), rest)
  | n + 1, .bytes bytes :: rest =>
    if bytes = [] then (.ok [], rest)
    else if n + 1 < bytes.length then
      (.ok (bytes.take (n + 1)), .bytes (bytes.drop (n + 1)) :: rest)
    else
      let (more, rest) := takeFrom (n + 1 - bytes.length) rest
      (more.map (bytes ++ ·), rest)

/-- Takes the next `n` bytes off the input; a failure of the device loses those before it. -/
def take (n : Nat) : Action ByteInput (List UInt8) := fun input =>
  let (result, rest) := takeFrom n input
  (result.mapError fun e => .stream (.bytes e), rest)

/-- The bytes to come, up to the first read that fails or gives nothing. -/
def remaining : ByteInput → List UInt8
  | [] => []
  | .bytes bytes :: rest => if bytes = [] then [] else bytes ++ remaining rest
  | .interrupted :: rest => remaining rest
  | .failed .. :: _ => []

/-- The number of bytes to come. -/
def size : ByteInput → Nat
  | [] => 0
  | .bytes bytes :: rest => bytes.length + size rest
  | _ :: rest => size rest

end ByteInput

/-- The bytes written, and a bound on their number if there is one. -/
structure ByteOutput where
  written : List UInt8 := []
  capacity : Option Nat := none
  deriving DecidableEq

namespace ByteOutput

/-- The number of bytes that still fit. -/
def room? (o : ByteOutput) : Option Nat := o.capacity.map (· - o.written.length)

/-- Appends bytes; those that fit are written even if not all do. -/
def put (bytes : List UInt8) : Action ByteOutput Unit := do
  let o ← get
  match o.room? with
  | none => set { o with written := o.written ++ bytes }
  | some room =>
    set { o with written := o.written ++ bytes.take room }
    if room < bytes.length then throw (.stream (.bytes .full))

end ByteOutput

end CipherMonitor
