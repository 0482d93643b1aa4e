import ChipEight.Machine.State

/-!
# Program images

A program image is a list of bytes that is copied to where programs start. It may also be read
from a source that hands it out in pieces, pauses and perhaps fails. The whole source is read
before anything is copied, so a source that fails leaves the machine alone, and how it is cut into
pieces does not show.
-/

namespace ChipEight

/-- One thing that happens while a source is read. -/
inductive Reading where
  /-- some bytes arrive -/
  | bytes (piece : List UInt8)
  /-- nothing arrives, and the source is asked again -/
  | interrupted
  /-- the source fails for a reason it gives -/
  | failed (reason : String)
deriving DecidableEq

namespace Image

/-- The bytes of a source up to its end, or the fault of a source that fails before. -/
def ofReadings : List Reading → Except Fault (List UInt8)
  | [] => .ok []
  | .bytes piece :: rest =>
    match ofReadings rest with
    | .ok bytes => .ok (piece ++ bytes)
    | .error cause => .error cause
  | .interrupted :: rest => ofReadings rest
  | .failed reason :: _ => .error (.imageUnreadable reason)

/-- Copies an image to where programs start, unless it is too large. -/
def load (image : List UInt8) (m : Machine) : Except Fault Machine :=
  if image.length ≤ programCapacity then
    .ok { m with memory := m.memory.overwrite programStart image }
  else
    .error (.imageTooLarge image.length programCapacity)

end Image

end ChipEight
