import ChipEight.Main
import ChipEight.Picture.Window
import ChipEight.Proofs.Bounds
import ChipEight.Proofs.CallStack
import ChipEight.Proofs.Halting
import ChipEight.Sound.Buzzer
import ChipEight.Proofs.FaultLatch
import ChipEight.Proofs.KeyWait
import ChipEight.Proofs.Flips
import ChipEight.Proofs.Parity
import ChipEight.Proofs.CallLimit
import ChipEight.Proofs.Footprint
import ChipEight.Proofs.Dependence
import ChipEight.Proofs.Hush
import ChipEight.Proofs.BatchSize
import ChipEight.Proofs.Timers
import ChipEight.Proofs.Buzzing
import ChipEight.Proofs.Carry
import ChipEight.Proofs.Draws
import ChipEight.Proofs.Collision
import ChipEight.Proofs.Redrawing
import ChipEight.Proofs.Access
import ChipEight.Proofs.Showing
import ChipEight.Proofs.FlagOperands
import ChipEight.Proofs.Pacing
import ChipEight.Proofs.Patience
import ChipEight.Proofs.Loading
import ChipEight.Proofs.RoundTrip
import ChipEight.Proofs.Keys
import ChipEight.Proofs.Episodes
import ChipEight.Proofs.Toggling
import ChipEight.Proofs.Sampling
import ChipEight.Proofs.Checked
import ChipEight.Proofs.Unfailing
