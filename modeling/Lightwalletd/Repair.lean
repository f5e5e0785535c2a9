/-
The signal from the read path to the ingestor, `src/repair.rs`: one shared slot with
the lowest height reported as inconsistent.
-/
import Lightwalletd.Lib.Bytes

namespace Lightwalletd

/-- Sentinel for "nothing reported". -/
def nothing : Nat := u64Max

/-- A shared slot holding the lowest height reported as inconsistent. -/
structure RepairSignal where
  lowest : Nat
  deriving Repr, DecidableEq

namespace RepairSignal

def new : RepairSignal := ⟨nothing⟩

/-- Report `height` as suspect.  The lowest report wins. -/
def report (signal : RepairSignal) (height : Nat) : RepairSignal := ⟨min signal.lowest height⟩

/-- Take the reported height, clearing the slot, or `none` if nothing was reported. -/
def take (signal : RepairSignal) : Option Nat × RepairSignal :=
  (if signal.lowest = nothing then none else some signal.lowest, new)

end RepairSignal

end Lightwalletd
