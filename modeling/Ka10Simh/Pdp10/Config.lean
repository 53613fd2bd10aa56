import Mathlib.Tactic

/-!
The processors built from `kx10_cpu.c` and their options.

The source is compiled once for each processor and asks at run time for the rest; here one model
takes a `Config` in the place of both.
-/

namespace Ka10Simh.Pdp10

/-- The processors `kx10_cpu.c` is built for. -/
inductive Build
  | pdp6 | ka | ki | kl | ks
  deriving DecidableEq, Repr

/-- What a simulator is configured with: its build, `UNIT_MPX` of the CPU unit, the unit's choice
of an operating system's pager, `QITS`, `QBBN` and `QWAITS`, and of the extended KL10, `QKLB`. -/
structure Config where
  build : Build
  unitMpx : Bool := false
  its : Bool := false
  bbn : Bool := false
  waits : Bool := false
  klb : Bool := false

/-- `#if KI | KL | KS`. -/
def Config.kiOrLater (c : Config) : Bool := c.build == .ki || c.build == .kl || c.build == .ks

end Ka10Simh.Pdp10
