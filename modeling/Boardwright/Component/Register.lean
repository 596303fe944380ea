import Boardwright.Component.Designator
import Boardwright.Session

/-!
# The register of designators

A session keeps a register of designators: those of the components below one root. When
the designator of a component is asked for that is not in it, the designators of the root
that the component stands below are found, and the register holds them and no others from
then on.
-/

namespace Boardwright

namespace Session

/-- The register is made to hold the designators of the root of a component, unless it
has that of the component already. -/
def registerRoot (a : Address) : Work Session Unit := do
  if !(← get).register.contains a then
    let ds ← design (Component.designators a.entry)
    modify fun s => { s with register := ds }

def designator (a : Address) : Work Session String := do
  registerRoot a
  match (← get).register.get? a with
  | some d => return d
  | none => throw (.fault .missingKey)

end Session

end Boardwright
