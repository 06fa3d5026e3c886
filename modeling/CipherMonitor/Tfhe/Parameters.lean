import CipherMonitor.Gadget

/-!
# Parameters of the boolean scheme

* `GadgetParameters` — a base and a number of digits, not yet checked.
* `Tfhe.Parameters` — dimensions, noise and gadgets of the keys.
-/

namespace CipherMonitor

/-- What a gadget is made of. -/
structure GadgetParameters where
  base2k : Nat
  rows : Nat
  deriving DecidableEq, Repr

/-- The gadget, if there is one. -/
def GadgetParameters.gadget (p : GadgetParameters) : Outcome Gadget := Gadget.make p.base2k p.rows

namespace Tfhe

/-- Ciphertexts descend from coarse ones, under the secret of the approximate scheme, to mid ones
of ring degree `midDegree` and to fine ones of dimension `fineDimension`.  The noise is given as a
fraction of the torus. -/
structure Parameters where
  midDegree : Nat
  midSigma : Float
  fineDimension : Nat
  fineSigma : Float
  blindRotation : GadgetParameters
  circuitBootstrapping : GadgetParameters
  coarseToMid : GadgetParameters
  midToFine : GadgetParameters
  privateSwitch : GadgetParameters
  deriving DecidableEq

namespace Parameters

/-- The parameters of a deployment. -/
def standard : Parameters :=
  { midDegree := 1024
    midSigma := Float.scaleB 1.0 (-25)
    fineDimension := 635
    fineSigma := Float.scaleB 1.0 (-15)
    blindRotation := ⟨4, 5⟩
    circuitBootstrapping := ⟨3, 5⟩
    coarseToMid := ⟨2, 8⟩
    midToFine := ⟨2, 7⟩
    privateSwitch := ⟨4, 6⟩ }

/-- Small dimensions, without security. -/
def small : Parameters :=
  { standard with
    midDegree := 512
    midSigma := Float.scaleB 1.0 (-28)
    fineDimension := 32
    fineSigma := Float.scaleB 1.0 (-20)
    coarseToMid := ⟨2, 7⟩ }

end Parameters

end Tfhe

end CipherMonitor
