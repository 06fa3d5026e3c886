import CipherMonitor.Automaton.Basic

/-!
# Automata of per-sample properties

A property of one sample of `p` bits is asked of every sample, or of some sample.  Below state `0`
hangs the binary tree of the first `p - 1` bits of a sample, whose nodes are numbered row by row; one
more state is absorbing.

* `Automaton.globally` — every sample has the property: the absorbing state is a sink.
* `Automaton.eventually` — some sample has the property: the absorbing state accepts.
-/

namespace CipherMonitor.Automaton

/-- The largest number of bits of a sample. -/
def maxPropositions : Nat := 16

/-- The `p` low bits of a number, the most significant first. -/
def bitsOf (p word : Nat) : List Bool := (List.range p).map fun i => word.testBit (p - 1 - i)

/-- The successor of a tree node: its child, or after the last bit of a sample the absorbing state if
the sample settles the question, and the root if not. -/
def treeNext (p : Nat) (settles : List Bool → Bool) (node : Nat) (bit : Bool) : Nat :=
  let absorbing := 2 ^ p - 1
  let child := 2 * node + 1 + bit.toNat
  if child < absorbing then child
  else if settles (bitsOf p (child - absorbing)) then absorbing else 0

/-- The transitions of the tree and of the absorbing state after it. -/
def treeTransitions (p : Nat) (settles : List Bool → Bool) : Array (Nat × Nat) :=
  let absorbing := 2 ^ p - 1
  (Array.ofFn fun node : Fin absorbing =>
    (treeNext p settles node false, treeNext p settles node true)).push (absorbing, absorbing)

/-- The automaton of a tree, in which either the root or the absorbing state accepts. -/
def ofTree (p : Nat) (settles : List Bool → Bool) (rootAccepts : Bool) :
    Except AutomatonFlaw Automaton :=
  if p = 0 ∨ maxPropositions < p then .error (.predicateCount p)
  else make 0 [if rootAccepts then 0 else 2 ^ p - 1] (treeTransitions p settles)

/-- Every sample of `p` bits has the property. -/
def globally (p : Nat) (property : List Bool → Bool) : Except AutomatonFlaw Automaton :=
  ofTree p (fun sample => !property sample) true

/-- Some sample of `p` bits has the property. -/
def eventually (p : Nat) (property : List Bool → Bool) : Except AutomatonFlaw Automaton :=
  ofTree p property false

end CipherMonitor.Automaton
