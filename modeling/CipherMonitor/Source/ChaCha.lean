import CipherMonitor.Number

/-!
# The ChaCha keystream with eight rounds

* `ChaCha.quarterRound`, `ChaCha.doubleRound` — the mixing steps on the sixteen-word state.
* `ChaCha.block` — the keystream block of a key and a block counter.
-/

namespace CipherMonitor.ChaCha

/-- Sixteen words: four constants, eight key words, a two-word counter, two zero words. -/
abbrev State := Vector UInt32 16

/-- Rotation to the left by `r` bits, `0 < r < 32`. -/
def rotateLeft (x r : UInt32) : UInt32 := (x <<< r) ||| (x >>> (32 - r))

/-- One half of a quarter round on the words `a`, `b`, `d`: add, exclusive-or, rotate. -/
def mix (s : State) (a b d : Fin 16) (r : UInt32) : State :=
  let x := s[a] + s[b]
  let y := rotateLeft (s[d] ^^^ x) r
  (s.set a x).set d y

/-- Mixes the four words `a`, `b`, `c`, `d`. -/
def quarterRound (s : State) (a b c d : Fin 16) : State :=
  let s := mix s a b d 16
  let s := mix s c d b 12
  let s := mix s a b d 8
  mix s c d b 7

/-- Quarter rounds on the four columns, then on the four diagonals. -/
def doubleRound (s : State) : State :=
  let s := quarterRound s 0 4 8 12
  let s := quarterRound s 1 5 9 13
  let s := quarterRound s 2 6 10 14
  let s := quarterRound s 3 7 11 15
  let s := quarterRound s 0 5 10 15
  let s := quarterRound s 1 6 11 12
  let s := quarterRound s 2 7 8 13
  quarterRound s 3 4 9 14

/-- The state a block starts from; the constants spell “expand 32-byte k”. -/
def start (key : Vector UInt32 8) (counter : Nat) : State :=
  #v[0x61707865, 0x3320646e, 0x79622d32, 0x6b206574,
    key[0], key[1], key[2], key[3], key[4], key[5], key[6], key[7],
    UInt32.ofNat counter, UInt32.ofNat (counter / 2 ^ 32), 0, 0]

/-- Four double rounds, added to the state they started from. -/
def block (key : Vector UInt32 8) (counter : Nat) : State :=
  let s := start key counter
  let t := doubleRound (doubleRound (doubleRound (doubleRound s)))
  Vector.zipWith (· + ·) t s

end CipherMonitor.ChaCha
