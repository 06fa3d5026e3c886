import CipherMonitor.Fault
import CipherMonitor.Source.ChaCha

/-!
# Sources of randomness

A source is an endless sequence of 32-bit words with a position in it.  All sampling consumes
words from the front, so that what is drawn is a function of the sequence alone.

* `Source` — the sequence in blocks of sixteen words, and the position of the next word.
* `Source.ofSeed`, `Source.ofWords` — the keystream of a seed, and an arbitrary sequence.
* `Draw` — computations that consume a source.
* `drawUntil` — rejection sampling.
-/

namespace CipherMonitor

/-- An endless sequence of words, served block by block.  The block that holds the next word is
kept at hand. -/
structure Source where
  block : Nat → Vector UInt32 16
  position : Nat
  current : Vector UInt32 16
  current_eq : current = block (position / 16)

namespace Source

/-- Word `i` of the sequence, counted from its beginning. -/
def word (s : Source) (i : Nat) : UInt32 :=
  (s.block (i / 16)).get ⟨i % 16, Nat.mod_lt i (by decide)⟩

/-- The next word. -/
def head (s : Source) : UInt32 := s.current.get ⟨s.position % 16, Nat.mod_lt _ (by decide)⟩

/-- The source after its next word. -/
def tail (s : Source) : Source :=
  if h : (s.position + 1) % 16 = 0 then
    { block := s.block, position := s.position + 1, current := s.block ((s.position + 1) / 16),
      current_eq := rfl }
  else
    { block := s.block, position := s.position + 1, current := s.current,
      current_eq := by rw [s.current_eq]; congr 1; omega }

@[simp] theorem block_tail (s : Source) : s.tail.block = s.block := by
  unfold tail; split <;> rfl

@[simp] theorem position_tail (s : Source) : s.tail.position = s.position + 1 := by
  unfold tail; split <;> rfl

/-- The next word is the one at the position of the source. -/
theorem head_eq_word (s : Source) : s.head = s.word s.position := by
  simp only [head, word, s.current_eq]

@[simp] theorem word_tail (s : Source) (i : Nat) : s.tail.word i = s.word i := by
  simp [word]

/-- The source that serves the given blocks. -/
def ofBlocks (block : Nat → Vector UInt32 16) : Source :=
  { block, position := 0, current := block 0, current_eq := rfl }

/-- The source that serves the given words. -/
def ofWords (words : Nat → UInt32) : Source :=
  ofBlocks fun k => Vector.ofFn fun i => words (16 * k + i)

/-- Word `i` of a seed, low byte first. -/
def seedWord (seed : Vector UInt8 32) (i : Fin 8) : UInt32 :=
  seed[4 * i.val].toUInt32 ||| (seed[4 * i.val + 1].toUInt32 <<< 8) |||
    (seed[4 * i.val + 2].toUInt32 <<< 16) ||| (seed[4 * i.val + 3].toUInt32 <<< 24)

/-- The keystream whose key is the seed. -/
def ofSeed (seed : Vector UInt8 32) : Source :=
  ofBlocks (ChaCha.block (Vector.ofFn (seedWord seed)))

end Source

/-- A computation that consumes a source. -/
abbrev Draw (α : Type) := StateT Source (Except Fault) α

/-- Repeats a draw until its result is accepted, at most `limit` times. -/
def drawUntil {α : Type} (draw : Draw α) (accept : α → Bool) : (limit : Nat) → Draw α
  | 0 => throw (.breach .rejection)
  | limit + 1 => do
    let x ← draw
    if accept x then pure x else drawUntil draw accept limit

/-- How often the samplers of the library try before they give up: more often than anybody can wait
for. -/
def patience : Nat := 2 ^ 62

namespace Draw

/-- One word. -/
def word32 : Draw UInt32 := fun s => .ok (s.head, s.tail)

/-- Two words, the low half first. -/
def word64 : Draw UInt64 := do
  let low ← word32
  let high ← word32
  pure (low.toUInt64 ||| (high.toUInt64 <<< 32))

/-- The four bytes of a word, low byte first. -/
def wordBytes (x : UInt32) : List UInt8 :=
  [x.toUInt8, (x >>> 8).toUInt8, (x >>> 16).toUInt8, (x >>> 24).toUInt8]

/-- `n` bytes; what is left of the last word is dropped. -/
def bytes (n : Nat) : Draw (List UInt8) := do
  let words ← (List.range ((n + 3) / 4)).mapM fun _ => word32
  pure ((words.flatMap wordBytes).take n)

/-- The top bit of a double word. -/
def flag : Draw Bool := do
  let x ← word64
  pure (x >>> 63 == 1)

/-- A double word under the mask, drawn again until it is below `max`. -/
def below (max mask : UInt64) (limit : Nat := patience) : Draw UInt64 :=
  drawUntil (do let x ← word64; pure (x &&& mask)) (· < max) limit

/-- A number from `min` to `max`, from the low 53 bits of a double word. -/
def float (min max : Float) : Draw Float := do
  let x ← word64
  pure (min + (x % 9007199254740992).toFloat / 9007199254740992.0 * (max - min))

/-- A seed. -/
def seed : Draw (Vector UInt8 32) := do
  let drawn ← bytes 32
  pure (Vector.ofFn fun i => drawn.getD i 0)

/-- A source of its own, seeded from this one. -/
def branch : Draw Source := do
  let fresh ← seed
  pure (Source.ofSeed fresh)

/-- A uniform word of `w` bits, from one word of the source or from two. -/
def torus (w : Nat) : Draw (BitVec w) :=
  if w ≤ 32 then do
    let x ← word32
    pure (x.toBitVec.setWidth w)
  else do
    let x ← word64
    pure (x.toBitVec.setWidth w)

/-- `n` results of the same draw. -/
def many {α : Type} (n : Nat) (draw : Draw α) : Draw (List α) :=
  (List.range n).mapM fun _ => draw

end Draw

end CipherMonitor
