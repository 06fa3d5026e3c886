import Mathlib.Data.List.Basic
import Mathlib.Tactic.SplitIfs
import CipherMonitor.Lwe.Format
import CipherMonitor.Proofs.Action
import CipherMonitor.Proofs.Bytes.Decoder

/-!
# The binary format of LWE ciphertexts is canonical

A ciphertext is read from its own bytes and from no others, and a reader that refuses leaves its
register as it was.

* `Lwe.run_decode_toBytes` — a ciphertext of at least its body and at most `maxWords` words is read
  back from its bytes.
* `Lwe.run_decode_eq_ok_iff` — what a ciphertext is read from are its own bytes.
* `Lwe.perform_receive` — the reader that goes word by word is the decoder.
* `Lwe.perform_receive_otherWidth` — words of another width are refused.
* `Lwe.receive_canonical` — all of this for the reader.
-/

namespace CipherMonitor.Lwe

variable {w : ℕ} {c : Lwe w}

/-- The bits of a word fit into its bytes. -/
theorem toNat_lt_bytes (hw : 8 ∣ w) (x : BitVec w) : x.toNat < 256 ^ (w / 8) := by
  obtain ⟨k, rfl⟩ := hw
  have hx := x.isLt
  rwa [Nat.mul_div_cancel_left _ (by decide), show 256 = 2 ^ 8 from rfl, ← Nat.pow_mul]

/-- A number of as many bytes as a word fits into a word. -/
theorem bytes_lt_two_pow (hw : 8 ∣ w) {n : ℕ} (hn : n < 256 ^ (w / 8)) : n < 2 ^ w := by
  obtain ⟨k, rfl⟩ := hw
  rwa [Nat.mul_div_cancel_left _ (by decide), show 256 = 2 ^ 8 from rfl, ← Nat.pow_mul] at hn

theorem length_toBytes (c : Lwe w) : c.toBytes.length = 12 + c.words.size * (w / 8) := by
  have hwords : ∀ l : List (BitVec w),
      (l.flatMap fun x => Bytes.ofNat (w / 8) x.toNat).length = l.length * (w / 8) := by
    intro l
    induction l with
    | nil => simp
    | cons x l ih =>
      rw [List.flatMap_cons, List.length_append, ih, Bytes.length_ofNat, List.length_cons,
        Nat.succ_mul, Nat.add_comm]
  rw [toBytes, List.length_append, List.length_append, hwords, Bytes.length_ofNat,
    Bytes.length_ofNat, Array.length_toList]

/-- A ciphertext is read back from its bytes, and what follows them is left. -/
theorem run_decode_toBytes (hw : 8 ∣ w) (hlt : w < 2 ^ 32) (hpos : 0 < c.words.size)
    (hle : c.words.size ≤ maxWords) (rest : List UInt8) :
    (decode w).run (c.toBytes ++ rest) = .ok (c, rest) := by
  have hwidth : w < 256 ^ 4 := hlt
  have hcount : c.words.size < 256 ^ 8 := Nat.lt_of_le_of_lt hle (by decide)
  have hfield : ∀ n ∈ c.words.toList.map BitVec.toNat, ∀ rest,
      (Decoder.field (w / 8)).run (Bytes.ofNat (w / 8) n ++ rest) = .ok (n, rest) := by
    intro n hn rest
    obtain ⟨x, -, rfl⟩ := List.mem_map.1 hn
    exact Decoder.field_ofNat (toNat_lt_bytes hw x) rest
  have hwords := Decoder.run_many_flatMap hfield rest
  rw [List.length_map, Array.length_toList, List.flatMap_map] at hwords
  unfold decode toBytes
  simp only [List.append_assoc]
  rw [Decoder.run_bind_of_ok (Decoder.field_ofNat hwidth _), if_neg (by simp),
    Decoder.run_bind_of_ok (Decoder.field_ofNat hcount _), if_neg (by omega),
    Decoder.run_bind_of_ok hwords]
  simp [Function.comp_def]
  rfl

/-- A decoder reads the width and checks it, then the number of words and checks it, then the
words. -/
theorem run_decode (w : ℕ) (bytes : List UInt8) :
    (decode w).run bytes =
      match (Decoder.field 4).run bytes with
      | .error e => .error e
      | .ok (width, bytes) =>
        if width ≠ w then .error (.invalidData (.torusWidth width w))
        else match (Decoder.field 8).run bytes with
          | .error e => .error e
          | .ok (count, bytes) =>
            if count = 0 ∨ maxWords < count then .error (.invalidData (.lweLength count))
            else match ((Decoder.field (w / 8)).many count).run bytes with
              | .error e => .error e
              | .ok (words, bytes) => .ok (⟨(words.map (BitVec.ofNat w)).toArray⟩, bytes) := by
  unfold decode
  rw [Decoder.run_bind]
  rcases (Decoder.field 4).run bytes with e | ⟨width, bytes⟩
  · rfl
  by_cases hwidth : width ≠ w
  · simp only [if_pos hwidth]
    rfl
  simp only [if_neg hwidth]
  rw [Decoder.run_bind]
  rcases (Decoder.field 8).run bytes with e | ⟨count, bytes⟩
  · rfl
  by_cases hcount : count = 0 ∨ maxWords < count
  · simp only [if_pos hcount]
    rfl
  simp only [if_neg hcount]
  rw [Decoder.run_bind]
  rcases ((Decoder.field (w / 8)).many count).run bytes with e | ⟨words, bytes⟩ <;> rfl

/-- What a ciphertext is read from are its own bytes. -/
theorem run_decode_eq_ok_iff (hw : 8 ∣ w) (hlt : w < 2 ^ 32) {bytes rest : List UInt8} :
    (decode w).run bytes = .ok (c, rest) ↔
      0 < c.words.size ∧ c.words.size ≤ maxWords ∧ bytes = c.toBytes ++ rest := by
  constructor
  · intro h
    unfold decode at h
    obtain ⟨width, front, hwidth, hcheck⟩ := Decoder.run_bind_eq_ok_iff.1 h
    split_ifs at hcheck with hne
    · cases hcheck
    obtain rfl := not_not.1 hne
    obtain ⟨count, mid, hcount, hcheck⟩ := Decoder.run_bind_eq_ok_iff.1 hcheck
    split_ifs at hcheck with hrange
    · cases hcheck
    obtain ⟨words, last, hwords, hresult⟩ := Decoder.run_bind_eq_ok_iff.1 hcheck
    obtain ⟨rfl, rfl⟩ := Decoder.run_pure_eq_ok_iff.1 hresult
    obtain ⟨-, rfl⟩ := Decoder.run_field_eq_ok_iff.1 hwidth
    obtain ⟨-, rfl⟩ := Decoder.run_field_eq_ok_iff.1 hcount
    obtain ⟨rfl, hfit, rfl⟩ := Decoder.run_many_field_eq_ok_iff.1 hwords
    have hword : ∀ n ∈ words, Bytes.ofNat (width / 8) (BitVec.ofNat width n).toNat =
        Bytes.ofNat (width / 8) n := by
      intro n hn
      rw [BitVec.toNat_ofNat, Nat.mod_eq_of_lt (bytes_lt_two_pow hw (hfit n hn))]
    have hbytes : (words.map (BitVec.ofNat width)).flatMap (fun x => Bytes.ofNat (width / 8) x.toNat) =
        words.flatMap (Bytes.ofNat (width / 8)) := by
      rw [List.flatMap_map]
      exact List.flatMap_congr hword
    refine ⟨by simp; omega, by simp; omega, ?_⟩
    rw [toBytes, hbytes]
    simp [List.append_assoc]
  · rintro ⟨hpos, hle, rfl⟩
    exact run_decode_toBytes hw hlt hpos hle rest

/-! ### Reading into a register -/

/-- Reading word by word gives the words of the decoder. -/
theorem run_readWords (count : ℕ) (words : Array (BitVec w)) (bytes : List UInt8) :
    (readWords w count words).run bytes =
      (((Decoder.field (w / 8)).many count).run bytes).map
        fun (l, rest) => (words ++ (l.map (BitVec.ofNat w)).toArray, rest) := by
  induction count generalizing words bytes with
  | zero =>
    rw [readWords, Decoder.many, StateT.run_pure, StateT.run_pure]
    simp [pure, Except.pure, Except.map]
  | succ count ih =>
    rw [readWords, Decoder.many, Decoder.run_bind, Decoder.run_bind]
    rcases (Decoder.field (w / 8)).run bytes with e | ⟨x, bytes⟩
    · rfl
    dsimp only
    rw [ih, Decoder.run_bind]
    rcases ((Decoder.field (w / 8)).many count).run bytes with e | ⟨l, bytes⟩
    · rfl
    · show Except.ok (words.push (BitVec.ofNat w x) ++ (l.map (BitVec.ofNat w)).toArray, bytes) =
        Except.ok (words ++ ((x :: l).map (BitVec.ofNat w)).toArray, bytes)
      simp

/-- The reader succeeds where the decoder does and stores what the decoder gives; where the decoder
fails it stores nothing. -/
theorem perform_receive (bytes : List UInt8) (register : Lwe w) :
    (receive bytes).perform register =
      match (decode w).run bytes with
      | .error e => (.error (.bytes e), register)
      | .ok (c, rest) => (.ok rest, c) := by
  unfold receive
  rw [run_decode, Action.perform_bind, Action.perform_ofOutcome]
  rcases (Decoder.field 4).run bytes with e | ⟨width, bytes⟩
  · rfl
  dsimp only [Except.mapError]
  by_cases hwidth : width ≠ w
  · simp only [if_pos hwidth]
    rfl
  simp only [if_neg hwidth]
  rw [Action.perform_bind, Action.perform_ofOutcome]
  rcases (Decoder.field 8).run bytes with e | ⟨count, bytes⟩
  · rfl
  dsimp only [Except.mapError]
  by_cases hcount : count = 0 ∨ maxWords < count
  · simp only [if_pos hcount]
    rfl
  simp only [if_neg hcount]
  rw [Action.perform_bind, Action.perform_ofOutcome, run_readWords]
  rcases ((Decoder.field (w / 8)).many count).run bytes with e | ⟨words, bytes⟩
  · rfl
  · simp only [Except.map, Array.empty_append]
    rfl

/-- Words of another width are refused for their width. -/
theorem perform_receive_otherWidth {v : ℕ} (hv : v < 2 ^ 32) (hne : v ≠ w) (d : Lwe v)
    (rest : List UInt8) (register : Lwe w) :
    (receive (d.toBytes ++ rest)).perform register =
      (.error (.bytes (.invalidData (.torusWidth v w))), register) := by
  have hwidth : v < 256 ^ 4 := hv
  rw [perform_receive, run_decode, toBytes]
  simp only [List.append_assoc]
  rw [Decoder.field_ofNat hwidth]
  simp only [if_pos hne]

/-- A ciphertext of at least its body and at most `2 ^ 17 + 1` words is read back exactly, with the
bytes after it left.  What is read took `12` bytes and those of its words, which are the bytes that it
is written with; and what is refused leaves the register as it was.  No precondition is ever broken.
What was written with words of the other width is refused. -/
theorem receive_canonical (hw : w = 32 ∨ w = 64) :
    (∀ c : Lwe w, 1 ≤ c.words.size → c.words.size ≤ 2 ^ 17 + 1 →
      ∀ (rest : List UInt8) (register : Lwe w),
        (receive (c.toBytes ++ rest)).perform register = (.ok rest, c)) ∧
    (∀ (bytes : List UInt8) (register : Lwe w),
      (∃ c front rest, (receive bytes).perform register = (.ok rest, c) ∧ bytes = front ++ rest ∧
        front.length = 12 + c.words.size * (w / 8) ∧ c.toBytes = front) ∨
      ∃ e, (receive bytes).perform register = (.error (.bytes e), register)) ∧
    ∀ v : ℕ, v = 32 ∨ v = 64 → v ≠ w → ∀ (d : Lwe v) (rest : List UInt8) (register : Lwe w),
      (receive (d.toBytes ++ rest)).perform register =
        (.error (.bytes (.invalidData (.torusWidth v w))), register) := by
  have hdvd : 8 ∣ w := by omega
  have hlt : w < 2 ^ 32 := by omega
  refine ⟨fun c hpos hle rest register => ?_, fun bytes register => ?_, fun v hv hne => ?_⟩
  · rw [perform_receive, run_decode_toBytes hdvd hlt hpos hle]
  · rw [perform_receive]
    cases hrun : (decode w).run bytes with
    | error e => exact .inr ⟨e, rfl⟩
    | ok result =>
      obtain ⟨c, rest⟩ := result
      obtain ⟨-, -, hbytes⟩ := (run_decode_eq_ok_iff hdvd hlt).1 hrun
      exact .inl ⟨c, c.toBytes, rest, rfl, hbytes, length_toBytes c, rfl⟩
  · exact perform_receive_otherWidth (by omega) hne

/-- Two words are read into a register of one word; those of the other width leave it alone. -/
theorem receive_canonical_twoWords :
    (receive (toBytes (⟨#[7, 4294967295]⟩ : Lwe 32) ++ [1, 2])).perform (⟨#[5]⟩ : Lwe 32) =
      (.ok [1, 2], ⟨#[7, 4294967295]⟩) ∧
    (receive (toBytes (⟨#[9]⟩ : Lwe 64) ++ [3])).perform (⟨#[5]⟩ : Lwe 32) =
      (.error (.bytes (.invalidData (.torusWidth 64 32))), ⟨#[5]⟩) := by
  have h := receive_canonical (.inl rfl : (32 : ℕ) = 32 ∨ (32 : ℕ) = 64)
  exact ⟨h.1 _ (by decide) (by decide) _ _, h.2.2 64 (.inr rfl) (by decide) _ _ _⟩

end CipherMonitor.Lwe
