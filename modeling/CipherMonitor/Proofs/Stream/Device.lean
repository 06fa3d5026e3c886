import Mathlib.Data.Nat.Notation
import Mathlib.Logic.Basic
import CipherMonitor.Proofs.Action
import CipherMonitor.Stream.Device

/-!
# What an input gives

* `ByteInput.Delivers`, `ByteInput.delivers_iff` — an input gives some bytes and then ends, however
  these are cut into reads.
* `ByteInput.perform_take_of_delivers` — the bytes alone decide what is taken.
* `ByteInput.beyond`, `ByteInput.perform_take_append` — bytes that come before a read without bytes are
  taken whatever comes after them.
* `ByteInput.size_perform_take_le` — bytes that were taken do not come again, whatever the device
  does.
* `ByteOutput.perform_put` — an output without bound takes all bytes.
-/

namespace CipherMonitor

namespace ByteInput

/-- The input gives these bytes and then ends, in reads of any positive length and with any
interruptions. -/
inductive Delivers : ByteInput → List UInt8 → Prop
  | ended : Delivers [] []
  | bytes {rest : ByteInput} {piece more : List UInt8} (hpiece : piece ≠ [])
      (h : Delivers rest more) : Delivers (.bytes piece :: rest) (piece ++ more)
  | interrupted {rest : ByteInput} {more : List UInt8} (h : Delivers rest more) :
      Delivers (.interrupted :: rest) more

variable {input : ByteInput} {bytes : List UInt8}

theorem remaining_bytes {piece : List UInt8} (h : piece ≠ []) (rest : ByteInput) :
    remaining (.bytes piece :: rest) = piece ++ remaining rest := by
  rw [remaining, if_neg h]

/-- What is left of the input from the first read on that fails or gives nothing. -/
def beyond : ByteInput → ByteInput
  | [] => []
  | .bytes piece :: rest => if piece = [] then .bytes piece :: rest else beyond rest
  | .interrupted :: rest => beyond rest
  | .failed kind text :: rest => .failed kind text :: rest

theorem beyond_bytes {piece : List UInt8} (h : piece ≠ []) (rest : ByteInput) :
    beyond (.bytes piece :: rest) = beyond rest := by
  rw [beyond, if_neg h]

/-- The inputs that give some bytes are those that have these bytes to come and nothing beyond. -/
theorem delivers_iff : input.Delivers bytes ↔ input.remaining = bytes ∧ input.beyond = [] := by
  constructor
  · intro h
    induction h with
    | ended => exact ⟨rfl, rfl⟩
    | bytes hpiece _ ih => rw [remaining_bytes hpiece, beyond_bytes hpiece, ih.1]; exact ⟨rfl, ih.2⟩
    | interrupted _ ih => exact ih
  · rintro ⟨rfl, hbeyond⟩
    induction input with
    | nil => exact .ended
    | cons d rest ih =>
      cases d with
      | bytes piece =>
        rcases eq_or_ne piece [] with rfl | hpiece
        · cases hbeyond
        · rw [beyond_bytes hpiece] at hbeyond
          rw [remaining_bytes hpiece]
          exact .bytes hpiece (ih hbeyond)
      | interrupted => exact .interrupted (ih hbeyond)
      | failed kind text => cases hbeyond

/-- One read of all bytes. -/
theorem delivers_singleton (h : bytes ≠ []) : Delivers [.bytes bytes] bytes := by
  have hdelivers := Delivers.bytes h .ended
  rwa [List.append_nil] at hdelivers

/-- The bytes alone decide what is taken, and what comes after it. -/
theorem Delivers.takeFrom (h : input.Delivers bytes) (n : ℕ) :
    ∃ rest, ByteInput.takeFrom n input = (.ok (bytes.take n), rest) ∧
      rest.Delivers (bytes.drop n) := by
  induction h generalizing n with
  | ended =>
    refine ⟨[], ?_, ?_⟩
    · cases n <;> simp [ByteInput.takeFrom]
    · simpa using Delivers.ended
  | @bytes rest piece more hpiece h ih =>
    cases n with
    | zero => exact ⟨_, rfl, .bytes hpiece h⟩
    | succ n =>
      by_cases hn : n + 1 < piece.length
      · have hdrop : piece.drop (n + 1) ≠ [] := by
          rwa [ne_eq, List.drop_eq_nil_iff, Nat.not_le]
        refine ⟨.bytes (piece.drop (n + 1)) :: rest, ?_, ?_⟩
        · rw [ByteInput.takeFrom, if_neg hpiece, if_pos hn,
            List.take_append_of_le_length (Nat.le_of_lt hn)]
        · rw [List.drop_append_of_le_length (Nat.le_of_lt hn)]
          exact .bytes hdrop h
      · obtain ⟨rest', htake, hrest'⟩ := ih (n + 1 - piece.length)
        refine ⟨rest', ?_, ?_⟩
        · rw [ByteInput.takeFrom, if_neg hpiece, if_neg hn, htake, List.take_append,
            List.take_of_length_le (Nat.not_lt.1 hn)]
          rfl
        · rwa [List.drop_append, List.drop_of_length_le (Nat.not_lt.1 hn), List.nil_append]
  | @interrupted rest more h ih =>
    cases n with
    | zero => exact ⟨_, rfl, .interrupted h⟩
    | succ n =>
      obtain ⟨rest', htake, hrest'⟩ := ih (n + 1)
      exact ⟨rest', by rw [ByteInput.takeFrom, htake], hrest'⟩

theorem perform_take_of_delivers (h : input.Delivers bytes) (n : ℕ) :
    ∃ rest, (take n).perform input = (.ok (bytes.take n), rest) ∧
      rest.Delivers (bytes.drop n) := by
  obtain ⟨rest, htake, hrest⟩ := h.takeFrom n
  refine ⟨rest, ?_, hrest⟩
  show (take n) input = _
  simp only [take, htake]
  rfl

/-! ### Inputs that may fail later -/

/-- Bytes that come before a read without bytes are taken whatever comes after them. -/
theorem takeFrom_of_le {n : ℕ} (h : n ≤ input.remaining.length) :
    ∃ rest, takeFrom n input = (.ok (input.remaining.take n), rest) ∧
      rest.remaining = input.remaining.drop n ∧ rest.beyond = input.beyond := by
  induction input generalizing n with
  | nil =>
    obtain rfl := Nat.le_zero.1 h
    exact ⟨[], rfl, rfl, rfl⟩
  | cons d rest ih =>
    cases n with
    | zero => exact ⟨_, rfl, rfl, rfl⟩
    | succ n =>
      cases d with
      | failed kind text => exact absurd h (Nat.not_succ_le_zero n)
      | interrupted =>
        obtain ⟨rest', htake, hrest'⟩ := ih h
        exact ⟨rest', by rw [takeFrom, htake]; rfl, hrest'⟩
      | bytes piece =>
        rcases eq_or_ne piece [] with rfl | hpiece
        · exact absurd h (Nat.not_succ_le_zero n)
        rw [remaining_bytes hpiece] at h ⊢
        rw [List.length_append] at h
        rw [beyond_bytes hpiece]
        by_cases hn : n + 1 < piece.length
        · have hdrop : piece.drop (n + 1) ≠ [] := by
            rwa [ne_eq, List.drop_eq_nil_iff, Nat.not_le]
          refine ⟨.bytes (piece.drop (n + 1)) :: rest, ?_, ?_, beyond_bytes hdrop rest⟩
          · rw [takeFrom, if_neg hpiece, if_pos hn,
              List.take_append_of_le_length (Nat.le_of_lt hn)]
          · rw [remaining_bytes hdrop, List.drop_append_of_le_length (Nat.le_of_lt hn)]
        · obtain ⟨rest', htake, hrest', hbeyond⟩ := ih (n := n + 1 - piece.length) (by omega)
          refine ⟨rest', ?_, ?_, hbeyond⟩
          · rw [takeFrom, if_neg hpiece, if_neg hn, htake, List.take_append,
              List.take_of_length_le (Nat.not_lt.1 hn)]
            rfl
          · rw [hrest', List.drop_append, List.drop_of_length_le (Nat.not_lt.1 hn), List.nil_append]

theorem perform_take_append {more : List UInt8} (h : input.remaining = bytes ++ more) :
    ∃ rest, (take bytes.length).perform input = (.ok bytes, rest) ∧
      rest.remaining = more ∧ rest.beyond = input.beyond := by
  have hle : bytes.length ≤ input.remaining.length := by
    rw [h, List.length_append]
    exact Nat.le_add_right _ _
  obtain ⟨rest, htake, hrest, hbeyond⟩ := takeFrom_of_le hle
  rw [h, List.take_left' rfl] at htake
  rw [h, List.drop_left' rfl] at hrest
  refine ⟨rest, ?_, hrest, hbeyond⟩
  show (take bytes.length) input = _
  simp only [take, htake]
  rfl

/-! ### The bytes to come -/

/-- What is taken successfully is gone; a failure of the device may lose more. -/
theorem size_takeFrom_le (n : ℕ) (input : ByteInput) :
    (takeFrom n input).2.size ≤ input.size ∧
      ∀ bytes, (takeFrom n input).1 = .ok bytes →
        bytes.length ≤ n ∧ bytes.length + (takeFrom n input).2.size ≤ input.size := by
  induction input generalizing n with
  | nil => cases n <;> simp [takeFrom]
  | cons d rest ih =>
    cases n with
    | zero => simp [takeFrom]
    | succ n =>
      cases d with
      | interrupted => simpa [takeFrom, size] using ih (n + 1)
      | failed kind text => simp [takeFrom, size]
      | bytes piece =>
        rcases eq_or_ne piece [] with rfl | hpiece
        · simp [takeFrom, size]
        by_cases hn : n + 1 < piece.length
        · simp only [takeFrom, if_neg hpiece, if_pos hn, size, List.length_drop]
          refine ⟨by omega, ?_⟩
          rintro _ ⟨rfl⟩
          rw [List.length_take]
          omega
        · obtain ⟨hle, hok⟩ := ih (n + 1 - piece.length)
          simp only [takeFrom, if_neg hpiece, if_neg hn, size]
          refine ⟨by omega, ?_⟩
          intro bytes hbytes
          cases hmore : (takeFrom (n + 1 - piece.length) rest).1 with
          | error e =>
            rw [hmore] at hbytes
            cases hbytes
          | ok more =>
            rw [hmore] at hbytes
            obtain rfl := Except.ok.inj hbytes
            obtain ⟨hlength, hsize⟩ := hok more hmore
            rw [List.length_append]
            omega

theorem size_perform_take_le {n : ℕ} {result : Outcome (List UInt8)} {rest : ByteInput}
    (h : (take n).perform input = (result, rest)) :
    rest.size ≤ input.size ∧
      ∀ bytes, result = .ok bytes → bytes.length + rest.size ≤ input.size := by
  obtain ⟨hle, hok⟩ := size_takeFrom_le n input
  change ((takeFrom n input).1.mapError _, (takeFrom n input).2) = _ at h
  obtain ⟨hresult, rfl⟩ := Prod.mk.inj h
  refine ⟨hle, ?_⟩
  rintro bytes rfl
  cases htake : (takeFrom n input).1 with
  | error e =>
    rw [htake] at hresult
    cases hresult
  | ok more =>
    rw [htake] at hresult
    obtain rfl := Except.ok.inj hresult
    exact (hok _ htake).2

end ByteInput

namespace ByteOutput

/-- An output without bound takes all bytes. -/
theorem perform_put {o : ByteOutput} (h : o.capacity = none) (bytes : List UInt8) :
    (put bytes).perform o = (.ok (), { o with written := o.written ++ bytes }) := by
  rw [put, Action.perform_bind_of_ok (Action.perform_get _)]
  simp [room?, h]

end ByteOutput

end CipherMonitor
