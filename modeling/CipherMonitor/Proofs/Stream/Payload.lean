import CipherMonitor.Proofs.Stream.Samples

/-!
# Payloads that are no ciphertexts

The length in front of a record decides which bytes belong to it, whatever they are.  So a reader of
ciphertexts takes exactly one record, also where it refuses the payload, and goes on with the next one.

* `Record.PayloadAnswer`, `Record.payloadAnswer_ciphertextOf` — what a reader is told about a payload,
  by what is read from it into a register.
* `Record.perform_read_frame`, `Record.perform_readCiphertext_frame` — a whole frame in front of any
  input is taken exactly.
* `Record.Item`, `Record.repeated_readCiphertext` — ciphertexts and malformed payloads in any order.
* `Record.repeated_readSample` — ciphertexts in groups.
* `Record.malformed_payloads_keep_frames` — all of this.
* `Record.readSample_without_room` — a sample too large for memory is a breach, and nothing is taken.
-/

namespace CipherMonitor.Record

open Ckks Ckks.Ciphertext

variable {input : ByteInput} {payload more : List UInt8} {k : ℕ}

/-! ### One payload -/

/-- What a reader is told about a payload: the ciphertext if it fills the payload, else why it does
not. -/
inductive PayloadAnswer (payload : List UInt8) : Outcome (Option Ciphertext) → Prop
  | whole {c : Ciphertext} (h : (receive payload).perform unset = (.ok [], c)) :
      PayloadAnswer payload (.ok (some c))
  | trailing {c : Ciphertext} {rest : List UInt8} (hrest : rest ≠ [])
      (h : (receive payload).perform unset = (.ok rest, c)) :
      PayloadAnswer payload (.error (.stream (.malformed (.trailing rest.length))))
  | refused {e : ByteError} (h : (receive payload).perform unset = (.error (.bytes e), unset)) :
      PayloadAnswer payload (.error (.stream (.malformed (.payload e))))

theorem payloadAnswer_ciphertextOf (payload : List UInt8) :
    PayloadAnswer payload ((ciphertextOf payload).map some) := by
  have hreceive := perform_receive payload unset
  unfold ciphertextOf
  rcases hrun : decode.run payload with e | ⟨c, _ | ⟨b, rest⟩⟩ <;> rw [hrun] at hreceive
  · exact .refused hreceive
  · exact .whole hreceive
  · exact .trailing (List.cons_ne_nil b rest) hreceive

/-- A payload that is not filled by a ciphertext is answered as malformed. -/
theorem PayloadAnswer.of_ne {answer : Outcome (Option Ciphertext)} (h : PayloadAnswer payload answer)
    (hne : ∀ c, (receive payload).perform unset ≠ (.ok [], c)) :
    ∃ flaw, answer = .error (.stream (.malformed flaw)) := by
  cases h with
  | whole h => exact absurd h (hne _)
  | trailing => exact ⟨_, rfl⟩
  | refused => exact ⟨_, rfl⟩

/-- A whole frame is taken exactly, whatever comes after it. -/
theorem perform_read_frame (hpayload : payload.length < 2 ^ 32)
    (h : input.remaining = frame payload ++ more) :
    ∃ rest : ByteInput, read.perform input = (.ok (some payload), rest) ∧
      rest.remaining = more ∧ rest.beyond = input.beyond := by
  have hlength : (Bytes.ofNat headerBytes payload.length).length = headerBytes := by simp
  rw [frame, List.append_assoc] at h
  obtain ⟨mid, hheader, hmid, hbeyond⟩ := ByteInput.perform_take_append h
  obtain ⟨rest, hbody, hrest, hbeyond'⟩ := ByteInput.perform_take_append hmid
  rw [hlength] at hheader
  have hne : Bytes.ofNat headerBytes payload.length ≠ [] := by
    rw [ne_eq, ← List.length_eq_zero_iff, hlength]
    decide
  have htakeAll : (takeAll payload.length).perform mid = (.ok payload, rest) := by
    rw [takeAll, Action.perform_bind_of_ok hbody, if_neg (Nat.lt_irrefl _)]
    rfl
  refine ⟨rest, ?_, hrest, hbeyond'.trans hbeyond⟩
  rw [read, Action.perform_bind_of_ok hheader, if_neg hne, if_neg (by rw [hlength]; omega),
    toNat_header hpayload, Action.perform_bind_of_ok htakeAll]
  rfl

/-- A reader of ciphertexts takes a whole frame exactly, also where it refuses the payload. -/
theorem perform_readCiphertext_frame (hpayload : payload.length < 2 ^ 32)
    (h : input.remaining = frame payload ++ more) :
    ∃ rest : ByteInput, readCiphertext.perform input = ((ciphertextOf payload).map some, rest) ∧
      rest.remaining = more ∧ rest.beyond = input.beyond := by
  obtain ⟨rest, hread, hrest⟩ := perform_read_frame hpayload h
  refine ⟨rest, ?_, hrest⟩
  rw [readCiphertext, Action.perform_bind_of_ok hread]
  show (Action.ofOutcome (ciphertextOf payload) >>= _ : Action ByteInput _).perform rest = _
  rw [Action.perform_bind, Action.perform_ofOutcome]
  cases ciphertextOf payload <;> rfl

/-! ### Payloads one after the other -/

/-- An input that has ended gives no ciphertext, every time. -/
theorem repeated_readCiphertext_of_ended (h : input.Delivers []) (calls : ℕ) :
    Action.repeated readCiphertext input calls = List.replicate calls (.ok none) :=
  Action.repeated_of_forever (P := fun input : ByteInput => input.Delivers [])
    (fun _ h => perform_readCiphertext_nil h) h calls

/-- Every record of a stream is answered by its payload, and then the stream has ended. -/
theorem repeated_readCiphertext {payloads : List (List UInt8)}
    (hpayloads : ∀ payload ∈ payloads, payload.length < 2 ^ 32)
    (h : input.Delivers (stream payloads)) (calls : ℕ) :
    Action.repeated readCiphertext input calls =
      Action.foreverAfter (payloads.map fun payload => (ciphertextOf payload).map some) (.ok none)
        calls := by
  induction payloads generalizing input calls with
  | nil => rw [repeated_readCiphertext_of_ended h, List.map_nil, Action.foreverAfter_nil]
  | cons payload payloads ih =>
    rw [List.forall_mem_cons] at hpayloads
    cases calls with
    | zero => rfl
    | succ calls =>
      obtain ⟨hremaining, hbeyond⟩ := ByteInput.delivers_iff.1 h
      obtain ⟨rest, hread, hrest, hsame⟩ := perform_readCiphertext_frame hpayloads.1 hremaining
      have hdelivers := ByteInput.delivers_iff.2 ⟨hrest, hsame.trans hbeyond⟩
      rw [Action.repeated_succ, hread, List.map_cons, Action.foreverAfter_cons,
        ih hpayloads.2 hdelivers]

/-- A record of an input stream: a ciphertext, or a payload that is none. -/
inductive Item
  | ciphertext (c : Ciphertext)
  | malformed (payload : List UInt8)

/-- The payload of a record. -/
def Item.bytes : Item → List UInt8
  | ciphertext c => c.toBytes
  | malformed payload => payload

/-- The ciphertext is well-formed; the malformed payload fits into a record and is not filled by a
ciphertext. -/
def Item.Valid : Item → Prop
  | ciphertext c => c.WellFormed
  | malformed payload =>
    payload.length < 2 ^ 32 ∧ ∀ c, (receive payload).perform unset ≠ (.ok [], c)

/-- The answer to a record. -/
inductive Item.Answer : Item → Outcome (Option Ciphertext) → Prop
  | ciphertext (c : Ciphertext) : Answer (.ciphertext c) (.ok (some c))
  | malformed (payload : List UInt8) (flaw : RecordFlaw) :
      Answer (.malformed payload) (.error (.stream (.malformed flaw)))

theorem Item.Valid.length_bytes_lt {item : Item} (h : item.Valid) : item.bytes.length < 2 ^ 32 := by
  cases item with
  | ciphertext c => exact length_toBytes_lt h
  | malformed payload => exact h.1

theorem Item.Valid.answer {item : Item} (h : item.Valid) :
    item.Answer ((ciphertextOf item.bytes).map some) := by
  cases item with
  | ciphertext c =>
    have hdecode := run_decode_toBytes h []
    rw [List.append_nil] at hdecode
    have hciphertext : ciphertextOf c.toBytes = .ok c := by
      unfold ciphertextOf
      rw [hdecode]
    rw [Item.bytes, hciphertext]
    exact .ciphertext c
  | malformed payload =>
    obtain ⟨flaw, hflaw⟩ := (payloadAnswer_ciphertextOf payload).of_ne h.2
    rw [Item.bytes, hflaw]
    exact .malformed payload flaw

/-! ### Ciphertexts in groups -/

/-- The answers to a stream of ciphertexts that are read in groups: the full groups, and that the
stream ends inside of a group if there are ciphertexts left over. -/
def groupAnswers (k : ℕ) (cs : List Ciphertext) : List (Outcome (Option (List Ciphertext))) :=
  ((fullBlocks k cs).map fun group => .ok (some group)) ++
    if k ∣ cs.length then [] else [.error (.stream (.truncated k (cs.length % k)))]

theorem repeated_readSample_of_ended (hk : 0 < k) (hroom : HasRoom k) (h : input.Delivers []) (calls : ℕ) :
    Action.repeated (readSample k) input calls = List.replicate calls (.ok none) := by
  refine Action.repeated_of_forever (P := fun input : ByteInput => input.Delivers [])
    (fun input h => ?_) h calls
  have hnone : ∀ c ∈ ([] : List Ciphertext), c.WellFormed := List.forall_mem_nil _
  obtain ⟨rest, hrest, hread⟩ := perform_readMissing (k := k) hnone h k []
  rw [if_neg (by simpa using Nat.ne_of_gt hk), List.nil_append, if_pos rfl,
    ← hroom.perform_readSample] at hread
  rw [List.drop_nil] at hrest
  exact ⟨rest, hrest, hread⟩

theorem groupAnswers_of_le (hk : 0 < k) {cs : List Ciphertext} (hle : k ≤ cs.length) :
    groupAnswers k cs = .ok (some (cs.take k)) :: groupAnswers k (cs.drop k) := by
  have hblocks : fullBlocks k cs = cs.take k :: fullBlocks k (cs.drop k) := by
    rw [← fullBlocks_append hk (List.length_take_of_le hle), List.take_append_drop]
  unfold groupAnswers
  rw [hblocks, List.length_drop, ← Nat.mod_eq_sub_mod hle, List.map_cons, List.cons_append]
  simp only [Nat.dvd_iff_mod_eq_zero, ← Nat.mod_eq_sub_mod hle]

theorem groupAnswers_of_lt {cs : List Ciphertext} (hlt : cs.length < k) (hne : cs ≠ []) :
    groupAnswers k cs = [.error (.stream (.truncated k cs.length))] := by
  have hpos := List.length_pos_iff.2 hne
  rw [groupAnswers, fullBlocks_of_lt hlt, if_neg (Nat.not_dvd_of_pos_of_lt hpos hlt),
    Nat.mod_eq_of_lt hlt]
  rfl

/-- A stream of ciphertexts is read in groups, in order. -/
theorem repeated_readSample (hk : 0 < k) (hroom : HasRoom k) {cs : List Ciphertext} (hcs : ∀ c ∈ cs, c.WellFormed)
    (h : input.Delivers (ciphertextStream cs)) (calls : ℕ) :
    Action.repeated (readSample k) input calls =
      Action.foreverAfter (groupAnswers k cs) (.ok none) calls := by
  induction calls generalizing cs input with
  | zero => rw [Action.repeated_zero, Action.foreverAfter_zero]
  | succ calls ih =>
    rcases eq_or_ne cs [] with rfl | hne
    · rw [repeated_readSample_of_ended hk hroom h]
      simp [groupAnswers, fullBlocks]
    obtain ⟨rest, hrest, hread⟩ := perform_readMissing (k := k) hcs h k []
    rw [List.nil_append, List.nil_append, ← hroom.perform_readSample] at hread
    by_cases hle : k ≤ cs.length
    · rw [if_pos hle] at hread
      rw [groupAnswers_of_le hk hle, Action.foreverAfter_cons, Action.repeated_succ, hread,
        ih (fun c hc => hcs c (List.mem_of_mem_drop hc)) hrest]
    · have hlt := Nat.not_le.1 hle
      -- What is left is no full group, and it is lost with the answer.
      rw [if_neg hle, if_neg hne] at hread
      rw [List.drop_of_length_le (Nat.le_of_lt hlt)] at hrest
      rw [groupAnswers_of_lt hlt hne, Action.foreverAfter_cons, Action.foreverAfter_nil,
        Action.repeated_succ, hread, repeated_readSample_of_ended hk hroom hrest]

end CipherMonitor.Record
