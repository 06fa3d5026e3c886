import Mathlib.Data.List.Basic
import CipherMonitor.Proofs.History
import CipherMonitor.Proofs.Stream.Device
import CipherMonitor.Stream.Record

/-!
# Framed records survive any cut

The bytes alone decide what a reader of records answers, however they are cut into reads.  From any
part of a framed stream it gets the records whose frames are whole, and then learns how the stream
ended.

* `Record.stream` — the frames of some records.
* `Record.next`, `Record.perform_read` — what a reader finds in front of some bytes.
* `Record.wholeCount`, `Record.le_wholeCount_iff` — the records whose frames are whole after a cut.
* `Record.lastAnswer` — what a reader is told about the cut.
* `Record.read_cut_stream` — the answers of repeated reading after a cut.
-/

namespace CipherMonitor.Record

variable {payload bytes : List UInt8} {records : List (List UInt8)} {k : ℕ}

/-! ### Frames -/

@[simp] theorem length_frame (payload : List UInt8) :
    (frame payload).length = headerBytes + payload.length := by
  simp [frame]

/-- The frames of some records, one after the other. -/
def stream (records : List (List UInt8)) : List UInt8 := records.flatMap frame

@[simp] theorem stream_nil : stream [] = [] := rfl

@[simp] theorem stream_cons (payload : List UInt8) (records : List (List UInt8)) :
    stream (payload :: records) = frame payload ++ stream records := rfl

theorem stream_append (before after : List (List UInt8)) :
    stream (before ++ after) = stream before ++ stream after := List.flatMap_append

/-- A record that is not too long is appended to an output without bound. -/
theorem perform_write {o : ByteOutput} (ho : o.capacity = none) (h : payload.length < 2 ^ 32) :
    (write payload).perform o = (.ok (), { o with written := o.written ++ frame payload }) := by
  have hfits : ¬ 256 ^ headerBytes ≤ payload.length := by
    rw [headerBytes]
    omega
  unfold write
  rw [if_neg hfits, Action.perform_bind_of_ok (ByteOutput.perform_put ho _),
    ByteOutput.perform_put (by exact ho), List.append_assoc, frame]

theorem perform_forM_write {o : ByteOutput} (ho : o.capacity = none)
    (h : ∀ payload ∈ records, payload.length < 2 ^ 32) :
    (records.forM write).perform o =
      (.ok (), { o with written := o.written ++ stream records }) := by
  induction records generalizing o with
  | nil => simp [List.forM]
  | cons payload records ih =>
    have hwrite := perform_write ho (h payload (List.mem_cons_self ..))
    show (write payload >>= fun _ => records.forM write).perform o = _
    rw [Action.perform_bind_of_ok hwrite,
      ih (by exact ho) fun r hr => h r (List.mem_cons_of_mem _ hr), stream_cons, List.append_assoc]

/-! ### One record -/

/-- What a reader finds in front of some bytes: its answer, and the bytes that are left. -/
def next (bytes : List UInt8) : Outcome (Option (List UInt8)) × List UInt8 :=
  if bytes = [] then (.ok none, [])
  else if bytes.length < headerBytes then
    (.error (.stream (.truncated headerBytes bytes.length)), [])
  else
    let length := Bytes.toNat (bytes.take headerBytes)
    let rest := bytes.drop headerBytes
    if rest.length < length then (.error (.stream (.truncated length rest.length)), [])
    else (.ok (some (rest.take length)), rest.drop length)

theorem perform_takeAll {input : ByteInput} (h : input.Delivers bytes) (n : ℕ) :
    ∃ rest : ByteInput, rest.Delivers (bytes.drop n) ∧ (takeAll n).perform input =
      (if bytes.length < n then .error (.stream (.truncated n bytes.length))
        else .ok (bytes.take n), rest) := by
  obtain ⟨rest, htake, hrest⟩ := ByteInput.perform_take_of_delivers h n
  refine ⟨rest, hrest, ?_⟩
  rw [takeAll, Action.perform_bind_of_ok htake]
  by_cases hn : bytes.length < n
  · rw [if_pos (by rw [List.length_take]; omega), if_pos hn, List.take_of_length_le (by omega)]
    rfl
  · rw [if_neg (by rw [List.length_take]; omega), if_neg hn]
    rfl

/-- The bytes alone decide what a reader answers, however they are cut into reads. -/
theorem perform_read {input : ByteInput} (h : input.Delivers bytes) :
    ∃ rest : ByteInput, rest.Delivers (next bytes).2 ∧
      read.perform input = ((next bytes).1, rest) := by
  obtain ⟨rest, hheader, hrest⟩ := ByteInput.perform_take_of_delivers h headerBytes
  unfold read next
  rw [Action.perform_bind_of_ok hheader]
  by_cases hnil : bytes = []
  · subst hnil
    exact ⟨rest, by simpa using hrest, rfl⟩
  · have hne : bytes.take headerBytes ≠ [] := by simpa [headerBytes] using hnil
    rw [if_neg hnil, if_neg hne]
    by_cases hshort : bytes.length < headerBytes
    · have htake : bytes.take headerBytes = bytes := List.take_of_length_le (by omega)
      rw [if_pos hshort, htake, if_pos hshort]
      refine ⟨rest, ?_, rfl⟩
      rwa [List.drop_of_length_le (by omega)] at hrest
    · have hlength : ¬ (bytes.take headerBytes).length < headerBytes := by
        rw [List.length_take]
        omega
      rw [if_neg hshort, if_neg hlength]
      obtain ⟨rest', hrest', htakeAll⟩ :=
        perform_takeAll hrest (Bytes.toNat (bytes.take headerBytes))
      refine ⟨rest', ?_, ?_⟩
      · dsimp only
        split_ifs with hbody
        · rwa [List.drop_of_length_le (by omega)] at hrest'
        · exact hrest'
      · dsimp only
        rw [Action.perform_bind, htakeAll]
        split_ifs <;> rfl

theorem toNat_header (h : payload.length < 2 ^ 32) :
    Bytes.toNat (Bytes.ofNat headerBytes payload.length) = payload.length :=
  Bytes.toNat_ofNat_of_lt (by rw [headerBytes]; omega)

/-- A whole frame is read as its record. -/
theorem next_frame (h : payload.length < 2 ^ 32) (rest : List UInt8) :
    next (frame payload ++ rest) = (.ok (some payload), rest) := by
  have hne : frame payload ++ rest ≠ [] := by simp [frame, headerBytes, Bytes.ofNat]
  have hlength : ¬ (frame payload ++ rest).length < headerBytes := by
    rw [List.length_append, length_frame]
    omega
  have htake : (frame payload ++ rest).take headerBytes =
      Bytes.ofNat headerBytes payload.length := by
    rw [frame, List.append_assoc, List.take_left' (by simp)]
  have hdrop : (frame payload ++ rest).drop headerBytes = payload ++ rest := by
    rw [frame, List.append_assoc, List.drop_left' (by simp)]
  unfold next
  rw [if_neg hne, if_neg hlength, htake, hdrop, toNat_header h]
  simp

/-- What a reader is told about a record of which the first `k` bytes of its frame are there:
nothing when there are none, else the part of the frame that ends early and what there is of it. -/
def cutAnswer (payload : List UInt8) (k : ℕ) : Outcome (Option (List UInt8)) :=
  if k = 0 then .ok none
  else if k < headerBytes then .error (.stream (.truncated headerBytes k))
  else .error (.stream (.truncated payload.length (k - headerBytes)))

/-- A frame that is cut is not read at all, and nothing is left after it. -/
theorem next_take_frame (h : payload.length < 2 ^ 32) (hk : k < (frame payload).length) :
    next ((frame payload).take k) = (cutAnswer payload k, []) := by
  rw [length_frame] at hk
  have hlength : ((frame payload).take k).length = k := by
    rw [List.length_take, length_frame]
    omega
  unfold next cutAnswer
  by_cases hzero : k = 0
  · simp [hzero]
  · have hne : (frame payload).take k ≠ [] := by
      intro hnil
      rw [hnil] at hlength
      exact hzero hlength.symm
    rw [if_neg hne, if_neg hzero, hlength]
    by_cases hshort : k < headerBytes
    · rw [if_pos hshort, if_pos hshort]
    · have hheader : ((frame payload).take k).take headerBytes =
          Bytes.ofNat headerBytes payload.length := by
        rw [List.take_take, Nat.min_eq_left (by omega), frame, List.take_left' (by simp)]
      rw [if_neg hshort, if_neg hshort, hheader, toNat_header h]
      dsimp only
      rw [List.length_drop, hlength, if_pos (by omega)]

/-! ### Many records -/

/-- The number of records whose frames lie completely inside the first `k` bytes of the stream. -/
def wholeCount : List (List UInt8) → ℕ → ℕ
  | [], _ => 0
  | payload :: records, k =>
    if (frame payload).length ≤ k then wholeCount records (k - (frame payload).length) + 1 else 0

theorem wholeCount_le (records : List (List UInt8)) (k : ℕ) :
    wholeCount records k ≤ records.length := by
  induction records generalizing k with
  | nil => exact Nat.le_refl 0
  | cons payload records ih =>
    unfold wholeCount
    split_ifs
    · exact Nat.succ_le_succ (ih _)
    · exact Nat.zero_le _

/-- The first `i` records are whole when their frames fit into the bytes before the cut. -/
theorem le_wholeCount_iff {i : ℕ} (hi : i ≤ records.length) :
    i ≤ wholeCount records k ↔ (stream (records.take i)).length ≤ k := by
  induction records generalizing i k with
  | nil =>
    obtain rfl := Nat.le_zero.1 hi
    simp
  | cons payload records ih =>
    cases i with
    | zero => simp
    | succ i =>
      rw [List.take_succ_cons, stream_cons, List.length_append, wholeCount]
      split_ifs with hfits
      · rw [Nat.succ_le_succ_iff, ih (Nat.le_of_succ_le_succ hi)]
        omega
      · omega

/-- What a reader is told after the whole records: that the stream has ended, or what it found of
the record that is cut. -/
def lastAnswer (records : List (List UInt8)) (k : ℕ) : Outcome (Option (List UInt8)) :=
  match records[wholeCount records k]? with
  | none => .ok none
  | some payload => cutAnswer payload (k - (stream (records.take (wholeCount records k))).length)

theorem lastAnswer_cons_of_le (h : (frame payload).length ≤ k) :
    lastAnswer (payload :: records) k = lastAnswer records (k - (frame payload).length) := by
  unfold lastAnswer
  rw [wholeCount, if_pos h, List.getElem?_cons_succ, List.take_succ_cons, stream_cons,
    List.length_append, Nat.sub_add_eq]

theorem lastAnswer_cons_of_lt (h : k < (frame payload).length) :
    lastAnswer (payload :: records) k = cutAnswer payload k := by
  unfold lastAnswer
  rw [wholeCount, if_neg (by omega)]
  simp

/-- An input without bytes answers that it has ended, every time. -/
theorem repeated_read_of_ended {input : ByteInput} (h : input.Delivers []) (calls : ℕ) :
    Action.repeated read input calls = List.replicate calls (.ok none) := by
  induction calls generalizing input with
  | zero => rfl
  | succ calls ih =>
    obtain ⟨rest, hrest, hread⟩ := perform_read h
    rw [Action.repeated_succ, hread, ih hrest, List.replicate_succ]
    rfl

/-- The answers of repeated reading after a cut: the whole records, then how the stream ended, and
from then on that it has ended. -/
def answersAfterCut (records : List (List UInt8)) (k calls : ℕ) :
    List (Outcome (Option (List UInt8))) :=
  let whole : List (Outcome (Option (List UInt8))) :=
    (records.take (wholeCount records k)).map fun payload => .ok (some payload)
  (whole ++ lastAnswer records k :: List.replicate calls (.ok none)).take calls

theorem answersAfterCut_nil (k calls : ℕ) :
    answersAfterCut [] k calls = List.replicate calls (.ok none) := by
  show (List.replicate (calls + 1) (Except.ok none)).take calls = _
  rw [List.take_replicate, Nat.min_eq_left (Nat.le_succ calls)]

theorem answersAfterCut_cons_of_le (h : (frame payload).length ≤ k) (calls : ℕ) :
    answersAfterCut (payload :: records) k (calls + 1) =
      .ok (some payload) :: answersAfterCut records (k - (frame payload).length) calls := by
  unfold answersAfterCut
  rw [lastAnswer_cons_of_le h, wholeCount, if_pos h, List.take_succ_cons, List.map_cons,
    List.replicate_succ']
  dsimp only
  -- The last of the answers behind the end is not asked for.
  rw [List.cons_append, List.take_succ_cons, ← List.cons_append, ← List.append_assoc,
    List.take_append_of_le_length]
  rw [List.length_append, List.length_cons, List.length_replicate]
  omega

theorem answersAfterCut_cons_of_lt (h : k < (frame payload).length) (calls : ℕ) :
    answersAfterCut (payload :: records) k (calls + 1) =
      cutAnswer payload k :: List.replicate calls (.ok none) := by
  unfold answersAfterCut
  rw [lastAnswer_cons_of_lt h, wholeCount, if_neg (by omega)]
  show cutAnswer payload k :: (List.replicate (calls + 1) _).take calls = _
  rw [List.take_replicate, Nat.min_eq_left (Nat.le_succ calls)]

theorem repeated_read_take_stream (hrecords : ∀ r ∈ records, r.length < 2 ^ 32) {input : ByteInput}
    (h : input.Delivers ((stream records).take k)) (calls : ℕ) :
    Action.repeated read input calls = answersAfterCut records k calls := by
  induction records generalizing input k calls with
  | nil =>
    rw [stream_nil, List.take_nil] at h
    rw [repeated_read_of_ended h, answersAfterCut_nil]
  | cons payload records ih =>
    have hpayload := hrecords payload (List.mem_cons_self ..)
    cases calls with
    | zero => rfl
    | succ calls =>
      obtain ⟨rest, hrest, hread⟩ := perform_read h
      rw [stream_cons, List.take_append] at hrest hread
      rw [Action.repeated_succ, hread]
      by_cases hfits : (frame payload).length ≤ k
      · rw [List.take_of_length_le hfits, next_frame hpayload] at hrest ⊢
        have hrecords' := fun r hr => hrecords r (List.mem_cons_of_mem payload hr)
        rw [answersAfterCut_cons_of_le hfits, ih hrecords' hrest]
      · have hlt := Nat.not_le.1 hfits
        rw [Nat.sub_eq_zero_of_le (Nat.le_of_lt hlt), List.take_zero, List.append_nil,
          next_take_frame hpayload hlt] at hrest ⊢
        rw [answersAfterCut_cons_of_lt hlt, repeated_read_of_ended hrest]

/-- Records that are not too long are written as their frames.  After a cut at any place, and
however the bytes before it are cut into reads of at least one byte, repeated reading gives the
records whose frames are whole, in order; then it tells that the stream has ended, or which part of
a frame ended early and how much of it there was; and from then on that the stream has ended. -/
theorem read_cut_stream (hrecords : ∀ payload ∈ records, payload.length < 2 ^ 32) :
    (∀ o : ByteOutput, o.capacity = none → (records.forM write).perform o =
      (.ok (), { o with written := o.written ++ stream records })) ∧
    ∀ k : ℕ,
      (wholeCount records k ≤ records.length ∧ ∀ i ≤ records.length,
        (i ≤ wholeCount records k ↔ (stream (records.take i)).length ≤ k)) ∧
      ∀ input : ByteInput, input.Delivers ((stream records).take k) → ∀ calls : ℕ,
        Action.repeated read input calls = answersAfterCut records k calls := by
  refine ⟨fun o ho => perform_forM_write ho hrecords, fun k => ⟨⟨?_, ?_⟩, ?_⟩⟩
  · exact wholeCount_le records k
  · exact fun i hi => le_wholeCount_iff hi
  · exact fun input hinput calls => repeated_read_take_stream hrecords hinput calls

/-- Three records, the second one empty, cut inside the length of the third one; the bytes come in
three pieces, the first of which ends inside the length of the second record. -/
theorem read_cut_stream_three :
    (∀ payload ∈ [[7, 8], [], [(9 : UInt8)]], payload.length < 2 ^ 32) ∧
      Action.repeated read
        [.bytes [2, 0, 0, 0, 7, 8, 0], .interrupted, .bytes [0, 0, 0, 1], .bytes [0, 0]] 4 =
      [.ok (some [7, 8]), .ok (some []), .error (.stream (.truncated 4 3)), .ok none] := by
  have hrecords : ∀ payload ∈ [[7, 8], [], [(9 : UInt8)]], payload.length < 2 ^ 32 := by decide
  have hinput : ByteInput.Delivers
      [.bytes [2, 0, 0, 0, 7, 8, 0], .interrupted, .bytes [0, 0, 0, 1], .bytes [0, 0]]
      ((stream [[7, 8], [], [9]]).take 13) :=
    .bytes (by decide) (.interrupted (.bytes (by decide) (.bytes (by decide) .ended)))
  exact ⟨hrecords, ((read_cut_stream hrecords).2 13).2 _ hinput 4⟩

end CipherMonitor.Record
