import CipherMonitor.Proofs.Ckks.Format
import CipherMonitor.Proofs.Monitor.Prefix
import CipherMonitor.Proofs.Stream.Framing

/-!
# The samples of an input

Every sample takes at least one byte, so an input gives a finite number of samples and then ends or
fails.  A stream of framed ciphertexts gives its full groups, and fails when ciphertexts are left
over.

* `Record.HasRoom`, `Record.perform_readSample` — the sizes of samples that there can be, and what a
  reader does with others.
* `Record.Samples` — the samples that an input gives, and how it ends.
* `Record.Shrinks`, `Record.size_readSample_lt` — reading gives no bytes back, and a sample takes some.
* `Record.Samples.unique`, `Record.exists_samples` — an input has exactly one sequence of samples.
* `Record.samples_of_stream` — the samples of a stream of ciphertexts.
-/

namespace CipherMonitor.Record

open Ckks

/-- A list can have `k` ciphertexts. -/
def HasRoom (k : ℕ) : Prop := k * entryBytes < 2 ^ 63

instance (k : ℕ) : Decidable (HasRoom k) := inferInstanceAs (Decidable (_ < _))

/-- Where there can be no sample, nothing is read. -/
theorem perform_readSample (k : ℕ) (input : ByteInput) :
    (readSample k).perform input = if HasRoom k then (readMissing k k []).perform input
      else (.error (.breach .capacity), input) := by
  rw [readSample, Action.perform_bind, Action.perform_ofOutcome, reserve, require]
  by_cases hk : HasRoom k
  · rw [if_pos hk, if_pos (by exact hk)]
  · rw [if_neg hk, if_neg (by exact hk)]

theorem HasRoom.perform_readSample {k : ℕ} (h : HasRoom k) (input : ByteInput) :
    (readSample k).perform input = (readMissing k k []).perform input := by
  rw [Record.perform_readSample, if_pos h]

/-- The samples that an input gives one after the other, and how it ends. -/
inductive Samples (k : ℕ) : ByteInput → List (List Ciphertext) → Outcome Unit → Prop
  | ended {input rest : ByteInput} (h : (readSample k).perform input = (.ok none, rest)) :
      Samples k input [] (.ok ())
  | failed {input rest : ByteInput} {fault : Fault}
      (h : (readSample k).perform input = (.error fault, rest)) :
      Samples k input [] (.error fault)
  | sample {input rest : ByteInput} {sample : List Ciphertext} {samples : List (List Ciphertext)}
      {ending : Outcome Unit} (h : (readSample k).perform input = (.ok (some sample), rest))
      (more : Samples k rest samples ending) :
      Samples k input (sample :: samples) ending

/-! ### What reading takes -/

/-- Reading never gives bytes back. -/
def Shrinks {α : Type} (action : Action ByteInput α) : Prop :=
  ∀ input : ByteInput, (action.perform input).2.size ≤ input.size

section

variable {α β : Type}

theorem shrinks_ofOutcome (outcome : Outcome α) : Shrinks (Action.ofOutcome outcome) :=
  fun _ => Nat.le_refl _

theorem shrinks_pure (a : α) : Shrinks (pure a) := fun _ => Nat.le_refl _

theorem shrinks_throw (fault : Fault) : Shrinks (throw fault : Action ByteInput α) :=
  fun _ => Nat.le_refl _

theorem Shrinks.bind {x : Action ByteInput α} {f : α → Action ByteInput β} (hx : Shrinks x)
    (hf : ∀ a, Shrinks (f a)) : Shrinks (x >>= f) := by
  intro input
  have hle := hx input
  rw [Action.perform_bind]
  rcases hrest : x.perform input with ⟨fault | a, rest⟩
  · rwa [hrest] at hle
  · rw [hrest] at hle
    exact (hf a rest).trans hle

theorem shrinks_take (n : ℕ) : Shrinks (ByteInput.take n) :=
  fun _ => (ByteInput.size_perform_take_le rfl).1

theorem shrinks_takeAll (n : ℕ) : Shrinks (takeAll n) :=
  (shrinks_take n).bind fun bytes => by
    split_ifs
    · exact shrinks_throw _
    · exact shrinks_pure _

theorem shrinks_read : Shrinks read :=
  (shrinks_take headerBytes).bind fun header => by
    split_ifs
    · exact shrinks_pure _
    · exact shrinks_throw _
    · exact (shrinks_takeAll _).bind fun _ => shrinks_pure _

theorem shrinks_readCiphertext : Shrinks readCiphertext :=
  shrinks_read.bind fun
    | none => shrinks_pure _
    | some _ => (shrinks_ofOutcome _).bind fun _ => shrinks_pure _

theorem shrinks_readMissing (size missing : ℕ) (found : List Ciphertext) :
    Shrinks (readMissing size missing found) := by
  induction missing generalizing found with
  | zero => exact shrinks_pure _
  | succ missing ih =>
    refine shrinks_readCiphertext.bind fun
      | some c => ih _
      | none => ?_
    dsimp only
    split_ifs
    · exact shrinks_pure _
    · exact shrinks_throw _

end

variable {input rest : ByteInput} {k : ℕ}

/-- A record takes at least the bytes of its length. -/
theorem size_read_lt {payload : List UInt8}
    (h : read.perform input = (.ok (some payload), rest)) : rest.size < input.size := by
  unfold read at h
  obtain ⟨header, mid, hheader, h⟩ := Action.perform_bind_eq_ok_iff.1 h
  have htaken := (ByteInput.size_perform_take_le hheader).2 header rfl
  split_ifs at h with hnil hshort
  · cases h
  · cases h
  · obtain ⟨body, left, hbody, h⟩ := Action.perform_bind_eq_ok_iff.1 h
    obtain ⟨-, rfl⟩ := Prod.mk.inj h
    have hle := shrinks_takeAll (Bytes.toNat header) mid
    have hpos := List.length_pos_iff.2 hnil
    rw [hbody] at hle
    dsimp only at hle
    omega

theorem size_readCiphertext_lt {c : Ciphertext}
    (h : readCiphertext.perform input = (.ok (some c), rest)) : rest.size < input.size := by
  unfold readCiphertext at h
  obtain ⟨result, mid, hread, h⟩ := Action.perform_bind_eq_ok_iff.1 h
  cases result with
  | none => cases h
  | some payload =>
    obtain ⟨c', left, hc, h⟩ := Action.perform_bind_eq_ok_iff.1 h
    obtain ⟨-, rfl⟩ := Action.perform_ofOutcome_eq_ok_iff.1 hc
    obtain ⟨-, rfl⟩ := Prod.mk.inj h
    exact size_read_lt hread

/-- A sample of at least one ciphertext takes at least one byte. -/
theorem size_readSample_lt (hk : 0 < k) {sample : List Ciphertext}
    (h : (readSample k).perform input = (.ok (some sample), rest)) : rest.size < input.size := by
  obtain ⟨missing, rfl⟩ := Nat.exists_eq_add_of_le' hk
  unfold readSample readMissing at h
  obtain ⟨_, _, hreserve, h⟩ := Action.perform_bind_eq_ok_iff.1 h
  obtain ⟨-, rfl⟩ := Action.perform_ofOutcome_eq_ok_iff.1 hreserve
  obtain ⟨result, mid, hread, h⟩ := Action.perform_bind_eq_ok_iff.1 h
  cases result with
  | none => cases h
  | some c =>
    have hle := shrinks_readMissing (missing + 1) missing ([] ++ [c]) mid
    rw [h] at hle
    exact Nat.lt_of_le_of_lt hle (size_readCiphertext_lt hread)

/-! ### All samples -/

/-- An input gives one sequence of samples and ends in one way. -/
theorem Samples.unique {samples samples' : List (List Ciphertext)} {ending ending' : Outcome Unit}
    (h : Samples k input samples ending) (h' : Samples k input samples' ending') :
    samples = samples' ∧ ending = ending' := by
  induction h generalizing samples' with
  | ended hread =>
    cases h' with
    | ended => exact ⟨rfl, rfl⟩
    | failed hread' => simp [hread] at hread'
    | sample hread' => simp [hread] at hread'
  | failed hread =>
    cases h' with
    | ended hread' => simp [hread] at hread'
    | failed hread' =>
      rw [hread] at hread'
      simpa using (Prod.mk.inj hread').1
    | sample hread' => simp [hread] at hread'
  | sample hread more ih =>
    cases h' with
    | ended hread' => simp [hread] at hread'
    | failed hread' => simp [hread] at hread'
    | sample hread' more' =>
      rw [hread] at hread'
      obtain ⟨hsample, rfl⟩ := Prod.mk.inj hread'
      obtain ⟨rfl, rfl⟩ := ih more'
      exact ⟨by simpa using hsample, rfl⟩

/-- Every input gives a finite number of samples, not more than it has bytes, and then ends. -/
theorem exists_samples (hk : 0 < k) (input : ByteInput) :
    ∃ samples ending, Samples k input samples ending ∧ samples.length ≤ input.size := by
  induction hsize : input.size using Nat.strong_induction_on generalizing input with
  | _ size ih =>
    rcases hread : (readSample k).perform input with ⟨fault | none | sample, rest⟩
    · exact ⟨[], .error fault, .failed hread, Nat.zero_le _⟩
    · exact ⟨[], .ok (), .ended hread, Nat.zero_le _⟩
    · have hlt := size_readSample_lt hk hread
      obtain ⟨samples, ending, hsamples, hle⟩ := ih rest.size (hsize ▸ hlt) rest rfl
      refine ⟨sample :: samples, ending, .sample hread hsamples, ?_⟩
      rw [List.length_cons]
      omega

/-! ### Streams of ciphertexts -/

variable {c : Ciphertext} {cs : List Ciphertext}

/-- The bytes of a ciphertext fit into a record. -/
theorem length_toBytes_lt (hc : c.WellFormed) : c.toBytes.length < 2 ^ 32 := by
  have hpayload := hc.length_payload
  have hle : c.header.polyBytes * c.size ≤ 2 ^ 17 * 512 * 3 :=
    Nat.mul_le_mul (Ciphertext.Header.polyBytes_le (h := c.header) hc.fields) hc.fields.size_le
  rw [Ciphertext.toBytes_eq, List.length_append, Ciphertext.Header.length_toBytes]
  omega

/-- The frames of some ciphertexts. -/
def ciphertextStream (cs : List Ciphertext) : List UInt8 := stream (cs.map Ciphertext.toBytes)

theorem perform_readCiphertext_nil (h : input.Delivers (ciphertextStream [])) :
    ∃ rest : ByteInput, rest.Delivers [] ∧ readCiphertext.perform input = (.ok none, rest) := by
  obtain ⟨rest, hrest, hread⟩ := perform_read h
  refine ⟨rest, hrest, ?_⟩
  rw [readCiphertext, Action.perform_bind_of_ok hread]
  rfl

theorem perform_readCiphertext_cons (hc : c.WellFormed)
    (h : input.Delivers (ciphertextStream (c :: cs))) :
    ∃ rest : ByteInput, rest.Delivers (ciphertextStream cs) ∧
      readCiphertext.perform input = (.ok (some c), rest) := by
  obtain ⟨rest, hrest, hread⟩ := perform_read h
  rw [ciphertextStream, List.map_cons, stream_cons,
    next_frame (length_toBytes_lt hc)] at hrest hread
  have hdecode := Ciphertext.run_decode_toBytes hc []
  rw [List.append_nil] at hdecode
  have hciphertext : ciphertextOf c.toBytes = .ok c := by
    unfold ciphertextOf
    rw [hdecode]
  refine ⟨rest, hrest, ?_⟩
  rw [readCiphertext, Action.perform_bind_of_ok hread]
  show (Action.ofOutcome (ciphertextOf c.toBytes) >>= _ : Action ByteInput _).perform rest = _
  rw [hciphertext]
  rfl

/-- The missing ciphertexts are read if there are enough of them; else the input ends inside of the
sample, unless nothing of it was found. -/
theorem perform_readMissing (hcs : ∀ c ∈ cs, c.WellFormed)
    (h : input.Delivers (ciphertextStream cs)) (missing : ℕ) (found : List Ciphertext) :
    ∃ rest : ByteInput, rest.Delivers (ciphertextStream (cs.drop missing)) ∧
      (readMissing k missing found).perform input =
        (if missing ≤ cs.length then .ok (some (found ++ cs.take missing))
          else if found ++ cs = [] then .ok none
          else .error (.stream (.truncated k (found ++ cs).length)), rest) := by
  induction missing generalizing cs found input with
  | zero => exact ⟨input, h, by simp [readMissing]⟩
  | succ missing ih =>
    cases cs with
    | nil =>
      obtain ⟨rest, hrest, hread⟩ := perform_readCiphertext_nil h
      refine ⟨rest, hrest, ?_⟩
      have hshort : ¬ missing + 1 ≤ ([] : List Ciphertext).length := Nat.not_succ_le_zero missing
      rw [readMissing, Action.perform_bind_of_ok hread, if_neg hshort, List.append_nil]
      cases found <;> rfl
    | cons c cs =>
      rw [List.forall_mem_cons] at hcs
      obtain ⟨mid, hmid, hread⟩ := perform_readCiphertext_cons hcs.1 h
      obtain ⟨rest, hrest, hmissing⟩ := ih hcs.2 hmid (found ++ [c])
      refine ⟨rest, hrest, ?_⟩
      rw [readMissing, Action.perform_bind_of_ok hread]
      show (readMissing k missing (found ++ [c])).perform mid = _
      rw [hmissing]
      simp

/-- How a stream of `n` ciphertexts ends: inside of a sample, unless the samples use them up. -/
def streamEnding (k n : ℕ) : Outcome Unit :=
  if k ∣ n then .ok () else .error (.stream (.truncated k (n % k)))

theorem streamEnding_sub {n : ℕ} (h : k ≤ n) : streamEnding k (n - k) = streamEnding k n := by
  unfold streamEnding
  simp only [Nat.dvd_iff_mod_eq_zero, ← Nat.mod_eq_sub_mod h]

/-- A stream of ciphertexts gives its full groups in order.  If ciphertexts are left over, the input
ends inside of a sample. -/
theorem samples_of_stream (hk : 0 < k) (hroom : HasRoom k) (hcs : ∀ c ∈ cs, c.WellFormed)
    (h : input.Delivers (ciphertextStream cs)) :
    Samples k input (fullBlocks k cs) (streamEnding k cs.length) := by
  induction hlen : cs.length using Nat.strong_induction_on generalizing cs input with
  | _ length ih =>
    subst hlen
    obtain ⟨rest, hrest, hread⟩ := perform_readMissing (k := k) hcs h k []
    rw [List.nil_append, List.nil_append, ← hroom.perform_readSample] at hread
    by_cases hle : k ≤ cs.length
    · rw [if_pos hle] at hread
      have hdrop : (cs.drop k).length = cs.length - k := List.length_drop
      have hmore := ih (cs.length - k) (by omega)
        (fun c hc => hcs c (List.mem_of_mem_drop hc)) hrest hdrop
      have hblocks : fullBlocks k cs = cs.take k :: fullBlocks k (cs.drop k) := by
        rw [← fullBlocks_append hk (List.length_take_of_le hle), List.take_append_drop]
      rw [streamEnding_sub hle] at hmore
      rw [hblocks]
      exact .sample hread hmore
    · have hlt := Nat.not_le.1 hle
      rw [if_neg hle] at hread
      rw [fullBlocks_of_lt hlt]
      unfold streamEnding
      by_cases hnil : cs = []
      · subst hnil
        rw [if_pos rfl] at hread
        rw [if_pos (by exact Nat.dvd_zero k)]
        exact .ended hread
      · have hpos := List.length_pos_iff.2 hnil
        rw [if_neg hnil] at hread
        rw [if_neg (Nat.not_dvd_of_pos_of_lt hpos hlt), Nat.mod_eq_of_lt hlt]
        exact .failed hread

end CipherMonitor.Record
