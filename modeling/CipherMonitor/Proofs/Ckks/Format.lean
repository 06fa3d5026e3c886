import Mathlib
import CipherMonitor.Ckks.Format
import CipherMonitor.Proofs.Action
import CipherMonitor.Proofs.Bytes.Decoder
import CipherMonitor.Proofs.Outcome
import CipherMonitor.Proofs.Poly.Bytes

/-!
# The binary format of ciphertexts is exact

Well-formed ciphertexts are read back from their bytes, only they are read from any bytes, and a
reader that refuses leaves its register as it was.

* `Ckks.Ciphertext.WellFormed` — the ciphertexts of the format.
* `Ckks.Ciphertext.run_decode_toBytes` — a ciphertext is read back.
* `Ckks.Ciphertext.wellFormed_of_decode` — what is read is well-formed, and is written with as many
  bytes as it was read from.
* `Ckks.Ciphertext.perform_receive` — the reader with all its checks is the decoder.
* `Ckks.Ciphertext.receive_exact` — all of this for the reader.
-/

namespace CipherMonitor.Ckks.Ciphertext

open CipherMonitor.Poly

/-- The fields of a ciphertext are in their ranges. -/
structure ValidFields (degree size level logQ : ℕ) (scale : Float) : Prop where
  isPowerOfTwo : degree.isPowerOfTwo
  degree_le : degree ≤ 2 ^ 17
  size_pos : 1 ≤ size
  size_le : size ≤ 3
  logQ_pos : 0 < logQ
  logQ_le : logQ ≤ 4096
  level_lt : level < logQ
  isFinite : scale.isFinite
  scale_pos : scale > 0.0

/-- The fields are in their ranges, and the polynomials have the ring degree and are reduced. -/
structure WellFormed (c : Ciphertext) : Prop where
  fields : ValidFields c.degree c.size c.level c.logQ c.scale
  polys : ∀ p ∈ c.polys, p.IsReduced c.degree c.logQ

variable {c : Ciphertext} {h : Header} {bytes rest : List UInt8}

/-! ### The fields -/

/-- The bytes of the fields in front of the payload. -/
def Header.toBytes (h : Header) : List UInt8 :=
  Bytes.ofNat 8 h.degree ++ Bytes.ofNat 8 h.size ++ Bytes.ofNat 8 h.level ++ Bytes.ofNat 4 h.logQ ++
    Bytes.ofNat 8 h.scale.toBits.toNat ++ Bytes.ofNat 8 h.payload

/-- The fields in front of the payload of a ciphertext. -/
def header (c : Ciphertext) : Header :=
  { degree := c.degree, size := c.size, level := c.level, logQ := c.logQ, scale := c.scale,
    payload := c.payload.length }

theorem toBytes_eq (c : Ciphertext) : c.toBytes = c.header.toBytes ++ c.payload := rfl

@[simp] theorem Header.length_toBytes (h : Header) : h.toBytes.length = 44 := by
  simp [Header.toBytes]

/-- The numbers of a header fit into their fields. -/
structure Header.Fits (h : Header) : Prop where
  degree_lt : h.degree < 256 ^ 8
  size_lt : h.size < 256 ^ 8
  level_lt : h.level < 256 ^ 8
  logQ_lt : h.logQ < 256 ^ 4
  payload_lt : h.payload < 256 ^ 8

theorem run_decodeHeader_toBytes (hfits : h.Fits) (rest : List UInt8) :
    decodeHeader.run (h.toBytes ++ rest) = .ok (h, rest) := by
  have hscale : h.scale.toBits.toNat < 256 ^ 8 := h.scale.toBits.toNat_lt
  have hbits : Float.ofBits (UInt64.ofNat h.scale.toBits.toNat) = h.scale := by
    rw [UInt64.ofNat_toNat, Float.ofBits_toBits]
  unfold decodeHeader Header.toBytes
  simp only [List.append_assoc]
  rw [Decoder.run_bind_of_ok (Decoder.field_ofNat hfits.degree_lt _),
    Decoder.run_bind_of_ok (Decoder.field_ofNat hfits.size_lt _),
    Decoder.run_bind_of_ok (Decoder.field_ofNat hfits.level_lt _),
    Decoder.run_bind_of_ok (Decoder.field_ofNat hfits.logQ_lt _),
    Decoder.run_bind_of_ok (Decoder.field_ofNat hscale _),
    Decoder.run_bind_of_ok (Decoder.field_ofNat hfits.payload_lt _), hbits]
  rfl

/-- A header is read from the first 44 bytes. -/
theorem length_of_decodeHeader (hrun : decodeHeader.run bytes = .ok (h, rest)) :
    ∃ front, front.length = 44 ∧ bytes = front ++ rest := by
  unfold decodeHeader at hrun
  simp only [Decoder.run_bind_eq_ok_iff, Decoder.run_field_eq_ok_iff,
    Decoder.run_pure_eq_ok_iff] at hrun
  obtain ⟨degree, _, ⟨-, rfl⟩, size, _, ⟨-, rfl⟩, level, _, ⟨-, rfl⟩, logQ, _, ⟨-, rfl⟩,
    scale, _, ⟨-, rfl⟩, payload, _, ⟨-, rfl⟩, -, rfl⟩ := hrun
  refine ⟨Bytes.ofNat 8 degree ++ Bytes.ofNat 8 size ++ Bytes.ofNat 8 level ++ Bytes.ofNat 4 logQ ++
    Bytes.ofNat 8 scale ++ Bytes.ofNat 8 payload, by simp, by simp⟩

theorem Header.fieldFlaw?_eq_none_iff :
    h.fieldFlaw? = none ↔ ValidFields h.degree h.size h.level h.logQ h.scale := by
  unfold Header.fieldFlaw? maxRingDegree maxSize maxLogQ
  constructor
  · intro hnone
    split_ifs at hnone with hdegree hsize hlevel hscale
    rw [not_or, not_not, not_lt] at hdegree
    exact
      { isPowerOfTwo := hdegree.1
        degree_le := hdegree.2
        size_pos := by omega
        size_le := by omega
        logQ_pos := by omega
        logQ_le := by omega
        level_lt := by omega
        isFinite := hscale.1
        scale_pos := hscale.2 }
  · intro hvalid
    have := hvalid.size_pos
    have := hvalid.size_le
    have := hvalid.logQ_pos
    have := hvalid.logQ_le
    have := hvalid.level_lt
    rw [if_neg (not_or.2 ⟨not_not.2 hvalid.isPowerOfTwo, not_lt.2 hvalid.degree_le⟩),
      if_neg (by omega), if_neg (by omega), if_neg (not_not.2 ⟨hvalid.isFinite, hvalid.scale_pos⟩)]

theorem Header.flaw?_eq_none_iff :
    h.flaw? = none ↔ ValidFields h.degree h.size h.level h.logQ h.scale ∧
      h.payload = h.polyBytes * h.size := by
  rw [← fieldFlaw?_eq_none_iff]
  unfold Header.flaw?
  cases h.fieldFlaw? <;> simp

/-! ### The payload -/

theorem ValidFields.coeffBytes_le {degree size level logQ : ℕ} {scale : Float}
    (hvalid : ValidFields degree size level logQ scale) : coeffBytes logQ ≤ 512 := by
  have := hvalid.logQ_le
  unfold coeffBytes
  omega

theorem Header.polyBytes_le (hvalid : ValidFields h.degree h.size h.level h.logQ h.scale) :
    h.polyBytes ≤ 2 ^ 17 * 512 :=
  Nat.mul_le_mul hvalid.degree_le hvalid.coeffBytes_le

theorem Header.polyBytes_pos (hvalid : ValidFields h.degree h.size h.level h.logQ h.scale) :
    0 < h.polyBytes := by
  obtain ⟨k, hk⟩ := hvalid.isPowerOfTwo
  have hdegree : 0 < h.degree := by rw [hk]; positivity
  exact Nat.mul_pos hdegree (coeffBytes_pos hvalid.logQ_pos)

@[simp] theorem Header.length_polys (h : Header) (count : ℕ) (bytes : List UInt8) :
    (h.polys count bytes).length = count := by
  induction count generalizing bytes with
  | zero => rfl
  | succ count ih => simp [Header.polys, ih]

theorem Header.isReduced_polys {count : ℕ} :
    ∀ p ∈ h.polys count bytes, p.IsReduced h.degree h.logQ := by
  induction count generalizing bytes with
  | zero => simp [Header.polys]
  | succ count ih =>
    rw [Header.polys, List.forall_mem_cons]
    exact ⟨isReduced_coeffsOfBytes _ _ _ _, ih⟩

/-- Reduced polynomials are read back from their bytes. -/
theorem Header.polys_flatMap {ps : List (Poly ℤ)}
    (hps : ∀ p ∈ ps, p.IsReduced h.degree h.logQ) :
    h.polys ps.length (ps.flatMap fun p => p.toBytes h.logQ) = ps := by
  induction ps with
  | nil => rfl
  | cons p ps ih =>
    rw [List.forall_mem_cons] at hps
    have hlen : (p.toBytes h.logQ).length = h.polyBytes := by
      rw [Poly.length_toBytes, hps.1.size_eq, Header.polyBytes]
    rw [List.flatMap_cons, List.length_cons, Header.polys, coeffsOfBytes_toBytes hps.1,
      List.drop_left' hlen, ih hps.2]

theorem WellFormed.length_payload (hc : c.WellFormed) :
    c.payload.length = c.header.polyBytes * c.size := by
  show (c.polys.flatMap fun p => p.toBytes c.logQ).length =
    c.degree * coeffBytes c.logQ * c.polys.length
  have hps := hc.polys
  generalize c.polys = ps at hps ⊢
  induction ps with
  | nil => rfl
  | cons p ps ih =>
    rw [List.forall_mem_cons] at hps
    rw [List.flatMap_cons, List.length_append, ih hps.2, Poly.length_toBytes, hps.1.size_eq,
      List.length_cons]
    ring

/-! ### Both directions -/

/-- The ciphertext of a header and a payload. -/
def Header.ciphertext (h : Header) (payload : List UInt8) : Ciphertext :=
  { polys := h.polys h.size payload, level := h.level, logQ := h.logQ, scale := h.scale }

/-- A decoder first reads the fields, then checks them, then cuts the payload. -/
theorem run_decode (bytes : List UInt8) :
    decode.run bytes =
      match decodeHeader.run bytes with
      | .error e => .error e
      | .ok (h, rest) =>
        match h.flaw? with
        | some flaw => .error (.invalidData flaw)
        | none =>
          if (rest.take h.payload).length ≠ h.payload then
            .error (.shortPayload (rest.take h.payload).length h.payload)
          else .ok (h.ciphertext (rest.take h.payload), rest.drop h.payload) := by
  unfold decode
  rcases hheader : decodeHeader.run bytes with e | ⟨h, rest⟩
  · rw [StateT.run_bind, hheader]
    rfl
  · rw [Decoder.run_bind_of_ok hheader]
    cases hflaw : h.flaw? with
    | some flaw =>
      simp only [hflaw]
      rfl
    | none =>
      simp only [hflaw]
      rw [Decoder.run_bind_of_ok (rfl : (Decoder.upTo h.payload).run rest = _)]
      by_cases hshort : (rest.take h.payload).length ≠ h.payload
      · rw [if_pos hshort, if_pos hshort]
        rfl
      · rw [if_neg hshort, if_neg hshort]
        rfl

theorem WellFormed.fits (hc : c.WellFormed) : c.header.Fits where
  degree_lt := lt_of_le_of_lt hc.fields.degree_le (by decide)
  size_lt := lt_of_le_of_lt hc.fields.size_le (by decide)
  level_lt := (hc.fields.level_lt.trans_le hc.fields.logQ_le).trans (by decide)
  logQ_lt := lt_of_le_of_lt hc.fields.logQ_le (by decide)
  payload_lt := by
    have hle : c.header.polyBytes * c.size ≤ 2 ^ 17 * 512 * 3 :=
      Nat.mul_le_mul (Header.polyBytes_le (h := c.header) hc.fields) hc.fields.size_le
    show c.payload.length < _
    rw [hc.length_payload]
    exact lt_of_le_of_lt hle (by decide)

/-- A well-formed ciphertext is read back, and what follows its bytes is left. -/
theorem run_decode_toBytes (hc : c.WellFormed) (rest : List UInt8) :
    decode.run (c.toBytes ++ rest) = .ok (c, rest) := by
  have hflaw : c.header.flaw? = none :=
    Header.flaw?_eq_none_iff.2 ⟨hc.fields, hc.length_payload⟩
  have htake : (c.payload ++ rest).take c.header.payload = c.payload := List.take_left' rfl
  have hdrop : (c.payload ++ rest).drop c.header.payload = rest := List.drop_left' rfl
  have hpolys : c.header.polys c.size c.payload = c.polys := Header.polys_flatMap hc.polys
  rw [run_decode, toBytes_eq, List.append_assoc, run_decodeHeader_toBytes hc.fits]
  simp only [hflaw, htake, hdrop]
  rw [if_neg (by rw [not_not]; rfl)]
  show Except.ok ({ polys := c.header.polys c.size c.payload, .. : Ciphertext }, rest) = _
  rw [hpolys]
  rfl

theorem Header.wellFormed_ciphertext
    (hvalid : ValidFields h.degree h.size h.level h.logQ h.scale) (payload : List UInt8) :
    (h.ciphertext payload).WellFormed ∧ (h.ciphertext payload).degree = h.degree := by
  have hpolys : ∀ p ∈ h.polys h.size payload, p.IsReduced h.degree h.logQ := isReduced_polys
  have hsize : (h.ciphertext payload).size = h.size := h.length_polys _ _
  have hdegree : (h.ciphertext payload).degree = h.degree := by
    obtain ⟨count, hcount⟩ := Nat.exists_eq_add_of_le' hvalid.size_pos
    have hfirst : (h.ciphertext payload).polys = h.polys (count + 1) payload := by
      rw [← hcount]
      rfl
    rw [Ciphertext.degree, hfirst]
    exact (isReduced_coeffsOfBytes _ _ _ _).size_eq
  exact ⟨⟨by rw [hdegree, hsize]; exact hvalid, by rw [hdegree]; exact hpolys⟩, hdegree⟩

/-- What is read is well-formed, and it was read from as many bytes as it is written with. -/
theorem wellFormed_of_decode (hrun : decode.run bytes = .ok (c, rest)) :
    c.WellFormed ∧ ∃ front, bytes = front ++ rest ∧ front.length = c.toBytes.length := by
  rw [run_decode] at hrun
  cases hheader : decodeHeader.run bytes with
  | error e => simp [hheader] at hrun
  | ok result =>
    obtain ⟨h, left⟩ := result
    obtain ⟨front, hfront, rfl⟩ := length_of_decodeHeader hheader
    rw [hheader] at hrun
    cases hflaw : h.flaw? with
    | some flaw => simp [hflaw] at hrun
    | none =>
      obtain ⟨hvalid, hpayload⟩ := Header.flaw?_eq_none_iff.1 hflaw
      simp only [hflaw] at hrun
      split_ifs at hrun with hshort
      obtain ⟨rfl, rfl⟩ := Prod.mk.inj (Except.ok.inj hrun)
      obtain ⟨hc, hdegree⟩ := h.wellFormed_ciphertext hvalid (left.take h.payload)
      have hbytes : (h.ciphertext (left.take h.payload)).payload.length = h.payload := by
        rw [hc.length_payload]
        show (h.ciphertext _).degree * coeffBytes h.logQ * (h.polys _ _).length = _
        rw [hdegree, h.length_polys, hpayload, Header.polyBytes]
      have hsplit : front ++ left = (front ++ left.take h.payload) ++ left.drop h.payload := by
        rw [List.append_assoc, List.take_append_drop]
      refine ⟨hc, front ++ left.take h.payload, hsplit, ?_⟩
      rw [toBytes_eq, List.length_append, List.length_append, Header.length_toBytes, hbytes, hfront,
        not_not.1 hshort]

/-! ### Reading into a register -/

theorem productOr_of_lt {m n : ℕ} (hlt : m * n < 2 ^ 64) (flaw : FormatFlaw) :
    productOr flaw m n = .ok (m * n) := if_pos hlt

/-- The products of the fields fit into machine integers, so the checks are those of the decoder. -/
theorem Header.check_eq (h : Header) :
    h.check = match h.flaw? with
      | some flaw => refuse flaw
      | none => .ok h.polyBytes := by
  unfold Header.check Header.flaw?
  cases hflaw : h.fieldFlaw? with
  | some flaw => rfl
  | none =>
    have hvalid := Header.fieldFlaw?_eq_none_iff.1 hflaw
    have hpoly := Header.polyBytes_le hvalid
    have hpayload : h.polyBytes * h.size ≤ 2 ^ 17 * 512 * 3 := Nat.mul_le_mul hpoly hvalid.size_le
    have hproduct := productOr_of_lt (lt_of_le_of_lt hpoly (by decide)) .polynomialOverflow
    have hexpected := productOr_of_lt (lt_of_le_of_lt hpayload (by decide)) .payloadOverflow
    show (productOr .polynomialOverflow h.degree (coeffBytes h.logQ) >>= _) = _
    rw [hproduct, Outcome.ok_bind]
    show (productOr .payloadOverflow h.polyBytes h.size >>= _) = _
    rw [hexpected, Outcome.ok_bind]
    by_cases hne : h.payload ≠ h.polyBytes * h.size
    · simp only [if_pos hne]
      rfl
    · simp only [if_neg hne]
      rfl

theorem cut_of_length {width count : ℕ} (hwidth : 0 < width) (hlen : bytes.length = width * count) :
    cut width bytes = .ok (pieces width count bytes) := by
  unfold cut
  rw [require_of hwidth, Outcome.ok_bind, hlen, Nat.mul_div_cancel_left _ hwidth]
  rfl

/-- A piece of the right length is a polynomial. -/
theorem Header.polyOf_eq (hvalid : ValidFields h.degree h.size h.level h.logQ h.scale)
    {piece : List UInt8} (hlen : piece.length = h.polyBytes) :
    h.polyOf piece = .ok ⟨(coeffsOfBytes (coeffBytes h.logQ) h.logQ h.degree piece).toArray⟩ := by
  have hlt : h.degree * coeffBytes h.logQ < 2 ^ 64 :=
    lt_of_le_of_lt (Header.polyBytes_le hvalid) (by decide)
  unfold Header.polyOf Poly.Checked.ofBytes ofBytes?
  rw [require_of hlt, require_of (.inr hvalid.logQ_pos), if_pos (by exact hlen)]
  rfl

theorem Header.mapM_polyOf (hvalid : ValidFields h.degree h.size h.level h.logQ h.scale)
    {count : ℕ} (hlen : bytes.length = h.polyBytes * count) :
    (pieces h.polyBytes count bytes).mapM h.polyOf = .ok (h.polys count bytes) := by
  induction count generalizing bytes with
  | zero => rfl
  | succ count ih =>
    have hle : h.polyBytes ≤ bytes.length := by
      rw [hlen, Nat.mul_add]
      omega
    have hrest : (bytes.drop h.polyBytes).length = h.polyBytes * count := by
      rw [List.length_drop, hlen, Nat.mul_add]
      omega
    have hpiece := Header.polyOf_eq hvalid (List.length_take_of_le hle)
    unfold Header.polyBytes at hpiece
    rw [coeffsOfBytes_take] at hpiece
    rw [pieces, List.mapM_cons, Header.polyBytes, hpiece, Outcome.ok_bind, ← Header.polyBytes,
      ih hrest, Outcome.ok_bind, Header.polys]
    rfl

/-- The reader succeeds where the decoder does and stores what the decoder gives; where the decoder
fails it stores nothing. -/
theorem perform_receive (bytes : List UInt8) (c : Ciphertext) :
    (receive bytes).perform c =
      match decode.run bytes with
      | .error e => (.error (.bytes e), c)
      | .ok (c', rest) => (.ok rest, c') := by
  unfold receive
  rw [run_decode, Action.perform_bind, Action.perform_ofOutcome]
  rcases decodeHeader.run bytes with e | ⟨h, left⟩
  · rfl
  · show (Action.ofOutcome h.check >>= _ : Action Ciphertext _).perform c = _
    rw [Action.perform_bind, Action.perform_ofOutcome, h.check_eq]
    cases hflaw : h.flaw? with
    | some flaw =>
      simp only [hflaw]
      rfl
    | none =>
      obtain ⟨hvalid, hpayload⟩ := Header.flaw?_eq_none_iff.1 hflaw
      simp only [hflaw]
      by_cases hshort : (left.take h.payload).length ≠ h.payload
      · simp only [if_pos hshort]
        rfl
      · have hlen := not_not.1 hshort
        have hcut := cut_of_length (Header.polyBytes_pos hvalid) (hlen.trans hpayload)
        have hpolys := Header.mapM_polyOf hvalid (hlen.trans hpayload)
        simp only [if_neg hshort]
        rw [Action.perform_bind, Action.perform_ofOutcome, hcut]
        show (Action.ofOutcome ((pieces _ _ _).mapM h.polyOf) >>= _ :
          Action Ciphertext _).perform c = _
        rw [Action.perform_bind, Action.perform_ofOutcome, hpolys]
        rfl

/-- A well-formed ciphertext is read back exactly, with the bytes after it left; whatever is read is
well-formed and took as many bytes as it is written with; and what is refused leaves the register as
it was.  No precondition is ever broken. -/
theorem receive_exact :
    (∀ c : Ciphertext, c.WellFormed → ∀ (rest : List UInt8) (register : Ciphertext),
      (receive (c.toBytes ++ rest)).perform register = (.ok rest, c)) ∧
    ∀ (bytes : List UInt8) (register : Ciphertext),
      (∃ c front rest, (receive bytes).perform register = (.ok rest, c) ∧ c.WellFormed ∧
        bytes = front ++ rest ∧ front.length = c.toBytes.length) ∨
      ∃ e, (receive bytes).perform register = (.error (.bytes e), register) := by
  constructor
  · intro c hc rest register
    rw [perform_receive, run_decode_toBytes hc]
  · intro bytes register
    rw [perform_receive]
    cases hrun : decode.run bytes with
    | error e => exact .inr ⟨e, rfl⟩
    | ok result =>
      obtain ⟨c, rest⟩ := result
      obtain ⟨hc, front, hbytes, hlen⟩ := wellFormed_of_decode hrun
      exact .inl ⟨c, front, rest, rfl, hc, hbytes, hlen⟩

/-- Two polynomials modulo `X ^ 2 + 1` and a modulus of nine bits. -/
def nineBits : Ciphertext :=
  { polys := [⟨#[511, 0]⟩, ⟨#[256, 3]⟩], level := 1, logQ := 9, scale := 2.0 }

theorem wellFormed_nineBits : nineBits.WellFormed where
  fields :=
    { isPowerOfTwo := ⟨1, rfl⟩
      degree_le := by decide
      size_pos := by decide
      size_le := by decide
      logQ_pos := by decide
      logQ_le := by decide
      level_lt := by decide
      isFinite := by decide +kernel
      scale_pos := by decide +kernel }
  polys := by decide

theorem receive_exact_nineBits :
    nineBits.WellFormed ∧
      (receive (nineBits.toBytes ++ [7, 7])).perform unset = (.ok [7, 7], nineBits) :=
  ⟨wellFormed_nineBits, receive_exact.1 nineBits wellFormed_nineBits [7, 7] unset⟩

end CipherMonitor.Ckks.Ciphertext
