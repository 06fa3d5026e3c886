import CipherMonitor.Proofs.Poly.Residue

/-!
# Polynomials as bytes

The coefficients of a reduced polynomial fit into their bytes, also where the modulus does not end
with a byte; whatever bytes are read, the bits past the modulus are dropped.

* `Poly.length_toBytes` — the number of bytes.
* `Poly.coeffsOfBytes_toBytes` — reduced coefficients are read back.
* `Poly.isReduced_coeffsOfBytes` — what is read is reduced.
-/

namespace CipherMonitor.Poly

variable {n width logQ : ℕ} {p : Poly ℤ} {bytes : List UInt8}

/-- Whole bytes hold all bits of the modulus. -/
theorem two_pow_le_bytes (logQ : ℕ) : 2 ^ logQ ≤ 256 ^ coeffBytes logQ := by
  have hbits : logQ ≤ 8 * coeffBytes logQ := by
    unfold coeffBytes
    omega
  calc 2 ^ logQ ≤ 2 ^ (8 * coeffBytes logQ) := Nat.pow_le_pow_right (by decide) hbits
    _ = 256 ^ coeffBytes logQ := by rw [Nat.pow_mul]

theorem coeffBytes_pos (h : 0 < logQ) : 0 < coeffBytes logQ := by
  unfold coeffBytes
  omega

theorem length_flatMap_ofNat (f : ℤ → ℕ) (l : List ℤ) :
    (l.flatMap fun c => Bytes.ofNat width (f c)).length = l.length * width := by
  induction l with
  | nil => simp
  | cons c l ih =>
    rw [List.flatMap_cons, List.length_append, ih, Bytes.length_ofNat, List.length_cons]
    ring

@[simp] theorem length_toBytes (p : Poly ℤ) (logQ : ℕ) :
    (p.toBytes logQ).length = p.size * coeffBytes logQ := by
  rw [toBytes, length_flatMap_ofNat, Array.length_toList]
  rfl

/-- Reduced coefficients are read back from their bytes. -/
theorem coeffsOfBytes_flatMap {l : List ℤ} (hl : ∀ c ∈ l, 0 ≤ c ∧ c < 2 ^ logQ)
    (rest : List UInt8) :
    coeffsOfBytes (coeffBytes logQ) logQ l.length
      (l.flatMap (fun c => Bytes.ofNat (coeffBytes logQ) c.natAbs) ++ rest) = l := by
  induction l with
  | nil => rfl
  | cons c l ih =>
    obtain ⟨hlo, hhi⟩ := hl c (List.mem_cons_self ..)
    have htail := ih fun d hd => hl d (List.mem_cons_of_mem _ hd)
    have hfits : c.natAbs < 256 ^ coeffBytes logQ := by
      have hnat : c.natAbs < 2 ^ logQ := by zify; rwa [abs_of_nonneg hlo]
      exact hnat.trans_le (two_pow_le_bytes logQ)
    have hlen := Bytes.length_ofNat (coeffBytes logQ) c.natAbs
    have hhead : keepBits (Bytes.toNat (Bytes.ofNat (coeffBytes logQ) c.natAbs)) logQ = c := by
      rw [Bytes.toNat_ofNat_of_lt hfits, Int.natAbs_of_nonneg hlo]
      exact Int.emod_eq_of_lt hlo hhi
    rw [List.flatMap_cons, List.append_assoc, List.length_cons, coeffsOfBytes,
      List.take_left' hlen, List.drop_left' hlen, hhead, htail]

@[simp] theorem length_coeffsOfBytes (width logQ n : ℕ) (bytes : List UInt8) :
    (coeffsOfBytes width logQ n bytes).length = n := by
  induction n generalizing bytes with
  | zero => rfl
  | succ n ih => simp [coeffsOfBytes, ih]

theorem mem_coeffsOfBytes {c : ℤ} (h : c ∈ coeffsOfBytes width logQ n bytes) :
    0 ≤ c ∧ c < 2 ^ logQ := by
  induction n generalizing bytes with
  | zero => cases h
  | succ n ih =>
    rcases List.mem_cons.1 h with rfl | h
    · exact ⟨Int.emod_nonneg _ (by positivity), Int.emod_lt_of_pos _ (by positivity)⟩
    · exact ih h

/-- What is read is reduced, also where the bytes are not. -/
theorem isReduced_coeffsOfBytes (width logQ n : ℕ) (bytes : List UInt8) :
    IsReduced n logQ ⟨(coeffsOfBytes width logQ n bytes).toArray⟩ where
  size_eq := by simp [size]
  range i hi := by
    have hlen : i < (coeffsOfBytes width logQ n bytes).length := by simpa using hi
    have hcoeff : coeff ⟨(coeffsOfBytes width logQ n bytes).toArray⟩ i =
        (coeffsOfBytes width logQ n bytes)[i] := by simp [coeff, hi]
    rw [hcoeff]
    exact mem_coeffsOfBytes (List.getElem_mem hlen)

/-- The bytes past the coefficients do not matter. -/
theorem coeffsOfBytes_take (width logQ n : ℕ) (bytes : List UInt8) :
    coeffsOfBytes width logQ n (bytes.take (n * width)) = coeffsOfBytes width logQ n bytes := by
  induction n generalizing bytes with
  | zero => rfl
  | succ n ih =>
    have hle : min width ((n + 1) * width) = width := by
      rw [Nat.add_mul]
      omega
    have hdrop : (n + 1) * width - width = n * width := by
      rw [Nat.add_mul]
      omega
    simp only [coeffsOfBytes]
    rw [List.take_take, hle, List.drop_take, hdrop, ih]

/-- A reduced polynomial is read back from its bytes. -/
theorem coeffsOfBytes_toBytes (h : p.IsReduced n logQ) (rest : List UInt8) :
    (⟨(coeffsOfBytes (coeffBytes logQ) logQ n (p.toBytes logQ ++ rest)).toArray⟩ : Poly ℤ) = p := by
  have hrange : ∀ c ∈ p.coeffs.toList, 0 ≤ c ∧ c < 2 ^ logQ := by
    intro c hc
    obtain ⟨i, hi, rfl⟩ := List.mem_iff_getElem.1 hc
    have hi' : i < p.size := by simpa [size] using hi
    have hc := h.range i (h.size_eq ▸ hi')
    rwa [coeff_of_lt hi'] at hc
  have hlen : p.coeffs.toList.length = n := by
    rw [Array.length_toList]
    exact h.size_eq
  have hread := coeffsOfBytes_flatMap hrange rest
  rw [hlen] at hread
  rw [toBytes, hread, Array.toArray_toList]

end CipherMonitor.Poly
