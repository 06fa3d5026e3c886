import CipherMonitor.Ckks.Arithmetic
import CipherMonitor.Proofs.Ckks.Phase

/-!
# Arithmetic on ciphertexts is arithmetic on phases

Whenever an operation succeeds on reduced ciphertexts, its result decrypts to the same operation on
their values, in the ring of negacyclic polynomials modulo the modulus of the level.

* `Ckks.Ciphertext.atSecret_zipLong` — sums and differences of ciphertexts of different sizes.
* `Ckks.Ciphertext.square_eq_multiply` — the square is the product with itself.
* `Ckks.Ciphertext.decrypt_arithmetic` — all operations.
-/

namespace CipherMonitor.Ckks.Ciphertext

open CipherMonitor.Poly

variable {s : Secret} {logQ n : ℕ} {a b c : Ciphertext}

/-! ### Ciphertexts of different sizes -/

theorem isReduced_zipLong {f : Poly ℤ → Poly ℤ → Poly ℤ}
    (hf : ∀ p q, p.IsReduced n logQ → q.IsReduced n logQ → (f p q).IsReduced n logQ)
    {ps qs : List (Poly ℤ)} (hp : ∀ p ∈ ps, p.IsReduced n logQ)
    (hq : ∀ q ∈ qs, q.IsReduced n logQ) : ∀ r ∈ zipLong f ps qs, r.IsReduced n logQ := by
  induction ps generalizing qs with
  | nil => cases qs <;> simp [zipLong]
  | cons p ps ih =>
    cases qs with
    | nil => simpa [zipLong] using hp
    | cons q qs =>
      simp only [List.forall_mem_cons] at hp hq
      simp only [zipLong, List.forall_mem_cons]
      exact ⟨hf p q hp.1 hq.1, ih hp.2 hq.2⟩

/-- Combining polynomials in pairs by `p + k * q` adds `k` times the value of the second list, which
is not the longer one. -/
theorem atSecret_zipLong {f : Poly ℤ → Poly ℤ → Poly ℤ} {k : NegacyclicRing s.degree logQ}
    (hf : ∀ p q, p.IsReduced s.degree logQ → q.IsReduced s.degree logQ →
      (f p q).residue s.degree logQ = p.residue s.degree logQ + k * q.residue s.degree logQ)
    {ps qs : List (Poly ℤ)} (hp : ∀ p ∈ ps, p.IsReduced s.degree logQ)
    (hq : ∀ q ∈ qs, q.IsReduced s.degree logQ) (hlen : qs.length ≤ ps.length) :
    atSecret s logQ (zipLong f ps qs) = atSecret s logQ ps + k * atSecret s logQ qs := by
  induction ps generalizing qs with
  | nil =>
    obtain rfl := List.eq_nil_of_length_eq_zero (Nat.le_zero.1 hlen)
    simp [zipLong]
  | cons p ps ih =>
    cases qs with
    | nil => simp [zipLong]
    | cons q qs =>
      simp only [List.forall_mem_cons] at hp hq
      rw [zipLong, atSecret_cons, atSecret_cons, atSecret_cons, hf p q hp.1 hq.1,
        ih hp.2 hq.2 (by simpa using hlen)]
      ring

theorem length_zipLong (f : Poly ℤ → Poly ℤ → Poly ℤ) {ps qs : List (Poly ℤ)}
    (h : qs.length ≤ ps.length) : (zipLong f ps qs).length = ps.length := by
  induction ps generalizing qs with
  | nil =>
    obtain rfl := List.eq_nil_of_length_eq_zero (Nat.le_zero.1 h)
    rfl
  | cons p ps ih =>
    cases qs with
    | nil => rfl
    | cons q qs => simp [zipLong, ih (by simpa using h)]

theorem isReduced_addMod {p q : Poly ℤ} (hp : p.IsReduced n logQ) (hq : q.IsReduced n logQ) :
    (p.addMod q logQ).IsReduced n logQ :=
  isReduced_reduce (by simp [hp.size_eq, hq.size_eq])

theorem isReduced_subMod {p q : Poly ℤ} (hp : p.IsReduced n logQ) (hq : q.IsReduced n logQ) :
    (p.subMod q logQ).IsReduced n logQ :=
  isReduced_reduce (by simp [hp.size_eq, hq.size_eq])

theorem isReduced_mulMod {p q : Poly ℤ} (hp : p.IsReduced n logQ) (hq : q.IsReduced n logQ) :
    (p.mulMod q logQ).IsReduced n logQ :=
  isReduced_reduce ((size_mul (hp.size_eq.trans hq.size_eq.symm)).trans hp.size_eq)

/-- A sum of reduced lists, the longer one first. -/
theorem decryptsTo_sum {long short : Ciphertext} (hl : long.IsReduced s.degree logQ)
    (hs : short.IsReduced s.degree logQ) (hlen : short.size ≤ long.size) :
    DecryptsTo s logQ
      { long with polys := zipLong (fun p q => p.addMod q logQ) long.polys short.polys }
      (long.value s logQ + short.value s logQ) := by
  have hvalue := atSecret_zipLong (f := fun p q => p.addMod q logQ) (k := 1)
    (fun p q hp hq => by rw [residue_addMod hp.size_eq hq.size_eq, one_mul]) hl.polys hs.polys hlen
  rw [one_mul] at hvalue
  rw [value, value, ← hvalue]
  refine decryptsTo_of_polys hl.logQ_eq ?_
    (isReduced_zipLong (fun p q => isReduced_addMod) hl.polys hs.polys)
  rw [← List.length_pos_iff, length_zipLong _ hlen]
  exact hl.size_pos

theorem decryptsTo_add (ha : a.IsReduced s.degree logQ) (hb : b.IsReduced s.degree logQ)
    (h : a.add b = .ok c) : c.DecryptsTo s logQ (a.value s logQ + b.value s logQ) := by
  obtain ⟨-, -, h⟩ := Outcome.bind_eq_ok_iff.1 h
  obtain ⟨-, -, h⟩ := Outcome.bind_eq_ok_iff.1 h
  rw [ha.logQ_eq] at h
  -- The longer operand comes first, and the sum has its level and scale.
  split_ifs at h with hle
  · obtain rfl := Outcome.pure_eq_ok_iff.1 h
    exact decryptsTo_sum ha hb hle
  · obtain rfl := Outcome.pure_eq_ok_iff.1 h
    rw [add_comm]
    exact decryptsTo_sum hb ha (Nat.le_of_not_le hle)

theorem decryptsTo_sub (ha : a.IsReduced s.degree logQ) (hb : b.IsReduced s.degree logQ)
    (h : a.sub b = .ok c) : c.DecryptsTo s logQ (a.value s logQ - b.value s logQ) := by
  obtain ⟨-, -, h⟩ := Outcome.bind_eq_ok_iff.1 h
  obtain ⟨-, -, h⟩ := Outcome.bind_eq_ok_iff.1 h
  obtain rfl := Outcome.pure_eq_ok_iff.1 h
  have hdegree : b.degree = s.degree := by
    cases hc : b.polys with
    | nil => exact absurd hc hb.ne_nil
    | cons p ps =>
      rw [degree, hc]
      exact (hb.polys p (by simp [hc])).size_eq
  -- Zeros behind the first operand let the tail of the second one be negated.
  have hpadded : ∀ p ∈ a.polys ++ List.replicate (b.size - a.size) (Poly.zero b.degree),
      p.IsReduced s.degree logQ := by
    intro p hp
    rcases List.mem_append.1 hp with hp | hp
    · exact ha.polys p hp
    · rw [List.eq_of_mem_replicate hp, hdegree]
      exact isReduced_zero
  have hlen : b.polys.length ≤
      (a.polys ++ List.replicate (b.size - a.size) (Poly.zero b.degree)).length := by
    simp only [List.length_append, List.length_replicate, size]
    omega
  have hvalue := atSecret_zipLong (f := fun p q => p.subMod q logQ) (k := -1)
    (fun p q hp hq => by rw [residue_subMod hp.size_eq hq.size_eq]; ring) hpadded hb.polys hlen
  rw [atSecret_append_zeros, neg_one_mul, ← sub_eq_add_neg] at hvalue
  rw [value, value, ← hvalue, ha.logQ_eq]
  refine decryptsTo_of_polys rfl ?_
    (isReduced_zipLong (fun p q => isReduced_subMod) hpadded hb.polys)
  rw [← List.length_pos_iff, length_zipLong _ hlen]
  exact hb.size_pos.trans hlen

/-! ### One ciphertext -/

/-- Multiplying every polynomial by one factor multiplies the value. -/
theorem atSecret_map {f : Poly ℤ → Poly ℤ} {k : NegacyclicRing s.degree logQ} {ps : List (Poly ℤ)}
    (hf : ∀ p ∈ ps, (f p).residue s.degree logQ = k * p.residue s.degree logQ) :
    atSecret s logQ (ps.map f) = k * atSecret s logQ ps := by
  induction ps with
  | nil => simp
  | cons p ps ih =>
    simp only [List.forall_mem_cons] at hf
    rw [List.map_cons, atSecret_cons, atSecret_cons, hf.1, ih hf.2]
    ring

theorem decryptsTo_negate (ha : a.IsReduced s.degree logQ) :
    a.negate.DecryptsTo s logQ (-a.value s logQ) := by
  have hvalue : atSecret s logQ (a.polys.map (·.negMod logQ)) = -1 * atSecret s logQ a.polys :=
    atSecret_map fun p _ => by rw [residue_negMod]; ring
  rw [value, ← neg_one_mul, ← hvalue, negate, ha.logQ_eq]
  refine decryptsTo_of_polys rfl (by simpa using ha.ne_nil) ?_
  simp only [List.forall_mem_map]
  exact fun p hp => isReduced_reduce (by simpa using (ha.polys p hp).size_eq)

variable {t : Plaintext}

/-- An operation on the first polynomial and the plaintext. -/
theorem decryptsTo_withFirst {f : Poly ℤ → Poly ℤ → ℕ → Poly ℤ} {k : NegacyclicRing s.degree logQ}
    (hred : ∀ p, p.IsReduced s.degree logQ → (f p t.poly logQ).IsReduced s.degree logQ)
    (hf : ∀ p, p.IsReduced s.degree logQ →
      (f p t.poly logQ).residue s.degree logQ = p.residue s.degree logQ + k)
    (ha : a.IsReduced s.degree logQ) (h : withFirst f a t = .ok c) :
    c.DecryptsTo s logQ (a.value s logQ + k) := by
  obtain ⟨-, -, h⟩ := Outcome.bind_eq_ok_iff.1 h
  cases hp : a.polys with
  | nil => exact absurd hp ha.ne_nil
  | cons p ps =>
    rw [hp] at h
    obtain ⟨-, -, h⟩ := Outcome.bind_eq_ok_iff.1 h
    obtain rfl := Outcome.pure_eq_ok_iff.1 h
    have hmem := ha.polys
    rw [hp, List.forall_mem_cons] at hmem
    have hvalue : atSecret s logQ (f p t.poly logQ :: ps) = a.value s logQ + k := by
      rw [value, hp, atSecret_cons, atSecret_cons, hf p hmem.1]
      ring
    rw [← hvalue, ha.logQ_eq]
    refine decryptsTo_of_polys rfl (by simp) ?_
    exact List.forall_mem_cons.2 ⟨hred p hmem.1, hmem.2⟩

theorem decryptsTo_multiplyPlain (ha : a.IsReduced s.degree logQ)
    (ht : t.poly.IsReduced s.degree logQ) (h : a.multiplyPlain t = .ok c) :
    c.DecryptsTo s logQ (t.poly.residue s.degree logQ * a.value s logQ) := by
  unfold multiplyPlain at h
  split_ifs at h
  obtain ⟨-, -, h⟩ := Outcome.bind_eq_ok_iff.1 h
  obtain rfl := Outcome.pure_eq_ok_iff.1 h
  have hvalue : atSecret s logQ (a.polys.map fun p => t.poly.mulMod p logQ) =
      t.poly.residue s.degree logQ * atSecret s logQ a.polys :=
    atSecret_map fun p hp => residue_mulMod ht.size_eq (ha.polys p hp).size_eq
  rw [value, ← hvalue, ha.logQ_eq]
  refine decryptsTo_of_polys rfl (by simpa using ha.ne_nil) ?_
  simp only [List.forall_mem_map]
  exact fun p hp => isReduced_mulMod ht (ha.polys p hp)

/-! ### Products -/

theorem decryptsTo_multiply (ha : a.IsReduced s.degree logQ) (hb : b.IsReduced s.degree logQ)
    (h : a.multiply b = .ok c) : c.DecryptsTo s logQ (a.value s logQ * b.value s logQ) := by
  unfold multiply at h
  split_ifs at h
  split at h
  case h_1 a0 a1 b0 b1 hpa hpb =>
    obtain ⟨-, -, h⟩ := Outcome.bind_eq_ok_iff.1 h
    obtain rfl := Outcome.pure_eq_ok_iff.1 h
    have ha' := ha.polys
    have hb' := hb.polys
    simp only [hpa, hpb, List.forall_mem_cons] at ha' hb'
    obtain ⟨h0, h1, -⟩ := ha'
    obtain ⟨k0, k1, -⟩ := hb'
    have hcross := isReduced_addMod (isReduced_mulMod h0 k1) (isReduced_mulMod h1 k0)
    have hvalue : atSecret s logQ [a0.mulMod b0 logQ,
        (a0.mulMod b1 logQ).addMod (a1.mulMod b0 logQ) logQ, a1.mulMod b1 logQ] =
          a.value s logQ * b.value s logQ := by
      rw [value, value, hpa, hpb]
      simp only [atSecret_cons, atSecret_nil,
        residue_addMod (isReduced_mulMod h0 k1).size_eq (isReduced_mulMod h1 k0).size_eq,
        residue_mulMod h0.size_eq k0.size_eq, residue_mulMod h0.size_eq k1.size_eq,
        residue_mulMod h1.size_eq k0.size_eq, residue_mulMod h1.size_eq k1.size_eq]
      ring
    rw [← hvalue, ha.logQ_eq]
    refine decryptsTo_of_polys rfl (by simp) ?_
    simp only [List.forall_mem_cons]
    exact ⟨isReduced_mulMod h0 k0, hcross, isReduced_mulMod h1 k1, by simp⟩
  case h_2 => cases h
  case h_3 => cases h

/-- The square is the product with itself, also in its scale and in its failures. -/
theorem square_eq_multiply (ha : a.IsReduced n logQ) : a.square = a.multiply a := by
  unfold square multiply
  rw [if_neg (by simp)]
  split
  case h_1 a0 a1 hpa =>
    have ha' := ha.polys
    simp only [hpa, List.forall_mem_cons] at ha'
    obtain ⟨h0, h1, -⟩ := ha'
    -- Both cross terms are reduced, so it is enough that they represent the same element.
    have hcross : (a0.mulMod a1 logQ).scaleMod 2 logQ =
        (a0.mulMod a1 logQ).addMod (a1.mulMod a0 logQ) logQ := by
      have hm := isReduced_mulMod h0 h1
      have hm' := isReduced_mulMod h1 h0
      refine (isReduced_reduce (by simpa using hm.size_eq)).ext (isReduced_addMod hm hm') ?_
      rw [← scaleMod, residue_scaleMod, residue_addMod hm.size_eq hm'.size_eq,
        residue_mulMod h0.size_eq h1.size_eq, residue_mulMod h1.size_eq h0.size_eq]
      push_cast
      ring
    simp only [hpa, ha.logQ_eq, hcross, sameSize]
    rfl
  case h_2 ps hps =>
    split
    · exact absurd ‹_› (hps _ _)
    · exact absurd ‹_› (hps _ _)
    · rfl

/-- Whenever an operation succeeds on reduced operands, its result decrypts to the same operation on
what the operands decrypt to; the square is the product with itself. -/
theorem decrypt_arithmetic (ha : a.IsReduced s.degree logQ) (hb : b.IsReduced s.degree logQ)
    (ht : t.poly.IsReduced s.degree logQ) :
    a.DecryptsTo s logQ (a.value s logQ) ∧ b.DecryptsTo s logQ (b.value s logQ) ∧
    (∀ c, a.add b = .ok c → c.DecryptsTo s logQ (a.value s logQ + b.value s logQ)) ∧
    (∀ c, a.sub b = .ok c → c.DecryptsTo s logQ (a.value s logQ - b.value s logQ)) ∧
    a.negate.DecryptsTo s logQ (-a.value s logQ) ∧
    (∀ c, a.addPlain t = .ok c →
      c.DecryptsTo s logQ (a.value s logQ + t.poly.residue s.degree logQ)) ∧
    (∀ c, a.subPlain t = .ok c →
      c.DecryptsTo s logQ (a.value s logQ - t.poly.residue s.degree logQ)) ∧
    (∀ c, a.multiplyPlain t = .ok c →
      c.DecryptsTo s logQ (t.poly.residue s.degree logQ * a.value s logQ)) ∧
    (∀ c, a.multiply b = .ok c → c.DecryptsTo s logQ (a.value s logQ * b.value s logQ)) ∧
    a.square = a.multiply a := by
  refine ⟨decryptsTo_value ha, decryptsTo_value hb, fun _ => decryptsTo_add ha hb,
    fun _ => decryptsTo_sub ha hb, decryptsTo_negate ha, fun _ => ?_, fun _ => ?_,
    fun _ => decryptsTo_multiplyPlain ha ht, fun _ => decryptsTo_multiply ha hb,
    square_eq_multiply ha⟩
  · exact decryptsTo_withFirst (fun p hp => isReduced_addMod hp ht)
      (fun p hp => residue_addMod hp.size_eq ht.size_eq) ha
  · rw [sub_eq_add_neg]
    exact decryptsTo_withFirst (fun p hp => isReduced_subMod hp ht)
      (fun p hp => by rw [residue_subMod hp.size_eq ht.size_eq, sub_eq_add_neg]) ha

/-- A ciphertext of one polynomial. -/
def shortSample : Ciphertext := { polys := [⟨#[3, 14]⟩], level := 1, logQ := 4, scale := 2.0 }

/-- A ciphertext of two polynomials. -/
def freshSample : Ciphertext :=
  { polys := [⟨#[15, 1]⟩, ⟨#[7, 8]⟩], level := 1, logQ := 4, scale := 2.0 }

/-- A difference whose second operand is longer, and a product. -/
theorem decrypt_arithmetic_samples :
    let s : Secret := ⟨#[1, -1]⟩
    shortSample.IsReduced 2 4 ∧ freshSample.IsReduced 2 4 ∧
    (∃ c, shortSample.sub freshSample = .ok c ∧
      c.DecryptsTo s 4 (shortSample.value s 4 - freshSample.value s 4)) ∧
    ∃ c, freshSample.square = .ok c ∧
      c.DecryptsTo s 4 (freshSample.value s 4 * freshSample.value s 4) := by
  have hshort : shortSample.IsReduced 2 4 := by decide
  have hfresh : freshSample.IsReduced 2 4 := by decide
  have ht : (⟨#[1, 2]⟩ : Poly ℤ).IsReduced 2 4 := by decide
  obtain ⟨-, -, -, hsub, -⟩ := decrypt_arithmetic (s := ⟨#[1, -1]⟩)
    (t := { poly := ⟨#[1, 2]⟩, level := 1, logQ := 4, scale := 2.0 }) hshort hfresh ht
  obtain ⟨-, -, -, -, -, -, -, -, hmul, hsquare⟩ := decrypt_arithmetic (s := ⟨#[1, -1]⟩)
    (t := { poly := ⟨#[1, 2]⟩, level := 1, logQ := 4, scale := 2.0 }) hfresh hfresh ht
  exact ⟨hshort, hfresh, ⟨_, rfl, hsub _ rfl⟩, ⟨_, rfl, hmul _ (hsquare ▸ rfl)⟩⟩

end CipherMonitor.Ckks.Ciphertext
