import CipherMonitor.Proofs.Bridge.Contract
import CipherMonitor.Proofs.Ggsw.Encryption
import CipherMonitor.Proofs.Glwe.Combination

/-!
# External products and choices

The product of a gadget ciphertext with a ring ciphertext is a sum of rows times digit polynomials.
Where the Fourier transform computes this sum exactly, its phase is the sum of the phases of the rows
times the digits, which is `m` times the phase of the ring ciphertext, up to the rounding of the digits
and the noise of the rows.

* `PreparedGgsw.ScalesBy` — what a prepared ciphertext of an integer is expected to do.
* `Ggsw.operands`, `Ggsw.ExactAt` — what is multiplied, and that the transform is exact for it.
* `Ggsw.externalProduct_eq` — an exact product is the sum of the rows times the digits.
* `Ggsw.Encrypts.distance_contribution_le`, `Ggsw.sum_idealContribution`, `Ggsw.distance_rounded_le` —
  the noise of the rows, the sum without it, and its rounding.
* `Ggsw.Encrypts.distance_externalProduct_le`, `Ggsw.Encrypts.distance_select_le` — the phases of
  products and choices.
* `Ggsw.Encrypts.scalesBy` — the keys of a blind rotation.
* `Ggsw.externalProduct_select` — products and choices, with the checks that they pass.
* `oneOfTwo_exactAt`, `oneOfTwo_scalesBy` — an encryption of one in the ring of degree two whose
  products are all exact, and the noise of its products.
-/

namespace CipherMonitor

open Finset CipherMonitor.Poly Torus

/-! ### Products with an integer -/

namespace PreparedGgsw

/-- The product with a ring ciphertext has `m` times the phase of that ciphertext, up to noise of at
most `eps` in every coefficient. -/
def ScalesBy (t : Fourier) (s : GlweSecret) (eps : ℕ) (c : PreparedGgsw) (m : ℤ) : Prop :=
  ∀ g : Glwe 32, g.OfDegree s.degree → ∃ r, c.externalProductChecked t g = .ok r ∧
    ∀ i < s.degree, distance ((r.phase s).coeff i) (scale ((g.phase s).coeff i) m) ≤ eps

variable {t : Fourier} {s : GlweSecret} {eps : ℕ} {c : PreparedGgsw} {m : ℤ}

theorem ScalesBy.externalProduct (h : c.ScalesBy t s eps m) {g : Glwe 32}
    (hg : g.OfDegree s.degree) : c.fits t g = .ok () ∧ ∀ i < s.degree,
      distance (((c.externalProduct t g).phase s).coeff i) (scale ((g.phase s).coeff i) m) ≤ eps := by
  obtain ⟨r, hr, hdist⟩ := h g hg
  rw [externalProductChecked_eq hg] at hr
  obtain ⟨⟨⟩, hfits, hr⟩ := Outcome.bind_eq_ok_iff.1 hr
  obtain rfl := Outcome.pure_eq_ok_iff.1 hr
  exact ⟨hfits, hdist⟩

theorem ScalesBy.ofDegree (h : c.ScalesBy t s eps m) (g : Glwe 32) :
    (c.externalProduct t g).OfDegree s.degree := by
  obtain ⟨hn, -⟩ := fits_eq_ok_iff.1 (h.externalProduct (Glwe.ofDegree_zero s.degree)).1
  have hdegree : (Glwe.zero s.degree : Glwe 32).degree = s.degree := (Glwe.ofDegree_zero _).1
  rw [← hdegree, ← hn]
  exact ofDegree_externalProduct t c g

end PreparedGgsw

/-! ### Exact products -/

/-- The transform computes the sum of products without an error. -/
def Fourier.Exact (t : Fourier) (pairs : List (Array ℤ × TorusPoly 32)) : Prop :=
  PreparedGgsw.combine t (pairs.map fun (d, p) => (d, t.ofWords p.coeffs)) =
    Poly.sumOfProducts t.n pairs

instance (t : Fourier) (pairs : List (Array ℤ × TorusPoly 32)) : Decidable (t.Exact pairs) :=
  inferInstanceAs (Decidable (_ = _))

namespace Ggsw

variable {t : Fourier} {s : GlweSecret} {c : Ggsw} {g : Glwe 32} {m : ℤ} {noise : ℕ}

/-- What is multiplied: for every digit place the digits of the body with a row of the first half, and
those of the mask with a row of the second half. -/
def operands (c : Ggsw) (g : Glwe 32) : List (Array ℤ × Glwe 32) :=
  (List.range c.gadget.rows).flatMap fun i =>
    [(c.gadget.digitPoly i g.b.coeffs, c.row i),
      (c.gadget.digitPoly i g.a.coeffs, c.row (c.gadget.rows + i))]

/-- A piece of a list, entry by entry. -/
theorem take_drop_eq_map {α : Type} {l : List α} {k n : ℕ} (h : k + n ≤ l.length) (d : α) :
    (l.drop k).take n = (List.range n).map fun i => l.getD (k + i) d := by
  refine List.ext_getElem (by simp; omega) fun i hi _ => ?_
  have hlt : k + i < l.length := by
    rw [List.length_take, List.length_drop] at hi
    omega
  simp [List.getElem?_eq_getElem hlt]

/-- The rows that a prepared ciphertext multiplies are these, transformed. -/
theorem terms_prepare (h : c.rows.length = 2 * c.gadget.rows) (g : Glwe 32) :
    (c.prepare t).terms g = (c.operands g).map fun (d, row) =>
      (d, (t.ofWords row.b.coeffs, t.ofWords row.a.coeffs)) := by
  have hfirst : c.rows.take c.gadget.rows = (List.range c.gadget.rows).map c.row := by
    have := take_drop_eq_map (l := c.rows) (k := 0) (n := c.gadget.rows) (by omega) (Glwe.zero 0)
    rw [List.drop_zero] at this
    simp only [Nat.zero_add] at this
    exact this
  have hsecond : c.rows.drop c.gadget.rows =
      (List.range c.gadget.rows).map fun i => c.row (c.gadget.rows + i) := by
    rw [← List.take_of_length_le (l := c.rows.drop c.gadget.rows) (i := c.gadget.rows)
      (by rw [List.length_drop]; omega)]
    exact take_drop_eq_map (by omega) _
  simp only [PreparedGgsw.terms, prepare, operands, ← List.map_take, ← List.map_drop, hfirst, hsecond,
    Gadget.digitRows_eq, List.map_map, List.zip_map', List.flatMap_map, List.map_flatMap]
  rfl

/-- The transform is exact for both polynomials of an external product. -/
structure ExactAt (t : Fourier) (c : Ggsw) (g : Glwe 32) : Prop where
  body : t.Exact ((c.operands g).map fun (d, row) => (d, row.b))
  mask : t.Exact ((c.operands g).map fun (d, row) => (d, row.a))

/-- An exact external product is the sum of the rows times the digits. -/
theorem externalProduct_eq (hrows : c.rows.length = 2 * c.gadget.rows) (h : c.ExactAt t g) :
    (c.prepare t).externalProduct t g = Glwe.sumOfProducts t.n (c.operands g) := by
  rw [Glwe.sumOfProducts_eq, ← h.body, ← h.mask, PreparedGgsw.externalProduct, terms_prepare hrows]
  simp only [List.map_map]
  rfl

/-! ### The phase of a product -/

/-- The operands belong to the ring of the ciphertext. -/
theorem Encrypts.operands_fit (h : c.Encrypts s m noise) (hg : g.OfDegree s.degree) :
    ∀ x ∈ c.operands g, x.1.size = s.degree ∧ x.2.OfDegree s.degree := by
  intro x hx
  obtain ⟨i, hi, hx⟩ := List.mem_flatMap.1 hx
  rw [List.mem_range] at hi
  simp only [List.mem_cons, List.not_mem_nil, or_false] at hx
  rcases hx with rfl | rfl
  · exact ⟨(Gadget.size_digitPoly ..).trans hg.1, h.ofDegree_row (by omega)⟩
  · exact ⟨(Gadget.size_digitPoly ..).trans hg.2, h.ofDegree_row (by omega)⟩

/-- What the two rows of digit `i` add to coefficient `k` of the phase of a product. -/
def contribution (s : GlweSecret) (c : Ggsw) (g : Glwe 32) (k i : ℕ) : BitVec 32 :=
  (((c.row i).phase s).mulSmall (c.gadget.digitPoly i g.b.coeffs)).coeff k +
    (((c.row (c.gadget.rows + i)).phase s).mulSmall (c.gadget.digitPoly i g.a.coeffs)).coeff k

/-- What they add without noise. -/
def idealContribution (s : GlweSecret) (m : ℤ) (c : Ggsw) (g : Glwe 32) (k i : ℕ) : BitVec 32 :=
  let message := c.gadget.message s.degree m i
  (message.mulSmall (c.gadget.digitPoly i g.b.coeffs)).coeff k +
    ((message.mulSmall (c.gadget.digitPoly i g.a.coeffs)).mulSmall s.coeffs).coeff k

/-- The phase of the sum of the rows times the digits. -/
theorem Encrypts.coeff_phase_sumOfProducts (h : c.Encrypts s m noise) (hg : g.OfDegree s.degree)
    {k : ℕ} (hk : k < s.degree) :
    ((Glwe.sumOfProducts s.degree (c.operands g)).phase s).coeff k =
      ∑ i ∈ range c.gadget.rows, c.contribution s g k i := by
  rw [(Glwe.sumOfProducts_spec rfl (h.operands_fit hg)).2 k hk, operands, List.map_flatMap,
    List.flatMap_def, List.sum_flatten, List.map_map]
  change _ = ((List.range c.gadget.rows).map (c.contribution s g k)).sum
  congr 1
  refine List.map_congr_left fun i _ => ?_
  simp [contribution]

/-- A row of the first half carries its message. -/
theorem Encrypts.distance_body_le (h : c.Encrypts s m noise) {i j : ℕ} (hi : i < c.gadget.rows)
    (hj : j < s.degree) : distance (((c.row i).phase s).coeff j)
      ((c.gadget.message s.degree m i).coeff j) ≤ noise := by
  rw [Gadget.message, coeff_constant hj]
  exact h.body i hi j hj

/-- A row of the second half carries its message times the secret. -/
theorem Encrypts.distance_mask_le (h : c.Encrypts s m noise) {i j : ℕ} (hi : i < c.gadget.rows)
    (hj : j < s.degree) : distance (((c.row (c.gadget.rows + i)).phase s).coeff j)
      (((c.gadget.message s.degree m i).mulSmall s.coeffs).coeff j) ≤ noise := by
  rw [Gadget.message, coeff_constant_mulSmall (n := s.degree) rfl _ hj]
  exact h.mask i hi j hj

/-- The noise of the two rows of a digit, times the digits. -/
theorem Encrypts.distance_contribution_le (h : c.Encrypts s m noise) (hg : g.OfDegree s.degree)
    {i k : ℕ} (hi : i < c.gadget.rows) (hk : k < s.degree) :
    distance (c.contribution s g k i) (c.idealContribution s m g k i) ≤
      2 * (s.degree * (2 ^ c.gadget.base2k / 2) * noise) := by
  have hmessage := Gadget.size_message c.gadget s.degree m i
  have hproduct := (size_mulSmall (c.gadget.message s.degree m i) s.coeffs).trans hmessage
  have hbody : (c.gadget.digitPoly i g.b.coeffs).size = s.degree :=
    (Gadget.size_digitPoly ..).trans hg.1
  have hmask : (c.gadget.digitPoly i g.a.coeffs).size = s.degree :=
    (Gadget.size_digitPoly ..).trans hg.2
  have hfirst := distance_mulSmall_le (Glwe.size_phase (h.ofDegree_row (by omega))) hmessage hbody
    (fun j hj => h.distance_body_le hi hj) hk
  have hsecond := distance_mulSmall_le (Glwe.size_phase (h.ofDegree_row (by omega))) hproduct hmask
    (fun j hj => h.distance_mask_le hi hj) hk
  have hbodyDigits := Gadget.magnitude_digitPoly_le c.gadget i g.b.coeffs
  have hmaskDigits := Gadget.magnitude_digitPoly_le c.gadget i g.a.coeffs
  rw [show g.b.coeffs.size = s.degree from hg.1] at hbodyDigits
  rw [show g.a.coeffs.size = s.degree from hg.2] at hmaskDigits
  -- In the rows the secret comes before the digits of the mask, and in the phase after them.
  rw [contribution, idealContribution, coeff_mulSmall_comm (p := c.gadget.message s.degree m i)
    _ _ (hk.trans_eq hmessage.symm), Nat.two_mul]
  exact (distance_add _ _ _ _).trans (Nat.add_le_add
    (hfirst.trans (Nat.mul_le_mul_right _ hbodyDigits))
    (hsecond.trans (Nat.mul_le_mul_right _ hmaskDigits)))

/-- Without noise, the phase is that of the rounded polynomials, times `m`. -/
theorem sum_idealContribution (m : ℤ) (c : Ggsw) (hg : g.OfDegree s.degree) {k : ℕ} (hk : k < s.degree) :
    ∑ i ∈ range c.gadget.rows, c.idealContribution s m g k i =
      ((c.gadget.roundPoly g.b).scale (BitVec.ofInt 32 m)).coeff k +
        (((c.gadget.roundPoly g.a).scale (BitVec.ofInt 32 m)).mulSmall s.coeffs).coeff k := by
  have hsize : ((c.gadget.roundPoly g.a).scale (BitVec.ofInt 32 m)).size = s.degree := by
    rw [size_scale, Gadget.roundPoly, size_map, hg.2]
  rw [← Gadget.sum_message_mulSmall hg.1 m hk, coeff_mulSmall_sum hsize
    (fun i _ => (size_mulSmall _ _).trans (Gadget.size_message ..))
    (fun j hj => (Gadget.sum_message_mulSmall hg.2 m hj).symm) rfl hk, ← sum_add_distrib]
  rfl

/-- Rounding the two polynomials changes the phase by half of the last weight at most, for the body and
for every unit of the secret. -/
theorem distance_rounded_le (hp : c.gadget.precision ≤ 32) (m : ℤ) (hg : g.OfDegree s.degree) {k : ℕ}
    (hk : k < s.degree) :
    distance (((c.gadget.roundPoly g.b).scale (BitVec.ofInt 32 m)).coeff k +
        (((c.gadget.roundPoly g.a).scale (BitVec.ofInt 32 m)).mulSmall s.coeffs).coeff k)
        (scale ((g.phase s).coeff k) m) ≤
      (1 + magnitude s.coeffs) * (m.natAbs * (2 ^ 32 / 2 ^ (c.gadget.precision + 1))) := by
  have hphase : scale ((g.phase s).coeff k) m = (g.b.scale (BitVec.ofInt 32 m)).coeff k +
      ((g.a.scale (BitVec.ofInt 32 m)).mulSmall s.coeffs).coeff k := by
    rw [Glwe.coeff_phase hg hk, coeff_scale _ (hk.trans_eq hg.1.symm),
      coeff_mulSmall_scale _ hg.2.symm (hk.trans_eq hg.2.symm), Torus.scale, mul_add]
  rw [hphase, Nat.add_mul, Nat.one_mul]
  refine (distance_add _ _ _ _).trans (Nat.add_le_add ?_ ?_)
  · exact Gadget.distance_roundPoly_le hp m (hk.trans_eq hg.1.symm)
  · exact distance_mulSmall_le (by rw [size_scale, Gadget.roundPoly, size_map, hg.2])
      ((size_scale _ _).trans hg.2) rfl
      (fun j hj => Gadget.distance_roundPoly_le hp m (hj.trans_eq hg.2.symm)) hk

/-- The error of a product with an integer: the noise of the rows times the digits, and the rounding to
digits. -/
def productError (g : Gadget) (s : GlweSecret) (m : ℤ) (noise : ℕ) : ℕ :=
  g.rows * (2 * (s.degree * (2 ^ g.base2k / 2) * noise)) +
    (1 + magnitude s.coeffs) * (m.natAbs * (2 ^ 32 / 2 ^ (g.precision + 1)))

/-- The phase of an exact product is `m` times the phase, with a bounded error. -/
theorem Encrypts.distance_externalProduct_le (h : c.Encrypts s m noise) (hp : c.gadget.precision ≤ 32)
    (ht : t.n = s.degree) (hg : g.OfDegree s.degree) (hexact : c.ExactAt t g) {k : ℕ}
    (hk : k < s.degree) :
    distance ((((c.prepare t).externalProduct t g).phase s).coeff k) (scale ((g.phase s).coeff k) m) ≤
      productError c.gadget s m noise := by
  rw [externalProduct_eq h.length_rows hexact, ht, h.coeff_phase_sumOfProducts hg hk]
  refine (distance_triangle _ (∑ i ∈ range c.gadget.rows, c.idealContribution s m g k i) _).trans
    (Nat.add_le_add ?_ ?_)
  · refine (distance_sum _ _ _).trans ((sum_le_sum fun i hi =>
      h.distance_contribution_le hg (mem_range.1 hi) hk).trans_eq ?_)
    rw [sum_const, card_range, smul_eq_mul]
  · rw [sum_idealContribution m c hg hk]
    exact distance_rounded_le hp m hg hk

/-- The error as a fraction. -/
theorem productError_le (g : Gadget) (s : GlweSecret) (m : ℤ) (noise : ℕ) :
    (productError g s m noise : ℚ) ≤
      |m| * (1 + magnitude s.coeffs) * (2 ^ 31 / 2 ^ g.precision) +
        2 * g.rows * s.degree * (2 ^ g.base2k / 2) * noise := by
  have hround := g.half_last_weight_le
  have hdigit := g.half_base_le
  have hm : ((m.natAbs : ℕ) : ℚ) = |m| := by rw [Nat.cast_natAbs]
  calc (productError g s m noise : ℚ)
    _ = 2 * g.rows * s.degree * (2 ^ g.base2k / 2 : ℕ) * noise +
        |m| * (1 + magnitude s.coeffs) * (2 ^ 32 / 2 ^ (g.precision + 1) : ℕ) := by
      rw [productError]
      push_cast [hm]
      ring
    _ ≤ 2 * g.rows * s.degree * (2 ^ g.base2k / 2) * noise +
        |m| * (1 + magnitude s.coeffs) * (2 ^ 31 / 2 ^ g.precision) := by
      gcongr
    _ = _ := add_comm _ _

/-! ### Products and choices -/

/-- The rows are long enough to be transformed. -/
theorem Encrypts.prepareChecked_eq (h : c.Encrypts s m noise) (ht : t.n = s.degree) :
    c.prepareChecked t = .ok (c.prepare t) := by
  refine Outcome.bind_eq_ok_iff.2 ⟨(), Outcome.forM_eq_ok_iff.2 fun row hrow => ?_, rfl⟩
  obtain ⟨hb, ha⟩ := h.ofDegree row hrow
  rw [Fourier.covers, Fourier.covers, require_of (by omega), require_of (by omega)]
  rfl

/-- The operands fit if there is a digit at all. -/
theorem Encrypts.fits_eq_ok_iff (h : c.Encrypts s m noise) (hp : c.gadget.precision ≤ 32)
    (ht : t.n = s.degree) (hg : g.OfDegree s.degree) :
    (c.prepare t).fits t g = .ok () ↔ 0 < c.gadget.rows := by
  have hrows : (c.prepare t).rows ≠ [] ↔ 0 < c.gadget.rows := by
    rw [← List.length_pos_iff, prepare, List.length_map, h.length_rows]
    omega
  have hbase : 0 < c.gadget.rows → c.gadget.base2k < 64 := fun hpos => by
    have hle := (Nat.le_mul_of_pos_right c.gadget.base2k hpos).trans hp
    omega
  have hdegree : t.n = g.degree := ht.trans hg.1.symm
  rw [PreparedGgsw.fits_eq_ok_iff, hrows]
  exact ⟨fun hfits => hfits.2.1, fun hpos =>
    ⟨hdegree, hpos, hdegree, hbase hpos, (hg.2.trans hg.1.symm).le⟩⟩

theorem Encrypts.externalProductChecked_eq_ok_iff (h : c.Encrypts s m noise)
    (hp : c.gadget.precision ≤ 32) (ht : t.n = s.degree) (hg : g.OfDegree s.degree) :
    (c.prepare t).externalProductChecked t g = .ok ((c.prepare t).externalProduct t g) ↔
      0 < c.gadget.rows := by
  rw [PreparedGgsw.externalProductChecked_eq hg, Outcome.check_bind_eq_ok_iff,
    h.fits_eq_ok_iff hp ht hg]
  exact and_iff_left rfl

theorem Encrypts.selectChecked_eq_ok_iff (h : c.Encrypts s m noise)
    (hp : c.gadget.precision ≤ 32) (ht : t.n = s.degree) {c1 c0 : Glwe 32}
    (h1 : c1.OfDegree s.degree) (h0 : c0.OfDegree s.degree) :
    (c.prepare t).selectChecked t c1 c0 = .ok ((c.prepare t).select t c1 c0) ↔
      0 < c.gadget.rows := by
  rw [PreparedGgsw.selectChecked, Glwe.sameSizes_of h1 h0, Outcome.ok_bind,
    Outcome.check_bind_eq_ok_iff, h.fits_eq_ok_iff hp ht h1, require_of (h0.2.trans ht.symm)]
  exact and_iff_left rfl

/-- Where all its products are exact, a gadget ciphertext is what blind rotation expects. -/
theorem Encrypts.scalesBy (h : c.Encrypts s m noise) (hp : c.gadget.precision ≤ 32)
    (hpos : 0 < c.gadget.rows) (ht : t.n = s.degree)
    (hexact : ∀ g : Glwe 32, g.OfDegree s.degree → c.ExactAt t g) :
    (c.prepare t).ScalesBy t s (productError c.gadget s m noise) m := fun g hg =>
  ⟨_, (h.externalProductChecked_eq_ok_iff hp ht hg).2 hpos,
    fun _ hk => h.distance_externalProduct_le hp ht hg (hexact g hg) hk⟩

/-- The phase of an exact choice is off by the error of one product. -/
theorem Encrypts.distance_select_le (h : c.Encrypts s m noise) (hp : c.gadget.precision ≤ 32)
    (ht : t.n = s.degree) {c1 c0 : Glwe 32} (h1 : c1.OfDegree s.degree) (h0 : c0.OfDegree s.degree)
    (hexact : c.ExactAt t (c1.sub c0)) {k : ℕ} (hk : k < s.degree) :
    distance ((((c.prepare t).select t c1 c0).phase s).coeff k)
        (scale ((c1.phase s).coeff k - (c0.phase s).coeff k) m + (c0.phase s).coeff k) ≤
      productError c.gadget s m noise := by
  have hproduct := ht ▸ PreparedGgsw.ofDegree_externalProduct t (c.prepare t) (c1.sub c0)
  have hdist := h.distance_externalProduct_le hp ht (Glwe.ofDegree_sub h1 h0) hexact hk
  rw [Glwe.coeff_phase_sub rfl h1 h0 hk] at hdist
  rwa [PreparedGgsw.select, Glwe.coeff_phase_add rfl hproduct h0 hk, distance_add_right]

/-- Let the rows belong to an integer `m`, with noise of at most `noise` in every coefficient, let the
digits fit the words, and let the tables have the degree of the secret.  Wherever the transform is exact,
the phase of the product with a ring ciphertext is `m` times the phase of this ciphertext, and the choice
by a bit has the phase of the chosen ciphertext, up to the rounding to digits and the noise of the rows
times the digits.  The checks of all three operations pass, those of products and choices if there is a
digit at all. -/
theorem externalProduct_select (h : c.Encrypts s m noise)
    (hp : c.gadget.base2k * c.gadget.rows ≤ 32) (ht : t.n = s.degree) :
    let error : ℚ :=
      |m| * (1 + magnitude s.coeffs) * (2 ^ 31 / 2 ^ (c.gadget.base2k * c.gadget.rows)) +
        2 * c.gadget.rows * s.degree * (2 ^ c.gadget.base2k / 2) * noise
    c.prepareChecked t = .ok (c.prepare t) ∧
    (∀ g : Glwe 32, g.OfDegree s.degree → c.ExactAt t g →
      let r := (c.prepare t).externalProduct t g
      ((c.prepare t).externalProductChecked t g = .ok r ↔ 0 < c.gadget.rows) ∧
      r.OfDegree s.degree ∧
      ∀ k < s.degree,
        distance ((r.phase s).coeff k) (scale ((g.phase s).coeff k) m) ≤ error) ∧
    (∀ c1 c0 : Glwe 32, c1.OfDegree s.degree → c0.OfDegree s.degree → c.ExactAt t (c1.sub c0) →
      let r := (c.prepare t).select t c1 c0
      ((c.prepare t).selectChecked t c1 c0 = .ok r ↔ 0 < c.gadget.rows) ∧
      r.OfDegree s.degree ∧
      ∀ k < s.degree,
        (m = 1 → distance ((r.phase s).coeff k) ((c1.phase s).coeff k) ≤ error) ∧
        (m = 0 → distance ((r.phase s).coeff k) ((c0.phase s).coeff k) ≤ error)) := by
  intro error
  have herror : (productError c.gadget s m noise : ℚ) ≤ error := productError_le c.gadget s m noise
  have hdegree (g : Glwe 32) : ((c.prepare t).externalProduct t g).OfDegree s.degree :=
    ht ▸ PreparedGgsw.ofDegree_externalProduct t (c.prepare t) g
  refine ⟨h.prepareChecked_eq ht, fun g hg hexact => ?_, fun c1 c0 h1 h0 hexact => ?_⟩
  · refine ⟨h.externalProductChecked_eq_ok_iff hp ht hg, hdegree g, fun k hk => ?_⟩
    exact (Nat.cast_le.2 (h.distance_externalProduct_le hp ht hg hexact hk)).trans herror
  · refine ⟨h.selectChecked_eq_ok_iff hp ht h1 h0, Glwe.ofDegree_add (hdegree _) h0, fun k hk => ?_⟩
    have hdist : (distance _ _ : ℚ) ≤ error :=
      (Nat.cast_le.2 (h.distance_select_le hp ht h1 h0 hexact hk)).trans herror
    refine ⟨fun hm => ?_, fun hm => ?_⟩
    · rwa [hm, scale_one, BitVec.sub_add_cancel] at hdist
    · rwa [hm, scale_zero, zero_add] at hdist

/-- Encryptions of zero under a secret of three units, with noise of one unit. -/
def noisyZeros : List (Glwe 32) :=
  [.ofMask ⟨#[1, 0, -1, 1]⟩ (.zero 4) ⟨#[0x12345678, 0x9abcdef0, 7, 0x80000000]⟩ ⟨#[1, -1, 0, 0]⟩,
    .ofMask ⟨#[1, 0, -1, 1]⟩ (.zero 4) ⟨#[0xfeedbeef, 3, 0x40000000, 5]⟩ ⟨#[0, 0, 1, -1]⟩,
    .ofMask ⟨#[1, 0, -1, 1]⟩ (.zero 4) ⟨#[0xffffffff, 0x77777777, 5, 1]⟩ ⟨#[-1, 0, 1, 0]⟩,
    .ofMask ⟨#[1, 0, -1, 1]⟩ (.zero 4) ⟨#[0x27182818, 0xc0000001, 0, 9]⟩ ⟨#[0, 1, 0, -1]⟩]

/-- A one in two digits of eight bits. -/
def noisyOne : Ggsw := ⟨addMessage ⟨8, 2⟩ 1 noisyZeros, ⟨8, 2⟩⟩

/-- The product of a difference with a one, and the choice by this one. -/
theorem externalProduct_select_noisyOne :
    let s : GlweSecret := ⟨#[1, 0, -1, 1]⟩
    let c1 : Glwe 32 := ⟨⟨#[eighth, 0x11223344, 0x87654321, 3]⟩, ⟨#[0xdeadbeef, 0x0badf00d, 1, 2]⟩⟩
    let c0 : Glwe 32 := ⟨⟨#[-eighth, 0x55667788, 0x7fffffff, 5]⟩, ⟨#[0x01234567, 9, 0xffff0000, 2]⟩⟩
    let g := c1.sub c0
    let key := noisyOne.prepare tablesOfFour
    noisyOne.Encrypts s 1 1 ∧ noisyOne.ExactAt tablesOfFour g ∧
      noisyOne.prepareChecked tablesOfFour = .ok key ∧
      key.externalProductChecked tablesOfFour g = .ok (key.externalProduct tablesOfFour g) ∧
      key.selectChecked tablesOfFour c1 c0 = .ok (key.select tablesOfFour c1 c0) ∧
      ∀ k < 4,
        distance (((key.externalProduct tablesOfFour g).phase s).coeff k) ((g.phase s).coeff k) ≤
          2 ^ 17 + 2 ^ 11 ∧
        distance (((key.select tablesOfFour c1 c0).phase s).coeff k) ((c1.phase s).coeff k) ≤
          2 ^ 17 + 2 ^ 11 := by
  intro s c1 c0 g key
  have hzeros : ∀ row ∈ noisyZeros, (row.b.size = 4 ∧ row.a.size = 4) ∧
      ∀ j < 4, distance ((row.phase s).coeff j) 0 ≤ 1 := by decide +kernel
  have hone : noisyOne.Encrypts s 1 1 := encrypts_addMessage rfl hzeros
  have hexact : noisyOne.ExactAt tablesOfFour g := ⟨by decide +kernel, by decide +kernel⟩
  have herror : ((|1| : ℤ) * (1 + (magnitude s.coeffs : ℕ)) * (2 ^ 31 / 2 ^ (8 * 2)) +
      2 * (2 : ℕ) * s.degree * (2 ^ 8 / 2) * (1 : ℕ) : ℚ) = (2 ^ 17 + 2 ^ 11 : ℕ) := by
    have hmagnitude : magnitude s.coeffs = 3 := rfl
    have hdegree : s.degree = 4 := rfl
    rw [hmagnitude, hdegree]
    norm_num
  obtain ⟨hprepare, hexternal, hselect⟩ := externalProduct_select hone (by decide)
    (rfl : tablesOfFour.n = s.degree)
  have h1 : c1.OfDegree s.degree := ⟨rfl, rfl⟩
  have h0 : c0.OfDegree s.degree := ⟨rfl, rfl⟩
  obtain ⟨hproduct, -, hdist⟩ := hexternal g (Glwe.ofDegree_sub h1 h0) hexact
  obtain ⟨hchoice, -, hdist'⟩ := hselect c1 c0 h1 h0 hexact
  refine ⟨hone, hexact, hprepare, hproduct.2 (by decide), hchoice.2 (by decide),
    fun k hk => ⟨?_, ?_⟩⟩
  · have hk := hdist k hk
    rw [scale_one] at hk
    exact_mod_cast hk.trans_eq herror
  · exact_mod_cast ((hdist' k hk).1 rfl).trans_eq herror

end Ggsw

/-! ### A one whose products are all exact -/

/-- Zero, of either sign. -/
def IsZero (z : Float) : Prop := z = 0.0 ∨ z = -0.0

instance (z : Float) : Decidable (IsZero z) := inferInstanceAs (Decidable (_ ∨ _))

theorem IsZero.add_sub {u v : Float} (hu : IsZero u) (hv : IsZero v) :
    IsZero (u + v) ∧ IsZero (u - v) := by
  rcases hu with rfl | rfl <;> rcases hv with rfl | rfl <;> decide +kernel

/-- One and zero do with the number what they do in a ring, up to the sign of zero. -/
def IsRegular (a : Float) : Prop :=
  a * 1.0 = a ∧ IsZero (a * 0.0) ∧ ∀ z ∈ [0.0, -0.0], a + z = a ∧ z + a = a ∧ a - z = a

instance (a : Float) : Decidable (IsRegular a) := inferInstanceAs (Decidable (_ ∧ _ ∧ _))

theorem IsRegular.add_sub {a z : Float} (ha : IsRegular a) (hz : IsZero z) :
    a + z = a ∧ z + a = a ∧ a - z = a := ha.2.2 z (List.mem_pair.2 hz)

/-- A digit of four bits, and its product with the weight of this digit. -/
theorem isRegular_digit {x : ℤ} (h : x.natAbs ≤ 8) :
    IsRegular (Float.ofInt x) ∧ IsRegular (Float.ofInt (x * 2 ^ 28)) ∧
      Float.ofInt x * 268435456.0 = Float.ofInt (x * 2 ^ 28) ∧
      Binary64.roundToWord 32 (Float.ofInt (x * 2 ^ 28)) = (x : BitVec 32) * 2 ^ 28 := by
  have hall : ∀ i < 17, let x : ℤ := (i : ℕ) - 8
      IsRegular (Float.ofInt x) ∧ IsRegular (Float.ofInt (x * 2 ^ 28)) ∧
        Float.ofInt x * 268435456.0 = Float.ofInt (x * 2 ^ 28) ∧
        Binary64.roundToWord 32 (Float.ofInt (x * 2 ^ 28)) = (x : BitVec 32) * 2 ^ 28 := by
    decide +kernel
  have hx := hall (x + 8).toNat (by omega)
  rwa [Int.toNat_of_nonneg (by omega), Int.add_sub_cancel] at hx

/-- The tables of degree two. -/
def tablesOfTwo : Fourier where
  n := 2
  twistRe := ⟨#[1.0]⟩
  twistIm := ⟨#[0.0]⟩
  omegaRe := ⟨#[1.0]⟩
  omegaIm := ⟨#[-0.0]⟩
  reversal := #[0]

/-- A spectrum of one point. -/
def Spectrum.point (re im : Float) : Spectrum := ⟨⟨#[re]⟩, ⟨#[im]⟩⟩

namespace Fourier

open Spectrum

variable {x y z w : ℤ}

theorem ofInts_two (hx : x.natAbs ≤ 8) (hy : y.natAbs ≤ 8) :
    tablesOfTwo.ofInts #[x, y] = point (Float.ofInt x) (Float.ofInt y) := by
  obtain ⟨hdigit, -⟩ := isRegular_digit hx
  obtain ⟨hdigit', -⟩ := isRegular_digit hy
  change point (Float.ofInt x * 1.0 - Float.ofInt y * 0.0)
    (Float.ofInt x * 0.0 + Float.ofInt y * 1.0) = _
  rw [hdigit.1, hdigit'.1, (hdigit.add_sub hdigit'.2.1).2.2, (hdigit'.add_sub hdigit.2.1).2.1]

/-- Adding two digits times their weight. -/
theorem addMul_weight (hx : x.natAbs ≤ 8) (hy : y.natAbs ≤ 8) (a b : Float) :
    (point a b).addMul (tablesOfTwo.ofInts #[x, y]) (point 268435456.0 0.0) =
      point (a + Float.ofInt (x * 2 ^ 28)) (b + Float.ofInt (y * 2 ^ 28)) := by
  obtain ⟨hdigit, hproduct, hweight, -⟩ := isRegular_digit hx
  obtain ⟨hdigit', hproduct', hweight', -⟩ := isRegular_digit hy
  rw [ofInts_two hx hy]
  change point (a + (Float.ofInt x * 268435456.0 - Float.ofInt y * 0.0))
    (b + (Float.ofInt x * 0.0 + Float.ofInt y * 268435456.0)) = _
  rw [hweight, hweight', (hproduct.add_sub hdigit'.2.1).2.2, (hproduct'.add_sub hdigit.2.1).2.1]

/-- Adding two digits times zero. -/
theorem exists_addMul_zero (hx : x.natAbs ≤ 8) (hy : y.natAbs ≤ 8) (a b : Float) :
    ∃ u v, IsZero u ∧ IsZero v ∧
      (point a b).addMul (tablesOfTwo.ofInts #[x, y]) (point 0.0 0.0) = point (a + u) (b + v) := by
  obtain ⟨⟨-, hzero, -⟩, -⟩ := isRegular_digit hx
  obtain ⟨⟨-, hzero', -⟩, -⟩ := isRegular_digit hy
  rw [ofInts_two hx hy]
  exact ⟨_, _, (hzero.add_sub hzero').2, (hzero.add_sub hzero').1, rfl⟩

theorem toWords_two (hx : x.natAbs ≤ 8) (hy : y.natAbs ≤ 8) :
    tablesOfTwo.toWords 32 (point (Float.ofInt (x * 2 ^ 28)) (Float.ofInt (y * 2 ^ 28))) =
      #[(x : BitVec 32) * 2 ^ 28, (y : BitVec 32) * 2 ^ 28] := by
  obtain ⟨-, hproduct, -, hround⟩ := isRegular_digit hx
  obtain ⟨-, hproduct', -, hround'⟩ := isRegular_digit hy
  have hinverse : 1.0 / (1 : ℕ).toFloat = 1.0 := by decide +kernel
  have hwords : ∀ a b : Float, tablesOfTwo.toWords 32 (point a b) =
      #[Binary64.roundToWord 32
          (a * (1.0 / (1 : ℕ).toFloat) * 1.0 + b * (1.0 / (1 : ℕ).toFloat) * 0.0),
        Binary64.roundToWord 32
          (b * (1.0 / (1 : ℕ).toFloat) * 1.0 - a * (1.0 / (1 : ℕ).toFloat) * 0.0)] :=
    fun _ _ => rfl
  rw [hwords, hinverse, hproduct.1, hproduct'.1, hproduct.1, hproduct'.1,
    (hproduct.add_sub hproduct'.2.1).1, (hproduct'.add_sub hproduct.2.1).2.2, hround, hround']

theorem mulSmall_constant_two (c : BitVec 32) (x y : ℤ) :
    (Poly.constant 2 c).mulSmall #[x, y] = ⟨#[x * c, y * c]⟩ := by
  refine Poly.ext_coeff ((size_mulSmall _ _).trans (Poly.size_constant _ _)) fun k hk => ?_
  rw [size_mulSmall, Poly.size_constant] at hk
  rw [coeff_constant_mulSmall (n := 2) rfl c hk]
  interval_cases k <;> rfl

theorem sumOfProducts_two (c c' : BitVec 32) (x y z w : ℤ) :
    Poly.sumOfProducts 2 [(#[x, y], .constant 2 c), (#[z, w], .constant 2 c')] =
      ⟨#[x * c + z * c', y * c + w * c']⟩ := by
  change ((Poly.zero 2).add ((Poly.constant 2 c).mulSmall #[x, y])).add
    ((Poly.constant 2 c').mulSmall #[z, w]) = _
  have hzero : (Poly.zero 2 : TorusPoly 32) = ⟨#[0, 0]⟩ := rfl
  rw [mulSmall_constant_two, mulSmall_constant_two, hzero]
  simp [Poly.add]

theorem ofWords_constant_two :
    tablesOfTwo.ofWords (Poly.constant 2 (2 ^ 28 : BitVec 32)).coeffs = point 268435456.0 0.0 ∧
      tablesOfTwo.ofWords (Poly.constant 2 (0 : BitVec 32)).coeffs = point 0.0 0.0 := by
  have hdata : ∀ a b : Spectrum, a.re.data = b.re.data → a.im.data = b.im.data → a = b := by
    rintro ⟨⟨re⟩, ⟨im⟩⟩ ⟨⟨re'⟩, ⟨im'⟩⟩ rfl rfl
    rfl
  exact ⟨hdata _ _ (by decide +kernel) (by decide +kernel),
    hdata _ _ (by decide +kernel) (by decide +kernel)⟩

/-- Two digits times their weight and two others times zero, in either order. -/
theorem exact_two (hx : x.natAbs ≤ 8) (hy : y.natAbs ≤ 8) (hz : z.natAbs ≤ 8) (hw : w.natAbs ≤ 8) :
    tablesOfTwo.Exact [(#[x, y], .constant 2 (2 ^ 28)), (#[z, w], .constant 2 0)] ∧
      tablesOfTwo.Exact [(#[z, w], .constant 2 0), (#[x, y], .constant 2 (2 ^ 28))] := by
  obtain ⟨hweight, hzero⟩ := ofWords_constant_two
  obtain ⟨-, hproduct, -⟩ := isRegular_digit hx
  obtain ⟨-, hproduct', -⟩ := isRegular_digit hy
  have hnull : IsZero 0.0 := .inl rfl
  have hcombine : ∀ (d d' : Array ℤ) (p p' : TorusPoly 32),
      PreparedGgsw.combine tablesOfTwo
          ([(d, p), (d', p')].map fun (d, p) => (d, tablesOfTwo.ofWords p.coeffs)) =
        ⟨tablesOfTwo.toWords 32 (((point 0.0 0.0).addMul (tablesOfTwo.ofInts d)
          (tablesOfTwo.ofWords p.coeffs)).addMul (tablesOfTwo.ofInts d')
            (tablesOfTwo.ofWords p'.coeffs))⟩ := fun _ _ _ _ => rfl
  constructor
  · obtain ⟨u, v, hu, hv, hadd⟩ := exists_addMul_zero hz hw
      (0.0 + Float.ofInt (x * 2 ^ 28)) (0.0 + Float.ofInt (y * 2 ^ 28))
    rw [Exact, hcombine, hweight, hzero, addMul_weight hx hy, hadd, (hproduct.add_sub hnull).2.1,
      (hproduct'.add_sub hnull).2.1, (hproduct.add_sub hu).1, (hproduct'.add_sub hv).1,
      toWords_two hx hy]
    refine Eq.trans ?_ (sumOfProducts_two _ _ x y z w).symm
    simp
  · obtain ⟨u, v, hu, hv, hadd⟩ := exists_addMul_zero hz hw 0.0 0.0
    rw [Exact, hcombine, hweight, hzero, hadd, addMul_weight hx hy,
      (hproduct.add_sub (hnull.add_sub hu).1).2.1, (hproduct'.add_sub (hnull.add_sub hv).1).2.1,
      toWords_two hx hy]
    refine Eq.trans ?_ (sumOfProducts_two _ _ z w x y).symm
    simp

end Fourier

/-- A one in a single digit of four bits. -/
def oneOfTwo : Ggsw := ⟨Ggsw.addMessage ⟨4, 1⟩ 1 [.zero 2, .zero 2], ⟨4, 1⟩⟩

theorem oneOfTwo_encrypts {s : GlweSecret} (hs : s.degree = 2) : oneOfTwo.Encrypts s 1 0 := by
  have hzero : Ggsw.IsZeroRow s 0 (.zero 2) :=
    ⟨hs ▸ Glwe.ofDegree_zero _, fun j hj => by
      rw [Glwe.coeff_phase_zero hs (hs ▸ hj), distance_self]⟩
  exact Ggsw.encrypts_addMessage rfl (by simpa using hzero)

theorem oneOfTwo_exactAt {g : Glwe 32} (hg : g.OfDegree 2) : oneOfTwo.ExactAt tablesOfTwo g := by
  obtain ⟨⟨⟨body⟩⟩, ⟨⟨mask⟩⟩⟩ := g
  obtain ⟨b₀, b₁, rfl⟩ : ∃ b₀ b₁, body = [b₀, b₁] := List.length_eq_two.1 hg.1
  obtain ⟨a₀, a₁, rfl⟩ : ∃ a₀ a₁, mask = [a₀, a₁] := List.length_eq_two.1 hg.2
  have hdigit : ∀ a : BitVec 32, ((⟨4, 1⟩ : Gadget).signedDigit a 0).natAbs ≤ 8 := fun a =>
    Gadget.natAbs_signedDigit_le _ a 0
  have hrows : oneOfTwo.row 0 = ⟨.constant 2 (2 ^ 28), .constant 2 0⟩ ∧
      oneOfTwo.row 1 = ⟨.constant 2 0, .constant 2 (2 ^ 28)⟩ := by decide
  have hoperands : oneOfTwo.operands ⟨⟨⟨[b₀, b₁]⟩⟩, ⟨⟨[a₀, a₁]⟩⟩⟩ =
      [(#[(⟨4, 1⟩ : Gadget).signedDigit b₀ 0, (⟨4, 1⟩ : Gadget).signedDigit b₁ 0], oneOfTwo.row 0),
        (#[(⟨4, 1⟩ : Gadget).signedDigit a₀ 0, (⟨4, 1⟩ : Gadget).signedDigit a₁ 0],
          oneOfTwo.row 1)] := by
    have hgadget : oneOfTwo.gadget = ⟨4, 1⟩ := rfl
    simp [Ggsw.operands, Gadget.digitPoly, hgadget]
  rw [hrows.1, hrows.2] at hoperands
  refine ⟨?_, ?_⟩ <;> rw [hoperands]
  · exact (Fourier.exact_two (hdigit b₀) (hdigit b₁) (hdigit a₀) (hdigit a₁)).1
  · exact (Fourier.exact_two (hdigit a₀) (hdigit a₁) (hdigit b₀) (hdigit b₁)).2

/-- Products with this one are off by the rounding to a digit. -/
theorem oneOfTwo_scalesBy {s : GlweSecret} (hs : s.degree = 2) :
    (oneOfTwo.prepare tablesOfTwo).ScalesBy tablesOfTwo s ((1 + magnitude s.coeffs) * 2 ^ 27) 1 := by
  have h := (oneOfTwo_encrypts hs).scalesBy (by decide) (by decide) hs.symm
    fun g hg => oneOfTwo_exactAt (hs ▸ hg)
  have herror : Ggsw.productError oneOfTwo.gadget s 1 0 = (1 + magnitude s.coeffs) * 2 ^ 27 := by
    have hprecision : oneOfTwo.gadget.precision = 4 := rfl
    rw [Ggsw.productError, hprecision]
    norm_num
  rwa [herror] at h

end CipherMonitor
