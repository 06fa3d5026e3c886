import CipherMonitor.Ggsw
import CipherMonitor.Proofs.Glwe.Encryption
import CipherMonitor.Proofs.Poly.Product

/-!
# The rows of an integer

An integer is added to encryptions of zero, one multiple of a digit weight to every row: to the body of
the first half of the rows, and to the mask of the others, where the phase multiplies it with the secret.

* `Ggsw.Encrypts` — what the rows of a gadget ciphertext carry.
* `Ggsw.encrypts_addMessage` — messages on encryptions of zero.
* `Ggsw.encrypts_encrypt` — an encryption, with the noise that was drawn for it.
-/

namespace CipherMonitor

open CipherMonitor.Poly Torus

/-! ### Messages in the mask -/

namespace Poly

variable {R : Type} [CommRing R] {p : Poly R} {n : ℕ}

theorem addConstant_eq_add (hp : p.size = n) (m : R) : p.addConstant m = p.add (constant n m) := by
  refine ext_coeff (by simp [hp]) fun i hi => ?_
  have hi : i < p.size := by simpa using hi
  rw [coeff_addConstant hi, coeff_add hi (by rw [size_constant]; omega), coeff_constant (by omega)]

end Poly

/-- A constant that is added to the mask is multiplied with the secret. -/
theorem Glwe.coeff_phase_addToMask {w n k : ℕ} {s : GlweSecret} {c : Glwe w} (hs : s.degree = n)
    (hc : c.OfDegree n) (m : BitVec w) (hk : k < n) :
    ((⟨c.b, c.a.addConstant m⟩ : Glwe w).phase s).coeff k =
      (c.phase s).coeff k + scale m (s.coeffs.getD k 0) := by
  obtain ⟨hb, ha⟩ := hc
  have hs : s.coeffs.size = n := hs
  have hadded : (⟨c.b, c.a.addConstant m⟩ : Glwe w).OfDegree n :=
    ⟨hb, (size_addConstant _ _).trans ha⟩
  rw [coeff_phase hadded hk, coeff_phase ⟨hb, ha⟩ hk,
    addConstant_eq_add ha, coeff_mulSmall_add (by rw [size_constant]; omega) (by omega) (by omega),
    coeff_constant_mulSmall hs _ hk, ← add_assoc]
  rfl

namespace Ggsw

variable {s : GlweSecret} {c : Ggsw} {g : Gadget} {m : ℤ} {noise : ℕ}

/-- Row `i`. -/
def row (c : Ggsw) (i : ℕ) : Glwe 32 := c.rows.getD i (Glwe.zero 0)

/-- The rows belong to an integer `m`: those of the first half have the phases `m * weight i`, the others
`m * weight i * s`, with noise of at most `noise` in every coefficient. -/
structure Encrypts (s : GlweSecret) (m : ℤ) (noise : ℕ) (c : Ggsw) : Prop where
  length_rows : c.rows.length = 2 * c.gadget.rows
  ofDegree : ∀ row ∈ c.rows, row.OfDegree s.degree
  body : ∀ i < c.gadget.rows, ∀ j < s.degree,
    distance (((c.row i).phase s).coeff j) (if j = 0 then scale (c.gadget.weight 32 i) m else 0) ≤
      noise
  mask : ∀ i < c.gadget.rows, ∀ j < s.degree,
    distance (((c.row (c.gadget.rows + i)).phase s).coeff j)
      (scale (scale (c.gadget.weight 32 i) m) (s.coeffs.getD j 0)) ≤ noise

theorem Encrypts.ofDegree_row (h : c.Encrypts s m noise) {i : ℕ} (hi : i < 2 * c.gadget.rows) :
    (c.row i).OfDegree s.degree := by
  have hi : i < c.rows.length := hi.trans_eq h.length_rows.symm
  rw [row, List.getD_eq_getElem _ _ hi]
  exact h.ofDegree _ (List.getElem_mem hi)

/-! ### Encryptions -/

/-- The row is an encryption of zero, with noise of at most `noise` in every coefficient. -/
def IsZeroRow (s : GlweSecret) (noise : ℕ) (row : Glwe 32) : Prop :=
  row.OfDegree s.degree ∧ ∀ j < s.degree, distance ((row.phase s).coeff j) 0 ≤ noise

/-- The row with its message. -/
theorem row_addMessage (g : Gadget) (m : ℤ) {zeros : List (Glwe 32)} {i : ℕ} (hi : i < zeros.length) :
    row ⟨addMessage g m zeros, g⟩ i =
      if i < g.rows then zeros[i].addConstant (scale (g.weight 32 i) m)
      else ⟨zeros[i].b, zeros[i].a.addConstant (scale (g.weight 32 (i - g.rows)) m)⟩ := by
  have hi' : i < (addMessage g m zeros).length := by rwa [addMessage, List.length_mapIdx]
  rw [row, List.getD_eq_getElem _ _ hi']
  exact List.getElem_mapIdx

/-- Messages on encryptions of zero. -/
theorem encrypts_addMessage {zeros : List (Glwe 32)} (hlength : zeros.length = 2 * g.rows)
    (hzeros : ∀ row ∈ zeros, IsZeroRow s noise row) :
    (⟨addMessage g m zeros, g⟩ : Ggsw).Encrypts s m noise := by
  have hzero : ∀ i (hi : i < zeros.length), IsZeroRow s noise zeros[i] :=
    fun i hi => hzeros _ (List.getElem_mem hi)
  -- The distance of a sum to the message is the distance of the row to zero.
  have hnoise : ∀ i (hi : i < zeros.length) (y : BitVec 32), ∀ j < s.degree,
      distance ((zeros[i].phase s).coeff j + y) y ≤ noise := by
    intro i hi y j hj
    have hdistance := distance_add_right ((zeros[i].phase s).coeff j) 0 y
    rw [zero_add] at hdistance
    exact hdistance.trans_le ((hzero i hi).2 j hj)
  refine ⟨by rw [addMessage, List.length_mapIdx, hlength], ?_, fun i (hi : i < g.rows) j hj => ?_,
    fun i (hi : i < g.rows) j hj => ?_⟩
  · intro row hrow
    obtain ⟨i, hi, rfl⟩ := List.mem_mapIdx.1 hrow
    obtain ⟨hb, ha⟩ := (hzero i hi).1
    split_ifs
    · exact ⟨(size_addConstant _ _).trans hb, ha⟩
    · exact ⟨hb, (size_addConstant _ _).trans ha⟩
  · have hlt : i < zeros.length := by omega
    rw [row_addMessage g m hlt, if_pos hi, Glwe.coeff_phase_addConstant (hzero i hlt).1 _ hj]
    exact hnoise i hlt _ j hj
  · have hlt : g.rows + i < zeros.length := by omega
    rw [row_addMessage g m hlt, if_neg (by omega), Nat.add_sub_cancel_left,
      Glwe.coeff_phase_addToMask rfl (hzero _ hlt).1 _ hj]
    exact hnoise _ hlt _ j hj

variable {sigma : Float} {bound : ℕ} {xa xe xa' xe' : Source}

theorem of_encryptZeros {count : ℕ} {rows : List (Glwe 32)}
    (hbound : ∀ e : BitVec 32, IsNoise sigma e → distance e 0 ≤ bound)
    (h : encryptZeros s sigma count xa xe = .ok (rows, xa', xe')) :
    rows.length = count ∧ ∀ row ∈ rows, IsZeroRow s bound row := by
  induction count generalizing rows xa xe xa' xe' with
  | zero =>
    cases Outcome.pure_eq_ok_iff.1 h
    exact ⟨rfl, by simp⟩
  | succ count ih =>
    obtain ⟨⟨row, _, _⟩, hrow, h⟩ := Outcome.bind_eq_ok_iff.1 h
    obtain ⟨⟨rows, _, _⟩, hrows, h⟩ := Outcome.bind_eq_ok_iff.1 h
    cases Outcome.pure_eq_ok_iff.1 h
    obtain ⟨hdegree, hphase⟩ := Glwe.of_encrypt (size_zero s.degree) hrow
    obtain ⟨hlength, hrest⟩ := ih hrows
    refine ⟨congrArg (· + 1) hlength, List.forall_mem_cons.2 ⟨⟨hdegree, fun j hj => ?_⟩, hrest⟩⟩
    obtain ⟨e, he, hcoeff⟩ := hphase j hj
    rw [hcoeff, coeff_zero, zero_add]
    exact hbound e he

/-- The rows of an encryption belong to the integer, with no more noise than can be drawn. -/
theorem encrypts_encrypt (hbound : ∀ e : BitVec 32, IsNoise sigma e → distance e 0 ≤ bound)
    (h : encrypt m s g sigma xa xe = .ok (c, xa', xe')) : c.gadget = g ∧ c.Encrypts s m bound := by
  obtain ⟨-, -, h⟩ := Outcome.bind_eq_ok_iff.1 h
  obtain ⟨⟨zeros, _, _⟩, hzeros, h⟩ := Outcome.bind_eq_ok_iff.1 h
  cases Outcome.pure_eq_ok_iff.1 h
  obtain ⟨hlength, hrows⟩ := of_encryptZeros hbound hzeros
  exact ⟨rfl, encrypts_addMessage hlength hrows⟩

end Ggsw

end CipherMonitor
