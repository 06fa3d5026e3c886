import CipherMonitor.Bootstrap.Circuit
import CipherMonitor.Proofs.Bootstrap.BlindRotation
import CipherMonitor.Proofs.Glwe.PrivateKeySwitch

/-!
# Circuit bootstrapping builds the rows of the bit

A gate gives plus or minus half of a digit weight by the bit; moved up by the other half, that is the
weight or nothing.  Two private key switches carry it to the two rows of the digit.

* `CircuitKey.message`, `CircuitKey.message_eq` — what the ciphertext of a digit carries.
* `CircuitKey.Gates`, `CircuitKey.exists_bits` — the ciphertexts of all digits.
* `CircuitKey.Encrypts`, `CircuitKey.distance_row_le` — the row of a digit from one of the switches.
* `CircuitKey.bootstrap_rows` — the rows of a bit whose gates have a bounded noise.
-/

namespace CipherMonitor.CircuitKey

open CipherMonitor.Poly Torus

variable {t : Fourier} {g : Gadget} {s : GlweSecret} {bit : Bool} {e noise : ℕ}

/-! ### The weights -/

/-- Halving a digit weight that is not the last bit loses nothing. -/
theorem halfWeight_add_halfWeight {i : ℕ} (h : (i + 1) * g.base2k < 32) :
    halfWeight g i + halfWeight g i = g.weight 32 i := by
  obtain ⟨p, hp⟩ : ∃ p, 32 - (i + 1) * g.base2k = p + 1 := ⟨31 - (i + 1) * g.base2k, by omega⟩
  rw [halfWeight, Gadget.weight_eq (by decide) h.le, hp]
  apply BitVec.eq_of_toNat_eq
  rw [BitVec.toNat_add, BitVec.toNat_ushiftRight, BitVec.toNat_ofNat, Nat.shiftRight_eq_div_pow,
    pow_succ, pow_one]
  omega

/-- The weight of the digit if the bit is one. -/
def message (g : Gadget) (bit : Bool) (i : ℕ) : BitVec 32 := if bit then g.weight 32 i else 0

/-- Moving both outcomes of the gate up by half of the weight. -/
theorem message_eq {i : ℕ} (h : (i + 1) * g.base2k < 32) :
    message g bit i = (if bit then halfWeight g i else -halfWeight g i) + halfWeight g i := by
  rw [message, ← halfWeight_add_halfWeight h]
  split_ifs
  · rfl
  · rw [neg_add_cancel]

/-! ### The bits -/

/-- The gates of all digits give half of the weight with the sign of the bit, with noise of at most
`e`. -/
def Gates (t : Fourier) (g : Gadget) (rotation : BlindRotationKey) (fine : Lwe 32) (s : LweSecret)
    (bit : Bool) (e : ℕ) : Prop :=
  ∀ i < g.rows, ∃ l y, rotation.gate t fine (halfWeight g i) = .ok l ∧
    Lwe.Checked.phase s l = .ok y ∧
    distance y (if bit then halfWeight g i else -halfWeight g i) ≤ e

/-- A ciphertext for every digit, of its weight if the bit is one. -/
theorem exists_bits {rotation : BlindRotationKey} {fine : Lwe 32} (hg : g.precision < 32)
    (hgates : Gates t g rotation fine s.toLwe bit e) :
    ∃ bs, bits t g rotation fine = .ok bs ∧
      List.Forall₂ (fun i l => l.OfDimension s.degree ∧
        distance (l.phase s.toLwe) (message g bit i) ≤ e) (List.range g.rows) bs := by
  refine Outcome.exists_mapM fun i hi => ?_
  rw [List.mem_range] at hi
  obtain ⟨l, y, hl, hy, hdist⟩ := hgates i hi
  obtain ⟨hdimension, rfl⟩ := Lwe.Checked.phase_eq_ok_iff.1 hy
  have hplace : (i + 1) * g.base2k < 32 := (Gadget.place_le_precision hi).trans_lt hg
  refine ⟨l.addConstant (halfWeight g i), ?_, Lwe.ofDimension_addConstant hdimension _, ?_⟩
  · rw [weightedBit, hl]
    rfl
  · rw [Lwe.phase_addConstant hdimension, message_eq hplace, distance_add_right]
    exact hdist

/-! ### The rows -/

/-- Both private key switching keys are keys from the coefficients of a ring secret to the secret
itself, one for each function, with the same gadget. -/
structure Encrypts (s : GlweSecret) (switchGadget : Gadget) (noise : ℕ) (k : CircuitKey) : Prop where
  identity : k.identity.Encrypts s.toLwe s noise
  timesSecret : k.timesSecret.Encrypts s.toLwe s noise
  identity_function : k.identity.function = .identity
  timesSecret_function : k.timesSecret.function = .timesSecret
  identity_gadget : k.identity.gadget = switchGadget
  timesSecret_gadget : k.timesSecret.gadget = switchGadget

/-- A switch whose function does not enlarge the phase carries the noise of a bit on. -/
theorem distance_switch_le {k : PrivateKeySwitch} (hk : k.Encrypts s.toLwe s noise)
    (hp : k.gadget.precision ≤ 32) {b : Lwe 32} (hb : b.OfDimension s.degree) {m : BitVec 32}
    (hm : distance (b.phase s.toLwe) m ≤ e) {j : ℕ} (hj : j < s.degree)
    (hfactor : (k.function.factor s j).natAbs ≤ 1) :
    distance (((k.switch b).phase s).coeff j) (scale m (k.function.factor s j)) ≤
      e + PrivateKeySwitch.switchError k.gadget s.toLwe noise 1 := by
  have hswitch : distance (((k.switch b).phase s).coeff j)
      (scale (b.phase s.toLwe) (k.function.factor s j)) ≤
        PrivateKeySwitch.switchError k.gadget s.toLwe noise 1 :=
    ((hk.distance_switch_le hp hb).2 j hj).trans
      (Nat.add_le_add_right (Nat.mul_le_mul_right _ hfactor) _)
  have hnoise : distance (scale (b.phase s.toLwe) (k.function.factor s j))
      (scale m (k.function.factor s j)) ≤ e :=
    (distance_scale_le _ _ _).trans ((Nat.mul_le_mul hfactor hm).trans_eq (Nat.one_mul e))
  exact Nat.add_comm e _ ▸ (distance_triangle _ _ _).trans (Nat.add_le_add hswitch hnoise)

/-- The row of digit `i`, from one switch of all bits. -/
theorem distance_row_le {k : PrivateKeySwitch} (hk : k.Encrypts s.toLwe s noise)
    (hp : k.gadget.precision ≤ 32) (hs : ∀ d ∈ s.coeffs.toList, d = 0 ∨ d = 1) {bs : List (Lwe 32)}
    (hbs : List.Forall₂ (fun i l => l.OfDimension s.degree ∧
      distance (l.phase s.toLwe) (message g bit i) ≤ e) (List.range g.rows) bs)
    {i : ℕ} (hi : i < g.rows) {j : ℕ} (hj : j < s.degree) (d : Glwe 32) :
    distance ((((bs.map k.switch).getD i d).phase s).coeff j)
      (scale (message g bit i) (k.function.factor s j)) ≤
        e + PrivateKeySwitch.switchError k.gadget s.toLwe noise 1 := by
  have hrows : List.Forall₂ (fun i r => distance ((r.phase s).coeff j)
      (scale (message g bit i) (k.function.factor s j)) ≤
        e + PrivateKeySwitch.switchError k.gadget s.toLwe noise 1)
      (List.range g.rows) (bs.map k.switch) :=
    List.forall₂_map_right_iff.2 (hbs.imp fun _ _ hb =>
      distance_switch_le hk hp hb.1 hb.2 hj (k.function.natAbs_factor_le hs j))
  exact forall₂_range_getD hrows hi d

/-- All rows are switched when the digits of the switch are less than a machine word. -/
theorem Encrypts.rowsOf_eq_ok_iff {k : CircuitKey} {g' : Gadget} (hk : k.Encrypts s g' noise)
    {bs : List (Lwe 32)} (hbs : ∀ b ∈ bs, b.OfDimension s.degree) {rows : List (Glwe 32)} :
    k.rowsOf bs = .ok rows ↔
      (bs ≠ [] → g'.base2k < 64) ∧ bs.map k.identity.switch ++ bs.map k.timesSecret.switch = rows := by
  rw [rowsOf, Outcome.bind_eq_ok_iff]
  simp only [Outcome.bind_eq_ok_iff, Outcome.pure_eq_ok_iff,
    hk.identity.mapM_switchChecked_eq_ok_iff hbs, hk.timesSecret.mapM_switchChecked_eq_ok_iff hbs,
    hk.identity_gadget, hk.timesSecret_gadget]
  constructor
  · rintro ⟨_, ⟨hbase, rfl⟩, _, ⟨-, rfl⟩, rfl⟩
    exact ⟨hbase, rfl⟩
  · rintro ⟨hbase, rfl⟩
    exact ⟨_, ⟨hbase, rfl⟩, _, ⟨hbase, rfl⟩, rfl⟩

/-- The error of a switch as a fraction, for a binary secret. -/
theorem switchError_le (g : Gadget) (noise : ℕ) (hs : ∀ d ∈ s.coeffs.toList, d = 0 ∨ d = 1) :
    (PrivateKeySwitch.switchError g s.toLwe noise 1 : ℚ) ≤
      (1 + (s.coeffs.toList.sum : ℤ)) * (2 ^ 31 / 2 ^ g.precision) +
        (s.degree + 1) * g.rows * (2 ^ g.base2k / 2) * noise := by
  have hmagnitude : (magnitude s.coeffs : ℚ) = (s.coeffs.toList.sum : ℤ) := by
    exact_mod_cast magnitude_of_binary hs
  have hround := g.half_last_weight_le
  have hdigit := g.half_base_le
  rw [PrivateKeySwitch.switchError, Nat.one_mul, LweSecret.dimension, GlweSecret.toLwe,
    ← hmagnitude, mul_assoc _ (2 ^ g.base2k / 2 : ℚ), mul_assoc _ (g.rows : ℚ)]
  push_cast
  gcongr
  exact le_refl s.degree

/-- Let the key hold both private key switches to a binary secret, with noise of at most `noise` in
every coefficient of an entry; let the digits of the result end above the last bit of a word, and those
of the switches fit the word.  When the gates of all digits of the fine ciphertext give plus or minus
half of the digit weight by the bit, with noise of at most `e`, then the rows of the result are rows of
the bit: the first half carry the weights of the bit, and the second half the products of the secret
with these weights, with the noise of the gate and that of one switch.  The switches succeed, which
needs digits of less than a machine word only where there are digits. -/
theorem bootstrap_rows {k : CircuitKey} {g' : Gadget} {rotation : BlindRotationKey}
    {toFine : LweSwitchingKey 32} {c fine : Lwe 32} (hs : ∀ d ∈ s.coeffs.toList, d = 0 ∨ d = 1)
    (hk : k.Encrypts s g' noise) (hg : k.gadget.base2k * k.gadget.rows < 32)
    (hg' : g'.base2k * g'.rows ≤ 32) (hfine : toFine.switchChecked c = .ok fine)
    (hgates : Gates t k.gadget rotation fine s.toLwe bit e) :
    ∃ bs, bits t k.gadget rotation fine = .ok bs ∧
      (0 < g'.rows → ∃ rows, k.rowsOf bs = .ok rows) ∧
      ∀ rows, k.rowsOf bs = .ok rows →
        k.bootstrap t rotation toFine c =
          (Ggsw.ofRows rows k.gadget >>= fun r => r.prepareChecked t) ∧
        rows.length = 2 * k.gadget.rows ∧ (∀ row ∈ rows, row.OfDegree s.degree) ∧
        let p : ℚ := (1 + (s.coeffs.toList.sum : ℤ)) * (2 ^ 31 / 2 ^ (g'.base2k * g'.rows)) +
          (s.degree + 1) * g'.rows * (2 ^ g'.base2k / 2) * noise
        ∀ i < k.gadget.rows, ∀ j < s.degree,
          distance (((rows.getD i (Glwe.zero s.degree)).phase s).coeff j)
            (if j = 0 then message k.gadget bit i else 0) ≤ e + p ∧
          distance (((rows.getD (k.gadget.rows + i) (Glwe.zero s.degree)).phase s).coeff j)
            (scale (message k.gadget bit i) (s.coeffs.getD j 0)) ≤ e + p := by
  obtain ⟨bs, hbits, hbs⟩ := exists_bits hg hgates
  have hdimension : ∀ b ∈ bs, b.OfDimension s.degree := by
    intro b hb
    obtain ⟨i, -, hdimension, -⟩ := forall₂_exists_of_mem hbs.flip hb
    exact hdimension
  have hlength : bs.length = k.gadget.rows := by rw [← hbs.length_eq, List.length_range]
  refine ⟨bs, hbits, fun hrows => ?_, fun rows hrows => ⟨?_, ?_, ?_, ?_⟩⟩
  · have hbase : g'.base2k < 64 := by
      have := Nat.le_mul_of_pos_right g'.base2k hrows
      omega
    exact ⟨_, (hk.rowsOf_eq_ok_iff hdimension).2 ⟨fun _ => hbase, rfl⟩⟩
  · rw [bootstrap, hfine, Outcome.ok_bind, hbits, Outcome.ok_bind, hrows, Outcome.ok_bind]
  all_goals obtain ⟨-, rfl⟩ := (hk.rowsOf_eq_ok_iff hdimension).1 hrows
  · rw [List.length_append, List.length_map, List.length_map, hlength, Nat.two_mul]
  · intro row hrow
    rw [List.mem_append, List.mem_map, List.mem_map] at hrow
    rcases hrow with ⟨b, hb, rfl⟩ | ⟨b, hb, rfl⟩
    · exact (hk.identity.distance_switch_le (hk.identity_gadget ▸ hg') (hdimension b hb)).1
    · exact (hk.timesSecret.distance_switch_le (hk.timesSecret_gadget ▸ hg') (hdimension b hb)).1
  intro p i hi j hj
  have hbound : ((e + PrivateKeySwitch.switchError g' s.toLwe noise 1 : ℕ) : ℚ) ≤ e + p := by
    rw [Nat.cast_add]
    exact (add_le_add_iff_left _).2 (switchError_le g' noise hs)
  have hfirst := distance_row_le hk.identity (hk.identity_gadget ▸ hg') hs hbs hi hj (Glwe.zero s.degree)
  have hsecond :=
    distance_row_le hk.timesSecret (hk.timesSecret_gadget ▸ hg') hs hbs hi hj (Glwe.zero s.degree)
  rw [hk.identity_function, hk.identity_gadget, KeySwitchFunction.factor] at hfirst
  rw [hk.timesSecret_function, hk.timesSecret_gadget, KeySwitchFunction.factor] at hsecond
  -- The second half of the rows starts behind the first.
  rw [List.getD_append _ _ _ _ (by rwa [List.length_map, hlength]),
    List.getD_append_right _ _ _ _ (by rw [List.length_map, hlength]; omega), List.length_map, hlength,
    Nat.add_sub_cancel_left]
  refine ⟨(Nat.cast_le.2 ?_).trans hbound, (Nat.cast_le.2 hsecond).trans hbound⟩
  split_ifs at hfirst ⊢
  · rwa [scale_one] at hfirst
  · rwa [scale_zero] at hfirst

/-- The gates of a phase of one eighth, which needs no key. -/
theorem gates_eighth {s : GlweSecret} (hs : s.degree = 4) (g : Gadget) :
    Gates tablesOfFour g ⟨[], 4⟩ (Lwe.trivial 0 eighth) s.toLwe true 0 := by
  intro i _
  have hk : BlindRotationKey.Encrypts tablesOfFour ⟨#[]⟩ s 0 ⟨[], 4⟩ := ⟨hs.symm, .nil⟩
  obtain ⟨u, hu, l, y, hl, hy, hdist⟩ := BlindRotationKey.exists_gate hk (by simp) (by rw [hs])
    (by decide : 0 < 3) (by decide) (Lwe.ofDimension_trivial 0 eighth) (halfWeight g i)
  refine ⟨l, y, hl, hy, ?_⟩
  have hphase : ((Lwe.trivial 0 eighth).phase ⟨#[]⟩ : BitVec 32) = eighth := rfl
  rw [hphase] at hu
  have hdegree : 2 * s.degree = 2 ^ 3 := by rw [hs]
  have htest := (BlindRotationKey.entry_constantTest_of_gap hdegree (halfWeight g i) hu).1
  rw [fraction_eighth] at htest
  rw [htest (by norm_num [magnitude]) (by norm_num [magnitude])] at hdist
  exact hdist

/-- A bit under a secret of three ones, with switches that only round. -/
theorem bootstrap_rows_of_exactKeys :
    let s : GlweSecret := ⟨#[1, 0, 1, 1]⟩
    let k : CircuitKey := ⟨.exactKey .identity ⟨8, 4⟩ s.toLwe s, .exactKey .timesSecret ⟨8, 4⟩ s.toLwe s,
      ⟨4, 3⟩⟩
    let c : Lwe 32 := ⟨#[eighth, 0x10000000, 7, 0, 0x80000001]⟩
    k.Encrypts s ⟨8, 4⟩ 0 ∧ ∃ bs rows, bits tablesOfFour ⟨4, 3⟩ ⟨[], 4⟩ (.trivial 0 eighth) = .ok bs ∧
      k.rowsOf bs = .ok rows ∧ rows.length = 6 ∧
      k.bootstrap tablesOfFour ⟨[], 4⟩ zeroKeys.midToFine c =
        (Ggsw.ofRows rows ⟨4, 3⟩ >>= fun r => r.prepareChecked tablesOfFour) ∧
      ∀ i < 3, ∀ j < 4,
        distance (((rows.getD i (Glwe.zero 4)).phase s).coeff j)
          (if j = 0 then message ⟨4, 3⟩ true i else 0) ≤ 2 ∧
        distance (((rows.getD (3 + i) (Glwe.zero 4)).phase s).coeff j)
          (scale (message ⟨4, 3⟩ true i) (s.coeffs.getD j 0)) ≤ 2 := by
  intro s k c
  have hk : k.Encrypts s ⟨8, 4⟩ 0 := ⟨PrivateKeySwitch.encrypts_exactKey ..,
    PrivateKeySwitch.encrypts_exactKey .., rfl, rfl, rfl, rfl⟩
  have hfine : zeroKeys.midToFine.switchChecked c = .ok (Lwe.trivial 0 eighth) :=
    zeroKeys_switchChecked rfl
  obtain ⟨bs, hbits, hexists, hrows⟩ := bootstrap_rows (by decide) hk (by decide) (by decide) hfine
    (gates_eighth (s := s) rfl ⟨4, 3⟩)
  obtain ⟨rows, hrows'⟩ := hexists (by decide)
  obtain ⟨hbootstrap, hlength, -, hdist⟩ := hrows rows hrows'
  refine ⟨hk, bs, rows, hbits, hrows', hlength, hbootstrap, fun i hi j hj => ?_⟩
  have hp : ((0 : ℕ) : ℚ) + ((1 + (s.coeffs.toList.sum : ℤ)) * (2 ^ 31 / 2 ^ (8 * 4)) +
      (s.degree + 1) * (4 : ℕ) * (2 ^ 8 / 2) * (0 : ℕ)) = (2 : ℕ) := by
    have hsum : s.coeffs.toList.sum = 3 := rfl
    rw [hsum]
    norm_num
  obtain ⟨hfirst, hsecond⟩ := hdist i hi j hj
  rw [hp, Nat.cast_le] at hfirst hsecond
  exact ⟨hfirst, hsecond⟩

end CipherMonitor.CircuitKey
