import CipherMonitor.Glwe.PrivateKeySwitch
import CipherMonitor.Proofs.Gadget
import CipherMonitor.Proofs.Glwe.Encryption
import CipherMonitor.Proofs.Glwe.Phase
import CipherMonitor.Proofs.Poly.Bound

/-!
# Private key switching applies the function to the phase

Both functions multiply a word with one small number per coefficient, so each coefficient of the
switched phase is an inner product of the words with multiples of the secret, up to the rounding of the
digits and the noise of the key.

* `KeySwitchFunction.factor`, `KeySwitchFunction.coeff_apply` — the numbers of a function, of at most
  one under a binary secret (`KeySwitchFunction.natAbs_factor_le`).
* `KeySwitchFunction.gain` — the largest of these numbers under any secret.
* `PrivateKeySwitch.Encrypts` — what the entries of a key carry.
* `PrivateKeySwitch.encrypts_generate` — a generated key, with the noise that was drawn for it.
* `PrivateKeySwitch.addRow_spec`, `PrivateKeySwitch.foldl_spec` — one row of the key, and all rows.
* `PrivateKeySwitch.Encrypts.distance_switch_le` — the switched ciphertext, with a bounded error.
* `PrivateKeySwitch.Encrypts.switchChecked_eq_ok_iff` — when the switch succeeds.
* `PrivateKeySwitch.switch_apply` — the function of the phase, with an error that depends on the gain.
* `PrivateKeySwitch.encrypts_exactKey` — a key without noise.
-/

namespace CipherMonitor

open CipherMonitor.Poly Torus

/-! ### The functions -/

namespace KeySwitchFunction

/-- What a word is multiplied with in coefficient `i`. -/
def factor (f : KeySwitchFunction) (s : GlweSecret) (i : ℕ) : ℤ :=
  match f with
  | identity => if i = 0 then 1 else 0
  | timesSecret => s.coeffs.getD i 0

/-- Under a binary secret, no function enlarges a word. -/
theorem natAbs_factor_le (f : KeySwitchFunction) {s : GlweSecret}
    (hs : ∀ d ∈ s.coeffs.toList, d = 0 ∨ d = 1) (i : ℕ) : (f.factor s i).natAbs ≤ 1 := by
  cases f with
  | identity =>
    rw [factor]
    split_ifs <;> decide
  | timesSecret =>
    rw [factor, Array.getD_eq_getD_getElem?, ← Array.getElem?_toList]
    cases h : s.coeffs.toList[i]? with
    | none => decide
    | some d => rcases hs d (List.mem_of_getElem? h) with rfl | rfl <;> decide

/-- How much a function enlarges an error at most. -/
def gain (f : KeySwitchFunction) (s : GlweSecret) : ℕ :=
  match f with
  | identity => 1
  | timesSecret => (Finset.range s.degree).sup fun i => (s.coeffs.getD i 0).natAbs

theorem natAbs_factor_le_gain (f : KeySwitchFunction) (s : GlweSecret) {i : ℕ} (hi : i < s.degree) :
    (f.factor s i).natAbs ≤ f.gain s := by
  cases f with
  | identity =>
    rw [factor, gain]
    split_ifs <;> decide
  | timesSecret =>
    exact Finset.le_sup (f := fun i => (s.coeffs.getD i 0).natAbs) (Finset.mem_range.2 hi)

variable {w : ℕ}

@[simp] theorem size_apply (f : KeySwitchFunction) (s : GlweSecret) (x : BitVec w) :
    (f.apply s x).size = s.degree := by
  cases f with
  | identity => exact size_constant _ _
  | timesSecret => exact Array.size_map

theorem coeff_apply (f : KeySwitchFunction) {s : GlweSecret} (x : BitVec w) {i : ℕ}
    (hi : i < s.degree) : (f.apply s x).coeff i = scale x (f.factor s i) := by
  cases f with
  | identity =>
    rw [apply, coeff_constant hi, factor]
    split_ifs <;> simp
  | timesSecret =>
    have hsize : i < s.coeffs.size := hi
    simp [apply, factor, coeff, Array.getD, hsize]

end KeySwitchFunction

/-! ### The switch -/

namespace PrivateKeySwitch

variable {k : PrivateKeySwitch} {t : LweSecret} {s : GlweSecret} {noise n : ℕ}

/-- The row of a secret coefficient `c`: every entry is a ring ciphertext of its message, with noise of
at most `noise` in every coefficient. -/
def RowEncrypts (s : GlweSecret) (noise : ℕ) (k : PrivateKeySwitch) (row : List (Glwe 32)) (c : ℤ) :
    Prop :=
  List.Forall₂ (fun ct m => ct.OfDegree s.degree ∧
    ∀ i < s.degree, distance ((ct.phase s).coeff i) (m.coeff i) ≤ noise)
    row (rowMessages k.function k.gadget s c)

theorem RowEncrypts.ofDegree {row : List (Glwe 32)} {c : ℤ} (h : k.RowEncrypts s noise row c) :
    ∀ ct ∈ row, ct.OfDegree s.degree := by
  intro ct hct
  obtain ⟨m, -, hdegree, -⟩ := forall₂_exists_of_mem h hct
  exact hdegree

/-- The rows of the key belong to the body and to the coefficients of the secret. -/
structure Encrypts (t : LweSecret) (s : GlweSecret) (noise : ℕ) (k : PrivateKeySwitch) : Prop where
  degree_eq : k.degree = s.degree
  rows : List.Forall₂ (k.RowEncrypts s noise) k.rows (1 :: t.coeffs.toList)

theorem Encrypts.length_rows (h : k.Encrypts t s noise) : k.rows.length = t.dimension + 1 := by
  rw [h.rows.length_eq, List.length_cons, Array.length_toList, LweSecret.dimension]

/-! ### Generated keys -/

section Generate

variable {f : KeySwitchFunction} {g : Gadget} {sigma : Float} {bound : ℕ} {xa xe xa' xe' : Source}

theorem of_encryptAll {ms : List (TorusPoly 32)} {cs : List (Glwe 32)}
    (hbound : ∀ e : BitVec 32, IsNoise sigma e → distance e 0 ≤ bound)
    (hms : ∀ m ∈ ms, m.size = s.degree)
    (h : encryptAll s sigma ms xa xe = .ok (cs, xa', xe')) :
    List.Forall₂ (fun ct m => ct.OfDegree s.degree ∧
      ∀ i < s.degree, distance ((ct.phase s).coeff i) (m.coeff i) ≤ bound) cs ms := by
  induction ms generalizing cs xa xe xa' xe' with
  | nil =>
    cases Outcome.pure_eq_ok_iff.1 h
    exact .nil
  | cons m ms ih =>
    obtain ⟨hm, hms⟩ := List.forall_mem_cons.1 hms
    obtain ⟨⟨c, _, _⟩, hc, h⟩ := Outcome.bind_eq_ok_iff.1 h
    obtain ⟨⟨cs, _, _⟩, hcs, h⟩ := Outcome.bind_eq_ok_iff.1 h
    cases Outcome.pure_eq_ok_iff.1 h
    obtain ⟨hdegree, hphase⟩ := Glwe.of_encrypt hm hc
    refine .cons ⟨hdegree, fun i hi => ?_⟩ (ih hms hcs)
    obtain ⟨e, he, hi⟩ := hphase i hi
    have hdistance := distance_add_left e 0 (m.coeff i)
    rw [add_zero] at hdistance
    rw [hi, hdistance]
    exact hbound e he

theorem of_encryptRows {cs : List ℤ} {rows : List (List (Glwe 32))}
    (hbound : ∀ e : BitVec 32, IsNoise sigma e → distance e 0 ≤ bound)
    (h : encryptRows f g s sigma cs xa xe = .ok (rows, xa', xe')) :
    List.Forall₂ ((⟨[], g, f, s.degree⟩ : PrivateKeySwitch).RowEncrypts s bound) rows cs := by
  induction cs generalizing rows xa xe xa' xe' with
  | nil =>
    cases Outcome.pure_eq_ok_iff.1 h
    exact .nil
  | cons c cs ih =>
    obtain ⟨⟨row, _, _⟩, hrow, h⟩ := Outcome.bind_eq_ok_iff.1 h
    obtain ⟨⟨rows, _, _⟩, hrows, h⟩ := Outcome.bind_eq_ok_iff.1 h
    cases Outcome.pure_eq_ok_iff.1 h
    refine .cons (of_encryptAll hbound (fun m hm => ?_) hrow) (ih hrows)
    obtain ⟨i, -, rfl⟩ := List.mem_map.1 hm
    exact KeySwitchFunction.size_apply ..

/-- The entries of a generated key belong to its secrets, with no more noise than can be drawn. -/
theorem encrypts_generate (hbound : ∀ e : BitVec 32, IsNoise sigma e → distance e 0 ≤ bound)
    (h : generate t s f g sigma xa xe = .ok (k, xa', xe')) :
    k.gadget = g ∧ k.function = f ∧ k.Encrypts t s bound := by
  obtain ⟨-, -, h⟩ := Outcome.bind_eq_ok_iff.1 h
  obtain ⟨⟨rows, _, _⟩, hrows, h⟩ := Outcome.bind_eq_ok_iff.1 h
  cases Outcome.pure_eq_ok_iff.1 h
  exact ⟨rfl, rfl, rfl, of_encryptRows hbound hrows⟩

end Generate

/-! ### Rows of digits -/

/-- Adding a row adds the combination of its phases with the digits. -/
theorem addRow_spec (hs : s.degree = n) {sum : Glwe 32} (hsum : sum.OfDegree n) {row : List (Glwe 32)}
    (hrow : ∀ ct ∈ row, ct.OfDegree n) (digits : List ℤ) :
    (addRow sum digits row).OfDegree n ∧ ∀ i < n, ((addRow sum digits row).phase s).coeff i =
      (sum.phase s).coeff i +
        (List.zipWith (fun d y => scale y d) digits (row.map fun ct => (ct.phase s).coeff i)).sum := by
  induction digits generalizing sum row with
  | nil => exact ⟨hsum, fun i _ => by simp [addRow]⟩
  | cons d digits ih =>
    cases row with
    | nil => exact ⟨hsum, fun i _ => by simp [addRow]⟩
    | cons ct row =>
      obtain ⟨hct, hrow⟩ := List.forall_mem_cons.1 hrow
      set next := if d = 0 then sum else sum.addScaled ct d with hnext
      have hdegree : next.OfDegree n := by
        rw [hnext]
        split_ifs
        · exact hsum
        · exact Glwe.ofDegree_addScaled hsum ct d
      have hphase : ∀ i < n, (next.phase s).coeff i =
          (sum.phase s).coeff i + scale ((ct.phase s).coeff i) d := by
        intro i hi
        rw [hnext]
        split_ifs with hd
        · rw [hd, scale_zero, add_zero]
        · exact Glwe.coeff_phase_addScaled hs hsum hct d hi
      obtain ⟨hfinal, hrest⟩ := ih hdegree hrow
      refine ⟨hfinal, fun i hi => ?_⟩
      rw [List.map_cons, List.zipWith_cons_cons, List.sum_cons, ← add_assoc, ← hphase i hi]
      exact hrest i hi

/-- The error of one row: the noise of its entries times the digits, and the rounding of the word times
what the word is multiplied with. -/
def rowError (g : Gadget) (noise c : ℕ) : ℕ :=
  g.rows * (2 ^ g.base2k / 2 * noise) + c * (2 ^ 32 / 2 ^ (g.precision + 1))

/-- The row of a coefficient `c` adds the function of `c` times the word. -/
theorem RowEncrypts.distance_addRow_le (hp : k.gadget.precision ≤ 32) {row : List (Glwe 32)} {c : ℤ}
    (h : k.RowEncrypts s noise row c) {sum : Glwe 32} (hsum : sum.OfDegree s.degree) (x : BitVec 32)
    {i e : ℕ} (hi : i < s.degree) {y : BitVec 32} (hy : distance ((sum.phase s).coeff i) y ≤ e) :
    distance (((addRow sum (k.gadget.signedDigits x) row).phase s).coeff i)
        (y + scale x (c * k.function.factor s i)) ≤
      e + rowError k.gadget noise (c * k.function.factor s i).natAbs := by
  -- Coefficient `i` of the messages is a multiple of the weights.
  have hmessages : List.Forall₂ (fun y m => distance y m ≤ noise)
      (row.map fun ct => (ct.phase s).coeff i)
      (k.gadget.multiples 32 (c * k.function.factor s i)) := by
    have hrow := h
    rw [RowEncrypts, rowMessages, List.forall₂_map_right_iff] at hrow
    rw [Gadget.multiples, List.forall₂_map_left_iff, List.forall₂_map_right_iff]
    refine hrow.imp fun ct j hentry => ?_
    rw [← scale_scale, ← KeySwitchFunction.coeff_apply _ _ hi]
    exact hentry.2 i hi
  rw [(addRow_spec rfl hsum h.ofDegree _).2 i hi]
  exact (distance_add _ _ _ _).trans
    (Nat.add_le_add hy (Gadget.distance_row_le (by decide) hp hmessages x))

/-- All words, one row after the other. -/
theorem foldl_spec (hp : k.gadget.precision ≤ 32) {rows : List (List (Glwe 32))} {cs : List ℤ}
    (hrows : List.Forall₂ (k.RowEncrypts s noise) rows cs) {xs : List (BitVec 32)}
    (hxs : xs.length = rows.length) {sum : Glwe 32} (hsum : sum.OfDegree s.degree)
    {ys : ℕ → BitVec 32} {e : ℕ → ℕ}
    (hy : ∀ i < s.degree, distance ((sum.phase s).coeff i) (ys i) ≤ e i) :
    let r := (xs.zip rows).foldl (fun sum x => addRow sum (k.gadget.signedDigits x.1) x.2) sum
    r.OfDegree s.degree ∧ ∀ i < s.degree,
      distance ((r.phase s).coeff i) (ys i + scale (Lwe.dot xs cs) (k.function.factor s i)) ≤
        e i + (cs.map fun c => rowError k.gadget noise (c * k.function.factor s i).natAbs).sum := by
  induction hrows generalizing xs sum ys e with
  | nil =>
    obtain rfl := List.length_eq_zero_iff.1 hxs
    exact ⟨hsum, fun i hi => by simpa [Lwe.dot, Torus.scale] using hy i hi⟩
  | @cons row c rows cs hrow _ ih =>
    obtain ⟨x, xs, rfl⟩ := List.exists_cons_of_length_eq_add_one hxs
    obtain ⟨hdegree, hdist⟩ := ih (by simpa using hxs) (addRow_spec rfl hsum hrow.ofDegree _).1
      fun i hi => hrow.distance_addRow_le hp hsum x hi (hy i hi)
    refine ⟨hdegree, fun i hi => ?_⟩
    rw [Lwe.dot, List.zipWith_cons_cons, List.sum_cons, scale_add, scale_scale, List.map_cons,
      List.sum_cons, ← add_assoc, ← Nat.add_assoc]
    exact hdist i hi

/-- The errors of all rows. -/
theorem sum_rowError (g : Gadget) (noise : ℕ) (cs : List ℤ) (d : ℤ) :
    (cs.map fun c => rowError g noise (c * d).natAbs).sum =
      cs.length * (g.rows * (2 ^ g.base2k / 2 * noise)) +
        d.natAbs * ((cs.map Int.natAbs).sum * (2 ^ 32 / 2 ^ (g.precision + 1))) := by
  induction cs with
  | nil => simp
  | cons c cs ih =>
    rw [List.map_cons, List.sum_cons, ih, rowError, List.map_cons, List.sum_cons, List.length_cons,
      Int.natAbs_mul]
    ring

/-- The words of a ciphertext. -/
theorem words_eq {c : Lwe 32} (hc : c.OfDimension n) : c.words.toList = c.body :: c.mask := by
  obtain ⟨⟨words⟩⟩ := c
  obtain ⟨x, mask, rfl⟩ := List.exists_cons_of_length_eq_add_one hc
  rfl

/-- The bound of the error of a coefficient that the function multiplies with numbers up to `size`. -/
def switchError (g : Gadget) (t : LweSecret) (noise size : ℕ) : ℕ :=
  size * ((1 + magnitude t.coeffs) * (2 ^ 32 / 2 ^ (g.precision + 1))) +
    (t.dimension + 1) * (g.rows * (2 ^ g.base2k / 2 * noise))

/-- The switched ciphertext has the function of the phase, with a bounded error. -/
theorem Encrypts.distance_switch_le (h : k.Encrypts t s noise) (hp : k.gadget.precision ≤ 32)
    {c : Lwe 32} (hc : c.OfDimension t.dimension) :
    (k.switch c).OfDegree s.degree ∧ ∀ i < s.degree,
      distance (((k.switch c).phase s).coeff i) (scale (c.phase t) (k.function.factor s i)) ≤
        switchError k.gadget t noise (k.function.factor s i).natAbs := by
  have hstart : ∀ i < s.degree, distance (((Glwe.zero k.degree : Glwe 32).phase s).coeff i) 0 ≤ 0 := by
    intro i hi
    rw [h.degree_eq, Glwe.coeff_phase_zero rfl hi, distance_self]
  have hwords : c.words.toList.length = k.rows.length := by
    rw [Array.length_toList, hc, h.length_rows]
  obtain ⟨hdegree, hdist⟩ :=
    foldl_spec hp h.rows hwords (h.degree_eq ▸ Glwe.ofDegree_zero _) hstart
  have hphase : Lwe.dot c.words.toList (1 :: t.coeffs.toList) = c.phase t := by
    rw [words_eq hc, Lwe.dot, List.zipWith_cons_cons, List.sum_cons, scale_one, Lwe.phase, Lwe.dot]
  refine ⟨hdegree, fun i hi => ?_⟩
  have hbound := hdist i hi
  rw [hphase, zero_add, Nat.zero_add, sum_rowError, List.length_cons, Array.length_toList,
    List.map_cons, List.sum_cons, Nat.add_comm (_ * _)] at hbound
  exact hbound

/-- Switching needs digits of less than a machine word. -/
theorem Encrypts.switchChecked_eq_ok_iff (h : k.Encrypts t s noise) {c : Lwe 32}
    (hc : c.OfDimension t.dimension) {r : Glwe 32} :
    k.switchChecked c = .ok r ↔ k.gadget.base2k < 64 ∧ k.switch c = r := by
  have hnIn : Lwe.Checked.ofDimension c k.nIn = .ok () := by
    rw [nIn, h.length_rows, Nat.add_sub_cancel]
    exact Lwe.Checked.ofDimension_eq_ok_iff.2 hc
  rw [switchChecked, hnIn, Outcome.ok_bind, Outcome.bind_eq_ok_iff]
  simp only [require_eq_ok_iff, Outcome.pure_eq_ok_iff]
  exact ⟨fun ⟨_, hbase, hr⟩ => ⟨hbase, hr⟩, fun ⟨hbase, hr⟩ => ⟨(), hbase, hr⟩⟩

/-- Switching a list of ciphertexts. -/
theorem Encrypts.mapM_switchChecked_eq_ok_iff (h : k.Encrypts t s noise) {cs : List (Lwe 32)}
    (hcs : ∀ c ∈ cs, c.OfDimension t.dimension) {rs : List (Glwe 32)} :
    cs.mapM k.switchChecked = .ok rs ↔
      (cs ≠ [] → k.gadget.base2k < 64) ∧ cs.map k.switch = rs := by
  induction cs generalizing rs with
  | nil => simp [Outcome.pure_eq_ok_iff]
  | cons c cs ih =>
    obtain ⟨hc, hcs⟩ := List.forall_mem_cons.1 hcs
    simp only [List.mapM_cons, Outcome.bind_eq_ok_iff, Outcome.pure_eq_ok_iff,
      h.switchChecked_eq_ok_iff hc, ih hcs]
    constructor
    · rintro ⟨_, ⟨hbase, rfl⟩, _, ⟨-, rfl⟩, rfl⟩
      exact ⟨fun _ => hbase, rfl⟩
    · rintro ⟨hbase, rfl⟩
      have hbase := hbase (List.cons_ne_nil c cs)
      exact ⟨_, ⟨hbase, rfl⟩, _, ⟨fun _ => hbase, rfl⟩, rfl⟩

/-- The bound of the error of the coefficients, for every secret. -/
theorem switchError_le (hbase : 1 ≤ k.gadget.base2k) (t : LweSecret) (noise : ℕ) {size gain : ℕ}
    (hsize : size ≤ gain) :
    (switchError k.gadget t noise size : ℚ) ≤
      gain * (1 + magnitude t.coeffs) * (2 ^ 31 / 2 ^ (k.gadget.base2k * k.gadget.rows)) +
        (t.dimension + 1) * k.gadget.rows * 2 ^ (k.gadget.base2k - 1) * noise := by
  have hhalf : 2 ^ k.gadget.base2k / 2 = 2 ^ (k.gadget.base2k - 1) := by
    conv_lhs => rw [← Nat.sub_add_cancel hbase, pow_succ]
    exact Nat.mul_div_cancel _ Nat.two_pos
  have hsize : (size : ℚ) ≤ gain := by exact_mod_cast hsize
  calc (switchError k.gadget t noise size : ℚ)
      = size * (1 + magnitude t.coeffs) * (2 ^ 32 / 2 ^ (k.gadget.precision + 1) : ℕ) +
        (t.dimension + 1) * k.gadget.rows * 2 ^ (k.gadget.base2k - 1) * noise := by
        rw [switchError, hhalf]
        push_cast
        ring
    _ ≤ _ := by
        have := k.gadget.half_last_weight_le
        rw [Gadget.precision] at this ⊢
        gcongr

/-- Let the entries of a key belong to the body and to the coefficients of the LWE secret, with noise of
at most `noise` in every coefficient, and let the digits fit the words.  Then every coefficient of the
switched phase is the one of the function of the phase: what is lost is the rounding of the words to
their digits, enlarged by the function, and the noise of the entries times the digits.  The switch
succeeds for every gadget with digits, and without digits as long as the base fits a machine word. -/
theorem switch_apply (h : k.Encrypts t s noise) (hbase : 1 ≤ k.gadget.base2k)
    (hp : k.gadget.base2k * k.gadget.rows ≤ 32) {c : Lwe 32} (hc : c.OfDimension t.dimension) :
    (k.switchChecked c = .ok (k.switch c) ↔ k.gadget.base2k < 64) ∧
    (0 < k.gadget.rows → k.switchChecked c = .ok (k.switch c)) ∧
    (k.switch c).OfDegree s.degree ∧
    ∀ i < s.degree,
      (distance (((k.switch c).phase s).coeff i) ((k.function.apply s (c.phase t)).coeff i) : ℚ) ≤
        k.function.gain s * (1 + magnitude t.coeffs) *
            (2 ^ 31 / 2 ^ (k.gadget.base2k * k.gadget.rows)) +
          (t.dimension + 1) * k.gadget.rows * 2 ^ (k.gadget.base2k - 1) * noise := by
  have hchecked : k.switchChecked c = .ok (k.switch c) ↔ k.gadget.base2k < 64 :=
    (h.switchChecked_eq_ok_iff hc).trans (and_iff_left rfl)
  obtain ⟨hdegree, hdist⟩ := h.distance_switch_le hp hc
  refine ⟨hchecked, fun hrows => hchecked.2 ?_, hdegree, fun i hi => ?_⟩
  · have := Nat.le_mul_of_pos_right k.gadget.base2k hrows
    omega
  · rw [KeySwitchFunction.coeff_apply _ _ hi]
    exact (Nat.cast_le.2 (hdist i hi)).trans
      (switchError_le hbase t noise (k.function.natAbs_factor_le_gain s hi))

/-- A body and two coefficients with two digits each, to a secret of two coefficients that multiplies
the phase. -/
def twoDigitKey : PrivateKeySwitch :=
  let s : GlweSecret := ⟨#[2, -3]⟩
  let entry := fun (c : ℤ) (i : ℕ) (a e : List (BitVec 32)) => Glwe.ofMask s
    (KeySwitchFunction.timesSecret.apply s (scale ((⟨4, 2⟩ : Gadget).weight 32 i) c)) ⟨a.toArray⟩
    ⟨e.toArray⟩
  { rows := [[entry 1 0 [5, 9] [1, 0], entry 1 1 [0x80000001, 3] [-1, 1]],
      [entry 1 0 [7, 0xdeadbeef] [0, -1], entry 1 1 [0xffffffff, 1] [1, 1]],
      [entry (-2) 0 [0x31415926, 2] [0, 0], entry (-2) 1 [4, 0x27182818] [-1, 0]]]
    gadget := ⟨4, 2⟩
    function := .timesSecret
    degree := 2 }

/-- A ciphertext switched with noise of one unit in the entries. -/
theorem switch_apply_twoDigitKey :
    let t : LweSecret := ⟨#[1, -2]⟩
    let s : GlweSecret := ⟨#[2, -3]⟩
    let c : Lwe 32 := ⟨#[0x01234567, 0x30000001, 0xdeadbeef]⟩
    twoDigitKey.Encrypts t s 1 ∧ c.OfDimension t.dimension ∧
      twoDigitKey.switchChecked c = .ok (twoDigitKey.switch c) ∧
      ∀ i < 2, distance (((twoDigitKey.switch c).phase s).coeff i)
        ((KeySwitchFunction.timesSecret.apply s (c.phase t)).coeff i) ≤
          3 * 4 * 2 ^ 23 + 3 * 2 * 2 ^ 3 * 1 := by
  intro t s c
  have hentries : ∀ r ∈ twoDigitKey.rows.zip [1, 1, -2], r.1.length = 2 ∧
      ∀ y ∈ r.1.zip (rowMessages .timesSecret ⟨4, 2⟩ s r.2), (y.1.b.size = 2 ∧ y.1.a.size = 2) ∧
        ∀ i < 2, distance ((y.1.phase s).coeff i) (y.2.coeff i) ≤ 1 := by decide +kernel
  have hkey : twoDigitKey.Encrypts t s 1 :=
    ⟨rfl, List.forall₂_iff_zip.2 ⟨rfl, fun hrow => List.forall₂_iff_zip.2
      ⟨(hentries _ hrow).1, fun hentry => (hentries _ hrow).2 _ hentry⟩⟩⟩
  obtain ⟨-, hchecked, -, hdist⟩ := switch_apply hkey (by decide) (by decide) (c := c) rfl
  have hgain : twoDigitKey.function.gain s = 3 := by decide
  have hmagnitude : magnitude t.coeffs = 3 := rfl
  have herror : ((3 : ℕ) * (1 + (3 : ℕ)) * (2 ^ 31 / 2 ^ (4 * 2)) +
      ((2 : ℕ) + 1) * (2 : ℕ) * 2 ^ (4 - 1) * (1 : ℕ) : ℚ) =
        (3 * 4 * 2 ^ 23 + 3 * 2 * 2 ^ 3 * 1 : ℕ) := by norm_num
  refine ⟨hkey, rfl, hchecked (by decide), fun i hi => ?_⟩
  have hi := hdist i hi
  rw [hgain, hmagnitude] at hi
  exact_mod_cast hi.trans_eq herror

/-- The key without noise. -/
def exactKey (f : KeySwitchFunction) (g : Gadget) (t : LweSecret) (s : GlweSecret) :
    PrivateKeySwitch where
  rows := (1 :: t.coeffs.toList).map fun c => (rowMessages f g s c).map Glwe.trivial
  gadget := g
  function := f
  degree := s.degree

theorem encrypts_exactKey (f : KeySwitchFunction) (g : Gadget) (t : LweSecret) (s : GlweSecret) :
    (exactKey f g t s).Encrypts t s 0 := by
  refine ⟨rfl, List.forall₂_map_left_iff.2 (List.forall₂_same.2 fun c _ => ?_)⟩
  refine List.forall₂_map_left_iff.2 (List.forall₂_same.2 fun m hm => ?_)
  obtain ⟨i, -, rfl⟩ := List.mem_map.1 hm
  have hsize : (f.apply s (scale (g.weight 32 i) c)).size = s.degree :=
    KeySwitchFunction.size_apply ..
  refine ⟨Glwe.ofDegree_trivial hsize, fun j hj => ?_⟩
  rw [Glwe.coeff_phase_trivial rfl hsize hj, distance_self]

end PrivateKeySwitch

end CipherMonitor
