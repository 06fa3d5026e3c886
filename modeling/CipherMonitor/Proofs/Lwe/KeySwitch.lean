import CipherMonitor.Lwe.KeySwitch
import CipherMonitor.Proofs.Gadget
import CipherMonitor.Proofs.Lwe.Encryption
import CipherMonitor.Proofs.Poly.Bound

/-!
# Key switching keeps the phase

The words of the input, the entries of the key and the output may have different widths, so phases are
compared in the 64-bit torus.

* `LweSwitchingKey.Encrypts` — what the entries of a key carry.
* `LweSwitchingKey.encrypts_generate` — a generated key, with the noise that was drawn for it.
* `LweSwitchingKey.addRow_spec`, `LweSwitchingKey.foldl_spec` — one row of the key, and all rows.
* `LweSwitchingKey.Encrypts.distance_switch_le` — the switched ciphertext, with a bounded error.
* `LweSwitchingKey.Encrypts.switchChecked_eq_ok_iff` — when the switch succeeds.
* `LweSwitchingKey.switch_phase` — both, for the widths that are in use.
-/

namespace CipherMonitor

open CipherMonitor.Poly Torus

/-! ### Embedded phases -/

namespace Lwe

variable {v n : ℕ} {s : LweSecret} {c : Lwe v}

theorem length_mask (hc : c.OfDimension n) : c.mask.length = n := by
  rw [mask, List.length_tail, Array.length_toList, hc, Nat.add_sub_cancel]

theorem toWide_dot (hv : v ≤ 64) (m : List (BitVec v)) (s : List ℤ) :
    toWide (dot m s) = dot (m.map toWide) s := by
  induction m generalizing s with
  | nil => simp [dot]
  | cons x m ih =>
    cases s with
    | nil => simp [dot]
    | cons d s =>
      have := ih s
      simp only [dot] at this ⊢
      rw [List.map_cons, List.zipWith_cons_cons, List.zipWith_cons_cons, List.sum_cons, List.sum_cons,
        toWide_add hv, toWide_scale hv, this]

theorem toWide_phase (hv : v ≤ 64) (s : LweSecret) (c : Lwe v) :
    toWide (c.phase s) = toWide c.body + dot (c.mask.map toWide) s.coeffs.toList := by
  rw [phase, toWide_add hv, toWide_dot hv]

end Lwe

namespace LweSwitchingKey

variable {w v noise n : ℕ} {k : LweSwitchingKey w} {g : Gadget} {sIn sOut : LweSecret}

/-- The row of a secret coefficient: every entry is a ciphertext of its message, with noise of at most
`noise`. -/
def RowEncrypts (sOut : LweSecret) (noise : ℕ) (g : Gadget) (row : List (Lwe w)) (s : ℤ) : Prop :=
  List.Forall₂ (fun c m => c.OfDimension sOut.dimension ∧ distance (c.phase sOut) m ≤ noise)
    row (rowMessages w g s)

theorem RowEncrypts.ofDimension {row : List (Lwe w)} {s : ℤ} (h : RowEncrypts sOut noise g row s) :
    ∀ c ∈ row, c.OfDimension sOut.dimension := by
  intro c hc
  obtain ⟨m, -, hdimension, -⟩ := forall₂_exists_of_mem h hc
  exact hdimension

/-- The rows of the key belong to the coefficients of the input secret. -/
structure Encrypts (sIn sOut : LweSecret) (noise : ℕ) (k : LweSwitchingKey w) : Prop where
  nOut_eq : k.nOut = sOut.dimension
  rows : List.Forall₂ (RowEncrypts sOut noise k.gadget) k.rows sIn.coeffs.toList

theorem Encrypts.nIn_eq (h : k.Encrypts sIn sOut noise) : k.nIn = sIn.dimension := by
  rw [nIn, h.rows.length_eq, Array.length_toList, LweSecret.dimension]

/-! ### Generated keys -/

section Generate

variable {sigma : Float} {bound : ℕ} {xa xe xa' xe' : Source}

theorem of_encryptAll {ms : List (BitVec w)} {cs : List (Lwe w)}
    (hbound : ∀ e : BitVec w, IsNoise sigma e → distance e 0 ≤ bound)
    (h : encryptAll sOut sigma ms xa xe = .ok (cs, xa', xe')) :
    List.Forall₂ (fun c m => c.OfDimension sOut.dimension ∧ distance (c.phase sOut) m ≤ bound)
      cs ms := by
  induction ms generalizing cs xa xe xa' xe' with
  | nil =>
    cases Outcome.pure_eq_ok_iff.1 h
    exact .nil
  | cons m ms ih =>
    obtain ⟨⟨c, _, _⟩, hc, h⟩ := Outcome.bind_eq_ok_iff.1 h
    obtain ⟨⟨cs, _, _⟩, hcs, h⟩ := Outcome.bind_eq_ok_iff.1 h
    cases Outcome.pure_eq_ok_iff.1 h
    obtain ⟨hdimension, e, he, hphase⟩ := Lwe.of_encrypt hc
    refine .cons ⟨hdimension, ?_⟩ (ih hcs)
    have hdistance := distance_add_left e 0 m
    rw [add_zero] at hdistance
    rw [hphase, hdistance]
    exact hbound e he

theorem of_encryptRows {ss : List ℤ} {rows : List (List (Lwe w))}
    (hbound : ∀ e : BitVec w, IsNoise sigma e → distance e 0 ≤ bound)
    (h : encryptRows g sOut sigma ss xa xe = .ok (rows, xa', xe')) :
    List.Forall₂ (RowEncrypts sOut bound g) rows ss := by
  induction ss generalizing rows xa xe xa' xe' with
  | nil =>
    cases Outcome.pure_eq_ok_iff.1 h
    exact .nil
  | cons s ss ih =>
    obtain ⟨⟨row, _, _⟩, hrow, h⟩ := Outcome.bind_eq_ok_iff.1 h
    obtain ⟨⟨rows, _, _⟩, hrows, h⟩ := Outcome.bind_eq_ok_iff.1 h
    cases Outcome.pure_eq_ok_iff.1 h
    exact .cons (of_encryptAll hbound hrow) (ih hrows)

/-- The entries of a generated key belong to the input secret, with no more noise than can be drawn. -/
theorem encrypts_generate (hbound : ∀ e : BitVec w, IsNoise sigma e → distance e 0 ≤ bound)
    (h : generate w sIn sOut g sigma xa xe = .ok (k, xa', xe')) :
    k.gadget = g ∧ k.Encrypts sIn sOut bound := by
  obtain ⟨⟨rows, _, _⟩, hrows, h⟩ := Outcome.bind_eq_ok_iff.1 h
  cases Outcome.pure_eq_ok_iff.1 h
  exact ⟨rfl, rfl, of_encryptRows hbound hrows⟩

end Generate

/-! ### The switch -/

/-- Adding a row adds the combination of its phases with the digits. -/
theorem addRow_spec (sOut : LweSecret) {sum : Lwe w} (hsum : sum.OfDimension n) {row : List (Lwe w)}
    (hrow : ∀ c ∈ row, c.OfDimension n) (digits : List ℤ) :
    (addRow sum digits row).OfDimension n ∧ (addRow sum digits row).phase sOut =
      sum.phase sOut +
        (List.zipWith (fun d y => scale y d) digits (row.map fun c => c.phase sOut)).sum := by
  induction digits generalizing sum row with
  | nil => exact ⟨hsum, by simp [addRow]⟩
  | cons d digits ih =>
    cases row with
    | nil => exact ⟨hsum, by simp [addRow]⟩
    | cons c row =>
      obtain ⟨hc, hrow⟩ := List.forall_mem_cons.1 hrow
      set next := if d = 0 then sum else sum.addScaled c d with hnext
      have hdimension : next.OfDimension n := by
        rw [hnext]
        split_ifs
        · exact hsum
        · exact Lwe.ofDimension_addScaled hsum hc d
      have hphase : next.phase sOut = sum.phase sOut + scale (c.phase sOut) d := by
        rw [hnext]
        split_ifs with hd
        · rw [hd, scale_zero, add_zero]
        · exact Lwe.phase_addScaled hsum hc d
      obtain ⟨hfinal, hrest⟩ := ih hdimension hrow
      refine ⟨hfinal, ?_⟩
      rw [List.map_cons, List.zipWith_cons_cons, List.sum_cons, ← add_assoc, ← hphase]
      exact hrest

/-- The error of one row in the 64-bit torus: the noise of its entries times the digits, and the
rounding of the word times what the word is multiplied with. -/
def rowError (w : ℕ) (g : Gadget) (noise : ℕ) (s : ℤ) : ℕ :=
  g.rows * (2 ^ g.base2k / 2 * noise) * 2 ^ (64 - w) + s.natAbs * (2 ^ 64 / 2 ^ (g.precision + 1))

/-- The row of a coefficient adds the multiple of the word. -/
theorem RowEncrypts.distance_addRow_le (hw : w ≤ 64) (hp : g.precision ≤ w) {row : List (Lwe w)}
    {s : ℤ} (h : RowEncrypts sOut noise g row s) {sum : Lwe w} (hsum : sum.OfDimension sOut.dimension)
    (x : BitVec v) {y : BitVec 64} {e : ℕ} (hy : distance (toWide (sum.phase sOut)) y ≤ e) :
    distance (toWide ((addRow sum (g.signedDigits x) row).phase sOut)) (y + scale (toWide x) s) ≤
      e + rowError w g noise s := by
  have hmessages : List.Forall₂ (fun y m => distance y m ≤ noise)
      (row.map fun c => c.phase sOut) (g.multiples w s) :=
    List.forall₂_map_left_iff.2 (h.imp fun _ _ hentry => hentry.2)
  rw [(addRow_spec sOut hsum h.ofDimension _).2, toWide_add hw]
  exact (distance_add _ _ _ _).trans
    (Nat.add_le_add hy (Gadget.distance_wide_row_le hw hp hmessages x))

/-- All words of the mask, one row after the other. -/
theorem foldl_spec (hw : w ≤ 64) (hp : g.precision ≤ w) {rows : List (List (Lwe w))} {ss : List ℤ}
    (hrows : List.Forall₂ (RowEncrypts sOut noise g) rows ss) {xs : List (BitVec v)}
    (hxs : xs.length = rows.length) {sum : Lwe w} (hsum : sum.OfDimension sOut.dimension)
    {y : BitVec 64} {e : ℕ} (hy : distance (toWide (sum.phase sOut)) y ≤ e) :
    let r := (xs.zip rows).foldl (fun sum (x, row) => addRow sum (g.signedDigits x) row) sum
    r.OfDimension sOut.dimension ∧
      distance (toWide (r.phase sOut)) (y + Lwe.dot (xs.map toWide) ss) ≤
        e + (ss.map (rowError w g noise)).sum := by
  induction hrows generalizing xs sum y e with
  | nil =>
    obtain rfl := List.length_eq_zero_iff.1 hxs
    exact ⟨hsum, by simpa [Lwe.dot] using hy⟩
  | @cons row s rows ss hrow _ ih =>
    obtain ⟨x, xs, rfl⟩ := List.exists_cons_of_length_eq_add_one hxs
    obtain ⟨hdimension, hdist⟩ := ih (by simpa using hxs) (addRow_spec sOut hsum hrow.ofDimension _).1
      (hrow.distance_addRow_le hw hp hsum x hy)
    refine ⟨hdimension, ?_⟩
    rw [List.map_cons, Lwe.dot, List.zipWith_cons_cons, List.sum_cons, List.map_cons, List.sum_cons,
      ← add_assoc, ← Nat.add_assoc]
    exact hdist

/-- The errors of all rows. -/
theorem sum_rowError (w : ℕ) (g : Gadget) (noise : ℕ) (ss : List ℤ) :
    (ss.map (rowError w g noise)).sum =
      (ss.map Int.natAbs).sum * (2 ^ 64 / 2 ^ (g.precision + 1)) +
        ss.length * (g.rows * (2 ^ g.base2k / 2 * noise) * 2 ^ (64 - w)) := by
  induction ss with
  | nil => simp
  | cons s ss ih =>
    rw [List.map_cons, List.sum_cons, ih, rowError, List.map_cons, List.sum_cons, List.length_cons]
    ring

/-- What rounding the body of `v` bits to `w` bits changes at most, in the 64-bit torus. -/
def roundingError (w v : ℕ) : ℕ := if v ≤ w then 0 else 2 ^ (63 - w)

theorem distance_body_le (hw : w ≤ 64) (hv : v ≤ 64) (x : BitVec v) :
    distance (toWide (ofWide w (toWide x))) (toWide x) ≤ roundingError w v := by
  rw [roundingError]
  split_ifs with h
  · rw [toWide_ofWide_toWide h hw, distance_self]
  · exact distance_toWide_ofWide_le (by omega) _

/-- The switched ciphertext has the phase of the ciphertext, with a bounded error. -/
theorem Encrypts.distance_switch_le (h : k.Encrypts sIn sOut noise) (hw : w ≤ 64) (hv : v ≤ 64)
    (hp : k.gadget.precision ≤ w) {c : Lwe v} (hc : c.OfDimension sIn.dimension) :
    (k.switch c).OfDimension sOut.dimension ∧
      distance (toWide ((k.switch c).phase sOut)) (toWide (c.phase sIn)) ≤
        roundingError w v + magnitude sIn.coeffs * (2 ^ 64 / 2 ^ (k.gadget.precision + 1)) +
          sIn.dimension *
            (k.gadget.rows * (2 ^ k.gadget.base2k / 2 * noise) * 2 ^ (64 - w)) := by
  have hlength : c.mask.length = k.rows.length := by
    rw [Lwe.length_mask hc, ← h.nIn_eq, nIn]
  have hstart : distance (toWide ((Lwe.trivial k.nOut (ofWide w (toWide c.body))).phase sOut))
      (toWide c.body) ≤ roundingError w v := by
    rw [Lwe.phase_trivial]
    exact distance_body_le hw hv _
  obtain ⟨hdimension, hdist⟩ := foldl_spec hw hp h.rows hlength
    (h.nOut_eq ▸ Lwe.ofDimension_trivial k.nOut _) hstart
  rw [sum_rowError, Array.length_toList, ← Nat.add_assoc] at hdist
  refine ⟨hdimension, ?_⟩
  rw [Lwe.toWide_phase hv]
  exact hdist

/-- Switching needs digits of less than a machine word, unless there is no mask. -/
theorem Encrypts.switchChecked_eq_ok_iff (h : k.Encrypts sIn sOut noise) {c : Lwe v}
    (hc : c.OfDimension sIn.dimension) {r : Lwe w} :
    k.switchChecked c = .ok r ↔
      (sIn.dimension = 0 ∨ k.gadget.base2k < 64) ∧ k.switch c = r := by
  rw [switchChecked, h.nIn_eq, Lwe.Checked.ofDimension_eq_ok_iff.2 hc, Outcome.ok_bind,
    Outcome.check_bind_eq_ok_iff, require_eq_ok_iff, Outcome.pure_eq_ok_iff]

/-- Let the entries of a key belong to the coefficients of the input secret, with noise of at most
`noise`, and let the digits fit the words of 32 bits.  Then the switched ciphertext carries the phase of
the ciphertext: what is lost is the rounding of a body of 64 bits, the rounding of the mask to its
digits, and the noise of the entries times the digits.  The switch succeeds for every gadget with digits,
and without digits as long as there is no mask or the base fits a machine word. -/
theorem switch_phase {k : LweSwitchingKey 32} (h : k.Encrypts sIn sOut noise)
    (hv : v = 32 ∨ v = 64) (hbase : 1 ≤ k.gadget.base2k)
    (hp : k.gadget.base2k * k.gadget.rows ≤ 32) {c : Lwe v} (hc : c.OfDimension sIn.dimension) :
    (k.switchChecked c = .ok (k.switch c) ↔ sIn.dimension = 0 ∨ k.gadget.base2k < 64) ∧
    (0 < k.gadget.rows → k.switchChecked c = .ok (k.switch c)) ∧
    (k.switch c).OfDimension sOut.dimension ∧
    distance (toWide ((k.switch c).phase sOut)) (toWide (c.phase sIn)) ≤
      (if v = 64 then 2 ^ 31 else 0) +
        magnitude sIn.coeffs * 2 ^ (63 - k.gadget.base2k * k.gadget.rows) +
        2 ^ 32 * sIn.dimension * k.gadget.rows * 2 ^ (k.gadget.base2k - 1) * noise := by
  have hchecked : k.switchChecked c = .ok (k.switch c) ↔
      sIn.dimension = 0 ∨ k.gadget.base2k < 64 :=
    (h.switchChecked_eq_ok_iff hc).trans (and_iff_left rfl)
  have hrounding : roundingError 32 v = if v = 64 then 2 ^ 31 else 0 := by
    rcases hv with rfl | rfl <;> rfl
  have hlast : 2 ^ 64 / 2 ^ (k.gadget.precision + 1) =
      2 ^ (63 - k.gadget.base2k * k.gadget.rows) := by
    rw [Gadget.precision, Nat.pow_div (by omega) (by decide)]
    congr 1
    omega
  have hhalf : 2 ^ k.gadget.base2k / 2 = 2 ^ (k.gadget.base2k - 1) := by
    conv_lhs => rw [← Nat.sub_add_cancel hbase, pow_succ]
    exact Nat.mul_div_cancel _ Nat.two_pos
  obtain ⟨hdimension, hdist⟩ := h.distance_switch_le (by decide) (by omega) hp hc
  refine ⟨hchecked, fun hrows => hchecked.2 (.inr ?_), hdimension, ?_⟩
  · have := Nat.le_mul_of_pos_right k.gadget.base2k hrows
    omega
  · rw [hrounding, hlast, hhalf] at hdist
    refine hdist.trans_eq ?_
    ring

/-- Two coefficients with two digits each, to a secret of one coefficient. -/
def twoDigitKey : LweSwitchingKey 32 where
  rows := [[.ofMask ⟨#[3]⟩ 0x10000000 1 [5], .ofMask ⟨#[3]⟩ 0x01000000 (-1) [0x80000001]],
    [.ofMask ⟨#[3]⟩ 0xe0000000 0 [7], .ofMask ⟨#[3]⟩ 0xfe000000 1 [0xffffffff]]]
  gadget := ⟨4, 2⟩
  nOut := 1

/-- A ciphertext of 64 bits, switched with noise of one unit in the entries. -/
theorem switch_phase_twoDigitKey :
    let sIn : LweSecret := ⟨#[1, -2]⟩
    let sOut : LweSecret := ⟨#[3]⟩
    let c : Lwe 64 := ⟨#[0x0123456789abcdef, 0x3000000000000001, 0xdeadbeef00000007]⟩
    twoDigitKey.Encrypts sIn sOut 1 ∧ c.OfDimension sIn.dimension ∧
      twoDigitKey.switchChecked c = .ok (twoDigitKey.switch c) ∧
      distance (toWide ((twoDigitKey.switch c).phase sOut)) (toWide (c.phase sIn)) ≤
        2 ^ 31 + 3 * 2 ^ 55 + 2 ^ 32 * 2 * 2 * 2 ^ 3 * 1 := by
  intro sIn sOut c
  have hkey : twoDigitKey.Encrypts sIn sOut 1 :=
    ⟨rfl, .cons (.cons ⟨rfl, by decide⟩ (.cons ⟨rfl, by decide⟩ .nil))
      (.cons (.cons ⟨rfl, by decide⟩ (.cons ⟨rfl, by decide⟩ .nil)) .nil)⟩
  obtain ⟨-, hchecked, -, hdist⟩ := switch_phase hkey (.inr rfl) (by decide) (by decide) (c := c) rfl
  exact ⟨hkey, rfl, hchecked (by decide), hdist⟩

end LweSwitchingKey

end CipherMonitor
