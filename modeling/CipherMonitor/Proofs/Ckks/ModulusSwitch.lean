import CipherMonitor.Proofs.Ckks.Arithmetic
import CipherMonitor.Proofs.Ckks.Levels
import CipherMonitor.Proofs.Ckks.Position

/-!
# Switching the modulus commutes with the arithmetic

The modulus of a level divides those of all levels above, so it makes no difference whether operands or
results are reduced by it: polynomial by polynomial, and with it for whole ciphertexts, their failures
included.

* `Poly.reduce_addMod`, `Poly.reduce_subMod`, `Poly.reduce_mulMod`, … — reduction before and after an
  operation.
* `Ckks.Ciphertext.Sits` — ciphertexts that sit on a level of the chain.
* `Ckks.Ciphertext.switched`, `Ckks.Ciphertext.modSwitch_eq_ok` — the ciphertext on the target level.
* `Ckks.Ciphertext.Sits.decrypt_switched`, `Ckks.Ciphertext.Sits.iterate_modSwitchNext` — decryption,
  and the steps in between.
* `Ckks.Ciphertext.switched_add`, `Ckks.Ciphertext.switched_multiply`, … — one lemma for each operation.
* `Ckks.Ciphertext.modSwitch_commutes` — all of them.
-/

namespace CipherMonitor

open CipherMonitor.Poly

/-! ### Polynomials -/

namespace Poly

variable {p q : Poly ℤ} {n m k : ℕ}

/-- Polynomials that represent one element are equal after reduction. -/
theorem reduce_eq_reduce (hp : p.size = n) (hq : q.size = n)
    (h : p.residue n m = q.residue n m) : p.reduce m = q.reduce m :=
  (isReduced_reduce hp).ext (isReduced_reduce hq)
    (by rw [residue_reduce le_rfl, residue_reduce le_rfl, h])

theorem IsReduced.reduce_eq (hp : p.IsReduced n m) : p.reduce m = p :=
  (isReduced_reduce hp.size_eq).ext hp (residue_reduce le_rfl p)

@[simp] theorem reduce_zero (n m : ℕ) : (Poly.zero n : Poly ℤ).reduce m = Poly.zero n :=
  isReduced_zero.reduce_eq

@[simp] theorem sameSize_reduce (p q : Poly ℤ) (m : ℕ) :
    (p.reduce m).sameSize (q.reduce m) = p.sameSize q := by simp [sameSize]

section

variable (hm : m ≤ k)

include hm

theorem reduce_reduce (p : Poly ℤ) : (p.reduce k).reduce m = p.reduce m :=
  reduce_eq_reduce (size_reduce p k) rfl (residue_reduce hm p)

theorem reduce_negMod (p : Poly ℤ) : (p.negMod k).reduce m = (p.reduce m).negMod m := by
  rw [negMod, reduce_reduce hm, negMod]
  refine reduce_eq_reduce rfl (by simp) ?_
  rw [residue_neg, residue_neg, residue_reduce le_rfl]

theorem reduce_scaleMod (c : ℤ) (p : Poly ℤ) :
    (p.scaleMod c k).reduce m = (p.reduce m).scaleMod c m := by
  rw [scaleMod, reduce_reduce hm, scaleMod]
  refine reduce_eq_reduce rfl (by simp) ?_
  rw [residue_scale, residue_scale, residue_reduce le_rfl]

variable (h : p.size = q.size)

include h

theorem reduce_addMod : (p.addMod q k).reduce m = (p.reduce m).addMod (q.reduce m) m := by
  have hp : (p.reduce m).size = p.size := size_reduce p m
  have hq : (q.reduce m).size = p.size := (size_reduce q m).trans h.symm
  rw [addMod, reduce_reduce hm, addMod]
  refine reduce_eq_reduce (n := p.size) (by simp [h]) (by simp [h]) ?_
  rw [residue_add rfl h.symm, residue_add hp hq, residue_reduce le_rfl, residue_reduce le_rfl]

theorem reduce_subMod : (p.subMod q k).reduce m = (p.reduce m).subMod (q.reduce m) m := by
  have hp : (p.reduce m).size = p.size := size_reduce p m
  have hq : (q.reduce m).size = p.size := (size_reduce q m).trans h.symm
  rw [subMod, reduce_reduce hm, subMod]
  refine reduce_eq_reduce (n := p.size) (by simp [h]) (by simp [h]) ?_
  rw [residue_sub rfl h.symm, residue_sub hp hq, residue_reduce le_rfl, residue_reduce le_rfl]

theorem reduce_mulMod : (p.mulMod q k).reduce m = (p.reduce m).mulMod (q.reduce m) m := by
  have hp : (p.reduce m).size = p.size := size_reduce p m
  have hq : (q.reduce m).size = p.size := (size_reduce q m).trans h.symm
  rw [mulMod, reduce_reduce hm, mulMod]
  refine reduce_eq_reduce (size_mul h) ((size_mul (hp.trans hq.symm)).trans hp) ?_
  rw [residue_mul rfl h.symm, residue_mul hp hq, residue_reduce le_rfl, residue_reduce le_rfl]

end

theorem reduce_mulSmallMod (hm : m ≤ k) {s : Array ℤ} (hs : s.size = p.size) :
    (p.mulSmallMod s k).reduce m = (p.reduce m).mulSmallMod s m := by
  have hp : (p.reduce m).size = p.size := size_reduce p m
  rw [mulSmallMod, reduce_reduce hm, mulSmallMod]
  refine reduce_eq_reduce (n := p.size) (by simp) (by simp) ?_
  rw [residue_mulSmall rfl hs, residue_mulSmall hp hs, residue_reduce le_rfl]

end Poly

namespace Ckks

/-- The plaintext on a level below. -/
def Plaintext.switched (t : Plaintext) (level logQ : ℕ) : Plaintext :=
  { t with poly := t.poly.reduce logQ, level, logQ }

namespace Ciphertext

variable {p : Parameters} {n q level logQ : ℕ} {s : Secret} {a b c : Ciphertext} {t : Plaintext}

/-! ### Ciphertexts on a level -/

/-- Reduced polynomials with `n` coefficients, at least one, on a level of the chain. -/
structure Sits (p : Parameters) (n : ℕ) (c : Ciphertext) : Prop where
  logQ_eq : p.logQ c.level = .ok c.logQ
  ne_nil : c.polys ≠ []
  polys : ∀ q ∈ c.polys, q.IsReduced n c.logQ

instance (p : Parameters) (n : ℕ) (c : Ciphertext) : Decidable (c.Sits p n) :=
  decidable_of_iff
    (p.logQ c.level = .ok c.logQ ∧ c.polys ≠ [] ∧ ∀ q ∈ c.polys, q.IsReduced n c.logQ)
    ⟨fun ⟨h1, h2, h3⟩ => ⟨h1, h2, h3⟩, fun h => ⟨h.logQ_eq, h.ne_nil, h.polys⟩⟩

theorem Sits.size_eq (hc : c.Sits p n) : ∀ r ∈ c.polys, r.size = n :=
  fun r hr => (hc.polys r hr).size_eq

theorem Sits.degree_eq (hc : c.Sits p n) : c.degree = n := by
  obtain ⟨r, rs, hr⟩ := List.exists_cons_of_ne_nil hc.ne_nil
  rw [degree, hr]
  exact hc.size_eq r (by simp [hr])

/-- The ciphertext on a level below. -/
def switched (c : Ciphertext) (level logQ : ℕ) : Ciphertext :=
  { c with polys := c.polys.map (·.reduce logQ), level, logQ }

@[simp] theorem size_switched (c : Ciphertext) (level q : ℕ) : (c.switched level q).size = c.size :=
  List.length_map _

@[simp] theorem degree_switched (c : Ciphertext) (level q : ℕ) :
    (c.switched level q).degree = c.degree := by
  obtain ⟨polys, -, -, -⟩ := c
  cases polys with
  | nil => rfl
  | cons r rs => exact size_reduce r q

@[simp] theorem switched_eq_nil_iff : (c.switched level q).polys = [] ↔ c.polys = [] :=
  List.map_eq_nil_iff

/-- A level below has a modulus, which is not larger. -/
theorem Sits.exists_logQ (hc : c.Sits p n) (hle : level ≤ c.level) :
    ∃ q, p.logQ level = .ok q ∧ q ≤ c.logQ := by
  obtain ⟨hlt, hsum, hword⟩ := Parameters.logQ_eq_ok_iff.1 hc.logQ_eq
  have hmono : p.chainSum (level + 1) ≤ p.chainSum (c.level + 1) :=
    Parameters.chainSum_mono (by omega)
  exact ⟨_, Parameters.logQ_eq_ok_iff.2 ⟨by omega, rfl, by omega⟩, hsum ▸ hmono⟩

theorem modSwitch_eq_ok (hq : p.logQ level = .ok q) (hle : level ≤ c.level) :
    c.modSwitch p level = .ok (c.switched level q) := by
  rw [modSwitch, if_neg (by omega), hq]
  rfl

theorem Sits.sits_switched (hc : c.Sits p n) (hq : p.logQ level = .ok q) :
    (c.switched level q).Sits p n where
  logQ_eq := hq
  ne_nil := fun h => hc.ne_nil (switched_eq_nil_iff.1 h)
  polys := List.forall_mem_map.2 fun r hr => isReduced_reduce (hc.size_eq r hr)

/-! ### The steps in between -/

theorem switched_switched {level' q' : ℕ} (h : q' ≤ q) :
    (c.switched level q).switched level' q' = c.switched level' q' := by
  simp only [switched, List.map_map, mk.injEq, and_true]
  exact List.map_congr_left fun r _ => reduce_reduce h r

/-- Staying on the level changes nothing. -/
theorem Sits.switched_self (hc : c.Sits p n) : c.switched c.level c.logQ = c := by
  have hpolys : c.polys.map (·.reduce c.logQ) = c.polys :=
    (List.map_congr_left fun r hr => (hc.polys r hr).reduce_eq).trans (List.map_id _)
  rw [switched, hpolys]

theorem Sits.iterate_modSwitchNext (hc : c.Sits p n) {steps : ℕ} (hsteps : steps ≤ c.level) :
    (· >>= fun c => c.modSwitchNext p)^[steps] (.ok c) = c.modSwitch p (c.level - steps) := by
  induction steps generalizing c with
  | zero =>
    rw [Nat.sub_zero, modSwitch_eq_ok hc.logQ_eq le_rfl, hc.switched_self]
    rfl
  | succ steps ih =>
    obtain ⟨q, hq, hle⟩ := hc.exists_logQ (Nat.sub_le c.level 1)
    obtain ⟨q', hq', -⟩ := hc.exists_logQ (Nat.sub_le c.level (steps + 1))
    have hnext : c.modSwitchNext p = .ok (c.switched (c.level - 1) q) := by
      rw [modSwitchNext, if_neg (by omega), modSwitch_eq_ok hq (Nat.sub_le _ _)]
    have hlevel : c.level - 1 - steps = c.level - (steps + 1) := by omega
    have hbelow : q' ≤ q := by
      obtain ⟨q'', hq'', hle''⟩ := (hc.sits_switched hq).exists_logQ (Nat.sub_le (c.level - 1) steps)
      rw [hlevel, hq', Except.ok.injEq] at hq''
      exact hq'' ▸ hle''
    rw [Function.iterate_succ_apply, Outcome.ok_bind, hnext,
      ih (hc.sits_switched hq) (by simp only [switched]; omega)]
    change (c.switched (c.level - 1) q).modSwitch p (c.level - 1 - steps) = _
    rw [hlevel, modSwitch_eq_ok hq' (by simp only [switched]; omega),
      modSwitch_eq_ok hq' (Nat.sub_le _ _), switched_switched hbelow]

/-! ### Decryption -/

theorem reduce_evalAt {ps : List (Poly ℤ)} (h : ∀ r ∈ ps, r.IsReduced s.degree logQ)
    (hq : q ≤ logQ) : evalAt s q (ps.map (·.reduce q)) = (evalAt s logQ ps).reduce q := by
  induction ps with
  | nil => simp [evalAt, reduce, Poly.map]
  | cons r ps ih =>
    cases ps with
    | nil => rfl
    | cons r' ps =>
      obtain ⟨hr, hps⟩ := List.forall_mem_cons.1 h
      have heval := (isReduced_evalAt (List.cons_ne_nil r' ps) hps).size_eq
      have ih := ih hps
      rw [List.map_cons] at ih
      rw [List.map_cons, List.map_cons, evalAt, ih, evalAt,
        reduce_addMod hq (by simp [mulSmallMod, hr.size_eq, heval]), reduce_mulSmallMod hq heval.symm]

/-- Decryption gives the plaintext on the level below; it fails where it failed before. -/
theorem Sits.decrypt_switched (hc : c.Sits p n) (s : Secret) (level : ℕ) (hq : q ≤ c.logQ) :
    (c.switched level q).decrypt s = c.decrypt s >>= fun x => .ok (x.switched level q) := by
  rw [decrypt, decrypt, size_switched, degree_switched, require_of hc.ne_nil,
    require_of (show (c.switched level q).polys ≠ [] from mt switched_eq_nil_iff.1 hc.ne_nil)]
  by_cases h : c.size = 1 ∨ c.degree = s.degree
  · have hphase : (c.switched level q).phase s = (c.phase s).reduce q := by
      rcases h with h | h
      · obtain ⟨r, hr⟩ := List.length_eq_one_iff.1 h
        rw [phase, phase, switched, hr]
        rfl
      · rw [hc.degree_eq] at h
        exact reduce_evalAt (h ▸ hc.polys) hq
    rw [require_of h, Outcome.ok_bind, Outcome.ok_bind, hphase]
    rfl
  · rw [require, if_neg h]
    rfl

theorem Sits.exists_decrypt (hc : c.Sits p s.degree) : ∃ x, c.decrypt s = .ok x := by
  obtain ⟨x, hx, -⟩ := decryptsTo_of_polys rfl hc.ne_nil hc.polys
  exact ⟨x, hx⟩

/-! ### Sums and differences -/

theorem map_zipLong {f f' : Poly ℤ → Poly ℤ → Poly ℤ} {g : Poly ℤ → Poly ℤ} {ps qs : List (Poly ℤ)}
    (h : ∀ r ∈ ps, ∀ r' ∈ qs, g (f r r') = f' (g r) (g r')) :
    (zipLong f ps qs).map g = zipLong f' (ps.map g) (qs.map g) := by
  induction ps generalizing qs with
  | nil => cases qs <;> rfl
  | cons r ps ih =>
    cases qs with
    | nil => rfl
    | cons r' qs =>
      simp only [List.forall_mem_cons] at h
      rw [zipLong, List.map_cons, List.map_cons, List.map_cons, zipLong, h.1.1,
        ih fun x hx y hy => (h.2 x hx).2 y hy]

theorem zipLong_reduce {f : Poly ℤ → Poly ℤ → ℕ → Poly ℤ}
    (hf : ∀ {r r' : Poly ℤ}, r.size = r'.size → (f r r' logQ).reduce q = f (r.reduce q) (r'.reduce q) q)
    {ps qs : List (Poly ℤ)} (hps : ∀ r ∈ ps, r.size = n) (hqs : ∀ r ∈ qs, r.size = n) :
    zipLong (fun r r' => f r r' q) (ps.map (·.reduce q)) (qs.map (·.reduce q)) =
      (zipLong (fun r r' => f r r' logQ) ps qs).map (·.reduce q) :=
  (map_zipLong fun r hr r' hr' => hf ((hps r hr).trans (hqs r' hr').symm)).symm

/-- Only the scales matter on one level. -/
theorem aligned_of_eq {levelA levelB level : ℕ} (h : levelA = levelB) (scaleA scaleB : Float) :
    aligned level scaleA level scaleB = aligned levelA scaleA levelB scaleB := by
  simp [aligned, h]

theorem aligned_switched (h : a.level = b.level) (level q : ℕ) :
    aligned (a.switched level q).level (a.switched level q).scale (b.switched level q).level
      (b.switched level q).scale = aligned a.level a.scale b.level b.scale := aligned_of_eq h _ _

@[simp] theorem sameDegree_switched (a b : Ciphertext) (level q : ℕ) :
    sameDegree (a.switched level q) (b.switched level q) = sameDegree a b := by
  simp [sameDegree]

section

variable (ha : a.Sits p n) (hb : b.Sits p n) (hlevel : a.level = b.level)
  (hle : q ≤ a.logQ)

include ha hb hlevel hle

theorem switched_add (level : ℕ) :
    (a.switched level q).add (b.switched level q) =
      a.add b >>= fun c => .ok (c.switched level q) := by
  rw [add, add, aligned_switched hlevel, sameDegree_switched, size_switched, size_switched]
  cases aligned a.level a.scale b.level b.scale with
  | error e => rfl
  | ok _ =>
    cases sameDegree a b with
    | error e => rfl
    | ok _ =>
      simp only [Outcome.ok_bind]
      split_ifs
      · exact congrArg (fun polys => Except.ok { a.switched level q with polys })
          (zipLong_reduce (reduce_addMod hle) ha.size_eq hb.size_eq)
      · exact congrArg (fun polys => Except.ok { b.switched level q with polys })
          (zipLong_reduce (reduce_addMod hle) hb.size_eq ha.size_eq)

theorem switched_sub (level : ℕ) :
    (a.switched level q).sub (b.switched level q) =
      a.sub b >>= fun c => .ok (c.switched level q) := by
  have hpad : ∀ r ∈ a.polys ++ List.replicate (b.size - a.size) (Poly.zero n), r.size = n := by
    intro r hr
    rcases List.mem_append.1 hr with hr | hr
    · exact ha.size_eq r hr
    · rw [List.eq_of_mem_replicate hr, size_zero]
  -- The zeros behind the first operand are reduced.
  have hpadded : (a.switched level q).polys ++ List.replicate (b.size - a.size) (Poly.zero n) =
      (a.polys ++ List.replicate (b.size - a.size) (Poly.zero n)).map fun r : Poly ℤ => r.reduce q := by
    rw [List.map_append, List.map_replicate, reduce_zero]
    rfl
  rw [sub, sub, aligned_switched hlevel, sameDegree_switched, size_switched, size_switched,
    degree_switched, hb.degree_eq, hpadded]
  cases aligned a.level a.scale b.level b.scale with
  | error e => rfl
  | ok _ =>
    cases sameDegree a b with
    | error e => rfl
    | ok _ =>
      exact congrArg (fun polys => Except.ok { a.switched level q with polys })
        (zipLong_reduce (reduce_subMod hle) hpad hb.size_eq)

/-! ### Products -/

theorem switched_multiply (level : ℕ) :
    (a.switched level q).multiply (b.switched level q) =
      a.multiply b >>= fun c => .ok (c.switched level q) := by
  have hasize := ha.size_eq
  have hbsize := hb.size_eq
  obtain ⟨as, la, qa, sa⟩ := a
  obtain ⟨bs, lb, qb, sb⟩ := b
  obtain rfl : la = lb := hlevel
  simp only [] at hasize hbsize hle
  rw [multiply, multiply, if_neg (by simp [switched]), if_neg (by simp)]
  match as, bs with
  | [a0, a1], [b0, b1] =>
    simp only [List.forall_mem_cons] at hasize hbsize
    obtain ⟨ha0, ha1, -⟩ := hasize
    obtain ⟨hb0, hb1, -⟩ := hbsize
    have hmul : ∀ {x y : Poly ℤ}, x.size = n → y.size = n →
        (x.mulMod y qa).size = n ∧
          (x.mulMod y qa).reduce q = (x.reduce q).mulMod (y.reduce q) q := fun hx hy =>
      ⟨by rw [mulMod, size_reduce, size_mul (hx.trans hy.symm), hx],
        reduce_mulMod hle (hx.trans hy.symm)⟩
    have hcross := reduce_addMod hle ((hmul ha0 hb1).1.trans (hmul ha1 hb0).1.symm)
    rw [(hmul ha0 hb1).2, (hmul ha1 hb0).2] at hcross
    have hsame : a0.sameSize b0 = .ok () := require_of (ha0.trans hb0.symm)
    simp only [switched, List.map_cons, List.map_nil, sameSize_reduce, hsame, Outcome.ok_bind,
      ← hcross, ← (hmul ha0 hb0).2, ← (hmul ha1 hb1).2]
    rfl
  | [_, _], [] => rfl
  | [_, _], [_] => rfl
  | [_, _], _ :: _ :: _ :: _ => simp [switched]; rfl
  | [], _ => rfl
  | [_], _ => rfl
  | _ :: _ :: _ :: _, _ => simp [switched]; rfl

end

theorem Sits.switched_square (ha : a.Sits p n) (hle : q ≤ a.logQ) (level : ℕ) :
    (a.switched level q).square = a.square >>= fun c => .ok (c.switched level q) := by
  have hasize := ha.size_eq
  obtain ⟨as, la, qa, sa⟩ := a
  simp only [] at hasize hle
  rw [square, square]
  match as with
  | [a0, a1] =>
    simp only [List.forall_mem_cons] at hasize
    obtain ⟨ha0, ha1, -⟩ := hasize
    simp only [switched, List.map_cons, List.map_nil, Outcome.ok_bind, reduce_scaleMod hle,
      reduce_mulMod hle rfl, reduce_mulMod hle (ha0.trans ha1.symm)]
  | [] => rfl
  | [_] => rfl
  | _ :: _ :: _ :: _ => simp [switched]; rfl

theorem switched_negate (hle : q ≤ a.logQ) (level : ℕ) :
    (a.switched level q).negate = a.negate.switched level q := by
  simp only [negate, switched, List.map_map, mk.injEq, and_true]
  exact List.map_congr_left fun r _ => (reduce_negMod hle r).symm

/-! ### Operations with a plaintext -/

theorem switched_withFirst {f : Poly ℤ → Poly ℤ → ℕ → Poly ℤ} (hlevel : a.level = t.level)
    (hf : ∀ r : Poly ℤ, r.size = t.poly.size →
      (f r t.poly a.logQ).reduce q = f (r.reduce q) (t.poly.reduce q) q) (level : ℕ) :
    withFirst f (a.switched level q) (t.switched level q) =
      withFirst f a t >>= fun c => .ok (c.switched level q) := by
  have haligned : aligned (a.switched level q).level (a.switched level q).scale
      (t.switched level q).level (t.switched level q).scale =
        aligned a.level a.scale t.level t.scale := aligned_of_eq hlevel _ _
  rw [withFirst, withFirst, haligned]
  cases aligned a.level a.scale t.level t.scale with
  | error e => rfl
  | ok _ =>
    obtain ⟨as, la, qa, sa⟩ := a
    match as with
    | [] => rfl
    | r :: rs =>
      simp only [switched, Plaintext.switched, List.map_cons, sameSize_reduce]
      cases hsize : r.sameSize t.poly with
      | error e => rfl
      | ok _ =>
        simp only [Outcome.ok_bind, ← hf r (require_eq_ok_iff.1 hsize)]
        rfl

theorem Sits.switched_multiplyPlain (ha : a.Sits p n) (hlevel : a.level = t.level) (hle : q ≤ a.logQ)
    (level : ℕ) :
    (a.switched level q).multiplyPlain (t.switched level q) =
      a.multiplyPlain t >>= fun c => .ok (c.switched level q) := by
  have hcheck : require ((a.switched level q).polys = [] ∨
      (t.switched level q).poly.size = (a.switched level q).degree) .shape =
        require (a.polys = [] ∨ t.poly.size = a.degree) .shape := by
    simp [Plaintext.switched]
  have hswitched : ¬ (a.switched level q).level ≠ (t.switched level q).level := not_not.2 rfl
  rw [multiplyPlain, multiplyPlain, if_neg hswitched, if_neg (not_not.2 hlevel), hcheck]
  cases h : require (a.polys = [] ∨ t.poly.size = a.degree) .shape with
  | error e => rfl
  | ok _ =>
    have hsize : t.poly.size = n := by
      rw [← ha.degree_eq]
      exact (require_eq_ok_iff.1 h).resolve_left ha.ne_nil
    have hpolys : (a.polys.map (·.reduce q)).map (fun r => (t.poly.reduce q).mulMod r q) =
        (a.polys.map fun r => t.poly.mulMod r a.logQ).map (·.reduce q) := by
      rw [List.map_map, List.map_map]
      exact List.map_congr_left fun r hr =>
        (reduce_mulMod hle (hsize.trans (ha.size_eq r hr).symm)).symm
    exact congrArg (fun polys => Except.ok
      { a.switched level q with polys, scale := a.scale * t.scale }) hpolys

/-! ### The modulus switch -/

/-- An operation that stays on the level can be done before or after the modulus switch. -/
theorem bind_modSwitch {x : Outcome Ciphertext} (hq : p.logQ level = .ok q)
    (hle : level ≤ a.level) (hx : ∀ c, x = .ok c → c.level = a.level) :
    (x >>= fun c => c.modSwitch p level) = x >>= fun c => .ok (c.switched level q) := by
  cases x with
  | error e => rfl
  | ok c => exact modSwitch_eq_ok hq (hle.trans_eq (hx c rfl).symm)

/-- Ciphertexts on one level are brought down to another one.  The result decrypts to the reduced
plaintext, for every secret; single steps lead to the same ciphertext; and the modulus switch commutes
with all operations, exactly and with the same failures, where plaintexts are reduced along with the
ciphertexts. -/
theorem modSwitch_commutes (ha : a.Sits p n) (hb : b.Sits p n) (hlevel : a.level = b.level)
    (hle : level ≤ a.level) :
    ∃ q, p.logQ level = .ok q ∧ (∃ r, a.modSwitch p level = .ok r) ∧
    (∀ s : Secret, s.degree = n → ∃ x, a.decrypt s = .ok x) ∧
    (∀ s : Secret, (a.modSwitch p level >>= fun r => r.decrypt s) =
      a.decrypt s >>= fun x => .ok { x with poly := x.poly.reduce q, level, logQ := q }) ∧
    (· >>= fun c => c.modSwitchNext p)^[a.level - level] (.ok a) = a.modSwitch p level ∧
    ((a.add b >>= fun c => c.modSwitch p level) =
      a.modSwitch p level >>= fun a' => b.modSwitch p level >>= fun b' => a'.add b') ∧
    ((a.sub b >>= fun c => c.modSwitch p level) =
      a.modSwitch p level >>= fun a' => b.modSwitch p level >>= fun b' => a'.sub b') ∧
    (a.negate.modSwitch p level = a.modSwitch p level >>= fun a' => .ok a'.negate) ∧
    ((a.multiply b >>= fun c => c.modSwitch p level) =
      a.modSwitch p level >>= fun a' => b.modSwitch p level >>= fun b' => a'.multiply b') ∧
    ((a.square >>= fun c => c.modSwitch p level) =
      a.modSwitch p level >>= fun a' => a'.square) ∧
    ∀ t : Plaintext, a.level = t.level →
      let t' : Plaintext := { t with poly := t.poly.reduce q, level, logQ := q }
      ((a.addPlain t >>= fun c => c.modSwitch p level) =
        a.modSwitch p level >>= fun a' => a'.addPlain t') ∧
      ((a.subPlain t >>= fun c => c.modSwitch p level) =
        a.modSwitch p level >>= fun a' => a'.subPlain t') ∧
      ((a.multiplyPlain t >>= fun c => c.modSwitch p level) =
        a.modSwitch p level >>= fun a' => a'.multiplyPlain t') := by
  obtain ⟨q, hq, hqa⟩ := ha.exists_logQ hle
  have hswitchA := modSwitch_eq_ok hq hle
  have hswitchB := modSwitch_eq_ok hq (hlevel ▸ hle)
  refine ⟨q, hq, ⟨_, hswitchA⟩, fun s hs => (hs ▸ ha).exists_decrypt, fun s => ?_, ?_, ?_, ?_, ?_, ?_,
    ?_, fun t ht => ⟨?_, ?_, ?_⟩⟩
  · rw [hswitchA]
    exact ha.decrypt_switched s level hqa
  · rw [ha.iterate_modSwitchNext (Nat.sub_le _ _), Nat.sub_sub_self hle]
  · rw [bind_modSwitch hq hle fun _ => level_add hlevel, hswitchA, hswitchB]
    exact (switched_add ha hb hlevel hqa level).symm
  · rw [bind_modSwitch hq hle fun _ => level_sub, hswitchA, hswitchB]
    exact (switched_sub ha hb hlevel hqa level).symm
  · rw [hswitchA, modSwitch_eq_ok hq (c := a.negate) hle, ← switched_negate hqa]
    rfl
  · rw [bind_modSwitch hq hle fun _ => level_multiply, hswitchA, hswitchB]
    exact (switched_multiply ha hb hlevel hqa level).symm
  · rw [bind_modSwitch hq hle fun _ => level_square, hswitchA]
    exact (ha.switched_square hqa level).symm
  · rw [addPlain, bind_modSwitch hq hle fun _ => level_withFirst, hswitchA]
    exact (switched_withFirst (f := Poly.addMod) ht (fun r hr => reduce_addMod hqa hr) level).symm
  · rw [subPlain, bind_modSwitch hq hle fun _ => level_withFirst, hswitchA]
    exact (switched_withFirst (f := Poly.subMod) ht (fun r hr => reduce_subMod hqa hr) level).symm
  · rw [bind_modSwitch hq hle fun _ => level_multiplyPlain, hswitchA]
    exact (ha.switched_multiplyPlain ht hqa level).symm

/-- A difference of ciphertexts of different sizes and a square, one level down. -/
theorem modSwitch_commutes_samples :
    let p : Parameters := { ringDegree := 2, modulusBits := [2, 2, 2], scale := 2.0, sigma := 1.0 }
    let fresh : Ciphertext :=
      { polys := [⟨#[3, 1]⟩, ⟨#[3, 0]⟩], level := 0, logQ := 2, scale := freshSample.scale }
    shortSample.Sits p 2 ∧ freshSample.Sits p 2 ∧ freshSample.modSwitch p 0 = .ok fresh ∧
    ((shortSample.sub freshSample >>= fun c => c.modSwitch p 0) =
      shortSample.modSwitch p 0 >>= fun a => freshSample.modSwitch p 0 >>= fun b => a.sub b) ∧
    ((freshSample.square >>= fun c => c.modSwitch p 0) = fresh.square) := by
  intro p fresh
  have hshort : shortSample.Sits p 2 := by decide
  have hfresh : freshSample.Sits p 2 := by decide
  have hpolys : freshSample.polys.map (·.reduce 2) = fresh.polys := by decide +kernel
  have hswitch : freshSample.modSwitch p 0 = .ok fresh := by
    rw [modSwitch_eq_ok (q := 2) (by decide) (by decide), switched, hpolys]
  obtain ⟨-, -, -, -, -, -, -, hsub, -⟩ := modSwitch_commutes hshort hfresh rfl (Nat.zero_le 1)
  obtain ⟨-, -, -, -, -, -, -, -, -, -, hsquare, -⟩ :=
    modSwitch_commutes hfresh hfresh rfl (Nat.zero_le 1)
  rw [hswitch] at hsquare
  exact ⟨hshort, hfresh, hswitch, hsub, hsquare⟩

end Ciphertext

end Ckks

end CipherMonitor
