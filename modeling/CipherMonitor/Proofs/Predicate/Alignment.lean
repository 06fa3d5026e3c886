import CipherMonitor.Proofs.Ckks.Position
import CipherMonitor.Proofs.Predicate.Safety

/-!
# Terms that end at one level and one scale

The safe distance subtracts a product of a square, a product that is aligned once and a gap that is
aligned twice.  Whatever the moduli of the chain are, all three go through the same products of scales
and the same divisions, so that the differences are never refused; only the encoding of a constant
may fail.

* `Outcome.EncodesTo` — the only failures are numbers that do not fit their modulus.
* `Ckks.Ciphertext.StandsAt` — a ciphertext with its level and its scale, and one lemma for each
  operation.
* `Ckks.Parameters.scaleBelow`, `Arithmetic.nominalBelow` — the scale of a product, one level down,
  and that of three factors, two levels down.
* `Arithmetic.encodesTo_scaleBy`, `Arithmetic.exists_square` — both kinds of products.
* `Arithmetic.encodesTo_safeDistance` — the difference of the three terms.
* `Predicate.safeDistance_aligned` — the terms and their difference on a chain of any moduli.
-/

namespace CipherMonitor

open Ckks Ckks.Ciphertext CipherMonitor.Poly

/-- A number that is not a number is the only one that differs from itself. -/
theorem Binary64.beq_self {x : Float} (h : x.isNaN = false) : (x == x) = true := by
  have hmodel : x.toModel.unpack.isNaN = false := h
  show x.toModel.unpack.beq x.toModel.unpack = true
  cases hx : x.toModel.unpack with
  | notANumber =>
    rw [hx] at hmodel
    cases hmodel
  | infinity s => cases s <;> rfl
  | zero s => rfl
  | finite s m e hm =>
    cases s <;> simp [Float.Model.UnpackedFloat.beq, Float.Model.UnpackedFloat.compare]

/-! ### Failures of encoding -/

/-- A number is too large for its modulus, or so is its scale. -/
def Fault.IsEncoding : Fault → Prop
  | .ckks (.encodingOverflow ..) => True
  | .ckks (.scaleOutOfBounds ..) => True
  | _ => False

namespace Outcome

variable {α β : Type} {P Q : α → Prop} {R : β → Prop} {x : Outcome α} {a : α}

/-- The operation fails only where a number is encoded, and what it gives has the property. -/
def EncodesTo (x : Outcome α) (P : α → Prop) : Prop :=
  match x with
  | .ok a => P a
  | .error fault => fault.IsEncoding

theorem encodesTo_ok (h : P a) : EncodesTo (.ok a) P := h

theorem encodesTo_pure (h : P a) : EncodesTo (pure a) P := h

theorem encodesTo_of_exists (h : ∃ a, x = .ok a ∧ P a) : x.EncodesTo P := by
  obtain ⟨a, rfl, ha⟩ := h
  exact ha

theorem EncodesTo.of_ok (h : x.EncodesTo P) (hx : x = .ok a) : P a := by
  rw [hx] at h
  exact h

theorem EncodesTo.bind {f : α → Outcome β} (hx : x.EncodesTo P)
    (hf : ∀ a, P a → (f a).EncodesTo R) : (x >>= f).EncodesTo R := by
  cases x with
  | ok a => exact hf a hx
  | error fault => exact hx

end Outcome

/-! ### Operations at a level and a scale -/

namespace Ckks

variable {p : Parameters} {size level : ℕ} {scale scale' : Float} {a b c : Ciphertext}
  {t : Plaintext}

theorem encodesTo_quantize (v scale : Float) (logQ : ℕ) (bound : Float) :
    (quantize v scale logQ bound).EncodesTo fun _ => True := by
  unfold quantize
  dsimp only
  split
  · split_ifs
    · exact trivial
    · exact Outcome.encodesTo_ok trivial
  · exact trivial

/-- On the levels of the chain, nothing but the size of a number stands against its encoding. -/
theorem encodesTo_encode (hp : p.Sound) (v : Float) (hlevel : level + 1 < p.modulusBits.length)
    (scale : Float) : (encode p v level scale).EncodesTo (Plaintext.OnLevel p level scale) := by
  have hpos := hp.chainSum_pos (Nat.lt_of_succ_lt hlevel)
  have hword := hp.chainSum_lt (level + 1)
  unfold encode encodeAll
  rw [hp.levels_eq, Outcome.ok_bind, if_neg (by omega),
    require_of (show [v].length ≤ p.ringDegree from Nat.zero_lt_of_lt hp.two_le_ringDegree),
    Outcome.ok_bind, hp.logQ_eq hlevel, Outcome.ok_bind, require_of hpos, Outcome.ok_bind]
  split_ifs
  · exact trivial
  · rw [require_of (Nat.ne_of_lt hword), Outcome.ok_bind, List.mapM_cons, List.mapM_nil]
    refine Outcome.EncodesTo.bind (P := fun _ => True) ?_ fun coeffs _ => ?_
    · exact (encodesTo_quantize v scale _ _).bind fun n _ => Outcome.encodesTo_pure trivial
    · exact Outcome.encodesTo_pure ⟨rfl, rfl, hlevel, isReduced_reduce (size_ofFn _ _)⟩

namespace Ciphertext

/-- A ciphertext of `size` polynomials at a level and a scale. -/
structure StandsAt (p : Parameters) (size level : ℕ) (scale : Float) (c : Ciphertext) : Prop
    extends OnLevel p size c where
  level_eq : c.level = level
  scale_eq : c.scale = scale

theorem StandsAt.modulus (hp : p.Sound) (hc : c.StandsAt p size level scale) :
    p.logQ c.level = .ok c.logQ := by
  rw [hp.logQ_eq hc.level_lt, hc.logQ_eq]

theorem StandsAt.exists_multiplyPlain (hsize : 0 < size) (hc : c.StandsAt p size level scale)
    (ht : t.OnLevel p level scale') :
    ∃ r, c.multiplyPlain t = .ok r ∧ r.StandsAt p size level (scale * scale') := by
  have hok : c.multiplyPlain t = .ok
      { c with
        polys := c.polys.map fun q => t.poly.mulMod q c.logQ
        scale := c.scale * t.scale } := by
    unfold multiplyPlain
    rw [if_neg (not_not.2 (hc.level_eq.trans ht.level_eq.symm)),
      require_of (.inr (ht.poly.size_eq.trans (hc.degree_eq hsize).symm))]
    rfl
  refine ⟨_, hok, (meets_multiplyPlain hsize hc.toOnLevel ht.poly.size_eq).of_ok hok, hc.level_eq, ?_⟩
  rw [← hc.scale_eq, ← ht.scale_eq]

theorem StandsAt.exists_rescale (hp : p.Sound) (hc : c.StandsAt p size (level + 1) scale) :
    ∃ r, c.rescale p = .ok r ∧
      r.StandsAt p size level (scale / powTwo (p.modulusBits.getD (level + 1) 0)) := by
  have hne : c.level ≠ 0 := by
    rw [hc.level_eq]
    exact Nat.succ_ne_zero level
  obtain ⟨r, hr, -, -⟩ := Ciphertext.exists_rescale (hc.modulus hp) hne
  obtain ⟨-, bits, hbits, -, rfl⟩ := rescale_eq_ok_iff.1 hr
  refine ⟨_, hr, (meets_rescale hp hc.toOnLevel).of_ok hr, ?_, ?_⟩
  · exact congrArg (· - 1) hc.level_eq
  · rw [hc.level_eq] at hbits
    rw [← hc.scale_eq, List.getD_eq_getElem?_getD, hbits]
    rfl

theorem StandsAt.exists_square (hc : c.StandsAt p 2 level scale) :
    ∃ r, c.square = .ok r ∧ r.StandsAt p 3 level (scale * scale) := by
  obtain ⟨q₀, q₁, hq⟩ := List.length_eq_two.1 hc.size_eq
  have hmeets := Ciphertext.meets_square hc.toOnLevel
  unfold square at hmeets ⊢
  rw [hq] at hmeets ⊢
  refine ⟨_, rfl, hmeets.of_ok rfl, hc.level_eq, ?_⟩
  rw [← hc.scale_eq]

theorem StandsAt.exists_relinearize {k : RelinearizationKey} {s : Secret} {B : ℕ} (hp : p.Sound)
    (hk : k.IsFor p s B) (hs : s.degree = p.ringDegree) (hc : c.StandsAt p 3 level scale) :
    ∃ r, c.relinearize k = .ok r ∧ r.StandsAt p 2 level scale := by
  obtain ⟨q₀, q₁, q₂, hq⟩ := List.length_eq_three.1 hc.size_eq
  have hlast : q₂.size = s.degree := by
    rw [hs]
    exact (hc.polys q₂ (by simp [hq])).size_eq
  obtain ⟨-, -, -, hok⟩ := relinearize_eq_ok hp.pos hk (hc.modulus hp) hq hlast
  have hbeside := beside_relinearize hok
  exact ⟨_, hok, (meets_relinearize hp hk hs hc.toOnLevel).of_ok hok,
    hbeside.level_eq.trans hc.level_eq, hbeside.scale_eq.trans hc.scale_eq⟩

theorem aligned_self (level : ℕ) (h : scale.isNaN = false) :
    aligned level scale level scale = .ok () := by
  simp [aligned, bne, Binary64.beq_self h]

/-- At one level and one scale, differences are never refused. -/
theorem StandsAt.exists_sub (h : scale.isNaN = false) (ha : a.StandsAt p 2 level scale)
    (hb : b.StandsAt p 2 level scale) : ∃ r, a.sub b = .ok r ∧ r.StandsAt p 2 level scale := by
  have hdegree : a.degree = b.degree :=
    (ha.degree_eq (by decide)).trans (hb.degree_eq (by decide)).symm
  have haligned : aligned a.level a.scale b.level b.scale = .ok () := by
    rw [ha.level_eq, hb.level_eq, ha.scale_eq, hb.scale_eq, aligned_self level h]
  obtain ⟨r, hr⟩ : ∃ r, a.sub b = .ok r := by
    unfold sub
    rw [haligned, Outcome.ok_bind, sameDegree, require_of (.inr (.inr hdegree)), Outcome.ok_bind]
    exact ⟨_, rfl⟩
  have hbeside := beside_sub hr
  exact ⟨r, hr, (meets_sub (by decide) (by decide) ha.toOnLevel hb.toOnLevel).of_ok hr,
    hbeside.level_eq.trans ha.level_eq, hbeside.scale_eq.trans ha.scale_eq⟩

theorem StandsAt.exists_subPlain (h : scale.isNaN = false) (hc : c.StandsAt p 2 level scale)
    (ht : t.OnLevel p level scale) : ∃ r, c.subPlain t = .ok r ∧ r.StandsAt p 2 level scale := by
  obtain ⟨q₀, q₁, hq⟩ := List.length_eq_two.1 hc.size_eq
  have hsize : q₀.size = t.poly.size :=
    (hc.polys q₀ (by simp [hq])).size_eq.trans ht.poly.size_eq.symm
  have haligned : aligned c.level c.scale t.level t.scale = .ok () := by
    rw [hc.level_eq, ht.level_eq, hc.scale_eq, ht.scale_eq, aligned_self level h]
  obtain ⟨r, hr⟩ : ∃ r, c.subPlain t = .ok r := by
    unfold subPlain withFirst
    rw [haligned, Outcome.ok_bind, hq]
    dsimp only
    rw [sameSize, require_of hsize, Outcome.ok_bind]
    exact ⟨_, rfl⟩
  have hbeside := beside_withFirst hr
  refine ⟨r, hr, (meets_withFirst (by decide) (fun q hq => ?_) hc.toOnLevel ht.poly.size_eq).of_ok hr,
    hbeside.level_eq.trans hc.level_eq, hbeside.scale_eq.trans hc.scale_eq⟩
  exact isReduced_reduce (by rw [size_sub, hq.size_eq, ht.poly.size_eq, min_self])

end Ciphertext

/-- The scale of a product with a factor of the nominal scale, one level down. -/
def Parameters.scaleBelow (p : Parameters) (scale : Float) (level : ℕ) : Float :=
  scale * p.scale / powTwo (p.modulusBits.getD level 0)

end Ckks

namespace Arithmetic

variable {k : Arithmetic} {c d : Ciphertext} {level : ℕ} {scale : Float}

/-- A product with a number. -/
theorem encodesTo_scaleBy (hp : k.params.Sound) (hc : c.StandsAt k.params 2 (level + 1) scale)
    (v : Float) : (k.scaleBy c v).EncodesTo
      (StandsAt k.params 2 level (k.params.scaleBelow scale (level + 1))) := by
  have hlevel : level + 1 + 1 < k.params.modulusBits.length := hc.level_eq ▸ hc.level_lt
  unfold scaleBy factor
  rw [hc.level_eq]
  refine (encodesTo_encode hp v hlevel _).bind fun t ht => ?_
  obtain ⟨product, hproduct, hstands⟩ := hc.exists_multiplyPlain (by decide) ht
  rw [hproduct, Outcome.ok_bind]
  exact Outcome.encodesTo_of_exists (hstands.exists_rescale hp)

/-- The square of a ciphertext at the nominal scale: no number is encoded. -/
theorem exists_square (hk : k.Ready) (hc : c.StandsAt k.params 2 (level + 1) k.params.scale) :
    ∃ r, k.square c = .ok r ∧
      r.StandsAt k.params 2 level (k.params.scaleBelow k.params.scale (level + 1)) := by
  obtain ⟨s, B, hkey, hs⟩ := hk.key
  obtain ⟨product, hproduct, hsize⟩ := hc.exists_square
  obtain ⟨short, hshort, hstands⟩ := hsize.exists_relinearize hk.sound hkey hs
  obtain ⟨r, hr, hend⟩ := hstands.exists_rescale hk.sound
  refine ⟨r, ?_, hend⟩
  rw [square, hproduct, Outcome.ok_bind, hshort, Outcome.ok_bind, hr]

/-! ### The safe distance -/

section

variable {gap v : Ciphertext} {reaction inverse margin : Float} {r : Ciphertext}

theorem level_scaleBy {x : Float} (h : k.scaleBy c x = .ok r) : c.level = r.level + 1 := by
  obtain ⟨t, -, h⟩ := Outcome.bind_eq_ok_iff.1 h
  obtain ⟨product, hproduct, h⟩ := Outcome.bind_eq_ok_iff.1 h
  rw [← level_rescale h, level_multiplyPlain hproduct]

theorem level_square (h : k.square c = .ok r) : c.level = r.level + 1 := by
  obtain ⟨product, hproduct, h⟩ := Outcome.bind_eq_ok_iff.1 h
  obtain ⟨short, hshort, h⟩ := Outcome.bind_eq_ok_iff.1 h
  rw [← level_rescale h, (beside_relinearize hshort).level_eq, Ciphertext.level_square hproduct]

/-- The braking term takes the velocity two levels down. -/
theorem two_le_level_of_safeDistance (h : k.safeDistance gap v reaction inverse margin = .ok r) :
    2 ≤ v.level := by
  obtain ⟨squared, hsquared, h⟩ := Outcome.bind_eq_ok_iff.1 h
  obtain ⟨braking, hbraking, -⟩ := Outcome.bind_eq_ok_iff.1 h
  have hfirst := level_square hsquared
  have hsecond := level_scaleBy hbraking
  omega

/-- The scale of a product of three factors of the nominal scale, two levels down. -/
def nominalBelow (k : Arithmetic) (level : ℕ) : Float :=
  k.params.scaleBelow (k.params.scaleBelow k.params.scale level) (level - 1)

theorem encodesTo_scaleBy_twice (hp : k.params.Sound)
    (hc : c.StandsAt k.params 2 (level + 2) k.params.scale) (x y : Float) :
    (k.scaleBy c x >>= fun c => k.scaleBy c y).EncodesTo
      (StandsAt k.params 2 level (k.nominalBelow (level + 2))) :=
  (encodesTo_scaleBy hp hc x).bind fun _ hd => encodesTo_scaleBy hp hd y

theorem encodesTo_scaleBy_square (hk : k.Ready)
    (hc : c.StandsAt k.params 2 (level + 2) k.params.scale) (x : Float) :
    (k.square c >>= fun c => k.scaleBy c x).EncodesTo
      (StandsAt k.params 2 level (k.nominalBelow (level + 2))) := by
  obtain ⟨squared, hsquared, hstands⟩ := exists_square hk hc
  rw [hsquared, Outcome.ok_bind]
  exact encodesTo_scaleBy hk.sound hstands x

theorem encodesTo_minus (hp : k.params.Sound) (hscale : scale.isNaN = false)
    (hc : c.StandsAt k.params 2 level scale) (x : Float) :
    (k.minus c x).EncodesTo (StandsAt k.params 2 level scale) := by
  have hlevel : level + 1 < k.params.modulusBits.length := hc.level_eq ▸ hc.level_lt
  unfold minus summand
  rw [hc.level_eq, hc.scale_eq]
  refine (encodesTo_encode hp x hlevel scale).bind fun t ht => ?_
  exact Outcome.encodesTo_of_exists (hc.exists_subPlain hscale ht)

/-- All terms meet two levels down, and only numbers can stand in their way. -/
theorem encodesTo_safeDistance (hk : k.Ready)
    (hscale : (k.nominalBelow (level + 2)).isNaN = false)
    (hgap : gap.StandsAt k.params 2 (level + 2) k.params.scale)
    (hv : v.StandsAt k.params 2 (level + 2) k.params.scale) (reaction inverse margin : Float) :
    (k.safeDistance gap v reaction inverse margin).EncodesTo
      (StandsAt k.params 2 level (k.nominalBelow (level + 2))) := by
  have hsplit : k.safeDistance gap v reaction inverse margin = (do
      let braking ← k.square v >>= fun c => k.scaleBy c inverse
      let reacted ← k.scaleBy v reaction >>= fun c => k.scaleBy c 1.0
      let aligned ← k.scaleBy gap 1.0 >>= fun c => k.scaleBy c 1.0
      let rest ← aligned.sub reacted
      let rest ← rest.sub braking
      k.minus rest margin) := by
    simp only [safeDistance, align, bind_assoc]
  rw [hsplit]
  refine (encodesTo_scaleBy_square hk hv inverse).bind fun braking hbraking => ?_
  refine (encodesTo_scaleBy_twice hk.sound hv reaction 1.0).bind fun reacted hreacted => ?_
  refine (encodesTo_scaleBy_twice hk.sound hgap 1.0 1.0).bind fun aligned haligned => ?_
  obtain ⟨first, hfirst, hstands⟩ := haligned.exists_sub hscale hreacted
  rw [hfirst, Outcome.ok_bind]
  obtain ⟨second, hsecond, hend⟩ := hstands.exists_sub hscale hbraking
  rw [hsecond, Outcome.ok_bind]
  exact encodesTo_minus hk.sound hscale hend margin

end

end Arithmetic

namespace Predicate

/-- For validated parameters whose moduli fit a machine word, a generated key and a sample of two
ciphertexts at a common level and the nominal scale.  From the second level on, braking, reaction and
gap end two levels down at one scale.  If it is a number, then nothing but the encoding of a number
fails, and the result is one ciphertext at this level and scale.  Below the second level there is
never a result. -/
theorem safeDistance_aligned {p : Parameters} {s : Secret} {key : RelinearizationKey}
    {xa xe xa' xe' : Source} (hp : p.validate = .ok ()) (hsum : p.modulusBits.sum < 2 ^ 31)
    (hkey : RelinearizationKey.generate p s xa xe = .ok (key, xa', xe')) {level : ℕ}
    {gap v : Ciphertext} (hgap : gap.StandsAt p 2 level p.scale)
    (hv : v.StandsAt p 2 level p.scale) (reaction inverse reference : Float)
    (previous : Option Ciphertext) :
    let k : Arithmetic := { params := p, key }
    let Aligned := StandsAt p 2 (level - 2) (k.nominalBelow level)
    let result := (safeDistance reaction inverse reference).ciphertexts k previous [gap, v]
    (2 ≤ level →
      (k.square v >>= fun squared => k.scaleBy squared inverse).EncodesTo Aligned ∧
      (k.scaleBy v reaction >>= k.align).EncodesTo Aligned ∧
      (k.align gap >>= k.align).EncodesTo Aligned ∧
      ((k.nominalBelow level).isNaN = false →
        result.EncodesTo fun rs => ∃ r, rs = [r] ∧ Aligned r)) ∧
    (level < 2 → ∀ rs, result ≠ .ok rs) := by
  intro k Aligned result
  have hk : k.Ready := Arithmetic.ready_of_generate (Parameters.sound_of_validate hp hsum) hkey
  have hresult : result = k.safeDistance gap v reaction inverse (strictMargin reference) >>=
      fun r => .ok [r] := rfl
  constructor
  · intro hlevel
    obtain ⟨level, rfl⟩ := Nat.exists_eq_add_of_le' hlevel
    refine ⟨Arithmetic.encodesTo_scaleBy_square hk hv inverse,
      Arithmetic.encodesTo_scaleBy_twice hk.sound hv reaction 1.0,
      Arithmetic.encodesTo_scaleBy_twice hk.sound hgap 1.0 1.0, fun hscale => ?_⟩
    rw [hresult]
    refine (Arithmetic.encodesTo_safeDistance hk hscale hgap hv reaction inverse _).bind
      fun r hr => ?_
    exact Outcome.encodesTo_ok ⟨r, rfl, hr⟩
  · intro hlevel rs hrs
    rw [hresult] at hrs
    obtain ⟨r, hr, -⟩ := Outcome.bind_eq_ok_iff.1 hrs
    have htwo := Arithmetic.two_le_level_of_safeDistance hr
    rw [hv.level_eq] at htwo
    omega

/-- Ring degree two and three levels of unequal moduli. -/
def threeLevels : Parameters where
  ringDegree := 2
  modulusBits := [6, 3, 4, 3]
  scale := 2.0
  sigma := 0.0

/-- A ciphertext on the highest of these levels. -/
def thirteenBits : Ciphertext :=
  { polys := [⟨#[8191, 0]⟩, ⟨#[4096, 3]⟩], level := 2, logQ := 13, scale := 2.0 }

theorem standsAt_thirteenBits : thirteenBits.StandsAt threeLevels 2 2 threeLevels.scale where
  level_lt := by decide
  logQ_eq := by decide
  size_eq := rfl
  polys := by decide +kernel
  level_eq := rfl
  scale_eq := rfl

theorem standsAt_nineBits : nineBits.StandsAt threeLevels 2 1 threeLevels.scale where
  level_lt := by decide
  logQ_eq := by decide
  size_eq := rfl
  polys := by decide +kernel
  level_eq := rfl
  scale_eq := rfl

/-- The safe distance for these parameters and a given key. -/
def distanceWith (key : RelinearizationKey) (gap v : Ciphertext) : Outcome (List Ciphertext) :=
  (safeDistance 1.0 0.5 1.0).ciphertexts { params := threeLevels, key } none [gap, v]

theorem exists_key_threeLevels : ∃ key xa xe,
    RelinearizationKey.generate threeLevels ⟨#[1, -1]⟩ PredicateEvaluator.constantWords
        PredicateEvaluator.constantWords = .ok (key, xa, xe) ∧
      ∃ rs, distanceWith key thirteenBits thirteenBits = .ok rs := by
  have hrun : (RelinearizationKey.generate threeLevels ⟨#[1, -1]⟩ PredicateEvaluator.constantWords
      PredicateEvaluator.constantWords >>=
        fun result => distanceWith result.1 thirteenBits thirteenBits).isOk = true := by
    decide +kernel
  obtain ⟨rs, h⟩ := Outcome.exists_of_isOk hrun
  obtain ⟨⟨key, xa, xe⟩, hkey, hrs⟩ := Outcome.bind_eq_ok_iff.1 h
  exact ⟨key, xa, xe, hkey, rs, hrs⟩

theorem safeDistance_aligned_threeLevels : ∃ key xa xe,
    RelinearizationKey.generate threeLevels ⟨#[1, -1]⟩ PredicateEvaluator.constantWords
        PredicateEvaluator.constantWords = .ok (key, xa, xe) ∧
      (∃ r, distanceWith key thirteenBits thirteenBits = .ok [r] ∧
        r.StandsAt threeLevels 2 0 0.0625) ∧
      ∀ rs, distanceWith key nineBits nineBits ≠ .ok rs := by
  obtain ⟨key, xa, xe, hkey, rs, hrs⟩ := exists_key_threeLevels
  have hp : threeLevels.validate = .ok () := by decide +kernel
  have hscale : (Arithmetic.mk threeLevels key).nominalBelow 2 = 0.0625 := by
    show threeLevels.scaleBelow (threeLevels.scaleBelow threeLevels.scale 2) 1 = 0.0625
    decide +kernel
  have hnumber : (0.0625 : Float).isNaN = false := by decide +kernel
  obtain ⟨-, -, -, hall⟩ := (safeDistance_aligned hp (by decide) hkey standsAt_thirteenBits
    standsAt_thirteenBits 1.0 0.5 1.0 none).1 le_rfl
  obtain ⟨r, rfl, hr⟩ := (hall (hscale ▸ hnumber)).of_ok hrs
  refine ⟨key, xa, xe, hkey, ⟨r, hrs, hscale ▸ hr⟩, ?_⟩
  exact (safeDistance_aligned hp (by decide) hkey standsAt_nineBits standsAt_nineBits 1.0 0.5 1.0
    none).2 Nat.one_lt_two

end Predicate

end CipherMonitor
