import CipherMonitor.Proofs.Ckks.Format
import CipherMonitor.Proofs.Ckks.Safety
import CipherMonitor.Proofs.History
import CipherMonitor.Proofs.Predicate.Memory

/-!
# Predicates on ciphertexts of any origin

The check of a sample lets through what sits on a level of the parameters, and this is all that the
formulas need.  So no evaluation breaks a precondition, whatever ciphertexts it is given and
whatever it was given before, and its results are on the lowest level.

* `Arithmetic.Ready` — validated parameters with a key that was generated for them.
* `Predicate.meets_ciphertexts` — the formulas on ciphertexts that sit on levels.
* `Ckks.Ciphertext.Coherent`, `Ckks.Ciphertext.onLevel_of_check` — what the check lets through.
* `PredicateEvaluator.Fits`, `PredicateEvaluator.meets_values` — evaluation with a memory that sits
  on a level.
* `PredicateEvaluator.exists_memory_after` — after any history the memory sits on a level.
* `PredicateEvaluator.evaluate_safe` — evaluation after any history.
-/

namespace CipherMonitor

open Ckks Ckks.Ciphertext CipherMonitor.Poly

namespace Arithmetic

/-- The parameters are validated, and the key has the shape that generation gives it. -/
structure Ready (k : Arithmetic) : Prop where
  sound : k.params.Sound
  key : ∃ s B, k.key.IsFor k.params s B ∧ s.degree = k.params.ringDegree

theorem ready_of_generate {p : Parameters} {s : Secret} {key : RelinearizationKey}
    {xa xe xa' xe' : Source} (hp : p.Sound)
    (h : RelinearizationKey.generate p s xa xe = .ok (key, xa', xe')) :
    Ready { params := p, key } := by
  obtain ⟨B, hkey⟩ := RelinearizationKey.exists_isFor_of_generate h
  exact ⟨hp, s, B, hkey, degree_of_generate hp h⟩

variable {k : Arithmetic} {c d : Ciphertext}

section

variable (hk : k.Ready)

include hk

theorem meets_summand (hc : c.OnLevel k.params 2) (v : Float) :
    (k.summand v c).Meets fun t => t.poly.IsReduced k.params.ringDegree c.logQ := by
  rw [hc.logQ_eq]
  exact (meets_encode hk.sound v c.level c.scale).mono fun t ht => ht.poly

theorem meets_plus (hc : c.OnLevel k.params 2) (v : Float) :
    (k.plus c v).Meets (OnLevel k.params 2) := by
  refine (meets_summand hk hc v).bind fun t ht => ?_
  exact meets_withFirst (by decide) (fun q hq => isReduced_addMod hq ht) hc ht.size_eq

theorem meets_minus (hc : c.OnLevel k.params 2) (v : Float) :
    (k.minus c v).Meets (OnLevel k.params 2) := by
  refine (meets_summand hk hc v).bind fun t ht => ?_
  exact meets_withFirst (by decide) (fun q hq => isReduced_subMod hq ht) hc ht.size_eq

theorem meets_scaleBy (hc : c.OnLevel k.params 2) (v : Float) :
    (k.scaleBy c v).Meets (OnLevel k.params 2) := by
  refine (meets_encode hk.sound v c.level k.params.scale).bind fun t ht => ?_
  refine (meets_multiplyPlain (by decide) hc ht.poly.size_eq).bind fun product hproduct => ?_
  exact meets_rescale hk.sound hproduct

theorem meets_square (hc : c.OnLevel k.params 2) :
    (k.square c).Meets (OnLevel k.params 2) := by
  obtain ⟨s, B, hkey, hs⟩ := hk.key
  refine (Ciphertext.meets_square hc).bind fun product hproduct => ?_
  refine (meets_relinearize hk.sound hkey hs hproduct).bind fun short hshort => ?_
  exact meets_rescale hk.sound hshort

theorem meets_band (hc : c.OnLevel k.params 2) (low high margin : Float) :
    (k.band c low high margin).Meets fun rs => ∀ r ∈ rs, r.OnLevel k.params 2 := by
  refine (meets_minus hk hc _).bind fun above habove => ?_
  refine (meets_plus hk (onLevel_negate hc) _).bind fun below hbelow => ?_
  exact Outcome.meets_pure (by simp [habove, hbelow])

/-- The gap and both parts of the distance end on levels, if not on the same one. -/
theorem meets_safeDistance (hc : c.OnLevel k.params 2) (hd : d.OnLevel k.params 2)
    (reaction inverse margin : Float) :
    (k.safeDistance c d reaction inverse margin).Meets (OnLevel k.params 2) := by
  refine (meets_square hk hd).bind fun squared hsquared => ?_
  refine (meets_scaleBy hk hsquared inverse).bind fun braking hbraking => ?_
  refine (meets_scaleBy hk hd reaction).bind fun scaled hscaled => ?_
  refine (meets_scaleBy hk hscaled 1.0).bind fun reacted hreacted => ?_
  refine (meets_scaleBy hk hc 1.0).bind fun once honce => ?_
  refine (meets_scaleBy hk honce 1.0).bind fun gap hgap => ?_
  refine (meets_sub (by decide) (by decide) hgap hreacted).bind fun rest hrest => ?_
  refine (meets_sub (by decide) (by decide) hrest hbraking).bind fun rest hrest => ?_
  exact meets_minus hk hrest margin

end

end Arithmetic

theorem meets_sampleAt {P : Ciphertext → Prop} {sample : List Ciphertext} {i : ℕ}
    (h : ∀ c ∈ sample, P c) (hi : i < sample.length) : (sampleAt sample i).Meets P := by
  unfold sampleAt
  rw [List.getElem?_eq_getElem hi]
  exact Outcome.meets_ok (h _ (List.getElem_mem hi))

/-- The formulas on ciphertexts that sit on levels, whether these agree or not. -/
theorem Predicate.meets_ciphertexts {k : Arithmetic} (hk : k.Ready) (f : Predicate)
    {previous : Option Ciphertext} (hprevious : ∀ c ∈ previous, c.OnLevel k.params 2)
    {sample : List Ciphertext} (hsample : ∀ c ∈ sample, c.OnLevel k.params 2)
    (hlength : sample.length = f.signalSize) :
    (f.ciphertexts k previous sample).Meets fun rs => ∀ r ∈ rs, r.OnLevel k.params 2 := by
  have hpos : 0 < sample.length := by
    rw [hlength]
    exact f.signalSize_pos
  have hsingle : ∀ r : Ciphertext, r.OnLevel k.params 2 →
      (pure [r] : Outcome (List Ciphertext)).Meets fun rs => ∀ r ∈ rs, r.OnLevel k.params 2 :=
    fun r hr => Outcome.meets_pure (by simpa using hr)
  refine (meets_sampleAt hsample hpos).bind fun x hx => ?_
  cases f with
  | threshold above constant reference =>
    cases above with
    | true => exact (Arithmetic.meets_minus hk hx _).bind hsingle
    | false => exact (Arithmetic.meets_plus hk (onLevel_negate hx) _).bind hsingle
  | band low high reference => exact Arithmetic.meets_band hk hx _ _ _
  | deltaBand low high reference =>
    cases previous with
    | none => exact Outcome.meets_pure (by simpa using hx)
    | some before =>
      have hbefore := hprevious before rfl
      refine (meets_sub (by decide) (by decide) hx hbefore).bind fun change hchange => ?_
      exact Arithmetic.meets_band hk hchange _ _ _
  | deviation center radius reference =>
    refine (Arithmetic.meets_minus hk hx center).bind fun distance hdistance => ?_
    refine (Arithmetic.meets_square hk hdistance).bind fun squared hsquared => ?_
    exact (Arithmetic.meets_minus hk hsquared _).bind hsingle
  | safeDistance reaction inverse reference =>
    have htwo : 1 < sample.length := by
      rw [hlength]
      exact Nat.one_lt_two
    refine (meets_sampleAt hsample htwo).bind fun v hv => ?_
    exact (Arithmetic.meets_safeDistance hk hx hv _ _ _).bind hsingle

/-! ### The check of a sample -/

/-- All polynomials have the ring degree of the first one and are reduced. -/
def Ckks.Ciphertext.Coherent (c : Ciphertext) : Prop :=
  ∀ q ∈ c.polys, q.IsReduced c.degree c.logQ

theorem Ckks.Ciphertext.coherent_of_decode {c : Ciphertext} {bytes rest : List UInt8}
    (h : decode.run bytes = .ok (c, rest)) : c.Coherent := (wellFormed_of_decode h).1.polys

section

variable {p : Parameters} {c : Ciphertext}

/-- What belongs to the parameters has their ring degree and the modulus of a level. -/
theorem Ckks.Parameters.meets_check (hp : p.Sound) (c : Ciphertext) :
    (p.check c).Meets fun _ => c.degree = p.ringDegree ∧ c.level + 1 < p.modulusBits.length ∧
      c.logQ = p.chainSum (c.level + 1) := by
  unfold Parameters.check
  dsimp only
  split_ifs with hdegree
  · exact Outcome.meets_ckks _ _
  · rw [hp.levels_eq, Outcome.ok_bind]
    split_ifs with hlevel
    · exact Outcome.meets_ckks _ _
    · have hlt : c.level + 1 < p.modulusBits.length := by omega
      rw [hp.logQ_eq hlt, Outcome.ok_bind]
      split_ifs with hlogQ
      · exact Outcome.meets_ckks _ _
      · exact Outcome.meets_pure ⟨not_not.1 hdegree, hlt, not_not.1 hlogQ⟩

/-- A ciphertext of two polynomials that belongs to the parameters sits on one of their levels. -/
theorem Ckks.Ciphertext.onLevel_of_check (hp : p.Sound) (hc : c.Coherent)
    (hcheck : p.check c = .ok ()) (hsize : c.size = 2) : c.OnLevel p 2 := by
  obtain ⟨hdegree, hlevel, hlogQ⟩ := (Parameters.meets_check hp c).of_ok hcheck
  exact ⟨hlevel, hlogQ, hsize, hdegree ▸ hc⟩

end

namespace PredicateEvaluator

/-- The sample has the right size, and its ciphertexts belong to the parameters and have two
polynomials. -/
structure Fits (e : PredicateEvaluator) (sample : List Ciphertext) : Prop where
  length_eq : sample.length = e.predicate.signalSize
  check : ∀ c ∈ sample, e.arithmetic.params.check c = .ok ()
  size_eq : ∀ c ∈ sample, c.size = 2

variable {e : PredicateEvaluator} {sample : List Ciphertext}

theorem Fits.onLevel (h : e.Fits sample) (he : e.arithmetic.Ready)
    (hsample : ∀ c ∈ sample, c.Coherent) : ∀ c ∈ sample, c.OnLevel e.arithmetic.params 2 :=
  fun c hc => onLevel_of_check he.sound (hsample c hc) (h.check c hc) (h.size_eq c hc)

theorem meets_checkCiphertext {p : Parameters} (hp : p.Sound) (c : Ciphertext) :
    (checkCiphertext p c).Meets fun _ => p.check c = .ok () ∧ c.size = 2 := by
  refine (Parameters.meets_check hp c).with_eq.bind fun _ hcheck => ?_
  split_ifs with hsize
  · exact Outcome.meets_pure ⟨hcheck.2, hsize⟩
  · exact Outcome.meets_ckks _ _

theorem meets_checkSample (he : e.arithmetic.Ready) (sample : List Ciphertext) :
    (e.checkSample sample).Meets fun _ => e.Fits sample := by
  have hsize : (e.predicate.checkSize sample.length).Meets
      fun _ => sample.length = e.predicate.signalSize := by
    unfold Predicate.checkSize
    split_ifs with hlength
    · exact Outcome.meets_ok hlength
    · exact Outcome.meets_monitor _ _
  refine hsize.bind fun _ hlength => ?_
  refine (Outcome.Meets.forM fun c _ => meets_checkCiphertext he.sound c).mono fun _ hall => ?_
  exact ⟨hlength, fun c hc => (hall c hc).1, fun c hc => (hall c hc).2⟩

section

variable (he : e.arithmetic.Ready) (hsample : ∀ c ∈ sample, c.Coherent)
  (hprevious : ∀ c ∈ e.previous, c.OnLevel e.arithmetic.params 2)

include he hsample hprevious

theorem meets_results : (e.results sample).Meets fun rs => e.Fits sample ∧
    rs.length = e.predicate.size ∧ ∀ r ∈ rs, r.OnLevel e.arithmetic.params 2 := by
  refine (meets_checkSample he sample).bind fun _ hfits => ?_
  have hlevels := hfits.onLevel he hsample
  refine (Predicate.meets_ciphertexts he e.predicate hprevious hlevels
    hfits.length_eq).with_eq.mono fun rs hrs => ?_
  exact ⟨hfits, Predicate.length_ciphertexts hrs.2, hrs.1⟩

theorem meets_values : (e.values sample).Meets fun rs => e.Fits sample ∧
    rs.length = e.predicate.size ∧ ∀ r ∈ rs, r.OnLevel e.arithmetic.params 2 ∧ r.level = 0 := by
  refine (meets_results he hsample hprevious).bind fun results hresults => ?_
  obtain ⟨hfits, hlength, hlevels⟩ := hresults
  refine (Outcome.Meets.mapM fun r hr => meets_normalize he.sound (hlevels r hr)).with_eq.mono
    fun rs hrs => ?_
  refine ⟨hfits, ?_, hrs.1⟩
  rw [← (Outcome.mapM_eq_ok_iff.1 hrs.2).length_eq, hlength]

/-- What is remembered was checked. -/
theorem onLevel_memoryAfter :
    ∀ c ∈ e.memoryAfter sample, c.OnLevel e.arithmetic.params 2 := by
  cases hresults : e.results sample with
  | error fault => rwa [memoryAfter_of_error hresults]
  | ok results =>
    obtain ⟨hfits, -, -⟩ := (meets_results he hsample hprevious).of_ok hresults
    have hlevels := hfits.onLevel he hsample
    rw [memoryAfter_of_ok hresults]
    cases hremembers : e.predicate.remembers with
    | false => rwa [Predicate.remember_of_not_remembers hremembers]
    | true =>
      rw [Predicate.remember_of_remembers hremembers]
      exact fun c hc => hlevels c (List.mem_of_mem_head? hc)

end

/-! ### A history of samples -/

variable {f : Predicate} {k : Arithmetic}

/-- After any history of evaluations, what is remembered sits on a level. -/
theorem exists_memory_after (hk : k.Ready) {history : List (List Ciphertext)}
    (hhistory : ∀ sample ∈ history, ∀ c ∈ sample, c.Coherent) :
    ∃ memory, Action.after evaluate { predicate := f, arithmetic := k } history =
        { predicate := f, arithmetic := k, previous := memory } ∧
      ∀ c ∈ memory, c.OnLevel k.params 2 := by
  induction history using List.reverseRecOn with
  | nil => exact ⟨none, rfl, by simp⟩
  | append_singleton history sample ih =>
    rw [List.forall_mem_append, List.forall_mem_singleton] at hhistory
    obtain ⟨memory, hafter, hmemory⟩ := ih hhistory.1
    rw [Action.after_concat, hafter, perform_evaluate]
    exact ⟨_, rfl, onLevel_memoryAfter (e := ⟨f, k, memory⟩) hk hhistory.2 hmemory⟩

/-- Ciphertexts of any bytes are coherent.  With a generated key for validated parameters, after any
history of coherent ciphertexts and for any sample of them, an evaluation ends without breaking a
precondition.  If it succeeds, then the sample has the right size and its ciphertexts have two
polynomials and belong to the parameters, and there is one result for each proposition, of two
reduced polynomials on the lowest level. -/
theorem evaluate_safe {p : Parameters} {s : Secret} {key : RelinearizationKey}
    {xa xe xa' xe' : Source} (hp : p.validate = .ok ()) (hsum : p.modulusBits.sum < 2 ^ 31)
    (hkey : RelinearizationKey.generate p s xa xe = .ok (key, xa', xe')) :
    (∀ (bytes rest : List UInt8) (c : Ciphertext),
      Ciphertext.decode.run bytes = .ok (c, rest) → c.Coherent) ∧
    ∀ (f : Predicate) (history : List (List Ciphertext)) (sample : List Ciphertext),
      (∀ sample ∈ history, ∀ c ∈ sample, c.Coherent) → (∀ c ∈ sample, c.Coherent) →
      let e := Action.after evaluate { predicate := f, arithmetic := { params := p, key } } history
      (∀ breach e', (evaluate sample).perform e ≠ (.error (.breach breach), e')) ∧
      ∀ values e', (evaluate sample).perform e = (.ok values, e') →
        sample.length = f.signalSize ∧ (∀ c ∈ sample, c.size = 2 ∧ p.check c = .ok ()) ∧
        values.length = f.size ∧
        ∀ r ∈ values, r.level = 0 ∧ r.logQ = p.modulusBits.headD 0 ∧ r.size = 2 ∧
          ∀ q ∈ r.polys, q.IsReduced p.ringDegree (p.modulusBits.headD 0) := by
  have hsound := Parameters.sound_of_validate hp hsum
  have hready := Arithmetic.ready_of_generate hsound hkey
  refine ⟨fun bytes rest c hdecode => coherent_of_decode hdecode,
    fun f history sample hhistory hsample => ?_⟩
  obtain ⟨memory, hafter, hmemory⟩ := exists_memory_after (f := f) hready hhistory
  have hvalues := meets_values (e := ⟨f, ⟨p, key⟩, memory⟩) hready hsample hmemory
  dsimp only
  rw [hafter, perform_evaluate]
  refine ⟨fun breach e' h => hvalues.ne_breach breach (Prod.mk.inj h).1, fun values e' h => ?_⟩
  obtain ⟨hfits, hlength, hlevels⟩ := hvalues.of_ok (Prod.mk.inj h).1
  refine ⟨hfits.length_eq, fun c hc => ⟨hfits.size_eq c hc, hfits.check c hc⟩, hlength,
    fun r hr => ?_⟩
  obtain ⟨hlevel, hzero⟩ := hlevels r hr
  have hlogQ : r.logQ = p.modulusBits.headD 0 := by
    rw [hlevel.logQ_eq, hzero, hsound.headD_eq]
  exact ⟨hzero, hlogQ, hlevel.size_eq, hlogQ ▸ hlevel.polys⟩

/-- Ring degree two and two levels, with moduli of six and nine bits. -/
def twoLevels : Parameters where
  ringDegree := 2
  modulusBits := [6, 3, 3]
  scale := 2.0
  sigma := 0.0

/-- A source whose words give the middle of the first layer of the normal distribution. -/
def constantWords : Source := .ofWords fun _ => 0x80000000

/-- The deviation from zero with a given key for these parameters. -/
def deviationWith (key : RelinearizationKey) : PredicateEvaluator where
  predicate := .deviation 0.0 1.0 1.0
  arithmetic := { params := twoLevels, key }

/-- The result for a sample that is evaluated the second time. -/
def secondResult (key : RelinearizationKey) : Outcome (List Ciphertext) :=
  ((evaluate [nineBits]).perform (Action.after evaluate (deviationWith key) [[nineBits]])).1

theorem exists_key_twoLevels : ∃ key xa xe,
    RelinearizationKey.generate twoLevels ⟨#[1, -1]⟩ constantWords constantWords =
        .ok (key, xa, xe) ∧
      ∃ values, secondResult key = .ok values := by
  have hrun : (RelinearizationKey.generate twoLevels ⟨#[1, -1]⟩ constantWords constantWords >>=
      fun result => secondResult result.1).isOk = true := by decide +kernel
  obtain ⟨values, h⟩ := Outcome.exists_of_isOk hrun
  obtain ⟨⟨key, xa, xe⟩, hkey, hvalues⟩ := Outcome.bind_eq_ok_iff.1 h
  exact ⟨key, xa, xe, hkey, values, hvalues⟩

theorem evaluate_safe_twoLevels : ∃ key xa xe,
    RelinearizationKey.generate twoLevels ⟨#[1, -1]⟩ constantWords constantWords =
        .ok (key, xa, xe) ∧
      ∃ values, secondResult key = .ok values ∧ values.length = 1 ∧
        ∀ r ∈ values, r.level = 0 ∧ r.logQ = 6 ∧ r.size = 2 ∧
          ∀ q ∈ r.polys, q.IsReduced 2 6 := by
  obtain ⟨key, xa, xe, hkey, values, hvalues⟩ := exists_key_twoLevels
  have hcoherent : ∀ c ∈ [nineBits], c.Coherent := by
    rw [List.forall_mem_singleton]
    exact wellFormed_nineBits.polys
  obtain ⟨-, -, hlength, hlevels⟩ :=
    ((evaluate_safe (by decide +kernel) (by decide) hkey).2 (.deviation 0.0 1.0 1.0)
      [[nineBits]] [nineBits] (by rwa [List.forall_mem_singleton]) hcoherent).2 values _
        (Prod.ext hvalues rfl)
  exact ⟨key, xa, xe, hkey, values, hvalues, hlength, hlevels⟩

end PredicateEvaluator

end CipherMonitor
