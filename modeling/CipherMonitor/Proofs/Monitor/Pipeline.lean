import CipherMonitor.Monitor.Pipeline
import CipherMonitor.Proofs.Predicate.Evaluation

/-!
# What a pipeline keeps

* `Pipeline.SameSetting` — two pipelines that differ in the memory of the predicate only.
* `Pipeline.predicates_keeps`, `Pipeline.bits_keeps` — reading a sample changes nothing else.
* `Pipeline.bitsOfAll_congr` — the memory plays no part in the conversion.
* `Pipeline.WellFormed` — there is a bound for each proposition, however the pipeline was made.
* `Pipeline.perform_bits_eq_ok_iff`, `Pipeline.perform_mapM_bits_eq_ok_iff` — bits are computed sample
  by sample when all samples can be evaluated and then converted.
* `Pipeline.bitsInOnePass_eq`, `Pipeline.perform_mapM_bits_eq_ok_iff_inOnePass` — converting all
  samples in one pass gives the same bits.
-/

namespace CipherMonitor.Pipeline

/-- The same bridge, bounds and accuracy. -/
structure SameSetting (p p' : Pipeline) : Prop where
  bridge : p'.bridge = p.bridge
  references : p'.references = p.references
  mode : p'.mode = p.mode

variable {p p' : Pipeline} {sample : List Ckks.Ciphertext}

theorem predicates_keeps {r : Outcome (List Ckks.Ciphertext)}
    (h : (predicates sample).perform p = (r, p')) : SameSetting p p' := by
  obtain rfl := (Prod.mk.inj h).2
  exact ⟨rfl, rfl, rfl⟩

theorem bits_keeps {bits : List PreparedGgsw}
    (h : (Pipeline.bits sample).perform p = (.ok bits, p')) : SameSetting p p' := by
  obtain ⟨values, mid, hvalues, h⟩ := Action.perform_bind_eq_ok_iff.1 h
  obtain ⟨_, _, ⟨⟩, h⟩ := Action.perform_bind_eq_ok_iff.1 h
  obtain ⟨signs, _, hsigns, h⟩ := Action.perform_bind_eq_ok_iff.1 h
  obtain ⟨-, rfl⟩ := Prod.mk.inj hsigns
  obtain ⟨-, rfl⟩ := Prod.mk.inj h
  exact predicates_keeps hvalues

theorem bitsOfAll_congr (h : SameSetting p p') (samples : List (List Ckks.Ciphertext)) :
    p'.bitsOfAll samples = p.bitsOfAll samples := by
  rw [bitsOfAll, bitsOfAll, h.references]
  simp only [bitOf, h.bridge, h.mode]

/-! ### Bounds for all propositions -/

/-- There is a bound for each proposition. -/
def WellFormed (p : Pipeline) : Prop := p.references.length = p.size

theorem wellFormed_make (evaluator : PredicateEvaluator) (bridge : SchemeBridge) :
    (make evaluator bridge).WellFormed := List.length_replicate

theorem wellFormed_withReferences {references : List Float}
    (h : p.withReferences references = .ok p') : p'.WellFormed := by
  rw [withReferences] at h
  split_ifs at h with hlength
  obtain rfl := Except.ok.inj h
  exact hlength

theorem wellFormed_ofConfig {config : MonitorConfig} {evaluator : PredicateEvaluator}
    {bridge : SchemeBridge} (h : ofConfig config evaluator bridge = .ok p) : p.WellFormed := by
  rw [ofConfig] at h
  split_ifs at h
  · obtain rfl := Except.ok.inj h
    exact wellFormed_make evaluator bridge
  · exact wellFormed_withReferences h

variable {values : List Ckks.Ciphertext}

/-- An evaluation gives a value for each proposition, and leaves their number alone. -/
theorem length_predicates (h : (predicates sample).perform p = (.ok values, p')) :
    values.length = p.size ∧ p'.size = p.size := by
  obtain ⟨e', he, rfl⟩ := Action.perform_within_eq_ok_iff.1 h
  obtain ⟨-, -, rfl⟩ := PredicateEvaluator.perform_evaluate_eq_ok_iff.1 he
  exact ⟨PredicateEvaluator.length_evaluate he, rfl⟩

theorem WellFormed.of_predicates (hp : p.WellFormed)
    (h : (predicates sample).perform p = (.ok values, p')) : p'.WellFormed := by
  rw [WellFormed, (predicates_keeps h).references, hp, (length_predicates h).2]

/-! ### Bits, sample by sample and in one pass -/

theorem bitsOfAll_cons_eq_ok_iff {samples : List (List Ckks.Ciphertext)}
    {bits : List (List PreparedGgsw)} : p.bitsOfAll (values :: samples) = .ok bits ↔
      ∃ first rest, ((values.zip p.references).mapM fun (c, r) => p.bitOf c r) = .ok first ∧
        p.bitsOfAll samples = .ok rest ∧ first :: rest = bits := by
  simp only [bitsOfAll, List.mapM_cons, Outcome.bind_eq_ok_iff, Outcome.pure_eq_ok_iff]
  exact ⟨fun ⟨first, hfirst, rest, hrest, h⟩ => ⟨first, rest, hfirst, hrest, h⟩,
    fun ⟨first, rest, hfirst, hrest, h⟩ => ⟨first, hfirst, rest, hrest, h⟩⟩

/-- The bits of a sample are those of its propositions with their bounds. -/
theorem perform_bits_eq_ok_iff (hp : p.WellFormed) {bits : List PreparedGgsw} :
    (Pipeline.bits sample).perform p = (.ok bits, p') ↔
      ∃ values, (predicates sample).perform p = (.ok values, p') ∧
        ((values.zip p'.references).mapM fun (c, r) => p'.bitOf c r) = .ok bits := by
  simp only [Pipeline.bits, Action.perform_bind_eq_ok_iff, Action.perform_get,
    Action.perform_ofOutcome, Prod.mk.injEq, Except.ok.injEq]
  refine exists_congr fun values => ?_
  constructor
  · rintro ⟨mid, hvalues, _, _, ⟨rfl, rfl⟩, signs, _, ⟨hsigns, rfl⟩, hbits, rfl⟩
    obtain ⟨-, -, hsigns⟩ := Outcome.bind_eq_ok_iff.1 hsigns
    exact ⟨hvalues, Outcome.mapM_bind_eq_ok_iff.1 ⟨signs, hsigns, hbits⟩⟩
  · rintro ⟨hvalues, hbits⟩
    obtain ⟨signs, hsigns, hbits⟩ := Outcome.mapM_bind_eq_ok_iff.2 hbits
    have hlength : values.length = p'.references.length := by
      rw [(length_predicates hvalues).1, (predicates_keeps hvalues).references, hp]
    refine ⟨p', hvalues, p', p', ⟨rfl, rfl⟩, signs, p', ⟨?_, rfl⟩, hbits, rfl⟩
    rw [booleans, SchemeBridge.convertAll, require_of hlength]
    exact hsigns

theorem SameSetting.trans {p₁ p₂ p₃ : Pipeline} (h : SameSetting p₁ p₂) (h' : SameSetting p₂ p₃) :
    SameSetting p₁ p₃ :=
  ⟨h'.bridge.trans h.bridge, h'.references.trans h.references, h'.mode.trans h.mode⟩

variable {trace evaluated : List (List Ckks.Ciphertext)}

/-- The same for many samples. -/
theorem length_mapM_predicates (h : (trace.mapM predicates).perform p = (.ok evaluated, p')) :
    SameSetting p p' ∧ p'.size = p.size ∧ evaluated.length = trace.length ∧
      ∀ values ∈ evaluated, values.length = p.size := by
  induction trace generalizing p evaluated with
  | nil =>
    rw [List.mapM_nil, Action.perform_pure, Prod.mk.injEq, Except.ok.injEq] at h
    obtain ⟨rfl, rfl⟩ := h
    exact ⟨⟨rfl, rfl, rfl⟩, rfl, rfl, by simp⟩
  | cons sample trace ih =>
    obtain ⟨values, mid, evaluated, hfirst, hrest, rfl⟩ := Action.perform_mapM_cons_eq_ok_iff.1 h
    obtain ⟨hlength, hsize⟩ := length_predicates hfirst
    obtain ⟨hsame, hsize', hcount, hall⟩ := ih hrest
    refine ⟨(predicates_keeps hfirst).trans hsame, hsize'.trans hsize, by simp [hcount], ?_⟩
    rintro values (_ | ⟨_, hvalues⟩)
    · exact hlength
    · exact (hall values hvalues).trans hsize

/-- Samples are read one by one when all of them can be evaluated and then converted. -/
theorem perform_mapM_bits_eq_ok_iff (hp : p.WellFormed) {bits : List (List PreparedGgsw)} :
    (trace.mapM Pipeline.bits).perform p = (.ok bits, p') ↔
      ∃ evaluated, (trace.mapM predicates).perform p = (.ok evaluated, p') ∧
        p'.bitsOfAll evaluated = .ok bits := by
  induction trace generalizing p bits with
  | nil =>
    simp only [List.mapM_nil, Action.perform_pure, Prod.mk.injEq, Except.ok.injEq]
    constructor
    · rintro ⟨rfl, rfl⟩
      exact ⟨[], ⟨rfl, rfl⟩, rfl⟩
    · rintro ⟨_, ⟨rfl, rfl⟩, hbits⟩
      exact ⟨Outcome.pure_eq_ok_iff.1 hbits, rfl⟩
  | cons sample trace ih =>
    simp only [Action.perform_mapM_cons_eq_ok_iff]
    constructor
    · rintro ⟨first, mid, rest, hfirst, hrest, rfl⟩
      obtain ⟨values, hvalues, hbits⟩ := (perform_bits_eq_ok_iff hp).1 hfirst
      obtain ⟨evaluated, hevaluated, hmore⟩ := (ih (hp.of_predicates hvalues)).1 hrest
      have hsame := (length_mapM_predicates hevaluated).1
      refine ⟨_, ⟨values, mid, evaluated, hvalues, hevaluated, rfl⟩, ?_⟩
      rw [bitsOfAll_congr hsame] at hmore ⊢
      exact bitsOfAll_cons_eq_ok_iff.2 ⟨first, rest, hbits, hmore, rfl⟩
    · rintro ⟨_, ⟨values, mid, evaluated, hvalues, hevaluated, rfl⟩, hbits⟩
      have hsame := (length_mapM_predicates hevaluated).1
      rw [bitsOfAll_congr hsame] at hbits
      obtain ⟨first, rest, hfirst, hrest, rfl⟩ := bitsOfAll_cons_eq_ok_iff.1 hbits
      rw [← bitsOfAll_congr hsame] at hrest
      exact ⟨first, mid, rest, (perform_bits_eq_ok_iff hp).2 ⟨values, hvalues, hfirst⟩,
        (ih (hp.of_predicates hvalues)).2 ⟨evaluated, hevaluated, hrest⟩, rfl⟩

/-- Lists of one size are dealt out as they were before they were put together. -/
theorem deal_flatten {α : Type} {size : ℕ} {xss : List (List α)} (h : ∀ xs ∈ xss, xs.length = size) :
    deal size xss.length xss.flatten = xss := by
  induction xss with
  | nil => rfl
  | cons xs xss ih =>
    have hsize := h xs (List.mem_cons_self ..)
    rw [List.length_cons, List.flatten_cons, deal, List.take_left' hsize, List.drop_left' hsize,
      ih fun ys hys => h ys (List.mem_cons_of_mem _ hys)]

/-- One pass over all propositions gives the bits of each sample. -/
theorem bitsInOnePass_eq (hp : p.WellFormed) (h : ∀ values ∈ evaluated, values.length = p.size) :
    p.bitsInOnePass evaluated = p.bitsOfAll evaluated := by
  rw [bitsInOnePass, Outcome.mapM_flatMap, ← bitsOfAll]
  cases hbits : p.bitsOfAll evaluated with
  | error fault => rfl
  | ok bits =>
    have hall := Outcome.mapM_eq_ok_iff.1 hbits
    -- Each sample has as many bits as propositions, so the bits of all go back to where they belong.
    have hsize : ∀ xs ∈ bits, xs.length = p.size := by
      intro xs hxs
      obtain ⟨i, hi, rfl⟩ := List.mem_iff_getElem.1 hxs
      have hi' : i < evaluated.length := hall.length_eq ▸ hi
      have hsample := (Outcome.mapM_eq_ok_iff.1 (hall.get hi' hi)).length_eq
      rw [List.length_zip, hp, h _ (List.get_mem ..), Nat.min_self] at hsample
      exact hsample.symm
    change Except.ok (deal p.size evaluated.length bits.flatten) = _
    rw [hall.length_eq, deal_flatten hsize]

/-- Samples are read one by one when all of them can be evaluated and then converted in one pass. -/
theorem perform_mapM_bits_eq_ok_iff_inOnePass (hp : p.WellFormed) {bits : List (List PreparedGgsw)} :
    (trace.mapM Pipeline.bits).perform p = (.ok bits, p') ↔
      ∃ evaluated, (trace.mapM predicates).perform p = (.ok evaluated, p') ∧
        p'.bitsInOnePass evaluated = .ok bits := by
  rw [perform_mapM_bits_eq_ok_iff hp]
  refine exists_congr fun evaluated => and_congr_right fun h => ?_
  obtain ⟨hsame, hsize, -, hall⟩ := length_mapM_predicates h
  have hp' : p'.WellFormed := by rw [WellFormed, hsame.references, hp, hsize]
  rw [bitsInOnePass_eq hp' fun values hvalues => (hall values hvalues).trans hsize.symm]

end CipherMonitor.Pipeline
