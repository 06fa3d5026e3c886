import CipherMonitor.Proofs.Source.Words
import CipherMonitor.Source.Secret

/-!
# Secrets of a given weight

A step of the shuffle brings a position not yet chosen to the front of the order and places a sign
there.  The order stays a permutation of the positions and its front is never drawn again, so that
`h` steps place `h` signs.  Any list of different positions is chosen by some double words.

* `signsAt`, `HasWeight` — coefficients with signs at given positions, and how many there are.
* `Shuffle.Placed`, `Shuffle.Placed.place` — the invariant of the shuffle, and one step.
* `SecretDistribution.yields_placed` — what a run of the shuffle has placed.
* `SecretDistribution.exists_words` — double words that choose given positions.
* `SecretDistribution.fill_eq_generate` — no check fails, and what was there before is lost.
* `SecretDistribution.DrawsEnd` — sources on which every draw of a position comes to an end.
* `SecretDistribution.fill_weight` — what is written, and that everything of this weight can be.
-/

namespace CipherMonitor

/-! ### Signs at given positions -/

section Signs

variable {n p : ℕ} {positions : Finset ℕ} {positive : ℕ → Bool}

/-- `n` coefficients, signs at the given positions and zeros elsewhere. -/
def signsAt (n : ℕ) (positions : Finset ℕ) (positive : ℕ → Bool) : Array ℤ :=
  (Array.range n).map fun p => if p ∈ positions then (if positive p then 1 else -1) else 0

@[simp] theorem size_signsAt : (signsAt n positions positive).size = n := by simp [signsAt]

theorem signsAt_empty (n : ℕ) (positive : ℕ → Bool) :
    signsAt n ∅ positive = Array.replicate n 0 := by
  ext <;> simp [signsAt]

/-- Writing one more sign. -/
theorem setIfInBounds_signsAt (p : ℕ) (b : Bool) :
    (signsAt n positions positive).setIfInBounds p (if b then 1 else -1) =
      signsAt n (insert p positions) (Function.update positive p b) := by
  apply Array.ext
  · simp
  · intro k hk hk'
    have hkn : k < n := by simpa using hk'
    rw [Array.getElem_setIfInBounds (by simpa using hkn)]
    by_cases hpk : p = k
    · subst hpk
      simp [signsAt]
    · simp [signsAt, hpk, Ne.symm hpk]

/-- As many coefficients are signs as there are positions. -/
theorem countP_signsAt (h : positions ⊆ Finset.range n) :
    (signsAt n positions positive).countP (fun c => c = 1 ∨ c = -1) = positions.card := by
  have hsign (p : ℕ) : ((if p ∈ positions then (if positive p then 1 else -1) else 0 : ℤ) = 1 ∨
      (if p ∈ positions then (if positive p then 1 else -1) else 0 : ℤ) = -1) ↔ p ∈ positions := by
    split_ifs <;> simp_all
  have hfilter : (List.range n).toFinset.filter (· ∈ positions) = positions := by
    ext p
    simpa using fun hp => Finset.mem_range.1 (h hp)
  rw [signsAt, Array.countP_map, ← Array.countP_toList, Array.toList_range]
  simp only [Function.comp_def, hsign]
  rw [List.countP_eq_length_filter, ← List.toFinset_card_of_nodup (List.nodup_range.filter _),
    List.toFinset_filter]
  simpa using congrArg Finset.card hfilter

/-- The other coefficients are zero. -/
theorem count_zero_signsAt (h : positions ⊆ Finset.range n) :
    (signsAt n positions positive).count 0 = n - positions.card := by
  have hzero : (signsAt n positions positive).count 0 =
      (signsAt n positions positive).countP fun c => ¬decide (c = 1 ∨ c = -1) = true := by
    rw [Array.count_eq_countP]
    refine Array.countP_congr fun c hc => ?_
    obtain ⟨p, -, rfl⟩ := Array.mem_map.1 hc
    split_ifs <;> simp
  have hsplit : (signsAt n positions positive).size = _ + _ :=
    Array.size_eq_countP_add_countP (p := fun c => decide (c = 1 ∨ c = -1))
  rw [size_signsAt, countP_signsAt h, ← hzero] at hsplit
  omega

/-- Of the `n` coefficients exactly `h` are signs, and the others are zero. -/
structure HasWeight (n h : ℕ) (coefficients : Array ℤ) : Prop where
  size_eq : coefficients.size = n
  countP_sign : coefficients.countP (fun c => c = 1 ∨ c = -1) = h
  count_zero : coefficients.count 0 = n - h

theorem hasWeight_signsAt (h : positions ⊆ Finset.range n) :
    HasWeight n positions.card (signsAt n positions positive) :=
  ⟨size_signsAt, countP_signsAt h, count_zero_signsAt h⟩

end Signs

/-! ### Swaps -/

section Swap

variable {α : Type} {xs : Array α} {i j : ℕ}

theorem perm_swapIfInBounds (xs : Array α) (i j : ℕ) : (xs.swapIfInBounds i j).Perm xs := by
  rw [Array.swapIfInBounds_def]
  split_ifs with hi hj
  · exact Array.swap_perm hi hj
  · exact Array.Perm.rfl
  · exact Array.Perm.rfl

theorem getElem?_swapIfInBounds (hi : i < xs.size) (hj : j < xs.size) (k : ℕ) :
    (xs.swapIfInBounds i j)[k]? =
      if j = k then xs[i]? else if i = k then xs[j]? else xs[k]? := by
  rw [Array.swapIfInBounds_def, dif_pos hi, dif_pos hj, Array.getElem?_swap,
    Array.getElem?_eq_getElem hi, Array.getElem?_eq_getElem hj]

end Swap

/-! ### The invariant of the shuffle -/

namespace Shuffle

/-- The order is one of all positions, with those in `chosen` at its front; there are signs at these
and zeros elsewhere. -/
structure Placed (n : ℕ) (chosen : List ℕ) (positive : ℕ → Bool) (s : Shuffle) : Prop where
  order_perm : s.order.Perm (Array.range n)
  front : ∀ m (hm : m < chosen.length), s.order[m]? = some chosen[m]
  signs_eq : s.signs = signsAt n chosen.toFinset positive

theorem placed_start (n : ℕ) (positive : ℕ → Bool) : (start n).Placed n [] positive :=
  ⟨Array.Perm.rfl, fun m hm => absurd hm (Nat.not_lt_zero m), (signsAt_empty n positive).symm⟩

namespace Placed

variable {n j p : ℕ} {chosen : List ℕ} {positive : ℕ → Bool} {s : Shuffle}

theorem size_order (h : s.Placed n chosen positive) : s.order.size = n :=
  h.order_perm.size_eq.trans Array.size_range

theorem size_signs (h : s.Placed n chosen positive) : s.signs.size = n := by
  rw [h.signs_eq, size_signsAt]

theorem nodup_order (h : s.Placed n chosen positive) : s.order.toList.Nodup := by
  rw [h.order_perm.toList.nodup_iff, Array.toList_range]
  exact List.nodup_range

theorem sublist_order (h : s.Placed n chosen positive) : chosen.Sublist s.order.toList := by
  refine (List.prefix_iff_getElem?.2 fun m hm => ?_).sublist
  rw [Array.getElem?_toList, h.front m hm]

theorem getD_lt (h : s.Placed n chosen positive) (hj : j < n) : s.order.getD j 0 < n := by
  have hsize : j < s.order.size := by rwa [h.size_order]
  rw [Array.getD_eq_getD_getElem?, Array.getElem?_eq_getElem hsize, Option.getD_some]
  exact Array.mem_range.1 (h.order_perm.mem_iff.1 (Array.getElem_mem hsize))

theorem toFinset_subset (h : s.Placed n chosen positive) : chosen.toFinset ⊆ Finset.range n := by
  intro p hp
  have hmem : p ∈ s.order :=
    Array.mem_toList_iff.1 (h.sublist_order.subset (List.mem_toFinset.1 hp))
  exact Finset.mem_range.2 (Array.mem_range.1 (h.order_perm.mem_iff.1 hmem))

/-- There are as many signs as positions were chosen. -/
theorem hasWeight (h : s.Placed n chosen positive) : HasWeight n chosen.length s.signs := by
  rw [h.signs_eq, ← List.toFinset_card_of_nodup (h.nodup_order.sublist h.sublist_order)]
  exact hasWeight_signsAt h.toFinset_subset

/-- What has not been chosen stands behind the front. -/
theorem exists_getElem? (h : s.Placed n chosen positive) (hpn : p < n) (hp : p ∉ chosen) :
    ∃ j, chosen.length ≤ j ∧ s.order[j]? = some p := by
  have hmem : p ∈ s.order := h.order_perm.mem_iff.2 (Array.mem_range.2 hpn)
  obtain ⟨j, hj⟩ := Array.mem_iff_getElem?.1 hmem
  refine ⟨j, ?_, hj⟩
  by_contra hlt
  have hfront := h.front j (not_le.1 hlt)
  rw [hj] at hfront
  exact hp (Option.some.inj hfront ▸ List.getElem_mem _)

/-- One step of the shuffle. -/
theorem place (h : s.Placed n chosen positive) (hj : chosen.length ≤ j)
    (hp : s.order[j]? = some p) (b : Bool) :
    (s.place chosen.length j b).Placed n (chosen ++ [p]) (Function.update positive p b) := by
  obtain ⟨hjn, -⟩ := Array.getElem?_eq_some_iff.1 hp
  have hswap := getElem?_swapIfInBounds (hj.trans_lt hjn) hjn
  have hfirst : (s.order.swapIfInBounds chosen.length j)[chosen.length]? = some p := by
    by_cases heq : j = chosen.length
    · rw [hswap, if_pos heq, ← heq, hp]
    · rw [hswap, if_neg heq, if_pos rfl, hp]
  refine ⟨(perm_swapIfInBounds ..).trans h.order_perm, fun m hm => ?_, ?_⟩
  · dsimp only [Shuffle.place]
    rcases Nat.lt_or_ge m chosen.length with hlt | hge
    · rw [hswap, if_neg (by omega), if_neg (by omega), h.front m hlt, List.getElem_append_left hlt]
    · have hm' : m = chosen.length := by
        rw [List.length_append, List.length_singleton] at hm
        omega
      subst hm'
      simpa using hfirst
  · dsimp only [Shuffle.place]
    rw [Array.getD_eq_getD_getElem?, hfirst, Option.getD_some, h.signs_eq, setIfInBounds_signsAt]
    congr 1
    ext k
    simp

end Placed

end Shuffle

/-! ### One step -/

namespace SecretDistribution

variable {n i j h limit : ℕ} {chosen : List ℕ} {positive : ℕ → Bool} {s : Shuffle}
  {source : Source}

theorem yields_placeNext (hn : n ≤ 2 ^ 63) (limit : ℕ) (s : Shuffle) (i : ℕ) :
    (placeNext n limit s i).Yields fun s' => ∃ j b, i ≤ j ∧ j < n ∧ s' = s.place i j b := by
  refine (Draw.yields_below _ _ limit).bind fun x hx => ?_
  refine Draw.yields_flag.next fun b => ?_
  rw [UInt64.lt_iff_toNat_lt, toNat_ofNat_of_le (by omega)] at hx
  exact Draw.yields_pure ⟨i + x.toNat, b, by omega, by omega, rfl⟩

/-- The checks of a step are met as long as the order is one of all positions. -/
theorem placeNextChecked_eq (hn : n ≤ 2 ^ 63) (hs : s.Placed n chosen positive)
    (hlt : chosen.length < n) :
    placeNextChecked n limit s chosen.length = placeNext n limit s chosen.length := by
  rw [placeNextChecked, placeNext, Draw.require_bind hlt.le]
  refine (Draw.yields_below _ _ limit).bind_congr fun x hx => ?_
  rw [UInt64.lt_iff_toNat_lt, toNat_ofNat_of_le (by omega)] at hx
  have hindex : chosen.length < s.order.size ∧ chosen.length + x.toNat < s.order.size := by
    rw [hs.size_order]
    omega
  rw [Draw.require_bind (by omega), Draw.require_bind hindex]
  refine Draw.yields_flag.bind_congr fun b _ => ?_
  have hplaced := hs.place (Nat.le_add_right _ _) (Array.getElem?_eq_getElem hindex.2) b
  refine Draw.require_bind ?_ _ _
  rw [hs.size_signs]
  exact hplaced.getD_lt hlt

/-- A step that is given an offset of one of the positions left comes to an end. -/
theorem run_placeNext_of_exists (s : Shuffle)
    (hk : ∃ k, source.doubleAt k &&& UInt64.ofNat (n.nextPowerOfTwo - 1) < UInt64.ofNat (n - i)) :
    ∃ s' t, ∃ enough, ∀ limit ≥ enough, (placeNext n limit s i).run source = .ok (s', t) := by
  obtain ⟨x, t, enough, hbelow⟩ := Draw.run_below_of_exists hk
  refine ⟨s.place i (i + x.toNat) (t.doubleAt 0 >>> 63 == 1), t.tail.tail, enough,
    fun limit hlimit => ?_⟩
  rw [placeNext, StateT.run_bind, hbelow limit hlimit, Outcome.ok_bind, StateT.run_bind,
    Draw.run_flag, Outcome.ok_bind, StateT.run_pure]
  rfl

/-- The double word whose top bit is the given flag. -/
def flagWord (b : Bool) : UInt64 := if b then 0x8000000000000000 else 0

/-- Every position from the `i`-th on can be drawn, with either sign. -/
theorem run_placeNext_of_doubleAt (hn : n ≤ 2 ^ 63) (hlimit : 0 < limit) (hij : i ≤ j) (hj : j < n)
    {b : Bool} (hoffset : source.doubleAt 0 = UInt64.ofNat (j - i))
    (hflag : source.doubleAt 1 = flagWord b) :
    (placeNext n limit s i).run source =
      .ok (s.place i j b, source.tail.tail.tail.tail) := by
  have hmask : UInt64.ofNat (j - i) &&& UInt64.ofNat (n.nextPowerOfTwo - 1) =
      UInt64.ofNat (j - i) := ofNat_and_mask (by omega)
  have hlt : UInt64.ofNat (j - i) < UInt64.ofNat (n - i) := by
    rw [UInt64.lt_iff_toNat_lt, toNat_ofNat_of_le (by omega), toNat_ofNat_of_le (by omega)]
    omega
  have hbelow : (Draw.below (UInt64.ofNat (n - i)) (UInt64.ofNat (n.nextPowerOfTwo - 1)) limit).run
      source = .ok (UInt64.ofNat (j - i), source.tail.tail) := by
    rw [Draw.run_below_of_lt hlimit (by rwa [hoffset, hmask]), hoffset, hmask]
  have hb : (flagWord b >>> 63 == 1) = b := by cases b <;> decide
  rw [placeNext, StateT.run_bind, hbelow, Outcome.ok_bind, StateT.run_bind, Draw.run_flag,
    Source.doubleAt_tail_tail, hflag, hb, Outcome.ok_bind, toNat_ofNat_of_le (by omega),
    Nat.add_sub_cancel' hij, StateT.run_pure]
  dsimp only
  rfl

/-! ### Runs of the shuffle -/

theorem foldlM_range_succ (f : Shuffle → ℕ → Draw Shuffle) (h : ℕ) (s : Shuffle) :
    (List.range (h + 1)).foldlM f s = (List.range h).foldlM f s >>= fun s' => f s' h := by
  rw [List.range_succ, List.foldlM_append]
  simp only [List.foldlM_cons, List.foldlM_nil, bind_pure]

/-- `h` steps place `h` signs. -/
theorem yields_placed (hn : n ≤ 2 ^ 63) (limit : ℕ) (hh : h ≤ n) :
    ((List.range h).foldlM (placeNext n limit) (Shuffle.start n)).Yields fun s =>
      ∃ chosen positive, chosen.length = h ∧ s.Placed n chosen positive := by
  induction h with
  | zero => exact Draw.yields_pure ⟨[], fun _ => true, rfl, Shuffle.placed_start n _⟩
  | succ h ih =>
    rw [foldlM_range_succ]
    refine (ih (Nat.le_of_succ_le hh)).bind ?_
    rintro s ⟨chosen, positive, rfl, hs⟩
    refine (yields_placeNext hn limit s chosen.length).mono ?_
    rintro _ ⟨j, b, hj, hjn, rfl⟩
    have hsize : j < s.order.size := by rwa [hs.size_order]
    exact ⟨_, _, List.length_append, hs.place hj (Array.getElem?_eq_getElem hsize) b⟩

theorem foldlM_placeNextChecked (hn : n ≤ 2 ^ 63) (limit : ℕ) (hh : h ≤ n) :
    (List.range h).foldlM (placeNextChecked n limit) (Shuffle.start n) =
      (List.range h).foldlM (placeNext n limit) (Shuffle.start n) := by
  induction h with
  | zero => rfl
  | succ h ih =>
    rw [foldlM_range_succ, foldlM_range_succ, ih (Nat.le_of_succ_le hh)]
    refine (yields_placed hn limit (Nat.le_of_succ_le hh)).bind_congr ?_
    rintro s ⟨chosen, positive, rfl, hs⟩
    exact placeNextChecked_eq hn hs hh

/-- Some double words make the shuffle choose the given positions next, in this order. -/
theorem exists_words (hn : n ≤ 2 ^ 63) {rest : List ℕ} (hrest : ∀ p ∈ rest, p < n)
    (hnodup : (chosen ++ rest).Nodup) (hs : s.Placed n chosen positive) :
    ∃ words, ∀ source : Source, source.Starts words → ∀ limit > 0, ∃ s' t,
      ((List.range' chosen.length rest.length).foldlM (placeNext n limit) s).run source =
        .ok (s', t) ∧ s'.Placed n (chosen ++ rest) positive := by
  induction rest generalizing chosen s with
  | nil => exact ⟨[], fun source _ limit _ => ⟨s, source, rfl, by rwa [List.append_nil]⟩⟩
  | cons p rest ih =>
    obtain ⟨hp, hrest⟩ := List.forall_mem_cons.1 hrest
    have hnotMem : p ∉ chosen := fun hmem =>
      List.disjoint_of_nodup_append hnodup hmem (List.mem_cons_self ..)
    rw [List.append_cons] at hnodup ⊢
    obtain ⟨j, hj, hjp⟩ := hs.exists_getElem? hp hnotMem
    have hjn : j < n := by
      rw [← hs.size_order]
      exact (Array.getElem?_eq_some_iff.1 hjp).1
    have hplaced := hs.place hj hjp (positive p)
    rw [Function.update_eq_self] at hplaced
    obtain ⟨words, hwords⟩ := ih hrest hnodup hplaced
    refine ⟨UInt64.ofNat (j - chosen.length) :: flagWord (positive p) :: words,
      fun source hsource limit hlimit => ?_⟩
    obtain ⟨hoffset, hsource⟩ := Source.starts_cons.1 hsource
    obtain ⟨hflag, hsource⟩ := Source.starts_cons.1 hsource
    rw [Source.doubleAt_tail_tail] at hflag
    obtain ⟨s', t, hrun, hs'⟩ := hwords _ hsource limit hlimit
    refine ⟨s', t, ?_, hs'⟩
    rw [List.length_cons, List.range'_succ, List.foldlM_cons, StateT.run_bind,
      run_placeNext_of_doubleAt hn hlimit hj hjn hoffset hflag, Outcome.ok_bind]
    simpa using hrun

/-! ### The secret -/

/-- Writing a secret loses what was there before, and none of its checks fails. -/
theorem fill_eq_generate (d : SecretDistribution) {data : Array ℤ} (hsize : data.size ≤ 2 ^ 63)
    (limit : ℕ) : d.fill data limit = d.generate data.size limit := by
  cases d with
  | ternary p =>
    refine Draw.require_bind_congr _ fun _ => ?_
    have hmany := Draw.mapM_const (ternaryCoefficient p) id data.toList
    rw [id_map, List.map_id_fun, id_map] at hmany
    rw [Array.mapM_eq_mapM_toList, hmany]
    rfl
  | weight h =>
    refine Draw.require_bind_congr _ fun hh => ?_
    have hpower : data.size.nextPowerOfTwo < 2 ^ 64 :=
      (nextPowerOfTwo_le hsize).trans_lt (by decide)
    have hcleared : (⟨Array.range data.size, data.map fun _ => 0⟩ : Shuffle) =
        Shuffle.start data.size := by rw [Shuffle.start, Array.map_const']
    rw [Draw.require_bind hpower]
    dsimp only
    rw [hcleared, foldlM_placeNextChecked hsize limit hh]
  | binary =>
    have hmany := Draw.mapM_const Draw.flag (fun b => if b then (1 : ℤ) else 0) data.toList
    rw [fill, generate, Array.mapM_eq_mapM_toList]
    simp only [map_eq_pure_bind] at hmany ⊢
    rw [hmany, Array.length_toList, bind_assoc]
    simp only [pure_bind]

theorem fill_weight_eq {data : Array ℤ} (hh : h ≤ data.size) (hsize : data.size ≤ 2 ^ 63)
    (limit : ℕ) : fill (.weight h) data limit = (do
      let s ← (List.range h).foldlM (placeNext data.size limit) (Shuffle.start data.size)
      pure s.signs) := by
  rw [fill_eq_generate _ hsize]
  exact Draw.require_bind hh _ _

theorem run_fill_weight {data : Array ℤ} (hh : h ≤ data.size) (hsize : data.size ≤ 2 ^ 63)
    {t : Source} (hfold : ((List.range h).foldlM (placeNext data.size limit)
      (Shuffle.start data.size)).run source = .ok (s, t)) :
    (fill (.weight h) data limit).run source = .ok (s.signs, t) := by
  rw [fill_weight_eq hh hsize, StateT.run_bind, hfold]
  rfl

/-- Every draw of a position comes to an end: whenever fewer than `h` signs were placed, there comes
a double word that is below the number of the positions left, under the mask. -/
def DrawsEnd (data : Array ℤ) (h : ℕ) (source : Source) : Prop :=
  ∀ i < h, ∀ limit a t, (fill (.weight i) data limit).run source = .ok (a, t) →
    ∃ k, t.doubleAt k &&& UInt64.ofNat (data.size.nextPowerOfTwo - 1) <
      UInt64.ofNat (data.size - i)

/-- Zeros are offsets of positions that are left. -/
theorem drawsEnd_zeros : DrawsEnd #[7, 8, 9, 10] 2 (Source.ofWords fun _ => 0) := by
  intro i hi limit a t hrun
  have hzero (k : ℕ) : (Source.ofWords fun _ => 0).doubleAt k = 0 := Source.doubleAt_ofWords _ k
  suffices ht : t.doubleAt 0 = 0 by
    refine ⟨0, ?_⟩
    rw [ht, UInt64.zero_and]
    interval_cases i <;> decide
  rw [fill_weight_eq (hi.le.trans (by decide)) (by decide), StateT.run_bind] at hrun
  interval_cases i
  · cases hrun
    exact hzero 0
  · cases limit with
    | zero => cases hrun
    | succ limit =>
      rw [foldlM_range_succ, List.range_zero, List.foldlM_nil, pure_bind,
        run_placeNext_of_doubleAt (j := 0) (b := false) (by decide) (Nat.succ_pos limit) le_rfl
          (by decide) (hzero 0) (hzero 1)] at hrun
      cases hrun
      rw [Source.doubleAt_tail_tail, Source.doubleAt_tail_tail, hzero]

/-- Where every draw comes to an end, so does the shuffle. -/
theorem DrawsEnd.exists_run {data : Array ℤ} (hends : DrawsEnd data h source)
    (hweight : h ≤ data.size) (hsize : data.size ≤ 2 ^ 63) :
    ∃ s t, ∃ enough, ∀ limit ≥ enough,
      ((List.range h).foldlM (placeNext data.size limit) (Shuffle.start data.size)).run source =
        .ok (s, t) := by
  induction h with
  | zero => exact ⟨_, _, 0, fun _ _ => rfl⟩
  | succ h ih =>
    have hle : h ≤ data.size := Nat.le_of_succ_le hweight
    obtain ⟨s, t, enough, hrun⟩ := ih (fun i hi => hends i (Nat.lt_succ_of_lt hi)) hle
    have hfill := run_fill_weight hle hsize (hrun enough le_rfl)
    obtain ⟨s', t', enough', hnext⟩ :=
      run_placeNext_of_exists s (hends h (Nat.lt_succ_self h) enough _ t hfill)
    refine ⟨s', t', Nat.max enough enough', fun limit hlimit => ?_⟩
    rw [foldlM_range_succ, StateT.run_bind, hrun limit ((Nat.le_max_left ..).trans hlimit)]
    exact hnext limit ((Nat.le_max_right ..).trans hlimit)

/-- Writing a secret of weight `h` leaves `h` signs and zeros elsewhere.  It only fails by giving
up, and where all draws come to an end it does not.  All choices of positions and signs can be
written.  (No memory holds as many coefficients as the bound.) -/
theorem fill_weight {data : Array ℤ} (hweight : h ≤ data.size) (hsize : data.size ≤ 2 ^ 63) :
    (∀ limit, (fill (.weight h) data limit).Yields (HasWeight data.size h)) ∧
    (∀ source, DrawsEnd data h source → ∃ a t, HasWeight data.size h a ∧
      ∃ enough, ∀ limit ≥ enough, (fill (.weight h) data limit).run source = .ok (a, t)) ∧
    ∀ positions ⊆ Finset.range data.size, positions.card = h → ∀ positive : ℕ → Bool,
      ∃ source, ∀ limit > 0, ∃ t, (fill (.weight h) data limit).run source =
        .ok (signsAt data.size positions positive, t) := by
  have hyields (limit : ℕ) : (fill (.weight h) data limit).Yields (HasWeight data.size h) := by
    rw [fill_weight_eq hweight hsize]
    refine (yields_placed hsize limit hweight).bind ?_
    rintro s ⟨chosen, positive, rfl, hs⟩
    exact Draw.yields_pure hs.hasWeight
  refine ⟨hyields, fun source hends => ?_, fun positions hpositions hcard positive => ?_⟩
  · obtain ⟨s, t, enough, hfold⟩ := hends.exists_run hweight hsize
    have hrun : ∀ limit ≥ enough, (fill (.weight h) data limit).run source = .ok (s.signs, t) :=
      fun limit hlimit => run_fill_weight hweight hsize (hfold limit hlimit)
    exact ⟨s.signs, t, (hyields enough source).of_ok (hrun enough le_rfl), enough, hrun⟩
  · have hlt : ∀ p ∈ positions.toList, p < data.size := fun p hp =>
      Finset.mem_range.1 (hpositions (Finset.mem_toList.1 hp))
    obtain ⟨words, hwords⟩ := exists_words hsize hlt (by simpa using positions.nodup_toList)
      (Shuffle.placed_start data.size positive)
    obtain ⟨source, hsource⟩ := Source.exists_starts words
    refine ⟨source, fun limit hlimit => ?_⟩
    obtain ⟨s, t, hfold, hs⟩ := hwords source hsource limit hlimit
    rw [Finset.length_toList, hcard, List.length_nil, ← List.range_eq_range'] at hfold
    refine ⟨t, ?_⟩
    rw [run_fill_weight hweight hsize hfold, hs.signs_eq, List.nil_append, Finset.toList_toFinset]

theorem fill_weight_twoOfFour :
    2 ≤ (#[7, 8, 9, 10] : Array ℤ).size ∧ (#[7, 8, 9, 10] : Array ℤ).size ≤ 2 ^ 63 ∧
    DrawsEnd #[7, 8, 9, 10] 2 (Source.ofWords fun _ => 0) ∧
    (∃ a t, HasWeight 4 2 a ∧ ∃ enough, ∀ limit ≥ enough,
      (fill (.weight 2) #[7, 8, 9, 10] limit).run (Source.ofWords fun _ => 0) = .ok (a, t)) ∧
    ∃ source, ∀ limit > 0, ∃ t,
      (fill (.weight 2) #[7, 8, 9, 10] limit).run source = .ok (#[0, 1, 0, -1], t) := by
  obtain ⟨-, hends, hchoice⟩ := @fill_weight 2 #[7, 8, 9, 10] (by decide) (by decide)
  have hsigns : signsAt 4 {1, 3} (· == 1) = #[0, 1, 0, -1] := by cbv
  refine ⟨by decide, by decide, drawsEnd_zeros, hends _ drawsEnd_zeros, ?_⟩
  rw [← hsigns]
  exact hchoice {1, 3} (by decide) rfl _

end SecretDistribution

end CipherMonitor
