import CipherMonitor.Proofs.Source.Draw

/-!
# Double words of a source

Numbers below a bound and flags are read from double words, one after the other.  A bounded number
takes the first double word that is below its bound under a mask; the mask of the next power of two
leaves all numbers below the bound as they are.

* `le_nextPowerOfTwo`, `nextPowerOfTwo_le` — the least power of two that is not below a number.
* `Source.doubleAt`, `Source.exists_starts` — the double words ahead, which may begin with any.
* `Draw.run_word64`, `Draw.run_flag` — what is drawn from the first one.
* `Draw.run_below_of_lt`, `Draw.run_below_of_exists` — what is drawn by rejection, at once or later.
-/

namespace CipherMonitor

/-! ### Powers of two -/

open private Nat.nextPowerOfTwo.go from Init.Data.Nat.Power2.Basic

/-- Doubling a power of two ends between the number and any power of two that is not below it. -/
theorem nextPowerOfTwo_go_mem {n m k : ℕ} (hn : n ≤ 2 ^ m) (hk : k ≤ m) :
    Nat.nextPowerOfTwo.go n (2 ^ k) (Nat.two_pow_pos k) ∈ Set.Icc n (2 ^ m) := by
  unfold Nat.nextPowerOfTwo.go
  split
  · next hlt =>
    have hkm : k < m := (Nat.pow_lt_pow_iff_right (by decide)).1 (hlt.trans_le hn)
    exact nextPowerOfTwo_go_mem hn hkm
  · next hge => exact ⟨not_lt.1 hge, Nat.pow_le_pow_right (by decide) hk⟩
termination_by m - k

theorem le_nextPowerOfTwo (n : ℕ) : n ≤ n.nextPowerOfTwo :=
  (nextPowerOfTwo_go_mem n.lt_two_pow_self.le (Nat.zero_le n)).1

theorem nextPowerOfTwo_le {n m : ℕ} (h : n ≤ 2 ^ m) : n.nextPowerOfTwo ≤ 2 ^ m :=
  (nextPowerOfTwo_go_mem h (Nat.zero_le m)).2

/-- The mask of a power of two leaves the numbers below it as they are. -/
theorem ofNat_and_mask {n j : ℕ} (hj : j < n) :
    UInt64.ofNat j &&& UInt64.ofNat (n.nextPowerOfTwo - 1) = UInt64.ofNat j := by
  obtain ⟨m, hm⟩ := n.isPowerOfTwo_nextPowerOfTwo
  have hle : n ≤ 2 ^ m := hm ▸ le_nextPowerOfTwo n
  rw [← UInt64.ofNat_and, hm, Nat.and_two_pow_sub_one_eq_mod, Nat.mod_eq_of_lt (hj.trans_le hle)]

theorem toNat_ofNat_of_le {m : ℕ} (h : m ≤ 2 ^ 63) : (UInt64.ofNat m).toNat = m :=
  UInt64.toNat_ofNat_of_lt' (h.trans_lt (by decide))

/-! ### The words ahead -/

namespace Source

/-- The double word after `k` others, low half first. -/
def doubleAt (s : Source) (k : ℕ) : UInt64 :=
  (s.word (s.position + 2 * k)).toUInt64 ||| ((s.word (s.position + 2 * k + 1)).toUInt64 <<< 32)

theorem doubleAt_tail_tail (s : Source) (k : ℕ) : s.tail.tail.doubleAt k = s.doubleAt (k + 1) := by
  rw [doubleAt, doubleAt]
  simp only [word_tail, position_tail]
  rw [show s.position + 1 + 1 + 2 * k = s.position + 2 * (k + 1) by omega]

theorem word_ofWords (words : ℕ → UInt32) (i : ℕ) : (ofWords words).word i = words i := by
  simp [word, ofWords, ofBlocks, Vector.get_ofFn, Nat.div_add_mod]

theorem doubleAt_ofWords (words : ℕ → UInt32) (k : ℕ) : (ofWords words).doubleAt k =
    (words (2 * k)).toUInt64 ||| ((words (2 * k + 1)).toUInt64 <<< 32) := by
  have hposition : (ofWords words).position = 0 := rfl
  rw [doubleAt, hposition, Nat.zero_add, word_ofWords, word_ofWords]

/-- A double word is made of its halves. -/
theorem or_halves (x : UInt64) :
    x.toUInt32.toUInt64 ||| ((x >>> 32).toUInt32.toUInt64 <<< 32) = x := by
  have hlt := x.toNat_lt
  have hor := Nat.two_pow_add_eq_or_of_lt (i := 32) (b := x.toNat % 2 ^ 32)
    (Nat.mod_lt _ (by decide)) (x.toNat / 2 ^ 32)
  apply UInt64.toNat_inj.1
  rw [UInt64.or_comm]
  simp only [UInt64.toNat_or, UInt64.toNat_shiftLeft, UInt64.toNat_shiftRight,
    UInt32.toNat_toUInt64, UInt64.toNat_toUInt32, UInt64.toNat_ofNat, Nat.shiftRight_eq_div_pow,
    Nat.shiftLeft_eq, Nat.reducePow, Nat.reduceMod] at hor hlt ⊢
  rw [Nat.mod_eq_of_lt (a := x.toNat / 4294967296) (by omega), Nat.mod_eq_of_lt (by omega),
    Nat.mul_comm, ← hor]
  omega

/-- The halves of the given double words, low half first. -/
def halves (words : ℕ → UInt64) (i : ℕ) : UInt32 :=
  if i % 2 = 0 then (words (i / 2)).toUInt32 else (words (i / 2) >>> 32).toUInt32

/-- Every sequence of double words is that of a source. -/
theorem doubleAt_ofWords_halves (words : ℕ → UInt64) (k : ℕ) :
    (ofWords (halves words)).doubleAt k = words k := by
  have hlow : halves words (2 * k) = (words k).toUInt32 := by
    rw [halves, if_pos (by omega), show 2 * k / 2 = k by omega]
  have hhigh : halves words (2 * k + 1) = (words k >>> 32).toUInt32 := by
    rw [halves, if_neg (by omega), show (2 * k + 1) / 2 = k by omega]
  rw [doubleAt_ofWords, hlow, hhigh, or_halves]

/-- The double words ahead begin with the given ones. -/
def Starts (s : Source) (words : List UInt64) : Prop :=
  ∀ k (hk : k < words.length), s.doubleAt k = words[k]

theorem starts_cons {s : Source} {x : UInt64} {words : List UInt64} :
    s.Starts (x :: words) ↔ s.doubleAt 0 = x ∧ s.tail.tail.Starts words := by
  constructor
  · intro h
    refine ⟨h 0 (Nat.zero_lt_succ _), fun k hk => ?_⟩
    rw [doubleAt_tail_tail]
    exact h (k + 1) (Nat.succ_lt_succ hk)
  · rintro ⟨hx, h⟩ k hk
    cases k with
    | zero => exact hx
    | succ k =>
      rw [← doubleAt_tail_tail]
      exact h k (Nat.lt_of_succ_lt_succ hk)

theorem exists_starts (words : List UInt64) : ∃ s : Source, s.Starts words := by
  refine ⟨ofWords (halves fun k => words.getD k 0), fun k hk => ?_⟩
  rw [doubleAt_ofWords_halves, List.getD_eq_getElem _ _ hk]

end Source

/-! ### Draws of a double word -/

namespace Draw

variable {s : Source} {max mask : UInt64} {limit : ℕ}

theorem run_word64 (s : Source) : word64.run s = .ok (s.doubleAt 0, s.tail.tail) := by
  have hrun : word64.run s =
      .ok (s.head.toUInt64 ||| (s.tail.head.toUInt64 <<< 32), s.tail.tail) := rfl
  rw [hrun, Source.head_eq_word, Source.head_eq_word, Source.word_tail, Source.position_tail]
  rfl

theorem run_flag (s : Source) : flag.run s = .ok (s.doubleAt 0 >>> 63 == 1, s.tail.tail) := by
  rw [flag, StateT.run_bind, run_word64]
  rfl

/-- One attempt of rejection sampling. -/
theorem run_below_succ (s : Source) : (below max mask (limit + 1)).run s =
    if s.doubleAt 0 &&& mask < max then .ok (s.doubleAt 0 &&& mask, s.tail.tail)
    else (below max mask limit).run s.tail.tail := by
  have hunfold : below max mask (limit + 1) = (do
      let x ← word64
      if x &&& mask < max then pure (x &&& mask) else below max mask limit) := by
    rw [below, drawUntil, bind_assoc]
    simp only [pure_bind, decide_eq_true_eq]
    rfl
  rw [hunfold, StateT.run_bind, run_word64, Outcome.ok_bind]
  split_ifs <;> rfl

/-- A first double word below the bound is taken. -/
theorem run_below_of_lt (hlimit : 0 < limit) (h : s.doubleAt 0 &&& mask < max) :
    (below max mask limit).run s = .ok (s.doubleAt 0 &&& mask, s.tail.tail) := by
  obtain ⟨limit, rfl⟩ := Nat.exists_eq_succ_of_ne_zero hlimit.ne'
  rw [run_below_succ, if_pos h]

/-- Where a double word below the bound comes, it is found by all that are patient enough. -/
theorem run_below_of_exists (h : ∃ k, s.doubleAt k &&& mask < max) :
    ∃ x t, ∃ enough, ∀ limit ≥ enough, (below max mask limit).run s = .ok (x, t) := by
  obtain ⟨k, hk⟩ := h
  induction k generalizing s with
  | zero => exact ⟨_, _, 1, fun limit hlimit => run_below_of_lt hlimit hk⟩
  | succ k ih =>
    by_cases hfirst : s.doubleAt 0 &&& mask < max
    · exact ⟨_, _, 1, fun limit hlimit => run_below_of_lt hlimit hfirst⟩
    · rw [← Source.doubleAt_tail_tail] at hk
      obtain ⟨x, t, enough, hrun⟩ := ih hk
      refine ⟨x, t, enough + 1, fun limit hlimit => ?_⟩
      obtain ⟨limit, rfl⟩ := Nat.exists_eq_succ_of_ne_zero (Nat.ne_zero_of_lt hlimit)
      rw [run_below_succ, if_neg hfirst]
      exact hrun limit (Nat.le_of_succ_le_succ hlimit)

theorem yields_below (max mask : UInt64) (limit : ℕ) :
    (below max mask limit).Yields (· < max) := by
  induction limit with
  | zero => exact fun _ => rfl
  | succ limit ih =>
    intro s
    rw [run_below_succ]
    split_ifs with hlt
    · exact hlt
    · exact ih s.tail.tail

end Draw

end CipherMonitor
