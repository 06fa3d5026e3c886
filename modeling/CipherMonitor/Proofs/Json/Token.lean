import Mathlib.Data.List.Basic
import CipherMonitor.Json.Token

/-!
# Tokens read back

Tokens that are written one after the other are read back, as long as no number stands right behind
another one.  Only the tokens that data are written with are looked at: whole numbers, and texts of
characters that stand for themselves.

* `Json.digitRun_write`, `Json.numeral?_write` — digits and whole numbers before anything that does
  not go on with them.
* `Json.Token.first?_write` — the first token.
* `Json.Token.readAll_write` — all tokens.
-/

namespace CipherMonitor.Json

variable {rest : List Char}

/-! ### Digits -/

theorem digits_lt (n : ℕ) : ∀ d ∈ digitsOf n, d < 10 := by
  fun_induction digitsOf n with
  | case1 n h => simpa using h
  | case2 n h ih =>
    intro d hd
    rcases List.mem_append.1 hd with hd | hd
    · exact ih d hd
    · exact List.mem_singleton.1 hd ▸ Nat.mod_lt n (by decide)

/-- The digits of a number start with a zero only if there is no other. -/
theorem digitsOf_eq_cons (n : ℕ) : ∃ d ds, digitsOf n = d :: ds ∧ (d = 0 → ds = []) := by
  have hlead : ∀ n, n ≠ 0 → ∃ d ds, digitsOf n = d :: ds ∧ d ≠ 0 := by
    intro n
    fun_induction digitsOf n with
    | case1 n h => exact fun hn => ⟨n, [], rfl, hn⟩
    | case2 n h ih =>
      intro _
      obtain ⟨d, ds, hds, hd⟩ := ih (by omega)
      exact ⟨d, ds ++ [n % 10], by rw [hds, List.cons_append], hd⟩
  rcases eq_or_ne n 0 with rfl | hn
  · exact ⟨0, [], by rw [digitsOf, if_pos (by decide)], fun _ => rfl⟩
  · obtain ⟨d, ds, hds, hd⟩ := hlead n hn
    exact ⟨d, ds, hds, fun h => absurd h hd⟩

namespace Token

theorem writeDigit_spec {d : ℕ} (h : d < 10) :
    (writeDigit d).isDigit = true ∧ (writeDigit d).toNat - '0'.toNat = d := by
  have digits : ∀ d : Fin 10, (writeDigit d).isDigit = true ∧
      (writeDigit d).toNat - '0'.toNat = d.val := by decide
  exact digits ⟨d, h⟩

/-- What can stand behind a number without going on with it. -/
def Ends (rest : List Char) : Prop :=
  ∀ c ∈ rest.head?, c.isDigit = false ∧ c ≠ '.' ∧ c ≠ 'e' ∧ c ≠ 'E'

theorem digitRun_write {digits : List ℕ} (hdigits : ∀ d ∈ digits, d < 10) (hrest : Ends rest) :
    digitRun (digits.map writeDigit ++ rest) = (digits, rest) := by
  have hall : ∀ c ∈ digits.map writeDigit, c.isDigit = true := by
    simpa using fun d hd => (writeDigit_spec (hdigits d hd)).1
  have hvalues : (digits.map writeDigit).map (fun c => c.toNat - '0'.toNat) = digits := by
    rw [List.map_map]
    exact (List.map_congr_left fun d hd => (writeDigit_spec (hdigits d hd)).2).trans (List.map_id' digits)
  have hstop : rest.takeWhile Char.isDigit = [] ∧ rest.dropWhile Char.isDigit = rest := by
    cases rest with
    | nil => exact ⟨rfl, rfl⟩
    | cons c rest => simp [(hrest c rfl).1]
  rw [digitRun, List.takeWhile_append_of_pos hall, List.dropWhile_append_of_pos hall, hstop.1,
    hstop.2, List.append_nil, hvalues]

theorem numeral?_write (n : ℕ) (hrest : Ends rest) :
    numeral? false ((digitsOf n).map writeDigit ++ rest) = some (.number (.ofNat n), rest) := by
  have hwhole : wholePart? ((digitsOf n).map writeDigit ++ rest) = some (digitsOf n, rest) := by
    rw [wholePart?, digitRun_write (digits_lt n) hrest]
    obtain ⟨d, ds, hds, hzero⟩ := digitsOf_eq_cons n
    rw [hds]
    split <;> simp_all
  have hfraction : fractionPart? rest = some (none, rest) := by
    unfold fractionPart?
    split
    · exact absurd rfl (hrest _ rfl).2.1
    · rfl
  have hexponent : exponentPart? rest = some (none, rest) := by
    unfold exponentPart?
    split
    · rfl
    · have h := hrest _ rfl
      simp [h.2.2.1, h.2.2.2]
  simp [numeral?, hwhole, hfraction, hexponent, Numeral.ofNat]

/-! ### Texts -/

/-- Characters that stand for themselves inside quotes. -/
def PlainText (raw : List Char) : Prop := ∀ c ∈ raw, 32 ≤ c.toNat ∧ c ≠ '\"' ∧ c ≠ '\\'

instance (raw : List Char) : Decidable (PlainText raw) := List.decidableBAll _ raw

theorem closeQuote?_write {raw : List Char} (hraw : PlainText raw) :
    closeQuote? (raw ++ '\"' :: rest) = some (raw, rest) := by
  induction raw with
  | nil => rw [List.nil_append, closeQuote?]
  | cons c raw ih =>
    obtain ⟨hc, hraw⟩ := List.forall_mem_cons.1 hraw
    rw [List.cons_append, closeQuote?, ih hraw]
    · simp [hc.2.2, Nat.not_lt.2 hc.1]
    all_goals simp [hc.2.1, hc.2.2]

/-! ### Tokens -/

/-- The tokens that data are written with. -/
def Plain : Token → Prop
  | .number numeral => ∃ n, numeral = .ofNat n
  | .text raw => PlainText raw
  | .bad => False
  | _ => True

/-- Whether a token is a number. -/
def isNumber : Token → Bool
  | .number _ => true
  | _ => false

theorem write_number (n : ℕ) : write (.number (.ofNat n)) = (digitsOf n).map writeDigit := by
  simp [write, writeNumeral, Numeral.ofNat]

theorem first?_of_isDigit {c : Char} {input : List Char} (hc : c.isDigit = true) :
    first? (c :: input) = numeral? false (c :: input) := by
  rw [first?]
  all_goals
    rintro _ ⟨⟩
    exact absurd hc (by decide)

/-- The first token of a text is read back, for a number before anything that ends it. -/
theorem first?_write {token : Token} (htoken : token.Plain) (hrest : token.isNumber → Ends rest) :
    first? (token.write ++ rest) = some (token, rest) := by
  cases token with
  | number numeral =>
    obtain ⟨n, rfl⟩ := htoken
    obtain ⟨d, ds, hds, -⟩ := digitsOf_eq_cons n
    have hdigit := (writeDigit_spec (digits_lt n d (by simp [hds]))).1
    rw [write_number, ← numeral?_write n (hrest rfl), hds, List.map_cons, List.cons_append]
    exact first?_of_isDigit hdigit
  | text raw =>
    rw [write, List.cons_append, List.cons_append, List.append_assoc, List.singleton_append, first?,
      closeQuote?_write htoken]
    rfl
  | flag value => cases value <;> rfl
  | bad => exact htoken.elim
  | _ => rfl

/-- A token starts with a character that is no blank and goes on with a number only if the token is
one. -/
theorem write_eq_cons {token : Token} (htoken : token.Plain) : ∃ c written,
    token.write = c :: written ∧ isBlank c = false ∧ (token.isNumber = false → Ends [c]) := by
  cases token with
  | number numeral =>
    obtain ⟨n, rfl⟩ := htoken
    obtain ⟨d, ds, hds, -⟩ := digitsOf_eq_cons n
    have hblank : ∀ d : Fin 10, isBlank (writeDigit d) = false := by decide
    refine ⟨writeDigit d, ds.map writeDigit, by rw [write_number, hds, List.map_cons], ?_, nofun⟩
    exact hblank ⟨d, digits_lt n d (by simp [hds])⟩
  | flag value => cases value <;> exact ⟨_, _, rfl, rfl, by simp [Ends]⟩
  | bad => exact htoken.elim
  | _ => exact ⟨_, _, rfl, rfl, by simp [Ends]⟩

/-- Plain tokens of which no number stands right behind another. -/
def Readable : List Token → Prop
  | [] => True
  | token :: tokens =>
    token.Plain ∧ (token.isNumber → ∀ t ∈ tokens.head?, t.isNumber = false) ∧ Readable tokens

theorem ends_of_readable {tokens : List Token} (h : Readable tokens)
    (hhead : ∀ t ∈ tokens.head?, t.isNumber = false) : Ends (tokens.flatMap write) := by
  cases tokens with
  | nil => exact nofun
  | cons token tokens =>
    obtain ⟨c, written, hwrite, -, hends⟩ := write_eq_cons h.1
    rw [List.flatMap_cons, hwrite, List.cons_append]
    exact hends (hhead token rfl)

theorem readUpTo_write {tokens : List Token} (h : Readable tokens) {fuel : ℕ}
    (hfuel : (tokens.flatMap write).length ≤ fuel) :
    readUpTo fuel (tokens.flatMap write) = tokens := by
  induction tokens generalizing fuel with
  | nil => cases fuel <;> rfl
  | cons token tokens ih =>
    obtain ⟨htoken, hnext, htokens⟩ := h
    obtain ⟨c, written, hwrite, hblank, -⟩ := write_eq_cons htoken
    have hfirst := first?_write htoken fun hnumber => ends_of_readable htokens (hnext hnumber)
    rw [List.flatMap_cons] at hfuel ⊢
    rw [hwrite, List.cons_append] at hfirst hfuel ⊢
    cases fuel with
    | zero => exact absurd hfuel (by simp)
    | succ fuel =>
      rw [readUpTo, List.dropWhile_cons_of_neg (by simp [hblank])]
      simp only [hfirst]
      refine congrArg (token :: ·) (ih htokens ?_)
      simp only [List.length_cons, List.length_append] at hfuel
      omega

/-- The tokens of a text that was written with them. -/
theorem readAll_write {tokens : List Token} (h : Readable tokens) :
    readAll (tokens.flatMap write) = tokens := readUpTo_write h (Nat.le_refl _)

end Token

end CipherMonitor.Json
