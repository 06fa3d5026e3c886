import Mathlib.Data.Nat.Notation
import CipherMonitor.Bytes.Decoder

/-!
# What a decoder accepts

A field is read exactly from its own bytes, so what a decoder accepts starts with the bytes of what
it gives.

* `Decoder.run_bind`, `Decoder.run_bind_eq_ok_iff` — two decoders one after the other.
* `Decoder.run_field_eq_ok_iff` — a field and its bytes.
* `Decoder.run_many_flatMap` — a decoder run on the bytes of a whole list.
* `Decoder.run_many_field_eq_ok_iff` — many fields and their bytes.
-/

namespace CipherMonitor.Decoder

variable {α β : Type} {d : Decoder α} {f : α → Decoder β} {bytes rest : List UInt8}

theorem run_bind (d : Decoder α) (f : α → Decoder β) (bytes : List UInt8) :
    (d >>= f).run bytes =
      match d.run bytes with
      | .error e => .error e
      | .ok (a, rest) => (f a).run rest := by
  rw [StateT.run_bind]
  rcases d.run bytes with e | ⟨a, rest⟩ <;> rfl

theorem run_bind_eq_ok_iff {b : β} :
    (d >>= f).run bytes = .ok (b, rest) ↔
      ∃ a mid, d.run bytes = .ok (a, mid) ∧ (f a).run mid = .ok (b, rest) := by
  rw [StateT.run_bind]
  rcases d.run bytes with e | ⟨a, mid⟩
  · simp [bind, Except.bind]
  · exact ⟨fun h => ⟨a, mid, rfl, h⟩, by rintro ⟨_, _, ⟨⟩, h⟩; exact h⟩

theorem run_bind_of_ok {a : α} {mid : List UInt8} (h : d.run bytes = .ok (a, mid))
    (f : α → Decoder β) : (d >>= f).run bytes = (f a).run mid := by
  rw [StateT.run_bind, h]
  rfl

theorem run_pure_eq_ok_iff {a b : α} :
    (pure a : Decoder α).run bytes = .ok (b, rest) ↔ a = b ∧ bytes = rest := by
  rw [StateT.run_pure]
  simp [pure, Except.pure]

/-- What a field is read from are its own bytes. -/
theorem run_field_eq_ok_iff {width n : ℕ} :
    (field width).run bytes = .ok (n, rest) ↔
      n < 256 ^ width ∧ bytes = Bytes.ofNat width n ++ rest := by
  constructor
  · intro h
    simp only [field, StateT.run] at h
    split at h
    · cases h
    · rename_i hlen
      obtain ⟨rfl, rfl⟩ := Prod.mk.inj (Except.ok.inj h)
      have htake : (bytes.take width).length = width := List.length_take_of_le (by omega)
      have hlt := Bytes.toNat_lt (bytes.take width)
      have hfront := Bytes.ofNat_toNat (bytes.take width)
      rw [htake] at hlt hfront
      exact ⟨hlt, by rw [hfront, List.take_append_drop]⟩
  · rintro ⟨hlt, rfl⟩
    exact field_ofNat hlt rest

/-- A decoder that reads back the bytes of each value reads back those of a list. -/
theorem run_many_flatMap {encode : α → List UInt8} {l : List α}
    (h : ∀ a ∈ l, ∀ rest, d.run (encode a ++ rest) = .ok (a, rest)) (rest : List UInt8) :
    (d.many l.length).run (l.flatMap encode ++ rest) = .ok (l, rest) := by
  induction l with
  | nil => rfl
  | cons a l ih =>
    have htail := ih fun b hb => h b (List.mem_cons_of_mem _ hb)
    rw [List.flatMap_cons, List.append_assoc, List.length_cons, many,
      run_bind_of_ok (h a (List.mem_cons_self ..) _), run_bind_of_ok htail]
    rfl

/-- What many fields are read from are their own bytes, one after the other. -/
theorem run_many_field_eq_ok_iff {width count : ℕ} {l : List ℕ} :
    ((field width).many count).run bytes = .ok (l, rest) ↔
      l.length = count ∧ (∀ n ∈ l, n < 256 ^ width) ∧
        bytes = l.flatMap (Bytes.ofNat width) ++ rest := by
  constructor
  · intro h
    induction count generalizing bytes l with
    | zero =>
      obtain ⟨rfl, rfl⟩ := run_pure_eq_ok_iff.1 h
      exact ⟨rfl, by simp, rfl⟩
    | succ count ih =>
      rw [many] at h
      obtain ⟨n, mid, hfield, h⟩ := run_bind_eq_ok_iff.1 h
      obtain ⟨l, last, hmany, h⟩ := run_bind_eq_ok_iff.1 h
      obtain ⟨rfl, rfl⟩ := run_pure_eq_ok_iff.1 h
      obtain ⟨hn, rfl⟩ := run_field_eq_ok_iff.1 hfield
      obtain ⟨rfl, hl, rfl⟩ := ih hmany
      exact ⟨rfl, List.forall_mem_cons.2 ⟨hn, hl⟩, by rw [List.flatMap_cons, List.append_assoc]⟩
  · rintro ⟨rfl, hl, rfl⟩
    exact run_many_flatMap (fun n hn rest => field_ofNat (hl n hn) rest) rest

end CipherMonitor.Decoder
