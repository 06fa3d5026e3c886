import CipherMonitor.Json.Value
import CipherMonitor.Proofs.Json.Token

/-!
# JSON values read back

* `Json.readIn_toTokens` — the tokens of a value are read as the value, inside of any containers.
* `Json.readable_toTokens` — the tokens of a plain value can be told apart in its text.
* `Json.read?_write` — a plain value is read back from its text.
* `Json.toFields?_ofFields`, `Json.toList?_ofList` — records and lists of data.
-/

namespace CipherMonitor.Json

/-! ### Tokens of a value -/

theorem toTokens_ne_closeArray (value : Json) (rest : List Token) :
    ∀ rest', value.toTokens ++ rest ≠ .closeArray :: rest' := by
  intro rest' h
  cases value with
  | array items => cases items <;> simp [toTokens] at h
  | object members => cases members <;> simp [toTokens] at h
  | _ => simp [toTokens] at h

theorem readIn_openArray {within : List Container} {rest : List Token}
    (h : ∀ rest', rest ≠ .closeArray :: rest') :
    readIn within (.openArray :: rest) = readIn (.items [] :: within) rest := by
  rw [readIn]
  exact fun rest' hrest => h rest' hrest

theorem afterValue_comma_items (done : List Json) (within : List Container) (value : Json)
    (rest : List Token) : afterValue (.items done :: within) value (.comma :: rest) =
      readIn (.items (value :: done) :: within) rest := by
  unfold afterValue
  split <;> simp_all

mutual

/-- The tokens of a value are read as the value. -/
theorem readIn_toTokens (within : List Container) (rest : List Token) : (value : Json) →
    readIn within (value.toTokens ++ rest) = afterValue within value rest
  | .null => by rw [toTokens, List.singleton_append, readIn]
  | .flag b => by rw [toTokens, List.singleton_append, readIn]
  | .number n => by rw [toTokens, List.singleton_append, readIn]
  | .text raw => by rw [toTokens, List.singleton_append, readIn]
  | .array [] => by
    rw [toTokens, List.cons_append, List.singleton_append, readIn]
  | .array (item :: items) => by
    rw [toTokens, List.cons_append, List.cons_append, List.append_assoc,
      readIn_openArray (toTokens_ne_closeArray item _), readIn_toTokens _ _ item,
      afterValue_itemTokens within rest items [] item]
    rfl
  | .object [] => by
    rw [toTokens, List.cons_append, List.singleton_append, readIn]
  | .object ((name, value) :: members) => by
    simp only [toTokens, List.cons_append, List.append_assoc]
    rw [readIn, readIn_toTokens _ _ value,
      afterValue_memberTokens within rest members [] name value]
    rfl

/-- Behind an item the further ones are read, and the array is complete. -/
theorem afterValue_itemTokens (within : List Container) (rest : List Token) : (items : List Json) →
    ∀ done item, afterValue (.items done :: within) item (itemTokens items ++ rest) =
      afterValue within (.array ((item :: done).reverse ++ items)) rest
  | [], done, item => by
    rw [itemTokens, List.singleton_append, afterValue, List.append_nil]
  | next :: items, done, item => by
    rw [itemTokens, List.cons_append, List.cons_append, List.append_assoc, afterValue_comma_items,
      readIn_toTokens _ _ next, afterValue_itemTokens within rest items (item :: done) next,
      List.reverse_cons, List.append_assoc, List.singleton_append]

/-- Behind a member the further ones are read, and the object is complete. -/
theorem afterValue_memberTokens (within : List Container) (rest : List Token) :
    (members : List (List Char × Json)) → ∀ done name value,
      afterValue (.members done name :: within) value (memberTokens members ++ rest) =
        afterValue within (.object (((name, value) :: done).reverse ++ members)) rest
  | [], done, name, value => by
    rw [memberTokens, List.singleton_append, afterValue, List.append_nil]
  | (next, item) :: members, done, name, value => by
    simp only [memberTokens, List.cons_append, List.append_assoc]
    rw [afterValue, readIn_toTokens _ _ item,
      afterValue_memberTokens within rest members ((name, value) :: done) next item,
      List.reverse_cons, List.append_assoc, List.singleton_append]

end

/-! ### The text of a value -/

/-- Values of whole numbers, and of texts whose characters stand for themselves. -/
inductive Plain : Json → Prop
  | null : Plain .null
  | flag (b : Bool) : Plain (.flag b)
  | nat (n : ℕ) : Plain (.ofNat n)
  | text {raw : List Char} (h : Token.PlainText raw) : Plain (.text raw)
  | array {items : List Json} (h : ∀ item ∈ items, Plain item) : Plain (.array items)
  | object {members : List (List Char × Json)} (hnames : ∀ m ∈ members, Token.PlainText m.1)
      (h : ∀ m ∈ members, Plain m.2) : Plain (.object members)

/-- Readable tokens that do not start with a number. -/
def Follow (tokens : List Token) : Prop :=
  Token.Readable tokens ∧ ∀ t ∈ tokens.head?, t.isNumber = false

theorem readable_cons {t : Token} {tokens : List Token} (h : t.isNumber = false) :
    Token.Readable (t :: tokens) ↔ t.Plain ∧ Token.Readable tokens := by
  simp [Token.Readable, h]

theorem follow_cons {t : Token} {tokens : List Token} (h : t.isNumber = false) :
    Follow (t :: tokens) ↔ t.Plain ∧ Token.Readable tokens := by
  simp [Follow, readable_cons h, h]

theorem follow_itemTokens {items : List Json} {rest : List Token} (hrest : Token.Readable rest)
    (ih : ∀ item ∈ items, ∀ rest, Follow rest → Token.Readable (item.toTokens ++ rest)) :
    Follow (itemTokens items ++ rest) := by
  induction items with
  | nil => exact (follow_cons (t := .closeArray) rfl).2 ⟨trivial, hrest⟩
  | cons item items hitems =>
    obtain ⟨hitem, ih⟩ := List.forall_mem_cons.1 ih
    rw [itemTokens, List.cons_append, List.cons_append, List.append_assoc]
    exact (follow_cons (t := .comma) rfl).2 ⟨trivial, hitem _ (hitems ih)⟩

/-- A name, a colon and what follows. -/
theorem readable_member {name : List Char} {tokens : List Token} (hname : Token.PlainText name)
    (h : Token.Readable tokens) : Token.Readable (.text name :: .colon :: tokens) :=
  (readable_cons (t := .text name) rfl).2
    ⟨hname, (readable_cons (t := .colon) rfl).2 ⟨trivial, h⟩⟩

theorem follow_memberTokens {members : List (List Char × Json)} {rest : List Token}
    (hrest : Token.Readable rest)
    (ih : ∀ m ∈ members, Token.PlainText m.1 ∧
      ∀ rest, Follow rest → Token.Readable (m.2.toTokens ++ rest)) :
    Follow (memberTokens members ++ rest) := by
  induction members with
  | nil => exact (follow_cons (t := .closeObject) rfl).2 ⟨trivial, hrest⟩
  | cons m members hmembers =>
    obtain ⟨name, value⟩ := m
    obtain ⟨⟨hname, hvalue⟩, ih⟩ := List.forall_mem_cons.1 ih
    simp only [memberTokens, List.cons_append, List.append_assoc]
    exact (follow_cons (t := .comma) rfl).2
      ⟨trivial, readable_member hname (hvalue _ (hmembers ih))⟩

/-- The tokens of a plain value are readable before tokens that do not start with a number. -/
theorem readable_toTokens {value : Json} (h : value.Plain) :
    ∀ rest, Follow rest → Token.Readable (value.toTokens ++ rest) := by
  have hopenArray : ∀ {tokens}, Token.Readable tokens → Token.Readable (.openArray :: tokens) :=
    fun h => (readable_cons (t := .openArray) rfl).2 ⟨trivial, h⟩
  have hopenObject : ∀ {tokens}, Token.Readable tokens → Token.Readable (.openObject :: tokens) :=
    fun h => (readable_cons (t := .openObject) rfl).2 ⟨trivial, h⟩
  induction h with
  | null => exact fun rest hrest => (readable_cons (t := .null) rfl).2 ⟨trivial, hrest.1⟩
  | flag b => exact fun rest hrest => (readable_cons (t := .flag b) rfl).2 ⟨trivial, hrest.1⟩
  | nat n => exact fun rest hrest => ⟨⟨n, rfl⟩, fun _ => hrest.2, hrest.1⟩
  | @text raw hraw =>
    exact fun rest hrest => (readable_cons (t := .text raw) rfl).2 ⟨hraw, hrest.1⟩
  | @array items _ ih =>
    intro rest hrest
    cases items with
    | nil => exact hopenArray (@follow_itemTokens [] _ hrest.1 nofun).1
    | cons item items =>
      obtain ⟨hitem, ih⟩ := List.forall_mem_cons.1 ih
      rw [toTokens, List.cons_append, List.cons_append, List.append_assoc]
      exact hopenArray (hitem _ (follow_itemTokens hrest.1 ih))
  | @object members hnames _ ih =>
    intro rest hrest
    have ih := fun m hm => And.intro (hnames m hm) (ih m hm)
    cases members with
    | nil => exact hopenObject (@follow_memberTokens [] _ hrest.1 nofun).1
    | cons m members =>
      obtain ⟨name, value⟩ := m
      obtain ⟨⟨hname, hvalue⟩, ih⟩ := List.forall_mem_cons.1 ih
      simp only [toTokens, List.cons_append, List.append_assoc]
      exact hopenObject (readable_member hname (hvalue _ (follow_memberTokens hrest.1 ih)))

/-- A plain value is read back from its text, to the end. -/
theorem read?_write {value : Json} (h : value.Plain) :
    read? (Token.readAll value.write) = some (value, []) := by
  have hreadable := readable_toTokens h [] ⟨trivial, nofun⟩
  have hread := readIn_toTokens [] [] value
  rw [List.append_nil] at hreadable hread
  rw [write, Token.readAll_write hreadable, read?, hread]
  rfl

/-! ### Data -/

theorem toNat?_ofNat {bound n : ℕ} (h : n < bound) : (ofNat n).toNat? bound = some n := by
  simp [toNat?, ofNat, Numeral.toNat?_ofNat, h]

theorem mapM_map_eq_some {α β γ : Type} {xs : List α} {f : α → β} {g : β → Option γ} {h : α → γ}
    (heq : ∀ x ∈ xs, g (f x) = some (h x)) : (xs.map f).mapM g = some (xs.map h) := by
  induction xs with
  | nil => rfl
  | cons x xs ih =>
    obtain ⟨hx, hxs⟩ := List.forall_mem_cons.1 heq
    simp [hx, ih hxs]

theorem toList?_ofList {α : Type} {f : α → Json} {g : Json → Option α} {xs : List α}
    (h : ∀ x ∈ xs, g (f x) = some x) : toList? g (ofList f xs) = some xs := by
  rw [ofList, toList?, mapM_map_eq_some h, List.map_id']

/-- Among fields of different names the name of a field selects it. -/
theorem filter_name {fields : List (String × Json)} (hnodup : (fields.map Prod.fst).Nodup)
    {field : String × Json} (hfield : field ∈ fields) :
    fields.filter (·.1 == field.1) = [field] := by
  induction fields with
  | nil => cases hfield
  | cons first fields ih =>
    obtain ⟨hfirst, hnodup⟩ := List.nodup_cons.1 hnodup
    rcases List.mem_cons.1 hfield with rfl | hfield
    · have hothers : ∀ other ∈ fields, ¬ (other.1 == field.1) = true := by
        intro other hother hname
        exact hfirst (beq_iff_eq.1 hname ▸ List.mem_map_of_mem hother)
      rw [List.filter_cons_of_pos (by simp), List.filter_eq_nil_iff.2 hothers]
    · have hname : ¬ (first.1 == field.1) = true := by
        intro hname
        exact hfirst (beq_iff_eq.1 hname ▸ List.mem_map_of_mem hfield)
      rw [List.filter_cons, if_neg hname, ih hnodup hfield]

/-- The fields of a record are found by their names. -/
theorem toFields?_ofFields {fields : List (String × Json)}
    (hquoted : ∀ field ∈ fields, unquote? (quoted field.1) = some field.1)
    (hnodup : (fields.map Prod.fst).Nodup) :
    (ofFields fields).toFields? (fields.map Prod.fst) = some (fields.map fun field => some field.2) := by
  rw [ofFields, toFields?, mapM_map_eq_some (h := id) fun field hfield => ?_, List.map_id]
  · refine mapM_map_eq_some fun field hfield => ?_
    simp only [filter_name hnodup hfield]
  · simp [hquoted field hfield]

end CipherMonitor.Json
