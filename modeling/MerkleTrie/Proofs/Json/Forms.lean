-- SUMMARY: Whatever is written in JSON is read back: paths, digests, algorithms, values, aggregates, commitments, terminal branches, steps and proofs.
import MerkleTrie.Json.Forms
import MerkleTrie.Proofs.Bytes.Text
import MerkleTrie.Proofs.Hash.Imprint

/-! # JSON read back

Each way of putting JSON forms together has a rule that says when what it writes is
read back (`Json.ReadsBack.list`, `Json.ReadsBack.option`,
`Json.readField?_of_lookup`), so the records follow field by field. An option needs
its null for itself: no form under an option may write null. -/

namespace MerkleTrie

/-! ## Rules -/

namespace Json

/-- Whatever is written is read, as what it was. -/
def ReadsBack {α : Type} (write : α → Json) (read : Reader α) : Prop :=
  ∀ x, read (write x) = .ok x

section Rules

variable {α : Type} {write : α → Json} {read : Reader α}

theorem ReadsBack.list (h : ReadsBack write read) :
    ReadsBack (fun xs => .array (xs.map write)) (readList read) :=
  fun _ => mapM_map_eq_pure fun x _ => h x

theorem readOption_of_ne_null {value : Json} (h : value ≠ .null) :
    readOption read value = (read value).map some := by
  cases value with
  | null => exact absurd rfl h
  | _ => rfl

theorem ReadsBack.option (h : ReadsBack write read) (hnull : ∀ x, write x ≠ .null) :
    ReadsBack (ofOption write) (readOption read)
  | none => rfl
  | some x => by
    rw [ofOption, readOption_of_ne_null (hnull x), h x]
    rfl

/-- A field is read back if it is what the object has under its name. -/
theorem readField?_of_lookup (h : ReadsBack write read) {fields : List (String × Json)}
    {name : String} {x : α} (hlookup : fields.lookup name = some (write x)) :
    readField? fields name read = .ok (some x) := by
  rw [readField?, hlookup]
  exact congrArg (Except.map some) (h x)

end Rules

end Json

/-- The JSON form of a type reads back whatever it writes. -/
def JsonForm.ReadsBack (α : Type) [JsonForm α] : Prop :=
  Json.ReadsBack (toJson : α → Json) ofJson

open Json (readField?_of_lookup)

/-! ## Paths, digests, algorithms -/

theorem Path.readsBack : JsonForm.ReadsBack Path := by
  intro p
  change Path.ofJson (.string (Numeral.text 10 p.code)) = .ok p
  rw [Path.ofJson, Numeral.readDecimal_text]

theorem Digest.readsBack : JsonForm.ReadsBack Digest := by
  intro d
  change Digest.ofJson (.string (Hex.encode d.imprint)) = .ok d
  simp only [Digest.ofJson, Hex.decode_encode, Digest.ofImprint_eq_ok.2 rfl]

theorem Algorithm.readsBack : JsonForm.ReadsBack Algorithm := by
  intro a
  change Json.require (ofTag? a.tag) = .ok a
  rw [ofTag?_tag]
  rfl

/-! ## Leaf values and aggregates -/

theorem Bytes.readsBack : Json.ReadsBack Bytes.toJson Bytes.ofJson := by
  intro bytes
  simp only [Bytes.toJson, Bytes.ofJson, Hex.decode_encodeMarked]

/-- The words of a counter are read back, and they are its digits. -/
theorem Counter.readsBack : Json.ReadsBack Counter.toJson Counter.ofJson := by
  intro n
  have hbase : 1 < wordBase := by decide
  have hwords : Json.readList (Json.readBelow wordBase) (toJson n) =
      .ok (Numeral.digits wordBase n) :=
    mapM_map_eq_pure fun word hword => if_pos (Numeral.lt_of_mem_digits hbase hword)
  rw [Counter.ofJson, hwords]
  exact congrArg Except.ok (Numeral.ofDigits_digits hbase n)

namespace CountedValue

/-- The two fields of a counted value are read back, in whatever order and among whatever others. -/
theorem ofJson_of_lookup {v : CountedValue} {fields : List (String × Json)}
    (hcounter : fields.lookup "counter" = some (Counter.toJson v.counter))
    (hvalue : fields.lookup "value" = some v.value.toJson) : ofJson (.object fields) = .ok v := by
  rw [ofJson, readField?_of_lookup Counter.readsBack hcounter,
    readField?_of_lookup Bytes.readsBack hvalue]
  rfl

theorem readsBack : Json.ReadsBack toJson ofJson := fun _ => ofJson_of_lookup rfl rfl

end CountedValue

namespace Flavour

theorem readsBack_value : (f : Flavour) → JsonForm.ReadsBack f.Value
  | .plain => Bytes.readsBack
  | .sum => CountedValue.readsBack

theorem readsBack_aggregate : (f : Flavour) → JsonForm.ReadsBack f.Aggregate
  | .plain => fun _ => rfl
  | .sum => Counter.readsBack

end Flavour

/-! ## Proofs -/

variable {f : Flavour}

namespace Commitment

/-- The two fields of a commitment are read back, among whatever other fields. -/
theorem ofFields_of_lookup {c : Commitment f} {hashName : String} {fields : List (String × Json)}
    (haggregate : fields.lookup "aggregate" = some (toJson c.aggregate))
    (hhash : fields.lookup hashName = some (toJson c.hash)) :
    ofFields hashName fields = .ok c := by
  rw [ofFields, readField?_of_lookup f.readsBack_aggregate haggregate,
    readField?_of_lookup Digest.readsBack hhash]
  rfl

theorem readsBack : JsonForm.ReadsBack (Commitment f) :=
  fun _ => ofFields_of_lookup rfl rfl

end Commitment

namespace Terminal

theorem readsBack : JsonForm.ReadsBack (Terminal f)
  | .leaf value => congrArg (Except.map leaf) (f.readsBack_value value)
  | .node children => by
    have hchildren : Commitment.ofFields "children_hash" (children.toFields "children_hash") =
        .ok children :=
      Commitment.ofFields_of_lookup rfl rfl
    exact congrArg (Except.map node) hchildren

end Terminal

namespace Step

theorem readsBack_sibling :
    Json.ReadsBack (Json.ofOption (JsonForm.toJson : Commitment f → Json))
      (Json.readOption JsonForm.ofJson) :=
  Commitment.readsBack.option fun _ => Json.noConfusion

theorem readsBack_terminal :
    Json.ReadsBack (Json.ofOption (JsonForm.toJson : Terminal f → Json))
      (Json.readOption JsonForm.ofJson) :=
  Terminal.readsBack.option fun t => by cases t <;> exact Json.noConfusion

/-- The fields of a step are read back, in whatever order and among whatever others. -/
theorem ofJson_of_lookup {s : Step f} {fields : List (String × Json)}
    (hterminal : fields.lookup "branch" = some (Json.ofOption JsonForm.toJson s.terminal))
    (hpath : fields.lookup "path" = some (JsonForm.toJson s.path))
    (hsibling : fields.lookup "sibling" = some (Json.ofOption JsonForm.toJson s.sibling)) :
    Step.ofJson (.object fields) = .ok s := by
  rw [Step.ofJson, readField?_of_lookup readsBack_terminal hterminal,
    readField?_of_lookup Path.readsBack hpath, readField?_of_lookup readsBack_sibling hsibling]
  rfl

theorem readsBack : JsonForm.ReadsBack (Step f) := fun _ => ofJson_of_lookup rfl rfl rfl

end Step

namespace Proof

/-- The fields of a proof are read back, in whatever order and among whatever others. -/
theorem ofJson_of_lookup {p : Proof f} {fields : List (String × Json)}
    (haggregate : fields.lookup "aggregate" = some (JsonForm.toJson p.root.aggregate))
    (hhash : fields.lookup "root" = some (JsonForm.toJson p.root.hash))
    (hsteps : fields.lookup "steps" = some (.array (p.steps.map JsonForm.toJson))) :
    Proof.ofJson (.object fields) = .ok p := by
  rw [Proof.ofJson, readField?_of_lookup f.readsBack_aggregate haggregate,
    readField?_of_lookup Digest.readsBack hhash,
    readField?_of_lookup Step.readsBack.list hsteps]
  rfl

/-- Whatever a proof holds, honest or not, its JSON form is read back as the proof, and so are those
of its parts, each on its own. -/
theorem forms_readBack (f : Flavour) :
    JsonForm.ReadsBack (Proof f) ∧ JsonForm.ReadsBack (Step f) ∧
      JsonForm.ReadsBack (Commitment f) ∧ JsonForm.ReadsBack (Terminal f) ∧
      JsonForm.ReadsBack Digest ∧ JsonForm.ReadsBack Path ∧
      JsonForm.ReadsBack f.Value ∧ JsonForm.ReadsBack f.Aggregate :=
  ⟨fun _ => ofJson_of_lookup rfl rfl rfl, Step.readsBack, Commitment.readsBack, Terminal.readsBack,
    Digest.readsBack, Path.readsBack, f.readsBack_value, f.readsBack_aggregate⟩

end Proof

end MerkleTrie
