import Chatlink.Tachyon.JsonText
import Chatlink.Token.Build

/-!
# From the text of a document

`from_json` reads a text as a document and builds the tokenizer of its value. So what holds of every
tokenizer that a value describes holds of every one that comes from a text, and a text that denotes a
value gives the tokenizer of that value.
-/
namespace Chatlink.Token

/-! ## Values -/

namespace Json

mutual

/-- A parsed value. -/
def ofParsed : Tachyon.Json ℚ → Json
  | .null => null
  | .bool b => bool b
  | .num n => num n
  | .str s => str (String.ofList s)
  | .arr xs => arr (ofItems xs)
  | .obj fields => obj (ofMembers fields)

def ofItems : List (Tachyon.Json ℚ) → List Json
  | [] => []
  | x :: xs => ofParsed x :: ofItems xs

def ofMembers : List (List Char × Tachyon.Json ℚ) → List (String × Json)
  | [] => []
  | (k, v) :: fields => (String.ofList k, ofParsed v) :: ofMembers fields

end

theorem ofItems_eq (xs : List (Tachyon.Json ℚ)) : ofItems xs = xs.map ofParsed := by
  induction xs with
  | nil => rfl
  | cons x xs ih => rw [ofItems, ih, List.map_cons]

theorem asArr_ofParsed (xs : List (Tachyon.Json ℚ)) : (ofParsed (.arr xs)).asArr = some (xs.map ofParsed) := by
  rw [ofParsed, ofItems_eq]
  rfl

theorem lookup_ofMembers (fields : List (List Char × Tachyon.Json ℚ)) (key : String) :
    (ofMembers fields).lookup key = (fields.lookup key.toList).map ofParsed := by
  induction fields with
  | nil => rfl
  | cons f fields ih =>
    obtain ⟨k, v⟩ := f
    rw [ofMembers]
    by_cases h : key.toList = k
    · subst h
      rw [String.ofList_toList, List.lookup_cons_self, List.lookup_cons_self, Option.map_some]
    · have hk : (key == String.ofList k) = false := by
        rw [beq_eq_false_iff_ne]
        rintro rfl
        exact h String.toList_ofList
      have hk' : (key.toList == k) = false := beq_eq_false_iff_ne.mpr h
      rw [List.lookup_cons, List.lookup_cons, hk, hk']
      exact ih

/-- A member is looked up as it stands in the document. -/
theorem get_ofParsed (fields : List (List Char × Tachyon.Json ℚ)) (key : String) :
    (ofParsed (.obj fields)).get key = (fields.lookup key.toList).map ofParsed := by
  rw [ofParsed, ← lookup_ofMembers]
  rfl

end Json

/-! ## Texts -/

namespace Tokenizer

/-- `from_json`; `read` is the value of a numeral. -/
def fromText (read : List UInt8 → Option ℚ) (text : List UInt8) : Building Tokenizer :=
  match Tachyon.Json.parse read text with
  | .error e => throw (.format e)
  | .ok v => fromJson (Json.ofParsed v)

variable {read : List UInt8 → Option ℚ} {text : List UInt8} {v : Tachyon.Json ℚ} {t : Tokenizer}

theorem fromText_of_document (h : Tachyon.Json.Document read text v) :
    fromText read text = fromJson (Json.ofParsed v) := by
  rw [fromText, Tachyon.Json.parse_of_document h]

/-- Every tokenizer of a text is that of a value. -/
theorem fromJson_of_fromText (h : fromText read text = some (.ok t)) : ∃ doc, fromJson doc = some (.ok t) := by
  unfold fromText at h
  split at h
  · cases h
  · exact ⟨_, h⟩

end Tokenizer

end Chatlink.Token
