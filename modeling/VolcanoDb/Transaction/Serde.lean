import VolcanoDb.Lib.Json
import VolcanoDb.Transaction.Recovery

/-! # Redo records as JSON

The encoders and decoders that serde derives for values and redo records. JSON
has no number for an infinite or undefined double, so that a row with one does
not read back.
-/

namespace VolcanoDb

open Text

namespace Value

/-- An externally tagged value. -/
def toJson : Value → Json
  | null => .str "Null"
  | int i => .obj [("Int", .int i.toInt)]
  | float f => .obj [("Float", .ofF64 f)]
  | varchar s => .obj [("Varchar", .str s)]
  | bool b => .obj [("Bool", .bool b)]

def ofTagged : String → Json → Option Value
  -- the content of an internally tagged record is buffered, and an empty map passes for a unit
  | "Null", .null | "Null", .obj [] => some null
  | "Int", .int i =>
    if Int64.minValue.toInt ≤ i ∧ i ≤ Int64.maxValue.toInt then some (int (.ofInt i)) else none
  | "Float", .float f => some (float f)
  | "Float", .int i => some (float (.ofInt i))
  | "Varchar", .str s => some (varchar s)
  | "Bool", .bool b => some (bool b)
  | _, _ => none

def fromJson : Json → Option Value
  | .str tag => if tag = "Null" then some null else none
  | .obj [(tag, content)] => ofTagged tag content
  | _ => none

theorem fromJson_toJson (v : Value) : fromJson v.toJson = if v.isFinite then some v else none := by
  cases v with
  | null | varchar | bool => rfl
  | int i =>
    have hrange : Int64.minValue.toInt ≤ i.toInt ∧ i.toInt ≤ Int64.maxValue.toInt :=
      ⟨i.minValue_le_toInt, i.toInt_le⟩
    have hdec : fromJson (int i).toJson =
        if Int64.minValue.toInt ≤ i.toInt ∧ i.toInt ≤ Int64.maxValue.toInt then
          some (int (.ofInt i.toInt)) else none := rfl
    rw [hdec, if_pos hrange, Int64.ofInt_toInt]
    rfl
  | float f => cases f <;> rfl

theorem mapM_fromJson (values : List Value) :
    (values.map toJson).mapM fromJson = if values.all isFinite then some values else none := by
  induction values with
  | nil => rfl
  | cons v values ih =>
    rw [List.map_cons, List.mapM_cons, ih, fromJson_toJson, List.all_cons]
    cases v.isFinite
    · rfl
    · cases values.all isFinite <;> rfl

end Value

namespace RedoRecord

/-- An internally tagged record. -/
def toJson : RedoRecord → Json
  | begin txId scn => .obj [("type", .str "begin"), ("tx_id", .int txId), ("scn", .int scn)]
  | insert txId scn tableName values rowIdx =>
    .obj [("type", .str "insert"), ("tx_id", .int txId), ("scn", .int scn),
      ("table_name", .str tableName), ("values", .arr (values.map Value.toJson)),
      ("row_idx", .int rowIdx)]
  | commit txId scn => .obj [("type", .str "commit"), ("tx_id", .int txId), ("scn", .int scn)]
  | rollback txId scn => .obj [("type", .str "rollback"), ("tx_id", .int txId), ("scn", .int scn)]

/-- The fields of a variant in the order of its declaration. -/
def fieldNames : String → List String
  | "begin" | "commit" | "rollback" => ["tx_id", "scn"]
  | "insert" => ["tx_id", "scn", "table_name", "values", "row_idx"]
  | _ => []

def ofFields : String → List Json → Option RedoRecord
  | "begin", [txId, scn] => begin <$> txId.asNat <*> scn.asNat
  | "insert", [txId, scn, tableName, values, rowIdx] =>
    insert <$> txId.asNat <*> scn.asNat <*> tableName.asStr <*>
      (values.asArr >>= List.mapM Value.fromJson) <*> rowIdx.asNat
  | "commit", [txId, scn] => commit <$> txId.asNat <*> scn.asNat
  | "rollback", [txId, scn] => rollback <$> txId.asNat <*> scn.asNat
  | _, _ => none

/-- Fields may come in any order, and unknown ones are ignored. -/
def fromJson (j : Json) : Option RedoRecord := do
  let (tag, content) ← j.untag "type"
  let fields ← content.structFields (fieldNames tag)
  ofFields tag fields

def isFinite : RedoRecord → Bool
  | insert _ _ _ values _ => values.all Value.isFinite
  | _ => true

theorem fromJson_toJson (rec : RedoRecord) :
    fromJson rec.toJson = if rec.isFinite then some rec else none := by
  cases rec with
  | begin | commit | rollback => rfl
  | insert txId scn tableName values rowIdx =>
    have hdec : fromJson (insert txId scn tableName values rowIdx).toJson =
        insert txId scn tableName <$> (values.map Value.toJson).mapM Value.fromJson <*>
          some rowIdx := rfl
    rw [hdec, Value.mapM_fromJson, isFinite]
    cases values.all Value.isFinite <;> rfl

end RedoRecord

section Lines

variable [JsonText]

/-- The encoder and the decoder derived for redo records, on a JSON text. -/
instance SerdeJson.derived : SerdeJson where
  toJson rec := some (JsonText.print rec.toJson)
  fromJson line := (JsonText.parse line).bind RedoRecord.fromJson

/-- The text keeps its promises about the object of a record. -/
def RedoRecord.Faithful (rec : RedoRecord) : Prop := JsonText.Faithful rec.toJson

namespace RedoRecord.Faithful

variable {rec : RedoRecord} (hj : rec.Faithful)

include hj

theorem decoded :
    SerdeJson.fromJson (JsonText.print rec.toJson) = if rec.isFinite then some rec else none := by
  rw [SerdeJson.fromJson, SerdeJson.derived]
  simp only [hj.reads, Option.bind_some, RedoRecord.fromJson_toJson]

theorem newline_not_mem : 10 ∉ utf8 (JsonText.print rec.toJson) := by
  intro hm
  have hle := le_of_mem_utf8 hj.escapes hm
  contradiction

theorem getLast_ne : (utf8 (JsonText.print rec.toJson)).getLast? ≠ some 13 := by
  intro hlast
  have hle := le_of_mem_utf8 hj.escapes (List.mem_of_getLast? hlast)
  contradiction

theorem not_blank : isBlank (JsonText.print rec.toJson) = false := by
  apply List.all_eq_false.mpr
  exact ⟨'{', List.mem_of_head? hj.opens, by decide⟩

/-- A record reads back when it has no infinite or undefined double. -/
theorem roundTrips_iff : RoundTrips rec ↔ rec.isFinite = true := by
  constructor
  · rintro ⟨s, hs, -, -, -, hdec⟩
    obtain rfl : JsonText.print rec.toJson = s := Option.some.inj hs
    rw [hj.decoded] at hdec
    by_contra hf
    rw [if_neg hf] at hdec
    cases hdec
  · intro hf
    refine ⟨_, rfl, hj.newline_not_mem, hj.getLast_ne, hj.not_blank, ?_⟩
    rw [hj.decoded, if_pos hf]

theorem parseLines_append (rest : List UInt8) :
    parseLines (lines (redoLine rec ++ rest)) =
      if rec.isFinite then (rec :: ·) <$> parseLines (lines rest) else parseLines (lines rest) := by
  have hline : redoLine rec = utf8 (JsonText.print rec.toJson) ++ [10] := rfl
  rw [hline, List.append_assoc, List.singleton_append,
    lines_append hj.newline_not_mem hj.getLast_ne]
  simp only [parseLines, fromUtf8_utf8, hj.not_blank, hj.decoded, Bool.false_eq_true, if_false]
  by_cases hf : rec.isFinite = true
  · simp only [hf, if_true]
  · simp only [hf, if_false, Bool.false_eq_true]

end RedoRecord.Faithful

/-- Recovery reads the records without an infinite or undefined double. -/
theorem parseLines_faithful {recs : List RedoRecord}
    (hj : ∀ rec ∈ recs, rec.Faithful) :
    parseLines (lines (RedoFile.bytes ⟨recs⟩)) = pure (recs.filter RedoRecord.isFinite) := by
  induction recs with
  | nil => rfl
  | cons rec recs ih =>
    obtain ⟨hrec, hrecs⟩ := List.forall_mem_cons.mp hj
    have hbytes : RedoFile.bytes ⟨rec :: recs⟩ = redoLine rec ++ RedoFile.bytes ⟨recs⟩ := by
      simp [RedoFile.bytes]
    rw [hbytes, hrec.parseLines_append, ih hrecs, List.filter_cons]
    by_cases hf : rec.isFinite = true
    · rw [if_pos hf, if_pos hf]; rfl
    · rw [if_neg hf, if_neg hf]

end Lines

end VolcanoDb
