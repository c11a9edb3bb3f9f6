/-
MetadataRules/Proofs/Document/RoundTrip.lean

Documents that are written and read again.

Two things can go wrong between writing and reading, and they are apart: the
metadata may come back as another value, and the text may be split at another
place.  Values come back up to the sign of zeros (`Value.mapNumbers_equal`), and
the split is the one that joining asks for (`Document.split?_render`), if the
codec keeps to what is expected of it (`Yaml.Codec.Carries`).
-/
import MetadataRules.Document.Basic
import MetadataRules.Proofs.Alike.Value
import MetadataRules.Proofs.Document.FrontMatter
import MetadataRules.Proofs.Document.Tree

namespace MetadataRules

/-! ### What is expected of a codec -/

/-- A codec carries a tree: it reads what it writes, and what it writes is made of whole lines,
none of which could end front matter. -/
structure Yaml.Codec.Carries (codec : Yaml.Codec) (tree : Yaml) : Prop where
  read_write : codec.read (codec.write tree) = .ok tree
  endsLine : ∃ cs, (codec.write tree).toList = cs ++ ['\n']
  noDelimiter : ∀ line ∈ FrontMatter.rawLines (codec.write tree).toList,
    FrontMatter.isDelimiter line = false

/-! ### Zeros -/

/-- The two zeros are equal, and any other number is left alone. -/
theorem Number.withoutNegativeZero_equal {n : Number} (h : n.isNaN = false) :
    n.withoutNegativeZero.equal n = true := by
  unfold withoutNegativeZero
  split
  · rename_i hzero
    have hkey : n.key = 0 := of_decide_eq_true (isZero_eq_key n ▸ hzero)
    have hfirst : zero.isNaN = false ∧ zero.key = 0 := by decide +kernel
    rw [equal, hfirst.1, hfirst.2, h, hkey]
    rfl
  · exact Value.number_equal_refl h

namespace Value

/-- Without negative zeros a value is equal to what it was. -/
theorem mapNumbers_equal {v : Value} (hnan : v.isNaNFree = true) (hkeys : v.hasUniqueKeys = true) :
    (v.mapNumbers fun n => .number n.withoutNegativeZero).equal v = true := by
  induction v with
  | null => rfl
  | boolean b => simp [mapNumbers, equal]
  | number n => exact Number.withoutNegativeZero_equal (by simpa [isNaNFree, all] using hnan)
  | string s => simp [mapNumbers, equal]
  | array items ih =>
    rw [isNaNFree_array_iff] at hnan
    rw [hasUniqueKeys_array_iff] at hkeys
    rw [mapNumbers_array, equal_array_iff, List.forall₂_map_left_iff, List.forall₂_same]
    exact fun v hv => ih v hv (hnan v hv) (hkeys v hv)
  | object fields ih =>
    rw [isNaNFree_object_iff] at hnan
    rw [hasUniqueKeys_object_iff] at hkeys
    rw [mapNumbers_object, equal_object_iff]
    -- an entry is compared with what stood under its key, which is what it was made from
    refine ⟨List.length_map .., List.forall_mem_map.2 fun e he => ?_⟩
    exact ⟨e.2, Fields.get?_of_mem hkeys.1 he, ih e he (hnan e he) (hkeys.2 e he)⟩

end Value

/-! ### Writing and reading -/

namespace Document

variable {codec : Yaml.Codec} {fields : Fields Value} {data : Value}

/-- What is read of the tree of an object. -/
theorem metadata_ofValue (hkeys : (Value.object fields).hasUniqueKeys = true) :
    metadata (.ofValue (.object fields)) =
      .ok ((Value.object fields).mapNumbers fun n => .number n.withoutNegativeZero) := by
  rw [metadata, Yaml.convertsNumbers.eq_mapNumbers hkeys, Value.mapNumbers_object]

/-- What is written in front of the body is what is split off again. -/
theorem split?_render (h : codec.Carries (.ofValue data)) (pretty : Bool) (body : Option String) :
    FrontMatter.split? (render codec .yaml pretty ⟨data, body⟩).toList =
      body.map fun text => ((codec.write (.ofValue data)).toList, text.toList) := by
  cases body with
  | none => exact FrontMatter.split?_eq_none h.noDelimiter
  | some text =>
    simp only [render, String.toList_ofList]
    exact FrontMatter.split?_join h.endsLine h.noDelimiter text.toList

/-- **A document that is written can be read again**, with its body as it was, whatever is in it,
and with its metadata up to the sign of zeros: the keys come in the same order, and the values
are equal to what they were. -/
theorem ofText_render (codec : Yaml.Codec) (pretty : Bool) (fields : Fields Value)
    (body : Option String) (hkeys : (Value.object fields).hasUniqueKeys = true)
    (hnan : (Value.object fields).isNaNFree = true)
    (hcodec : codec.Carries (.ofValue (.object fields))) :
    let data := (Value.object fields).mapNumbers fun n => .number n.withoutNegativeZero
    ofText codec (render codec .yaml pretty ⟨.object fields, body⟩) = .ok ⟨data, body⟩ ∧
      data.equal (.object fields) = true := by
  intro data
  refine ⟨?_, Value.mapNumbers_equal hnan hkeys⟩
  have hread : readMetadata codec (codec.write (.ofValue (.object fields))) = .ok data := by
    rw [readMetadata, hcodec.read_write]
    exact metadata_ofValue hkeys
  have hsplit := split?_render hcodec pretty body
  cases body with
  | none =>
    -- the text is the metadata as a whole
    rw [ofText, hsplit]
    show (readMetadata codec (codec.write _)).map (Document.mk · none) = _
    rw [hread]
    rfl
  | some text =>
    rw [ofText, hsplit]
    show (readMetadata codec (String.ofList _)).map (Document.mk · (some (String.ofList _))) = _
    rw [String.ofList_toList, String.ofList_toList, hread]
    rfl

/-- A mapping of a number and of nothing, as it is read. -/
def numberAndNothing? : Except Yaml.Fault Yaml → Option (String × Int × String)
  | .ok (.mapping [(.string a, .integer i), (.string b, .null)]) => some (a, i, b)
  | _ => none

theorem eq_ok_of_numberAndNothing? {read : Except Yaml.Fault Yaml} {a b : String} {i : Int}
    (h : numberAndNothing? read = some (a, i, b)) :
    read = .ok (.mapping [(.string a, .integer i), (.string b, .null)]) := by
  unfold numberAndNothing? at h
  split at h
  · obtain ⟨rfl, rfl, rfl⟩ : _ = a ∧ _ = i ∧ _ = b := by simpa using h
    rfl
  · cases h

/-- A negative zero, a key out of order, and a body that has lines like those around the
metadata. -/
theorem ofText_render_dashes :
    let fields : Fields Value := [("b", .number (.ofMagnitude true 0)), ("a", .null)]
    let body := "---\n...\n"
    let text := render Yaml.codec .yaml true ⟨.object fields, some body⟩
    let data : Value := .object [("b", .number .zero), ("a", .null)]
    text = "---\nb: 0\na: null\n---\n---\n...\n" ∧
      Yaml.codec.Carries (.ofValue (.object fields)) ∧
      ofText Yaml.codec text = .ok ⟨data, some body⟩ ∧ data.equal (.object fields) = true := by
  intro fields body text data
  have hkeys : (Value.object fields).hasUniqueKeys = true := by decide +kernel
  have hnan : (Value.object fields).isNaNFree = true := by decide +kernel
  have hzero : (Number.ofMagnitude true 0).wholeBelow? Number.integerBound = some 0 := by
    decide +kernel
  have htree : Yaml.ofValue (.object fields) =
      .mapping [(.string "b", .integer 0), (.string "a", .null)] := by
    simp only [fields, Yaml.ofValue, Yaml.ofFields, Yaml.ofNumber, hzero]
  have hwrite : Yaml.codec.write (.ofValue (.object fields)) = "b: 0\na: null\n" := by
    rw [htree]
    decide +kernel
  have hcodec : Yaml.codec.Carries (.ofValue (.object fields)) := by
    refine ⟨?_, ?_, ?_⟩
    · rw [hwrite, htree]
      exact eq_ok_of_numberAndNothing? (by decide +kernel)
    · rw [hwrite]
      exact ⟨"b: 0\na: null".toList, by decide +kernel⟩
    · rw [hwrite]
      decide +kernel
  have htext : text = "---\nb: 0\na: null\n---\n---\n...\n" := by
    simp only [text, render, hwrite]
    decide +kernel
  have hpositive : (Number.ofMagnitude true 0).withoutNegativeZero = .zero := by decide +kernel
  have hdata : data = (Value.object fields).mapNumbers fun n => .number n.withoutNegativeZero := by
    simp only [data, fields, Value.mapNumbers, Value.mapNumbersEntries, hpositive]
  refine ⟨htext, hcodec, ?_⟩
  rw [hdata]
  exact ofText_render Yaml.codec true fields (some body) hkeys hnan hcodec

end Document

end MetadataRules
