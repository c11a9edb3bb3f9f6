/-
MetadataRules/Document/Basic.lean

Documents: metadata, and the body of text that it may stand in front of.

Metadata is YAML, of which JSON is a part.  It is a mapping of fields, and
nothing at all counts as an empty one.  A document is written in either format;
only YAML has room for the body.  What YAML text says is up to a `Codec`, of
which `Yaml.codec` is the one in use.
-/
import MetadataRules.Document.FrontMatter
import MetadataRules.Json.Basic
import MetadataRules.Yaml.Printer
import MetadataRules.Yaml.Reader

namespace MetadataRules

/-- A way to write YAML trees as text and to read them. -/
structure Yaml.Codec where
  write : Yaml → String
  read : String → Except Yaml.Fault Yaml

/-- Block style out, and block style and brackets in. -/
def Yaml.codec : Yaml.Codec := ⟨Yaml.toText, Yaml.ofText⟩

/-- Metadata and the text behind it. -/
structure Document where
  data : Value
  /-- What stands behind the front matter; none for a text that is metadata as a whole. -/
  body : Option String

/-- Why a text is no document. -/
inductive DocumentError where
  | unreadable (cause : Yaml.Fault)
  | notAMapping (found : Kind)

/-- The error in words. -/
def DocumentError.message : DocumentError → String
  | unreadable cause => s!"Invalid YAML: {cause.message}"
  | notAMapping found => s!"Document must be a mapping of fields, found {found.name}"

/-- The formats of documents. -/
inductive Format where
  | yaml
  | json
deriving DecidableEq

namespace Document

/-- The metadata that a YAML tree holds. -/
def metadata (tree : Yaml) : Except DocumentError Value :=
  match tree.toValue with
  | .null => .ok (.object [])
  | .object fields => .ok (.object fields)
  | v => .error (.notAMapping v.kind)

/-- Reads metadata. -/
def readMetadata (codec : Yaml.Codec) (text : String) : Except DocumentError Value :=
  match codec.read text with
  | .ok tree => metadata tree
  | .error cause => .error (.unreadable cause)

/-- Reads a document, with or without a body. -/
def ofText (codec : Yaml.Codec) (text : String) : Except DocumentError Document :=
  match FrontMatter.split? text.toList with
  | some (front, body) =>
    (readMetadata codec (String.ofList front)).map (⟨·, some (String.ofList body)⟩)
  | none => (readMetadata codec text).map (⟨·, none⟩)

/-- Writes a document.  Only JSON has a pretty form. -/
def render (codec : Yaml.Codec) (format : Format) (pretty : Bool) (doc : Document) : String :=
  match format with
  | .json => if pretty then (Json.ofValue doc.data).pretty else (Json.ofValue doc.data).compact
  | .yaml =>
    let metadata := codec.write (.ofValue doc.data)
    match doc.body with
    | some body => String.ofList (FrontMatter.join metadata.toList body.toList)
    | none => metadata

end Document

end MetadataRules
