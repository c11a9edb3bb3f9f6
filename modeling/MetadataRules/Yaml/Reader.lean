/-
MetadataRules/Yaml/Reader.lean

Reading YAML text.

Tokens become a tree by recursive descent, and the first fault on the way is the
answer where there is one.  What is read is one document of scalars, sequences
and mappings, in block style and between brackets.  Anchors, aliases, tags,
directives and block scalars are not among the tokens, so a text with one of
them is refused.  A mapping that repeats a key is refused as soon as the key
comes again, before its value is looked at.

Between two calls of a reader for the same tokens the rank of the reader falls:
a list of nodes is above a single one, and what may be empty is above what may
not.
-/
import MetadataRules.Taken
import MetadataRules.Yaml.Equality
import MetadataRules.Yaml.Token.Lexer

namespace MetadataRules

namespace Yaml

/-- What a reader of tokens answers: a phrase or a fault. -/
abbrev Answer (α : Type) (bound : Nat) := Attempt Fault Token α bound

/-! ### Around a node -/

/-- What a node stands in. -/
inductive Frame where
  | document
  | flowSequence
  | flowMapping
  | blockSequence
  | blockMapping
  /-- A block sequence in a block mapping that is not deeper than the mapping. -/
  | dashes
deriving DecidableEq

namespace Frame

/-- The token ends a node of the frame, or stands for an empty one. -/
def ends : Frame → TokenKind → Bool
  | document, kind => kind = .documentStart || kind = .documentEnd || kind = .textEnd
  | flowSequence, kind => kind = .comma || kind = .flowSequenceEnd
  | flowMapping, kind => kind = .comma || kind = .flowMappingEnd
  | blockSequence, kind => kind = .blockItem || kind = .blockEnd
  | blockMapping, kind => kind = .key || kind = .value || kind = .blockEnd
  | dashes, kind => kind = .blockItem || kind = .key || kind = .value || kind = .blockEnd

/-- The token ends a key of the frame, or stands for an empty one. -/
def endsKey (frame : Frame) (kind : TokenKind) : Bool := kind = .value || frame.ends kind

/-- The frame is a pair of brackets. -/
def isFlow : Frame → Bool
  | flowSequence | flowMapping => true
  | _ => false

/-- The collection that the token opens in a frame. -/
def opens? (frame : Frame) : TokenKind → Option Frame
  | .flowSequenceStart => some flowSequence
  | .flowMappingStart => some flowMapping
  | .blockSequenceStart => if frame.isFlow then none else some blockSequence
  | .blockMappingStart => if frame.isFlow then none else some blockMapping
  | .blockItem => if frame = blockMapping then some dashes else none
  | _ => none

/-- The fault of a node of the frame that begins with a token no node begins with. -/
def noNode (frame : Frame) (m : Mark) : Fault :=
  ⟨.noNode, m, some (if frame.isFlow then .flowNode else .blockNode, m)⟩

end Frame

/-- Where a node stands in its tree. -/
structure Nest where
  /-- How many collections may still open, one in the other. -/
  room : Nat
  /-- The way from the root. -/
  steps : List Step

namespace Nest

/-- The place of the root. -/
def root : Nest := ⟨128, []⟩

/-- The place of a collection that opens at the mark. -/
def enter (nest : Nest) (m : Mark) : Except Fault Nest :=
  match nest.room with
  | 0 => .error ⟨.tooDeep, m, none⟩
  | room + 1 => .ok { nest with room := room }

/-- The place of a node in the collection. -/
def go (nest : Nest) (step : Step) : Nest := { nest with steps := nest.steps ++ [step] }

end Nest

/-- The step to the value of the key that begins these tokens. -/
def keyStep (frame : Frame) : List Token → Step
  | [] => .key ""
  | t :: _ =>
    match t.kind with
    | .plain text | .quoted text => .key (String.ofList text)
    | kind => if frame.endsKey kind then .key "" else .collectionKey

/-! ### Nodes -/

/-- The node of a plain scalar. -/
def scalar (nest : Nest) (text : List Char) (m : Mark) : Except Fault Yaml :=
  (ofPlain text).mapError fun i => ⟨.wideInteger i nest.steps, m, none⟩

/-- The fault of a key that comes again in a mapping, which opened at `start` and has
the keys. -/
def repeated? (nest : Nest) (start : Mark) (keys : List Yaml) (key : Yaml) : Option Fault :=
  if keys.any (same key) then some ⟨.repeatedKey key nest.steps, start, none⟩ else none

mutual

/-- Reads a node.  `stop` is why there are no more tokens than these. -/
def node (stop : Fault) (frame : Frame) (nest : Nest) (ts : List Token) : Answer Yaml ts.length :=
  match ts with
  | [] => .error stop
  | t :: rest =>
    match t.kind with
    | .plain text => (scalar nest text t.mark).map (.single · t rest)
    | .quoted text => .ok (.single (.string (String.ofList text)) t rest)
    | kind =>
      match frame.opens? kind with
      | none => .error (frame.noNode t.mark)
      | some collection =>
        match nest.enter t.mark with
        | .error e => .error e
        | .ok inner =>
          match collection with
          | .flowSequence => ((flowItems stop inner t.mark 0 rest).map .sequence).behind
          | .flowMapping => ((flowEntries stop inner t.mark [] rest).map .mapping).behind
          | .blockSequence => ((blockItems stop inner t.mark 0 rest).map .sequence).behind
          | .blockMapping => ((blockEntries stop inner t.mark [] rest).map .mapping).behind
          | .dashes => (dashItems stop inner 0 rest).map .sequence
          | .document => .error (frame.noNode t.mark)
termination_by 4 * ts.length

/-- Reads a node that may be empty, where `ends` tells the tokens in front of which it is. -/
def filled (stop : Fault) (frame : Frame) (ends : TokenKind → Bool) (nest : Nest)
    (ts : List Token) : Answer Yaml (ts.length + 1) :=
  match ts with
  | [] => .error stop
  | t :: rest =>
    if ends t.kind then .ok (.empty .null (t :: rest))
    else (node stop frame nest (t :: rest)).behind
termination_by 4 * ts.length + 1

/-- Reads the value behind a key; there may be none. -/
def valueOf (stop : Fault) (frame : Frame) (nest : Nest) (ts : List Token) :
    Answer Yaml (ts.length + 1) :=
  match ts with
  | [] => .error stop
  | t :: rest =>
    if t.kind = .value then (filled stop frame frame.ends nest rest).behind
    else .ok (.empty .null (t :: rest))
termination_by 4 * ts.length + 1

/-- Reads a key and its value, in a mapping that opened at `start` and has the keys. -/
def entry (stop : Fault) (frame : Frame) (nest : Nest) (start : Mark) (keys : List Yaml)
    (ts : List Token) : Answer (Yaml × Yaml) (ts.length + 1) :=
  match filled stop frame frame.endsKey nest ts with
  | .error e => .error e
  | .ok key =>
    match repeated? nest start keys key.value with
    | some e => .error e
    | none =>
      .after key
        ((valueOf stop frame (nest.go (keyStep frame ts)) key.rest).map (key.value, ·))
termination_by 4 * ts.length + 2
decreasing_by
  · omega
  · have := key.fewer
    omega

/-- Reads an item between square brackets: a node, or a mapping of one entry behind the
token that announces a key.  A mark in place of the key goes unheeded. -/
def flowItem (stop : Fault) (nest : Nest) (ts : List Token) : Answer Yaml ts.length :=
  match ts with
  | [] => .error stop
  | t :: rest =>
    if t.kind = .key then
      match nest.enter t.mark with
      | .error e => .error e
      | .ok inner =>
        match rest with
        | [] => .error stop
        | u :: behind =>
          if Frame.endsKey .flowSequence u.kind then
            ((valueOf stop .flowSequence (inner.go (.key "")) behind).map fun y =>
              .mapping [(.null, y)]).behind
          else
            (entry stop .flowSequence inner t.mark [] (u :: behind)).map fun e => .mapping [e]
    else node stop .flowSequence nest (t :: rest)
termination_by 4 * ts.length + 2

/-- Reads the items up to the closing bracket, of which the next one is the item `n` of a
sequence that opened at `start`. -/
def flowItems (stop : Fault) (nest : Nest) (start : Mark) (n : Nat) (ts : List Token) :
    Answer (List Yaml) ts.length :=
  match ts with
  | [] => .error stop
  | t :: rest =>
    if t.kind = .flowSequenceEnd then .ok (.single [] t rest)
    else match flowItem stop (nest.go (.item n)) (t :: rest) with
      | .error e => .error e
      | .ok item =>
        match hrest : item.rest with
        | [] => .error stop
        | u :: behind =>
          if u.kind = .flowSequenceEnd then
            .within (item.separated hrest) (.ok (.empty [item.value] behind))
          else if u.kind = .comma then
            .within (item.separated hrest)
              ((flowItems stop nest start (n + 1) behind).map (item.value :: ·)).behind
          else .error ⟨.noComma ']', u.mark, some (.flowSequence, start)⟩
termination_by 4 * ts.length + 3
decreasing_by
  · omega
  · have := item.separated hrest
    simp only [List.length_cons] at this ⊢
    omega

/-- Reads an entry between braces: a key and its value, or a key alone. -/
def flowEntry (stop : Fault) (nest : Nest) (start : Mark) (keys : List Yaml) (ts : List Token) :
    Answer (Yaml × Yaml) ts.length :=
  match ts with
  | [] => .error stop
  | t :: rest =>
    if t.kind = .key then entry stop .flowMapping nest start keys rest
    else match node stop .flowMapping nest (t :: rest) with
      | .error e => .error e
      | .ok key =>
        match repeated? nest start keys key.value with
        | some e => .error e
        | none => .ok (key.map (·, .null))
termination_by 4 * ts.length + 2

/-- Reads the entries up to the closing brace. -/
def flowEntries (stop : Fault) (nest : Nest) (start : Mark) (keys : List Yaml) (ts : List Token) :
    Answer (List (Yaml × Yaml)) ts.length :=
  match ts with
  | [] => .error stop
  | t :: rest =>
    if t.kind = .flowMappingEnd then .ok (.single [] t rest)
    else match flowEntry stop nest start keys (t :: rest) with
      | .error e => .error e
      | .ok e =>
        match hrest : e.rest with
        | [] => .error stop
        | u :: behind =>
          if u.kind = .flowMappingEnd then
            .within (e.separated hrest) (.ok (.empty [e.value] behind))
          else if u.kind = .comma then
            .within (e.separated hrest)
              ((flowEntries stop nest start (e.value.1 :: keys) behind).map (e.value :: ·)).behind
          else .error ⟨.noComma '\x7d', u.mark, some (.flowMapping, start)⟩
termination_by 4 * ts.length + 3
decreasing_by
  · omega
  · have := e.separated hrest
    simp only [List.length_cons] at this ⊢
    omega

/-- Reads the items of a block sequence, each behind a dash, up to its end. -/
def blockItems (stop : Fault) (nest : Nest) (start : Mark) (n : Nat) (ts : List Token) :
    Answer (List Yaml) ts.length :=
  match ts with
  | [] => .error stop
  | t :: rest =>
    match t.kind with
    | .blockEnd => .ok (.single [] t rest)
    | .blockItem =>
      match filled stop .blockSequence (Frame.ends .blockSequence) (nest.go (.item n)) rest with
      | .error e => .error e
      | .ok item =>
        .within item.fewer ((blockItems stop nest start (n + 1) item.rest).map (item.value :: ·))
    | _ => .error ⟨.noDash, t.mark, some (.blockSequence, start)⟩
termination_by 4 * ts.length + 3
decreasing_by
  · simp only [List.length_cons]
    omega
  · have := item.fewer
    simp only [List.length_cons]
    omega

/-- Reads the items of a sequence whose dashes are not deeper than the mapping around
them, from behind a dash on.  They end where no dash follows. -/
def dashItems (stop : Fault) (nest : Nest) (n : Nat) (ts : List Token) :
    Answer (List Yaml) (ts.length + 1) :=
  match filled stop .dashes (Frame.ends .dashes) (nest.go (.item n)) ts with
  | .error e => .error e
  | .ok item =>
    match hrest : item.rest with
    | [] => .error stop
    | u :: behind =>
      if u.kind = .blockItem then
        .within (item.separated hrest)
          ((dashItems stop nest (n + 1) behind).map (item.value :: ·))
      else .ok (item.map ([·]))
termination_by 4 * ts.length + 2
decreasing_by
  · omega
  · have := item.separated hrest
    omega

/-- Reads the entries of a block mapping up to its end. -/
def blockEntries (stop : Fault) (nest : Nest) (start : Mark) (keys : List Yaml) (ts : List Token) :
    Answer (List (Yaml × Yaml)) ts.length :=
  match ts with
  | [] => .error stop
  | t :: rest =>
    match t.kind with
    | .blockEnd => .ok (.single [] t rest)
    | .key =>
      match entry stop .blockMapping nest start keys rest with
      | .error e => .error e
      | .ok e =>
        .within e.fewer
          ((blockEntries stop nest start (e.value.1 :: keys) e.rest).map (e.value :: ·))
    | _ => .error ⟨.noKey, t.mark, some (.blockMapping, start)⟩
termination_by 4 * ts.length + 3
decreasing_by
  · simp only [List.length_cons]
    omega
  · have := e.fewer
    simp only [List.length_cons]
    omega

end

/-! ### Documents -/

/-- Nothing but ends of documents is left before the end of the text. -/
def endsText (ts : List Token) : Bool :=
  (ts.dropWhile (·.kind = .documentEnd)).head?.any (·.kind = .textEnd)

/-- The tree of a text whose only document was read. -/
def only {n : Nat} (stop : Fault) (answer : Answer Yaml n) : Except Fault Yaml :=
  match answer with
  | .error e => .error e
  | .ok doc =>
    if doc.rest.isEmpty then .error stop
    else if endsText doc.rest then .ok doc.value
    else .error (.ofText .severalDocuments)

/-- The tree of a text of tokens.  A text without a document is null. -/
def ofTokens (stop : Fault) (ts : List Token) : Except Fault Yaml :=
  match ts with
  | [] => .error stop
  | t :: rest =>
    match t.kind with
    | .textEnd => .ok .null
    | .documentStart => only stop (filled stop .document (Frame.ends .document) .root rest)
    | _ => only stop (node stop .document .root (t :: rest))

/-- The YAML tree that a text is.  Nothing is asked for behind the end of a text, so
any fault does for one that could be split as a whole. -/
def ofText (text : String) : Except Fault Yaml :=
  let split := tokenize text.toList
  ofTokens (split.fault.getD (.ofText .noToken)) split.tokens

end Yaml

end MetadataRules
