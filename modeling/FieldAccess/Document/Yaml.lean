import FieldAccess.Document.Yaml.Node

namespace FieldAccess.Document

namespace Yaml

-- The directives before a document: whether there is a version, the handles, and what follows. At
-- most one version may be given, which has to be known, and every handle at most once.
def directives? (versioned : Bool) (handles : List String) :
    List Token → Option (Bool × List String × List Token)
  | .version major minor :: rest =>
    if !versioned && major = 1 && (minor = 1 || minor = 2) then directives? true handles rest
    else none
  | .handle name :: rest =>
    if handles.contains name then none else directives? versioned (name :: handles) rest
  | ts => some (versioned, handles, ts)

def contentIsAbsent : List Token → Bool
  | [] | .version .. :: _ | .handle _ :: _ | .documentStart :: _ | .documentEnd :: _ => true
  | _ => false

def content? (ts : List Token) : Option (Document × List Token) := do
  let (versioned, handles, rest) ← directives? false [] ts
  let read (rest : List Token) : Option (Document × List Token) := do
    let (d, r) ← value true false (3 * ts.length + 3) ⟨rest, [], handles⟩
    return (d, r.tokens)
  match rest with
  | .documentStart :: rest => if contentIsAbsent rest then return (absent, rest) else read rest
  | _ => if versioned || !handles.isEmpty then none else read rest

def Token.isDocumentEnd : Token → Bool
  | documentEnd => true
  | _ => false

end Yaml

-- Reads a text that holds at most one YAML document. A text without any counts as one without a
-- value.
def ofYaml? (text : String) : Option Document := do
  match ← Yaml.tokens? text with
  | [] => return Yaml.absent
  | ts =>
    let (d, rest) ← Yaml.content? ts
    if (rest.dropWhile (·.isDocumentEnd)).isEmpty then some d else none

end FieldAccess.Document
