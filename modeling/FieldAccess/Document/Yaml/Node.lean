import FieldAccess.Document.Yaml.Lexer

namespace FieldAccess.Document.Yaml

structure Reading where
  tokens : List Token
  named : List (String × Document) := []
  handles : List String

namespace Reading

def goTo (r : Reading) (tokens : List Token) : Reading :=
  { r with tokens }

-- Names a value that is still to be read. Until then the name stands for nothing.
def announce (r : Reading) (name : String) : Reading :=
  { r with named := (name, .unreadable) :: r.named }

def settle (r : Reading) (before : Nat) (d : Document) : Reading :=
  { r with named := r.named.modify (r.named.length - (before + 1)) fun (name, _) => (name, d) }

end Reading

structure Properties where
  name : Option String := none
  tag : Option ScalarKind := none

namespace Properties

def isEmpty (p : Properties) : Bool :=
  p.name.isNone && p.tag.isNone

-- What a tag makes of a scalar. Its handle has to be known. A document may give a meaning of its
-- own to the handle of the common tags.
def kind? (handles : List String) (handle suffix : String) : Option ScalarKind :=
  if handle.isEmpty || handle = "!" || handles.contains handle then some .other
  else if handle = "!!" then
    match suffix with
    | "null" => some .absent
    | "bool" => some .bool
    | "int" => some .integer
    | _ => some .other
  else none

def read? (handles : List String) (ts : List Token) : Option (Properties × List Token) :=
  match ts with
  | .anchor name :: .tag handle suffix :: rest | .tag handle suffix :: .anchor name :: rest =>
    return (⟨name, ← kind? handles handle suffix⟩, rest)
  | .anchor name :: rest => some (⟨name, none⟩, rest)
  | .tag handle suffix :: rest => return (⟨none, ← kind? handles handle suffix⟩, rest)
  | ts => some (⟨none, none⟩, ts)

def scalar (p : Properties) (style : Style) (value : String) : Document :=
  match style, p.tag with
  | .plain, none => .bare value
  | .plain, some kind => .tagged true kind value
  | .literal, some kind => .tagged false kind value
  | _, _ => .str value

def absent (p : Properties) : Document :=
  p.scalar .plain ""

end Properties

def absent : Document :=
  .bare ""

def tableOf (entries : List (Document × Document)) : Document :=
  match entries.mapM fun (key, value) => key.text?.map (·, value) with
  | some entries => .table entries
  | none => .unreadable

def itemIsAbsent : List Token → Bool
  | .dash :: _ | .blockEnd :: _ => true
  | _ => false

def entryIsAbsent : List Token → Bool
  | .key :: _ | .colon :: _ | .blockEnd :: _ => true
  | _ => false

def pairIsAbsent : List Token → Bool
  | .comma :: _ | .listEnd :: _ => true
  | _ => false

def flowEntryIsAbsent : List Token → Bool
  | .comma :: _ | .tableEnd :: _ => true
  | _ => false

def afterComma (first : Bool) (ts : List Token) : Option (List Token) :=
  if first then some ts
  else match ts with
  | .comma :: rest => some rest
  | _ => none

mutual

-- The value at the front of the tokens, in at most so many steps. In a block the value may be a
-- block collection; as a key or value of a block table it may also be a list whose dashes stand at
-- the column of the keys.
def value (inBlock flush : Bool) : Nat → Reading → Option (Document × Reading)
  | 0, _ => none
  | steps + 1, r =>
    match r.tokens with
    | .reference name :: rest => return (← r.named.lookup name, r.goTo rest)
    | ts => do
      let (p, rest) ← Properties.read? r.handles ts
      match p.name with
      | none => content inBlock flush p steps (r.goTo rest)
      | some name =>
        let (d, after) ← content inBlock flush p steps ((r.goTo rest).announce name)
        return (d, after.settle r.named.length d)

def content (inBlock flush : Bool) (p : Properties) : Nat → Reading → Option (Document × Reading)
  | 0, _ => none
  | steps + 1, r =>
    match r.tokens with
    | .scalar style text :: rest => some (p.scalar style text, r.goTo rest)
    | .listStart :: rest => do
      let (items, r) ← flowItems true steps (r.goTo rest)
      return (.series items, r)
    | .tableStart :: rest => do
      let (entries, r) ← flowEntries true steps (r.goTo rest)
      return (tableOf entries, r)
    | .blockListStart :: rest =>
      if inBlock then do
        let (items, r) ← blockItems steps (r.goTo rest)
        return (.series items, r)
      else none
    | .blockTableStart :: rest =>
      if inBlock then do
        let (entries, r) ← blockEntries steps (r.goTo rest)
        return (tableOf entries, r)
      else none
    | ts =>
      if flush && (ts matches .dash :: _) then do
        let (items, r) ← flushItems steps r
        return (.series items, r)
      else if p.isEmpty then none
      else some (p.absent, r)

def blockItems : Nat → Reading → Option (List Document × Reading)
  | 0, _ => none
  | steps + 1, r =>
    match r.tokens with
    | .dash :: rest => do
      let r := r.goTo rest
      let (item, r) ← if itemIsAbsent rest then some (absent, r) else value true false steps r
      let (more, r) ← blockItems steps r
      return (item :: more, r)
    | .blockEnd :: rest => some ([], r.goTo rest)
    | _ => none

def flushItems : Nat → Reading → Option (List Document × Reading)
  | 0, _ => none
  | steps + 1, r =>
    match r.tokens with
    | .dash :: rest => do
      let r := r.goTo rest
      let isAbsent := itemIsAbsent rest || entryIsAbsent rest
      let (item, r) ← if isAbsent then some (absent, r) else value true false steps r
      let (more, r) ← flushItems steps r
      return (item :: more, r)
    | _ => some ([], r)

def blockEntries : Nat → Reading → Option (List (Document × Document) × Reading)
  | 0, _ => none
  | steps + 1, r =>
    match r.tokens with
    | .key :: rest => do
      let r := r.goTo rest
      let (key, r) ← if entryIsAbsent rest then some (absent, r) else value true true steps r
      let (given, r) ← match r.tokens with
        | .colon :: rest =>
          let r := r.goTo rest
          if entryIsAbsent rest then some (absent, r) else value true true steps r
        | _ => some (absent, r)
      let (more, r) ← blockEntries steps r
      return ((key, given) :: more, r)
    | .blockEnd :: rest => some ([], r.goTo rest)
    | _ => none

def flowItems (first : Bool) : Nat → Reading → Option (List Document × Reading)
  | 0, _ => none
  | steps + 1, r =>
    match r.tokens with
    | .listEnd :: rest => some ([], r.goTo rest)
    | ts => do
      match ← afterComma first ts with
      | .listEnd :: rest => return ([], r.goTo rest)
      | .key :: rest =>
        let (key, r) ← flowKey steps (r.goTo rest)
        let (given, r) ← match r.tokens with
          | .colon :: rest =>
            let r := r.goTo rest
            if pairIsAbsent rest then some (absent, r) else value false false steps r
          | _ => some (absent, r)
        let (more, r) ← flowItems false steps r
        return (tableOf [(key, given)] :: more, r)
      | ts =>
        let (item, r) ← value false false steps (r.goTo ts)
        let (more, r) ← flowItems false steps r
        return (item :: more, r)

-- The key of a pair in brackets. Where it is left out, the mark that shows this is passed too.
def flowKey : Nat → Reading → Option (Document × Reading)
  | 0, _ => none
  | steps + 1, r =>
    match r.tokens with
    | .colon :: rest => some (absent, r.goTo rest)
    | ts =>
      if pairIsAbsent ts then some (absent, r.goTo ts.tail) else value false false steps r

def flowEntries (first : Bool) : Nat → Reading → Option (List (Document × Document) × Reading)
  | 0, _ => none
  | steps + 1, r =>
    match r.tokens with
    | .tableEnd :: rest => some ([], r.goTo rest)
    | ts => do
      match ← afterComma first ts with
      | .tableEnd :: rest => return ([], r.goTo rest)
      | .key :: rest =>
        let r := r.goTo rest
        let keyIsAbsent := flowEntryIsAbsent rest || (rest matches .colon :: _)
        let (key, r) ← if keyIsAbsent then some (absent, r) else value false false steps r
        let (given, r) ← match r.tokens with
          | .colon :: rest =>
            let r := r.goTo rest
            if flowEntryIsAbsent rest then some (absent, r) else value false false steps r
          | _ => some (absent, r)
        let (more, r) ← flowEntries false steps r
        return ((key, given) :: more, r)
      | ts =>
        let (key, r) ← value false false steps (r.goTo ts)
        let (more, r) ← flowEntries false steps r
        return ((key, absent) :: more, r)

end

end FieldAccess.Document.Yaml
