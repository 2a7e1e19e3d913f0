import FieldAccess.Document.Json
import FieldAccess.Document.Yaml
import FieldAccess.Schema.Basic
import FieldAccess.Settings

namespace FieldAccess

namespace Document

def place? (d : Document) : Option Nat :=
  d.natural?.bind fun n => if n < Nat.pow 2 32 then some n else none

def span? (d : Document) : Option Span := do
  let record ← d.record? ["line", "column"]
  return ⟨← required? record "line" place?, ← required? record "column" place?⟩

end Document

open Document

def EnumSpec.ofDocument? (d : Document) : Option EnumSpec := do
  let record ← d.record? ["type_name", "labels", "const_names"]
  return {
    typeName := ← required? record "type_name" text?
    labels := ← required? record "labels" (list? text?)
    constNames := ← defaulted? record "const_names" (optional? (list? text?)) none }

def Field.ofDocument? (d : Document) : Option Field := do
  let record ← d.record? ["name", "backing_key", "type", "enumeration", "excluded", "span"]
  return {
    name := ← required? record "name" text?
    backingKey := ← defaulted? record "backing_key" (optional? text?) none
    type := ← required? record "type" text?
    enumeration := ← defaulted? record "enumeration" (optional? EnumSpec.ofDocument?) none
    excluded := ← defaulted? record "excluded" bool? false
    span := ← defaulted? record "span" span? .nowhere }

def Entity.ofDocument? (d : Document) : Option Entity := do
  let record ← d.record? ["name", "collection_name", "fields", "span"]
  return {
    name := ← required? record "name" text?
    collection := ← defaulted? record "collection_name" (optional? text?) none
    fields := ← defaulted? record "fields" (list? Field.ofDocument?) []
    span := ← defaulted? record "span" span? .nowhere }

namespace Schema

def ofDocument? (d : Document) : Option Schema := do
  let record ← d.record? ["entities"]
  return ⟨← defaulted? record "entities" (list? Entity.ofDocument?) []⟩

def ofJson? (text : String) : Option Schema :=
  (Document.ofJson? text).bind ofDocument?

def ofYaml? (text : String) : Option Schema :=
  (Document.ofYaml? text).bind ofDocument?

end Schema

namespace Settings

def ofDocument? (d : Document) : Option Settings := do
  let record ← d.record? ["primitive_getters", "reserved_names", "primary_key_field",
    "unresolved_relations_fatal", "enum_helper_prefix", "receiver_name"]
  return {
    getters := ← defaulted? record "primitive_getters" (table? text?) standard.getters
    reservedNames := ← defaulted? record "reserved_names" (list? text?) standard.reservedNames
    primaryKey := ← defaulted? record "primary_key_field" text? standard.primaryKey
    strict := ← defaulted? record "unresolved_relations_fatal" bool? standard.strict
    helperLead := ← defaulted? record "enum_helper_prefix" text? standard.helperLead
    receiver := ← defaulted? record "receiver_name" text? standard.receiver }

def ofJson? (text : String) : Option Settings :=
  (Document.ofJson? text).bind ofDocument?

def ofYaml? (text : String) : Option Settings :=
  (Document.ofYaml? text).bind ofDocument?

end Settings

end FieldAccess
