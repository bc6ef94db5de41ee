import TypeSystem.Binary.Syntax
import TypeSystem.Schema.Build

/-!
# Schemas as bytes

A schema is its root types, then its types, then its directives, each table as its entries in order. Bytes
that follow a schema are ignored, and of entries with one key the last gives the value.
-/

namespace TypeSystem

namespace Binary.Codec

/-- The names of the root types. -/
def roots : Codec RootTypes :=
  (text.optional.both (text.optional.both text.optional)).map
    (fun (query, mutation, subscription) ↦ ⟨query, mutation, subscription⟩)
    (fun r ↦ (r.query, r.mutation, r.subscription))

/-- A table, entry by entry. -/
def table {α : Type} (codec : Codec α) : Codec (Table String α) :=
  (text.both codec).list.map Table.ofEntries Table.entries

/-- A schema. -/
def schema : Codec Schema :=
  (roots.both (type.table.both directive.table)).map
    (fun (roots, types, directives) ↦ ⟨roots, types, directives⟩)
    (fun s ↦ (s.roots, s.types, s.directives))

end Binary.Codec

namespace Schema

/-- The bytes of a schema. -/
def encode (schema : Schema) : List UInt8 := Binary.Codec.schema.write schema

/-- The schema at the front of some bytes. -/
def decode (bytes : List UInt8) : Except Binary.DecodeError Schema :=
  Prod.fst <$> Binary.Codec.schema.read bytes

end Schema

end TypeSystem
