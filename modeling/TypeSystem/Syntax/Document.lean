import TypeSystem.Syntax.Definition

/-!
# Documents

A document is what one or more texts define, sorted into five lists. Each list keeps the order of the
texts, and two definitions of one name may both be there: that is an error of the schema, not of the
text. Documents are put together list by list.
-/

namespace TypeSystem

/-- One item at the top level of a text. -/
inductive Definition where
  | type (definition : TypeDefinition)
  | schema (definition : SchemaDefinition)
  | directive (definition : DirectiveDefinition)
  | typeExtension (ext : TypeExtension)
  | schemaExtension (ext : SchemaExtension)
deriving DecidableEq, Repr

namespace Definition

/-- The definition of a type, if the item is one. -/
def type? : Definition → Option TypeDefinition
  | .type definition => some definition
  | _ => none

/-- The definition of a schema, if the item is one. -/
def schema? : Definition → Option SchemaDefinition
  | .schema definition => some definition
  | _ => none

/-- The definition of a directive, if the item is one. -/
def directive? : Definition → Option DirectiveDefinition
  | .directive definition => some definition
  | _ => none

/-- The extension of a type, if the item is one. -/
def typeExtension? : Definition → Option TypeExtension
  | .typeExtension ext => some ext
  | _ => none

/-- The extension of a schema, if the item is one. -/
def schemaExtension? : Definition → Option SchemaExtension
  | .schemaExtension ext => some ext
  | _ => none

end Definition

/-- Everything defined by one or more texts. -/
structure Document where
  types : List TypeDefinition
  schemas : List SchemaDefinition
  directives : List DirectiveDefinition
  typeExtensions : List TypeExtension
  schemaExtensions : List SchemaExtension
deriving DecidableEq, Repr

namespace Document

/-- The document that defines nothing. -/
def empty : Document := ⟨[], [], [], [], []⟩

/-- The document with one more item in front. -/
def cons (item : Definition) (document : Document) : Document :=
  match item with
  | .type d => { document with types := d :: document.types }
  | .schema d => { document with schemas := d :: document.schemas }
  | .directive d => { document with directives := d :: document.directives }
  | .typeExtension e => { document with typeExtensions := e :: document.typeExtensions }
  | .schemaExtension e => { document with schemaExtensions := e :: document.schemaExtensions }

/-- The document of a list of items. -/
def ofDefinitions (items : List Definition) : Document :=
  items.foldr cons empty

/-- The definitions of one document, followed by those of another. -/
def append (a b : Document) : Document where
  types := a.types ++ b.types
  schemas := a.schemas ++ b.schemas
  directives := a.directives ++ b.directives
  typeExtensions := a.typeExtensions ++ b.typeExtensions
  schemaExtensions := a.schemaExtensions ++ b.schemaExtensions

instance : Append Document := ⟨append⟩

/-- The definitions of one document, followed by those of each of the others. -/
def merge (document : Document) (others : List Document) : Document :=
  others.foldl append document

/-- The definitions of all documents, in order. -/
def mergeAll (documents : List Document) : Document :=
  empty.merge documents

/-- The first definition of a type of a given name. -/
def type? (document : Document) (name : String) : Option TypeDefinition :=
  document.types.find? fun d ↦ d.name = name

/-- The first definition of a directive of a given name. -/
def directive? (document : Document) (name : String) : Option DirectiveDefinition :=
  document.directives.find? fun d ↦ d.name = name

/-- Whether the document defines nothing. -/
def isEmpty (document : Document) : Bool :=
  document.types.isEmpty && document.schemas.isEmpty && document.directives.isEmpty &&
    document.typeExtensions.isEmpty && document.schemaExtensions.isEmpty

/-! ### Putting documents together -/

theorem empty_append (a : Document) : empty ++ a = a := rfl

theorem append_empty (a : Document) : a ++ empty = a := by
  show append a empty = a
  simp [append, empty]

theorem append_assoc (a b c : Document) : a ++ b ++ c = a ++ (b ++ c) := by
  show append (append a b) c = append a (append b c)
  simp [append]

theorem cons_append (item : Definition) (a b : Document) :
    cons item a ++ b = cons item (a ++ b) := by
  cases item <;> rfl

/-- **The document of some items.** Each list has the items of its sort, in the order in which they stand, and
nothing else. -/
theorem ofDefinitions_eq (items : List Definition) :
    ofDefinitions items =
      ⟨items.filterMap (·.type?), items.filterMap (·.schema?), items.filterMap (·.directive?),
        items.filterMap (·.typeExtension?), items.filterMap (·.schemaExtension?)⟩ := by
  induction items with
  | nil => rfl
  | cons item items ih =>
    change cons item (ofDefinitions items) = _
    rw [ih]
    cases item <;> rfl

/-- The document of two lists of items is that of the first, followed by that of the second. -/
theorem ofDefinitions_append (xs ys : List Definition) :
    ofDefinitions (xs ++ ys) = ofDefinitions xs ++ ofDefinitions ys := by
  induction xs with
  | nil => rfl
  | cons x xs ih =>
    show cons x (ofDefinitions (xs ++ ys)) = cons x (ofDefinitions xs) ++ ofDefinitions ys
    rw [ih, cons_append]

theorem merge_eq_append_mergeAll (a : Document) (others : List Document) :
    a.merge others = a ++ mergeAll others := by
  induction others generalizing a with
  | nil => exact (append_empty a).symm
  | cons b others ih =>
    show (a ++ b).merge others = a ++ (empty ++ b).merge others
    rw [ih, ih (empty ++ b), empty_append, append_assoc]

theorem mergeAll_cons (a : Document) (others : List Document) :
    mergeAll (a :: others) = a ++ mergeAll others :=
  merge_eq_append_mergeAll a others

end Document

end TypeSystem
