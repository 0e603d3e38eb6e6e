import ApiSurface.Node
import ApiSurface.Table

/-! Symbols: the named entities of a program. -/

namespace ApiSurface

/-- What a symbol stands for. A symbol may stand for several things at once. -/
inductive Flag where
  | variableValue | functionValue | classValue | interfaceType | typeAlias | enumValue | property
  | typeParameter | valueModule | namespaceModule | exportStar | alias
deriving DecidableEq

namespace Flag

/-- All flags in the order in which they are listed. -/
def all : List Flag :=
  [.variableValue, .functionValue, .classValue, .interfaceType, .typeAlias, .enumValue, .property,
   .typeParameter, .valueModule, .namespaceModule, .exportStar, .alias]

def label : Flag → String
  | .variableValue => "variable"
  | .functionValue => "function"
  | .classValue => "class"
  | .interfaceType => "interface"
  | .typeAlias => "type_alias"
  | .enumValue => "enum"
  | .property => "property"
  | .typeParameter => "type_parameter"
  | .valueModule => "value_module"
  | .namespaceModule => "namespace_module"
  | .exportStar => "export_star"
  | .alias => "alias"

/-- The name of a flag in a document, up to letter case. -/
def name : Flag → String
  | .variableValue => "VARIABLE"
  | .functionValue => "FUNCTION"
  | .classValue => "CLASS"
  | .interfaceType => "INTERFACE"
  | .typeAlias => "TYPE_ALIAS"
  | .enumValue => "ENUM"
  | .property => "PROPERTY"
  | .typeParameter => "TYPE_PARAMETER"
  | .valueModule => "VALUE_MODULE"
  | .namespaceModule => "NAMESPACE_MODULE"
  | .exportStar => "EXPORT_STAR"
  | .alias => "ALIAS"

/-- The flags that an upper-case name sets: one flag, or none for `NONE`. -/
def ofName? (s : String) : Option (List Flag) :=
  if s = "NONE" then some [] else (all.find? fun f => f.name = s).map fun f => [f]

end Flag

/-- An entry of an export table: its name as it was first written, and the symbol. -/
structure Exported where
  name : Name
  symbol : SymbolId

/-- A symbol. Its name is any value that the document gave, and some symbols have no export
table at all. A symbol has a place for a specifier only if it has been given one. -/
structure Symbol where
  name : Json
  flags : List Flag := []
  declarations : List NodeId := []
  exports : Option (Table Key Exported) := none
  specifier : Option NodeId := none

/-- The name under which a module keeps its wildcard re-exports. -/
def wildcardName : String := "__export"

/-- The export that a wildcard re-export leaves out. -/
def defaultName : String := "default"

/-- The name of the shared scope of scripts. -/
def globalName : String := "globalThis"

namespace Symbol

/-- Whether a symbol is the shared scope, which goes by its name. -/
def isGlobalScope (s : Symbol) : Bool := s.name.isText globalName

def isAlias (s : Symbol) : Bool := .alias ∈ s.flags

def isValueModule (s : Symbol) : Bool := .valueModule ∈ s.flags

/-- The labels of the flags of a symbol. -/
def flagLabels (s : Symbol) : List String := (Flag.all.filter (· ∈ s.flags)).map Flag.label

end Symbol

end ApiSurface
