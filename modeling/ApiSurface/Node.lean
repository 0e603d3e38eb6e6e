import ApiSurface.Entity

/-! Nodes of the files of a program, and the trees they form. -/

namespace ApiSurface

/-- The kinds of node that make a difference to the analysis. -/
inductive NodeKind where
  | sourceFile | identifier | stringLiteral | qualifiedName | typeReference
  | expressionWithTypeArguments | computedPropertyName | typeQuery | importType | heritageClause
  | exportDeclaration | exportSpecifier | importSpecifier | interfaceDeclaration
  | classDeclaration | typeAliasDeclaration | functionDeclaration | variableDeclaration
  | enumDeclaration | moduleDeclaration | propertySignature | parameter | unionType | arrayType
  | other
deriving DecidableEq

namespace NodeKind

def all : List NodeKind :=
  [.sourceFile, .identifier, .stringLiteral, .qualifiedName, .typeReference,
   .expressionWithTypeArguments, .computedPropertyName, .typeQuery, .importType, .heritageClause,
   .exportDeclaration, .exportSpecifier, .importSpecifier, .interfaceDeclaration,
   .classDeclaration, .typeAliasDeclaration, .functionDeclaration, .variableDeclaration,
   .enumDeclaration, .moduleDeclaration, .propertySignature, .parameter, .unionType, .arrayType,
   .other]

/-- The name of a kind in documents and messages. -/
def label : NodeKind → String
  | .sourceFile => "source_file"
  | .identifier => "identifier"
  | .stringLiteral => "string_literal"
  | .qualifiedName => "qualified_name"
  | .typeReference => "type_reference"
  | .expressionWithTypeArguments => "expression_with_type_arguments"
  | .computedPropertyName => "computed_property_name"
  | .typeQuery => "type_query"
  | .importType => "import_type"
  | .heritageClause => "heritage_clause"
  | .exportDeclaration => "export_declaration"
  | .exportSpecifier => "export_specifier"
  | .importSpecifier => "import_specifier"
  | .interfaceDeclaration => "interface_declaration"
  | .classDeclaration => "class_declaration"
  | .typeAliasDeclaration => "type_alias_declaration"
  | .functionDeclaration => "function_declaration"
  | .variableDeclaration => "variable_declaration"
  | .enumDeclaration => "enum_declaration"
  | .moduleDeclaration => "module_declaration"
  | .propertySignature => "property_signature"
  | .parameter => "parameter"
  | .unionType => "union_type"
  | .arrayType => "array_type"
  | .other => "other"

def ofLabel? (s : String) : Option NodeKind := all.find? fun k => k.label = s

/-- The kinds whose first identifier mentions a symbol. -/
def isMention : NodeKind → Bool
  | .typeReference | .expressionWithTypeArguments | .computedPropertyName | .typeQuery => true
  | _ => false

end NodeKind

/-- A node by itself. Its start and its text are any values that the document gave. -/
structure Node where
  id : NodeId
  kind : NodeKind
  start : Json := .int 0
  text : Option Json := none
  specifier : NodeId := .nothing

namespace Node

/-- The text of a node unless it counts as unset. -/
def text? (n : Node) : Option Json := n.text.filter Json.isSet

/-- What a node is called: its text, or else its kind. -/
def label (n : Node) : Json := n.text?.getD (.str n.kind.label)

end Node

/-- A node with everything below it. -/
inductive Tree where
  | mk (node : Node) (children : List Tree)

namespace Tree

def node : Tree → Node
  | .mk n _ => n

def children : Tree → List Tree
  | .mk _ ts => ts

mutual

/-- Everything below the root, each tree before what is below it. -/
def descendants : Tree → List Tree
  | .mk _ ts => preorder ts

/-- The trees of a list and everything below them. -/
def preorder : List Tree → List Tree
  | [] => []
  | t :: ts => t :: (descendants t ++ preorder ts)

end

/-- The first tree of a kind below the root. -/
def firstBelow? (t : Tree) (kind : NodeKind) : Option Tree :=
  t.descendants.find? fun d => d.node.kind = kind

/-- The tree of a node in a list of trees. -/
def find? (ts : List Tree) (id : NodeId) : Option Tree :=
  (preorder ts).find? fun t => t.node.id = id

mutual

/-- Change the tree of one node. -/
def modify (id : NodeId) (f : Tree → Tree) : Tree → Tree
  | .mk n ts => if n.id = id then f (.mk n ts) else .mk n (modifyAll id f ts)

def modifyAll (id : NodeId) (f : Tree → Tree) : List Tree → List Tree
  | [] => []
  | t :: ts => modify id f t :: modifyAll id f ts

end

def addChild (child : Tree) : Tree → Tree
  | .mk n ts => .mk n (ts ++ [child])

def setSpecifier (specifier : NodeId) : Tree → Tree
  | .mk n ts => .mk { n with specifier } ts

end Tree

end ApiSurface
