import ApiSurface.Module.Exports

/-! Following wildcard re-exports. Every statement has to lead to a module. Those that
lead to another module of the project are followed further, and those that lead to a
library are not. -/

namespace ApiSurface

/-- Where a wildcard re-export leads. -/
structure WildcardTarget where
  specifier : Name
  fileName : Name
  file : SourceFile
  root : SymbolId
  external : Json

/-- Whether a target belongs to a library. -/
def WildcardTarget.isExternal (t : WildcardTarget) : Bool := t.external.isSet

namespace Program

/-- The statements among the wildcard re-exports of a module. -/
def wildcardStatements (p : Program) (m : SymbolId) : Except Fault (List Site) := do
  let sites ← (← p.wildcards m).mapM p.siteOf
  return sites.filter fun d => d.node.kind = .exportDeclaration

/-- The module that a specifier itself stands for. It is declared without a file of its own
and belongs to the file of its first declaration. -/
def ambientModule (p : Program) (literal : Site) (specifier : String) :
    Except Fault WildcardTarget := do
  match p.symbolAt literal.node.id with
  | none => throw (.wildcard (.symbolNotModule specifier))
  | some m =>
    let x ← p.symbolOf m
    if !x.isValueModule then throw (.wildcard (.symbolNotModule specifier))
    match ← p.declaration? x with
    | none => throw (.wildcard (.symbolNotModule specifier))
    | some d =>
      let f ← d.sourceFile
      return ⟨.ofText specifier, f.name, f, m, .bool (p.isExternalFile f)⟩

/-- The file that a specifier was resolved to. It has to be there and to be a module. -/
def resolvedModule (p : Program) (specifier : Name) (r : Resolution) :
    Except Fault WildcardTarget := do
  let fileName ← nameOf r.fileName
  match p.fileNamed? fileName with
  | none => throw (.wildcard (.fileNotFound fileName))
  | some f =>
    match p.symbolAt f.id with
    | none => throw (.wildcard (.fileNotModule fileName))
    | some m => return ⟨specifier, fileName, f, m, r.external⟩

/-- Where a wildcard re-export leads, or why it leads nowhere. -/
def resolveWildcard (p : Program) (declaration : Site) : Except Fault WildcardTarget := do
  match ← p.specifier? declaration.node with
  | none =>
    throw (.wildcard (.noSpecifier (← declaration.sourceFile).name declaration.node.start))
  | some (literal, text) =>
    let f ← declaration.sourceFile
    let specifier ← nameOf text
    match p.resolution? f specifier, text with
    | some r, _ => p.resolvedModule specifier r
    | none, .str s =>
      if isRelativeName s then throw (.wildcard (.unresolved s)) else p.ambientModule literal s
    | none, _ => throw (.defect .specifierNotText)

/-- The statement at a site and where it leads, if it is one that re-exports. -/
def statementAt? (p : Program) (n : NodeId) : Except Fault (Option (Site × WildcardTarget)) := do
  let d ← p.siteOf n
  if d.node.kind = .exportDeclaration then return some (d, ← p.resolveWildcard d) else return none

end Program

end ApiSurface
