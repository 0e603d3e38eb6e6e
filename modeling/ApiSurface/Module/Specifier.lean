import ApiSurface.Program.Basic

/-! Module specifiers: the names by which one module refers to another. -/

namespace ApiSurface

/-- Whether a specifier is a path, from the current place or from a root, and so never
the name of a package. -/
def isRelativeName (name : String) : Bool :=
  match name.toList with
  | ['.'] | ['.', '.'] => true
  | '/' :: _ | '\\' :: _ => true
  | '.' :: '/' :: _ | '.' :: '\\' :: _ => true
  | '.' :: '.' :: '/' :: _ | '.' :: '.' :: '\\' :: _ => true
  | _ :: ':' :: '/' :: _ | _ :: ':' :: '\\' :: _ => true
  | _ => false

namespace Program

/-- A string literal whose text is set. -/
def literal? (p : Program) (n : NodeId) : Except Fault (Option (Site × Json)) :=
  match n.present? with
  | none => .ok none
  | some n => do
    let s ← p.siteOf n
    return if s.node.kind = .stringLiteral then s.node.text?.map (s, ·) else none

/-- The specifier of a declaration. -/
def specifier? (p : Program) (declaration : Node) : Except Fault (Option (Site × Json)) :=
  p.literal? declaration.specifier

/-- The specifier of what stands in the place of a declaration, which may be a symbol that has
been given one. -/
def specifierAt? (p : Program) (e : Entity) : Except Fault (Option (Site × Json)) := do
  match (p.symbols.get? e).bind Symbol.specifier with
  | some n => p.literal? n
  | none => p.specifier? (← p.siteOf e).node

/-- What a specifier written in a file was resolved to. -/
def resolution? (p : Program) (f : SourceFile) (specifier : Name) : Option Resolution :=
  p.resolutions.get? (f.name.key, specifier.key)

end Program

end ApiSurface
