import ApiSurface.Json.Basic

/-! What a program holds, by identity. Symbols and nodes share one kind of identity: a place
for a symbol or for a node may hold anything, or nothing, and it shows when the place is
looked at whether the right thing is there. -/

namespace ApiSurface

/-- An identity says where something comes from. -/
inductive Entity where
  | nothing
  | node (index : Nat)
  /-- The scope that all scripts share. -/
  | globalThis
  /-- What an alias without an end stands for. -/
  | unknown
  /-- The module of a file. -/
  | ofFile (file : Entity)
  /-- The entry of a module that holds its wildcard re-exports. -/
  | wildcards (owner : Entity)
  /-- A symbol that a document lists under a key. -/
  | listed (key : Key)
  /-- A symbol made by hand. -/
  | made (serial : Nat)
deriving DecidableEq

/-- What is held where a node is expected. -/
abbrev NodeId := Entity

/-- What is held where a symbol is expected. -/
abbrev SymbolId := Entity

/-- An entity unless it is nothing. -/
def Entity.present? : Entity → Option Entity
  | .nothing => none
  | e => some e

end ApiSurface
