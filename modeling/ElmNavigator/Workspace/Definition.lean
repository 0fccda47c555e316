import ElmNavigator.Workspace.ModuleLookup
import ElmNavigator.Workspace.SymbolIndex
import ElmNavigator.Workspace.Word

/-!
# Going to a definition

A name is looked for in layers, and a later layer is asked only if the earlier ones found nothing:

1. the imports that name its module, by alias or in full, or that expose it explicitly;
2. the current module, if no import does so;
3. the imports that expose everything, one after the other, for a name without module.
-/

namespace ElmNavigator

open Text Syntax

structure Reference where
  qualifier : String
  name : String
deriving Repr, DecidableEq

def Reference.ofWord (word : String) : Reference :=
  match splitAtLast? '.' word.toList with
  | some (qualifier, name) => { qualifier := String.ofList qualifier, name := String.ofList name }
  | none => { qualifier := "", name := word }

/-- The earliest symbol of the highest rank. -/
def bestMatch (symbols : List Symbol) : Option Symbol :=
  symbols.foldl (fun best s =>
    match best with
    | some b => if b.kind.rank ≥ s.kind.rank then some b else some s
    | none => some s) none

def hasConstructor (module : Outline Location) (types : List String) (name : String) : Bool :=
  types.any fun type => (module.constructorsOf type).any (·.name = name)

namespace Definition

variable {m : Type -> Type} [Monad m]

def exposesConstructor (files : Files m) (name : String) (i : Import Location) (l : ModuleLookup) :
    m (Bool × ModuleLookup) :=
  if !name.toList.head?.any isUpper || i.openTypes.isEmpty then return (false, l)
  else do
    let (found, l) ← l.byName files i.module
    match found with
    | none => return (false, l)
    | some module => return (hasConstructor module i.openTypes name, l)

def isNamedBy (files : Files m) (ref : Reference) (i : Import Location) (l : ModuleLookup) :
    m (Bool × ModuleLookup) :=
  if ref.qualifier ≠ "" then
    return (i.asName = some ref.qualifier || i.module = ref.qualifier, l)
  else if i.exposesName ref.name then return (true, l)
  else exposesConstructor files ref.name i l

def namedModules (files : Files m) (ref : Reference) :
    List (Import Location) -> ModuleLookup -> m (List String × ModuleLookup)
  | [], l => return ([], l)
  | i :: is, l => do
      let (named, l) ← isNamedBy files ref i l
      let (modules, l) ← namedModules files ref is l
      return (if named then i.module :: modules else modules, l)

def inModules (files : Files m) (name : String) :
    List String -> SymbolIndex -> m (List Symbol × SymbolIndex)
  | [], ix => return ([], ix)
  | module :: modules, ix => do
      let (found, ix) ← ix.query files (SymbolQuery.textOf module name)
      let (others, ix) ← inModules files name modules ix
      return (found ++ others, ix)

/-- The best symbol of a name in the first of several modules that has one. -/
def inFirstOf (files : Files m) (name : String) :
    List String -> SymbolIndex -> m (Option Symbol × SymbolIndex)
  | [], ix => return (none, ix)
  | module :: modules, ix => do
      let (found, ix) ← ix.query files (SymbolQuery.textOf module name)
      match bestMatch found with
      | some best => return (some best, ix)
      | none => inFirstOf files name modules ix

def wildcardModules (imports : List (Import Location)) : List String :=
  (imports.filter (·.exposesAll)).map (·.module)

def ofReference (files : Files m) (current : Outline Location) (ref : Reference)
    (l : ModuleLookup) (ix : SymbolIndex) :
    m (Option Symbol × ModuleLookup × SymbolIndex) := do
  let (named, l) ← namedModules files ref current.imports l
  let modules := if named.isEmpty then [current.name] else named
  let (found, ix) ← inModules files ref.name modules ix
  match bestMatch found with
  | some best => return (some best, l, ix)
  | none =>
      if ref.qualifier ≠ "" then return (none, l, ix)
      else do
        let (found, ix) ← inFirstOf files ref.name (wildcardModules current.imports) ix
        return (found, l, ix)

def atPosition (files : Files m) (p : Path) (text : String) (line column : Nat)
    (l : ModuleLookup) (ix : SymbolIndex) :
    m (Option Symbol × ModuleLookup × SymbolIndex) :=
  match wordAt? text line column with
  | none => return (none, l, ix)
  | some word => do
      let (current, l) ← l.atPath files p
      match current with
      | none => return (none, l, ix)
      | some current => ofReference files current (Reference.ofWord word) l ix

end Definition
end ElmNavigator
