import MacroEngine.Library.Basic

/-! A library that keeps what it has read. An entry is read when it is first asked for, and what
was read is given out from then on; an entry that cannot be read is tried again each time. -/
namespace MacroEngine

structure CachedLibrary where
  library : Library
  /-- What was read, by the key of its name. -/
  sources : List (String × Source)

namespace CachedLibrary

def empty : CachedLibrary := ⟨.empty, []⟩

def insert (c : CachedLibrary) (name : String) (kind : MacroKind) (text : String) :
    Except LibraryError CachedLibrary :=
  (c.library.insert name kind text).map fun lib => { c with library := lib }

def get (c : CachedLibrary) (name : String) : Except LibraryError Source × CachedLibrary :=
  match c.sources.lookup (nameKey name) with
  | some source => (.ok source, c)
  | none =>
    match c.library.get name with
    | .ok source => (.ok source, { c with sources := (nameKey name, source) :: c.sources })
    | .error e => (.error e, c)

def native (c : CachedLibrary) (name : String) : Except LibraryError Routine × CachedLibrary :=
  match c.get name with
  | (.ok source, c) => (source.native? name, c)
  | (.error e, c) => (.error e, c)

/-- Was an entry read before? Then asking for it reads nothing. -/
def holds (c : CachedLibrary) (name : String) : Bool := (c.sources.lookup (nameKey name)).isSome

end CachedLibrary
end MacroEngine
