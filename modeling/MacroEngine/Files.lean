import MacroEngine.Config
import MacroEngine.Text.Lines

/-! Files by path, as far as they are read: texts, and the names in a directory. -/
namespace MacroEngine
open Text

structure Files where
  read : Config.ReadFile
  isFile : String → Bool
  /-- The names of the files in a directory, if there is such a directory. -/
  list? : String → Option (List String)

namespace Files

def missing : String := "No such file or directory (os error 2)"

def notDirectory : String := "Not a directory (os error 20)"

def isDirectory : String := "Is a directory (os error 21)"

def parts (path : String) : List (List Char) :=
  (splitOn '/' path.toList).filter fun part => part ≠ [] ∧ part ≠ ['.']

/-- Files with their texts, by the parts of their paths. -/
abbrev Tree := List (List (List Char) × String)

namespace Tree

def ofList (files : List (String × String)) : Tree :=
  files.map fun (path, text) => (parts path, text)

def file? (tree : Tree) (path : List (List Char)) : Option String := tree.lookup path

def isDir (tree : Tree) (path : List (List Char)) : Bool :=
  path.isEmpty || tree.any fun e => path.isPrefixOf e.1 && path.length < e.1.length

/-- Where a path leads from a directory, or why it leads nowhere. A part `..` leads back. -/
def walk (tree : Tree) (here : List (List Char)) :
    List (List Char) → Except String (List (List Char))
  | [] => .ok here
  | part :: rest =>
    if tree.isDir here then walk tree (if part = ['.', '.'] then here.dropLast else here ++ [part]) rest
    else .error (if (tree.file? here).isSome then notDirectory else missing)

/-- The place of a path; only a directory may end in a slash. -/
def find (tree : Tree) (path : String) : Except String (List (List Char)) := do
  if path.isEmpty then throw missing
  let place ← walk tree [] (parts path)
  let slashed := (splitOn '/' path.toList).getLast?.any fun part => part = [] ∨ part = ['.']
  if slashed && (tree.file? place).isSome then throw notDirectory
  pure place

def read (tree : Tree) (path : String) : Except String String := do
  let place ← tree.find path
  match tree.file? place with
  | some text => pure text
  | none => throw (if tree.isDir place then isDirectory else missing)

def list? (tree : Tree) (path : String) : Option (List String) :=
  match tree.find path with
  | .ok place =>
    if tree.isDir place then
      some (tree.filterMap fun e =>
        if e.1.dropLast = place then e.1.getLast?.map String.ofList else none)
    else none
  | .error _ => none

end Tree

def ofList (files : List (String × String)) : Files :=
  let tree := Tree.ofList files
  ⟨tree.read, fun path => (tree.read path).toBool, tree.list?⟩

end Files
end MacroEngine
