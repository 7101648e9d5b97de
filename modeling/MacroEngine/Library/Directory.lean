import MacroEngine.Files
import MacroEngine.Library.Basic

/-! A library out of a directory: each file with the extension of a macro or of a script is an
entry under the name before that extension. Files are taken in the order of their names. -/
namespace MacroEngine
namespace Library

def filePath (dir name : String) : String :=
  if dir.isEmpty || dir.endsWith "/" then dir ++ name else dir ++ "/" ++ name

def insertFile (readFile : Config.ReadFile) (dir : String) (lib : Library) (file : String) :
    Except LibraryError Library :=
  match MacroKind.ofPath? file, fileStem file with
  | some kind, some name => do
    let path := filePath dir file
    let text ← (readFile path).mapError (.io path)
    lib.insert name kind text
  | _, _ => pure lib

def ofDirectory (files : Files) (dir : String) : Except LibraryError Library :=
  match files.list? dir with
  | none => .error (.io dir Files.missing)
  | some names =>
    (names.mergeSort fun a b => !decide (b < a)).foldlM (insertFile files.read dir) .empty

end Library
end MacroEngine
