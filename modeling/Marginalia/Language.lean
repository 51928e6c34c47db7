/-!
# Source languages

The languages whose comments are searched for diagrams.  A language is written by its
editor identifier and recognized by the extension of a file's name.
-/
namespace Marginalia

inductive Language
  | typescript
  | typescriptReact
  | javascript
  | javascriptReact
  | python
  | go
  | rust
deriving DecidableEq, Repr, Inhabited

structure UnknownLanguage where
  id : String
deriving DecidableEq, Repr

def UnknownLanguage.message (e : UnknownLanguage) : String := s!"unsupported language: {e.id}"

namespace Language

def all : List Language :=
  [typescript, typescriptReact, javascript, javascriptReact, python, go, rust]

def id : Language → String
  | typescript => "typescript"
  | typescriptReact => "typescriptreact"
  | javascript => "javascript"
  | javascriptReact => "javascriptreact"
  | python => "python"
  | go => "go"
  | rust => "rust"

def name : Language → String
  | typescript => "TypeScript"
  | typescriptReact => "TypeScriptReact"
  | javascript => "JavaScript"
  | javascriptReact => "JavaScriptReact"
  | python => "Python"
  | go => "Go"
  | rust => "Rust"

/-- The extensions of the language's files, without the dot. -/
def extensions : Language → List String
  | typescript => ["ts", "mts", "cts"]
  | typescriptReact => ["tsx"]
  | javascript => ["js", "mjs", "cjs"]
  | javascriptReact => ["jsx"]
  | python => ["py", "pyi"]
  | go => ["go"]
  | rust => ["rs"]

def ofId (id : String) : Except UnknownLanguage Language :=
  match all.find? (·.id == id) with
  | some language => .ok language
  | none => .error ⟨id⟩

/-- The language whose files have the given extension, in any ASCII case. -/
def ofExtension? (ext : String) : Option Language :=
  all.find? (·.extensions.contains ext.toLower)

end Language

end Marginalia
