import Marginalia.Comment.DocRun
import Marginalia.Language
/-!
# Comment styles

A style of comment says where its comments are found in a document and how a line of a
comment is decorated.  The languages fall into four groups with the same comments; each
group lists its styles in the order in which their diagrams are reported.
-/
namespace Marginalia

/-- A kind of comment that can hold a diagram. -/
inductive CommentStyle
  /-- Text between `/*` and `*/`. -/
  | block
  /-- A docstring between three double quotes. -/
  | doubleQuoted
  /-- A docstring between three single quotes. -/
  | singleQuoted
  /-- A run of `//!` lines. -/
  | docRun
deriving DecidableEq, Repr

namespace CommentStyle

def blockDelimiters : Delimiters := ⟨"/*".toList, "*/".toList, by simp, by simp⟩

def doubleQuotes : Delimiters := ⟨"\"\"\"".toList, "\"\"\"".toList, by simp, by simp⟩

def singleQuotes : Delimiters := ⟨"'''".toList, "'''".toList, by simp, by simp⟩

def candidates : CommentStyle → Text → List Candidate
  | block => scan blockDelimiters .block
  | doubleQuoted => scan doubleQuotes .docstring
  | singleQuoted => scan singleQuotes .docstring
  | docRun => DocRun.scan

/-- Drops the indentation, the `sign` behind it and one blank character behind that.  A
line without the sign is kept as it is. -/
def stripSign (sign line : Text) : Text :=
  let t := Text.trimStart line
  if sign.isPrefixOf t then
    match t.drop sign.length with
    | [] => []
    | c :: rest => if isBlank c then rest else c :: rest
  else line

def strip : CommentStyle → Text → Text
  | block => stripSign ['*']
  | doubleQuoted | singleQuoted => fun line => line
  | docRun => stripSign DocRun.sign

end CommentStyle

/-- The languages that share a grammar of comments. -/
inductive Grammar
  | script
  | python
  | go
  | rust
deriving DecidableEq, Repr

namespace Grammar

/-- The language that a document of this grammar is in when nothing else is known. -/
def language : Grammar → Language
  | script => .typescript
  | python => .python
  | go => .go
  | rust => .rust

/-- The styles of comments, in the order in which their diagrams are reported. -/
def styles : Grammar → List CommentStyle
  | script => [.block]
  | python => [.doubleQuoted, .singleQuoted]
  | go => [.block]
  | rust => [.block, .docRun]

end Grammar

def Language.grammar : Language → Grammar
  | .typescript | .typescriptReact | .javascript | .javascriptReact => .script
  | .python => .python
  | .go => .go
  | .rust => .rust

end Marginalia
