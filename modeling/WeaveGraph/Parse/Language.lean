import WeaveGraph.Lib.Text

/-!
# Languages

The language of a file, from its path.  The languages after `cpp` exist only in a build with the
`lang-extended` feature; `fromPath` takes the feature as an argument.
-/

namespace WeaveGraph

inductive Language where
  | rust
  | python
  | javaScript
  | typeScript
  | tsx
  | go
  | java
  | c
  | cpp
  | cSharp
  | kotlin
  | swift
  | scala
  | zig
  | ruby
  | php
  | bash
  | powerShell
  | lua
  | yaml
  | toml
  | json
  | properties
  | elixir
  | haskell
  | dart
  | sql
  | html
  | css
  | r
  | arkTs
  | objC
  | metal
  | cuda
  | svelte
  | vue
  | astro
  | liquid
  | pascal
  | luau
  | cfml
  | cobol
  | visualBasic
  | erlang
  | solidity
  | terraform
  | nix
deriving Repr, DecidableEq

namespace Language

/-- The name `{:?}` prints. -/
def debugName : Language → String
  | .rust => "Rust"
  | .python => "Python"
  | .javaScript => "JavaScript"
  | .typeScript => "TypeScript"
  | .tsx => "Tsx"
  | .go => "Go"
  | .java => "Java"
  | .c => "C"
  | .cpp => "Cpp"
  | .cSharp => "CSharp"
  | .kotlin => "Kotlin"
  | .swift => "Swift"
  | .scala => "Scala"
  | .zig => "Zig"
  | .ruby => "Ruby"
  | .php => "Php"
  | .bash => "Bash"
  | .powerShell => "PowerShell"
  | .lua => "Lua"
  | .yaml => "Yaml"
  | .toml => "Toml"
  | .json => "Json"
  | .properties => "Properties"
  | .elixir => "Elixir"
  | .haskell => "Haskell"
  | .dart => "Dart"
  | .sql => "Sql"
  | .html => "Html"
  | .css => "Css"
  | .r => "R"
  | .arkTs => "ArkTs"
  | .objC => "ObjC"
  | .metal => "Metal"
  | .cuda => "Cuda"
  | .svelte => "Svelte"
  | .vue => "Vue"
  | .astro => "Astro"
  | .liquid => "Liquid"
  | .pascal => "Pascal"
  | .luau => "Luau"
  | .cfml => "Cfml"
  | .cobol => "Cobol"
  | .visualBasic => "VisualBasic"
  | .erlang => "Erlang"
  | .solidity => "Solidity"
  | .terraform => "Terraform"
  | .nix => "Nix"

/-- The extensions every build knows. -/
def ofExtension : String → Option Language
  | "rs" => some .rust
  | "py" => some .python
  | "js" | "jsx" | "mjs" | "cjs" => some .javaScript
  | "ts" => some .typeScript
  | "tsx" => some .tsx
  | "go" => some .go
  | "java" => some .java
  | "c" | "h" => some .c
  | "cpp" | "cc" | "cxx" | "hpp" | "hh" | "hxx" => some .cpp
  | _ => none

/-- The extensions of `lang-extended`. -/
def ofExtendedExtension : String → Option Language
  | "cs" => some .cSharp
  | "kt" | "kts" => some .kotlin
  | "swift" => some .swift
  | "scala" | "sc" => some .scala
  | "zig" => some .zig
  | "rb" => some .ruby
  | "php" => some .php
  | "sh" | "bash" => some .bash
  | "ps1" | "psm1" => some .powerShell
  | "lua" => some .lua
  | "yaml" | "yml" => some .yaml
  | "toml" => some .toml
  | "json" | "jsonc" => some .json
  | "properties" => some .properties
  | "ex" | "exs" => some .elixir
  | "hs" => some .haskell
  | "dart" => some .dart
  | "sql" => some .sql
  | "html" | "htm" => some .html
  | "css" => some .css
  | "r" | "R" => some .r
  | "ets" => some .arkTs
  | "m" | "mm" => some .objC
  | "metal" => some .metal
  | "cu" | "cuh" => some .cuda
  | "svelte" => some .svelte
  | "vue" => some .vue
  | "astro" => some .astro
  | "liquid" => some .liquid
  | "pas" | "pp" => some .pascal
  | "luau" => some .luau
  | "cfm" | "cfc" => some .cfml
  | "cbl" | "cob" => some .cobol
  | "vb" => some .visualBasic
  | "erl" | "hrl" => some .erlang
  | "sol" => some .solidity
  | "tf" | "tofu" => some .terraform
  | "nix" => some .nix
  | _ => none

def fromPath (langExtended : Bool) (path : String) : Option Language :=
  if langExtended && (Lib.Text.fileName path).any fun name => Lib.Text.startsWith name ".env" then
    some .properties
  else
    (Lib.Text.extension path).bind fun ext =>
      (ofExtension ext).or (if langExtended then ofExtendedExtension ext else none)

example : fromPath true "src/lib.rs" = some .rust ∧ fromPath false "a.cs" = none := by decide

end Language

end WeaveGraph
