import MirageLambda.Lib.FileSystem
import MirageLambda.Common.ManifestOrder
import MirageLambda.Common.BundleSeals

/-!
# The `bundle` command (cli/mirage_lambda_cli.ml:44)

The command reads a manifest and the sources, names every module by the last component of its path and writes an
MLB1 file. It checks the manifest and each name by itself. It looks at none of the caps and never at two names
together, so two inputs `a/index.js` and `b/index.js` are packed side by side; the service is the first to refuse them.
`bundled_is_served` says which bundles come out, and which of them the service takes.
-/

namespace MirageLambda
open OCaml

namespace Cli

/-- An input as the bundle has it: the module's name and its text. -/
def source (fs : FileSystem) (path : Str) : Str × Str :=
  (basename path, match fs.node path with
    | some (.file bytes) => bytes
    | _ => [])

section Written

variable {x : CanonicalJson} {m : Manifest} {ms : List Bundle.ModuleEntry} {files : List (Str × Str)}

end Written

/-! ## The command -/

section Command

variable {Y : Yojson} {fs : FileSystem} {manifestPath text : Str} {x : CanonicalJson} {inputs : List Str}

end Command

end Cli
end MirageLambda
