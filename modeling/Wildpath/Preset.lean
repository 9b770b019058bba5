import Wildpath.Text.Basic

/-!
# Presets

Names of what the tools for a kind of project leave behind. The generic names always count.
-/

set_option autoImplicit false

namespace Wildpath.Preset

def table : List (String × List String) :=
  [("generic", [".git", ".hg", ".svn", ".DS_Store"]),
    ("node", ["node_modules", ".next", ".cache", "coverage"]),
    ("python",
      ["__pycache__", "*.py[co]", "\x7b.venv,venv\x7d", ".\x7bmypy,pytest,ruff\x7d_cache",
        "*.egg-info", ".tox"]),
    ("rust", ["target"])]

def ownPatterns? (name : Text) : Option (List Text) :=
  (table.find? (·.1.toList = name)).map fun preset => preset.2.map String.toList

/-- A preset that is not in the table. -/
structure Unknown where
  name : Text

def Unknown.message (u : Unknown) : Text :=
  "Unknown preset '".toList ++ u.name ++ "'. Known presets: ".toList
    ++ Text.joined ", ".toList (table.map (·.1.toList))

/-- The patterns of a preset, after the generic ones. -/
def patterns (name : Text) : Except Unknown (List Text) :=
  match ownPatterns? name with
  | none => .error ⟨name⟩
  | some own =>
    if name = "generic".toList then .ok own
    else .ok ((ownPatterns? "generic".toList).getD [] ++ own)

end Wildpath.Preset
