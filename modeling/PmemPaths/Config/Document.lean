import PmemPaths.Config.Settings
import PmemPaths.Yaml.Style

/-!
# Settings as documents

Settings are kept in a document with one entry for each of them.  A document may
leave entries out, and then the defaults stand; it may not repeat one or hold
others.  Settings that are read are validated; settings that are written need not
be valid.
-/

namespace PmemPaths.Config.Settings

/-- The number of values a word has, the bound of the page sizes that can be read. -/
def wordBound : Nat := 0x10000000000000000

/-- The settings with one entry of a document. -/
def withEntry? (s : Settings) (key : String) (value : Yaml.Node) : Option Settings :=
  match key with
  | "kind" => do
    return { s with strategy := ← Strategy.ofName? (← value.text?) }
  | "nvm_alloc_functions" => do
    return { s with allocFunctions := ← (← value.items?).mapM Yaml.Node.text? }
  | "page_size" => do
    return { s with pageSize := ← value.natural? wordBound }
  | "dump_on_construction" => do
    return { s with dumpOnConstruction := ← value.boolean? }
  | _ => none

/-- The settings in a document, not yet validated. -/
def ofNode? (node : Yaml.Node) : Option Settings := do
  let entries ← (← node.entries?).mapM fun (key, value) => do return (← key.text?, value)
  if (entries.map (·.1)).Nodup then entries.foldlM (fun s (key, value) => s.withEntry? key value) {}
  else none

/-- The settings in a text. -/
def ofText (text : String) : Except SettingsError Settings :=
  match (Yaml.Node.ofText? text).bind ofNode? with
  | none => .error .malformed
  | some s => s.validate.map fun _ => s

/-- The settings in a file, if there is one.  It holds a text in UTF-8. -/
def ofFile (bytes : Option ByteArray) : Except SettingsError Settings :=
  match bytes.bind String.fromUTF8? with
  | none => .error .unreadable
  | some text => ofText text

/-- The settings as a document. -/
def text (s : Settings) : String :=
  "kind: " ++ s.strategy.name ++ "\nnvm_alloc_functions:" ++
    (if s.allocFunctions.isEmpty then " []\n"
      else "\n" ++ String.join (s.allocFunctions.map fun name => "- " ++ Yaml.written name)) ++
    "page_size: " ++ toString s.pageSize ++
    "\ndump_on_construction: " ++ (if s.dumpOnConstruction then "true" else "false") ++ "\n"

end PmemPaths.Config.Settings
