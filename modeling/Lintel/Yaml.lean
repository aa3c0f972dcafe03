import Lintel.Yaml.Value

/-!
# Reading documents

`Yaml.read` reads the data of a text in the language YAML, version 1.1: first tokens, then the
nodes of the one document, then its data. A stream without a document is null.
-/

namespace Lintel

def Yaml.read (text : String) : Except Yaml.Error Data := do
  let d ← Yaml.Document.ofScan (Yaml.scan text.toList)
  d.data

end Lintel
