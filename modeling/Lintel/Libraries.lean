import Lintel.Data.Readers
import Lintel.Yaml
import Lintel.Yaml.Writer

/-!
# Libraries

The program leaves two things to libraries that are not part of it. One reads and writes documents
(`Documents`), the other reads and writes settings (`Validation`). What loads a configuration or
writes one takes them as a parameter. The program runs with those built in (`Libraries.builtin`).

Nothing is assumed of a library that reads documents but what `Documents.Lawful` says. A file may
hold several documents one below the other, each a mapping with a key of its own, and remarks between
them. It is read as one mapping, with all the entries as they were before they were written.
-/

namespace Lintel

structure Documents where
  read : String → Except Yaml.Error Data
  /-- A mapping as a text in block style. -/
  write : Yaml.Block → String

namespace Documents

def withoutFeeds (s : String) : String :=
  String.ofList (s.toList.reverse.dropWhile (· = '\n')).reverse

/-- A list of texts in a mapping in a mapping, with the lines that stand above it in a file. -/
structure Page where
  remarks : List String
  key : String
  inner : String
  texts : List String

namespace Page

def block (p : Page) : Yaml.Block := .map [(p.key, .map [(p.inner, .texts p.texts)])]

/-- The entry that the page adds to the mapping of its file. -/
def entry (p : Page) : Data × Data :=
  (.text p.key, .map [(.text p.inner, .list (p.texts.map .text))])

def Printable (s : String) : Prop :=
  ∀ c ∈ s.toList, 0x20 ≤ c.toNat ∧ c.toNat ≤ 0x7E

instance (s : String) : Decidable (Printable s) :=
  List.decidableBAll _ s.toList

/-- A line that says nothing to a reader of documents. -/
structure IsRemark (line : String) : Prop where
  printable : Printable line
  start : line = "" ∨ line.toList.head? = some '#'

/-- A key of letters and slashes, which is too long for the word of a truth value and short enough
to stand in front of its colon. -/
structure IsWord (key : String) : Prop where
  letters : ∀ c ∈ key.toList, c.isAlpha = true ∨ c = '/'
  start : (key.toList.head?.map Char.isAlpha) = some true
  long : 6 ≤ key.length
  short : key.length ≤ 100

/-- A page of the kind that the program writes. -/
structure IsProper (p : Page) : Prop where
  remarks : ∀ line ∈ p.remarks, IsRemark line
  key : IsWord p.key
  inner : IsWord p.inner
  texts : p.texts ≠ []

end Page

def lines (d : Documents) (p : Page) : List String :=
  p.remarks ++ [withoutFeeds (d.write p.block)]

def file (d : Documents) (ps : List Page) : String :=
  "\n".intercalate (ps.flatMap d.lines) ++ "\n"

/-- What the documentation of a library for documents promises. -/
structure Lawful (d : Documents) : Prop where
  /-- A text that holds no document is null. -/
  read_empty : d.read "" = .ok .null
  /-- What is written is read back. Remarks do not count, and mappings with different keys that stand
  one below the other are one. -/
  read_file : ∀ ps : List Page, ps ≠ [] → (∀ p ∈ ps, p.IsProper) → (ps.map Page.key).Nodup →
    d.read (d.file ps) = .ok (.map (ps.map Page.entry))
  /-- Control characters are escaped in what is written. -/
  write_plain : ∀ p : Page, p.IsProper → '\r' ∉ (d.write p.block).toList

/-- The library that the program runs with. It ends a document with a line feed. -/
def builtin : Documents where
  read := Yaml.read
  write b := b.render ++ "\n"

end Documents

/-- The libraries that a configuration is loaded and written with. -/
structure Libraries where
  documents : Documents
  validation : Validation

structure Libraries.Lawful (libs : Libraries) : Prop where
  documents : libs.documents.Lawful
  validation : libs.validation.Lawful

def Libraries.builtin : Libraries := ⟨.builtin, .builtin⟩

end Lintel
