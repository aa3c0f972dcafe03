import Lintel.Output.Document
import Lintel.Output.Format
import Lintel.Output.Lines
import Lintel.Output.Todo

/-!
# Writing reports

`Format.render` writes a report in a format. An empty text means that there is nothing to print. The
format of to-do lists leaves documents to a library.
-/

namespace Lintel

def Format.render (now : Moment) (r : Report) (f : Format) (d : Documents := .builtin) : String :=
  match f with
  | .text => Output.text r
  | .progress => Output.progress r
  | .json => Output.document .indented r
  | .flycheck => Output.flycheck r
  | .disabled => Output.disabled r
  | .todo => Todo.render now r d
  | .silent => ""

end Lintel
