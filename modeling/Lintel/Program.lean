/-!
# The program

The names under which the program is known: in commands it suggests, in the files it writes, and
as the name of its configuration file.
-/

namespace Lintel

namespace Program

def name : String := "autolint"

def version : String := "0.1.0"

def title : String := name ++ " " ++ version

def configName : String := ".autolint.yml"

end Program

end Lintel
