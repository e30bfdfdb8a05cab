import RefDoc.Scan.Function
import RefDoc.Scan.Struct

namespace RefDoc.Scan

/-- The declarations of the source `text`: its structs, then its functions. -/
def declarations (text file : String) : List Declaration :=
  (structs text file).map .struct ++ (functions text file).map .function

end RefDoc.Scan
