/-! # The version of the library -/

namespace AtomLines

def version : String := "0.1.0"

end AtomLines
