/-!
Names in messages stand between grave accents.
-/

namespace ShapeLedger.Text

def quoted (s : String) : String := "`" ++ s ++ "`"

end ShapeLedger.Text
