import ShapeLedger.Text.Hex

/-!
Names in a ledger. The directory of a type is named by the hexadecimal digits
of the UTF-8 bytes of its name, the file of a version by its number.
-/

namespace ShapeLedger.Ledger

/-- The name of the directory of a type. -/
def directoryName (typeName : String) : String :=
  String.ofList (Text.Hex.encode typeName.toByteArray.data.toList)

/-- The type whose directory has that name, in digits of either case. The
empty name belongs to no type. -/
def typeName? (directory : String) : Option String := do
  let bytes ← Text.Hex.decode? directory.toList
  let name ← String.fromUTF8? (ByteArray.mk bytes.toArray)
  if name.isEmpty then none else some name

/-- The name of the file of a version. -/
def fileName (version : UInt32) : String := "v" ++ version.toNat.repr ++ ".json"

/-- A version number: decimal digits, perhaps after a plus sign. -/
def versionNumber? (s : List Char) : Option UInt32 :=
  let ds := match s with
    | '+' :: ds => ds
    | ds => ds
  if ds.isEmpty || !ds.all Char.isDigit then none
  else
    let n := Nat.ofDigitChars 10 ds 0
    if n < UInt32.size then some (UInt32.ofNat n) else none

/-- The version whose file may have that name. -/
def version? (file : String) : Option UInt32 :=
  match file.toList with
  | 'v' :: s =>
    if ".json".toList.isSuffixOf s then versionNumber? (s.take (s.length - 5)) else none
  | _ => none

end ShapeLedger.Ledger
