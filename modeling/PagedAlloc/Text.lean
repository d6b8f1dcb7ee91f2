/-!
# Texts

The notation in which records, optional values, sets of names and addresses appear in diagnostic
texts, and the characters that count as blank at the ends of a setting: the property `White_Space`
of the character database, which is larger than the class of blanks in ASCII.
-/

namespace PagedAlloc.Text

/-! ## Shown values -/

/-- A record is shown by its name and its fields in order. -/
def record (name : String) (fields : List (String × String)) : String :=
  let shownFields := fields.map fun (key, value) => key ++ ": " ++ value
  name ++ " \x7b " ++ ", ".intercalate shownFields ++ " \x7d"

/-- A case with one value is shown as a call. -/
def tagged (name value : String) : String := name ++ "(" ++ value ++ ")"

/-- An optional value is shown as `None` or as `Some` of the value. -/
def optional (shown : α → String) : Option α → String
  | none => "None"
  | some value => tagged "Some" (shown value)

/-- A list is shown in brackets. -/
def sequence (items : List String) : String := "[" ++ ", ".intercalate items ++ "]"

/-- A set of named bits is shown by its names in order; the empty set by its value. -/
def bits (name : String) (members : List String) : String :=
  tagged name (if members.isEmpty then "0x0" else " | ".intercalate members)

/-- A truth value is shown in lower case. -/
def truth : Bool → String
  | true => "true"
  | false => "false"

/-- An address is shown in hexadecimal. -/
def address (value : Nat) : String := "0x" ++ String.ofList (Nat.toDigits 16 value)

/-! ## Blank characters -/

/-- First and last code point of each range of blank characters. -/
def blankRanges : List (Nat × Nat) :=
  [(0x09, 0x0D), (0x20, 0x20), (0x85, 0x85), (0xA0, 0xA0), (0x1680, 0x1680), (0x2000, 0x200A),
    (0x2028, 0x2029), (0x202F, 0x202F), (0x205F, 0x205F), (0x3000, 0x3000)]

/-- Whether a character is blank. -/
def isBlank (c : Char) : Bool :=
  blankRanges.any fun (first, last) => first ≤ c.toNat && c.toNat ≤ last

/-- A text without the blank characters at its ends. -/
def trim (text : List Char) : List Char :=
  ((text.dropWhile isBlank).reverse.dropWhile isBlank).reverse

end PagedAlloc.Text
