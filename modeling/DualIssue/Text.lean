set_option autoImplicit false

namespace DualIssue.Text

def decimal (n : Nat) : String := String.ofList (Nat.toDigits 10 n)

def hex (n : Nat) : String := String.join ["0x", String.ofList (Nat.toDigits 16 n)]

def padded (width : Nat) (digits : List Char) : List Char :=
  List.replicate (width - digits.length) '0' ++ digits

def hex8 (n : Nat) : String := String.join ["0x", String.ofList (padded 8 (Nat.toDigits 16 n))]

def commaSeparated (items : List String) : String := ", ".intercalate items

end DualIssue.Text
