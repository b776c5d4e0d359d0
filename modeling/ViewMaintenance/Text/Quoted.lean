namespace ViewMaintenance.Text

/-- The characters that are written by their numbers, as closed ranges: control characters, spaces
    other than the common one, format characters, characters for private use, and marks that would
    combine with what stands before them. Of the last the Latin ones are known here, and no
    unassigned character is. -/
def unseen : List (Nat × Nat) :=
  [(0x00, 0x1F), (0x7F, 0xA0), (0xAD, 0xAD), (0x0300, 0x036F), (0x1680, 0x1680), (0x180E, 0x180E),
   (0x2000, 0x200F), (0x2028, 0x202F), (0x205F, 0x206F), (0x3000, 0x3000), (0xE000, 0xF8FF),
   (0xFE00, 0xFE0F), (0xFEFF, 0xFEFF), (0xFFF0, 0xFFFB), (0xFFFE, 0xFFFF), (0xE0000, 0x10FFFF)]

/-- A character inside a quoted text. -/
def escape (c : Char) : List Char :=
  match c with
  | '"' | '\\' => ['\\', c]
  | '\n' => ['\\', 'n']
  | '\r' => ['\\', 'r']
  | '\t' => ['\\', 't']
  | '\x00' => ['\\', '0']
  | _ =>
    if unseen.any fun r => r.1 ≤ c.toNat && c.toNat ≤ r.2 then
      ['\\', 'u', '\x7b'] ++ Nat.toDigits 16 c.toNat ++ ['\x7d']
    else [c]

/-- A text between quotation marks. -/
def quote (text : String) : String := .ofList ('"' :: text.toList.flatMap escape ++ ['"'])

end ViewMaintenance.Text
