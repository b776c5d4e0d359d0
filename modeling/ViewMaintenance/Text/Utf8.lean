namespace ViewMaintenance.Text

/-- A character of which some bytes have been read. -/
structure OpenChar where
  /-- The bits read so far. -/
  bits : Nat
  /-- How many bytes are still due, at least one. -/
  due : Nat
  /-- The least byte that continues the character. -/
  low : UInt8 := 0x80
  /-- The greatest byte that continues the character. -/
  high : UInt8 := 0xBF
deriving DecidableEq

/-- The character shown for an ill-formed part. -/
def replacement : Char := '\uFFFD'

/-- Reads a byte at the start of a character. The range of the second byte is narrowed where a
    wider one would admit an overlong form, a surrogate, or a number beyond `U+10FFFF`. -/
def firstByte (b : UInt8) : List Char × Option OpenChar :=
  let n := b.toNat
  if b < 0x80 then ([Char.ofNat n], none)
  else if b < 0xC2 then ([replacement], none)
  else if b < 0xE0 then ([], some { bits := n % 0x20, due := 1 })
  else if b == 0xE0 then ([], some { bits := n % 0x10, due := 2, low := 0xA0 })
  else if b == 0xED then ([], some { bits := n % 0x10, due := 2, high := 0x9F })
  else if b < 0xF0 then ([], some { bits := n % 0x10, due := 2 })
  else if b == 0xF0 then ([], some { bits := n % 0x08, due := 3, low := 0x90 })
  else if b < 0xF4 then ([], some { bits := n % 0x08, due := 3 })
  else if b == 0xF4 then ([], some { bits := n % 0x08, due := 3, high := 0x8F })
  else ([replacement], none)

/-- Reads one byte: the characters it completes, and the character it leaves open. A byte that
    can not continue the open character ends it as ill-formed and is then read as a first byte
    itself. -/
def nextByte : Option OpenChar → UInt8 → List Char × Option OpenChar
  | none, b => firstByte b
  | some c, b =>
    if c.low ≤ b ∧ b ≤ c.high then
      let bits := c.bits * 0x40 + b.toNat % 0x40
      if c.due = 1 then ([Char.ofNat bits], none) else ([], some { bits, due := c.due - 1 })
    else
      let (chars, next) := firstByte b
      (replacement :: chars, next)

/-- Decodes what follows the bytes of an open character. -/
def decodeUtf8From : Option OpenChar → List UInt8 → List Char
  | none, [] => []
  | some _, [] => [replacement]
  | c, b :: bs =>
    let (chars, next) := nextByte c b
    chars ++ decodeUtf8From next bs

/-- Decodes UTF-8, each maximal ill-formed part to one replacement character. -/
def decodeUtf8 (bytes : List UInt8) : List Char := decodeUtf8From none bytes

theorem decodeUtf8From_cons (c : Option OpenChar) (b : UInt8) (bs : List UInt8) :
    decodeUtf8From c (b :: bs) = (nextByte c b).1 ++ decodeUtf8From (nextByte c b).2 bs := by
  cases c <;> rfl

theorem firstByte_of_two : ∀ n < 0x20, 2 ≤ n →
    firstByte (.ofNat (n + 0xC0)) = ([], some { bits := n, due := 1 }) := by
  decide

theorem firstByte_of_three : ∀ n < 0x10, firstByte (.ofNat (n + 0xE0)) = ([], some {
    bits := n
    due := 2
    low := if n = 0 then 0xA0 else 0x80
    high := if n = 0xD then 0x9F else 0xBF }) := by
  decide

theorem firstByte_of_four : ∀ n < 5, firstByte (.ofNat (n + 0xF0)) = ([], some {
    bits := n
    due := 3
    low := if n = 0 then 0x90 else 0x80
    high := if n = 4 then 0x8F else 0xBF }) := by
  decide

section Continued

variable {bits n : Nat} {low high : UInt8} (hn : n < 0x40) (hlow : low.toNat ≤ n + 0x80)
  (hhigh : n + 0x80 ≤ high.toNat)
include hn hlow hhigh

theorem nextByte_some (due : Nat) :
    nextByte (some { bits, due, low, high }) (.ofNat (n + 0x80)) =
      if due = 1 then ([Char.ofNat (bits * 0x40 + n)], none)
      else ([], some { bits := bits * 0x40 + n, due := due - 1 }) := by
  have hbyte : (UInt8.ofNat (n + 0x80)).toNat = n + 0x80 :=
    UInt8.toNat_ofNat_of_lt' (show n + 0x80 < 256 by omega)
  have hbits : (n + 0x80) % 0x40 = n := by omega
  rw [← hbyte, ← UInt8.le_iff_toNat_le] at hlow hhigh
  rw [nextByte, if_pos ⟨hlow, hhigh⟩, hbyte, hbits]

/-- The last byte of a character completes it. -/
theorem decodeUtf8From_last (bs : List UInt8) :
    decodeUtf8From (some { bits, due := 1, low, high }) (.ofNat (n + 0x80) :: bs) =
      Char.ofNat (bits * 0x40 + n) :: decodeUtf8From none bs := by
  rw [decodeUtf8From_cons, nextByte_some hn hlow hhigh, if_pos rfl]
  rfl

/-- A byte before the last adds its bits, and any byte may continue the character after it. -/
theorem decodeUtf8From_inner (due : Nat) (bs : List UInt8) :
    decodeUtf8From (some { bits, due := due + 2, low, high }) (.ofNat (n + 0x80) :: bs) =
      decodeUtf8From (some { bits := bits * 0x40 + n, due := due + 1 }) bs := by
  rw [decodeUtf8From_cons, nextByte_some hn hlow hhigh, if_neg (by omega)]
  rfl

end Continued

section Encoded

variable {v : Nat} (bs : List UInt8)

theorem decodeUtf8From_one (h : v < 0x80) :
    decodeUtf8From none (.ofNat v :: bs) = Char.ofNat v :: decodeUtf8From none bs := by
  have hbyte : (UInt8.ofNat v).toNat = v := UInt8.toNat_ofNat_of_lt' (show v < 256 by omega)
  have hlt : UInt8.ofNat v < 0x80 := by
    rw [UInt8.lt_iff_toNat_lt, hbyte]
    exact h
  rw [decodeUtf8From_cons, nextByte, firstByte, if_pos hlt, hbyte]
  rfl

theorem decodeUtf8From_two (h : 0x80 ≤ v) (h' : v < 0x800) :
    decodeUtf8From none (.ofNat (v / 64 % 32 + 0xC0) :: .ofNat (v % 64 + 0x80) :: bs) =
      Char.ofNat v :: decodeUtf8From none bs := by
  have hbits : v / 64 % 32 * 0x40 + v % 64 = v := by omega
  rw [decodeUtf8From_cons, nextByte, firstByte_of_two _ (by omega) (by omega), List.nil_append,
    decodeUtf8From_last (by omega) (by simp) (by simp; omega), hbits]

/-- The second byte is above those of overlong forms and below those of surrogates. -/
theorem decodeUtf8From_three (h : 0x800 ≤ v) (h' : v < 0x10000)
    (hvalid : v < 0xD800 ∨ 0xDFFF < v) :
    decodeUtf8From none (.ofNat (v / 4096 % 16 + 0xE0) :: .ofNat (v / 64 % 64 + 0x80) ::
      .ofNat (v % 64 + 0x80) :: bs) = Char.ofNat v :: decodeUtf8From none bs := by
  have hlow : (if v / 4096 % 16 = 0 then 0xA0 else 0x80 : UInt8).toNat ≤ v / 64 % 64 + 0x80 := by
    split
    next => change 0xA0 ≤ _; omega
    next => change 0x80 ≤ _; omega
  have hhigh : v / 64 % 64 + 0x80 ≤ (if v / 4096 % 16 = 0xD then 0x9F else 0xBF : UInt8).toNat := by
    split
    next => change _ ≤ 0x9F; omega
    next => change _ ≤ 0xBF; omega
  have hbits : (v / 4096 % 16 * 0x40 + v / 64 % 64) * 0x40 + v % 64 = v := by omega
  rw [decodeUtf8From_cons, nextByte, firstByte_of_three _ (by omega), List.nil_append,
    decodeUtf8From_inner (by omega) hlow hhigh 0,
    decodeUtf8From_last (by omega) (by simp) (by simp; omega), hbits]

/-- The second byte is above those of overlong forms and below those of numbers beyond the last
    character. -/
theorem decodeUtf8From_four (h : 0x10000 ≤ v) (h' : v < 0x110000) :
    decodeUtf8From none (.ofNat (v / 262144 % 8 + 0xF0) :: .ofNat (v / 4096 % 64 + 0x80) ::
      .ofNat (v / 64 % 64 + 0x80) :: .ofNat (v % 64 + 0x80) :: bs) =
        Char.ofNat v :: decodeUtf8From none bs := by
  have hlow : (if v / 262144 % 8 = 0 then 0x90 else 0x80 : UInt8).toNat ≤
      v / 4096 % 64 + 0x80 := by
    split
    next => change 0x90 ≤ _; omega
    next => change 0x80 ≤ _; omega
  have hhigh : v / 4096 % 64 + 0x80 ≤
      (if v / 262144 % 8 = 4 then 0x8F else 0xBF : UInt8).toNat := by
    split
    next => change _ ≤ 0x8F; omega
    next => change _ ≤ 0xBF; omega
  have hbits : ((v / 262144 % 8 * 0x40 + v / 4096 % 64) * 0x40 + v / 64 % 64) * 0x40 + v % 64 =
      v := by omega
  rw [decodeUtf8From_cons, nextByte, firstByte_of_four _ (by omega), List.nil_append,
    decodeUtf8From_inner (by omega) hlow hhigh 1,
    decodeUtf8From_inner (by omega) (by simp) (by simp; omega) 0,
    decodeUtf8From_last (by omega) (by simp) (by simp; omega), hbits]

end Encoded

theorem decodeUtf8From_encodeChar (c : Char) (bs : List UInt8) :
    decodeUtf8From none (String.utf8EncodeChar c ++ bs) = c :: decodeUtf8From none bs := by
  have hvalid : c.val.toNat < 0xD800 ∨ 0xDFFF < c.val.toNat ∧ c.val.toNat < 0x110000 := c.valid
  have hchar : Char.ofNat c.val.toNat = c := Char.ofNat_toNat c
  rw [String.utf8EncodeChar]
  conv => rhs; rw [← hchar]
  generalize c.val.toNat = v at hvalid ⊢
  split
  next h => exact decodeUtf8From_one bs (by omega)
  split
  next h h' => exact decodeUtf8From_two bs (by omega) (by omega)
  split
  next h h' h'' => exact decodeUtf8From_three bs (by omega) (by omega) (hvalid.imp_right And.left)
  next h h' h'' => exact decodeUtf8From_four bs (by omega) (by omega)

/-- A text is decoded from its UTF-8 bytes. -/
theorem decodeUtf8_flatMap_encodeChar (chars : List Char) :
    decodeUtf8 (chars.flatMap String.utf8EncodeChar) = chars := by
  rw [decodeUtf8]
  induction chars with
  | nil => rfl
  | cons c chars ih => rw [List.flatMap_cons, decodeUtf8From_encodeChar, ih]

end ViewMaintenance.Text
