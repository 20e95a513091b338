/-!
Texts as bytes. UTF-8 is the encoding of every text that is written; a text that
is read may also come in UTF-16 or UTF-32, which its first bytes give away.
-/

namespace Typings.Text

/-- The encodings a text may come in. -/
inductive Encoding where
  | utf8
  | utf16 (bigEndian : Bool)
  | utf32 (bigEndian : Bool)
  deriving DecidableEq, Repr

def toBytes (s : String) : List UInt8 :=
  s.toUTF8.data.toList

def ofBytes? (bytes : List UInt8) : Option String :=
  String.fromUTF8? (ByteArray.mk bytes.toArray)

/-- The encoding that the first bytes give away, and the bytes behind a
byte order mark. Without a mark the zero bytes around the first, always
ASCII, character tell. -/
def detectEncoding (bytes : List UInt8) : Encoding × List UInt8 :=
  match bytes with
  | 0x00 :: 0x00 :: 0xFE :: 0xFF :: rest => (.utf32 true, rest)
  | 0xFF :: 0xFE :: 0x00 :: 0x00 :: rest => (.utf32 false, rest)
  | 0xFE :: 0xFF :: rest => (.utf16 true, rest)
  | 0xFF :: 0xFE :: rest => (.utf16 false, rest)
  | 0xEF :: 0xBB :: 0xBF :: rest => (.utf8, rest)
  | a :: b :: c :: d :: _ =>
    if a = 0 then (if b = 0 then .utf32 true else .utf16 true, bytes)
    else if b = 0 then
      (if c = 0 ∧ d = 0 then .utf32 false else .utf16 false, bytes)
    else (.utf8, bytes)
  | [a, b] => (if a = 0 then .utf16 true else if b = 0 then .utf16 false
    else .utf8, bytes)
  | _ => (.utf8, bytes)

/-- Code points with halves of surrogate pairs among them, put together to
characters. A half that stands alone becomes the replacement character. -/
def joinSurrogates : List Nat → List Char
  | [] => []
  | high :: low :: rest =>
    if 0xD800 ≤ high ∧ high < 0xDC00 ∧ 0xDC00 ≤ low ∧ low < 0xE000 then
      Char.ofNat (0x10000 + (high - 0xD800) * 0x400 + (low - 0xDC00)) ::
        joinSurrogates rest
    else if 0xD800 ≤ high ∧ high < 0xE000 then
      '�' :: joinSurrogates (low :: rest)
    else Char.ofNat high :: joinSurrogates (low :: rest)
  | [unit] => [if 0xD800 ≤ unit ∧ unit < 0xE000 then '�' else Char.ofNat unit]

/-- Does the byte carry on a character of UTF-8? -/
def isContinuation (b : UInt8) : Bool :=
  0x80 ≤ b && b < 0xC0

/-- The six bits that a byte adds to a character of UTF-8. -/
def continuationBits (b : UInt8) : Nat :=
  b.toNat % 0x40

/-- The code points of a row of bytes in UTF-8, each in its shortest form.
Halves of surrogate pairs may stand among them. -/
def units8? : List UInt8 → Option (List Nat)
  | [] => some []
  | a :: rest =>
    if a < 0x80 then (units8? rest).map (a.toNat :: ·)
    else match rest with
      | [] => none
      | b :: rest =>
        if !isContinuation b then none
        else if 0xC2 ≤ a && a < 0xE0 then
          (units8? rest).map ((a.toNat % 0x20 * 0x40 + continuationBits b) :: ·)
        else match rest with
          | [] => none
          | c :: rest =>
            let three := (a.toNat % 0x10 * 0x40 + continuationBits b) * 0x40 +
              continuationBits c
            if !isContinuation c then none
            else if 0xE0 ≤ a && a < 0xF0 then
              if 0x800 ≤ three then (units8? rest).map (three :: ·) else none
            else match rest with
              | [] => none
              | d :: rest =>
                let four := three * 0x40 + continuationBits d
                if isContinuation d && 0xF0 ≤ a && a < 0xF5 && 0x10000 ≤ four &&
                  four < 0x110000 then
                  (units8? rest).map (four :: ·)
                else none

/-- The 16-bit units of a row of bytes. -/
def units16? (bigEndian : Bool) : List UInt8 → Option (List Nat)
  | [] => some []
  | [_] => none
  | a :: b :: rest =>
    (units16? bigEndian rest).map
      ((if bigEndian then a.toNat * 0x100 + b.toNat else b.toNat * 0x100 +
        a.toNat) :: ·)

/-- The 32-bit code points of a row of bytes. -/
def units32? (bigEndian : Bool) : List UInt8 → Option (List Nat)
  | [] => some []
  | a :: b :: c :: d :: rest =>
    let unit :=
      if bigEndian then
        ((a.toNat * 0x100 + b.toNat) * 0x100 + c.toNat) * 0x100 + d.toNat
      else ((d.toNat * 0x100 + c.toNat) * 0x100 + b.toNat) * 0x100 + a.toNat
    if unit < 0x110000 then (units32? bigEndian rest).map (unit :: ·) else none
  | _ => none

/-- The text of bytes in the encoding that they give away. In any of them
halves of surrogate pairs may stand apart; only UTF-8 without such halves
is read in one go. -/
def decode? (bytes : List UInt8) : Option String :=
  match detectEncoding bytes with
  | (.utf8, rest) =>
      ofBytes? rest <|> (units8? rest).map (String.ofList ∘ joinSurrogates)
  | (.utf16 bigEndian, rest) =>
      (units16? bigEndian rest).map (String.ofList ∘ joinSurrogates)
  | (.utf32 bigEndian, rest) =>
      (units32? bigEndian rest).map (String.ofList ∘ joinSurrogates)

/-- A text survives being written and read. -/
theorem ofBytes?_toBytes (s : String) : ofBytes? (toBytes s) = some s := by
  simp only [ofBytes?, toBytes, Array.toArray_toList]
  simp [String.fromUTF8?]
  exact ⟨s.isValidUTF8, rfl⟩

end Typings.Text
