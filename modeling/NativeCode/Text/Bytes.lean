/-!
# Text as bytes

Output is counted, cut and filled up in bytes. A text stands for the bytes of its UTF-8 encoding.
-/

namespace NativeCode

abbrev Bytes := List UInt8

namespace Bytes

def ofChars (cs : List Char) : Bytes := cs.flatMap String.utf8EncodeChar

def ofString (text : String) : Bytes := ofChars text.toList

/-- The character that stands for a byte which no text has. -/
def replacement : Char := '\uFFFD'

/-- The text of bytes. Where they are no encoding of a text, a replacement stands for every byte
outside ASCII. -/
def toText (bs : Bytes) : String :=
  match String.fromUTF8? bs.toByteArray with
  | some text => text
  | none =>
    String.ofList (bs.map fun b => if b < 128 then Char.ofUInt8 b else replacement)

end Bytes

end NativeCode
