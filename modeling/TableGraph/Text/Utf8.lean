/-!
# UTF-8

The bytes of a text and the text of bytes. Only bytes that are valid UTF-8 have a text. Bytes may also
be looked at one by one, each as the character that has its number.
-/

namespace TableGraph.Text

/-- The bytes of a text. -/
def utf8 (s : String) : List UInt8 := s.toUTF8.data.toList

/-- The text of bytes that are valid UTF-8. -/
def ofUtf8? (bytes : List UInt8) : Option String := String.fromUTF8? ⟨bytes.toArray⟩

/-- The bytes as characters, one for each byte. -/
def byteChars (bytes : List UInt8) : List Char := bytes.map Char.ofUInt8

/-- The text of the bytes that are looked at as characters. -/
def ofByteChars? (cs : List Char) : Option String := ofUtf8? (cs.map Char.toUInt8)

end TableGraph.Text
