/-!
# Text in bytes

Bytes are text when they are valid UTF-8; validity is the standard library's.
-/
namespace Introspect
namespace Text

def ofUtf8? (bytes : List UInt8) : Option String := String.fromUTF8? ⟨bytes.toArray⟩

def toUtf8 (text : String) : List UInt8 := text.toUTF8.data.toList

end Text
end Introspect
