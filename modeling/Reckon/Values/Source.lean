import Reckon.Values.Error

/-!
# Sources of values

A source delivers bytes in chunks, and may fail after the last of them. Its lines end at a line
feed, and a carriage return directly before that belongs to the end of the line, too. Reading goes
on until a line is not UTF-8 or the source fails, which loses the line that has been begun.

`Assembly` puts lines together one byte at a time, so where the chunks are cut makes no difference.
-/

namespace Reckon.Values

/-- A source of values. -/
structure Source where
  /-- The bytes, as they are delivered. -/
  chunks : List ByteArray
  /-- Why the source fails after its last chunk, if it does. -/
  failure : Option String := none

/-- The source that delivers some bytes at once. -/
def Source.ofBytes (bytes : ByteArray) : Source :=
  { chunks := [bytes] }

/-- The source that delivers a text at once. -/
def Source.ofText (text : String) : Source :=
  .ofBytes text.toUTF8

/-- Lines on their way from bytes. -/
structure Assembly where
  /-- The lines that have ended, without what ends them. -/
  lines : Array ByteArray := #[]
  /-- The line that has begun. -/
  begun : ByteArray := .empty

namespace Assembly

/-- A line without the carriage return at its end. -/
def dropReturn (line : ByteArray) : ByteArray :=
  if line.data.back? = some 13 then ⟨line.data.pop⟩ else line

/-- Takes in one byte. -/
def push (a : Assembly) (byte : UInt8) : Assembly :=
  if byte = 10 then { lines := a.lines.push (dropReturn a.begun) }
  else { a with begun := a.begun.push byte }

/-- Takes in a chunk of bytes. -/
def pushChunk (a : Assembly) (chunk : ByteArray) : Assembly :=
  chunk.data.foldl push a

/-- The lines at the end of the bytes: one that was not ended counts if it has any bytes. -/
def finish (a : Assembly) : Array ByteArray :=
  if a.begun.isEmpty then a.lines else a.lines.push a.begun

/-- Where bytes are cut into chunks makes no difference. -/
theorem pushChunk_append (a : Assembly) (c d : ByteArray) :
    a.pushChunk (c ++ d) = (a.pushChunk c).pushChunk d := by
  simp [pushChunk, ByteArray.data_append]

end Assembly

/-- What can be read of a source. -/
structure Reading where
  /-- The lines, as far as the source can be read. -/
  lines : List String
  /-- Why the line after them cannot be read, if the source does not end there. -/
  fault : Option ReadFault

namespace Reading

/-- The lines before the first that is not UTF-8, with the fault that ends them all otherwise. -/
def ofLines (found : Array String) (last : Option ReadFault) : List ByteArray → Reading
  | [] => ⟨found.toList, last⟩
  | line :: lines =>
    match String.fromUTF8? line with
    | some text => ofLines (found.push text) last lines
    | none => ⟨found.toList, some .notUtf8⟩

end Reading

/-- Reads a source to its end, or as far as it can be read. -/
def Source.read (source : Source) : Reading :=
  let assembly := source.chunks.foldl Assembly.pushChunk {}
  match source.failure with
  | none => .ofLines #[] none assembly.finish.toList
  | some reason => .ofLines #[] (some (.failed reason)) assembly.lines.toList

end Reckon.Values
