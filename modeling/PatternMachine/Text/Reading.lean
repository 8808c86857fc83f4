import PatternMachine.Text.Lines

/-!
# Reading a text file

A text file is UTF-8.  It is read in blocks of a fixed size, and a line can be used as soon as it has ended in the
blocks read so far, so a file that is no text may still have lines in front of the place where this shows.  It shows
when a block holds bytes that begin no character, or when the file ends within a character: the bytes of a
character that a block breaks off wait for the next block.

Main definition: `Text.read`, all lines of a file that is text, and those that can be used of one that is not.
-/

namespace PatternMachine.Text

/-- The number of bytes of a character that begins with the byte `b`; none begins with it, if the number is `0`. -/
def announcedBytes (b : UInt8) : Nat :=
  if b < 0x80 then 1
  else if b < 0xc2 then 0
  else if b < 0xe0 then 2
  else if b < 0xf0 then 3
  else if b < 0xf5 then 4
  else 0

/-- Whether the second byte of a character may be `b` if the first one is `a`: the code point is then neither too
small for so many bytes nor too large.  That it is no surrogate is left to the third byte. -/
def maySecond (a b : UInt8) : Bool :=
  (if a = 0xe0 then 0xa0 else if a = 0xf0 then 0x90 else 0x80) ≤ b && b ≤ (if a = 0xf4 then 0x8f else 0xbf)

/-- Whether the bytes at the end of a block can wait for the next one: there are none, or they are the beginning of
a character. -/
def canWait : List UInt8 → Bool
  | [] => true
  | [a] => 1 < announcedBytes a
  | [a, b] => 2 < announcedBytes a && maySecond a b
  | [a, b, c] => 3 < announcedBytes a && maySecond a b && 0x80 ≤ c && c ≤ 0xbf
  | _ => false

/-- Decodes the characters of a block from the byte `i` on, as far as there are any, and adds them to `done`, latest
first; with the number of bytes decoded. -/
def decodeBlock (block : ByteArray) (i : Nat) (done : List Char) : List Char × Nat :=
  if i < block.size then
    match block.utf8DecodeChar? i with
    | some c => decodeBlock block (i + c.utf8Size) (c :: done)
    | none => (done, i)
  else (done, i)
termination_by block.size - i
decreasing_by
  have := c.utf8Size_pos
  omega

def blockSize : Nat := 8192

/-- The characters of a file, latest first, up to the block in which it turns out to be no text.  Those before the
byte `start` are `done`, and the current block ends before `stop`. -/
def decodeBlocks (bytes : ByteArray) (start stop : Nat) (done : List Char) : List Char :=
  let block := bytes.extract start stop
  let (read, used) := decodeBlock block 0 done
  if canWait (block.extract used block.size).toList then
    if stop < bytes.size then decodeBlocks bytes (start + used) (stop + blockSize) read else read
  else done
termination_by bytes.size - stop
decreasing_by
  simp only [blockSize]
  omega

/-- What can be read of a file. -/
structure Reading where
  /-- The lines that can be used, without their terminators. -/
  lines : List String
  /-- Whether the whole file is text. -/
  isText : Bool

/-- Reads a file.  A byte order mark is a character like any other. -/
def read (bytes : ByteArray) : Reading :=
  match String.fromUTF8? bytes with
  | some text => { lines := lines text, isText := true }
  | none => { lines := endedLines (decodeBlocks bytes 0 blockSize []), isText := false }

end PatternMachine.Text
