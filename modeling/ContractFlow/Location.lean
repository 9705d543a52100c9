import ContractFlow.Data.Form

/-!
This module contains source locations and the conversion of byte offsets into lines and columns.
-/

namespace ContractFlow

/--
A range of source text. Lines and columns start at 1, and are 0 where the source text is not known.
-/
structure Location where
  file : String := ""
  startLine : Int := 0
  endLine : Int := 0
  startCol : Int := 0
  endCol : Int := 0
  offset : Int := 0
  length : Int := 0
deriving Inhabited, DecidableEq

namespace Location

def text (l : Location) : String :=
  let file := if l.file.isEmpty then "<unknown>" else l.file
  s!"{file}:{l.startLine}:{l.startCol}"

open Form in
def items : List (Item Location) :=
  [.of "file_path" readText fun l x => { l with file := x },
   .of "start_line" readInt fun l x => { l with startLine := x },
   .of "end_line" readInt fun l x => { l with endLine := x },
   .of "start_col" readInt fun l x => { l with startCol := x },
   .of "end_col" readInt fun l x => { l with endCol := x },
   .of "offset" readInt fun l x => { l with offset := x },
   .of "length" readInt fun l x => { l with length := x }]

def read (named : Fields) : Except (List Complaint) Location :=
  Form.check (Form.fill items (Fields.get? named) {})

def toValue (l : Location) : Value :=
  .object
    [("file_path", .text l.file), ("start_line", .int l.startLine), ("end_line", .int l.endLine),
     ("start_col", .int l.startCol), ("end_col", .int l.endCol), ("offset", .int l.offset),
     ("length", .int l.length)]

end Location

namespace SourceText

def bytes (text : List Char) : List UInt8 :=
  text.flatMap String.utf8EncodeChar

/-- The offsets in bytes at which the lines of a text start. -/
def lineStarts (text : List Char) : List Nat :=
  0 :: go (bytes text) 0
where
  go : List UInt8 → Nat → List Nat
    | [], _ => []
    | b :: bs, offset => if b = 0x0a then (offset + 1) :: go bs (offset + 1) else go bs (offset + 1)

/-- Where the entries above `x` start in a sorted table, searched for from `lo` to `hi`. -/
def bisectRight (table : Array Nat) (x lo hi : Nat) : Nat :=
  if lo < hi then
    let mid := (lo + hi) / 2
    if x < table.getD mid 0 then bisectRight table x lo mid else bisectRight table x (mid + 1) hi
  else lo
termination_by hi - lo

/-- The ranges in which the bytes behind the first byte of a character lie. -/
def continuations (first : UInt8) : List (UInt8 × UInt8) :=
  if first < 0xc2 then []
  else if first < 0xe0 then [(0x80, 0xbf)]
  else if first < 0xf0 then
    [(if first = 0xe0 then 0xa0 else 0x80, if first = 0xed then 0x9f else 0xbf), (0x80, 0xbf)]
  else if first < 0xf5 then
    [(if first = 0xf0 then 0x90 else 0x80, if first = 0xf4 then 0x8f else 0xbf), (0x80, 0xbf), (0x80, 0xbf)]
  else []

/-- The number of bytes from `i` on that start a character, where no whole one stands. -/
def brokenSize (bs : ByteArray) (i : Nat) : Nat :=
  1 + go (continuations (bs.get! i)) (i + 1)
where
  go : List (UInt8 × UInt8) → Nat → Nat
    | [], _ => 0
    | (low, high) :: ranges, i =>
      if i < bs.size && low ≤ bs.get! i && bs.get! i ≤ high then go ranges (i + 1) + 1 else 0

/-- The characters from the byte `i` on. The start of a character that is cut off or broken counts as one. -/
def decode (bs : ByteArray) (i : Nat) : List Char :=
  if i < bs.size then
    match bs.utf8DecodeChar? i with
    | some c => c :: decode bs (i + c.utf8Size)
    | none => '\uFFFD' :: decode bs (i + brokenSize bs i)
  else []
termination_by bs.size - i
decreasing_by
  · have := c.utf8Size_pos
    omega
  · unfold brokenSize
    omega

/--
The line and the column at which a byte offset falls, both counted from 1. The column counts
characters; a character that the offset cuts counts as one.
-/
def position (text : List Char) (offset : Nat) : Nat × Nat :=
  let starts := (lineStarts text).toArray
  let index := bisectRight starts offset 0 starts.size - 1
  let start := starts.getD index 0
  let front := ((bytes text).drop start).take (offset - start)
  (index + 1, (decode front.toByteArray 0).length + 1)

end SourceText

end ContractFlow
