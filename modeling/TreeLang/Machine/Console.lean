import TreeLang.Format.Render
import TreeLang.Machine.Value
import TreeLang.Scan

namespace TreeLang.Machine

structure Host where
  /-- Where a string lies. -/
  address : Stored → UInt64
  /-- Whether the output fails on bytes, by what was written before them, and how many of them it
  takes then. -/
  fails? : List (List UInt8) → List UInt8 → Option Nat

/-- An output that takes everything. A hash tells the strings apart, and none lies at 0. -/
def Host.steady : Host := ⟨fun text => hash text ||| 1, fun _ _ => none⟩

/-- The input and output of a running program. Input is read by lines, output is a run of bytes. A line
that is no well-formed text is read as an empty one. Memory is without end, so every line and every text
that is printed fits in it. -/
structure Console where
  host : Host
  /-- What has not been read yet. -/
  unread : List UInt8
  /-- How many lines have been asked for. -/
  lines : Nat
  /-- The pieces written so far, the last one first. -/
  written : List (List UInt8)

namespace Console

def ofBytes (input : List UInt8) : Console := ⟨.steady, input, 0, []⟩

def ofInput (input : List Char) : Console := ofBytes (Text.encode input)

instance : Coe (List Char) Console := ⟨ofInput⟩

def input (c : Console) : List Char := Text.decodeLossy c.unread

def output (c : Console) : List UInt8 := c.written.reverse.flatten

/-- The first line with its line feed, and what is behind it. -/
def splitLine : List UInt8 → List UInt8 × List UInt8
  | [] => ([], [])
  | b :: bs =>
    if b = 0x0a then ([b], bs)
    else
      let (line, rest) := splitLine bs
      (b :: line, rest)

/-- Drops the line feeds and carriage returns that end the line. -/
def chomp (line : List Char) : List Char :=
  (line.reverse.dropWhile fun c => c == '\n' || c == '\r').reverse

/-- The next line without its end, empty at the end of the input. A line that is no text is used up
all the same. -/
def readLine (c : Console) : List Char × Console :=
  let (line, rest) := splitLine c.unread
  (chomp ((Text.decode? line).getD []), { c with unread := rest, lines := c.lines + 1 })

/-- Writes the bytes and counts them, as far as a word can; the count is -1 where the output fails. -/
def write (c : Console) (bytes : List UInt8) : Int32 × Console :=
  match c.host.fails? c.written bytes with
  | none => (Int32.ofNat (min bytes.length 0x7fffffff), { c with written := bytes :: c.written })
  | some taken => (-1, { c with written := bytes.take taken :: c.written })

def text (c : Console) : String :=
  String.ofList (Text.decodeLossy c.output)

end Console

end TreeLang.Machine
