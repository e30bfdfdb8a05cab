namespace RefDoc.Text

inductive TerminalMode where
  | ground
  /-- Behind the escape character. -/
  | escape
  /-- In an escape sequence that waits for its final character. -/
  | escapeTail
  /-- In a control sequence. -/
  | sequence
  /-- At the head of a device control string. -/
  | device
  | deviceParameter
  | deviceTail
  /-- In a string that the string terminator ends. -/
  | string
  /-- In an operating system command, which the bell ends. -/
  | command
deriving DecidableEq, Repr

def isSpacing (c : Char) : Bool :=
  c = '\t' || c = '\n' || c = '\x0c' || c = '\r'

def isPlain (c : Char) : Bool :=
  isSpacing c || (' ' ≤ c && c ≠ '\x7f')

/-- The string terminator is a byte, and it counts also as a part of a character. -/
def endsString (c : Char) : Bool :=
  (String.utf8EncodeChar c).contains 0x9c

namespace TerminalMode

/-- The mode behind a character. The escape character begins a sequence in every mode, and two
characters cancel one. A character that has no meaning in a sequence leaves the mode as it is. -/
def after : TerminalMode → Char → TerminalMode
  | _, '\x1b' => .escape
  | _, '\x18' => .ground
  | _, '\x1a' => .ground
  | .ground, _ => .ground
  | .escape, '[' => .sequence
  | .escape, ']' => .command
  | .escape, 'P' => .device
  | .escape, 'X' => .string
  | .escape, '^' => .string
  | .escape, '_' => .string
  | .escape, c => if c < ' ' || '~' < c then .escape else if c < '0' then .escapeTail else .ground
  | .escapeTail, c => if '0' ≤ c && c ≤ '~' then .ground else .escapeTail
  | .sequence, c => if '@' ≤ c && c ≤ '~' then .ground else .sequence
  | .device, c =>
    if c < ' ' || '~' < c then .device
    else if c < '0' then .deviceTail
    else if c < '@' then .deviceParameter
    else .string
  | .deviceParameter, c =>
    if c < ' ' || '~' < c then .deviceParameter
    else if c < '0' then .deviceTail
    else if c < '<' then .deviceParameter
    else .string
  | .deviceTail, c => if '0' ≤ c && c ≤ '~' then .string else .deviceTail
  | .string, c => if endsString c then .ground else .string
  | .command, c => if c = '\x07' then .ground else .command

def shows : TerminalMode → Char → Bool
  | .ground, c => isPlain c
  | .escape, c => isSpacing c
  | .escapeTail, c => isSpacing c
  | .sequence, c => isSpacing c
  | _, _ => false

end TerminalMode

/-- What shows of a text from a mode on. Behind a character that shows, `running`, all that stands
for itself shows, up to the next character that does not; a sequence that white space broke off goes
on there, unless a character beyond ASCII has ended it. -/
def plainFrom (m : TerminalMode) (running : Bool) : List Char → List Char
  | [] => []
  | c :: cs =>
    if m.shows c || (running && isPlain c) then
      c :: plainFrom (if c ≤ '\x7f' then m else .ground) true cs
    else plainFrom (m.after c) false cs

/-- The text without the sequences by which a terminal can be controlled. -/
def plain (t : List Char) : List Char :=
  plainFrom .ground false t

/-- The text with the characters spelled out by which a terminal can be controlled. -/
def spelled (t : List Char) : List Char :=
  t.flatMap fun c =>
    if c = '\x1b' || c = '\x07' || c = '\x08' || c = '\x0c' || c = '\x7f' then
      ['\\', 'x'] ++ (if c < '\x10' then ['0'] else []) ++ Nat.toDigits 16 c.toNat
    else if '\x80' ≤ c && c ≤ '\u009f' then
      ['\\', 'u', '\x7b'] ++ Nat.toDigits 16 c.toNat ++ ['\x7d']
    else [c]

end RefDoc.Text
