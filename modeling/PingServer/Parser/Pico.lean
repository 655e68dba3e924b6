import Mathlib.Data.List.DropRight
import PingServer.Lib.Scanner
import PingServer.Protocol.Http

/-!
# The parser

`picohttpparser.c`. A place in the buffer is the list of the bytes from there to
`buf_end`, so the difference of two pointers is one of lengths. `*ret = -2` is
`more` and `*ret = -1` is `fail`; the store holds the out-parameters, which keep
what was written before an error.
-/

namespace PingServer.Pico

open ByteMem Scanner

variable {σ : Type}

abbrev CR : Byte := 0x0d
abbrev LF : Byte := 0x0a
abbrev SP : Byte := 0x20
abbrev HT : Byte := 0x09
abbrev DEL : Byte := 0x7f

/-- `IS_PRINTABLE_ASCII`, in `unsigned int`. -/
def isPrintableAscii (c : Byte) : Bool := (c.toNat + 2 ^ 32 - 0x20) % 2 ^ 32 < 0x5f

def isBlank (c : Byte) : Bool := c == SP || c == HT

def expectCharNoCheck (c : Byte) : Scan Byte σ Unit := do
  let b ← peek
  advance
  if b = c then pure () else fail

def expectChar (c : Byte) : Scan Byte σ Unit := do
  checkEof
  expectCharNoCheck c

/-! ## Looking ahead -/

/-- How the parser was compiled: with `__SSE4_2__` or without. -/
inductive Build where
  | portable | sse42
  deriving DecidableEq, Repr

/-- The pairs of bounds that `_mm_cmpestri` compares with. -/
abbrev Ranges := List (Byte × Byte)

def Ranges.has (ranges : Ranges) (c : Byte) : Bool :=
  ranges.any fun r => decide (r.1 ≤ c) && decide (c ≤ r.2)

/-- `_mm_cmpestri` on unsigned bytes: the first one that is in a range, or the length. -/
def cmpestri (ranges : Ranges) (b16 : List Byte) : Nat := b16.findIdx ranges.has

/-- The loop of `findchar_fast` over `n` blocks. -/
def findcharBlocks (ranges : Ranges) : (n : Nat) → Scan Byte σ Bool
  | 0 => pure false
  | n + 1 => do
    let b16 ← ahead 16
    if cmpestri ranges b16 ≠ 16 then do
      skip (cmpestri ranges b16)
      pure true
    else do
      skip 16
      findcharBlocks ranges n

def findcharFast (ranges : Ranges) : Build → Scan Byte σ Bool
  | .portable => pure false
  | .sse42 => do
    let buf ← here
    if 16 ≤ buf.length then findcharBlocks ranges (buf.length / 16) else pure false

def checkEofUnless (found : Bool) : Scan Byte σ Unit := if found then pure () else checkEof

/-- The shape of `ADVANCE_TOKEN` and `parse_token`. -/
def token (b : Build) (ranges : Ranges) (stop ok : Byte → Bool) : Scan Byte σ (List Byte) := do
  let tokStart ← here
  let found ← findcharFast ranges b
  checkEofUnless found
  loopUntil stop ok
  let buf ← here
  pure (upTo tokStart buf)

def ranges2 : Ranges := [(0x00, 0x20), (0x7f, 0x7f)]

def isPathChar (c : Byte) : Bool :=
  isPrintableAscii c || !(decide (c.toNat < 0x20) || c == DEL)

/-- `ADVANCE_TOKEN` -/
def advanceToken (b : Build) : Scan Byte σ (List Byte) := token b ranges2 (· == SP) isPathChar

/-! ## Lines -/

def ranges1 : Ranges := [(0x00, 0x08), (0x0a, 0x1f), (0x7f, 0x7f)]

/-- A byte that cannot be part of a line. -/
def isCtl (c : Byte) : Bool := decide (c.toNat < 0x20) && c != HT || c == DEL

/-- The unrolled loop, with `left` more `DOIT()` in its current round; whether it has found
a control character. -/
def eolUnrolled : (left : Nat) → Scan Byte σ Bool
  | 0, s, [] => .done false s []
  | _ + 1, _, [] => .overrun
  | left, s, c :: buf =>
    if left = 0 ∧ buf.length + 1 < 8 then .done false s (c :: buf)
    else if isPrintableAscii c then eolUnrolled ((if left = 0 then 8 else left) - 1) s buf
    else if isCtl c then .done true s (c :: buf)
    else eolUnrolled 0 s buf

def findCtl : Build → Scan Byte σ Bool
  | .portable => eolUnrolled 0
  | .sse42 => findcharFast ranges1 .sse42

/-- The last loop of `get_token_to_eol`. -/
def eolLoop : Scan Byte σ Unit :=
  scanUntil (fun c => !isPrintableAscii c && isCtl c) fun _ => true

def eolLoopUnless (found : Bool) : Scan Byte σ Unit := if found then pure () else eolLoop

/-- From the label `FOUND_CTL` on. -/
def foundCtl (tokenStart : List Byte) : Scan Byte σ (List Byte) := do
  let c ← peek
  if c = CR then do
    advance
    expectChar LF
    let buf ← here
    pure (tokenStart.take (tokenStart.length - buf.length - 2))
  else if c = LF then do
    let buf ← here
    advance
    pure (upTo tokenStart buf)
  else fail

def getTokenToEol (b : Build) : Scan Byte σ (List Byte) := do
  let tokenStart ← here
  let found ← findCtl b
  eolLoopUnless found
  foundCtl tokenStart

/-! ## Tokens -/

def tokenCharMap : List Nat :=
  List.replicate 32 0 ++
    [0, 1, 0, 1, 1, 1, 1, 1, 0, 0, 1, 1, 0, 1, 1, 0, 1, 1, 1, 1, 1, 1, 1, 1, 1, 1, 0, 0, 0, 0, 0, 0] ++
    [0, 1, 1, 1, 1, 1, 1, 1, 1, 1, 1, 1, 1, 1, 1, 1, 1, 1, 1, 1, 1, 1, 1, 1, 1, 1, 1, 0, 0, 0, 1, 1] ++
    [1, 1, 1, 1, 1, 1, 1, 1, 1, 1, 1, 1, 1, 1, 1, 1, 1, 1, 1, 1, 1, 1, 1, 1, 1, 1, 1, 0, 1, 0, 1, 0] ++
    List.replicate 32 0 ++ List.replicate 32 0 ++ List.replicate 32 0 ++ List.replicate 32 0

def isToken (c : Byte) : Bool := tokenCharMap.getD c.toNat 0 != 0

/-- `ranges` of `parse_token`. -/
def tokenRanges : Ranges :=
  [(0x00, 0x20), (0x22, 0x22), (0x28, 0x29), (0x2c, 0x2c), (0x2f, 0x2f), (0x3a, 0x40),
    (0x5b, 0x5d), (0x7b, 0xff)]

def parseToken (b : Build) (nextChar : Byte) : Scan Byte σ (List Byte) :=
  token b tokenRanges (· == nextChar) isToken

/-- `PARSE_INT`; `char` is signed. -/
def parseInt (mul : Int) : Scan Byte σ Int := do
  let c ← peek
  advance
  if c.toInt < 0x30 ∨ 0x39 < c.toInt then fail else pure (mul * (c.toInt - 0x30))

def parseHttpVersion : Scan Byte σ Int := do
  atLeast 9
  expectCharNoCheck (ch 'H')
  expectCharNoCheck (ch 'T')
  expectCharNoCheck (ch 'T')
  expectCharNoCheck (ch 'P')
  expectCharNoCheck (ch '/')
  expectCharNoCheck (ch '1')
  expectCharNoCheck (ch '.')
  parseInt 1

/-! ## Headers -/

/-- Read the line end, if one stands here. -/
def lineEnd : Scan Byte σ Bool := do
  let c ← peek
  if c = CR then do
    advance
    expectChar LF
    pure true
  else if c = LF then do
    advance
    pure true
  else pure false

/-- The name is empty for a line that begins with a blank, which only the first cannot. -/
def headerName (b : Build) : Scan Byte (List PhrHeader) (List Byte) := do
  let headers ← store
  let c ← peek
  if headers.length ≠ 0 ∧ isBlank c then pure []
  else do
    let name ← parseToken b (ch ':')
    if name = [] then fail
    else do
      advance
      scanUntil (fun c => !isBlank c) fun _ => true
      pure name

/-- Without the trailing blanks. -/
def trimEnd (value : List Byte) : List Byte := value.rdropWhile isBlank

def headerLine (b : Build) : Scan Byte (List PhrHeader) Unit := do
  let name ← headerName b
  let value ← getTokenToEol b
  update fun headers => headers ++ [⟨name, trimEnd value⟩]

def endOr (next : Scan Byte σ Unit) : Scan Byte σ Unit := do
  checkEof
  let ended ← lineEnd
  if ended then pure () else next

/-- `left` is `max_headers - *num_headers`. -/
def parseHeaders (b : Build) : (left : Nat) → Scan Byte (List PhrHeader) Unit
  | 0 => endOr fail
  | left + 1 => endOr do
    headerLine b
    parseHeaders b left

/-! ## Requests -/

/-- The out-parameters of `phr_parse_request`; `headers` are the first `*num_headers`. -/
structure RequestOut where
  method : List Byte
  path : List Byte
  minorVersion : Int
  headers : List PhrHeader
  deriving DecidableEq, Repr

/-- Go on behind this byte and the spaces after it. -/
def skipSpaces : Scan Byte σ Unit := do
  advance
  checkEof
  loopUntil (· != SP) fun _ => true

def requestLine (b : Build) : Scan Byte RequestOut Unit := do
  let method ← parseToken b SP
  update fun out => { out with method := method }
  skipSpaces
  let path ← advanceToken b
  update fun out => { out with path := path }
  skipSpaces
  if method = [] ∨ path = [] then fail
  else do
    let minorVersion ← parseHttpVersion
    update fun out => { out with minorVersion := minorVersion }
    let ended ← lineEnd
    if ended then pure () else fail

def parseRequest (b : Build) (maxHeaders : Nat) : Scan Byte RequestOut Unit := do
  checkEof
  let _ ← lineEnd
  requestLine b
  zoom RequestOut.headers (fun headers out => { out with headers := headers })
    (parseHeaders b maxHeaders)

/-! ## Responses -/

/-- The out-parameters of `phr_parse_response`. -/
structure ResponseOut where
  minorVersion : Int
  status : Int
  msg : List Byte
  headers : List PhrHeader
  deriving DecidableEq, Repr

/-- `PARSE_INT_3(status)`: every digit is added when it has been read. -/
def parseInt3 : Scan Byte ResponseOut Unit := do
  let res ← parseInt 100
  update fun out => { out with status := res }
  let res ← parseInt 10
  update fun out => { out with status := out.status + res }
  let res ← parseInt 1
  update fun out => { out with status := out.status + res }

/-- The message starts behind the spaces after the status. -/
def trimMessage : Scan Byte ResponseOut Unit := do
  let out ← store
  if out.msg = [] then pure ()
  else if out.msg.head? = some SP then
    update fun out => { out with msg := out.msg.dropWhile (· == SP) }
  else fail

def statusLine (b : Build) : Scan Byte ResponseOut Unit := do
  let minorVersion ← parseHttpVersion
  update fun out => { out with minorVersion := minorVersion }
  let c ← peek
  if c ≠ SP then fail
  else do
    skipSpaces
    atLeast 4
    parseInt3
    let msg ← getTokenToEol b
    update fun out => { out with msg := msg }
    trimMessage

def parseResponse (b : Build) (maxHeaders : Nat) : Scan Byte ResponseOut Unit := do
  statusLine b
  zoom ResponseOut.headers (fun headers out => { out with headers := headers })
    (parseHeaders b maxHeaders)

/-! ## Calls -/

/-- The loop of `is_complete`, behind `retCnt` line ends in a row. -/
def isCompleteLoop : (retCnt : Nat) → Scan Byte σ Unit
  | _, s, [] => .more s
  | retCnt, s, c :: buf =>
    if c = CR then
      match buf with
      | [] => .more s
      | d :: buf =>
        if d ≠ LF then .fail s
        else if retCnt + 1 = 2 then .done () s buf
        else isCompleteLoop (retCnt + 1) s buf
    else if c = LF then
      if retCnt + 1 = 2 then .done () s buf else isCompleteLoop (retCnt + 1) s buf
    else isCompleteLoop 0 s buf

/-- `buf + last_len - 3`, where `before` lies in front of the buffer. -/
def resumeAt (before buf : List Byte) (lastLen : Nat) : Option (List Byte) :=
  if lastLen < 3 then some buf
  else if lastLen - 3 ≤ buf.length then some (buf.drop (lastLen - 3))
  else if 2 ^ 64 - (lastLen - 3) ≤ before.length then
    some (before.drop (before.length - (2 ^ 64 - (lastLen - 3))) ++ buf)
  else none

def isComplete (before : List Byte) (lastLen : Nat) : Scan Byte σ Unit := fun s buf =>
  match resumeAt before buf lastLen with
  | some start => isCompleteLoop 0 s start
  | none => .overrun

/-- The check for a complete message that all calls start with. -/
def guarded (before : List Byte) (lastLen : Nat) (p : Scan Byte σ Unit) : Scan Byte σ Unit :=
  fun s buf =>
    if lastLen = 0 then p s buf
    else
      match isComplete before lastLen s buf with
      | .done _ _ _ => p s buf
      | .more s => .more s
      | .fail s => .fail s
      | .overrun => .overrun

/-- What a call returns and stores. -/
structure Result (σ : Type) where
  ret : Int
  out : σ
  deriving DecidableEq, Repr

/-- There is none when the parser reads outside the buffer. -/
def Result.ofOutcome (buf : List Byte) : Outcome Byte σ Unit → Option (Result σ)
  | .done _ out rest => some ⟨int32 ((buf.length : Int) - rest.length), out⟩
  | .more out => some ⟨-2, out⟩
  | .fail out => some ⟨-1, out⟩
  | .overrun => none

/-- The shape of the three calls; `start` is what they store first. -/
def call (p : Scan Byte σ Unit) (start : σ) (before buf : List Byte) (lastLen : Nat) :
    Option (Result σ) :=
  Result.ofOutcome buf (guarded before lastLen p start buf)

def RequestOut.reset : RequestOut := ⟨[], [], -1, []⟩

def ResponseOut.reset : ResponseOut := ⟨-1, 0, [], []⟩

def phrParseRequest (b : Build) (maxHeaders : Nat) (before buf : List Byte) (lastLen : Nat) :
    Option (Result RequestOut) :=
  call (parseRequest b maxHeaders) .reset before buf lastLen

def phrParseResponse (b : Build) (maxHeaders : Nat) (before buf : List Byte) (lastLen : Nat) :
    Option (Result ResponseOut) :=
  call (parseResponse b maxHeaders) .reset before buf lastLen

def phrParseHeaders (b : Build) (maxHeaders : Nat) (before buf : List Byte) (lastLen : Nat) :
    Option (Result (List PhrHeader)) :=
  call (parseHeaders b maxHeaders) [] before buf lastLen

end PingServer.Pico
