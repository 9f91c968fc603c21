import MipsElfExec.Download.Info

/-! The response head: status line and header lines, read from the NUL-terminated
text at buf_data. A pointer into the text is the suffix it points at. The version
numbers and the echoed header values are only logged, so they are not kept. -/
namespace MipsElfExec.Download
open CString

def Info.terminate (info : Info) : Info := { info with buf := info.buf.set info.bufTail 0 }

def Info.text (info : Info) : Bytes := cstr (info.buf.drop info.bufData)

def httpDlCheckStatusCode (statusCode : Int) : Ret :=
  if statusCode = 200 ∨ statusCode = 206 then .ok else .invalid

def digit (b : Byte) : Int := b.toNat - 48

structure StatusLine where
  statusCode : Int
  errMsg : Bytes
  advance : Nat
  ret : Ret
  deriving DecidableEq, Repr

def StatusLine.reject (statusCode : Int) (advance : Nat) (text : String) : StatusLine :=
  ⟨statusCode,ascii text,advance,.http⟩

def parseStatusCode (p : Bytes) (start lineEnd : Nat) : StatusLine :=
  match p with
  | a :: b :: c :: p =>
    if isdigit a && isdigit b && isdigit c then
      let statusCode := 100 * digit a + 10 * digit b + digit c
      if p.head? ≠ some 32 then
        .reject statusCode (start + 3) "Invalid status line: get reason phrase failed."
      else
        let reason := (p.drop 1).take (lineEnd - (start + 4))
        let errMsg := reason.take (httpDlBufLen - 1)
        if httpDlCheckStatusCode statusCode ≠ .ok then ⟨statusCode,errMsg,start + 4,.http⟩
        else ⟨statusCode,errMsg,lineEnd + 2,.ok⟩
    else .reject (-1) start "Invalid status line: get status code failed."
  | _ => .reject (-1) start "Invalid status line: get status code failed."

def parseStatusLine (text : Bytes) (lineEnd : Nat) : StatusLine :=
  if ¬ (ascii "HTTP/").isPrefixOf text then
    .reject (-1) 0 "Invalid status line: not begin with \"HTTP/\"."
  else
    let major := text.drop 5
    let p := major.dropWhile isdigit
    if p.head? ≠ some 46 ∨ p = major then
      .reject (-1) 5 "Invalid status line: get major HTTP version failed."
    else
      let minor := p.drop 1
      let p := minor.dropWhile isdigit
      if p.head? ≠ some 32 ∨ p = minor then
        .reject (-1) (text.length - minor.length) "Invalid status line: get minor HTTP version failed."
      else parseStatusCode (p.drop 1) (text.length - (p.drop 1).length) lineEnd

def Info.takeStatus (info : Info) (line : StatusLine) : Info :=
  { info with
      statusCode := line.statusCode
      errMsg := line.errMsg
      bufData := info.bufData + line.advance
      stage := if line.ret = .ok then .parseHeader else info.stage }

def httpDlParseStatusLine (info : Info) : Info × Ret :=
  if info.stage ≠ .parseStatusLine then (info,.internal)
  else
    let info := info.terminate
    match strstr info.text crlf with
    | none => (info,.ok)
    | some lineEnd =>
      let line := parseStatusLine info.text lineEnd
      let info := info.takeStatus line
      if line.ret ≠ .ok then (info,line.ret)
      else (info,if info.bufData < info.bufTail then .again else .ok)

def isLws (b : Byte) : Bool := b == 32 || b == 9

def number (p : Bytes) : Int := (p.takeWhile isdigit).foldl (fun n b => long (10 * n + digit b)) 0

def httpDlHeaderExtractLongNum (val : Bytes) : Option Int :=
  if (val.dropWhile isdigit).head? = some 13 then some (number val) else none

def httpDlHeaderDupStrToBuf (val : Bytes) : Option Bytes :=
  match strstr val crlf with
  | none => none
  | some len => if len = 0 then none else some ((val.take len).take (httpDlBufLen - 1))

def httpDlStrncasecmp : Bytes → Bytes → Bool
  | _,[] => true
  | [],_ :: _ => false
  | a :: s,b :: t => tolower a == tolower b && httpDlStrncasecmp s t

structure Range where
  firstBytePos : Int
  lastBytePos : Int
  entityLength : Int
  deriving DecidableEq, Repr

def startsDigit (p : Bytes) : Bool := p.head?.any isdigit

def httpDlHeaderParseRange (hdr : Bytes) : Option Range :=
  let hdr := if httpDlStrncasecmp hdr (ascii "bytes") then (hdr.drop 5).dropWhile isLws else hdr
  if ¬ startsDigit hdr then none
  else
    let p := hdr.dropWhile isdigit
    if p.head? ≠ some 45 ∨ ¬ startsDigit (p.drop 1) then none
    else
      let q := (p.drop 1).dropWhile isdigit
      if q.head? ≠ some 47 ∨ ¬ startsDigit (q.drop 1) then none
      else some ⟨number hdr,number (p.drop 1),number (q.drop 1)⟩

inductive Processed (α : Type) where
  | ok (value : α) | invalid | notfound
  deriving DecidableEq, Repr

def matchName : Bytes → Bytes → Option Bytes
  | [],header => some header
  | _ :: _,[] => none
  | n :: name,h :: header => if tolower n = tolower h then matchName name header else none

def httpDlHeaderProcess {α : Type} (header name : Bytes) (procfun : Bytes → Option α) : Processed α :=
  match matchName name header with
  | some (58 :: rest) =>
    match procfun (rest.dropWhile isLws) with
    | some value => .ok value
    | none => .invalid
  | _ => .notfound

def Info.takeContentLen (info : Info) : Info :=
  if info.restartLen = 0 ∧ info.totalLen = 0 then { info with totalLen := info.contentLen } else info

def Info.takeRange (info : Info) (range : Range) : Info :=
  if info.restartLen ≠ range.firstBytePos then info else { info with totalLen := range.entityLength }

def httpDlHeaderLine (info : Info) (header : Bytes) : Info :=
  match httpDlHeaderProcess header (ascii "Content-Length") httpDlHeaderExtractLongNum with
  | .ok value => ({ info with contentLen := value }).takeContentLen
  | .invalid => info.takeContentLen
  | .notfound =>
  match httpDlHeaderProcess header (ascii "Content-Type") httpDlHeaderDupStrToBuf with
  | .ok _ | .invalid => info
  | .notfound =>
  match httpDlHeaderProcess header (ascii "Accept-Ranges") httpDlHeaderDupStrToBuf with
  | .ok _ | .invalid => info
  | .notfound =>
  match httpDlHeaderProcess header (ascii "Content-Range") httpDlHeaderParseRange with
  | .ok range => info.takeRange range
  | .invalid | .notfound => info

def httpDlHeaderLines : Nat → Info → Info × Ret
  | 0,info => (info,.ok)
  | fuel + 1,info =>
    match strstr info.text crlf with
    | none => (info,.ok)
    | some 0 => ({ info with stage := .recvContent,bufData := info.bufData + 2 },.again)
    | some lineEnd =>
      let info' := httpDlHeaderLine info info.text
      httpDlHeaderLines fuel { info' with bufData := info'.bufData + lineEnd + 2 }

def httpDlParseHeader (info : Info) : Info × Ret :=
  if info.stage ≠ .parseHeader then (info,.internal)
  else
    let info := info.terminate
    httpDlHeaderLines info.buf.length info

end MipsElfExec.Download
