import MipsElfExec.Lib.CString

/-! The task record of http_download, its read buffer and its local file. The
buffer is the array with the guard word after it; buf_data and buf_tail are offsets
into it. The elapsed-time fields and the list link are not part of this record. -/
namespace MipsElfExec.Download
open CString

def httpDlReadbufLen : Nat := 4096
def httpDlBufLen : Nat := 128

inductive Stage where
  | init | sendRequest | parseStatusLine | parseHeader | recvContent | finish
  deriving DecidableEq, Repr

inductive Ret where
  | ok | invalid | internal | fopen | fsync | write | read | again | notfound | http
  deriving DecidableEq, Repr

/-- A `long` of the 32-bit target, and an `int`. -/
def long (n : Int) : Int := n.bmod 4294967296

structure Info where
  stage : Stage
  genuineAgent : Bool
  restartFile : Bool
  host : Bytes
  path : Bytes
  port : Nat
  sockfd : Int
  filefd : Int
  buf : Bytes
  bufData : Nat
  bufTail : Nat
  recvLen : Int
  contentLen : Int
  restartLen : Int
  totalLen : Int
  statusCode : Int
  errMsg : Bytes
  deriving DecidableEq, Repr

structure File where
  content : Bytes
  append : Bool
  pos : Nat
  deriving DecidableEq, Repr

def File.write (f : File) (bs : Bytes) : File :=
  if f.append then ⟨f.content ++ bs,true,f.content.length + bs.length⟩
  else ⟨f.content.take f.pos ++ bs ++ f.content.drop (f.pos + bs.length),false,f.pos + bs.length⟩

def File.AtEnd (f : File) : Prop := f.append = true ∨ f.pos = f.content.length

theorem writeAtEnd {f : File} (h : f.AtEnd) (bs : Bytes) :
    (f.write bs).content = f.content ++ bs ∧ (f.write bs).AtEnd := by
  unfold File.write
  split
  · exact ⟨rfl,Or.inl rfl⟩
  · rename_i plain
    have pos : f.pos = f.content.length := h.resolve_left plain
    refine ⟨by simp [pos],Or.inr ?_⟩
    simp [pos]

/-- What stat(2) and open(2) find under the local name: a regular file, or nothing. -/
def httpDlInitFilefd (info : Info) (found : Option Bytes) (fd : Int) : Info × File × Ret :=
  let restartLen := match found with
    | some content => long content.length
    | none => 0
  let file := match found with
    | some content => File.mk content true 0
    | none => File.mk [] false 0
  if fd < 0 then (info,file,.fopen)
  else
    ({ info with
        filefd := fd
        restartLen := restartLen
        restartFile := info.restartFile || restartLen != 0 },file,.ok)

theorem initFilefdAtEnd (info : Info) (found : Option Bytes) (fd : Int) :
    (httpDlInitFilefd info found fd).2.1.AtEnd ∧
    (httpDlInitFilefd info found fd).2.1.content = found.getD [] := by
  cases found <;> by_cases bad : fd < 0 <;> simp [httpDlInitFilefd,bad,File.AtEnd]

def httpDlNumdigit (a : Int) : Nat := (toString a.natAbs).length

def httpDlAgentString : Bytes := ascii
  "Mozilla/5.0 (Windows NT 6.1; WOW64) AppleWebKit/537.36 (KHTML, like Gecko) Chrome/35.0.1916.153 Safari/537.36"
def httpDlAgentStringGenuine : Bytes := ascii "Wget/1.5.3"

def rangeHeader (restartLen : Int) : Bytes :=
  if restartLen = 0 then [] else ascii "Range: bytes=" ++ ascii (toString restartLen) ++ ascii "-" ++ crlf

def httpDlSendReq (info : Info) : Option Bytes :=
  if info.restartLen ≠ 0 ∧ httpDlBufLen < httpDlNumdigit info.restartLen + 17 then none
  else
    let useragent := if info.genuineAgent then httpDlAgentStringGenuine else httpDlAgentString
    some (ascii "GET " ++ info.path ++ ascii " HTTP/1.0" ++ crlf ++
      ascii "User-Agent: " ++ useragent ++ crlf ++
      ascii "Host: " ++ info.host ++ ascii ":" ++ ascii (toString info.port) ++ crlf ++
      ascii "Accept: */*" ++ crlf ++
      rangeHeader info.restartLen ++ crlf)

inductive WriteResult where
  | wrote (n : Nat) | eintr | fail
  deriving DecidableEq, Repr

def WriteResult.Succeeds : WriteResult → Prop
  | .wrote n => 0 < n
  | .eintr => True
  | .fail => False

/-- The results are those of the successive write(2) calls; after the last one
listed, a call takes everything it is given. -/
def httpDlWrite (file : File) (data : Bytes) : List WriteResult → File × Nat
  | [] => (file.write data,data.length)
  | .eintr :: results => httpDlWrite file data results
  | .fail :: _ => (file,0)
  | .wrote n :: results =>
    let res := min n data.length
    if res = 0 then (file,0)
    else
      let next := httpDlWrite (file.write (data.take res)) (data.drop res) results
      (next.1,next.2 + res)

end MipsElfExec.Download
