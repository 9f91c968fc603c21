import MipsElfExec.Download.Parse

/-! One read event of a task: http_dl_recv_resp reads into the free space behind
buf_tail, lets the stages consume what they can and compacts the buffer. A read
offered no space returns 0 and is taken for the end of the session. -/
namespace MipsElfExec.Download
open CString

def Info.freeSpace (info : Info) : Nat := httpDlReadbufLen - info.bufTail

def moveData (buf : Bytes) (dst src : Nat) : Nat → Bytes
  | 0 => buf
  | n + 1 => moveData (buf.set dst (buf.getD src 0)) (dst + 1) (src + 1) n

def Info.compact (info : Info) : Info :=
  let dataLen := info.bufTail - info.bufData
  { info with buf := moveData info.buf 0 info.bufData dataLen,bufData := 0,bufTail := dataLen }

def httpDlAdjustInfoBuf (info : Info) : Info :=
  if info.bufData = info.bufTail then
    { info with
        buf := List.replicate httpDlReadbufLen 0 ++ info.buf.drop httpDlReadbufLen
        bufData := 0
        bufTail := 0 }
  else
    let dataLen := info.bufTail - info.bufData
    let freeSpace := info.freeSpace
    if freeSpace < httpDlReadbufLen / 4 then info.compact
    else if freeSpace < httpDlReadbufLen / 2 ∧ dataLen < httpDlReadbufLen / 4 then info.compact
    else info

def Info.rewind (info : Info) : Info := { info with bufData := 0,bufTail := 0 }

def httpDlFlushBufData (info : Info) (file : File) (results : List WriteResult) : Info × File × Ret :=
  if info.stage ≠ .recvContent then (info.rewind,file,.ok)
  else if info.bufTail < info.bufData then ({ info with bufTail := info.bufData },file,.internal)
  else
    let data := (info.buf.drop info.bufData).take (info.bufTail - info.bufData)
    if data = [] then (info.rewind,file,.ok)
    else
      let written := if info.filefd < 0 then (file,0) else httpDlWrite file data results
      let info := { info with recvLen := long (info.recvLen + written.2) }
      if written.2 < data.length then
        ({ info with bufData := info.bufData + written.2 },written.1,.write)
      else (info.rewind,written.1,.ok)

def httpDlRecvContent (info : Info) (file : File) (results : List WriteResult) : Info × File × Ret :=
  if info.stage ≠ .recvContent then (info,file,.internal)
  else if info.bufData = info.bufTail then (info,file,.ok)
  else
    let flushed := httpDlFlushBufData info file results
    (flushed.1,flushed.2.1,.ok)

def httpDlStage (info : Info) (file : File) (results : List WriteResult) : Info × File × Ret :=
  match info.stage with
  | .parseStatusLine =>
    let parsed := httpDlParseStatusLine info
    (parsed.1,file,parsed.2)
  | .parseHeader =>
    let parsed := httpDlParseHeader info
    (parsed.1,file,parsed.2)
  | .recvContent => httpDlRecvContent info file results
  | _ => (info,file,.internal)

-- Each pass that asks for another has moved to a later stage, so three are enough.
def httpDlStages : Nat → Info → File → List WriteResult → Info × File × Ret
  | 0,info,file,_ => (info,file,.internal)
  | passes + 1,info,file,results =>
    let done := httpDlStage info file results
    match done.2.2 with
    | .again => httpDlStages passes done.1 done.2.1 results
    | .ok => (httpDlAdjustInfoBuf done.1,done.2.1,.again)
    | .http => (done.1,done.2.1,.ok)
    | ret => (done.1,done.2.1,ret)

inductive ReadResult where
  | error | data (bytes : Bytes)
  deriving DecidableEq, Repr

def Info.receive (info : Info) (bytes : Bytes) : Info :=
  { info with
      buf := info.buf.take info.bufTail ++ bytes ++ info.buf.drop (info.bufTail + bytes.length)
      bufTail := info.bufTail + bytes.length }

def httpDlRecvResp (info : Info) (file : File) (nread : ReadResult) (results : List WriteResult) :
    Info × File × Ret :=
  match nread with
  | .error => (info,file,.read)
  | .data [] =>
    let flushed := httpDlFlushBufData info file results
    (flushed.1,flushed.2.1,.ok)
  | .data bytes => httpDlStages 3 (info.receive bytes) file results

end MipsElfExec.Download
