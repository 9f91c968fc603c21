import MipsElfExec.Adv.AdDocument
import MipsElfExec.Adv.Playlist

/-! The filter that answers a player in place of the server. What it answers with was loaded into the buffer that
gathers the answers of servers, too, so that what is gathered is answered to the next player. -/
namespace MipsElfExec.Adv
open CString Access

def vfResponse : Bytes := [
    "HTTP/1.1 200 OK\r\n","Server: adserver\r\n","Cache-Control: private\r\n","Pragma: no-cache\r\n",
    "Cache-Control: private\r\n","Expires: 0\r\n","Connection: close\r\n",
    "Content-Type: text/html; charset=UTF-8\r\n","Date: Fri, 04 Apr 2014 01:39:59 GMT\r\n","Content-Length: "].flatMap ascii

def youkuM3u8Response1 : Bytes := [
    "HTTP/1.1 206 Partial Content\r\n","Server: nginx\r\n","Date: Tue, 22 Apr 2014 03:16:11 GMT\r\n",
    "Content-Type: application/vnd.apple.mpegurl\r\n","Connection: keep-alive\r\n","X-Powered-By: PHP/5.2.17\r\n",
    "Accept-Ranges: bytes\r\n","Content-Type: text/html; charset=UTF-8\r\n","Content-Range: bytes "].flatMap ascii

def youkuM3u8Response2 : Bytes := ascii "Content-Length: "

def getSResponse : Bytes := [
    "HTTP/1.1 200 OK\r\n","Server: nginx/1.2.1\r\n","Date: Thu, 17 Apr 2014 02:21:40 GMT\r\n",
    "Vary: Accept-Encoding\r\n","Cache-Control: no-cache,no-store\r\n","Expires: -1\r\n",
    "Connection: keep-alive\r\n","Content-Type: application/json\r\n","Content-Length: "].flatMap ascii

def getMResponse : Bytes := [
    "HTTP/1.1 200 OK\r\n","Server: nginx/1.2.1\r\n","Date: Thu, 17 Apr 2014 02:21:40 GMT\r\n",
    "Vary: Accept-Encoding\r\n","Cache-Control: no-cache,no-store\r\n","Expires: -1\r\n",
    "Connection: keep-alive\r\n","Content-Type: text/xml; charset=UTF-8\r\n","Content-Length: "].flatMap ascii

def intText (n : Int) : Bytes := if n < 0 then 45 :: numeral 10 n.natAbs else numeral 10 n.toNat

section makers
variable (resp bigVfBuf : Bytes) (bifVfLen : Int)

def makeResponse (head : Bytes) : Checked Print := do
  let out ← memcpyAt (resp,0) head
  let out ← sprintfAt out (intText bifVfLen ++ (crlf ++ crlf))
  memcpyAt out (← bytesAt bigVfBuf bifVfLen)

def ngxHttpMakeVfResponse : Checked Print := makeResponse resp bigVfBuf bifVfLen vfResponse

def ngxHttpMakeGetSResponse : Checked Print := makeResponse resp bigVfBuf bifVfLen getSResponse

def ngxHttpMakeGetMResponse : Checked Print := makeResponse resp bigVfBuf bifVfLen getMResponse

def ngxHttpMakeYoukuM3u8Response (isRange : Bool) : Checked Print := do
  let out ← memcpyAt (resp,0) youkuM3u8Response1
  if isRange then
    let out ← sprintfAt out (ascii "0-1/" ++ (intText bifVfLen ++ crlf))
    sprintfAt out (youkuM3u8Response2 ++ (intText 2 ++ (crlf ++ (crlf ++ ascii "#E"))))
  else
    let out ← sprintfAt out (ascii "0-" ++ (intText (bifVfLen - 1) ++ (ascii "/" ++ (intText bifVfLen ++ crlf))))
    let out ← sprintfAt out (youkuM3u8Response2 ++ (intText bifVfLen ++ (crlf ++ crlf)))
    memcpyAt out (← bytesAt bigVfBuf bifVfLen)

end makers

inductive Reply where
  | vf | getS | youkuM3u8 (isRange : Bool)
  deriving DecidableEq, Repr

-- What is done about a packet: an answer in place of the server, with the flags of both halves, or no more than that
-- the flags of both may be cleared.
inductive Ask where
  | answer (reply : Reply) (own pair : AppFlags)
  | finish (reset : Bool)
  deriving DecidableEq, Repr

def videosV : Bytes := ascii "videos/v"

structure Answerer where
  advStr : Bytes := List.replicate 100 0
  bigVfBuf : Bytes := List.replicate bigVfBufMax 0
  bifVfLen : Int := 0
  appFlags : Nat → Side → AppFlags := fun _ _ => .none

def Answerer.setFlags (s : Answerer) (pair : Nat) (side : Side) (flags : AppFlags) : Answerer :=
  { s with appFlags := fun p x => if p = pair ∧ x = side then flags else s.appFlags p x }

def Answerer.advSet (s : Answerer) : Bool := s.advStr.head? != some 0

def Answerer.pattern (s : Answerer) : Checked Bytes := if (0 : Byte) ∈ s.advStr then .ok (cstr s.advStr) else .error .read

def Answerer.ask (s : Answerer) (regBuf : Bytes) : Checked Ask := do
  let starts (text : String) : Bool := (ascii text).isPrefixOf regBuf
  let named ← (if s.advSet then do
    let found ← strstrChecked regBuf (← s.pattern)
    pure found.isSome
    else pure false)
  if named then pure (.answer .vf .dropData .dropData)
  else if s.advSet then pure (.finish false)
  else if starts "GET /vf?" || starts "GET /adv?" then pure (.answer .vf .dropData .dropData)
  else
    let m3u8 ← strstrChecked regBuf (ascii "playlist/m3u8?keyframe=0")
    if m3u8.isSome then
      let isRange ← strstrChecked regBuf (ascii "Range: bytes=0-1\r\n")
      pure (.answer (.youkuM3u8 isRange.isSome) .none .dropData)
    else if starts "GET /s?ark=213&" || starts "GET /s?ark=232&" then pure (.answer .getS .dropData .dropData)
    else if starts "GET /m?du=" || starts "GET /m?pt=" then pure (.answer .getS .dropData .proxyData)
    else
      let nebula ← strstrChecked regBuf (ascii "php/xyz/entry/nebula")
      if nebula.isSome then pure (.answer .getS .dropData .proxyData)
      else pure (.finish (starts "GET /t?mid="))

def Answerer.make (s : Answerer) : Reply → Checked Print
  | .vf => ngxHttpMakeVfResponse (filled bigVfBufMax []) s.bigVfBuf s.bifVfLen
  | .getS => ngxHttpMakeGetSResponse (filled bigVfBufMax []) s.bigVfBuf s.bifVfLen
  | .youkuM3u8 isRange => ngxHttpMakeYoukuM3u8Response (filled bigVfBufMax []) s.bigVfBuf s.bifVfLen isRange

structure Sent where
  own : Bytes
  pair : Bytes
  deriving DecidableEq, Repr

def Answerer.append (s : Answerer) (data : Bytes) : Checked Answerer :=
  if s.bifVfLen < 0 then .error .write
  else (fun buf => { s with bigVfBuf := buf,bifVfLen := s.bifVfLen + data.length }) <$> blit s.bigVfBuf s.bifVfLen.toNat data

-- The packets of a half whose data are gathered. Where no advertisement is found the length that is sent is any number.
def Answerer.gather (pair : Nat) (side : Side) : Answerer → List Pkt → Checked (Answerer × Sent)
  | s,[] => .ok (s,⟨[],[]⟩)
  | s,p :: ps => do
    let s ← s.append p.data
    match ← strstrChecked s.bigVfBuf videosV with
    | none => Answerer.gather pair side s ps
    | some _ => do
      match ← ngxHttpMakeGetDcAmdtResponse (filled bigVfBufMax []) s.bigVfBuf s.bifVfLen.toNat with
      | (_,none) => .error .read
      | (resp,some rspLen) => do
        let answer ← bytesAt resp rspLen
        pure ((s.setFlags pair side .none).setFlags pair side.other .dropData,⟨[],answer ++ pktBytes ps⟩)

def ngxHttpVfDeal1 (s : Answerer) (e : Event) : Checked (Answerer × Sent) := match e.packets with
  | [] => .ok (s,⟨[],[]⟩)
  | p :: ps =>
    if s.appFlags e.pair e.side = .proxyData then s.gather e.pair e.side (p :: ps)
    else do
      let ask ← (if 8 < p.data.length then s.ask (p.data ++ p.behind) else pure (.finish false))
      match ask with
      | .answer reply own other => do
        let (resp,rspLen) ← s.make reply
        pure ((s.setFlags e.pair e.side own).setFlags e.pair e.side.other other,⟨resp.take rspLen,[]⟩)
      | .finish reset =>
        let s := if reset then (s.setFlags e.pair e.side .none).setFlags e.pair e.side.other .none else s
        pure (s,if s.appFlags e.pair e.side = .dropData then ⟨[],[]⟩ else ⟨[],pktBytes (p :: ps)⟩)

inductive LoadResult where
  | closed | failed | read (bytes : Bytes)
  deriving DecidableEq, Repr

def vfResLen : Nat := 409600

def makeVfResBuf (s : Answerer) : LoadResult → Checked Answerer
  | .closed => .ok s
  | .failed => do
    let buf ← blit s.bigVfBuf 0 (List.replicate vfResLen 0)
    pure { s with bigVfBuf := buf,bifVfLen := -1 }
  | .read bytes => do
    let buf ← blit s.bigVfBuf 0 (List.replicate vfResLen 0)
    let buf ← blit buf 0 (bytes.take vfResLen)
    pure { s with bigVfBuf := buf,bifVfLen := (bytes.take vfResLen).length }

def setAdvStr (s : Answerer) (adv : Bytes) : Checked Answerer :=
  (fun array => { s with advStr := array }) <$> blit (List.replicate 100 0) 0 (cstr adv)

inductive Turn where
  | packets (e : Event)
  | makeVfResBuf (result : LoadResult)
  | setAdvStr (adv : Bytes)

def Answerer.turn (s : Answerer) : Turn → Checked (Answerer × Sent)
  | .packets e => ngxHttpVfDeal1 s e
  | .makeVfResBuf result => (fun s => (s,⟨[],[]⟩)) <$> Adv.makeVfResBuf s result
  | .setAdvStr adv => (fun s => (s,⟨[],[]⟩)) <$> Adv.setAdvStr s adv

def Answerer.turns : Answerer → List Turn → Checked (Answerer × List Sent)
  | s,[] => .ok (s,[])
  | s,t :: ts => do
    let (s,sent) ← s.turn t
    let (s,rest) ← s.turns ts
    pure (s,sent :: rest)

end MipsElfExec.Adv
