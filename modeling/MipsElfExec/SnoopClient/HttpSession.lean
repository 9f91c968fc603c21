import Mathlib.Algebra.Order.Ring.Nat
import MipsElfExec.Lib.Checked

/-! One HTTP session with a video site: a request goes out, and what comes back is collected in the caller's buffer.
The connection is given by what its calls return. -/
namespace MipsElfExec.SnoopClient
open CString Access

def bufferLen : Nat := 1024
def respBufLen : Nat := 32768
def maxHostNameLen : Nat := 32

def httpUrlPrefix : Bytes := ascii "http://"

-- One select with the recv behind it; no bytes at all are the end of the connection.
inductive Round where
  | quiet | failed
  | data (bytes : Bytes)

structure Peer where
  connects : Bytes → Bool
  takes : Bytes → Int
  rounds : List Round

def printed : List Bytes → List Bytes → Bytes
  | piece :: pieces,arg :: args => piece ++ arg ++ printed pieces args
  | pieces,_ => pieces.flatten

def buildRequest (pattern args : List Bytes) : Option Bytes :=
  if bufferLen ≤ (args.map List.length).sum + (pattern.map List.length).sum then none else some (printed pattern args)

def ykRequestPattern : List Bytes := [ascii "GET ",ascii " HTTP/1.0\r\nHost: ",
  ascii "\r\nConnection: close\r\nUser-Agent: Mozilla/5.0 (Windows NT 6.1; WOW64) AppleWebKit/537.36 (KHTML, like Gecko) " ++
    ascii "Chrome/33.0.1750.117 Safari/537.36\r\nAccept: */*\r\nReferer: http://",
  ascii "\r\nAccept-Encoding:\r\nAccept-Language: en-US,en;q=0.8,zh-CN;q=0.6,zh;q=0.4\r\n\r\n"]

def ykBuildRequest (host uri referer : Bytes) : Option Bytes := buildRequest ykRequestPattern [uri,host,referer]

def sohuRequestPattern : List Bytes := [ascii "GET ",ascii " HTTP/1.1\r\nHost: ",
  ascii "\r\nConnection: close\r\nAccept: text/html,application/xhtml+xml,application/xml;q=0.9,image/webp,*/*;q=0.8\r\n" ++
    ascii "User-Agent: Mozilla/5.0 (Windows NT 6.1; WOW64) AppleWebKit/537.36 (KHTML, like Gecko) " ++
    ascii "Chrome/33.0.1750.154 Safari/537.36\r\nAccept-Encoding: gzip,deflate,sdch\r\n" ++
    ascii "Accept-Language: en-US,en;q=0.8,zh-CN;q=0.6,zh;q=0.4\r\n\r\n"]

def sohuBuildRequest (host uri : Bytes) : Option Bytes := buildRequest sohuRequestPattern [uri,host]

def overwrite (array : Bytes) (i : Nat) (bytes : Bytes) : Bytes := array.take i ++ bytes ++ array.drop (i + bytes.length)

def recvLoop : List Round → Nat → Bytes → Option (Int × Bytes)
  | [],_,_ => none
  | .quiet :: _,_,response | .failed :: _,_,response => some (-1,response)
  | .data bytes :: rounds,total,response =>
    let received := bytes.take (response.length - total)
    if received = [] then some (if total = 0 then -1 else 0,response)
    else recvLoop rounds (total + received.length) (overwrite response total received)

def exchange (peer : Peer) (start : Bytes) (build : Bytes → Bytes → Option Bytes) (response : Bytes) :
    Checked (Option (Int × Bytes)) := do
  let (host,uri) ← scan (fun b => b != 47 && b != 0) (maxHostNameLen - 1) start
  let stop ← deref uri
  if stop = 0 ∨ maxHostNameLen - 1 ≤ host.length ∨ ¬peer.connects host then return some (-1,response)
  else
    match build host (cstr uri) with
    | none => return some (-1,response)
    | some buffer =>
      if bufferLen ≤ buffer.length ∨ peer.takes buffer ≠ buffer.length then return some (-1,response)
      else return recvLoop peer.rounds 0 (List.replicate response.length 0)

def lengthServed (response : Bytes) : Bool := bufferLen ≤ response.length && response.length ≤ respBufLen

def ykHttpSession (peer : Peer) (url referer response : Bytes) : Checked (Option (Int × Bytes)) := do
  if !lengthServed response then return some (-1,response)
  else
    let pre ← memcmp url httpUrlPrefix
    exchange peer (if pre then url.drop httpUrlPrefix.length else url)
      (fun host uri => ykBuildRequest host uri (cstr referer)) response

def sohuHttpSession (peer : Peer) (url response : Bytes) : Checked (Option (Int × Bytes)) := do
  if !lengthServed response then return some (-1,response)
  else exchange peer url sohuBuildRequest response

inductive Site where
  | youku (referer : Bytes) | sohu

def httpSession (peer : Peer) (url response : Bytes) : Site → Checked (Option (Int × Bytes))
  | .youku referer => ykHttpSession peer url referer response
  | .sohu => sohuHttpSession peer url response

def received (left : Nat) : List Round → Bytes
  | .data bytes :: rounds => if bytes.take left = [] then [] else bytes.take left ++ received (left - (bytes.take left).length) rounds
  | _ => []

def sent : List Round → Bytes
  | .data bytes :: rounds => if bytes = [] then [] else bytes ++ sent rounds
  | _ => []

def Holds (size : Nat) (text buffer : Bytes) : Prop := buffer.length = size ∧ ∃ rest,buffer = text ++ 0 :: rest

section receiving
variable {size left : Nat} {done bytes buffer : Bytes} {rounds : List Round}

theorem receivedSent (left : Nat) (rounds : List Round) : received left rounds = (sent rounds).take left := by
  induction rounds generalizing left with
  | nil => simp [received,sent]
  | cons round rounds ih =>
    cases round with
    | quiet => simp [received,sent]
    | failed => simp [received,sent]
    | data bytes =>
      by_cases none_ : bytes = []
      · simp [received,sent,none_]
      · cases left with
        | zero => simp [received]
        | succ left =>
          have some_ : ¬bytes.take (left + 1) = [] := by simpa [List.take_eq_nil_iff] using none_
          rw [received,sent,if_neg some_,if_neg none_,ih,List.take_append,List.length_take]
          congr 2
          omega

theorem overwriteFilled : overwrite (filled size done) done.length bytes = filled size (done ++ bytes) := by
  have rest : size - done.length - bytes.length = size - (done ++ bytes).length := by rw [List.length_append]; omega
  simp only [overwrite,filled,List.take_left,List.drop_append,List.drop_replicate,rest,
    List.drop_eq_nil_of_le (show done.length ≤ done.length + bytes.length by omega),Nat.add_sub_cancel_left,List.nil_append]

theorem recvRuns (fits : done.length ≤ size) (ends : recvLoop rounds done.length (filled size done) = some (0,buffer)) :
    buffer = filled size (done ++ received (size - done.length) rounds) := by
  induction rounds generalizing done with
  | nil => cases ends
  | cons round rounds ih =>
    cases round with
    | quiet => cases ends
    | failed => cases ends
    | data bytes =>
      simp only [recvLoop,filledSize fits] at ends
      rw [received]
      split at ends
      · rename_i reached
        simp only [Option.some.injEq,Prod.mk.injEq] at ends
        rw [if_pos reached,List.append_nil,ends.2]
      · rename_i more
        have part : (bytes.take (size - done.length)).length ≤ size - done.length := List.length_take_le _ _
        rw [overwriteFilled,← List.length_append] at ends
        rw [if_neg more,ih (by rw [List.length_append]; omega) ends,List.append_assoc,List.length_append,Nat.sub_add_eq]

theorem holdsFilled (fits : done.length ≤ size) : Holds size done (filled size done) ↔ done.length < size := by
  constructor
  · rintro ⟨-,rest,same⟩
    have long := congrArg List.length same
    rw [filledSize fits,List.length_append,List.length_cons] at long
    omega
  · exact fun short => ⟨filledSize fits,filledNul short⟩

theorem exchangeEnds {peer : Peer} {start response : Bytes} {build : Bytes → Bytes → Option Bytes}
    (ends : Meets (exchange peer start build response) fun r => r = some (0,buffer)) :
    recvLoop peer.rounds 0 (filled response.length []) = some (0,buffer) := by
  unfold exchange at ends
  simp only [meetsBind,meetsScan,meetsDeref] at ends
  obtain ⟨-,stop,uri,-,ends⟩ := ends
  split at ends
  · simp at ends
  · split at ends
    · simp at ends
    · split at ends
      · simp at ends
      · simpa [filled] using ends

theorem sessionEnds {peer : Peer} {url response : Bytes} {site : Site}
    (ends : httpSession peer url response site = .ok (some (0,buffer))) :
    recvLoop peer.rounds 0 (filled response.length []) = some (0,buffer) := by
  have meets : Meets (httpSession peer url response site) fun r => r = some (0,buffer) := ⟨_,ends,rfl⟩
  cases site with
  | youku referer =>
    simp only [httpSession,ykHttpSession] at meets
    split at meets
    · simp at meets
    · simp only [meetsBind,meetsMemcmp] at meets
      exact exchangeEnds meets.2
  | sohu =>
    simp only [httpSession,sohuHttpSession] at meets
    split at meets
    · simp at meets
    · exact exchangeEnds meets

end receiving

/-- A session that succeeds leaves a string exactly when the site sends less than the buffer holds. -/
theorem sessionHolds {peer : Peer} {url response buffer : Bytes} {site : Site}
    (ends : httpSession peer url response site = .ok (some (0,buffer))) :
    Holds response.length (received response.length peer.rounds) buffer ↔ (sent peer.rounds).length < response.length := by
  have fill := @recvRuns response.length [] buffer peer.rounds (Nat.zero_le _) (sessionEnds ends)
  rw [List.nil_append,List.length_nil,Nat.sub_zero] at fill
  have size : (received response.length peer.rounds).length = min response.length (sent peer.rounds).length := by
    rw [receivedSent,List.length_take]
  rw [fill,holdsFilled (by omega),size]
  omega

def wholeSite (n : Nat) : Peer := ⟨fun _ => true,fun request => request.length,[.data (List.replicate n 65),.data []]⟩

def usedBuffer : Bytes := List.replicate 1024 7

theorem sessionHoldsShort : httpSession (wholeSite 3) (ascii "220.181.61.212/a") usedBuffer .sohu =
      .ok (some (0,filled 1024 [65,65,65])) ∧
    (Holds usedBuffer.length (received usedBuffer.length (wholeSite 3).rounds) (filled 1024 [65,65,65]) ↔
      (sent (wholeSite 3).rounds).length < usedBuffer.length) := by
  have run : httpSession (wholeSite 3) (ascii "220.181.61.212/a") usedBuffer .sohu =
      .ok (some (0,filled 1024 [65,65,65])) := by decide +kernel
  exact ⟨run,sessionHolds run⟩

theorem sessionFull : httpSession (wholeSite 1024) (ascii "220.181.61.212/a") usedBuffer .sohu =
      .ok (some (0,List.replicate 1024 65)) ∧
    received 1024 (wholeSite 1024).rounds = List.replicate 1024 65 ∧
    ¬Holds 1024 (List.replicate 1024 65) (List.replicate 1024 65) ∧ (0 : Byte) ∉ List.replicate 1024 (65 : Byte) := by
  refine ⟨by decide +kernel,by decide +kernel,?_,fun nul => absurd (List.eq_of_mem_replicate nul) (by decide)⟩
  rintro ⟨-,rest,same⟩
  have long := congrArg List.length same
  rw [List.length_append,List.length_cons] at long
  omega

end MipsElfExec.SnoopClient
