import MipsElfExec.SnoopClient.HostAddr

/-! The arguments of a getfile request are a host and a URI: one scanner takes the host for the upstream, another one
the URI for the request line. -/
namespace MipsElfExec.Getfile
open CString Access SnoopClient

def buflen : Nat := 64
def buflenL : Nat := 512
def fileUrlLenMin : Nat := 21

structure Args where
  front : Bytes
  data : Bytes
  rest : Bytes

def Args.buffer (a : Args) : Bytes := a.front ++ (a.data ++ a.rest)

-- The byte is looked at before the length.
def skipHost (argsLen len : Nat) : Bytes → Checked (Nat × Bytes)
  | [] => .error .read
  | b :: cp => if b ≠ 47 ∧ len < argsLen then skipHost argsLen (len + 1) cp else .ok (len,b :: cp)

def copyUri (argsLen i len : Nat) (ru : Bytes) : Bytes → Checked (Nat × Bytes)
  | [] => if len < argsLen ∧ i < buflenL then .error .read else .ok (i,ru)
  | b :: cp =>
    if len < argsLen ∧ i < buflenL then do copyUri argsLen (i + 1) (len + 1) (← poke ru i b) cp else .ok (i,ru)

def getfileGetRealUriFromUri (data : Bytes) (argsLen : Nat) (ru : Bytes) : Checked (Int × Bytes) := do
  let (len,cp) ← skipHost argsLen 0 data
  let (i,ru) ← copyUri argsLen 0 len ru cp
  return (0,← poke ru (if i < buflenL then i else buflenL - 1) 0)

def copyHost (i : Nat) (host : Bytes) : Bytes → Checked (Nat × Bytes)
  | [] => .error .read
  | b :: cp => if b ≠ 47 ∧ b ≠ 0 ∧ i < buflen - 1 then do copyHost (i + 1) (← poke host i b) cp else .ok (i,host)

def getfileGetHostFromUri (data host : Bytes) : Checked (Int × Nat × Bytes) := do
  let (i,host) ← copyHost 0 host data
  return (0,i,← poke host i 0)

def strncmpEq : Bytes → Bytes → Checked Bool
  | [],_ => .ok true
  | _ :: _,[] => .error .read
  | b :: pat,c :: cur => if b = c then strncmpEq pat cur else .ok false

def fileTypes : List Bytes := [ascii "flv",ascii "mp4",ascii "gif",ascii "png",ascii "jpg",ascii "zip",ascii "ico",
  ascii "txt",ascii "rar",ascii "bin",ascii "doc",ascii "docx",ascii "xls",ascii "xlsx",ascii "ppt",ascii "pptx",
  ascii "html",ascii "mov"]

def endsAs (buffer : Bytes) (fin : Int) : List Bytes → Checked Bool
  | [] => .ok false
  | type :: types =>
    let start := fin - type.length
    if start < 0 then .error .read
    else do if ← strncmpEq type (buffer.drop start.toNat) then return true else endsAs buffer fin types

def getfileSupportType (a : Args) : Checked Bool := do
  let sohu ← strstrChecked (a.data ++ a.rest) (ascii "/sohu/")
  let ts ← if sohu.isSome then strstrChecked (a.data ++ a.rest) (ascii "/ts/") else pure none
  if ts.isSome then return true
  else
    match ← strstrChecked (a.data ++ a.rest) (ascii "urlID") with
    | none => endsAs a.buffer (a.front ++ a.data).length fileTypes
    | some p => endsAs a.buffer (a.buffer.length - p.length - 1) fileTypes

structure Resolved where
  host : Bytes
  addr : Option Bytes
  deriving DecidableEq, Repr

def ngxHttpGetfileHandler (a : Args) : Checked (Option Resolved) := do
  if a.data.length < fileUrlLenMin then return none
  else if !(← getfileSupportType a) then return none
  else
    let (ret,len,host) ← getfileGetHostFromUri (a.data ++ a.rest) (filled buflen [])
    if ret ≠ 0 then return none
    else
      let isIp ← getfileHostIsIpAddr (some host)
      return some ⟨(a.data ++ a.rest).take len,if isIp = 0 then none else some (cstr host)⟩

def takenHost (data : Bytes) : Checked Bytes := do
  let (_,_,host) ← getfileGetHostFromUri data (filled buflen [])
  return cstr host

def takenUri (data : Bytes) (argsLen : Nat) : Checked Bytes := do
  let (_,ru) ← getfileGetRealUriFromUri data argsLen (filled buflenL [])
  return cstr ru

structure Fits (a : Args) : Prop where
  host : (a.data.takeWhile (· ≠ 47)).length < buflen
  uri : (a.data.dropWhile (· ≠ 47)).length < buflenL

structure Splits (a : Args) : Prop where
  whole : Meets (takenHost (a.data ++ a.rest)) fun host => Meets (takenUri (a.data ++ a.rest) a.data.length) fun uri =>
    host ++ uri = a.data
  hostInside : Safe (takenHost a.data)
  uriInside : Safe (takenUri a.data a.data.length)

section scanners
variable {host uri pre : Bytes} {argsLen len : Nat}

theorem skipHostStops (clean : (47 : Byte) ∉ host) (inside : len + host.length < argsLen) (cp : Bytes) :
    skipHost argsLen len (host ++ 47 :: cp) = .ok (len + host.length,47 :: cp) := by
  induction host generalizing len with
  | nil => simp [skipHost]
  | cons b host ih =>
    rw [List.mem_cons,not_or] at clean
    rw [List.length_cons] at inside ⊢
    rw [List.cons_append,skipHost,if_pos ⟨Ne.symm clean.1,by omega⟩,ih clean.2 (by omega)]
    congr 2
    omega

theorem skipHostPast (clean : (47 : Byte) ∉ host) (inside : len + host.length ≤ argsLen) :
    skipHost argsLen len host = .error .read := by
  induction host generalizing len with
  | nil => rfl
  | cons b host ih =>
    rw [List.mem_cons,not_or] at clean
    rw [List.length_cons] at inside
    rw [skipHost,if_pos ⟨Ne.symm clean.1,by omega⟩,ih clean.2 (by omega)]

theorem copyHostStops (clean : (47 : Byte) ∉ host) (text : (0 : Byte) ∉ host) (room : pre.length + host.length < buflen)
    (cp : Bytes) : copyHost pre.length (filled buflen pre) (host ++ 47 :: cp) =
      .ok (pre.length + host.length,filled buflen (pre ++ host)) := by
  induction host generalizing pre with
  | nil => simp [copyHost]
  | cons b host ih =>
    rw [List.mem_cons,not_or] at clean text
    rw [List.length_cons] at room
    have next := @ih (pre ++ [b]) clean.2 text.2 (by rw [List.length_append,List.length_singleton]; omega)
    rw [List.length_append,List.length_singleton] at next
    rw [List.cons_append,copyHost,if_pos ⟨Ne.symm clean.1,Ne.symm text.1,by omega⟩,pokeNext (by omega),if_pos (by omega)]
    simpa [bind,Except.bind,Nat.add_assoc,Nat.add_comm 1] using next

theorem copyUriStops (room : pre.length + uri.length < buflenL) (all : argsLen = len + uri.length) (cp : Bytes) :
    copyUri argsLen pre.length len (filled buflenL pre) (uri ++ cp) =
      .ok (pre.length + uri.length,filled buflenL (pre ++ uri)) := by
  induction uri generalizing pre len with
  | nil => cases cp <;> simp [copyUri,all]
  | cons b uri ih =>
    rw [List.length_cons] at room all
    have next := @ih (pre ++ [b]) (len + 1) (by rw [List.length_append,List.length_singleton]; omega) (by omega)
    rw [List.length_append,List.length_singleton] at next
    rw [List.cons_append,copyUri,if_pos ⟨by omega,by omega⟩,pokeNext (by omega),if_pos (by omega)]
    simpa [bind,Except.bind,Nat.add_assoc,Nat.add_comm 1] using next

end scanners

section split
variable {host uri data : Bytes}

theorem takenHostIs (clean : (47 : Byte) ∉ host) (text : (0 : Byte) ∉ host) (room : host.length < buflen) (cp : Bytes) :
    takenHost (host ++ 47 :: cp) = .ok host := by
  have copied := @copyHostStops host [] clean text (by simpa using room) cp
  rw [List.length_nil,Nat.zero_add,List.nil_append] at copied
  have closed : cstr (filled buflen (host ++ [0])) = host := filledClosed text
  simp [takenHost,getfileGetHostFromUri,copied,pokeNext (Nat.le_of_lt room),room,closed,bind,Except.bind,pure,Except.pure]

theorem takenUriIs (clean : (47 : Byte) ∉ host) (text : (0 : Byte) ∉ uri) (room : (47 :: uri).length < buflenL) (cp : Bytes) :
    takenUri (host ++ 47 :: (uri ++ cp)) (host ++ 47 :: uri).length = .ok (47 :: uri) := by
  have skipped := @skipHostStops host _ 0 clean (show 0 + host.length < (host ++ 47 :: uri).length by simp) (uri ++ cp)
  have copied := @copyUriStops (47 :: uri) [] _ host.length (by simpa using room)
    (show (host ++ 47 :: uri).length = host.length + (47 :: uri).length by simp) cp
  rw [List.length_nil,Nat.zero_add,List.nil_append,List.cons_append] at copied
  rw [Nat.zero_add] at skipped
  have closed : cstr (filled buflenL (47 :: uri ++ [0])) = 47 :: uri := filledClosed (by simpa using text)
  unfold takenUri getfileGetRealUriFromUri
  rw [skipped]
  simp only [bind,Except.bind]
  rw [copied]
  dsimp only
  rw [if_pos room,pokeNext (Nat.le_of_lt room),if_pos room]
  exact congrArg Except.ok closed

theorem noSeparator (clean : (47 : Byte) ∉ data) : ¬Safe (takenUri data data.length) := by
  unfold takenUri getfileGetRealUriFromUri
  rw [skipHostPast clean (by omega)]
  exact fun safe => meetsError _ safe

theorem takenText {α : Type} {x : Checked α} {f : α → Bytes} {t : Bytes}
    (run : (do let v ← x; return cstr (f v)) = (.ok t : Checked Bytes)) : (0 : Byte) ∉ t := by
  cases x with
  | error fault => cases run
  | ok v =>
    cases run
    exact cstrNoNul (f v)

end split

theorem splitExactly {a : Args} (fits : Fits a) : Splits a ↔ 47 ∈ a.data ∧ 0 ∉ a.data := by
  obtain ⟨front,data,rest⟩ := a
  constructor
  · rintro ⟨⟨host,first,uri,second,whole⟩,-,inside⟩
    refine ⟨not_not.mp fun clean => noSeparator clean inside,?_⟩
    have first : (0 : Byte) ∉ host := @takenText (Int × Nat × Bytes) _ (fun v => v.2.2) _ first
    have second : (0 : Byte) ∉ uri := @takenText (Int × Bytes) _ (fun v => v.2) _ second
    have whole : host ++ uri = data := whole
    rw [← whole,List.mem_append,not_or]
    exact ⟨first,second⟩
  · rintro ⟨mem,text⟩
    obtain ⟨hostFits,uriFits⟩ := fits
    have clean := untilClean 47 data
    have shape := List.takeWhile_append_dropWhile (p := (· ≠ 47)) (l := data)
    dsimp only at mem text hostFits uriFits
    generalize data.takeWhile (· ≠ 47) = host at *
    rcases untilStop 47 data with none_ | ⟨uri,stop⟩
    · rw [none_,List.append_nil] at shape
      exact absurd (shape ▸ mem) clean
    · rw [stop] at shape uriFits
      subst shape
      rw [List.mem_append,not_or] at text
      have host_ := takenHostIs clean text.1 hostFits
      have uri_ := takenUriIs clean (fun nul => text.2 (List.mem_cons_of_mem _ nul)) uriFits
      have alone := uri_ []
      rw [List.append_nil] at alone
      constructor
      · refine ⟨host,?_,47 :: uri,?_,rfl⟩
        · rw [List.append_assoc]
          exact host_ (uri ++ rest)
        · rw [List.append_assoc]
          exact uri_ rest
      · exact ⟨host,host_ uri,trivial⟩
      · exact ⟨47 :: uri,alone,trivial⟩

theorem splitVideo : Fits ⟨ascii "GET /getfile?",ascii "www.example.com/a/b.flv",ascii " HTTP/1.1"⟩ ∧
    (Splits ⟨ascii "GET /getfile?",ascii "www.example.com/a/b.flv",ascii " HTTP/1.1"⟩ ↔
      47 ∈ ascii "www.example.com/a/b.flv" ∧ 0 ∉ ascii "www.example.com/a/b.flv") :=
  have fits : Fits ⟨ascii "GET /getfile?",ascii "www.example.com/a/b.flv",ascii " HTTP/1.1"⟩ := ⟨by decide,by decide⟩
  ⟨fits,splitExactly fits⟩

def hostOnly : Args := ⟨ascii "GET /getfile?",ascii "www.example.com.a.flv",ascii " HTTP/1.1" ++ crlf ++ crlf ++ [0]⟩

theorem hostRunsOn : ngxHttpGetfileHandler hostOnly = .ok (some ⟨ascii "www.example.com.a.flv HTTP",none⟩) ∧ Fits hostOnly ∧
    takenHost (hostOnly.data ++ hostOnly.rest) = .ok (ascii "www.example.com.a.flv HTTP") ∧
    takenUri (hostOnly.data ++ hostOnly.rest) hostOnly.data.length = .ok [] ∧ ¬Splits hostOnly := by
  have fits : Fits hostOnly := ⟨by decide,by decide⟩
  have host : takenHost (hostOnly.data ++ hostOnly.rest) = .ok (ascii "www.example.com.a.flv HTTP") := by decide
  have uri : takenUri (hostOnly.data ++ hostOnly.rest) hostOnly.data.length = .ok [] := by decide +kernel
  refine ⟨by decide,fits,host,uri,fun split => ?_⟩
  obtain ⟨taken,first,rest,second,whole⟩ := split.whole
  cases host.symm.trans first
  cases uri.symm.trans second
  exact absurd whole (by decide)

end MipsElfExec.Getfile
