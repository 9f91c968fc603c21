import MipsElfExec.Snooping.Connection

/-! The id of a URL on its way through nginx. The client puts it behind the URL as one more
parameter of the request line; nginx takes the part behind the first '?' as the arguments, and
both the path of the stored file and the final state are found by the id in them. -/
namespace MipsElfExec.Getfile
open CString Snooping

def bufferLen : Nat := 1024

def decimal : Nat → Nat → Bytes
  | 0,_ => []
  | k + 1,n => if n < 10 then [UInt8.ofNat (48 + n)] else decimal k (n / 10) ++ [UInt8.ofNat (48 + n % 10)]

def intText (n : Nat) : Bytes := decimal 10 n

def scNgxGetPattern : Bytes :=
  ascii "GET /getfile?%s%s HTTP/1.1" ++ crlf ++ ascii "Host: %s" ++ crlf ++ ascii "Connection: close" ++ crlf ++ crlf

def getText (uri urlID ip : Bytes) : Bytes :=
  ascii "GET /getfile?" ++ uri ++ urlID ++ ascii " HTTP/1.1" ++ crlf ++ ascii "Host: " ++ ip ++ crlf ++
    ascii "Connection: close" ++ crlf ++ crlf

def urlIDText (uri : Bytes) (urlId : Nat) : Bytes :=
  ascii (if 63 ∈ uri then "&urlID=" else "?urlID=") ++ intText urlId

def scNgxBuildGet (ip uri : Bytes) (urlId len : Nat) : Option Bytes :=
  if len ≠ bufferLen then none
  else
    let urlID := urlIDText uri urlId
    let lenReal := scNgxGetPattern.length + ip.length + uri.length + urlID.length - 6
    if len ≤ lenReal then none else some (getText uri urlID ip)

inductive LineState where
  | start | method | spacesBeforeUri | afterSlashInUri | checkUri | checkUriHttp09 | uri | http09
  | httpH | httpHT | httpHTT | httpHTTP | firstMajorDigit | majorDigit | firstMinorDigit | minorDigit
  | spacesAfterDigit | almostDone
  deriving DecidableEq, Repr

structure Line where
  state : LineState := .start
  uriStart : Nat := 0
  argsStart : Option Nat := none
  uriEnd : Nat := 0
  complexUri : Bool := false
  quotedUri : Bool := false
  deriving DecidableEq, Repr

inductive LineStep where
  | more (line : Line)
  | done (line : Line)
  | invalid
  deriving DecidableEq, Repr

def Line.go (l : Line) (state : LineState) : LineStep := .more { l with state := state }

def isUpper (ch : Byte) : Bool := 65 ≤ ch && ch ≤ 90

def uriByte (l : Line) (p : Nat) (ch : Byte) : LineStep :=
  if ch = 32 then .more { l with uriEnd := p,state := .http09 }
  else if ch = 13 then .more { l with uriEnd := p,state := .almostDone }
  else if ch = 10 then .done { l with uriEnd := p }
  else if ch = 35 then .more { l with complexUri := true }
  else if ch = 0 then .invalid
  else .more l

def checkUriByte (l : Line) (p : Nat) (ch : Byte) : LineStep :=
  if ch = 47 then l.go .afterSlashInUri
  else if ch = 32 then .more { l with uriEnd := p,state := .checkUriHttp09 }
  else if ch = 13 then .more { l with uriEnd := p,state := .almostDone }
  else if ch = 10 then .done { l with uriEnd := p }
  else if ch = 37 then .more { l with quotedUri := true,state := .uri }
  else if ch = 63 then .more { l with argsStart := some (p + 1),state := .uri }
  else if ch = 35 then .more { l with complexUri := true,state := .uri }
  else if ch = 0 then .invalid
  else .more l

def afterSlashByte (l : Line) (p : Nat) (ch : Byte) : LineStep :=
  if ch = 46 ∨ ch = 47 then .more { l with complexUri := true,state := .uri }
  else if ch = 43 then .more l
  else checkUriByte { l with state := .checkUri } p ch

def http09Byte (l : Line) (ch : Byte) (back : LineStep) : LineStep :=
  if ch = 32 then .more l
  else if ch = 13 then l.go .almostDone
  else if ch = 10 then .done l
  else if ch = 72 then l.go .httpH
  else back

def expectByte (l : Line) (wanted : Bool) (next : LineState) : LineStep := if wanted then l.go next else .invalid

-- A request for an absolute URI is not followed.
def lineByte (l : Line) (p : Nat) (ch : Byte) : LineStep :=
  match l.state with
  | .start => if ch = 13 ∨ ch = 10 then .more l else expectByte l (isUpper ch || ch == 95) .method
  | .method => if ch = 32 then l.go .spacesBeforeUri else expectByte l (isUpper ch || ch == 95) .method
  | .spacesBeforeUri =>
    if ch = 47 then .more { l with uriStart := p,state := .afterSlashInUri }
    else expectByte l (ch == 32) .spacesBeforeUri
  | .afterSlashInUri => afterSlashByte l p ch
  | .checkUri => checkUriByte l p ch
  | .checkUriHttp09 => http09Byte l ch (checkUriByte { l with state := .checkUri } p ch)
  | .uri => uriByte l p ch
  | .http09 => http09Byte l ch (uriByte { l with state := .uri } p ch)
  | .httpH => expectByte l (ch == 84) .httpHT
  | .httpHT => expectByte l (ch == 84) .httpHTT
  | .httpHTT => expectByte l (ch == 80) .httpHTTP
  | .httpHTTP => expectByte l (ch == 47) .firstMajorDigit
  | .firstMajorDigit => expectByte l (49 ≤ ch && ch ≤ 57) .majorDigit
  | .majorDigit => if ch = 46 then l.go .firstMinorDigit else expectByte l (isdigit ch) .majorDigit
  | .firstMinorDigit => expectByte l (isdigit ch) .minorDigit
  | .minorDigit =>
    if ch = 13 then l.go .almostDone
    else if ch = 10 then .done l
    else if ch = 32 then l.go .spacesAfterDigit
    else expectByte l (isdigit ch) .minorDigit
  | .spacesAfterDigit =>
    if ch = 13 then l.go .almostDone else if ch = 10 then .done l else expectByte l (ch == 32) .spacesAfterDigit
  | .almostDone => if ch = 10 then .done l else .invalid

def ngxHttpParseRequestLine : Line → Nat → Bytes → Option Line
  | _,_,[] => none
  | l,p,ch :: bytes =>
    match lineByte l p ch with
    | .more l => ngxHttpParseRequestLine l (p + 1) bytes
    | .done l => some l
    | .invalid => none

def requestArgs (bytes : Bytes) (l : Line) : Option (Bytes × Bytes) :=
  if l.complexUri ∨ l.quotedUri then none
  else match l.argsStart with
  | some start => if start < l.uriEnd then some (slice bytes start l.uriEnd,bytes.drop start) else none
  | none => none

def urlIDMark : Bytes := ascii "urlID"

def urlIdText (args : Bytes) : Option Bytes :=
  (strstr args urlIDMark).map fun n => (args.drop (n + 6)).takeWhile isdigit

-- Both take the id as the digits six bytes behind the start of the first mark.
def mapUriUrlId (args : Bytes) : Option Nat := (urlIdText args).bind ngxAtoi
def finalizeUrlId (args : Bytes) : Option Nat := (urlIdText args).bind ngxAtoi

def urlIdReads (args : Bytes) : Option Nat :=
  (strstr args urlIDMark).map fun n => n + 6 + ((args.drop (n + 6)).takeWhile isdigit).length + 1

def targetByte (b : Byte) : Bool := b ≠ 0 && b ≠ 10 && b ≠ 13 && b ≠ 32 && b ≠ 35

theorem digitByte {d : Nat} (small : d < 10) : (UInt8.ofNat (48 + d)).toNat = 48 + d :=
  Nat.mod_eq_of_lt (by omega)

theorem digitIsDigit {d : Nat} (small : d < 10) : isdigit (UInt8.ofNat (48 + d)) = true := by
  simp only [isdigit,Bool.and_eq_true,decide_eq_true_eq,UInt8.le_iff_toNat_le,digitByte small]
  exact ⟨by simp,by simp; omega⟩

theorem decimalDigits (k n) : ∀ b ∈ decimal k n, isdigit b = true := by
  induction k generalizing n with
  | zero => simp [decimal]
  | succ k ih =>
    intro b mem
    simp only [decimal] at mem
    split at mem
    · rename_i small
      rw [List.mem_singleton.mp mem]
      exact digitIsDigit small
    · rcases List.mem_append.mp mem with front | last
      · exact ih (n / 10) b front
      · rw [List.mem_singleton.mp last]
        exact digitIsDigit (Nat.mod_lt n (by omega))

theorem decimalSome (k n) : decimal (k + 1) n ≠ [] := by
  simp only [decimal]
  split <;> simp

theorem decimalValue (k n) (fits : n < 10 ^ k) (small : n < 2 ^ 31) :
    (decimal k n).foldl (fun value b => word (value * 10 + (b.toNat - 48))) 0 = n := by
  induction k generalizing n with
  | zero =>
    have none_ : n = 0 := by omega
    simp [decimal,none_]
  | succ k ih =>
    simp only [decimal]
    split
    · rename_i digit
      simp only [List.foldl_cons,List.foldl_nil,digitByte digit,word]
      omega
    · have front := ih (n / 10) (by rw [Nat.pow_succ] at fits; omega) (by omega)
      have last := Nat.mod_lt n (show 0 < 10 by omega)
      rw [List.foldl_append,front]
      simp only [List.foldl_cons,List.foldl_nil,digitByte last,word]
      omega

theorem atoiInt (urlId : Fin (2 ^ 31)) : ngxAtoi (intText urlId) = some urlId.val := by
  have value := decimalValue 10 urlId (by omega) urlId.isLt
  unfold ngxAtoi intText
  rw [if_neg (by simpa [decimalSome] using decimalDigits 10 urlId)]
  simp only [value]
  exact if_neg (by omega)

theorem parseTarget (l : Line) (inUri : l.state = .uri) (p : Nat) (target rest : Bytes)
    (usual : ∀ b ∈ target, targetByte b = true) :
    ngxHttpParseRequestLine l p (target ++ rest) = ngxHttpParseRequestLine l (p + target.length) rest := by
  induction target generalizing p with
  | nil => rfl
  | cons b target ih =>
    have head := usual b (by simp)
    have stays : lineByte l p b = .more l := by
      simp only [targetByte,Bool.and_eq_true,decide_eq_true_eq] at head
      obtain ⟨⟨⟨⟨nul,lf⟩,cr⟩,space⟩,hash⟩ := head
      simp only [lineByte,inUri,uriByte,if_neg nul,if_neg lf,if_neg cr,if_neg space,if_neg hash]
    simp only [List.cons_append,ngxHttpParseRequestLine,stays]
    rw [ih (p + 1) fun c mem => usual c (by simp [mem])]
    congr 1
    simp only [List.length_cons]
    omega

def targetLine (stop : Nat) : Line :=
  { state := .almostDone,uriStart := 4,argsStart := some 13,uriEnd := stop }

theorem parseTail (p : Nat) (rest : Bytes) :
    ngxHttpParseRequestLine { state := .uri,uriStart := 4,argsStart := some 13 } p
      (ascii " HTTP/1.1" ++ crlf ++ rest) = some (targetLine p) := by
  rfl

theorem parseRequest (target rest : Bytes) (usual : ∀ b ∈ target, targetByte b = true) :
    ngxHttpParseRequestLine {} 0 (ascii "GET /getfile?" ++ (target ++ (ascii " HTTP/1.1" ++ crlf ++ rest))) =
      some (targetLine (13 + target.length)) := by
  have start : ngxHttpParseRequestLine {} 0
      (ascii "GET /getfile?" ++ (target ++ (ascii " HTTP/1.1" ++ crlf ++ rest))) =
      ngxHttpParseRequestLine { state := .uri,uriStart := 4,argsStart := some 13 } 13
        (target ++ (ascii " HTTP/1.1" ++ crlf ++ rest)) := rfl
  rw [start,parseTarget _ rfl 13 target _ usual]
  exact parseTail _ rest

theorem takeDigits {digits : Bytes} (all : ∀ b ∈ digits, isdigit b = true) {c : Byte} (stop : isdigit c = false)
    (rest : Bytes) : (digits ++ c :: rest).takeWhile isdigit = digits := by
  induction digits with
  | nil => simp [stop]
  | cons b digits ih => simp [all b (by simp),ih fun d mem => all d (by simp [mem])]

def mark (uri : Bytes) : Byte := if 63 ∈ uri then 38 else 63

theorem urlIDShape (uri : Bytes) (urlId : Nat) : urlIDText uri urlId = mark uri :: (urlIDMark ++ 61 :: intText urlId) := by
  unfold urlIDText mark
  split <;> rfl

theorem intUsual (n : Nat) : ∀ b ∈ intText n, targetByte b = true := by
  intro b mem
  have digit := decimalDigits 10 n b mem
  simp only [isdigit,Bool.and_eq_true,decide_eq_true_eq] at digit
  obtain ⟨low,high⟩ := digit
  rw [UInt8.le_iff_toNat_le] at low high
  have away : ∀ c : Byte, c.toNat < 48 → b ≠ c := by
    intro c small same
    rw [same] at low
    exact absurd low (by simpa using small)
  simp only [targetByte,Bool.and_eq_true,decide_eq_true_eq]
  exact ⟨⟨⟨⟨away 0 (by simp),away 10 (by simp)⟩,away 13 (by simp)⟩,away 32 (by simp)⟩,away 35 (by simp)⟩

theorem urlIDUsual (uri : Bytes) (urlId : Nat) : ∀ b ∈ urlIDText uri urlId, targetByte b = true := by
  intro b mem
  rw [urlIDShape,List.mem_cons,List.mem_append,List.mem_cons] at mem
  rcases mem with rfl | inMark | rfl | digit
  · unfold mark
    split <;> decide
  · have all : ∀ c ∈ urlIDMark, targetByte c = true := by decide +kernel
    exact all b inMark
  · decide
  · exact intUsual urlId b digit

theorem markFound {uri : Bytes} (missing : search urlIDMark uri = none) (nul : (0 : Byte) ∉ uri) (urlId : Nat)
    (rest : Bytes) : strstr (uri ++ urlIDText uri urlId ++ rest) urlIDMark = some (uri.length + 1) := by
  have clean : mark uri ∉ urlIDMark := by
    unfold mark
    split <;> decide
  have text : (0 : Byte) ∉ uri ++ urlIDText uri urlId := by
    intro mem
    rcases List.mem_append.mp mem with front | back
    · exact nul front
    · exact absurd (urlIDUsual uri urlId 0 back) (by decide)
  have here (t : Bytes) : search urlIDMark (urlIDMark ++ t) = some 0 := by
    have found : search urlIDMark urlIDMark = some 0 := by decide
    exact searchExtends found t
  unfold strstr
  rw [cstrAppend,if_neg text,urlIDShape,List.append_assoc,List.cons_append,
    searchSplit (by decide) clean,missing,List.append_assoc,here]
  simp

theorem urlIdTextFound {uri : Bytes} (missing : search urlIDMark uri = none) (nul : (0 : Byte) ∉ uri) (urlId : Nat)
    (rest : Bytes) : strstr (uri ++ urlIDText uri urlId ++ 32 :: rest) urlIDMark = some (uri.length + 1) ∧
    ((uri ++ urlIDText uri urlId ++ 32 :: rest).drop (uri.length + 1 + 6)).takeWhile isdigit = intText urlId := by
  refine ⟨markFound missing nul urlId _,?_⟩
  have behind : (uri ++ urlIDText uri urlId ++ 32 :: rest).drop (uri.length + 1 + 6) = intText urlId ++ 32 :: rest := by
    rw [urlIDShape,List.append_assoc,Nat.add_assoc,← List.drop_drop,List.drop_left]
    rfl
  rw [behind]
  exact takeDigits (decimalDigits 10 urlId) (by decide) rest

theorem requestShape (ip uri behind : Bytes) (urlId : Nat) : ∃ rest, getText uri (urlIDText uri urlId) ip ++ behind =
    ascii "GET /getfile?" ++ (uri ++ urlIDText uri urlId ++ (ascii " HTTP/1.1" ++ crlf ++ rest)) :=
  ⟨ascii "Host: " ++ ip ++ crlf ++ ascii "Connection: close" ++ crlf ++ crlf ++ behind,
    by simp only [getText,List.append_assoc]⟩

theorem targetArgs (target rest : Bytes) (some_ : target ≠ []) :
    requestArgs (ascii "GET /getfile?" ++ (target ++ rest)) (targetLine (13 + target.length)) =
      some (target,target ++ rest) := by
  have long := List.length_pos_of_ne_nil some_
  have start : (ascii "GET /getfile?" ++ (target ++ rest)).drop 13 = target ++ rest := rfl
  simp only [requestArgs,targetLine,slice,start]
  rw [if_neg (by simp),if_pos (by omega),Nat.add_sub_cancel_left,List.take_left]

def decodedBack (bytes : Bytes) : Option (Bytes × Option Nat × Option Nat × Option Nat) :=
  (ngxHttpParseRequestLine {} 0 bytes).bind fun line => (requestArgs bytes line).map fun (args,memory) =>
    (args,mapUriUrlId memory,finalizeUrlId memory,urlIdReads memory)

theorem builtText {ip uri : Bytes} {urlId len : Nat} {request : Bytes}
    (built : scNgxBuildGet ip uri urlId len = some request) : request = getText uri (urlIDText uri urlId) ip := by
  unfold scNgxBuildGet at built
  split at built
  · cases built
  · dsimp only at built
    split at built
    · cases built
    · exact (Option.some.inj built).symm

/-- With no mark in the URL itself the id comes back, by the arguments and the byte behind them. -/
theorem urlIdRoundTrip (ip uri behind : Bytes) (urlId : Fin (2 ^ 31)) (len : Nat) (request : Bytes)
    (allowed : ∀ b ∈ uri, targetByte b = true) (unmarked : search urlIDMark uri = none)
    (built : scNgxBuildGet ip uri urlId len = some request) :
    ∃ args, args = uri ++ urlIDText uri urlId ∧
      decodedBack (request ++ behind) = some (args,some urlId.val,some urlId.val,some (args.length + 1)) := by
  obtain ⟨rest,shape⟩ := requestShape ip uri behind urlId
  have nul : (0 : Byte) ∉ uri := fun mem => absurd (allowed 0 mem) (by decide)
  have usual : ∀ b ∈ uri ++ urlIDText uri urlId, targetByte b = true := by
    intro b mem
    rcases List.mem_append.mp mem with front | back
    · exact allowed b front
    · exact urlIDUsual uri urlId b back
  obtain ⟨found,digits⟩ := urlIdTextFound unmarked nul urlId (ascii "HTTP/1.1" ++ crlf ++ rest)
  have memory : uri ++ urlIDText uri urlId ++ (ascii " HTTP/1.1" ++ crlf ++ rest) =
      uri ++ urlIDText uri urlId ++ 32 :: (ascii "HTTP/1.1" ++ crlf ++ rest) := rfl
  have decoded : (urlIdText (uri ++ urlIDText uri urlId ++ 32 :: (ascii "HTTP/1.1" ++ crlf ++ rest))).bind ngxAtoi =
      some urlId.val := by
    simp only [urlIdText,found,Option.map_some,digits,Option.bind_some,atoiInt]
  have reads : urlIdReads (uri ++ urlIDText uri urlId ++ 32 :: (ascii "HTTP/1.1" ++ crlf ++ rest)) =
      some ((uri ++ urlIDText uri urlId).length + 1) := by
    have five : urlIDMark.length = 5 := rfl
    simp only [urlIdReads,found,Option.map_some,digits]
    simp only [urlIDShape,List.length_append,List.length_cons,five,Option.some.injEq]
    omega
  refine ⟨_,rfl,?_⟩
  rw [builtText built,shape]
  unfold decodedBack
  rw [parseRequest _ rest usual,Option.bind_some,targetArgs _ _ (by simp [urlIDShape]),Option.map_some,memory]
  simp only [mapUriUrlId,finalizeUrlId,decoded,reads]

theorem urlIdRoundTripPlain : ∃ args, args = ascii "a/b" ++ urlIDText (ascii "a/b") 7 ∧
    decodedBack (getText (ascii "a/b") (ascii "?urlID=7") (ascii "1.2.3.4") ++ []) =
      some (args,some 7,some 7,some (args.length + 1)) :=
  urlIdRoundTrip (ascii "1.2.3.4") (ascii "a/b") [] 7 bufferLen _ (by decide +kernel) (by decide +kernel) (by decide +kernel)

theorem idMisread :
    (scNgxBuildGet (ascii "1.2.3.4") (ascii "a/b") 7 bufferLen).bind decodedBack =
      some (ascii "a/b?urlID=7",some 7,some 7,some 12) ∧
    (scNgxBuildGet (ascii "1.2.3.4") (ascii "a/b?urlID=9") 12307 bufferLen).bind decodedBack =
      some (ascii "a/b?urlID=9&urlID=12307",some 9,some 9,some 12) := by
  decide

end MipsElfExec.Getfile
