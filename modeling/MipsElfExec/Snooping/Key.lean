import MipsElfExec.Snooping.Rule

/-! The key of a URL and the name of its local file. Both work in place on the
text of the URL: the kept parts move to the front, then the file part and the
parameter part are copied behind them. -/
namespace MipsElfExec.Snooping
open CString

def httpSpUrlLenMax : Nat := 600
def httpSpLfileLenMax : Nat := 256

-- Up to the n-th '&'; the slashes on the way become '_' where the parser wants it.
def paraScan (slash : Bool) : Nat → Bytes → Bytes
  | _,[] => []
  | n,b :: bs =>
    if b = 38 then if n ≤ 1 then [] else b :: paraScan slash (n - 1) bs
    else (if slash && b == 47 then 95 else b) :: paraScan slash n bs

def paraKey (tag : Bytes) (ends : Nat) (slash : Bool) (para : Bytes) : Bytes :=
  match search tag para with
  | none => []
  | some i => 95 :: paraScan slash ends (para.drop i)

def ngxHttpArkLetvComParaKey : Bytes → Bytes := paraKey (ascii "ark=") 1 false
def ngxHttpQqComParaKey : Bytes → Bytes := paraKey (ascii "vid=") 1 false
def ngxHttpSohuParaKey : Bytes → Bytes := paraKey (ascii "file") 1 true
def ngxHttpYoukuAndriodParaKey : Bytes → Bytes := paraKey (ascii "id=") 1 false
def ngxHttpPlYoukuParaKey : Bytes → Bytes := paraKey (ascii "vid=") 2 false

def sohuM3u8Scan : Nat → Bytes → Bytes
  | _,[] => []
  | j,b :: bs =>
    let j := if b = 95 then j + 1 else j
    if j ≠ 1 then b :: sohuM3u8Scan j bs else sohuM3u8Scan j bs

def ngxHttpSohuM3u8FileKey : Bytes → Bytes := sohuM3u8Scan 0

def KeyParse.run : KeyParse → Bytes → Bytes
  | .arkLetvCom => ngxHttpArkLetvComParaKey
  | .qqCom => ngxHttpQqComParaKey
  | .sohuM3u8File => ngxHttpSohuM3u8FileKey
  | .sohu => ngxHttpSohuParaKey
  | .youkuAndriod => ngxHttpYoukuAndriodParaKey
  | .plYouku => ngxHttpPlYoukuParaKey

def keyParse (parse : Option KeyParse) (text : Bytes) : Bytes :=
  match parse with
  | some p => p.run text
  | none => text

structure KeyScan where
  kept : Bytes
  lastXiegan : Nat
  query : Option Nat
  deriving DecidableEq, Repr

-- `slashes` is xiegan_num + 1; a shift takes its count modulo 32.
def keyScan (keyFlg : Nat) : Bytes → Nat → Nat → Nat → KeyScan
  | [],_,_,last => ⟨[],last,none⟩
  | b :: bs,i,slashes,last =>
    if b = 63 then ⟨[],last,some i⟩
    else
      let slashes := if b = 47 then slashes + 1 else slashes
      let last := if b = 47 then i else last
      let rest := keyScan keyFlg bs (i + 1) slashes last
      if keyFlg.testBit ((slashes + 31) % 32) then { rest with kept := b :: rest.kept } else rest

def overwrite (data : Bytes) (pos : Nat) (text : Bytes) : Bytes :=
  data.take pos ++ text ++ data.drop (pos + text.length)

def ngxHttpSnoopingUrl2localKey (urlName : Bytes) (rule : Rule) : Bytes :=
  let scan := keyScan rule.keyFlg urlName 0 0 0
  let stop := scan.query.getD urlName.length
  let data := overwrite urlName 0 scan.kept
  let fileKey := rule.keyFlg &&& httpCacheKeyFile ≠ 0
  let file := if fileKey then keyParse rule.urlFileKeyParse (slice data scan.lastXiegan stop) else []
  let parsed := overwrite data scan.lastXiegan file
  let data := overwrite parsed scan.kept.length file
  let len := scan.kept.length + file.length
  let paraKey := stop < urlName.length ∧ rule.keyFlg &&& httpCacheKeyPara ≠ 0
  let para := if paraKey then keyParse rule.urlParaKeyParse (slice data stop urlName.length) else []
  (overwrite data len para).take (len + para.length)

-- In the host '.' becomes '_'; behind its slash every further '/' does, up to the '?'. A URL without a slash takes
-- the NUL that ends it along.
def localHost : Bytes → Bytes
  | [] => []
  | b :: bs => if b = 47 then [] else (if b = 46 then 95 else b) :: localHost bs

def ngxHttpUrl2localFile (urlStr : Bytes) (rule : Rule) : Bytes :=
  let host := localHost urlStr
  let res := urlStr.drop (host.length + 1)
  let path := (res.takeWhile (· ≠ 63)).map (fun b => if b = 47 then 95 else b)
  let para := res.drop path.length
  let file := if host.length + 1 = urlStr.length then host else host ++ (urlStr[host.length]?.getD 0) :: path
  match rule.urlParaKeyParse with
  | none => file
  | some parse =>
    if para = [] ∨ rule.keyFlg &&& httpCacheKeyPara = 0 then file
    else
      let key := parse.run para
      if file.length + key.length < httpSpLfileLenMax then file ++ key else file

def word (n : Nat) : Nat := n % 2 ^ 32
def wordSub (a b : Nat) : Nat := word (a + 2 ^ 32 - b)

def ngxHashKey (data : Bytes) : Nat := data.foldl (fun key c => word (key * 31 + c.toNat)) 0

theorem forbidenKeyEmpty (urlName : Bytes) : ngxHttpSnoopingUrl2localKey urlName httpForbidenRule = [] := by
  have kept (i slashes last : Nat) : (keyScan 0 urlName i slashes last).kept = [] := by
    induction urlName generalizing i slashes last with
    | nil => rfl
    | cons b bs ih =>
      unfold keyScan
      split
      · rfl
      · simp [ih]
  simp [ngxHttpSnoopingUrl2localKey,httpForbidenRule,kept,overwrite]

end MipsElfExec.Snooping
