import Mathlib.Algebra.Order.Ring.Nat
import MipsElfExec.Lib.CString

/-! The playlist that the video server answers with: the parser of the client, which walks the text by the
lengths of its tokens, and the text that the server makes of a playlist. A pointer is what lies behind it. -/
namespace MipsElfExec.SnoopClient
open CString

def ykValueLen : Nat := 16
def ykTokenLenType : Nat := 6
def ykTokenLenTypeEnd : Nat := 3
def ykTokenLenSegs : Nat := 8
def ykTokenLenSegEnd : Nat := 2
def ykTokenLenNo : Nat := 5
def ykTokenLenSize : Nat := 7
def ykTokenLenSeconds : Nat := 9
def ykTokenLenK : Nat := 4
def ykTokenLenK2 : Nat := 5
def ykTokenLenSeed : Nat := 6
def ykSeedStringLen : Nat := 8
def ykStreamTypeTotal : Nat := 4
def ykStreamFileIdsLen : Nat := 256
def ykStreamSegsMax : Nat := 64
def ykSegInfoLen : Nat := 256
def ykSegmentKLen : Nat := 32
def ykSegmentK2Len : Nat := 32

inductive StreamType where
  | flv | mp4 | hd2 | hd3
  deriving DecidableEq, Repr

def StreamType.name : StreamType → Bytes
  | .flv => ascii "flv"
  | .mp4 => ascii "mp4"
  | .hd2 => ascii "hd2"
  | .hd3 => ascii "hd3"

structure SegmentInfo where
  no : Nat
  size : Nat
  seconds : Nat
  k : Bytes
  k2 : Bytes
  deriving DecidableEq, Repr

structure StreamInfo where
  type : StreamType
  streamfileids : Bytes
  seed : Nat := 0
  segs : List SegmentInfo := []
  deriving DecidableEq, Repr

def quote : Byte := 34

def decimal (digits : Bytes) : Nat := digits.foldl (fun n b => 10 * n + (b.toNat - 48)) 0

def atoi (val : Bytes) : Nat := min (decimal val) (2 ^ 31 - 1)

def after (cur pat : Bytes) (skip : Nat) : Option Bytes := (strstr cur pat).map fun k => cur.drop (k + skip)

def copyWhile (p : Byte → Bool) (len : Nat) (cur : Bytes) : Bytes × Bytes :=
  let val := (cur.takeWhile p).take len
  (val,cur.drop val.length)

def valDigit (b : Byte) : Bool := b != quote && isdigit b

def ykVal : Bytes → Bytes × Bytes := copyWhile valDigit (ykValueLen - 1)

def keyByte (b : Byte) : Bool := b != quote && b != 0

def ykCreateSegmentInfo (info : Bytes) : Option SegmentInfo := do
  let cur ← after info (ascii "no") ykTokenLenNo
  let (no,cur) := ykVal cur
  let cur ← after cur (ascii "size") ykTokenLenSize
  let (size,cur) := ykVal cur
  let cur ← after cur (ascii "seconds") ykTokenLenSeconds
  let cur := if cur.head? = some quote then cur.drop 1 else cur
  let (seconds,cur) := ykVal cur
  let cur ← (strchr cur 107).map fun k => cur.drop (k + ykTokenLenK)
  let (k,cur) := copyWhile keyByte (ykSegmentKLen - 1) cur
  let cur ← after cur (ascii "k2") ykTokenLenK2
  let (k2,_) := copyWhile keyByte (ykSegmentK2Len - 1) cur
  some ⟨atoi no,atoi size,atoi seconds,k,k2⟩

def ykParsePlSeed (cur : Bytes) : Option (Bytes × Bytes) :=
  (after cur (ascii "seed") ykTokenLenSeed).map (copyWhile (fun b => b != 44 && isdigit b) (ykSeedStringLen - 1))

def streamTypes : List StreamType := [.hd2,.mp4,.hd3,.flv]

def typeAt (ret : Bytes) : Option StreamType := streamTypes.find? fun type => type.name.isPrefixOf ret

def idsEnd : Bytes := ascii "\"se"
def segsEnd : Bytes := ascii "\"st"

def fileIdsLoop : Nat → Bytes → List StreamInfo → Option (Bytes × List StreamInfo)
  | 0,_,_ => none
  | left + 1,ret,streams =>
    match typeAt ret with
    | some type =>
      let ids := (ret.drop ykTokenLenType).takeWhile (· != quote)
      let ret := (ret.drop ykTokenLenType).dropWhile (· != quote)
      fileIdsLoop left (ret.drop ykTokenLenTypeEnd) (streams ++ [⟨type,ids,0,[]⟩])
    | none => if idsEnd.isPrefixOf ret then some (ret.drop 1,streams) else none

def streamfileidsOpen : Bytes := ascii "streamfileids\":\x7b\""

def ykParsePlStreamfileids (cur : Bytes) : Option (Bytes × List StreamInfo) :=
  (after cur (ascii "streamfileids") streamfileidsOpen.length).bind fun ret => fileIdsLoop ykStreamTypeTotal ret []

def segStore (segs : List SegmentInfo) (cnt : Nat) (seg : SegmentInfo) : List SegmentInfo :=
  segs.take cnt ++ seg :: segs.drop (cnt + 1)

-- One more segment than there is room for is stored behind the array before the count is checked.
def segsLoop (stop : Bytes) : Nat → Bytes → List SegmentInfo → Nat → Option (Bytes × List SegmentInfo)
  | 0,ret,segs,_ => if stop.length < ret.length then none else some (ret,segs)
  | left + 1,ret,segs,cnt =>
    if stop.length < ret.length then
      let info := (ret.takeWhile (· != 125)).take ykSegInfoLen
      match ykCreateSegmentInfo (info ++ List.replicate (ykSegInfoLen - info.length) 0) with
      | none => none
      | some seg => segsLoop stop left (ret.drop (info.length + ykTokenLenSegEnd)) (segStore segs cnt seg) (cnt + 1)
    else some (ret,segs)

def ykParsePlSegsDo (cur : Bytes) (stream : StreamInfo) : Option (Bytes × StreamInfo) :=
  let ret := cur.drop ykTokenLenType
  let stop := match strchr ret 93 with
    | some k => ret.drop k
    | none => ret
  (segsLoop stop ykStreamSegsMax ret stream.segs 0).map fun (ret,segs) =>
    (ret.drop ykTokenLenSegEnd,{ stream with segs := segs })

def ykFindStreamInfo (streams : List StreamInfo) (type : StreamType) : Option Nat :=
  streams.findIdx? fun stream => stream.type == type

def plSegsLoop : Nat → Bytes → List StreamInfo → Option (Bytes × List StreamInfo)
  | 0,_,_ => none
  | fuel + 1,ret,streams =>
    match typeAt ret with
    | some type => do
      let i ← ykFindStreamInfo streams type
      let stream ← streams[i]?
      let (ret,stream) ← ykParsePlSegsDo ret stream
      plSegsLoop fuel ret (streams.set i stream)
    | none => if segsEnd.isPrefixOf ret then some (ret.drop 1,streams) else none

def ykParsePlSegs (cur : Bytes) (streams : List StreamInfo) : Option (Bytes × List StreamInfo) :=
  (after cur (ascii "segs") ykTokenLenSegs).bind fun ret => plSegsLoop ret.length ret streams

def ykParsePlaylist (data : Bytes) (streams : List StreamInfo) : Option (List StreamInfo) :=
  if streams = [] then do
    let (seed,cur) ← ykParsePlSeed data
    let (cur,streams) ← ykParsePlStreamfileids cur
    let (_,streams) ← ykParsePlSegs cur (streams.map fun stream => { stream with seed := atoi seed })
    some streams
  else none

structure Digits (len : Nat) where
  text : Bytes
  digits : ∀ b ∈ text,isdigit b = true
  short : text.length < len

structure Token (delimiters : List Byte) (len : Nat) where
  text : Bytes
  clean : ∀ b ∈ text,b ∉ delimiters
  short : text.length < len

structure Segment where
  no : Digits ykValueLen
  size : Digits ykValueLen
  seconds : Digits ykValueLen
  quoted : Bool
  k : Token [quote,0] ykSegmentKLen
  k2 : Token [quote,0] ykSegmentK2Len

structure Stream where
  type : StreamType
  fileids : Token [quote,0] ykStreamFileIdsLen
  first : Segment
  more : List Segment
  few : more.length < ykStreamSegsMax

structure Playlist where
  seed : Digits ykSeedStringLen
  first : Stream
  more : List Stream
  distinct : ((first :: more).map Stream.type).Nodup

def Playlist.streams (p : Playlist) : List Stream := p.first :: p.more

structure Layout where
  head : Bytes
  mid : Bytes
  between : Bytes
  tail : Bytes
  text : (0 : Byte) ∉ head ++ mid ++ between
  seedFirst : search (ascii "seed") (head ++ ascii "seed") = some head.length
  idsFirst : search (ascii "streamfileids") (44 :: mid ++ ascii "streamfileids") = some (mid.length + 1)
  opens : (ascii "se").isPrefixOf (between ++ ascii "segs") = true
  segsFirst : search (ascii "segs") (between ++ ascii "segs") = some between.length

def Segment.mark (s : Segment) : Bytes := if s.quoted then ascii "\"" else []

def Segment.body (s : Segment) (rest : Bytes) : Bytes :=
  ascii "\x7b\"no\":\"" ++ (s.no.text ++ (ascii "\",\"size\":\"" ++ (s.size.text ++ (ascii "\",\"seconds\":" ++
    (s.mark ++ (s.seconds.text ++ (s.mark ++ (ascii ",\"k\":\"" ++ (s.k.text ++ (ascii "\",\"k2\":\"" ++
      (s.k2.text ++ (ascii "\"" ++ rest))))))))))))

def segsText : Segment → List Segment → Bytes → Bytes
  | s,[],rest => s.body (ascii "\x7d]" ++ rest)
  | s,next :: more,rest => s.body (ascii "\x7d," ++ segsText next more rest)

def idsText : Stream → List Stream → Bytes → Bytes
  | s,[],rest => s.type.name ++ (ascii "\":\"" ++ (s.fileids.text ++ (ascii "\"\x7d," ++ rest)))
  | s,next :: more,rest => s.type.name ++ (ascii "\":\"" ++ (s.fileids.text ++ (ascii "\",\"" ++ idsText next more rest)))

def streamsText : Stream → List Stream → Bytes → Bytes
  | s,[],rest => s.type.name ++ (ascii "\":[" ++ segsText s.first s.more (ascii "\x7d," ++ rest))
  | s,next :: more,rest => s.type.name ++ (ascii "\":[" ++ segsText s.first s.more (ascii ",\"" ++ streamsText next more rest))

def Playlist.text (p : Playlist) (l : Layout) : Bytes :=
  l.head ++ (ascii "seed\":" ++ (p.seed.text ++ (44 :: l.mid ++ (streamfileidsOpen ++
    idsText p.first p.more (quote :: l.between ++ (ascii "segs\":\x7b\"" ++
      streamsText p.first p.more (segsEnd ++ l.tail)))))))

def Segment.info (s : Segment) : SegmentInfo :=
  ⟨decimal s.no.text,decimal s.size.text,decimal s.seconds.text,s.k.text,s.k2.text⟩

def Stream.info (seed : Nat) (s : Stream) : StreamInfo :=
  ⟨s.type,s.fileids.text,seed,(s.first :: s.more).map Segment.info⟩

def Playlist.info (p : Playlist) : List StreamInfo := p.streams.map (Stream.info (decimal p.seed.text))

end MipsElfExec.SnoopClient
