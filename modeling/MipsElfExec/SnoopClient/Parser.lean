import MipsElfExec.Lib.Checked
import MipsElfExec.SnoopClient.Playlist

/-! The playlist parser on the memory that it reads and fills: the answer with its NUL, the buffers, the objects
that it takes from the heap and the array that holds them. Every access is checked. An object is named by the call
that made it; an array of pointers is what stands before its first NULL. -/
namespace MipsElfExec.SnoopClient.Memory
open CString Access

structure Heap where
  calls : Nat := 0
  allocated : List Nat := []
  freed : List Nat := []
  deriving DecidableEq, Repr

def Heap.malloc (granted : Nat → Bool) (h : Heap) : Option Nat × Heap :=
  if granted h.calls then (some h.calls,{ h with calls := h.calls + 1,allocated := h.calls :: h.allocated })
  else (none,{ h with calls := h.calls + 1 })

def Heap.free (h : Heap) (p : Nat) : Heap := { h with freed := p :: h.freed }

structure Segment where
  addr : Nat
  stream : Option Nat
  info : SegmentInfo
  deriving DecidableEq, Repr

structure Stream where
  addr : Nat
  type : StreamType
  streamfileids : Bytes := []
  seed : Nat := 0
  segs : List Segment := []
  deriving DecidableEq, Repr

def ykVal (cur : Bytes) : Checked (Bytes × Bytes) := scan valDigit (ykValueLen - 1) cur

def mark {α : Type} (found : Checked (Option Bytes)) (skip : Nat) (next : Bytes → Checked (Option α)) :
    Checked (Option α) := do
  let some cur ← found | return none
  next (cur.drop skip)

def segmentFields (info : Bytes) : Checked (Option SegmentInfo) :=
  mark (strstrChecked info (ascii "no")) ykTokenLenNo fun cur => do
  let (no,cur) ← ykVal cur
  mark (strstrChecked cur (ascii "size")) ykTokenLenSize fun cur => do
  let (size,cur) ← ykVal cur
  mark (strstrChecked cur (ascii "seconds")) ykTokenLenSeconds fun cur => do
  let first ← deref cur
  let (seconds,cur) ← ykVal (if first = quote then cur.drop 1 else cur)
  mark (strchrChecked cur 107) ykTokenLenK fun cur => do
  let (k,cur) ← scan keyByte (ykSegmentKLen - 1) cur
  mark (strstrChecked cur (ascii "k2")) ykTokenLenK2 fun cur => do
  let (k2,_) ← scan keyByte (ykSegmentK2Len - 1) cur
  return some ⟨atoi no,atoi size,atoi seconds,k,k2⟩

section
variable (granted : Nat → Bool)

def ykCreateSegmentInfo (h : Heap) (info : Bytes) : Checked (Option Segment × Heap) :=
  match h.malloc granted with
  | (none,h) => .ok (none,h)
  | (some p,h) => do
    match ← segmentFields info with
    | none => return (none,h.free p)
    | some values => return (some ⟨p,none,values⟩,h)

def ykCreateStreamInfo (h : Heap) (type : StreamType) : Option Stream × Heap :=
  match h.malloc granted with
  | (none,h) => (none,h)
  | (some p,h) => (some ⟨p,type,[],0,[]⟩,h)

def ykParsePlSeed (cur : Bytes) : Checked (Option (Bytes × Bytes)) := do
  let some ret ← strstrChecked cur (ascii "seed") | return none
  return some (← scan (fun b => b != 44 && isdigit b) (ykSeedStringLen - 1) (ret.drop ykTokenLenSeed))

def firstType (ret : Bytes) : List StreamType → Checked (Option StreamType)
  | [] => .ok none
  | type :: types => do if ← memcmp ret type.name then return some type else firstType ret types

def fileIdsLoop : Nat → Bytes → List Stream → Heap → Checked (Option Bytes × List Stream × Heap)
  | 0,_,streams,h => .ok (none,streams,h)
  | left + 1,ret,streams,h => do
    match ← firstType ret streamTypes with
    | some type =>
      match ykCreateStreamInfo granted h type with
      | (none,h) => return (none,streams,h)
      | (some strm,h) =>
        let (ids,ret) ← copyTo (· != quote) ykStreamFileIdsLen (ret.drop ykTokenLenType)
        fileIdsLoop left (ret.drop ykTokenLenTypeEnd) (streams ++ [{ strm with streamfileids := ids }]) h
    | none => if ← memcmp ret idsEnd then return (some (ret.drop 1),streams,h) else return (none,streams,h)

def ykParsePlStreamfileids (cur : Bytes) (h : Heap) : Checked (Option Bytes × List Stream × Heap) := do
  let some ret ← strstrChecked cur (ascii "streamfileids") | return (none,[],h)
  fileIdsLoop granted ykStreamTypeTotal (ret.drop streamfileidsOpen.length) [] h

def segStore (segs : List Segment) (cnt : Nat) (seg : Segment) : List Segment := segs.take cnt ++ seg :: segs.drop (cnt + 1)

-- A missing bracket is the null pointer, which nothing lies before.
def isBefore (ret : Bytes) : Option Bytes → Bool
  | none => false
  | some stop => stop.length < ret.length

def segPass (owner : Nat) (stop : Option Bytes) (ret : Bytes) (segs : List Segment) (h : Heap)
    (store : Segment → Bytes → Heap → Checked (Option Bytes × List Segment × Heap)) :
    Checked (Option Bytes × List Segment × Heap) :=
  if isBefore ret stop then do
    let (text,ret) ← scan (· != 125) ykSegInfoLen ret
    let (seg,h) ← ykCreateSegmentInfo granted h (text ++ List.replicate (ykSegInfoLen - text.length) 0)
    match seg with
    | none => return (none,segs,h)
    | some seg => store { seg with stream := some owner } (ret.drop ykTokenLenSegEnd) h
  else .ok (some ret,segs,h)

-- `room` is how many places of the array there are from the count on.
def segsLoop (owner : Nat) (stop : Option Bytes) : Nat → Bytes → List Segment → Nat → Heap →
    Checked (Option Bytes × List Segment × Heap)
  | 0,ret,segs,_,h => segPass granted owner stop ret segs h fun _ _ _ => .error .write
  | room + 1,ret,segs,cnt,h => segPass granted owner stop ret segs h fun seg ret h =>
    let segs := segStore segs cnt seg
    if ykStreamSegsMax < cnt + 1 then .ok (none,segs,h) else segsLoop owner stop room ret segs (cnt + 1) h

def ykParsePlSegsDo (cur : Bytes) (stream : Stream) (h : Heap) : Checked (Option Bytes × List Segment × Heap) := do
  let ret := cur.drop ykTokenLenType
  let stop ← strchrChecked ret 93
  let (ret,segs,h) ← segsLoop granted stream.addr stop ykStreamSegsMax ret stream.segs 0 h
  return (ret.map (·.drop ykTokenLenSegEnd),segs,h)

def ykFindStreamInfo (streams : List Stream) (type : StreamType) : Option Nat :=
  streams.findIdx? fun stream => stream.type == type

def plSegsLoop : Nat → Bytes → List Stream → Heap → Checked (Option Bytes × List Stream × Heap)
  | 0,_,_,_ => .error .endless
  | fuel + 1,ret,streams,h => do
    match ← firstType ret streamTypes with
    | some type =>
      match (ykFindStreamInfo streams type).bind fun i => streams[i]?.map (i,·) with
      | none => return (none,streams,h)
      | some (i,stream) =>
        let (next,segs,h) ← ykParsePlSegsDo granted ret stream h
        let streams := streams.set i { stream with segs := segs }
        match next with
        | none => return (none,streams,h)
        | some ret => plSegsLoop fuel ret streams h
    | none => if ← memcmp ret segsEnd then return (some (ret.drop 1),streams,h) else return (none,streams,h)

def ykParsePlSegs (cur : Bytes) (streams : List Stream) (h : Heap) : Checked (Option Bytes × List Stream × Heap) := do
  let some ret ← strstrChecked cur (ascii "segs") | return (none,streams,h)
  let ret := ret.drop ykTokenLenSegs
  plSegsLoop granted (ret.length + 1) ret streams h

-- The loop looks for the end of the array, also behind it.
def setSeeds (streams : List Stream) (seed : Nat) : Checked (List Stream) :=
  if streams.length < ykStreamTypeTotal then .ok (streams.map fun stream => { stream with seed := seed }) else .error .read

def ykParsePlaylist (data : Bytes) (streams : List Stream) (h : Heap) : Checked (Int × List Stream × Heap) :=
  if streams ≠ [] then .ok (-1,streams,h)
  else do
    let some (ss,cur) ← ykParsePlSeed data | return (-1,streams,h)
    let (cur,streams,h) ← ykParsePlStreamfileids granted cur h
    match cur with
    | none => return (-1,streams,h)
    | some cur =>
      let streams ← setSeeds streams (atoi ss)
      let (cur,streams,h) ← ykParsePlSegs granted cur streams h
      return (if cur.isSome then 0 else -1,streams,h)

end

def ykDestroyStreamsAll (streams : List Stream) (h : Heap) : List Stream × Heap :=
  ([],streams.foldl (fun h stream => (stream.segs.foldl (fun h seg => h.free seg.addr) h).free stream.addr) h)

end MipsElfExec.SnoopClient.Memory
