import MipsElfExec.Streaming.FlvScan

/-! The key frames of an flv file as its metadata tell them, and the one that the scan chooses for a start. The start
is compared with the times of the key frames, which stand behind their positions. -/
namespace MipsElfExec.Streaming
open CString Access

structure Frame where
  position : Bytes
  time : Bytes
  eight : position.length = 8 ∧ time.length = 8

def positionBytes (frames : List Frame) : Bytes := frames.flatMap fun f => 0 :: f.position
def timeBytes (frames : List Frame) : Bytes := frames.flatMap fun f => 0 :: f.time

def frameBytes (count : Bytes) (frames : List Frame) : Bytes :=
  keyframesName ++ [3,0,13] ++ ascii "filepositions" ++ 10 :: count ++ positionBytes frames ++
    ([0,5] ++ ascii "times" ++ 10 :: count) ++ timeBytes frames

-- What is read of a file with a script tag in it; the tag ends, with its size behind it, inside of the buffer. Before
-- the tag no place passes for one, and before the key frames nothing has their name.
structure Metadata where
  front : Bytes
  size : Bytes
  stamp : Bytes
  lead : Bytes
  count : Bytes
  frames : List Frame
  tail : Bytes
  behind : Bytes
  rest : Bytes
  fields : size.length = 3 ∧ stamp.length = 4 ∧ count.length = 4 ∧ behind.length = 3

def Metadata.data (m : Metadata) : Bytes := m.lead ++ frameBytes m.count m.frames ++ m.tail

def Metadata.tag (m : Metadata) : Bytes := 18 :: m.size ++ m.stamp ++ [0,0,0] ++ m.data ++ 0 :: m.behind

def Metadata.head (m : Metadata) : Bytes := m.front ++ m.tag ++ m.rest

structure Metadata.Valid (m : Metadata) : Prop where
  sized : bigEndian m.size = m.data.length
  ended : bigEndian m.behind = m.data.length + 11
  counted : bigEndian m.count = m.frames.length
  named : search keyframesName (m.size ++ m.stamp ++ [0,0,0] ++ m.lead ++ keyframesName) = some (10 + m.lead.length)
  inside : (m.front ++ m.tag).length ≤ flvMetadataReadLen
  read : m.head.length ≤ flvMetadataReadLen
  passed : ∀ i < m.front.length,tagAt (filled flvMetadataReadLen m.head) m.head.length i = false ∧
    TestInside (filled flvMetadataReadLen m.head) m.head.length i

section places
variable {a b c head : Bytes} {p n : Nat}

theorem windowAt (shape : head = a ++ b ++ c) (fits : head.length ≤ flvMetadataReadLen) (place : a.length = p)
    (size : b.length = n) : window (filled flvMetadataReadLen head) p n = b := by
  have limit : flvMetadataReadLen = 2 ^ 14 := rfl
  have long := congrArg List.length shape
  simp only [List.length_append] at long
  subst place size
  rw [window,Nat.mod_eq_of_lt (by omega),filled,shape,List.append_assoc,List.append_assoc,List.drop_left,List.take_left]

theorem byteOfAt {x : Byte} (shape : head = a ++ x :: c) (fits : head.length ≤ flvMetadataReadLen) (place : a.length = p) :
    byteOf (filled flvMetadataReadLen head) p = x := by
  have limit : flvMetadataReadLen = 2 ^ 14 := rfl
  have long := congrArg List.length shape
  simp only [List.length_append,List.length_cons] at long
  subst place
  rw [byteOf,Nat.mod_eq_of_lt (by omega),filled,shape,List.getD_eq_getElem?_getD,List.append_assoc,
    List.getElem?_append_right le_rfl]
  simp

end places

section block
variable {m : Metadata}

section entries
variable (field : Frame → Bytes) {frames : List Frame}

theorem entrySize (eight : ∀ f,(field f).length = 8) (frames : List Frame) :
    (frames.flatMap fun f => 0 :: field f).length = 9 * frames.length := by
  induction frames with
  | nil => rfl
  | cons f frames ih =>
    rw [List.flatMap_cons,List.length_append,ih,List.length_cons,eight f,List.length_cons,Nat.mul_succ,Nat.add_comm]

theorem entrySplit {k : Nat} (inside : k < frames.length) : (frames.flatMap fun f => 0 :: field f) =
    ((frames.take k).flatMap fun f => 0 :: field f) ++ [0] ++ field frames[k] ++ (frames.drop (k + 1)).flatMap fun f => 0 :: field f := by
  have split : frames = frames.take k ++ frames[k] :: frames.drop (k + 1) := by
    rw [← List.drop_eq_getElem_cons inside,List.take_append_drop]
  conv_lhs => rw [split,List.flatMap_append,List.flatMap_cons]
  simp only [List.append_assoc,List.cons_append,List.nil_append]

end entries

theorem positionSize (frames : List Frame) : (positionBytes frames).length = 9 * frames.length :=
  entrySize Frame.position (fun f => f.eight.1) frames

theorem timeSize (frames : List Frame) : (timeBytes frames).length = 9 * frames.length :=
  entrySize Frame.time (fun f => f.eight.2) frames

def Metadata.opening (m : Metadata) : Bytes :=
  m.front ++ 18 :: m.size ++ m.stamp ++ [0,0,0] ++ m.lead ++ keyframesName ++ [3,0,13] ++ ascii "filepositions" ++ 10 :: m.count
def Metadata.middle (m : Metadata) : Bytes := [0,5] ++ ascii "times" ++ 10 :: m.count
def Metadata.closing (m : Metadata) : Bytes := m.tail ++ 0 :: m.behind ++ m.rest

theorem headShape (m : Metadata) :
    m.head = m.opening ++ positionBytes m.frames ++ m.middle ++ timeBytes m.frames ++ m.closing := by
  simp [Metadata.head,Metadata.tag,Metadata.data,frameBytes,Metadata.opening,Metadata.middle,Metadata.closing]

theorem openingSize (m : Metadata) : m.opening.length = m.front.length + m.lead.length + 41 := by
  obtain ⟨size,stamp,count,-⟩ := m.fields
  have name : keyframesName.length = 9 := rfl
  have positions : (ascii "filepositions").length = 13 := rfl
  simp only [Metadata.opening,List.length_append,List.length_cons,List.length_nil,size,stamp,count,name,positions]
  omega

theorem middleSize (m : Metadata) : m.middle.length = 12 := by
  obtain ⟨-,-,count,-⟩ := m.fields
  have times : (ascii "times").length = 5 := rfl
  simp only [Metadata.middle,List.length_append,List.length_cons,List.length_nil,count,times]

theorem tagSize (m : Metadata) : m.tag.length = m.data.length + 15 := by
  obtain ⟨size,stamp,-,behind⟩ := m.fields
  simp only [Metadata.tag,List.length_append,List.length_cons,List.length_nil,size,stamp,behind]
  omega

theorem dataSize (m : Metadata) : m.data.length = m.lead.length + 42 + 18 * m.frames.length + m.tail.length := by
  obtain ⟨-,-,count,-⟩ := m.fields
  have name : keyframesName.length = 9 := rfl
  have positions : (ascii "filepositions").length = 13 := rfl
  have times : (ascii "times").length = 5 := rfl
  simp only [Metadata.data,frameBytes,List.length_append,List.length_cons,List.length_nil,count,name,positions,times,
    positionSize,timeSize]
  omega

theorem headSize (m : Metadata) : m.head.length = m.front.length + m.tag.length + m.rest.length := by
  simp only [Metadata.head,List.length_append]

theorem tagFound (valid : m.Valid) : tagAt (filled flvMetadataReadLen m.head) m.head.length m.front.length = true := by
  obtain ⟨size,stamp,-,behind⟩ := m.fields
  have long := headSize m
  rw [tagSize m] at long
  have some_ := dataSize m
  have kind : byteOf (filled flvMetadataReadLen m.head) m.front.length = 18 :=
    byteOfAt (c := m.size ++ m.stamp ++ [0,0,0] ++ m.data ++ 0 :: m.behind ++ m.rest) (by simp [Metadata.head,Metadata.tag])
      valid.read rfl
  have first : byteOf (filled flvMetadataReadLen m.head) (m.front.length + 8) = 0 :=
    byteOfAt (a := m.front ++ 18 :: m.size ++ m.stamp) (c := [0,0] ++ m.data ++ 0 :: m.behind ++ m.rest)
      (by simp [Metadata.head,Metadata.tag]) valid.read (by simp [size,stamp])
  have second : byteOf (filled flvMetadataReadLen m.head) (m.front.length + 9) = 0 :=
    byteOfAt (a := m.front ++ 18 :: m.size ++ m.stamp ++ [0]) (c := [0] ++ m.data ++ 0 :: m.behind ++ m.rest)
      (by simp [Metadata.head,Metadata.tag]) valid.read (by simp [size,stamp])
  have third : byteOf (filled flvMetadataReadLen m.head) (m.front.length + 10) = 0 :=
    byteOfAt (a := m.front ++ 18 :: m.size ++ m.stamp ++ [0,0]) (c := m.data ++ 0 :: m.behind ++ m.rest)
      (by simp [Metadata.head,Metadata.tag]) valid.read (by simp [size,stamp])
  have sized : window (filled flvMetadataReadLen m.head) (m.front.length + 1) 3 = m.size :=
    windowAt (a := m.front ++ [18]) (c := m.stamp ++ [0,0,0] ++ m.data ++ 0 :: m.behind ++ m.rest)
      (by simp [Metadata.head,Metadata.tag]) valid.read (by simp) size
  have again : window (filled flvMetadataReadLen m.head) (m.front.length + m.data.length + 12) 3 = m.behind :=
    windowAt (a := m.front ++ 18 :: m.size ++ m.stamp ++ [0,0,0] ++ m.data ++ [0]) (c := m.rest)
      (by simp [Metadata.head,Metadata.tag]) valid.read (by simp [size,stamp]; omega) behind
  have script : isTag 18 = true := by decide
  unfold tagAt
  simp only [kind,first,second,third,sized,valid.sized,again,valid.ended,script]
  simp
  omega

theorem firstFound (valid : m.Valid) : firstTag m.head = some m.front.length := by
  have long := headSize m
  rw [tagSize m] at long
  unfold firstTag
  rw [List.find?_range'_eq_some]
  refine ⟨tagFound valid,?_,fun j _ before => ?_⟩
  · rw [List.mem_range'_1]
    omega
  · rw [(valid.passed j before).1]
    rfl

theorem nameFound (valid : m.Valid) : search keyframesName (m.head.drop (m.front.length + 1)) = some (10 + m.lead.length) := by
  have shape : m.head = m.front ++ [18] ++ (m.size ++ m.stamp ++ [0,0,0] ++ m.lead ++ keyframesName ++
      ([3,0,13] ++ ascii "filepositions" ++ 10 :: m.count ++ positionBytes m.frames ++ m.middle ++ timeBytes m.frames ++
        m.closing)) := by
    rw [headShape]
    simp [Metadata.opening]
  have behind : m.head.drop (m.front.length + 1) = m.size ++ m.stamp ++ [0,0,0] ++ m.lead ++ keyframesName ++
      ([3,0,13] ++ ascii "filepositions" ++ 10 :: m.count ++ positionBytes m.frames ++ m.middle ++ timeBytes m.frames ++
        m.closing) := by
    have size : m.front.length + 1 = (m.front ++ [18]).length := by simp
    rw [shape,size,List.drop_left]
  rw [behind]
  exact searchExtends valid.named _

def Metadata.table (m : Metadata) : KeyTable := ⟨filled flvMetadataReadLen m.head,m.opening.length,m.frames.length⟩

theorem tableFound (valid : m.Valid) : keyTable m.head = some m.table := by
  obtain ⟨size,stamp,count,-⟩ := m.fields
  have kind : byteOf (filled flvMetadataReadLen m.head) m.front.length = 18 :=
    byteOfAt (c := m.size ++ m.stamp ++ [0,0,0] ++ m.data ++ 0 :: m.behind ++ m.rest) (by simp [Metadata.head,Metadata.tag])
      valid.read rfl
  have opening := openingSize m
  have number : window (filled flvMetadataReadLen m.head) (m.front.length + 1 + (10 + m.lead.length) + 26) 4 = m.count := by
    refine windowAt (a := m.front ++ 18 :: m.size ++ m.stamp ++ [0,0,0] ++ m.lead ++ keyframesName ++ [3,0,13] ++
      ascii "filepositions" ++ [10]) (c := positionBytes m.frames ++ m.middle ++ timeBytes m.frames ++ m.closing) ?_
      valid.read ?_ count
    · rw [headShape]
      simp [Metadata.opening]
    · have name : keyframesName.length = 9 := rfl
      have positions : (ascii "filepositions").length = 13 := rfl
      simp only [List.length_append,List.length_cons,List.length_nil,size,stamp,name,positions]
      omega
  rw [keyTableFound,firstFound valid,Option.bind_some,kind,if_neg (by decide),nameFound valid,Option.map_some,tableBehind,
    number,valid.counted,Metadata.table]
  congr 2
  omega

theorem blockFits (toOff : Bytes → Int) (valid : m.Valid) (two : 2 ≤ m.frames.length) (start : Int) :
    ScanFits toOff m.head start := by
  have limit : flvMetadataReadLen = 2 ^ 14 := rfl
  have inside := valid.inside
  rw [List.length_append,tagSize m] at inside
  have data := dataSize m
  have opening := openingSize m
  refine ⟨fun k _ high before => ?_,fun tag here script => .inl ?_,fun t table => ?_⟩
  · rcases Nat.lt_trichotomy k m.front.length with early | rfl | late
    · exact (valid.passed k early).2
    · have sized : window (filled flvMetadataReadLen m.head) (m.front.length + 1) 3 = m.size :=
        windowAt (a := m.front ++ [18]) (c := m.stamp ++ [0,0,0] ++ m.data ++ 0 :: m.behind ++ m.rest)
          (by simp [Metadata.head,Metadata.tag]) valid.read (by simp) m.fields.1
      simp only [TestInside,sized,valid.sized,insideSmall (show m.front.length + 8 < 2 ^ 32 by omega),
        insideSmall (show m.front.length + 9 < 2 ^ 32 by omega),insideSmall (show m.front.length + 10 < 2 ^ 32 by omega),
        insideSmall (show m.front.length + m.data.length + 12 < 2 ^ 32 by omega)]
      omega
    · have found := before m.front.length (Nat.zero_le _) late
      rw [tagFound valid] at found
      cases found
  · rw [firstFound valid] at here
    cases here
    rw [nameFound valid]
    rfl
  · rw [tableFound valid] at table
    cases table
    have base : m.table.fposStart = m.opening.length := rfl
    have total : m.table.total = m.frames.length := rfl
    refine ⟨by omega,fun k _ high _ => ⟨?_,fun _ => ?_⟩,?_⟩
    · rw [insideSmall (by omega)]
      omega
    · rw [insideSmall (by omega)]
      omega
    · rw [insideSmall (by omega)]
      omega

end block

section choice
variable (toOff : Bytes → Int) {m : Metadata}

theorem positionRead (valid : m.Valid) {k : Nat} (inside : k < m.frames.length) :
    m.table.position toOff k = toOff m.frames[k].position := by
  have bytes_ : positionBytes m.frames =
      positionBytes (m.frames.take k) ++ [0] ++ m.frames[k].position ++ positionBytes (m.frames.drop (k + 1)) := entrySplit Frame.position inside
  unfold KeyTable.position
  rw [show window m.table.buf (m.table.fposStart + 9 * k + 1) 8 = m.frames[k].position from
    windowAt (a := m.opening ++ positionBytes (m.frames.take k) ++ [0])
      (c := positionBytes (m.frames.drop (k + 1)) ++ m.middle ++ timeBytes m.frames ++ m.closing)
      (by rw [headShape,bytes_]; simp) valid.read
      (by simp only [List.length_append,positionSize,List.length_take_of_le inside.le,Metadata.table]; rfl)
      m.frames[k].eight.1]

theorem timeTold (valid : m.Valid) {k : Nat} (inside : k < m.frames.length) :
    m.table.time toOff k = toOff m.frames[k].time := by
  have bytes_ : timeBytes m.frames =
      timeBytes (m.frames.take k) ++ [0] ++ m.frames[k].time ++ timeBytes (m.frames.drop (k + 1)) := entrySplit Frame.time inside
  unfold KeyTable.time
  rw [show window m.table.buf (m.table.fposStart + 9 * m.table.total + 12 + 9 * k + 1) 8 = m.frames[k].time from
    windowAt (a := m.opening ++ positionBytes m.frames ++ m.middle ++ timeBytes (m.frames.take k) ++ [0])
      (c := timeBytes (m.frames.drop (k + 1)) ++ m.closing)
      (by rw [headShape,bytes_]; simp) valid.read
      (by simp only [List.length_append,positionSize,timeSize,middleSize,List.length_take_of_le inside.le,Metadata.table]; rfl)
      m.frames[k].eight.2]

def lastUpTo (start : Int) (frames : List Frame) : Option Frame :=
  (frames.filter fun f => decide (toOff f.time ≤ start)).getLast?

theorem risingFilter {start : Int} {frames : List Frame} (rising : frames.Pairwise fun a b => toOff a.time ≤ toOff b.time) :
    (frames.filter fun f => decide (toOff f.time ≤ start)) = frames.takeWhile fun f => decide (toOff f.time ≤ start) := by
  induction frames with
  | nil => rfl
  | cons f frames ih =>
    obtain ⟨first,rest⟩ := List.pairwise_cons.mp rising
    rw [List.filter_cons,List.takeWhile_cons,ih rest]
    split
    · rfl
    · rename_i above
      rw [← ih rest,List.filter_eq_nil_iff]
      intro g mem
      have later := first g mem
      simp only [decide_eq_true_eq] at above ⊢
      omega

theorem lastTaken {α : Type} (p : α → Bool) (x : α) (l : List α) :
    (x :: l)[((x :: l).takeWhile p).length - 1]? = some (((x :: l).takeWhile p).getLast?.getD x) := by
  obtain ⟨rest,whole⟩ := List.takeWhile_prefix p (l := x :: l)
  rcases List.eq_nil_or_concat ((x :: l).takeWhile p) with none_ | ⟨front,y,last⟩
  · rw [none_]
    rfl
  · rw [List.concat_eq_append] at last
    rw [last] at whole ⊢
    rw [← whole]
    simp

theorem chosenFrame (valid : m.Valid) (start : Int) :
    m.table.chosen toOff start = (m.frames.takeWhile fun f => decide (toOff f.time ≤ start)).length - 1 := by
  have same : (List.range' 0 m.frames.length).map (m.table.time toOff) = m.frames.map fun f => toOff f.time := by
    refine List.ext_getElem (by simp) fun k _ high => ?_
    rw [List.length_map] at high
    simp [timeTold toOff valid high]
  have taken := congrArg (fun l => (l.takeWhile fun t : Int => decide (t ≤ start)).length) same
  simp only [List.takeWhile_map,List.length_map] at taken
  unfold KeyTable.chosen
  exact congrArg (· - 1) taken

/-- With rising times the offset is the position of the last key frame that is not after the start, or the first position,
and what precedes it ends at the second position. -/
theorem keyFrameChosen (valid : m.Valid) {first second : Frame} {more : List Frame}
    (shape : m.frames = first :: second :: more) (rising : m.frames.Pairwise fun a b => toOff a.time ≤ toOff b.time)
    (start : Int) : ngxHttpFlvKfComputeOffset toOff (filled flvMetadataReadLen m.head) m.head.length start =
      .ok (some (toOff ((lastUpTo toOff start m.frames).getD first).position,toOff second.position)) := by
  have two : 2 ≤ m.frames.length := by simp [shape]
  obtain ⟨o,run,-⟩ := (offsetSafe toOff valid.read).mpr (blockFits toOff valid two start)
  have answer := offsetRead toOff valid.read (show Meets _ (· = o) from ⟨o,run,rfl⟩)
  rw [run,← answer,tableFound valid,Option.map_some]
  have last := lastTaken (fun f => decide (toOff f.time ≤ start)) first (second :: more)
  rw [← shape,← chosenFrame toOff valid start,← risingFilter toOff rising] at last
  obtain ⟨inside,chosen⟩ := List.getElem?_eq_some_iff.mp last
  have next : m.frames[1] = second := by simp [shape]
  rw [positionRead toOff valid inside,chosen,positionRead toOff valid (by omega),next]
  rfl

end choice

def firstFrame : Frame := ⟨[64,90,128,0,0,0,0,0],[0,0,0,0,0,0,0,0],by decide⟩
def secondFrame : Frame := ⟨[64,91,0,0,0,0,0,0],[64,20,0,0,0,0,0,0],by decide⟩

def twoMetadata : Metadata := ⟨ngxFlvHeader,[0,0,78],[0,0,0,0],[],[0,0,0,2],[firstFrame,secondFrame],[],[0,0,89],
  [1,2,3,4,5,6],by decide⟩

theorem twoValid : twoMetadata.Valid :=
  ⟨by decide,by decide,by decide,by decide,by decide,by decide,
    by decide⟩

theorem keyFrameChosenTwo : ngxHttpFlvKfComputeOffset doubleToInt (filled flvMetadataReadLen twoMetadata.head)
    twoMetadata.head.length 5 =
      .ok (some (doubleToInt ((lastUpTo doubleToInt 5 twoMetadata.frames).getD firstFrame).position,doubleToInt secondFrame.position)) :=
  keyFrameChosen doubleToInt twoValid rfl (by decide +kernel) 5

theorem positionsUncompared : twoMetadata.frames.map (fun f => doubleToInt f.position) = [106,108] ∧
    ngxHttpFlvKfComputeOffset doubleToInt (filled flvMetadataReadLen twoMetadata.head) twoMetadata.head.length 5 =
      .ok (some (108,108)) ∧
    ngxHttpFlvKfComputeOffset doubleToInt (filled flvMetadataReadLen twoMetadata.head) twoMetadata.head.length 5 ≠
      .ok (some (doubleToInt ((twoMetadata.frames.filter fun f => decide (doubleToInt f.position ≤ 5)).getLast?.getD
        firstFrame).position,doubleToInt secondFrame.position)) := by
  have run : ngxHttpFlvKfComputeOffset doubleToInt (filled flvMetadataReadLen twoMetadata.head) twoMetadata.head.length 5 =
      .ok (some (108,108)) := by decide +kernel
  refine ⟨by decide,run,?_⟩
  rw [run]
  decide

end MipsElfExec.Streaming
