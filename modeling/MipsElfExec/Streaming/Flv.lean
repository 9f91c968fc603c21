import Mathlib.Algebra.Order.Ring.Int
import MipsElfExec.Streaming.Mp4

/-! Playing an flv file from a given time: the key frame is looked up in the metadata at the beginning of the file, and
the answer joins the part before the second key frame to the part from the chosen one on. -/
namespace MipsElfExec.Streaming
open CString Access

def flvMetadataReadLen : Nat := 2 ^ 14

def isScriptTag (b : Byte) : Bool := b == 0x12
def isVideoTag (b : Byte) : Bool := b == 0x09
def isAudioTag (b : Byte) : Bool := b == 0x08
def isTag (b : Byte) : Bool := isScriptTag b || isAudioTag b || isVideoTag b

def bigEndian (bytes : Bytes) : Nat := bytes.foldl (fun n b => 256 * n + b.toNat) 0

-- Positions are offsets from the buffer, and a pointer has 32 bits.
def byteAt (buf : Bytes) (p : Nat) : Checked Byte := deref (buf.drop (p % 2 ^ 32))

def window (buf : Bytes) (p n : Nat) : Bytes := (buf.drop (p % 2 ^ 32)).take n

def bytesAt (buf : Bytes) (p n : Nat) : Checked Bytes :=
  let bytes := window buf p n
  if bytes.length = n then .ok bytes else .error .read

def tagHere (buf : Bytes) (bufSize i : Nat) : Checked (Option Nat) := do
  if isTag (← byteAt buf i) = false then return none
  else if (← byteAt buf (i + 8)) ≠ 0 then return none
  else if (← byteAt buf (i + 9)) ≠ 0 then return none
  else if (← byteAt buf (i + 10)) ≠ 0 then return none
  else
    let tagStartPos := bigEndian (← bytesAt buf (i + 1) 3)
    if i + tagStartPos ≤ bufSize ∧ 0 < tagStartPos then
      let tagEndPos := (bigEndian (← bytesAt buf (i + tagStartPos + 12) 3) + (2 ^ 32 - 11)) % 2 ^ 32
      return if tagStartPos = tagEndPos then some (tagStartPos + 11) else none
    else return none

def findTagLoop (buf : Bytes) (bufSize : Nat) : Nat → Nat → Checked (Option (Nat × Nat))
  | 0,_ => .ok none
  | left + 1,i => do
    match ← tagHere buf bufSize i with
    | some tagSize => return some (i,tagSize)
    | none => findTagLoop buf bufSize left (i + 1)

def ngxHttpFlvKfFindTagPos (buf : Bytes) (bufSize : Nat) : Checked (Option (Nat × Nat)) := findTagLoop buf bufSize bufSize 0

def keyframesName : Bytes := ascii "keyframes"

-- Without a match the search goes on to a NUL.
def strstrAt (buf : Bytes) (i : Nat) (pat : Bytes) : Checked (Option Nat) :=
  let cur := buf.drop i
  match strstr cur pat with
  | some k => .ok (some (i + k))
  | none => if 0 ∈ cur then .ok none else .error .read

def findKeyframes (buf : Bytes) : Nat → Nat → Checked (Option Nat)
  | 0,_ => .ok none
  | left + 1,i => do
    if (← byteAt buf i) = 107 then
      match ← strstrAt buf i keyframesName with
      | some kfPtr => return some kfPtr
      | none => findKeyframes buf left (i + 1)
    else findKeyframes buf left (i + 1)

section handler
variable (toOff : Bytes → Int)

def timesLoop (buf : Bytes) (start : Int) : Nat → Nat → Nat → Checked Nat
  | 0,i,_ => .ok i
  | left + 1,i,p => do
    if start < toOff (← bytesAt buf (p + 1) 8) then return i else timesLoop buf start left (i + 1) (p + 9)

def ngxHttpFlvKfComputeOffset (buf : Bytes) (bufSize : Nat) (start : Int) : Checked (Option (Int × Int)) := do
  let some (tagIndex,_) ← ngxHttpFlvKfFindTagPos buf bufSize | return none
  if isScriptTag (← byteAt buf tagIndex) = false then return none
  else
    let some kfPtr ← findKeyframes buf (bufSize - (tagIndex + 1)) (tagIndex + 1) | return none
    let keyframeTotal := bigEndian (← bytesAt buf (kfPtr + 26) 4)
    let fposStart := kfPtr + 30
    let i ← timesLoop toOff buf start keyframeTotal 0 (fposStart + 9 * keyframeTotal + 12)
    let startKfNum := if i = 0 then 0 else i - 1
    let offset := toOff (← bytesAt buf (fposStart + 9 * startKfNum + 1) 8)
    let preKf2Size := toOff (← bytesAt buf (fposStart + 9 * 1 + 1) 8)
    return some (offset,preKf2Size)

structure File where
  content : Bytes
  readable : Bool
  small : content.length + 13 < 2 ^ 63

def File.size (file : File) : Int := file.content.length

def ngxHttpFlvTimeToOffset (file : File) (start : Int) : Checked (Option (Int × Int)) :=
  let metaData := file.content.take flvMetadataReadLen
  if file.readable = false then .ok none
  else ngxHttpFlvKfComputeOffset toOff (filled flvMetadataReadLen metaData) metaData.length start

def offT (n : Int) : Int := n.bmod (2 ^ 64)

def ngxAtoof (line : Bytes) : Int :=
  if line = [] ∨ line.all isdigit = false then -1
  else
    let value := line.foldl (fun value c => offT (value * 10 + (c.toNat - 48))) 0
    if value < 0 then -1 else value

def ngxFlvHeader : Bytes := [70,76,86,1,5,0,0,0,9,0,0,0,0]

inductive Buf where
  | memory (text : Bytes)
  | file (pos last : Int)
  deriving DecidableEq, Repr

structure Response where
  contentLengthN : Int
  chain : List Buf
  deriving DecidableEq, Repr

def startArg (size : Int) (args : Bytes) : Option Int :=
  (if args = [] then none else ngxHttpArg args (ascii "start")).bind fun value =>
    let start := ngxAtoof value
    if start = -1 ∨ size ≤ start ∨ start = 0 then none else some start

def ngxHttpFlvHandler (file : File) (args : Bytes) : Checked Response := do
  let ofSize := file.size
  match startArg ofSize args with
  | none => return ⟨ofSize,[.file 0 ofSize]⟩
  | some start =>
    match ← ngxHttpFlvTimeToOffset toOff file start with
    | none => return ⟨offT (ngxFlvHeader.length + ofSize - start),[.memory ngxFlvHeader,.file start ofSize]⟩
    | some (offset,preKf2Size) =>
      return ⟨offT (ofSize - offset + preKf2Size),
        [if preKf2Size ≠ 0 then .file 0 preKf2Size else .memory ngxFlvHeader,.file offset ofSize]⟩

end handler

def byteOf (buf : Bytes) (p : Nat) : Byte := buf.getD (p % 2 ^ 32) 0

def tagAt (buf : Bytes) (bufSize i : Nat) : Bool :=
  let size := bigEndian (window buf (i + 1) 3)
  isTag (byteOf buf i) && byteOf buf (i + 8) == 0 && byteOf buf (i + 9) == 0 && byteOf buf (i + 10) == 0 &&
    decide (i + size ≤ bufSize ∧ 0 < size) && bigEndian (window buf (i + size + 12) 3) == size + 11

structure KeyTable where
  buf : Bytes
  fposStart : Nat
  total : Nat

def keyTable (head : Bytes) : Option KeyTable := do
  let buf := filled flvMetadataReadLen head
  let tag ← (List.range' 0 head.length).find? (tagAt buf head.length)
  if isScriptTag (byteOf buf tag) = false then none
  else
    let k ← search keyframesName (head.drop (tag + 1))
    some ⟨buf,tag + 1 + k + 30,bigEndian (window buf (tag + 1 + k + 26) 4)⟩

def File.keyTable (file : File) : Option KeyTable :=
  if file.readable = false then none else Streaming.keyTable (file.content.take flvMetadataReadLen)

section reads
variable {buf : Bytes} {p n bufSize i : Nat}

theorem byteRead {b : Byte} (run : byteAt buf p = .ok b) : byteOf buf p = b := by
  unfold byteAt at run
  unfold byteOf
  cases rest : buf.drop (p % 2 ^ 32) with
  | nil =>
    rw [rest] at run
    cases run
  | cons c cs =>
    rw [rest] at run
    cases run
    rw [List.getD_eq_getElem?_getD,← Nat.add_zero (p % 2 ^ 32),← List.getElem?_drop,rest]
    rfl

theorem bytesRead {bytes : Bytes} (run : bytesAt buf p n = .ok bytes) : window buf p n = bytes := by
  simp only [bytesAt] at run
  split at run
  · cases run
    rfl
  · cases run

theorem bigEndianBound (bytes : Bytes) : bigEndian bytes < 256 ^ bytes.length := by
  unfold bigEndian
  induction bytes using List.reverseRecOn with
  | nil => decide
  | append_singleton bytes b ih =>
    have last := b.toNat_lt
    rw [List.foldl_append,List.foldl_cons,List.foldl_nil,List.length_append,List.length_singleton,Nat.pow_succ']
    omega

theorem windowBound (buf : Bytes) (p : Nat) : bigEndian (window buf p 3) < 2 ^ 24 := by
  have short : (window buf p 3).length ≤ 3 := List.length_take_le 3 _
  exact Nat.lt_of_lt_of_le (bigEndianBound _) (Nat.pow_le_pow_right (by decide) short)

theorem endSize {size behind : Nat} (small : size < 2 ^ 24) (few : behind < 2 ^ 24) :
    size = (behind + (2 ^ 32 - 11)) % 2 ^ 32 ↔ behind = size + 11 := by
  omega

theorem byteStep {test : Byte → Prop} [DecidablePred test] {rest : Checked (Option Nat)} {post : Option Nat → Prop}
    (run : Meets (do if test (← byteAt buf p) then return none else rest) post) :
    test (byteOf buf p) ∧ post none ∨ ¬test (byteOf buf p) ∧ Meets rest post := by
  rw [meetsBind] at run
  obtain ⟨b,read,run⟩ := run
  rw [byteRead read]
  split at run
  · rename_i other
    exact .inl ⟨other,(meetsPure _).mp run⟩
  · rename_i fits
    exact .inr ⟨fits,run⟩

theorem tagRead {post : Option Nat → Prop} (run : Meets (tagHere buf bufSize i) post) :
    ∃ o,post o ∧ o.isSome = tagAt buf bufSize i := by
  unfold tagAt
  rcases byteStep run with ⟨other,none_⟩ | ⟨tag,run⟩
  · exact ⟨none,none_,by simp [other]⟩
  rcases byteStep run with ⟨other,none_⟩ | ⟨first,run⟩
  · exact ⟨none,none_,by simp [other]⟩
  rcases byteStep run with ⟨other,none_⟩ | ⟨second,run⟩
  · exact ⟨none,none_,by simp [other]⟩
  rcases byteStep run with ⟨other,none_⟩ | ⟨third,run⟩
  · exact ⟨none,none_,by simp [other]⟩
  rw [meetsBind] at run
  obtain ⟨bytes,read,run⟩ := run
  have front := windowBound buf (i + 1)
  rw [bytesRead read] at front ⊢
  dsimp only at run ⊢
  split at run
  · rename_i inside
    rw [meetsBind] at run
    obtain ⟨behind,again,run⟩ := run
    have back := windowBound buf (i + bigEndian bytes + 12)
    rw [bytesRead again] at back ⊢
    have zeros := And.intro (not_not.mp first) (And.intro (not_not.mp second) (not_not.mp third))
    refine ⟨_,(meetsPure _).mp run,?_⟩
    by_cases same : bigEndian behind = bigEndian bytes + 11
    · rw [if_pos ((endSize front back).mpr same)]
      simp [tag,zeros,inside,same]
    · rw [if_neg (mt (endSize front back).mp same)]
      simp [same]
  · rename_i outside
    refine ⟨none,(meetsPure _).mp run,?_⟩
    simp [outside]

theorem tagLoopRead {left : Nat} {post : Option (Nat × Nat) → Prop} (run : Meets (findTagLoop buf bufSize left i) post) :
    ∃ o,post o ∧ o.map Prod.fst = (List.range' i left).find? (tagAt buf bufSize) := by
  induction left generalizing i with
  | zero => exact ⟨none,(meetsOk _).mp run,rfl⟩
  | succ left ih =>
    rw [findTagLoop,meetsBind] at run
    obtain ⟨o,run,here⟩ := tagRead run
    rw [List.range'_succ,List.find?_cons,← here]
    cases o with
    | none => exact ih run
    | some size => exact ⟨some (i,size),(meetsPure _).mp run,rfl⟩

end reads

section names
variable {head : Bytes} {i : Nat}

theorem headDrop (inside : i ≤ head.length) :
    cstr ((filled flvMetadataReadLen head).drop i) = cstr (head.drop i) := by
  rw [filled,List.drop_append_of_le_length inside,cstrZeros]

theorem nameFirst {s : Bytes} (here : keyframesName <+: s) : search keyframesName (cstr s) = some 0 := by
  obtain ⟨rest,rfl⟩ := here
  rw [cstrAppend,if_neg (by decide)]
  exact searchSelf keyframesName (cstr rest)

theorem keyframesRead (fits : head.length ≤ flvMetadataReadLen) {left : Nat} (all : i + left = head.length)
    {post : Option Nat → Prop} (run : Meets (findKeyframes (filled flvMetadataReadLen head) left i) post) :
    post ((search keyframesName (head.drop i)).map (i + ·)) := by
  induction left generalizing i with
  | zero =>
    rw [List.drop_of_length_le (by omega)]
    exact (meetsOk _).mp run
  | succ left ih =>
    have inside : i < head.length := by omega
    have shape : head.drop i = head[i] :: head.drop (i + 1) := List.drop_eq_getElem_cons inside
    have later (missing : ¬keyframesName <+: head.drop i)
        (run : Meets (findKeyframes (filled flvMetadataReadLen head) left (i + 1)) post) :
        post ((search keyframesName (head.drop i)).map (i + ·)) := by
      have next := ih (by omega) run
      rw [shape] at missing ⊢
      rw [search,if_neg (mt List.isPrefixOf_iff_prefix.mp missing),Option.map_map]
      simpa [Function.comp_def,Nat.add_assoc,Nat.add_comm 1] using next
    rw [findKeyframes,meetsBind] at run
    obtain ⟨b,read,run⟩ := run
    have byte : b = head[i] := by
      have small : i % 2 ^ 32 = i := Nat.mod_eq_of_lt (Nat.lt_of_lt_of_le inside (fits.trans (by decide)))
      rw [← byteRead read,byteOf,small,List.getD_eq_getElem?_getD,filled,List.getElem?_append_left inside,
        List.getElem?_eq_getElem inside,Option.getD_some]
    split at run
    · rw [meetsBind] at run
      obtain ⟨o,looked,run⟩ := run
      simp only [strstrAt,strstr,headDrop (Nat.le_of_lt inside)] at looked
      split at looked
      · rename_i k found
        cases looked
        obtain ⟨rest,whole⟩ := cstrPrefix (head.drop i)
        have found := searchExtends found rest
        rw [whole] at found
        rw [found]
        exact (meetsPure _).mp run
      · rename_i missing
        split at looked
        · cases looked
          refine later (fun here => ?_) run
          cases missing.symm.trans (nameFirst here)
        · cases looked
    · rename_i other
      refine later (fun here => other ?_) run
      rw [shape] at here
      rw [byte]
      exact (List.cons_prefix_cons.mp here).1.symm

end names

section times
variable {toOff : Bytes → Int} {buf : Bytes} {start : Int}

theorem timesRead {base left i : Nat} {post : Nat → Prop}
    (run : Meets (timesLoop toOff buf start left i (base + 9 * i)) post) :
    post (i + ((List.range' i left).takeWhile fun k => decide (toOff (window buf (base + 9 * k + 1) 8) ≤ start)).length) := by
  induction left generalizing i with
  | zero => exact (meetsOk _).mp run
  | succ left ih =>
    rw [timesLoop,meetsBind] at run
    obtain ⟨bytes,read,run⟩ := run
    rw [← bytesRead read] at run
    rw [List.range'_succ,List.takeWhile_cons]
    split at run
    · rename_i after
      rw [if_neg (by simpa using after)]
      exact (meetsPure _).mp run
    · rename_i before
      rw [if_pos (by simpa using before),List.length_cons,Nat.add_comm _ 1,← Nat.add_assoc]
      exact ih run

end times

section answer
variable (toOff : Bytes → Int)

def KeyTable.position (t : KeyTable) (k : Nat) : Int := toOff (window t.buf (t.fposStart + 9 * k + 1) 8)

def KeyTable.time (t : KeyTable) (k : Nat) : Int := toOff (window t.buf (t.fposStart + 9 * t.total + 12 + 9 * k + 1) 8)

def KeyTable.chosen (t : KeyTable) (start : Int) : Nat :=
  ((List.range' 0 t.total).takeWhile fun k => decide (t.time toOff k ≤ start)).length - 1

theorem lastBefore (n : Nat) : (if n = 0 then 0 else n - 1) = n - 1 := by
  split <;> omega

theorem offsetRead {head : Bytes} (fits : head.length ≤ flvMetadataReadLen) {start : Int}
    {post : Option (Int × Int) → Prop}
    (run : Meets (ngxHttpFlvKfComputeOffset toOff (filled flvMetadataReadLen head) head.length start) post) :
    post ((keyTable head).map fun t => (t.position toOff (t.chosen toOff start),t.position toOff 1)) := by
  unfold ngxHttpFlvKfComputeOffset ngxHttpFlvKfFindTagPos at run
  rw [meetsBind] at run
  obtain ⟨o,run,tag⟩ := tagLoopRead run
  unfold keyTable
  dsimp only
  rw [← tag]
  cases o with
  | none => exact (meetsPure _).mp run
  | some place =>
    obtain ⟨i,size⟩ := place
    have inside : i < head.length := by
      have mem := List.mem_of_find?_eq_some tag.symm
      rw [List.mem_range'_1] at mem
      omega
    dsimp only at run
    rw [meetsBind] at run
    obtain ⟨b,read,run⟩ := run
    simp only [Option.map_some,Option.bind_some,bind,byteRead read]
    split at run
    · rename_i other
      rw [if_pos other]
      exact (meetsPure _).mp run
    · rename_i script
      rw [if_neg script]
      rw [meetsBind] at run
      have run := keyframesRead fits (by omega) run
      generalize search keyframesName (head.drop (i + 1)) = found at run ⊢
      cases found with
      | none => exact (meetsPure _).mp run
      | some k =>
        simp only [Option.map_some,Option.bind_some] at run ⊢
        rw [meetsBind] at run
        obtain ⟨bytes,total,run⟩ := run
        rw [← bytesRead total,meetsBind] at run
        have run := @timesRead toOff _ start _ _ 0 _ run
        rw [Nat.zero_add] at run
        rw [lastBefore,meetsBind] at run
        obtain ⟨first,chosen,run⟩ := run
        rw [meetsBind] at run
        obtain ⟨second,next,run⟩ := run
        rw [← bytesRead chosen,← bytesRead next,meetsPure] at run
        exact run

def Buf.size : Buf → Int
  | .memory text => text.length
  | .file pos last => last - pos

def Buf.Inside (size : Int) : Buf → Prop
  | .memory _ => True
  | .file pos last => 0 ≤ pos ∧ pos ≤ last ∧ last ≤ size

def Buf.Before : Buf → Buf → Prop
  | .file _ last,.file pos _ => last ≤ pos
  | _,_ => True

structure Right (file : File) (r : Response) : Prop where
  length : r.contentLengthN = (r.chain.map Buf.size).sum
  inside : ∀ b ∈ r.chain,b.Inside file.size
  apart : r.chain.Pairwise Buf.Before

def KeyTable.Fits (t : KeyTable) (start size : Int) : Prop := 0 < t.position toOff 1 ∧
  t.position toOff 1 ≤ t.position toOff (t.chosen toOff start) ∧ t.position toOff (t.chosen toOff start) ≤ size

structure Plays (file : File) (start : Int) : Prop where
  scanned : Safe (ngxHttpFlvTimeToOffset toOff file start)
  fits : ∀ t ∈ file.keyTable,t.Fits toOff start file.size

theorem offTSmall {n : Int} (least : 0 ≤ n) (most : n < 2 ^ 63) : offT n = n := Int.bmod_eq_of_le (by omega) (by omega)

theorem atoofLeast (line : Bytes) : -1 ≤ ngxAtoof line := by
  unfold ngxAtoof
  dsimp only
  split
  · decide
  · split
    · decide
    · omega

theorem startInside {size start : Int} {args : Bytes} (arg : start ∈ startArg size args) : 0 < start ∧ start < size := by
  obtain ⟨value,-,start_⟩ := Option.bind_eq_some_iff.mp arg
  have least := atoofLeast value
  dsimp only at start_
  split at start_
  · cases start_
  · cases start_
    omega

theorem plainRight (file : File) : Right file ⟨file.size,[.file 0 file.size]⟩ := by
  have least : 0 ≤ file.size := Int.natCast_nonneg _
  refine ⟨by simp [Buf.size],?_,by simp⟩
  simp [Buf.Inside,least]

theorem headerRight (file : File) {start : Int} (inside : 0 < start ∧ start < file.size) :
    Right file ⟨offT (ngxFlvHeader.length + file.size - start),[.memory ngxFlvHeader,.file start file.size]⟩ := by
  have small : file.size + 13 < 2 ^ 63 := by
    have small := file.small
    unfold File.size
    omega
  have header : (ngxFlvHeader.length : Int) = 13 := rfl
  refine ⟨?_,?_,?_⟩
  · rw [header,offTSmall (by omega) (by omega)]
    simp only [List.map_cons,List.map_nil,List.sum_cons,List.sum_nil,Buf.size,header]
    omega
  · simp [Buf.Inside]
    omega
  · simp [Buf.Before]

theorem tableRight (file : File) (offset pre : Int) : Right file ⟨offT (file.size - offset + pre),
    [if pre ≠ 0 then .file 0 pre else .memory ngxFlvHeader,.file offset file.size]⟩ ↔
      0 < pre ∧ pre ≤ offset ∧ offset ≤ file.size := by
  have small : file.size + 13 < 2 ^ 63 := by
    have small := file.small
    unfold File.size
    omega
  have header : (ngxFlvHeader.length : Int) = 13 := rfl
  constructor
  · rintro ⟨total,inside,apart⟩
    have behind : 0 ≤ offset ∧ offset ≤ file.size ∧ file.size ≤ file.size := inside (.file offset file.size) (by simp)
    by_cases none_ : pre = 0
    · subst none_
      rw [offTSmall (by omega) (by omega)] at total
      simp only [ne_eq,not_true_eq_false,if_false,List.map_cons,List.map_nil,List.sum_cons,List.sum_nil,Buf.size,header] at total
      omega
    · rw [if_pos none_] at inside apart
      have front : (0 : Int) ≤ 0 ∧ 0 ≤ pre ∧ pre ≤ file.size := inside (.file 0 pre) (by simp)
      have before : pre ≤ offset := by simpa [Buf.Before] using apart
      omega
  · rintro ⟨some_,before,last⟩
    have nonzero : pre ≠ 0 := by omega
    rw [if_pos nonzero]
    refine ⟨?_,?_,?_⟩
    · rw [offTSmall (by omega) (by omega)]
      simp only [List.map_cons,List.map_nil,List.sum_cons,List.sum_nil,Buf.size]
      omega
    · simp [Buf.Inside]
      omega
    · simp [Buf.Before,before]

theorem timeRead (file : File) {start : Int} {post : Option (Int × Int) → Prop}
    (run : Meets (ngxHttpFlvTimeToOffset toOff file start) post) :
    post (file.keyTable.map fun t => (t.position toOff (t.chosen toOff start),t.position toOff 1)) := by
  simp only [ngxHttpFlvTimeToOffset] at run
  unfold File.keyTable
  split at run
  · rename_i unreadable
    rw [if_pos unreadable]
    exact (meetsOk _).mp run
  · rename_i readable
    rw [if_neg readable]
    exact offsetRead toOff (List.length_take_le flvMetadataReadLen file.content) run

/-- The announced length is that of the buffers, and the ranges lie apart inside the file. -/
theorem flvExactly (file : File) (args : Bytes) : Meets (ngxHttpFlvHandler toOff file args) (Right file) ↔
    ∀ start ∈ startArg file.size args,Plays toOff file start := by
  unfold ngxHttpFlvHandler
  dsimp only
  cases arg : startArg file.size args with
  | none => simpa using plainRight file
  | some start =>
    have inside := startInside arg
    simp only [Option.mem_def,Option.some.injEq,forall_eq']
    constructor
    · intro meets
      rw [meetsBind] at meets
      have scanned : Safe (ngxHttpFlvTimeToOffset toOff file start) := by
        obtain ⟨o,run,-⟩ := meets
        exact ⟨o,run,trivial⟩
      have answer := timeRead toOff file meets
      refine ⟨scanned,?_⟩
      intro t table
      rw [Option.mem_def] at table
      rw [table] at answer
      exact (tableRight file _ _).mp ((meetsPure _).mp answer)
    · rintro ⟨⟨o,run,-⟩,fits⟩
      have read := @timeRead toOff file start (· = o) ⟨o,run,rfl⟩
      rw [meetsBind]
      refine ⟨o,run,?_⟩
      rw [← read]
      cases table : file.keyTable with
      | none => exact (meetsPure _).mpr (headerRight file inside)
      | some t => exact (meetsPure _).mpr ((tableRight file _ _).mpr (fits t table))

end answer

def doubleToInt (bytes : Bytes) : Int :=
  let n := bigEndian bytes
  let exponent := n / 2 ^ 52 % 2 ^ 11
  let mantissa := n % 2 ^ 52 + if exponent = 0 then 0 else 2 ^ 52
  let value : Nat := if exponent < 1075 then mantissa / 2 ^ (1075 - exponent) else mantissa * 2 ^ (exponent - 1075)
  if n / 2 ^ 63 = 1 then -(value : Int) else value

def twoKeyframes (second : Bytes) : Bytes := ngxFlvHeader ++ [18,0,0,78,0,0,0,0,0,0,0] ++ keyframesName ++ [3,0,13] ++
  ascii "filepositions" ++ [10,0,0,0,2] ++ [0,64,90,128,0,0,0,0,0] ++ 0 :: second ++ [0,5] ++ ascii "times" ++
  [10,0,0,0,2] ++ [0,0,0,0,0,0,0,0,0] ++ [0,64,20,0,0,0,0,0,0] ++ [0,0,0,89] ++ [1,2,3,4,5,6]

def atTwo : File := ⟨twoKeyframes [64,91,0,0,0,0,0,0],true,by decide +kernel⟩
def atZero : File := ⟨twoKeyframes [0,0,0,0,0,0,0,0],true,by decide +kernel⟩

theorem playedTwice :
    ngxHttpFlvHandler doubleToInt atTwo (ascii "start=1") = .ok ⟨114,[.file 0 108,.file 106 112]⟩ ∧
    ngxHttpFlvHandler doubleToInt atZero (ascii "start=1") = .ok ⟨6,[.memory ngxFlvHeader,.file 106 112]⟩ ∧
    ¬Meets (ngxHttpFlvHandler doubleToInt atTwo (ascii "start=1")) (Right atTwo) ∧
    ¬Meets (ngxHttpFlvHandler doubleToInt atZero (ascii "start=1")) (Right atZero) := by
  have first : ngxHttpFlvHandler doubleToInt atTwo (ascii "start=1") = .ok ⟨114,[.file 0 108,.file 106 112]⟩ := by
    decide +kernel
  have second : ngxHttpFlvHandler doubleToInt atZero (ascii "start=1") = .ok ⟨6,[.memory ngxFlvHeader,.file 106 112]⟩ := by
    decide +kernel
  refine ⟨first,second,?_,?_⟩
  · rw [first,meetsOk]
    intro right
    have apart : Buf.Before (.file 0 108) (.file 106 112) := List.rel_of_pairwise_cons right.apart (by simp)
    exact absurd apart (by simp [Buf.Before])
  · rw [second,meetsOk]
    intro right
    exact absurd right.length (by decide)

end MipsElfExec.Streaming
