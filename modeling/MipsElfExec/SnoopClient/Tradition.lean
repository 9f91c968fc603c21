import Mathlib.Data.List.Nodup
import MipsElfExec.Snooping.Key
import MipsElfExec.SnoopClient.FileId
import MipsElfExec.SnoopClient.Ownership

/-! From the parsed playlist to the URLs of the video: the stream that is taken, and the path of each segment. -/
namespace MipsElfExec.SnoopClient.Memory
open CString Access Snooping

def ykPlaylistSidLen : Nat := 25
def ykPlaylistKeyLen : Nat := 25
def ykVideoSegKeyLen : Nat := 25

structure PlaylistData where
  sid : Bytes
  fileType : Bytes
  drm : Bool := false
  key1 : Bytes := []
  key2 : Bytes := []

structure VideoSegData where
  fileId : Bytes
  key : Bytes

def store (room : Nat) (text : Bytes) : Checked Bytes := if text.length < room then .ok text else .error .write

@[simp] theorem meetsStore (room : Nat) (text : Bytes) {post : Bytes → Prop} :
    Meets (store room text) post ↔ text.length < room ∧ post text := by
  unfold store
  simp

def host1 : Bytes := ascii "k.youku.com/player/getFlvPath"
def host2 : Bytes := ascii "f.youku.com/player/getFlvPath"

def ykGetFileurl (num : Nat) (playList : PlaylistData) (segData : VideoSegData) (useJumptime : Bool) :
    Checked (Option Bytes) := do
  let hex ← store 3 ((numeral 16 num).map tolower)
  let loc7 := if hex.length = 1 then 48 :: hex else hex
  let nlen := host1.length + ykPlaylistSidLen + 3 + 4 + segData.fileId.length + ykPlaylistKeyLen * 3
  if httpSpUrlLenMax ≤ nlen then return none
  let loc8 ← store 4 playList.fileType
  let loc8 := if loc8 = ascii "hd2" ∨ loc8 = ascii "hd3" then ascii "flv" else loc8
  let loc8 := if playList.drm then ascii "f4v" else loc8
  let query := if useJumptime && !playList.drm then ascii "?start=&K=" else ascii "?K="
  let key := if segData.key = [] then playList.key2 ++ playList.key1 else segData.key
  let url ← store httpSpUrlLenMax (host2 ++ ascii "/sid/" ++ playList.sid ++ ascii "_" ++ loc7 ++ ascii "/st/" ++ loc8 ++
    ascii "/fileid/" ++ segData.fileId ++ query ++ key)
  return some url

def ykSegToFlvpath (streams : List Stream) (seg : Segment) : Checked (Option Bytes) :=
  match seg.stream with
  | none => .ok none
  | some owner =>
    match streams.find? fun stream => stream.addr == owner with
    | none => .error .read
    | some strm => do
      let some fileids ← ykGetFileid (cstr strm.streamfileids) seg.info.no strm.seed | return none
      let key := cstr seg.info.k
      if ykVideoSegKeyLen ≤ key.length then return none
      else ykGetFileurl 0 ⟨ascii "00",strm.type.name,false,[],[]⟩ ⟨fileids,key⟩ false

def typeLoop : Nat → List Stream → Int → Int
  | _,[],ret => ret
  | i,stream :: streams,ret =>
    if stream.type = .mp4 then i else typeLoop (i + 1) streams (if stream.type = .flv then i else ret)

def scGetYkDownloadVideoType (streams : List Stream) : Int := typeLoop 0 (streams.take ykStreamTypeTotal) (-1)

def streamAt (streams : List Stream) (i : Int) : Checked Stream :=
  if 0 ≤ i ∧ i < ykStreamTypeTotal then
    match streams[i.toNat]? with
    | some stream => .ok stream
    | none => .error .null
  else .error .read

-- The stream that the caller goes on with, or its error exit; both comparisons have to hold for that.
def scGetYkVideoTradition (streams : List Stream) : Checked (Option Stream) :=
  let downloadIndex := scGetYkDownloadVideoType streams
  if downloadIndex < 0 ∧ (ykStreamTypeTotal : Int) ≤ downloadIndex then .ok none
  else some <$> streamAt streams downloadIndex

section parsed

structure Parsed (streams : List Stream) : Prop where
  few : streams.length ≤ ykStreamTypeTotal
  apart : (streams.map Stream.addr).Nodup
  short : ∀ stream ∈ streams,stream.streamfileids.length < ykStreamFileIdsLen
  owners : ∀ stream ∈ streams,∀ seg ∈ stream.segs,seg.stream = some stream.addr

theorem parsedStep : ListKeeps False (fun streams _ => Parsed streams) fun streams _ => Parsed streams := by
  intro streams i stream made h h' parsed place took owned room
  obtain ⟨front,back,rfl,set⟩ := setSplit place
  have after : Parsed (front ++ { stream with segs := segsAfter stream.segs 0 made } :: back) := by
    refine ⟨by simpa using parsed.few,by simpa using parsed.apart,?_,?_⟩
    · have short := parsed.short
      simp only [List.forall_mem_append,List.forall_mem_cons] at short ⊢
      exact short
    · have owners := parsed.owners
      simp only [List.forall_mem_append,List.forall_mem_cons] at owners ⊢
      refine ⟨owners.1,fun seg mem => ?_,owners.2.2⟩
      rcases List.mem_append.mp (by simpa [segsAfter] using mem) with new | old
      · exact owned seg new
      · exact owners.2.1 seg (List.mem_of_mem_drop old)
  rw [set]
  exact ⟨after,by simp [after,parsed]⟩

theorem parsedIds : IdsGive (fun streams _ => Parsed streams) fun streams _ => Parsed streams := by
  intro made h' seed took fresh few
  obtain ⟨spent,-,allocated⟩ := took.spent
  have apart := (List.nodup_append.mp (List.nodup_append.mp (allocated.nodup_iff.mp (took.sound freshSound).1)).1).1
  have bare : Parsed made :=
    ⟨few,apart,fun stream mem => (fresh stream mem).2,fun stream mem seg here => by simp [(fresh stream mem).1] at here⟩
  have whole : Parsed (seeded seed made) := by
    refine ⟨by simpa [seeded] using few,?_,?_,?_⟩
    · simpa [seeded,Function.comp_def] using apart
    · intro stream mem
      obtain ⟨before,here,rfl⟩ := List.mem_map.mp mem
      exact (fresh before here).2
    · intro stream mem seg inside
      obtain ⟨before,here,rfl⟩ := List.mem_map.mp mem
      simp [(fresh before here).1] at inside
  exact ⟨bare,whole,whole⟩

theorem parsedRun {granted : Nat → Bool} {text : Bytes} {r : Int × List Stream × Heap}
    (run : ykParsePlaylist granted (stringAt text) [] {} = .ok r) : Parsed r.2.1 :=
  meetsRun (@playlistRule granted False (fun _ _ => True) (fun _ _ => True) (fun _ _ _ _ _ _ _ _ _ _ _ => by simp)
    (fun _ _ _ _ _ _ => by simp) text) (playlistRule parsedStep parsedIds text) run

end parsed

section path

theorem ownerFound {streams : List Stream} {stream : Stream} (parsed : Parsed streams) (mem : stream ∈ streams) :
    (streams.find? fun other => other.addr == stream.addr) = some stream := by
  cases found : streams.find? fun other => other.addr == stream.addr with
  | none => simpa using List.find?_eq_none.mp found stream mem
  | some other =>
    have same := List.find?_some found
    rw [List.inj_on_of_nodup_map parsed.apart (List.mem_of_find?_eq_some found) mem (by simpa using same)]

theorem hexShort (n : Nat) : (numeral 16 n).length < 3 ↔ n < 256 := by
  rcases Nat.lt_or_ge n 16 with one | more
  · simp [numeralDigit one]
    omega
  · rw [numeralStep (by omega) more,List.length_append,List.length_singleton]
    rcases Nat.lt_or_ge (n / 16) 16 with two | three
    · simp [numeralDigit two]
      omega
    · have some_ := List.length_pos_iff.mpr (numeralSome 16 (n / 16 / 16))
      rw [numeralStep (by omega) three,List.length_append,List.length_singleton]
      omega

theorem indicesInside (tokens : List Bytes) (size : Int) (some_ : 0 < size) : (∀ i ∈ indices tokens,0 ≤ i ∧ i < size) ↔
    ∀ token ∈ tokens.take ykFileidLen,0 ≤ atoiSigned token ∧ atoiSigned token < size := by
  unfold indices
  rw [List.forall_mem_append,List.forall_mem_map]
  refine and_iff_left fun i mem => ?_
  rw [List.eq_of_mem_replicate mem]
  exact ⟨le_rfl,some_⟩

theorem fileurlSafe (type : StreamType) {fileId key : Bytes} (short : fileId.length ≤ ykFileidLen)
    (small : key.length < ykVideoSegKeyLen) :
    Safe (ykGetFileurl 0 ⟨ascii "00",type.name,false,[],[]⟩ ⟨fileId,key⟩ false) := by
  have kind : (if type.name = ascii "hd2" ∨ type.name = ascii "hd3" then ascii "flv" else type.name).length = 3 := by
    cases type <;> decide
  have name : type.name.length < 4 := by cases type <;> decide
  have sizes : (host2 ++ ascii "/sid/" ++ ascii "00" ++ ascii "_").length + 2 +
      (ascii "/st/" ++ ascii "/fileid/" ++ ascii "?K=").length + ykFileidLen + ykVideoSegKeyLen + 3 < httpSpUrlLenMax := by decide
  have given : (if key = [] then [] else key) = key := by
    split
    · rename_i none_
      exact none_.symm
    · rfl
  simp only [List.length_append] at sizes
  unfold ykGetFileurl Safe
  simp [numeralDigit,kind,name,given]
  omega

def PathFits (ids : Bytes) (no : Nat) : Prop :=
  strtok 42 ids ≠ [] ∧
  (∀ token ∈ (strtok 42 ids).take ykFileidLen,0 ≤ atoiSigned token ∧ atoiSigned token < ykFileidLen + 2) ∧ no < 256

instance (ids : Bytes) (no : Nat) : Decidable (PathFits ids no) := inferInstanceAs (Decidable (_ ∧ _ ∧ _))

theorem fileidRule {ids : Bytes} (no seed : Nat) (short : ids.length < ykFileIdsRoom) {post : Option Bytes → Prop}
    (done : ∀ fileids,fileids.length ≤ ykFileidLen → post (some fileids)) :
    Meets (ykGetFileid ids no seed) post ↔ PathFits ids no := by
  obtain ⟨table,drew,perm⟩ := ranomTable seed
  have size : (table.length : Int) = ykFileidLen + 2 := by rw [perm.length_eq]; rfl
  unfold ykGetFileid PathFits
  simp only [drew,meetsBind,meetsCgFun]
  rw [if_neg (Nat.not_le.mpr short),indicesInside _ _ (by rw [size]; decide),size]
  refine and_congr_right fun _ => and_congr_right fun _ => ?_
  unfold vnumStr
  simp only [meetsIf,meetsOk,meetsError,hexShort,meetsPure]
  split
  · rename_i small
    refine iff_of_true (done _ ?_) small
    refine (cstrPrefix _).length_le.trans ?_
    simp [indices]
  · rename_i large
    exact iff_of_false id large

theorem pathRule {streams : List Stream} {stream : Stream} {seg : Segment} (parsed : Parsed streams) (mem : stream ∈ streams)
    (inside : seg ∈ stream.segs) :
    Safe (ykSegToFlvpath streams seg) ↔ PathFits (cstr stream.streamfileids) seg.info.no := by
  have short := (cstrPrefix stream.streamfileids).length_le.trans_lt (parsed.short stream mem)
  unfold ykSegToFlvpath Safe
  rw [parsed.owners stream mem seg inside]
  simp only [ownerFound parsed mem,meetsBind]
  refine fileidRule seg.info.no stream.seed short fun fileids few => ?_
  simp only [meetsIf]
  split
  · simp
  · rename_i small
    exact fileurlSafe stream.type few (Nat.not_le.mp small)

/-- The path of a segment is made safely exactly when its stream's ids have a token, none that is read leaves the table,
and its number has two hexadecimal digits. -/
theorem flvpathExactly {granted : Nat → Bool} {text : Bytes} {code : Int} {streams : List Stream} {h : Heap}
    (run : ykParsePlaylist granted (stringAt text) [] {} = .ok (code,streams,h)) {stream : Stream} {seg : Segment}
    (mem : stream ∈ streams) (inside : seg ∈ stream.segs) :
    Safe (ykSegToFlvpath streams seg) ↔ PathFits (cstr stream.streamfileids) seg.info.no :=
  pathRule (parsedRun run) mem inside

def onePlaylist (type : StreamType) (ids no : Bytes) : Bytes := ascii "\"seed\":7,\"streamfileids\":\x7b\"" ++ type.name ++
  ascii "\":\"" ++ ids ++ ascii "\"\x7d,\"segs\":\x7b\"" ++ type.name ++ ascii "\":[\x7b\"no\":\"" ++ no ++
  ascii "\",\"size\":\"9\",\"seconds\":\"6\",\"k\":\"a\",\"k2\":\"b\"\x7d]\x7d,\"st"

def oneSegment (no : Nat) : Segment := ⟨1,some 0,⟨no,9,6,ascii "a",ascii "b"⟩⟩

def oneStream (type : StreamType) (ids : Bytes) (no : Nat) : List Stream := [⟨0,type,ids,7,[oneSegment no]⟩]

def ParsesOne (type : StreamType) (ids digits : Bytes) (no : Nat) : Prop :=
  ykParsePlaylist (fun _ => true) (stringAt (onePlaylist type ids digits)) [] {} = .ok (0,oneStream type ids no,⟨2,[1,0],[]⟩)
instance (type : StreamType) (ids digits : Bytes) (no : Nat) : Decidable (ParsesOne type ids digits no) :=
  inferInstanceAs (Decidable (_ = _))

theorem flvpathOne : ParsesOne .flv (ascii "40*32") (ascii "12") 12 ∧
    (Safe (ykSegToFlvpath (oneStream .flv (ascii "40*32") 12) (oneSegment 12)) ↔ PathFits (cstr (ascii "40*32")) 12) := by
  have run : ParsesOne .flv (ascii "40*32") (ascii "12") 12 := by decide
  exact ⟨run,flvpathExactly run (List.mem_singleton_self _) (List.mem_singleton_self _)⟩

theorem pathWrong {type : StreamType} {ids digits : Bytes} {no : Nat} (run : ParsesOne type ids digits no)
    (wrong : ¬PathFits (cstr ids) no) : ¬Safe (ykSegToFlvpath (oneStream type ids no) (oneSegment no)) := fun safe =>
  wrong ((pathRule (parsedRun run) (List.mem_singleton_self _) (List.mem_singleton_self _)).mp safe)

theorem flvpathOutside :
    (ParsesOne .flv (ascii "100") (ascii "0") 0 ∧ ¬Safe (ykSegToFlvpath (oneStream .flv (ascii "100") 0) (oneSegment 0))) ∧
    (ParsesOne .flv (ascii "*") (ascii "0") 0 ∧ ¬Safe (ykSegToFlvpath (oneStream .flv (ascii "*") 0) (oneSegment 0))) ∧
    ParsesOne .flv (ascii "40") (ascii "256") 256 ∧
      ¬Safe (ykSegToFlvpath (oneStream .flv (ascii "40") 256) (oneSegment 256)) := by
  have index : ParsesOne .flv (ascii "100") (ascii "0") 0 := by decide
  have token : ParsesOne .flv (ascii "*") (ascii "0") 0 := by decide
  have number : ParsesOne .flv (ascii "40") (ascii "256") 256 := by decide
  exact ⟨⟨index,pathWrong index (by decide)⟩,⟨token,pathWrong token (by decide)⟩,
    number,pathWrong number (by decide)⟩

end path

section selection

def wanted (streams : List Stream) : Option StreamType :=
  if streams.any fun stream => stream.type == .mp4 then some .mp4
  else if streams.any fun stream => stream.type == .flv then some .flv
  else none

def Selects (streams : List Stream) : Prop :=
  Meets (scGetYkVideoTradition streams) fun taken =>
    taken.map Stream.type = wanted streams ∧ ∀ stream ∈ taken,stream ∈ streams

theorem wantedCons (stream : Stream) (streams : List Stream) : wanted (stream :: streams) =
    if stream.type = .mp4 then some .mp4
    else if stream.type = .flv then (wanted streams).or (some .flv)
    else wanted streams := by
  unfold wanted
  cases type : stream.type with
  | flv =>
    simp [type]
    split_ifs <;> rfl
  | mp4 | hd2 | hd3 => simp [type]

theorem loopFinds (i : Nat) (streams : List Stream) (ret : Int) :
    (wanted streams = none ∧ typeLoop i streams ret = ret) ∨
    ∃ j stream,wanted streams = some stream.type ∧ typeLoop i streams ret = (i + j : Nat) ∧ streams[j]? = some stream := by
  induction streams generalizing i ret with
  | nil => exact .inl ⟨rfl,rfl⟩
  | cons stream streams ih =>
    rw [wantedCons,typeLoop]
    by_cases best : stream.type = .mp4
    · exact .inr ⟨0,stream,by simp [best],by simp [best],rfl⟩
    · rw [if_neg best,if_neg best]
      rcases ih (i + 1) (if stream.type = .flv then i else ret) with ⟨none_,same⟩ | ⟨j,found,some_,place,here⟩
      · by_cases flv : stream.type = .flv
        · exact .inr ⟨0,stream,by simp [flv,none_],by rw [same]; simp [flv],rfl⟩
        · exact .inl ⟨by simp [flv,none_],by rw [same]; simp [flv]⟩
      · refine .inr ⟨j + 1,found,by simp [some_],?_,here⟩
        rw [place]
        omega

theorem wantedIff (streams : List Stream) :
    wanted streams ≠ none ↔ ∃ stream ∈ streams,stream.type = .mp4 ∨ stream.type = .flv := by
  induction streams with
  | nil => simp [wanted]
  | cons stream streams ih =>
    rw [wantedCons,List.exists_mem_cons_iff,← ih]
    split_ifs <;> simp_all

theorem selectsRule {streams : List Stream} (few : streams.length ≤ ykStreamTypeTotal) :
    Selects streams ↔ ∃ stream ∈ streams,stream.type = .mp4 ∨ stream.type = .flv := by
  have whole : streams.take ykStreamTypeTotal = streams := List.take_of_length_le few
  rw [← wantedIff]
  unfold Selects scGetYkVideoTradition scGetYkDownloadVideoType
  rw [whole]
  rcases loopFinds 0 streams (-1) with ⟨none_,same⟩ | ⟨j,stream,some_,place,here⟩
  · have never : ¬(ykStreamTypeTotal : Int) ≤ -1 := by decide
    simp [same,none_,streamAt,never]
  · have inside := (List.getElem?_eq_some_iff.mp here).1
    simp [place,some_,streamAt,here,List.mem_of_getElem? here]
    omega

/-- The array is read inside exactly when it has a stream of one of the two types. -/
theorem traditionSelects {granted : Nat → Bool} {text : Bytes} {streams : List Stream} {h : Heap}
    (run : ykParsePlaylist granted (stringAt text) [] {} = .ok (0,streams,h)) :
    Selects streams ↔ ∃ stream ∈ streams,stream.type = .mp4 ∨ stream.type = .flv :=
  selectsRule (parsedRun run).few

theorem flvSelects : ParsesOne .flv (ascii "40") (ascii "0") 0 ∧ (Selects (oneStream .flv (ascii "40") 0) ↔
    ∃ stream ∈ oneStream .flv (ascii "40") 0,stream.type = .mp4 ∨ stream.type = .flv) := by
  have run : ParsesOne .flv (ascii "40") (ascii "0") 0 := by decide
  exact ⟨run,traditionSelects run⟩

theorem hd2Outside : ParsesOne .hd2 (ascii "40") (ascii "0") 0 ∧
    scGetYkVideoTradition (oneStream .hd2 (ascii "40") 0) = .error .read ∧ ¬Selects (oneStream .hd2 (ascii "40") 0) := by
  have read : scGetYkVideoTradition (oneStream .hd2 (ascii "40") 0) = .error .read := rfl
  refine ⟨by decide,read,?_⟩
  simp [Selects,read]

end selection

end MipsElfExec.SnoopClient.Memory
