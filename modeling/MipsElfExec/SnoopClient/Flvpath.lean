import MipsElfExec.Lib.Checked
import MipsElfExec.Snooping.Key

/-! The answer to a getFlvPath request: the real URL is copied from behind one of two tags into the caller's buffer. -/
namespace MipsElfExec.SnoopClient
open CString Access Snooping

def locationTag : Bytes := ascii "Location: "
def serverTag : Bytes := ascii "server\":\""

def locationByte (b : Byte) : Bool := b != 13 && b != 10 && b != 0
def serverByte (b : Byte) : Bool := b != 34 && b != 44 && b != 0

-- Both loops test the count; only the first one counts.
def flvpathLoop (goes : Byte → Bool) (counts : Bool) : Bytes → Nat → Nat → Bytes → Checked Bytes
  | [],_,_,_ => .error .read
  | b :: cur,i,dst,realUrl =>
    if goes b ∧ i < httpSpUrlLenMax - 1 then do
      let realUrl ← poke realUrl dst b
      flvpathLoop goes counts cur (if counts then i + 1 else i) (dst + 1) realUrl
    else .ok realUrl

def ykParseFlvpath (data : Bytes) : Checked (Int × Bytes) := do
  let realUrl := filled httpSpUrlLenMax []
  match ← strstrChecked data locationTag with
  | some cur =>
    let realUrl ← flvpathLoop locationByte true (cur.drop locationTag.length) 0 0 realUrl
    return (0,realUrl)
  | none =>
    match ← strstrChecked data serverTag with
    | some cur =>
      let realUrl ← flvpathLoop serverByte false (cur.drop serverTag.length) 0 0 realUrl
      return (0,realUrl)
    | none => return (-1,realUrl)

def behindTag (data tag : Bytes) : Option Bytes := (strstr data tag).map fun k => (cstr data).drop (k + tag.length)

def realUrlOf (data : Bytes) : Option Bytes :=
  ((behindTag data locationTag).map (·.takeWhile locationByte)).or
    ((behindTag data serverTag).map (·.takeWhile serverByte))

section loops
variable {goes : Byte → Bool} {text done : Bytes}

theorem countedRuns (nul : goes 0 = false) (text : Bytes) (inside : done.length < httpSpUrlLenMax) :
    flvpathLoop goes true (text ++ [0]) done.length done.length (filled httpSpUrlLenMax done) =
      .ok (filled httpSpUrlLenMax ((done ++ text.takeWhile goes).take (httpSpUrlLenMax - 1))) := by
  have all : done.take (httpSpUrlLenMax - 1) = done := List.take_of_length_le (by omega)
  induction text generalizing done with
  | nil => simp [flvpathLoop,nul,all]
  | cons b text ih =>
    rw [List.cons_append,flvpathLoop,pokeNext inside.le]
    by_cases keep : goes b = true
    · by_cases room : done.length < httpSpUrlLenMax - 1
      · have next := @ih (done ++ [b]) (by simp; omega) (List.take_of_length_le (by simp; omega))
        simp only [List.length_append,List.length_singleton] at next
        simpa [keep,room,inside,bind,Except.bind] using next
      · have full : done.length = httpSpUrlLenMax - 1 := by omega
        simp [← full]
    · simp [keep,all]

theorem uncountedRuns (nul : goes 0 = false) (text : Bytes) (fits : done.length ≤ httpSpUrlLenMax) :
    flvpathLoop goes false (text ++ [0]) 0 done.length (filled httpSpUrlLenMax done) =
      if (done ++ text.takeWhile goes).length ≤ httpSpUrlLenMax then
        .ok (filled httpSpUrlLenMax (done ++ text.takeWhile goes))
      else .error .write := by
  induction text generalizing done with
  | nil => simp [flvpathLoop,nul,fits]
  | cons b text ih =>
    rw [List.cons_append,flvpathLoop,pokeNext fits]
    by_cases keep : goes b = true
    · by_cases room : done.length < httpSpUrlLenMax
      · have next := @ih (done ++ [b]) (by simp; omega)
        simp only [List.length_append,List.length_singleton,List.append_assoc,List.singleton_append] at next
        simpa [keep,room,bind,Except.bind,show 0 < httpSpUrlLenMax - 1 by decide] using next
      · have long : ¬(done ++ b :: text.takeWhile goes).length ≤ httpSpUrlLenMax := by
          rw [List.length_append,List.length_cons]
          omega
        rw [List.takeWhile_cons_of_pos keep,if_neg long]
        simp [keep,room,bind,Except.bind,show 0 < httpSpUrlLenMax - 1 by decide]
    · simp [keep,fits]

end loops

section parse
variable {data : Bytes} {k : Nat}

theorem tagDrop {tag : Bytes} (found : strstr data tag = some k) :
    ((stringAt data).drop k).drop tag.length = (cstr data).drop (k + tag.length) ++ [0] := by
  rw [List.drop_drop,stringDrop (searchBound found),stringAt,cstrDropClean]

theorem parseLocation (found : strstr data locationTag = some k) : ykParseFlvpath (stringAt data) =
    .ok (0,filled httpSpUrlLenMax ((((cstr data).drop (k + locationTag.length)).takeWhile locationByte).take
      (httpSpUrlLenMax - 1))) := by
  have runs := @countedRuns locationByte [] rfl ((cstr data).drop (k + locationTag.length)) (by decide)
  rw [← tagDrop found] at runs
  simp only [List.length_nil,List.nil_append] at runs
  simp only [ykParseFlvpath,strstrChecked,if_pos (stringNul data),strstrString,found,Option.map_some,bind,Except.bind,runs]
  rfl

theorem parseServer (missing : strstr data locationTag = none) (found : strstr data serverTag = some k) :
    ykParseFlvpath (stringAt data) =
      if (((cstr data).drop (k + serverTag.length)).takeWhile serverByte).length ≤ httpSpUrlLenMax then
        .ok (0,filled httpSpUrlLenMax (((cstr data).drop (k + serverTag.length)).takeWhile serverByte))
      else .error .write := by
  have runs := @uncountedRuns serverByte [] rfl ((cstr data).drop (k + serverTag.length)) (by decide)
  rw [← tagDrop found] at runs
  simp only [List.length_nil,List.nil_append] at runs
  simp only [ykParseFlvpath,strstrChecked,if_pos (stringNul data),strstrString,missing,found,Option.map_none,
    Option.map_some,bind,Except.bind,runs]
  split_ifs <;> rfl

theorem parseNone (missing : strstr data locationTag = none) (absent : strstr data serverTag = none) :
    ykParseFlvpath (stringAt data) = .ok (-1,filled httpSpUrlLenMax []) := by
  simp only [ykParseFlvpath,strstrChecked,if_pos (stringNul data),strstrString,missing,absent,Option.map_none,bind,
    Except.bind]
  rfl

end parse

def Answers : Option Bytes → Int × Bytes → Prop
  | none,r => r.1 = -1
  | some url,r => r.1 = 0 ∧ r.2.length = httpSpUrlLenMax ∧ ∃ rest,r.2 = url.take (httpSpUrlLenMax - 1) ++ 0 :: rest

def Parses (data : Bytes) : Prop := Meets (ykParseFlvpath (stringAt data)) (Answers (realUrlOf data))

def FlvpathFits (data : Bytes) : Prop :=
  behindTag data locationTag = none →
    ∀ rest ∈ behindTag data serverTag,(rest.takeWhile serverByte).length < httpSpUrlLenMax

theorem answersFilled {url : Bytes} (short : url.length < httpSpUrlLenMax) :
    Answers (some url) (0,filled httpSpUrlLenMax url) := by
  have whole : url.take (httpSpUrlLenMax - 1) = url := List.take_of_length_le (by omega)
  exact ⟨rfl,filledSize short.le,whole.symm ▸ filledNul short⟩

theorem answersCut (url : Bytes) :
    Answers (some url) (0,filled httpSpUrlLenMax (url.take (httpSpUrlLenMax - 1))) := by
  have short : (url.take (httpSpUrlLenMax - 1)).length < httpSpUrlLenMax :=
    Nat.lt_of_le_of_lt (List.length_take_le _ _) (by decide)
  exact ⟨rfl,filledSize short.le,filledNul short⟩

theorem answersFull {url : Bytes} (full : url.length = httpSpUrlLenMax) (clean : (0 : Byte) ∉ url) :
    ¬Answers (some url) (0,filled httpSpUrlLenMax url) := by
  rintro ⟨-,-,rest,same⟩
  have nul : (0 : Byte) ∈ filled httpSpUrlLenMax url := by
    rw [show filled httpSpUrlLenMax url = _ from same]
    exact List.mem_append_right _ List.mem_cons_self
  exact clean (by simpa [filled,full] using nul)

/-- What is parsed is the text behind the tag, cut to the buffer, exactly when what the uncounted loop copies fits. -/
theorem flvReplyExactly (data : Bytes) : Parses data ↔ FlvpathFits data := by
  unfold Parses FlvpathFits realUrlOf behindTag
  cases location : strstr data locationTag with
  | some k => simp [parseLocation location,answersCut]
  | none =>
    cases server : strstr data serverTag with
    | none => simp [parseNone location server,Answers]
    | some k =>
      have clean : (0 : Byte) ∉ ((cstr data).drop (k + serverTag.length)).takeWhile serverByte := fun mem =>
        cstrNoNul data (List.mem_of_mem_drop ((List.takeWhile_prefix _).subset mem))
      rw [parseServer location server]
      rcases Nat.lt_trichotomy (((cstr data).drop (k + serverTag.length)).takeWhile serverByte).length httpSpUrlLenMax
        with short | full | long
      · simp [short,short.le,answersFilled short]
      · simp [full,answersFull full clean]
      · simp [Nat.not_le.mpr long,Nat.not_lt.mpr long.le]

def longServer : Bytes := serverTag ++ List.replicate 601 97

theorem serverOverrun : ykParseFlvpath (stringAt longServer) = .error .write ∧ ¬Parses longServer := by
  have run : ykParseFlvpath (stringAt longServer) = .error .write := by
    rw [parseServer (show strstr longServer locationTag = none by decide +kernel)
      (show strstr longServer serverTag = some 0 by decide)]
    exact if_neg (by decide +kernel)
  refine ⟨run,?_⟩
  unfold Parses
  rw [run]
  exact meetsError .write

end MipsElfExec.SnoopClient
