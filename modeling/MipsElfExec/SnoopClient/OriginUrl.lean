import MipsElfExec.SnoopClient.HttpSession
import MipsElfExec.Snooping.Key

/-! The origin URL of a video: a request URL is brought into one of three fixed forms, and the form decides which site
is asked. -/
namespace MipsElfExec.SnoopClient
open CString Access Snooping

def ykVidValidLen : Nat := 13

def isalnum (b : Byte) : Bool := isdigit b || 65 ≤ b && b ≤ 90 || 97 ≤ b && b ≤ 122

def scUrlIsYk (url : Bytes) : Bool := (strstr url (ascii "youku")).isSome

def scUrlIsSohu (url : Bytes) : Bool := (strstr url (ascii "sohu")).isSome

def hasTags (url tag1 tag2 : Bytes) : Bool :=
  match strstr url tag1 with
  | none => false
  | some k => (strstr (url.drop k) tag2).isSome

def ykIsTraditionUrl (url : Bytes) : Bool := hasTags url (ascii "v.youku.com") (ascii "/id_")

def m3u8Mark : Bytes := ascii ".m3u8"

def sohuIsM3u8Url (url : Bytes) : Bool := hasTags url (ascii "sohu.com") m3u8Mark

def ykTags : List Bytes := [ascii "v_show/id_",ascii "&video_id=",ascii "&id=",ascii "&vid=",ascii "&local_vid="]

def ykVid (reqUrl : Bytes) : List Bytes → Option Bytes
  | [] => none
  | tag :: tags =>
    match strstr reqUrl tag with
    | none => ykVid reqUrl tags
    | some k =>
      let vid := ((cstr reqUrl).drop (k + tag.length)).takeWhile isalnum
      if vid.length = ykVidValidLen then some vid else ykVid reqUrl tags

def scYkOriginUrlPattern : List Bytes := [ascii "v.youku.com/v_show/id_",ascii ".html"]

def scYkGenOriginUrl (reqUrl : Bytes) : Option Bytes := do
  let buf ← ykVid reqUrl ykTags
  if httpSpUrlLenMax ≤ (scYkOriginUrlPattern.map List.length).sum + ykVidValidLen then none
  else some (printed scYkOriginUrlPattern [buf])

def sohuTag1 : Bytes := ascii "hot.vrs.sohu.com/ipad"
def sohuTag2 : Bytes := ascii "my.tv.sohu.com/ipad/"

def scSohuOriginUrlPattern1 : List Bytes := [ascii "hot.vrs.sohu.com/ipad",[]]
def scSohuOriginUrlPattern2 : List Bytes := [ascii "my.tv.sohu.com/ipad/",[]]

def sohuTag (reqUrl : Bytes) : Option (Bytes × Nat × List Bytes) :=
  match strstr reqUrl sohuTag1 with
  | some k => some (sohuTag1,k,scSohuOriginUrlPattern1)
  | none => (strstr reqUrl sohuTag2).map fun k => (sohuTag2,k,scSohuOriginUrlPattern2)

def scSohuGenOriginUrl (reqUrl : Bytes) : Option Bytes := do
  let (tag,k,pattern) ← sohuTag reqUrl
  let start := (cstr reqUrl).drop k
  if (search m3u8Mark start).isNone then none
  else
    let buf := (start.drop tag.length).takeWhile (· ≠ 63)
    if bufferLen ≤ buf.length ∨ httpSpUrlLenMax ≤ (pattern.map List.length).sum + buf.length then none
    else some (printed pattern [buf])

def scGenOriginUrl (reqUrl : Bytes) : Option Bytes :=
  if scUrlIsYk reqUrl then scYkGenOriginUrl reqUrl
  else if scUrlIsSohu reqUrl then scSohuGenOriginUrl reqUrl
  else none

inductive Work where
  | tradition (originUrl : Bytes) | m3u8 (originUrl : Bytes)
  deriving DecidableEq, Repr

def scGetYkVideo (originUrl : Bytes) : Option Work :=
  if httpSpUrlLenMax ≤ (cstr originUrl).length then none
  else if ykIsTraditionUrl originUrl then some (.tradition originUrl) else none

def scGetSohuVideo (originUrl : Bytes) : Option Work :=
  if httpSpUrlLenMax ≤ (cstr originUrl).length then none
  else if sohuIsM3u8Url originUrl then some (.m3u8 originUrl) else none

def dispatch (originUrl : Bytes) : Option Work :=
  if scUrlIsYk originUrl then scGetYkVideo originUrl
  else if scUrlIsSohu originUrl then scGetSohuVideo originUrl
  else none

def ngxScAddParse (url : Bytes) : Option Work := do
  if httpSpUrlLenMax ≤ (cstr url).length then none
  else dispatch (← scGenOriginUrl url)

def sohuKept (reqUrl : Bytes) : Option Bytes :=
  (sohuTag reqUrl).map fun (tag,k,_) => (((cstr reqUrl).drop k).drop tag.length).takeWhile (· ≠ 63)

def KeepsMark (reqUrl : Bytes) : Prop :=
  scUrlIsYk reqUrl = true ∨ ∀ kept ∈ sohuKept reqUrl,(search m3u8Mark kept).isSome = true

structure Normal (originUrl : Bytes) : Prop where
  fixed : scGenOriginUrl originUrl = some originUrl
  accepted : (dispatch originUrl).isSome = true

section youku
variable {vid : Bytes}

structure Vid (vid : Bytes) : Prop where
  size : vid.length = ykVidValidLen
  alnum : ∀ b ∈ vid,isalnum b = true

def ykForm (vid : Bytes) : Bytes := ascii "v.youku.com/v_show/id_" ++ (vid ++ ascii ".html")

theorem ykVidValid {reqUrl : Bytes} {tags : List Bytes} (found : ykVid reqUrl tags = some vid) : Vid vid ∧
    ∃ tag ∈ tags,tag ++ vid <:+: cstr reqUrl := by
  induction tags with
  | nil => cases found
  | cons tag tags ih =>
    have later (found : ykVid reqUrl tags = some vid) : Vid vid ∧ ∃ t ∈ tag :: tags,t ++ vid <:+: cstr reqUrl := by
      obtain ⟨valid,t,mem,inside⟩ := ih found
      exact ⟨valid,t,List.mem_cons_of_mem _ mem,inside⟩
    rw [ykVid] at found
    cases there : strstr reqUrl tag with
    | none =>
      rw [there] at found
      exact later found
    | some k =>
      simp only [there] at found
      split at found
      · rename_i size
        cases found
        refine ⟨⟨size,fun b mem => List.mem_takeWhile_imp mem⟩,tag,List.mem_cons_self,?_⟩
        obtain ⟨rest,whole⟩ := List.takeWhile_prefix isalnum (l := (cstr reqUrl).drop (k + tag.length))
        refine ⟨(cstr reqUrl).take k,rest,?_⟩
        rw [List.append_assoc,List.append_assoc,whole,← List.append_assoc]
        exact (searchFound there).symm
      · exact later found

theorem ykMade {reqUrl o : Bytes} (made : scYkGenOriginUrl reqUrl = some o) : ∃ vid,ykVid reqUrl ykTags = some vid ∧
    o = ykForm vid := by
  obtain ⟨vid,found,made⟩ := Option.bind_eq_some_iff.mp made
  split at made
  · cases made
  · cases made
    exact ⟨vid,found,by simp [printed,scYkOriginUrlPattern,ykForm]⟩

theorem ykFormClean (v : Vid vid) : (0 : Byte) ∉ ykForm vid := by
  intro nul
  rcases List.mem_append.mp nul with front | rest
  · exact absurd front (by decide)
  · rcases List.mem_append.mp rest with id | ending
    · exact absurd (v.alnum 0 id) (by decide)
    · exact absurd ending (by decide)

theorem ykFormFinds (v : Vid vid) {pat : Bytes} {n : Nat} (found : search pat (ascii "v.youku.com/v_show/id_") = some n) :
    strstr (ykForm vid) pat = some n := by
  unfold strstr
  rw [cstrOfNoNul (ykFormClean v)]
  exact searchExtends found _

theorem ykFormVid (v : Vid vid) : ykVid (ykForm vid) ykTags = some vid := by
  have behind : ((cstr (ykForm vid)).drop (12 + (ascii "v_show/id_").length)).takeWhile isalnum = vid := by
    rw [cstrOfNoNul (ykFormClean v)]
    change (vid ++ ascii ".html").takeWhile isalnum = vid
    rw [List.takeWhile_append_of_pos v.alnum]
    exact List.append_nil vid
  unfold ykTags
  rw [ykVid,ykFormFinds v (show search (ascii "v_show/id_") _ = some 12 by decide)]
  simp only [behind,v.size,if_true]

theorem ykNormal (v : Vid vid) : Normal (ykForm vid) := by
  have yk : scUrlIsYk (ykForm vid) = true := by
    rw [scUrlIsYk,ykFormFinds v (show search (ascii "youku") _ = some 2 by decide)]
    rfl
  have tradition : ykIsTraditionUrl (ykForm vid) = true := by
    have second := ykFormFinds v (show search (ascii "/id_") _ = some 18 by decide)
    rw [ykIsTraditionUrl,hasTags,ykFormFinds v (show search (ascii "v.youku.com") _ = some 0 by decide)]
    exact congrArg Option.isSome second
  have short : ¬httpSpUrlLenMax ≤ (cstr (ykForm vid)).length := by
    have size := v.size
    rw [cstrOfNoNul (ykFormClean v),ykForm,List.length_append,List.length_append,size]
    decide
  constructor
  · rw [scGenOriginUrl,if_pos yk,scYkGenOriginUrl,ykFormVid v]
    simp [printed,scYkOriginUrlPattern,ykForm,show ¬httpSpUrlLenMax ≤ (ascii "v.youku.com/v_show/id_").length +
      (ascii ".html").length + ykVidValidLen by decide]
  · rw [dispatch,if_pos yk,scGetYkVideo,if_neg short,if_pos tradition]
    rfl

end youku

section sohu
variable {reqUrl kept : Bytes}

theorem missingInside {pat s t : Bytes} (inside : t <:+: s) (missing : search pat s = none) : search pat t = none := by
  obtain ⟨front,rest,rfl⟩ := inside
  rw [List.append_assoc] at missing
  exact searchFront rest (searchSuffix front missing)

structure SohuTag (tag : Bytes) (pattern : List Bytes) : Prop where
  pattern : pattern = [tag,[]]
  clean : (0 : Byte) ∉ tag
  sohu : (search (ascii "sohu") tag).isSome = true
  marks : ∀ s,(search m3u8Mark (tag ++ s)).isSome = (search m3u8Mark s).isSome
  site : ∃ j,search (ascii "sohu.com") tag = some j ∧ ∀ s,(search m3u8Mark ((tag ++ s).drop j)).isSome = (search m3u8Mark s).isSome

theorem markBehind {front : Bytes} {c : Byte} (broken : front.getLast? = some c) (clean : c ∉ m3u8Mark.dropLast)
    (missing : search m3u8Mark front = none) (s : Bytes) :
    (search m3u8Mark (front ++ s)).isSome = (search m3u8Mark s).isSome := by
  rw [searchBeyond broken clean missing,Option.isSome_map]

theorem sohuTagOne : SohuTag sohuTag1 scSohuOriginUrlPattern1 where
  pattern := rfl
  clean := by decide
  sohu := by decide
  marks := markBehind (c := 100) (by decide) (by decide) (by decide)
  site := ⟨8,by decide,markBehind (c := 100) (by decide) (by decide) (by decide)⟩

theorem sohuTagTwo : SohuTag sohuTag2 scSohuOriginUrlPattern2 where
  pattern := rfl
  clean := by decide
  sohu := by decide
  marks := markBehind (c := 47) (by decide) (by decide) (by decide)
  site := ⟨6,by decide,markBehind (c := 47) (by decide) (by decide) (by decide)⟩

structure SohuMade (reqUrl : Bytes) (tag : Bytes) (k : Nat) (pattern : List Bytes) (kept : Bytes) : Prop where
  common : SohuTag tag pattern
  found : sohuTag reqUrl = some (tag,k,pattern)
  place : search tag (cstr reqUrl) = some k
  behind : kept = (((cstr reqUrl).drop k).drop tag.length).takeWhile (· ≠ 63)
  room : kept.length < bufferLen ∧ tag.length + kept.length < httpSpUrlLenMax

theorem sohuTagFound {tag : Bytes} {k : Nat} {pattern : List Bytes} (found : sohuTag reqUrl = some (tag,k,pattern)) :
    SohuTag tag pattern ∧ search tag (cstr reqUrl) = some k := by
  unfold sohuTag at found
  split at found
  · rename_i there
    cases found
    exact ⟨sohuTagOne,there⟩
  · obtain ⟨j,there,same⟩ := Option.map_eq_some_iff.mp found
    cases same
    exact ⟨sohuTagTwo,there⟩

theorem sohuMade {o : Bytes} (made : scSohuGenOriginUrl reqUrl = some o) :
    ∃ tag k pattern kept,SohuMade reqUrl tag k pattern kept ∧ o = tag ++ kept := by
  obtain ⟨⟨tag,k,pattern⟩,found,made⟩ := Option.bind_eq_some_iff.mp made
  obtain ⟨common,place⟩ := sohuTagFound found
  dsimp only at made
  split at made
  · cases made
  · split at made
    · cases made
    · rename_i room
      cases made
      refine ⟨tag,k,pattern,_,⟨common,found,place,rfl,?_⟩,?_⟩
      · rw [common.pattern] at room
        simp only [List.map_cons,List.map_nil,List.sum_cons,List.sum_nil,List.length_nil,Nat.add_zero,not_or,Nat.not_le] at room
        exact room
      · simp [common.pattern,printed]

theorem sohuInside {tag : Bytes} {k : Nat} {pattern : List Bytes} (m : SohuMade reqUrl tag k pattern kept) :
    tag ++ kept <:+: cstr reqUrl := by
  obtain ⟨rest,whole⟩ := List.takeWhile_prefix (· ≠ 63) (l := ((cstr reqUrl).drop k).drop tag.length)
  refine ⟨(cstr reqUrl).take k,rest,?_⟩
  rw [m.behind,List.append_assoc,List.append_assoc,whole,← List.append_assoc,List.drop_drop]
  exact (searchFound m.place).symm

section made
variable {tag : Bytes} {k : Nat} {pattern : List Bytes}

theorem sohuClean (m : SohuMade reqUrl tag k pattern kept) : cstr (tag ++ kept) = tag ++ kept :=
  cstrOfNoNul fun nul => cstrNoNul reqUrl ((sohuInside m).subset nul)

theorem sohuTagSelf (m : SohuMade reqUrl tag k pattern kept) : sohuTag (tag ++ kept) = some (tag,0,pattern) := by
  have found := m.found
  unfold sohuTag strstr at found ⊢
  rw [sohuClean m]
  split at found
  · cases found
    rw [searchSelf]
  · rename_i absent
    obtain ⟨j,-,same⟩ := Option.map_eq_some_iff.mp found
    cases same
    rw [missingInside (sohuInside m) absent,searchSelf]
    rfl

theorem sohuSelf (m : SohuMade reqUrl tag k pattern kept) : scSohuGenOriginUrl (tag ++ kept) =
    if (search m3u8Mark kept).isSome then some (tag ++ kept) else none := by
  have all : (((tag ++ kept).drop 0).drop tag.length).takeWhile (· ≠ 63) = kept := by
    rw [List.drop_zero,List.drop_left,List.takeWhile_eq_self_iff,m.behind]
    intro b mem
    have kept := List.mem_takeWhile_imp mem
    exact kept
  have room := m.room
  unfold scSohuGenOriginUrl
  rw [sohuTagSelf m,sohuClean m]
  dsimp only [bind,Option.bind]
  rw [all,List.drop_zero]
  cases marked : (search m3u8Mark kept).isSome with
  | false => simp [← Option.not_isSome,m.common.marks,marked]
  | true =>
    rw [if_neg (by simp [← Option.not_isSome,m.common.marks,marked])]
    simp [m.common.pattern,printed,Nat.not_le.mpr room.1,Nat.not_le.mpr room.2]

theorem sohuNormal (m : SohuMade reqUrl tag k pattern kept) (other : scUrlIsYk reqUrl = false) :
    Normal (tag ++ kept) ↔ (search m3u8Mark kept).isSome = true := by
  have yk : scUrlIsYk (tag ++ kept) = false := by
    unfold scUrlIsYk strstr at other ⊢
    rw [sohuClean m,missingInside (sohuInside m) (Option.not_isSome_iff_eq_none.mp (by simpa using other))]
    rfl
  have sohu : scUrlIsSohu (tag ++ kept) = true := by
    obtain ⟨n,found⟩ := Option.isSome_iff_exists.mp m.common.sohu
    unfold scUrlIsSohu strstr
    rw [sohuClean m,searchExtends found]
    rfl
  have short : ¬httpSpUrlLenMax ≤ (cstr (tag ++ kept)).length := by
    rw [sohuClean m,List.length_append]
    exact Nat.not_le.mpr m.room.2
  have m3u8 : sohuIsM3u8Url (tag ++ kept) = (search m3u8Mark kept).isSome := by
    obtain ⟨j,found,marks⟩ := m.common.site
    have clean : cstr ((tag ++ kept).drop j) = (tag ++ kept).drop j := by
      have whole := cstrDropClean (tag ++ kept) j
      rwa [sohuClean m] at whole
    unfold sohuIsM3u8Url hasTags strstr
    rw [sohuClean m,searchExtends found]
    dsimp only
    rw [clean,marks]
  have gen : scGenOriginUrl (tag ++ kept) = if (search m3u8Mark kept).isSome then some (tag ++ kept) else none := by
    rw [scGenOriginUrl,if_neg (by simp [yk]),if_pos sohu,sohuSelf m]
  have work : dispatch (tag ++ kept) = if (search m3u8Mark kept).isSome then some (.m3u8 (tag ++ kept)) else none := by
    rw [dispatch,if_neg (by simp [yk]),if_pos sohu,scGetSohuVideo,if_neg short,m3u8]
  constructor
  · rintro ⟨-,accepted⟩
    rw [work] at accepted
    split at accepted
    · assumption
    · cases accepted
  · exact fun marked => ⟨by rw [gen,if_pos marked],by rw [work,if_pos marked]; rfl⟩

end made

end sohu

theorem normalIff {reqUrl o : Bytes} (made : scGenOriginUrl reqUrl = some o) : Normal o ↔ KeepsMark reqUrl := by
  unfold scGenOriginUrl at made
  split at made
  · rename_i yk
    obtain ⟨vid,found,rfl⟩ := ykMade made
    exact iff_of_true (ykNormal (ykVidValid found).1) (.inl yk)
  · rename_i other
    split at made
    · obtain ⟨tag,k,pattern,kept,m,rfl⟩ := sohuMade made
      rw [sohuNormal m (by simpa using other)]
      simp only [KeepsMark,other,sohuKept,m.found,Option.map_some,← m.behind]
      simp
    · cases made

def Serves (reqUrl : Bytes) : Prop := (cstr reqUrl).length < httpSpUrlLenMax → (ngxScAddParse reqUrl).isSome = true

theorem normalServes {reqUrl o : Bytes} (made : scGenOriginUrl reqUrl = some o) (normal : Normal o) : Serves reqUrl := by
  intro short
  unfold ngxScAddParse
  rw [if_neg (Nat.not_le.mpr short),made]
  exact normal.accepted

/-- A form is its own form and is accepted exactly when the mark stands in what is kept. -/
theorem originNormal {reqUrl o : Bytes} (made : scGenOriginUrl reqUrl = some o) : Normal o ∧ Serves reqUrl ↔ KeepsMark reqUrl :=
  (and_iff_left_of_imp (normalServes made)).trans (normalIff made)

theorem originNormalYouku : scGenOriginUrl (ascii "youku?&vid=XNjgzMjc0MjY4") = some (ykForm (ascii "XNjgzMjc0MjY4")) ∧
    (Normal (ykForm (ascii "XNjgzMjc0MjY4")) ∧ Serves (ascii "youku?&vid=XNjgzMjc0MjY4") ↔
      KeepsMark (ascii "youku?&vid=XNjgzMjc0MjY4")) := by
  have made : scGenOriginUrl (ascii "youku?&vid=XNjgzMjc0MjY4") = some (ykForm (ascii "XNjgzMjc0MjY4")) := by decide
  exact ⟨made,originNormal made⟩

theorem markLost : scGenOriginUrl (ascii "hot.vrs.sohu.com/ipad1?x=.m3u8") = some (ascii "hot.vrs.sohu.com/ipad1") ∧
    scGenOriginUrl (ascii "hot.vrs.sohu.com/ipad1") = none ∧ ngxScAddParse (ascii "hot.vrs.sohu.com/ipad1?x=.m3u8") = none ∧
    ¬Normal (ascii "hot.vrs.sohu.com/ipad1") := by
  have lost : scGenOriginUrl (ascii "hot.vrs.sohu.com/ipad1") = none := by decide
  exact ⟨by decide,lost,by decide,fun normal => nomatch lost.symm.trans normal.fixed⟩

end MipsElfExec.SnoopClient
