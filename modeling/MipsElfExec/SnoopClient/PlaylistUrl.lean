import MipsElfExec.SnoopClient.OriginUrl
import MipsElfExec.SnoopClient.Tradition
import MipsElfExec.SnoopClient.UrlCode

/-! From the origin URL of a youku video to the URL that its playlist is asked for with, on the buffers that the parts
are copied through. -/
namespace MipsElfExec.SnoopClient
open CString Access Snooping
open Memory (store meetsStore)

def ykMaxNameLen : Nat := 32
def ykPlaylistVarLen : Nat := 10
def ykUrlVarPasswdLen : Nat := 128

structure RootData where
  videoId : Bytes
  fid : Bytes := []
  passwords : Bytes := []
  source : Bytes := []
  version : Bytes := []
  type : Bytes := []
  pt : Bytes := []
  ob : Bytes := []
  pf : Bytes := []

structure UrlVar where
  n : Nat
  ran : Nat

structure PlayerCfg where
  isFDL : Bool
  isTudouPlayer : Bool

structure PlayerCons where
  ctype : Bytes
  ev : Nat

def identifyYkVideoUrl (purl : Bytes) : Checked Int := do
  let some presult ← strstrChecked purl (ascii "v.youku.com/v_show") | return -1
  return if presult.length = purl.length then 0 else -1

def purlPre : Bytes := ascii "v.youku.com/v_show/id_"

def getYkVideoName (purl : Bytes) : Checked (Nat × Bytes × Bytes) := do
  let some nameIdx ← strstrChecked purl purlPre | return (0,[],[])
  let (name,nameIdx) ← scan (· != 46) ykMaxNameLen (nameIdx.drop purlPre.length)
  let name ← store ykMaxNameLen name
  if purlPre.length + name.length + 5 = (cstr purl).length then return (1,name,[])
  else
    let (folderId,_) ← copyTo (fun b => b != 0 && b != 38) ykMaxNameLen (nameIdx.drop 8)
    return (2,name,folderId)

def strcats (room : Nat) : Bytes → List Bytes → Checked Bytes
  | url,[] => .ok url
  | url,piece :: pieces => do strcats room (← store room (url ++ piece)) pieces

def requestPlaylist (room : Nat) (rootdata : RootData) (urlVar : UrlVar) (playerCfg : PlayerCfg) (playerCons : PlayerCons)
    (url : Bytes) : Checked (Int × Bytes) := do
  let url ← strcats room url [ascii "v.youku.com",ascii "/player/getPlayList",ascii "/VideoIDS/",rootdata.videoId,
    ascii "/timezone/",ascii "+08",ascii "/version/",rootdata.version,ascii "/source/",rootdata.source]
  let url ← if rootdata.type = [] then pure url else strcats room url [ascii "/Type/",rootdata.type]
  let url ← if rootdata.type ≠ ascii "Folder" then pure url
    else do
      let url ← strcats room url [ascii "/Fid/",rootdata.fid,ascii "/Pt/",rootdata.pt]
      if rootdata.ob = [] then pure url else strcats room url [ascii "/Ob/",rootdata.ob]
  let url ← if rootdata.pf = [] then pure url else strcats room url [ascii "/Pf/",rootdata.pf]
  let url ← if playerCfg.isTudouPlayer then strcats room url [ascii "/Sc/",ascii "2"] else pure url
  let url ← strcats room url [ascii "?password="]
  let url ← if rootdata.passwords = [] then pure url
    else do
      let (isUrlEncodeOk,passwords) ← urlEncode rootdata.passwords ykUrlVarPasswdLen
      if isUrlEncodeOk = 0 then pure url else strcats room url [passwords]
  let n ← store 32 (numeral 10 urlVar.n)
  let url ← strcats room url [ascii "&n=",n]
  let ran ← store 32 (numeral 10 urlVar.ran)
  let url ← strcats room url [ascii "&ran=",ran]
  if playerCfg.isFDL then
    let ev ← store 32 (numeral 10 playerCons.ev)
    return (0,← strcats room url [ascii "&ctype=",playerCons.ctype,ascii "&ev=",ev])
  else return (0,url)

-- `random` is what the generator gives behind its seed; the playlist is a string in so many bytes.
def ykUrlToPlaylist (random room : Nat) (url playlist : Bytes) : Checked (Int × Bytes) := do
  if (← identifyYkVideoUrl url) ≠ 0 then return (-1,playlist)
  else
    let (retGetVname,videoName,folderId) ← getYkVideoName url
    if retGetVname = 0 then return (-1,playlist)
    else
      let videoId ← store ykMaxNameLen (cstr videoName)
      let ob ← store ykPlaylistVarLen (ascii "1")
      let pt ← store ykPlaylistVarLen (ascii "0")
      let passwords ← store ykMaxNameLen []
      let version ← store ykPlaylistVarLen (ascii "5")
      let source ← store ykPlaylistVarLen (ascii "video")
      let fid ← if retGetVname = 2 then store ykMaxNameLen (cstr folderId) else pure []
      let type ← if retGetVname = 2 then store ykPlaylistVarLen (ascii "Folder") else pure []
      let ctype ← store ykPlaylistVarLen (ascii "10")
      requestPlaylist room { videoId,fid,passwords,source,version,type,pt,ob } ⟨3,random % 10000⟩ ⟨true,false⟩ ⟨ctype,1⟩ playlist

section
variable {vid : Bytes}

theorem strcatsMeets {room : Nat} {url : Bytes} {pieces : List Bytes} {post : Bytes → Prop}
    (fits : (url ++ pieces.flatten).length < room) : Meets (strcats room url pieces) post ↔ post (url ++ pieces.flatten) := by
  induction pieces generalizing url with
  | nil => simp [strcats]
  | cons piece pieces ih =>
    rw [List.flatten_cons,← List.append_assoc] at fits ⊢
    have first : (url ++ piece).length < room := by
      rw [List.length_append] at fits
      omega
    rw [strcats,meetsBind,meetsStore,ih fits]
    exact and_iff_right first

theorem vidPlain (v : Vid vid) : ∀ b ∈ vid,(b != 46) = true := by
  intro b mem
  simp only [bne_iff_ne]
  rintro rfl
  exact absurd (v.alnum 46 mem) (by decide)

theorem formText (v : Vid vid) : stringAt (ykForm vid) = purlPre ++ (vid ++ (ascii ".html" ++ [0])) := by
  unfold stringAt
  rw [cstrOfNoNul (ykFormClean v),ykForm,List.append_assoc,List.append_assoc]
  rfl

theorem formFound (v : Vid vid) {pat : Bytes} (found : search pat purlPre = some 0) :
    strstrChecked (stringAt (ykForm vid)) pat = .ok (some (stringAt (ykForm vid))) := by
  unfold strstrChecked
  rw [if_pos (stringNul _),strstrString,ykFormFinds v found]
  rfl

theorem formIdentified (v : Vid vid) : identifyYkVideoUrl (stringAt (ykForm vid)) = .ok 0 := by
  unfold identifyYkVideoUrl
  rw [formFound v (by decide)]
  simp [bind,Except.bind,pure,Except.pure]

theorem formName (v : Vid vid) : Meets (getYkVideoName (stringAt (ykForm vid))) (· = (1,vid,[])) := by
  have size : vid.length = 13 := v.size
  have whole : (cstr (stringAt (ykForm vid))).length = purlPre.length + vid.length + 5 := by
    rw [cstrString,cstrOfNoNul (ykFormClean v),ykForm,List.length_append,List.length_append,Nat.add_assoc]
    rfl
  have name : (vid ++ (ascii ".html" ++ [0])).takeWhile (· != 46) = vid := by
    rw [List.takeWhile_append_of_pos (vidPlain v)]
    exact List.append_nil vid
  have all : vid.take ykMaxNameLen = vid := List.take_of_length_le (by rw [size]; decide)
  have room : vid.length < ykMaxNameLen := by
    rw [size]
    decide
  unfold getYkVideoName
  rw [formFound v (by decide)]
  simp only [meetsBind,meetsOk]
  rw [formText v,List.drop_left,meetsScan,name,all,← formText v,meetsStore]
  refine ⟨by simp,room,?_⟩
  rw [whole,if_pos rfl,meetsPure]

end

def playlistUrl (vid : Bytes) (ran : Nat) : Bytes := ascii "v.youku.com/player/getPlayList/VideoIDS/" ++ vid ++
  ascii "/timezone/+08/version/5/source/video?password=&n=3&ran=" ++ numeral 10 ran ++ ascii "&ctype=10&ev=1"

theorem requested {vid : Bytes} (v : Vid vid) {ran : Nat} (small : ran < 10000) :
    Meets (requestPlaylist httpSpUrlLenMax ⟨vid,[],[],ascii "video",ascii "5",[],ascii "0",ascii "1",[]⟩ ⟨3,ran⟩ ⟨true,false⟩
      ⟨ascii "10",1⟩ []) (· = (0,playlistUrl vid ran)) := by
  have size : vid.length = 13 := v.size
  have width : (numeral 10 ran).length ≤ 4 := numeralWidth (by decide) 3 (by omega)
  have plain : ascii "Folder" ≠ [] := by decide
  have three : numeral 10 3 = ascii "3" := by decide
  have one : numeral 10 1 = ascii "1" := by decide
  unfold requestPlaylist
  simp only [meetsBind,meetsPure,meetsStore,if_true,if_pos plain.symm,three,one,Bool.false_eq_true,if_false,ne_eq]
  rw [strcatsMeets (by simp [ascii,size,httpSpUrlLenMax]),strcatsMeets (by simp [ascii,size,httpSpUrlLenMax])]
  refine ⟨by decide,?_⟩
  rw [strcatsMeets (by simp [ascii,size,httpSpUrlLenMax])]
  refine ⟨by omega,?_⟩
  rw [strcatsMeets (by simp [ascii,size,httpSpUrlLenMax]; omega)]
  refine ⟨by decide,?_⟩
  rw [strcatsMeets (by simp [ascii,size,httpSpUrlLenMax]; omega)]
  simp [playlistUrl,ascii]

/-- The form of a request has an id of the request, and the playlist is asked for by this id. -/
theorem originPlaylist {reqUrl o : Bytes} (made : scYkGenOriginUrl reqUrl = some o) : ∃ vid,Vid vid ∧
    (∃ tag ∈ ykTags,tag ++ vid <:+: cstr reqUrl) ∧ ∀ random,
      Meets (ykUrlToPlaylist random httpSpUrlLenMax (stringAt o) []) (· = (0,playlistUrl vid (random % 10000))) := by
  obtain ⟨vid,found,rfl⟩ := ykMade made
  obtain ⟨v,inside⟩ := ykVidValid found
  refine ⟨vid,v,inside,fun random => ?_⟩
  have clean : cstr vid = vid := cstrOfNoNul fun nul => absurd (v.alnum 0 nul) (by decide)
  have room : vid.length < ykMaxNameLen := by
    rw [v.size]
    decide
  obtain ⟨_,named,rfl⟩ := formName v
  unfold ykUrlToPlaylist
  rw [formIdentified v,meetsBind,meetsOk,if_neg (by decide),named,meetsBind,meetsOk]
  dsimp only
  rw [if_neg (by decide),clean]
  simp only [meetsBind,meetsStore,meetsPure,if_neg (show ¬1 = 2 by decide)]
  exact ⟨room,by decide,by decide,by decide,by decide,by decide,by decide,requested v (Nat.mod_lt random (by decide))⟩

theorem originPlaylistTagged : scYkGenOriginUrl (ascii "v.youku.com/v_show/id_XNjY2OTkyNjk2.html?f=1") =
      some (ascii "v.youku.com/v_show/id_XNjY2OTkyNjk2.html") ∧ ∃ vid,Vid vid ∧
    (∃ tag ∈ ykTags,tag ++ vid <:+: cstr (ascii "v.youku.com/v_show/id_XNjY2OTkyNjk2.html?f=1")) ∧ ∀ random,
      Meets (ykUrlToPlaylist random httpSpUrlLenMax (stringAt (ascii "v.youku.com/v_show/id_XNjY2OTkyNjk2.html")) [])
        (· = (0,playlistUrl vid (random % 10000))) :=
  have made : scYkGenOriginUrl (ascii "v.youku.com/v_show/id_XNjY2OTkyNjk2.html?f=1") =
      some (ascii "v.youku.com/v_show/id_XNjY2OTkyNjk2.html") := by decide
  ⟨made,originPlaylist made⟩

end MipsElfExec.SnoopClient
