import Mathlib.Data.List.TakeWhile
import MipsElfExec.Snooping.Key
import MipsElfExec.Snooping.Lookup

/-! The name of the local file of a URL: what of the URL is in it, when it lies directly in the directory of the
host, and which URLs share one. -/
namespace MipsElfExec.Snooping
open CString

def urlHost (url : Bytes) : Bytes := url.takeWhile (· ≠ 47)
def urlRest (url : Bytes) : Bytes := (url.dropWhile (· ≠ 47)).drop 1
def urlPath (url : Bytes) : Bytes := (urlRest url).takeWhile (· ≠ 63)
def urlQuery (url : Bytes) : Bytes := (urlRest url).dropWhile (· ≠ 63)

def dotless (b : Byte) : Byte := if b = 46 then 95 else b
def flat (b : Byte) : Byte := if b = 47 then 95 else b

def KeyParse.tag : KeyParse → Option (Bytes × Nat × Bool)
  | .arkLetvCom => some (ascii "ark=",1,false)
  | .qqCom => some (ascii "vid=",1,false)
  | .sohuM3u8File => none
  | .sohu => some (ascii "file",1,true)
  | .youkuAndriod => some (ascii "id=",1,false)
  | .plYouku => some (ascii "vid=",2,false)

def parameter (tag : Bytes) (ends : Nat) (query : Bytes) : Bytes :=
  match search tag query with
  | some i => paraScan false ends (query.drop i)
  | none => []

def paraAdded (url : Bytes) (rule : Rule) : Bytes × Bool :=
  match rule.urlParaKeyParse.bind KeyParse.tag with
  | none => ([],false)
  | some (tag,ends,slash) =>
    let text := parameter tag ends (urlQuery url)
    if rule.keyFlg &&& httpCacheKeyPara ≠ 0 ∧ (urlHost url).length + (urlPath url).length + text.length + 2 < httpSpLfileLenMax then
      (text,slash)
    else ([],false)

def keyAdded (url : Bytes) (rule : Rule) : Bytes :=
  let (text,slash) := paraAdded url rule
  if text = [] then [] else 95 :: if slash then text.map flat else text

section reading
variable {url : Bytes} {rule : Rule}

theorem urlSplit (slash : url.dropWhile (· ≠ 47) ≠ []) : url = urlHost url ++ 47 :: urlRest url := by
  obtain ⟨rest,same⟩ := (untilStop 47 url).resolve_left slash
  have parts : url.takeWhile (· ≠ 47) ++ url.dropWhile (· ≠ 47) = url := List.takeWhile_append_dropWhile
  rw [same] at parts
  unfold urlHost urlRest
  rw [same]
  exact parts.symm

theorem restSplit (url : Bytes) : urlRest url = urlPath url ++ urlQuery url := List.takeWhile_append_dropWhile.symm

theorem hostClean (url : Bytes) : 47 ∉ urlHost url := untilClean 47 url

theorem localHostMap (url : Bytes) : localHost url = (urlHost url).map dotless := by
  induction url with
  | nil => rfl
  | cons b url ih =>
    by_cases slash : b = 47
    · simp [localHost,urlHost,slash]
    · have more : urlHost (b :: url) = b :: urlHost url := List.takeWhile_cons_of_pos (by simpa using slash)
      rw [localHost,if_neg slash,more,ih]
      rfl

theorem scanFlat (ends : Nat) (text : Bytes) : paraScan true ends text = (paraScan false ends text).map flat := by
  induction text generalizing ends with
  | nil => rfl
  | cons b text ih =>
    unfold paraScan
    by_cases amp : b = 38
    · rw [if_pos amp,if_pos amp]
      split
      · rfl
      · rw [ih,amp]
        rfl
    · rw [if_neg amp,if_neg amp,ih]
      by_cases slash : b = 47 <;> simp [flat,slash]

theorem paraKeyText {tag : Bytes} (named : tag.head?.any (· != 38) = true) (ends : Nat) (slash : Bool) (query : Bytes) :
    paraKey tag ends slash query =
      let text := parameter tag ends query
      if text = [] then [] else 95 :: if slash then text.map flat else text := by
  unfold paraKey parameter
  cases found : search tag query with
  | none => rfl
  | some i =>
    dsimp only
    obtain ⟨b,rest,rfl⟩ : ∃ b rest,tag = b :: rest := by
      cases tag with
      | nil => cases named
      | cons b rest => exact ⟨b,rest,rfl⟩
    have here : query.drop i = b :: (rest ++ query.drop (i + (b :: rest).length)) := by
      have bound := searchBound found
      have size : (query.take i).length = i := List.length_take_of_le (by omega)
      have whole := congrArg (List.drop i) (searchFound found)
      rw [List.append_assoc,List.drop_append_of_le_length size.ge,List.drop_of_length_le size.le] at whole
      exact whole
    have other : b ≠ 38 := by simpa using named
    have some_ : paraScan false ends (query.drop i) ≠ [] := by
      rw [here,paraScan,if_neg other]
      exact List.cons_ne_nil _ _
    rw [if_neg some_]
    cases slash
    · rfl
    · rw [scanFlat]
      rfl

theorem parseRun {parse : KeyParse} {tag : Bytes} {ends : Nat} {slash : Bool} (named : parse.tag = some (tag,ends,slash))
    (query : Bytes) : parse.run query =
      let text := parameter tag ends query
      if text = [] then [] else 95 :: if slash then text.map flat else text := by
  cases parse <;> cases named <;> exact paraKeyText (by decide) _ _ query

def plainName (url : Bytes) : Bytes :=
  (urlHost url).map dotless ++ if urlRest url = [] then [] else 47 :: (urlPath url).map flat

theorem localFile (slash : url.dropWhile (· ≠ 47) ≠ []) (rule : Rule) : ngxHttpUrl2localFile url rule =
    match rule.urlParaKeyParse with
    | none => plainName url
    | some parse =>
      if urlQuery url = [] ∨ rule.keyFlg &&& httpCacheKeyPara = 0 then plainName url
      else if (plainName url).length + (parse.run (urlQuery url)).length < httpSpLfileLenMax then
        plainName url ++ parse.run (urlQuery url) else plainName url := by
  have split := urlSplit slash
  have size : ((urlHost url).map dotless).length = (urlHost url).length := List.length_map ..
  have behind : (urlHost url ++ 47 :: urlRest url).drop ((urlHost url).length + 1) = urlRest url := by
    rw [← List.drop_drop,List.drop_left]
    rfl
  have here : (urlHost url ++ 47 :: urlRest url)[(urlHost url).length]?.getD 0 = 47 := by simp
  rw [← split] at behind here
  have ended : (urlHost url).length + 1 = url.length ↔ urlRest url = [] := by
    have long := congrArg List.length split
    rw [List.length_append,List.length_cons] at long
    rw [← List.length_eq_zero_iff]
    omega
  have flatted : ((urlRest url).takeWhile (· ≠ 63)).map (fun b => if b = 47 then 95 else b) = (urlPath url).map flat := rfl
  have query : (urlRest url).drop ((urlPath url).map flat).length = urlQuery url := by
    rw [List.length_map,restSplit url,List.drop_left]
  have plain : (if (urlHost url).length + 1 = url.length then (urlHost url).map dotless
      else (urlHost url).map dotless ++ 47 :: (urlPath url).map flat) = plainName url := by
    unfold plainName
    by_cases none_ : urlRest url = []
    · rw [if_pos (ended.mpr none_),if_pos none_,List.append_nil]
    · rw [if_neg fun same => none_ (ended.mp same),if_neg none_]
  unfold ngxHttpUrl2localFile
  rw [localHostMap]
  dsimp only
  rewrite [size,behind,flatted,query,here,plain]
  rfl

theorem parameterNil {tag : Bytes} (some_ : tag ≠ []) (ends : Nat) : parameter tag ends [] = [] := by
  simp [parameter,search,some_]

theorem fileName (slash : url.dropWhile (· ≠ 47) ≠ []) (parser : rule.urlParaKeyParse ≠ some .sohuM3u8File) :
    ngxHttpUrl2localFile url rule = plainName url ++ keyAdded url rule ∧ (urlRest url = [] → keyAdded url rule = []) := by
  rw [localFile slash]
  cases parse : rule.urlParaKeyParse with
  | none =>
    have none_ : keyAdded url rule = [] := by simp [keyAdded,paraAdded,parse]
    exact ⟨by rw [none_,List.append_nil],fun _ => none_⟩
  | some p =>
    obtain ⟨tag,ends,mapped,named⟩ : ∃ tag ends mapped,p.tag = some (tag,ends,mapped) := by
      cases p with
      | sohuM3u8File => exact absurd parse parser
      | _ => exact ⟨_,_,_,rfl⟩
    have some_ : tag ≠ [] := by
      cases p <;> cases named <;> decide
    have run := parseRun named (urlQuery url)
    have added : paraAdded url rule =
        if rule.keyFlg &&& httpCacheKeyPara ≠ 0 ∧ (urlHost url).length + (urlPath url).length +
          (parameter tag ends (urlQuery url)).length + 2 < httpSpLfileLenMax then
          (parameter tag ends (urlQuery url),mapped) else ([],false) := by
      simp only [paraAdded,parse,Option.bind_some,named]
    have key : keyAdded url rule =
        if rule.keyFlg &&& httpCacheKeyPara ≠ 0 ∧ (urlHost url).length + (urlPath url).length +
          (parameter tag ends (urlQuery url)).length + 2 < httpSpLfileLenMax then p.run (urlQuery url) else [] := by
      unfold keyAdded
      rw [added]
      by_cases on : rule.keyFlg &&& httpCacheKeyPara ≠ 0 ∧ (urlHost url).length + (urlPath url).length +
          (parameter tag ends (urlQuery url)).length + 2 < httpSpLfileLenMax
      · rw [if_pos on,if_pos on,run]
      · rw [if_neg on,if_neg on]
        rfl
    by_cases absent : parameter tag ends (urlQuery url) = []
    · have quiet : p.run (urlQuery url) = [] := by
        rw [run]
        exact if_pos absent
      have none_ : keyAdded url rule = [] := by
        rw [key,quiet,ite_self]
      refine ⟨?_,fun _ => none_⟩
      dsimp only
      rw [none_,quiet,List.append_nil,ite_self,ite_self]
    · have query : urlQuery url ≠ [] := fun empty => absent (by rw [empty]; exact parameterNil some_ ends)
      have behind : urlRest url ≠ [] := fun empty => query (List.append_eq_nil_iff.mp ((restSplit url).symm.trans empty)).2
      have long : (plainName url).length = (urlHost url).length + (urlPath url).length + 1 := by
        rw [plainName,if_neg behind,List.length_append,List.length_map,List.length_cons,List.length_map]
        omega
      have size : (p.run (urlQuery url)).length = (parameter tag ends (urlQuery url)).length + 1 := by
        rw [run]
        dsimp only
        rw [if_neg absent,List.length_cons]
        split <;> simp
      refine ⟨?_,fun empty => absurd empty behind⟩
      dsimp only
      rw [key,long,size]
      by_cases off : rule.keyFlg &&& httpCacheKeyPara = 0
      · rw [if_pos (.inr off),if_neg (by simp [off]),List.append_nil]
      · rw [if_neg (by simp [query,off])]
        by_cases fits : (urlHost url).length + (urlPath url).length + (parameter tag ends (urlQuery url)).length + 2 <
            httpSpLfileLenMax
        · rw [if_pos (by omega),if_pos ⟨off,fits⟩]
        · rw [if_neg (by omega),if_neg (fun both => fits both.2),List.append_nil]

end reading

def Inside (name : Bytes) : Prop := name.count 47 ≤ 1 ∧ ∀ part ∈ name.splitOn 47,part ≠ [] ∧ part ≠ ascii ".."

instance : DecidablePred Inside := fun name => by unfold Inside; infer_instance

def cacheRules : List Rule := httpForbidenRule :: (httpCacheDefaultHostUrl :: httpCacheHostUrl).flatMap Host.urlCache

section inside
variable {url : Bytes} {rule : Rule}

theorem acceptedUrl (accepted : ngxHttpUrlRuleGet url = some rule) :
    urlHost url ≠ [] ∧ url.dropWhile (· ≠ 47) ≠ [] ∧ rule ∈ cacheRules := by
  unfold ngxHttpUrlRuleGet at accepted
  dsimp only at accepted
  split at accepted
  · cases accepted
  · rename_i given
    rw [not_or] at given
    refine ⟨given.2,given.1,?_⟩
    have listed (cacheHost : Host) (mem : cacheHost ∈ httpCacheDefaultHostUrl :: httpCacheHostUrl)
        (found : cacheHost.urlCache.find? (·.accepts (url.dropWhile (· ≠ 47))) = some rule) : rule ∈ cacheRules :=
      List.mem_cons_of_mem _ (List.mem_flatMap.mpr ⟨cacheHost,mem,List.mem_of_find?_eq_some found⟩)
    rw [treeFind] at accepted
    split at accepted
    · rename_i cacheHost found
      split at accepted
      · cases Option.some.inj accepted
        exact List.mem_cons_self
      · exact listed cacheHost (List.mem_cons_of_mem _ (List.mem_of_find?_eq_some found)) accepted
    · exact listed httpCacheDefaultHostUrl List.mem_cons_self accepted

theorem rulesParse : ∀ rule ∈ cacheRules,rule.urlParaKeyParse ≠ some .sohuM3u8File := by decide

theorem acceptedName (accepted : ngxHttpUrlRuleGet url = some rule) :
    ngxHttpUrl2localFile url rule = plainName url ++ keyAdded url rule ∧ (urlRest url = [] → keyAdded url rule = []) :=
  fileName (acceptedUrl accepted).2.1 (rulesParse rule (acceptedUrl accepted).2.2)

theorem insidePlain {name : Bytes} (plain : 47 ∉ name) : Inside name ↔ name ≠ [] ∧ name ≠ ascii ".." := by
  unfold Inside
  rw [List.count_eq_zero_of_not_mem plain,List.splitOn_eq_singleton plain]
  simp

theorem insideJoined {host file : Bytes} (plain : 47 ∉ host) (named : host ≠ []) (below : host ≠ ascii "..") :
    Inside (host ++ 47 :: file) ↔ 47 ∉ file ∧ file ≠ [] ∧ file ≠ ascii ".." := by
  unfold Inside
  rw [List.count_append,List.count_eq_zero_of_not_mem plain,List.count_cons_self,
    List.splitOn_append_cons_self_of_not_mem plain]
  constructor
  · rintro ⟨once,parts⟩
    have clean : 47 ∉ file := List.count_eq_zero.mp (by omega)
    rw [List.splitOn_eq_singleton clean] at parts
    exact ⟨clean,parts file (by simp)⟩
  · rintro ⟨clean,some_,up⟩
    rw [List.splitOn_eq_singleton clean,List.count_eq_zero_of_not_mem clean]
    exact ⟨Nat.le_refl 1,by simp [named,below,some_,up]⟩

theorem dotlessClean (host : Bytes) : 46 ∉ host.map dotless := by
  intro mem
  obtain ⟨b,_,same⟩ := List.mem_map.mp mem
  unfold dotless at same
  split at same
  · cases same
  · rename_i other
    exact other same

theorem dotlessSlash {host : Bytes} (plain : 47 ∉ host) : 47 ∉ host.map dotless := by
  intro mem
  obtain ⟨b,inside,same⟩ := List.mem_map.mp mem
  unfold dotless at same
  split at same
  · cases same
  · exact plain (same ▸ inside)

theorem flatClean (path : Bytes) : 47 ∉ path.map flat := by
  intro mem
  obtain ⟨b,_,same⟩ := List.mem_map.mp mem
  unfold flat at same
  split at same
  · cases same
  · rename_i other
    exact other same

theorem flatUp (path : Bytes) : path.map flat = ascii ".." ↔ path = ascii ".." := by
  have dot (b : Byte) : flat b = 46 ↔ b = 46 := by
    unfold flat
    split
    · rename_i slash
      simp [slash]
    · rfl
  cases path with
  | nil => rfl
  | cons a path =>
    cases path with
    | nil => simp [ascii]
    | cons b path => simp [ascii,dot]

theorem keyEmpty : keyAdded url rule = [] ↔ (paraAdded url rule).1 = [] := by
  unfold keyAdded
  simp only
  split <;> simp_all

theorem keySlash : 47 ∈ keyAdded url rule ↔ 47 ∈ (paraAdded url rule).1 ∧ (paraAdded url rule).2 = false := by
  unfold keyAdded
  simp only
  split
  · rename_i none_
    simp [none_]
  · rw [List.mem_cons]
    cases mapped : (paraAdded url rule).2 with
    | false => simp
    | true =>
      simp only [if_true]
      exact ⟨fun mem => absurd (mem.resolve_left (by decide)) (flatClean _),fun both => by cases both.2⟩

theorem keyFirst : keyAdded url rule = [] ∨ ∃ rest,keyAdded url rule = 95 :: rest := by
  unfold keyAdded
  simp only
  split
  · exact .inl rfl
  · exact .inr ⟨_,rfl⟩

/-- A file lies directly in the directory of its host unless it has no name of its own, goes up, or takes a slash from
the query. -/
theorem fileInside (accepted : ngxHttpUrlRuleGet url = some rule) : Inside (ngxHttpUrl2localFile url rule) ↔
    urlRest url = [] ∨ (((paraAdded url rule).1 ≠ [] ∨ (urlPath url ≠ [] ∧ urlPath url ≠ ascii "..")) ∧
      (47 ∉ (paraAdded url rule).1 ∨ (paraAdded url rule).2 = true)) := by
  obtain ⟨named,_,_⟩ := acceptedUrl accepted
  obtain ⟨name,empty⟩ := acceptedName accepted
  have hostNamed : (urlHost url).map dotless ≠ [] := fun none_ => named (List.map_eq_nil_iff.mp none_)
  have hostPlain : 47 ∉ (urlHost url).map dotless := dotlessSlash (hostClean url)
  have hostBelow : (urlHost url).map dotless ≠ ascii ".." := fun same =>
    dotlessClean (urlHost url) (by rw [same]; decide)
  by_cases none_ : urlRest url = []
  · rw [name,empty none_,plainName,if_pos none_,List.append_nil,List.append_nil,insidePlain hostPlain]
    exact ⟨fun _ => .inl none_,fun _ => ⟨hostNamed,hostBelow⟩⟩
  · have joined : plainName url ++ keyAdded url rule =
        (urlHost url).map dotless ++ 47 :: ((urlPath url).map flat ++ keyAdded url rule) := by
      rw [plainName,if_neg none_,List.append_assoc]
      rfl
    have slashes : 47 ∉ (urlPath url).map flat ++ keyAdded url rule ↔
        47 ∉ (paraAdded url rule).1 ∨ (paraAdded url rule).2 = true := by
      rw [List.mem_append,keySlash]
      have clean := flatClean (urlPath url)
      cases (paraAdded url rule).2 <;> simp [clean]
    rw [name,joined,insideJoined hostPlain hostNamed hostBelow,slashes]
    have rest : ((urlPath url).map flat ++ keyAdded url rule ≠ [] ∧
        (urlPath url).map flat ++ keyAdded url rule ≠ ascii "..") ↔
          (paraAdded url rule).1 ≠ [] ∨ (urlPath url ≠ [] ∧ urlPath url ≠ ascii "..") := by
      rcases @keyFirst url rule with quiet | ⟨more,key⟩
      · rw [quiet,List.append_nil,keyEmpty.mp quiet,Ne,Ne,Ne,flatUp,List.map_eq_nil_iff]
        simp
      · have added : (paraAdded url rule).1 ≠ [] := fun absent => by
          rw [keyEmpty.mpr absent] at key
          cases key
        have line : (95 : Byte) ∈ (urlPath url).map flat ++ keyAdded url rule :=
          List.mem_append_right _ (by rw [key]; exact List.mem_cons_self)
        exact ⟨fun _ => .inl added,fun _ => ⟨List.ne_nil_of_mem line,fun same => by
          rw [same] at line
          exact absurd line (by decide)⟩⟩
    rw [rest]
    simp only [none_,false_or]
    exact and_comm

theorem showInside : Inside (ngxHttpUrl2localFile (ascii "v.youku.com/v_show/id_1.html")
    (httpYoukuVidoeHtmlUrlStr.head (List.cons_ne_nil _ _))) :=
  (fileInside (show ngxHttpUrlRuleGet (ascii "v.youku.com/v_show/id_1.html") = some _ by decide)).mpr
    (.inr (by decide))

theorem playOutside : ∃ rule,ngxHttpUrlRuleGet (ascii "play.api.3g.youku.com/common/v3/play?id=../../x") = some rule ∧
    ngxHttpUrl2localFile (ascii "play.api.3g.youku.com/common/v3/play?id=../../x") rule =
      ascii "play_api_3g_youku_com/common_v3_play_id=../../x" ∧
    ¬Inside (ngxHttpUrl2localFile (ascii "play.api.3g.youku.com/common/v3/play?id=../../x") rule) :=
  ⟨httpYoukuAndriodFlvpathUrlStr.head (List.cons_ne_nil _ _),by decide,by decide,by decide⟩

end inside

end MipsElfExec.Snooping
