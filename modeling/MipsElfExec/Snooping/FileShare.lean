import MipsElfExec.Snooping.FileName
import MipsElfExec.Snooping.KeySpec

/-! Which URLs share a local file, and where different keys are enough for different files: the query changes neither
the rule nor a key without a parameter. -/
namespace MipsElfExec.Snooping
open CString

section query
variable {path query url : Bytes} {rule : Rule}

theorem scanParaSet (plain : 63 ∉ path) (i : Nat) (x : Xiegan) (para : Nat) :
    xieganScan path i { x with para := para } = { xieganScan path i x with para := para } := by
  induction path generalizing i x with
  | nil => rfl
  | cons b path ih =>
    rw [List.mem_cons,not_or] at plain
    have moved : Xiegan.slash { x with para := para } i = { x.slash i with para := para } := by
      unfold Xiegan.slash
      dsimp only
      split <;> rfl
    unfold xieganScan
    rw [moved]
    split
    · exact ih plain.2 _ _
    · split
      · exact ih plain.2 _ { x with post := i }
      · rw [if_neg (Ne.symm plain.1),if_neg (Ne.symm plain.1)]
        exact ih plain.2 _ _

theorem treeQuery (plain : 63 ∉ path) (opened : query = [] ∨ query.head? = some 63) :
    treeScan (path ++ query) = treeScan path := by
  rcases opened with rfl | marked
  · rw [List.append_nil]
  · obtain ⟨rest,rfl⟩ := List.head?_eq_some_iff.mp marked
    have whole := scanParaSet plain 0 ⟨0,0,0,0,0,0⟩ (path ++ 63 :: rest).length
    have alone := scanParaSet plain 0 ⟨0,0,0,0,0,0⟩ path.length
    unfold treeScan
    rw [scanAppend plain,Nat.zero_add]
    dsimp only at whole alone
    rw [whole,alone]
    rfl

theorem sliceFront {a b : Nat} (inside : b ≤ path.length) : slice (path ++ query) a b = slice path a b := by
  unfold slice
  rw [List.drop_append]
  rcases Nat.lt_or_ge path.length a with high | low
  · have none_ : b - a = 0 := by omega
    rw [none_,List.take_zero,List.take_zero]
  · exact List.take_append_of_le_length (by rw [List.length_drop]; omega)

theorem acceptsQuery (plain : 63 ∉ path) (opened : query = [] ∨ query.head? = some 63) (free : rule.cacheFlg.para = false) :
    rule.accepts (path ++ query) = rule.accepts path := by
  obtain ⟨one,two,three,four⟩ := treeBounds path
  have post := treePost path
  unfold Rule.accepts
  have scan := treeQuery plain opened
  unfold treeScan at scan one two three four post
  rw [scan]
  dsimp only
  rw [sliceFront (by omega),sliceFront (by omega),sliceFront four,sliceFront four,free]
  rfl

theorem rulesFree : ∀ cacheHost ∈ httpCacheDefaultHostUrl :: httpCacheHostUrl,∀ rule ∈ cacheHost.urlCache,
    rule.cacheFlg.para = false := by decide

theorem markOpened (text : Bytes) : text.dropWhile (· ≠ 63) = [] ∨ (text.dropWhile (· ≠ 63)).head? = some 63 := by
  refine (untilStop 63 text).imp_right fun ⟨rest,opened⟩ => ?_
  rw [opened]
  rfl

theorem queryOpened (url : Bytes) : urlQuery url = [] ∨ (urlQuery url).head? = some 63 := markOpened (urlRest url)

theorem ruleShared {other : Bytes} (host : urlHost url = urlHost other) (path : urlPath url = urlPath other)
    (slash : url.dropWhile (· ≠ 47) ≠ []) (slash' : other.dropWhile (· ≠ 47) ≠ []) :
    ngxHttpUrlRuleGet url = ngxHttpUrlRuleGet other := by
  have behind {url : Bytes} (slash : url.dropWhile (· ≠ 47) ≠ []) :
      url.dropWhile (· ≠ 47) = (47 :: urlPath url) ++ urlQuery url := by
    have parts : url.takeWhile (· ≠ 47) ++ url.dropWhile (· ≠ 47) = url := List.takeWhile_append_dropWhile
    have split := urlSplit slash
    rw [restSplit,urlHost] at split
    exact List.append_cancel_left (parts.trans split)
  have found (cacheHost : Host) (mem : cacheHost ∈ httpCacheDefaultHostUrl :: httpCacheHostUrl) :
      cacheHost.urlCache.find? (·.accepts (url.dropWhile (· ≠ 47))) =
        cacheHost.urlCache.find? (·.accepts (other.dropWhile (· ≠ 47))) := by
    refine List.find?_congr fun rule inside => ?_
    have free := rulesFree cacheHost mem rule inside
    have plain (url : Bytes) : 63 ∉ 47 :: urlPath url := fun mem =>
      (List.mem_cons.mp mem).elim (by decide) (untilClean 63 (urlRest url))
    rw [behind slash,behind slash',acceptsQuery (plain url) (queryOpened url) free,
      acceptsQuery (plain other) (queryOpened other) free,path]
  unfold urlHost at host
  unfold ngxHttpUrlRuleGet
  dsimp only
  rw [host]
  by_cases none_ : other.takeWhile (· ≠ 47) = []
  · rw [if_pos (.inr none_),if_pos (.inr none_)]
  · rw [if_neg (not_or.mpr ⟨slash,none_⟩),if_neg (not_or.mpr ⟨slash',none_⟩),treeFind,found _ List.mem_cons_self]
    cases held : httpCacheHostUrl.find? fun cacheHost => cstr cacheHost.host == cstr (other.takeWhile (· ≠ 47)) with
    | none => rfl
    | some cacheHost =>
      dsimp only
      rw [found _ (List.mem_cons_of_mem _ (List.mem_of_find?_eq_some held))]

theorem scanBefore (plain : 63 ∉ path) (opened : query = [] ∨ query.head? = some 63) (keyFlg i slashes last : Nat) :
    keyScan keyFlg (path ++ query) i slashes last =
      { keyScan keyFlg path i slashes last with query := if query = [] then none else some (i + path.length) } := by
  induction path generalizing i slashes last with
  | nil =>
    rcases opened with rfl | marked
    · rfl
    · obtain ⟨rest,rfl⟩ := List.head?_eq_some_iff.mp marked
      rfl
  | cons b path ih =>
    rw [List.mem_cons,not_or] at plain
    have next : i + (b :: path).length = i + 1 + path.length := by rw [List.length_cons]; omega
    rw [List.cons_append,keyScan,if_neg (Ne.symm plain.1),keyScan,if_neg (Ne.symm plain.1),next]
    dsimp only
    rw [ih plain.2]
    split <;> split <;> rfl

theorem scanLast (keyFlg : Nat) (path : Bytes) (i slashes last : Nat) (before : last ≤ i) :
    (keyScan keyFlg path i slashes last).lastXiegan ≤ i + path.length := by
  induction path generalizing i slashes last with
  | nil => exact before
  | cons b path ih =>
    have next : i + (b :: path).length = i + 1 + path.length := by rw [List.length_cons]; omega
    unfold keyScan
    rw [next]
    split
    · exact before.trans (by omega)
    · have step := ih (i + 1) (if b = 47 then slashes + 1 else slashes) (if b = 47 then i else last) (by split <;> omega)
      generalize (if b = 47 then slashes + 1 else slashes) = count at step ⊢
      generalize (if b = 47 then i else last) = place at step ⊢
      dsimp only
      split <;> exact step

theorem overwriteMore {data more text : Bytes} {pos : Nat} (inside : pos ≤ data.length) :
    overwrite (data ++ more) pos text = overwrite data pos text ++ more.drop (pos + text.length - data.length) := by
  unfold overwrite
  rw [List.take_append_of_le_length inside,List.drop_append]
  simp only [List.append_assoc]

theorem keyQuery (plain : 63 ∉ path) (opened : query = [] ∨ query.head? = some 63)
    (quiet : rule.keyFlg &&& httpCacheKeyPara = 0) :
    ngxHttpSnoopingUrl2localKey (path ++ query) rule = ngxHttpSnoopingUrl2localKey path rule := by
  have scan := scanBefore plain opened rule.keyFlg 0 0 0
  have alone := scanBefore plain (.inl rfl) rule.keyFlg 0 0 0
  rw [List.append_nil,if_pos rfl] at alone
  have short := keptShort rule.keyFlg path 0 0 0
  have last := scanLast rule.keyFlg path 0 0 0 (Nat.le_refl 0)
  rw [Nat.zero_add] at last
  have silent (text : Bytes) : paraKept text rule = [] := if_neg fun both => both.2 quiet
  have stop : (keyScan rule.keyFlg (path ++ query) 0 0 0).query.getD (path ++ query).length = path.length := by
    rw [scan]
    by_cases none_ : query = []
    · simp [none_]
    · simp [none_]
  have stopAlone : (keyScan rule.keyFlg path 0 0 0).query.getD path.length = path.length := by
    rw [alone]
    rfl
  have data : overwrite (path ++ query) 0 (keyScan rule.keyFlg path 0 0 0).kept =
      overwrite path 0 (keyScan rule.keyFlg path 0 0 0).kept ++ query := by
    have none_ : 0 + (keyScan rule.keyFlg path 0 0 0).kept.length - path.length = 0 := by omega
    rw [overwriteMore (Nat.zero_le _),none_,List.drop_zero]
  have long := overwriteLong path (keyScan rule.keyFlg path 0 0 0).kept 0
  have read : fileRead (path ++ query) rule = fileRead path rule := by
    unfold fileRead
    dsimp only
    rw [stop,stopAlone,scan]
    dsimp only
    rw [data,sliceFront long]
  have kept : fileKept (path ++ query) rule = fileKept path rule := by
    unfold fileKept
    rw [read]
  have parsed : (fileParsed (path ++ query) rule).take (keyScan rule.keyFlg path 0 0 0).kept.length =
      (fileParsed path rule).take (keyScan rule.keyFlg path 0 0 0).kept.length := by
    unfold fileParsed
    dsimp only
    rw [kept,scan]
    dsimp only
    rw [data,overwriteMore (last.trans long)]
    exact List.take_append_of_le_length (short.trans (long.trans (overwriteLong _ _ _)))
  rw [keyResult,keyResult,silent,silent,kept,List.append_nil,List.append_nil]
  rw [← parsed,scan]

end query

section sharing
variable {u v : Bytes} {r s : Rule}

structure SharesFile (u : Bytes) (r : Rule) (v : Bytes) (s : Rule) : Prop where
  host : (urlHost u).map dotless = (urlHost v).map dotless
  rest : (urlRest u = [] ∧ urlRest v = []) ∨ (urlRest u ≠ [] ∧ urlRest v ≠ [] ∧
    (urlPath u).map flat ++ keyAdded u r = (urlPath v).map flat ++ keyAdded v s)

theorem splitUnique {a b x y : Bytes} (first : 47 ∉ a) (second : 47 ∉ b) (same : a ++ 47 :: x = b ++ 47 :: y) :
    a = b ∧ x = y := by
  have front {a x : Bytes} (plain : 47 ∉ a) : (a ++ 47 :: x).takeWhile (fun b : Byte => decide (b ≠ 47)) = a := by
    rw [List.takeWhile_append_of_pos (untilAll plain),
      List.takeWhile_cons_of_neg (by simp),List.append_nil]
  have host : a = b := by rw [← @front a x first,same,@front b y second]
  subst host
  exact ⟨rfl,(List.cons.inj (List.append_cancel_left same)).2⟩

theorem nameShared (first : ngxHttpUrlRuleGet u = some r) (second : ngxHttpUrlRuleGet v = some s) :
    ngxHttpUrl2localFile u r = ngxHttpUrl2localFile v s ↔ SharesFile u r v s := by
  obtain ⟨nameU,emptyU⟩ := acceptedName first
  obtain ⟨nameV,emptyV⟩ := acceptedName second
  have plainU := dotlessSlash (hostClean u)
  have plainV := dotlessSlash (hostClean v)
  have whole {w : Bytes} {t : Rule} (some_ : urlRest w ≠ []) : plainName w ++ keyAdded w t =
      (urlHost w).map dotless ++ 47 :: ((urlPath w).map flat ++ keyAdded w t) := by
    rw [plainName,if_neg some_,List.append_assoc]
    rfl
  have bare {w : Bytes} {t : Rule} (none_ : urlRest w = []) (quiet : keyAdded w t = []) :
      plainName w ++ keyAdded w t = (urlHost w).map dotless := by
    rw [plainName,if_pos none_,quiet,List.append_nil,List.append_nil]
  rw [nameU,nameV]
  constructor
  · intro same
    by_cases restU : urlRest u = []
    · rw [bare restU (emptyU restU)] at same
      by_cases restV : urlRest v = []
      · exact ⟨same.trans (bare restV (emptyV restV)),.inl ⟨restU,restV⟩⟩
      · exact absurd (by rw [same,whole restV]; simp) plainU
    · rw [whole restU] at same
      by_cases restV : urlRest v = []
      · rw [bare restV (emptyV restV)] at same
        exact absurd (by rw [← same]; simp) plainV
      · rw [whole restV] at same
        obtain ⟨host,file⟩ := splitUnique plainU plainV same
        exact ⟨host,.inr ⟨restU,restV,file⟩⟩
  · rintro ⟨host,⟨restU,restV⟩ | ⟨restU,restV,file⟩⟩
    · rw [bare restU (emptyU restU),bare restV (emptyV restV),host]
    · rw [whole restU,whole restV,host,file]

structure Unmixed (url : Bytes) (rule : Rule) : Prop where
  quiet : rule.keyFlg &&& httpCacheKeyPara = 0
  host : 95 ∉ urlHost url
  path : 95 ∉ urlPath url

theorem mapApart {f : Byte → Byte} {xs ys : Bytes} (apart : ∀ a ∈ xs,∀ b ∈ ys,f a = f b → a = b)
    (same : xs.map f = ys.map f) : xs = ys := by
  induction xs generalizing ys with
  | nil => exact (List.map_eq_nil_iff.mp same.symm).symm
  | cons x xs ih =>
    cases ys with
    | nil => cases same
    | cons y ys =>
      obtain ⟨head,tail⟩ := List.cons.inj same
      rw [apart x List.mem_cons_self y List.mem_cons_self head,
        ih (fun a inA b inB => apart a (List.mem_cons_of_mem _ inA) b (List.mem_cons_of_mem _ inB)) tail]

theorem dotlessApart {a b : Byte} (first : a ≠ 95) (second : b ≠ 95) (same : dotless a = dotless b) : a = b := by
  unfold dotless at same
  split at same <;> split at same <;> simp_all

theorem flatApart {a b : Byte} (first : a ≠ 95) (second : b ≠ 95) (same : flat a = flat b) : a = b := by
  unfold flat at same
  split at same <;> split at same <;> simp_all

theorem keyQuiet (quiet : r.keyFlg &&& httpCacheKeyPara = 0) : keyAdded u r = [] := by
  rw [keyEmpty]
  unfold paraAdded
  split
  · rfl
  · dsimp only
    rw [if_neg fun both => both.1 quiet]

theorem keyShared (quiet : r.keyFlg &&& httpCacheKeyPara = 0) (slash : u.dropWhile (· ≠ 47) ≠ []) :
    ngxHttpSnoopingUrl2localKey (47 :: u) r =
      ngxHttpSnoopingUrl2localKey ((47 :: (urlHost u ++ 47 :: urlPath u)).takeWhile (· ≠ 63)) r := by
  have parts : (47 :: u).takeWhile (· ≠ 63) ++ (47 :: u).dropWhile (· ≠ 63) = 47 :: u := List.takeWhile_append_dropWhile
  have split : 47 :: u = (47 :: (urlHost u ++ 47 :: urlPath u)) ++ urlQuery u := by
    have whole := urlSplit slash
    rw [restSplit] at whole
    rw [List.cons_append,List.append_assoc,List.cons_append,← whole]
  have front : (47 :: u).takeWhile (· ≠ 63) = (47 :: (urlHost u ++ 47 :: urlPath u)).takeWhile (· ≠ 63) := by
    have none_ : (urlQuery u).takeWhile (fun b : Byte => decide (b ≠ 63)) = [] := by
      rcases queryOpened u with empty | marked
      · rw [empty]
        rfl
      · obtain ⟨rest,same⟩ := List.head?_eq_some_iff.mp marked
        rw [same]
        exact List.takeWhile_cons_of_neg (by simp)
    rw [split,List.takeWhile_append,none_,List.append_nil]
    split
    · rename_i all
      exact (List.Sublist.eq_of_length (List.takeWhile_prefix _).sublist all).symm
    · rfl
  rw [← front]
  calc ngxHttpSnoopingUrl2localKey (47 :: u) r
      = ngxHttpSnoopingUrl2localKey ((47 :: u).takeWhile (· ≠ 63) ++ (47 :: u).dropWhile (· ≠ 63)) r := by rw [parts]
    _ = ngxHttpSnoopingUrl2localKey ((47 :: u).takeWhile (· ≠ 63)) r :=
        keyQuery (untilClean 63 (47 :: u)) (markOpened (47 :: u)) quiet

/-- Two URLs share a file exactly where the name cannot tell them apart; where it needs no '_' to tell, different keys
have different files. -/
theorem filesApart (first : ngxHttpUrlRuleGet u = some r) (second : ngxHttpUrlRuleGet v = some s) :
    (ngxHttpUrl2localFile u r = ngxHttpUrl2localFile v s ↔ SharesFile u r v s) ∧
    (Unmixed u r → Unmixed v s → ngxHttpSnoopingUrl2localKey (47 :: u) r ≠ ngxHttpSnoopingUrl2localKey (47 :: v) s →
      ngxHttpUrl2localFile u r ≠ ngxHttpUrl2localFile v s) := by
  refine ⟨nameShared first second,fun plainU plainV keys same => keys ?_⟩
  obtain ⟨hosts,rests⟩ := (nameShared first second).mp same
  have clean {text : Bytes} (plain : 95 ∉ text) (b : Byte) (mem : b ∈ text) : b ≠ 95 := fun line => plain (line ▸ mem)
  have host : urlHost u = urlHost v := mapApart (fun a inA b inB =>
    dotlessApart (clean plainU.host a inA) (clean plainV.host b inB)) hosts
  have path : urlPath u = urlPath v := by
    rcases rests with ⟨restU,restV⟩ | ⟨_,_,files⟩
    · unfold urlPath
      rw [restU,restV]
    · rw [keyQuiet plainU.quiet,keyQuiet plainV.quiet,List.append_nil,List.append_nil] at files
      exact mapApart (fun a inA b inB => flatApart (clean plainU.path a inA) (clean plainV.path b inB)) files
  have slashU := (acceptedUrl first).2.1
  have slashV := (acceptedUrl second).2.1
  have rule : r = s := Option.some.inj (first.symm.trans ((ruleShared host path slashU slashV).trans second))
  rw [keyShared plainU.quiet slashU,keyShared plainV.quiet slashV,host,path,rule]

def flvRule : Rule := { cacheFlg := upstreamFile,keyFlg := httpCacheKeyFile,postFile := ascii ".flv" }
def mp4Rule : Rule := { cacheFlg := upstreamFile,keyFlg := httpCacheKeyFile,postFile := ascii ".mp4" }

theorem showApart : ngxHttpUrl2localFile (ascii "h/a/x.mp4") mp4Rule ≠ ngxHttpUrl2localFile (ascii "h/a/x.flv") flvRule :=
  (filesApart (show ngxHttpUrlRuleGet (ascii "h/a/x.mp4") = some mp4Rule by decide)
    (show ngxHttpUrlRuleGet (ascii "h/a/x.flv") = some flvRule by decide)).2
    ⟨by decide,by decide,by decide⟩ ⟨by decide,by decide,by decide⟩
    (by decide)

theorem slashShared : ngxHttpUrlRuleGet (ascii "h/a/x.mp4") = some mp4Rule ∧
    ngxHttpUrlRuleGet (ascii "h/a_x.mp4") = some mp4Rule ∧
    ngxHttpSnoopingUrl2localKey (47 :: ascii "h/a/x.mp4") mp4Rule = ascii "/x.mp4" ∧
    ngxHttpSnoopingUrl2localKey (47 :: ascii "h/a_x.mp4") mp4Rule = ascii "/a_x.mp4" ∧
    ngxHttpUrl2localFile (ascii "h/a/x.mp4") mp4Rule = ngxHttpUrl2localFile (ascii "h/a_x.mp4") mp4Rule := by
  decide

end sharing

end MipsElfExec.Snooping
