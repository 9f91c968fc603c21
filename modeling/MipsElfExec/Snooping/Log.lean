import Mathlib.Data.List.GetD
import MipsElfExec.Snooping.Table

/-! The log of the write task, http-cache.txt. A record is a sign, the URL and a line end;
the reader takes the file apart again at the line ends. -/
namespace MipsElfExec.Snooping
open CString

structure LogRecord where
  added : Bool
  url : Bytes
  ruled : (ngxHttpUrlRuleGet url).isSome = true
  fits : url.length ≤ httpSpUrlLenMax - 1

def logSign (added : Bool) : Bytes := ascii (if added then "@@@@+" else "@@@@-")

def logText (added : Bool) (url : Bytes) : Bytes := logSign added ++ url ++ crlf

def LogRecord.text (r : LogRecord) : Bytes := logText r.added r.url

structure LoadCall where
  url : Option Bytes
  action : C2spAction
  deriving DecidableEq, Repr

def LogRecord.call (r : LogRecord) : LoadCall := ⟨some r.url,if r.added then .add else .delete⟩

def urlFileBufLen : Nat := httpSpUrlLenMax + 6 + 2 + 1

def lineEnd (beyond : Byte) (buf : Bytes) : Nat → Nat → Nat × Bool
  | 0,i => (i,true)
  | n + 1,i =>
    if buf.getD i 0 = 13 then
      if buf.getD (i + 1) beyond = 10 then (i,i + 1 < buf.length)
      else (fun (k,inside) => (k,inside && decide (i + 1 < buf.length))) (lineEnd beyond buf n (i + 1))
    else lineEnd beyond buf n (i + 1)

def loadFrom (beyond : Byte) : Nat → Bytes → Bytes → List LoadCall × Bool
  | 0,_,_ => ([],true)
  | fuel + 1,buf,file =>
    let chunk := file.take urlFileBufLen
    let buf := chunk ++ buf.drop chunk.length
    if chunk.length ≤ 7 ∨ buf.take 4 ≠ ascii "@@@@" then ([],true)
    else
      let (i,inside) := lineEnd beyond buf (chunk.length - 4) 4
      if i = chunk.length then ([],inside)
      else
        let buf := buf.set i 0
        let call := ⟨if i < 5 then none else some ((buf.drop 5).take (i - 5)),if buf.getD 4 0 = 43 then .add else .delete⟩
        let rest := loadFrom beyond fuel buf (file.drop (i + 2))
        (call :: rest.1,inside && rest.2)

-- The buffer starts with what the stack held; every turn moves on by a line end at least.
def ngxHttpSnoopingLoadUrl (beyond : Byte) (stale : Fin urlFileBufLen → Byte) (file : Bytes) : List LoadCall × Bool :=
  loadFrom beyond (file.length + 1) (List.ofFn stale) file

theorem lineEndBound (beyond : Byte) (buf : Bytes) (n i : Nat) : i ≤ (lineEnd beyond buf n i).1 := by
  induction n generalizing i with
  | zero => exact Nat.le_refl i
  | succ n ih =>
    have later := Nat.le_of_succ_le (ih (i + 1))
    unfold lineEnd
    split
    · split
      · exact Nat.le_refl i
      · exact later
    · exact later

theorem loadEnough (beyond : Byte) {fuel fuel' : Nat} {file : Bytes} (buf : Bytes) (enough : file.length < fuel)
    (enough' : file.length < fuel') : loadFrom beyond fuel buf file = loadFrom beyond fuel' buf file := by
  induction fuel generalizing fuel' buf file with
  | zero => cases enough
  | succ fuel ih =>
    cases fuel' with
    | zero => cases enough'
    | succ fuel' =>
      unfold loadFrom
      dsimp only
      split
      · rfl
      · rename_i more
        have long : 7 < file.length := by
          have short := (not_or.mp more).1
          rw [List.length_take] at short
          omega
        split
        · rfl
        · rw [ih]
          · rw [List.length_drop]
            omega
          · rw [List.length_drop]
            omega

theorem lineEndSearch (beyond : Byte) {buf : Bytes} {n i k : Nat} (found : search crlf (buf.drop i) = some k)
    (near : k < n) : lineEnd beyond buf n i = (i + k,true) := by
  induction n generalizing i k with
  | zero => cases near
  | succ n ih =>
    have here : i < buf.length := by
      have bound := searchBound found
      rw [List.length_drop] at bound
      have two : crlf.length = 2 := rfl
      omega
    rw [List.drop_eq_getElem_cons here,search] at found
    unfold lineEnd
    rw [List.getD_eq_getElem _ _ here]
    split at found
    · rename_i starts
      cases Option.some.inj found
      obtain ⟨rest,same⟩ := List.isPrefixOf_iff_prefix.mp starts
      injection same with first same
      replace same : 10 :: rest = buf.drop (i + 1) := same
      have next : i + 1 < buf.length := by
        have size := congrArg List.length same
        rw [List.length_drop,List.length_cons] at size
        omega
      rw [List.drop_eq_getElem_cons next] at same
      injection same with second same
      rw [if_pos first.symm,List.getD_eq_getElem _ _ next,if_pos second.symm,decide_eq_true next]
      rfl
    · rename_i other
      obtain ⟨m,later,rfl⟩ := Option.map_eq_some_iff.mp found
      have next : i + 1 < buf.length := by
        have bound := searchBound later
        rw [List.length_drop] at bound
        have two : crlf.length = 2 := rfl
        omega
      have rest := ih later (Nat.lt_of_succ_lt_succ near)
      rw [rest]
      split
      · rename_i first
        have second : buf[i + 1] ≠ 10 := by
          intro second
          refine other (List.isPrefixOf_iff_prefix.mpr ⟨buf.drop (i + 2),?_⟩)
          rw [List.drop_eq_getElem_cons next,first,second]
          rfl
        rw [List.getD_eq_getElem _ _ next,if_neg second,decide_eq_true next]
        simp only [Bool.and_true,Nat.add_assoc,Nat.add_comm 1 m]
      · rw [Nat.add_assoc,Nat.add_comm 1 m]

theorem searchClean {u : Bytes} (clean : search crlf u = none) (t : Bytes) :
    search crlf (u ++ (crlf ++ t)) = some u.length := by
  induction u with
  | nil => rfl
  | cons b u ih =>
    rw [search] at clean
    split at clean <;> try contradiction
    rename_i other
    have rest := ih (Option.map_eq_none_iff.mp clean)
    have still : ¬crlf.isPrefixOf (b :: (u ++ (crlf ++ t))) = true := by
      intro starts
      obtain ⟨more,same⟩ := List.isPrefixOf_iff_prefix.mp starts
      injection same with first same
      cases u with
      | nil => cases same
      | cons c u =>
        injection same with second same
        exact other (List.isPrefixOf_iff_prefix.mpr ⟨u,by rw [← first,← second]; rfl⟩)
    rw [List.cons_append,search,if_neg still,rest]
    rfl

def signByte (added : Bool) : Byte := if added then 43 else 45

theorem logTextSplit (added : Bool) (url : Bytes) :
    logText added url = [64,64,64,64] ++ (signByte added :: (url ++ crlf)) := by
  cases added <;> rfl

def urlEnd (url : Bytes) : Nat := (search crlf url).getD url.length

theorem urlEndFound (url post : Bytes) : search crlf (url ++ (crlf ++ post)) = some (urlEnd url) := by
  unfold urlEnd
  cases found : search crlf url with
  | none => exact searchClean found post
  | some k => exact searchExtends found _

theorem urlEndBound (url : Bytes) : urlEnd url ≤ url.length := by
  unfold urlEnd
  cases found : search crlf url with
  | none => exact Nat.le_refl _
  | some k =>
    have bound := searchBound found
    exact Nat.le_of_add_right_le bound

theorem urlSome (r : LogRecord) : r.url ≠ [] := by
  intro none_
  have ruled := r.ruled
  rw [none_] at ruled
  cases ruled

theorem signLine (beyond : Byte) (added : Bool) (url post : Bytes) {n : Nat} (long : url.length + 1 < n) :
    lineEnd beyond (logText added url ++ post) n 4 = (urlEnd url + 5,true) := by
  have found : search crlf ((logText added url ++ post).drop 4) = some (urlEnd url + 1) := by
    rw [logTextSplit]
    change search crlf (signByte added :: (url ++ crlf ++ post)) = some (urlEnd url + 1)
    rw [List.append_assoc,search,urlEndFound]
    cases added <;> rfl
  have near : urlEnd url + 1 < n := Nat.lt_of_le_of_lt (Nat.succ_le_succ (urlEndBound url)) long
  rw [lineEndSearch beyond found near,Nat.add_comm 4]

theorem loadRecord (beyond : Byte) (fuel : Nat) (buf : Bytes) (r : LogRecord) (more : Bytes) :
    ∃ buf',loadFrom beyond (fuel + 1) buf (r.text ++ more) =
      (⟨some (r.url.take (urlEnd r.url)),r.call.action⟩ ::
          (loadFrom beyond fuel buf' ((r.text ++ more).drop (urlEnd r.url + 7))).1,
        (loadFrom beyond fuel buf' ((r.text ++ more).drop (urlEnd r.url + 7))).2) := by
  obtain ⟨added,url,ruled,fits⟩ := r
  have some_ : 0 < url.length := List.length_pos_iff.mpr (urlSome ⟨added,url,ruled,fits⟩)
  have size : (logText added url).length = url.length + 7 := by
    rw [logTextSplit]
    simp [crlf]
  have room : (logText added url).length ≤ urlFileBufLen := by
    rw [size]
    unfold urlFileBufLen httpSpUrlLenMax at *
    omega
  have chunk : (logText added url ++ more).take urlFileBufLen =
      logText added url ++ more.take (urlFileBufLen - (logText added url).length) := by
    rw [List.take_append,List.take_of_length_le room]
  have bound := urlEndBound url
  unfold LogRecord.text
  dsimp only
  rw [loadFrom]
  dsimp only
  rw [chunk,List.append_assoc]
  generalize more.take (urlFileBufLen - (logText added url).length) = window
  have long : (logText added url ++ window).length = url.length + 7 + window.length := by rw [List.length_append,size]
  generalize buf.drop (logText added url ++ window).length = stale
  have at_ : (logText added url ++ (window ++ stale)).take 4 = ascii "@@@@" := by
    rw [logTextSplit]
    rfl
  have line := signLine beyond added url (window ++ stale) (n := (logText added url ++ window).length - 4) (by omega)
  rw [if_neg (not_or.mpr ⟨by omega,not_not.mpr at_⟩),line]
  dsimp only
  rw [if_neg (by omega)]
  refine ⟨_,Prod.ext (congrArg₂ List.cons ?_ rfl) (Bool.true_and _)⟩
  rw [if_neg (by omega),logTextSplit,Nat.add_sub_cancel]
  change LoadCall.mk (some (((url ++ crlf ++ (window ++ stale)).set (urlEnd url) 0).take (urlEnd url)))
    (if signByte added = 43 then .add else .delete) = _
  rw [List.take_set_of_le (Nat.le_refl _),List.append_assoc,List.take_append_of_le_length bound]
  cases added <;> rfl

theorem entriesRuled (name server res : Bytes) (action : C2spAction) :
    (ngxHttpSpUrlHandle name action ≠ .done none → (ngxHttpUrlRuleGet name).isSome ∧ name.length ≤ httpSpUrlLenMax - 1) ∧
    (ngxHttpYoukuUrlAdd name ≠ .done none → (ngxHttpUrlRuleGet name).isSome ∧ name.length ≤ httpSpUrlLenMax - 1) ∧
    (recordTarget server res ≠ none →
      (ngxHttpUrlRuleGet (server ++ res)).isSome ∧ (server ++ res).length ≤ httpSpUrlLenMax - 1) := by
  refine ⟨fun some_ => ?_,fun some_ => ?_,fun some_ => ?_⟩
  · unfold ngxHttpSpUrlHandle at some_
    split at some_ <;> try contradiction
    rename_i short
    split at some_ <;> try contradiction
    rename_i rule found
    rw [found]
    exact ⟨rfl,Nat.le_of_not_lt short⟩
  · unfold ngxHttpYoukuUrlAdd at some_
    split at some_ <;> try contradiction
    rename_i short
    split at some_ <;> try contradiction
    rename_i rule found
    rw [found]
    exact ⟨rfl,by omega⟩
  · unfold recordTarget at some_
    split at some_ <;> try contradiction
    rename_i short
    split at some_ <;> try contradiction
    rename_i rule found
    rw [found,List.length_append]
    exact ⟨rfl,by omega⟩

theorem loadExact (beyond : Byte) (records : List LogRecord) {fuel : Nat} (enough : records.length < fuel) (buf : Bytes) :
    loadFrom beyond fuel buf (records.flatMap LogRecord.text) = (records.map LogRecord.call,true) ↔
      ∀ r ∈ records,search crlf r.url = none := by
  induction records generalizing fuel buf with
  | nil =>
    cases fuel with
    | zero => cases enough
    | succ fuel => exact iff_of_true rfl nofun
  | cons r records ih =>
    cases fuel with
    | zero => cases enough
    | succ fuel =>
      obtain ⟨buf',loaded⟩ := loadRecord beyond fuel buf r (records.flatMap LogRecord.text)
      rw [List.flatMap_cons,loaded,List.forall_mem_cons]
      cases inside : search crlf r.url with
      | some k =>
        refine iff_of_false (fun same => ?_) fun all => Option.some_ne_none k all.1
        have first := congrArg (fun loaded => loaded.1.head?.bind LoadCall.url) same
        have short : (r.url.take (urlEnd r.url)).length = r.url.length := congrArg List.length (Option.some.inj first)
        have bound := searchBound inside
        rw [List.length_take,urlEnd,inside,Option.getD_some] at short
        have two : crlf.length = 2 := rfl
        omega
      | none =>
        have whole : urlEnd r.url = r.url.length := by rw [urlEnd,inside,Option.getD_none]
        have size : r.text.length = r.url.length + 7 := by
          rw [LogRecord.text,logTextSplit]
          simp [crlf]
        rw [whole,← size,List.drop_left,List.take_of_length_le (Nat.le_refl _)]
        have rest := ih (Nat.lt_of_succ_lt_succ enough) buf'
        rw [← rest,Prod.ext_iff,Prod.ext_iff,List.map_cons]
        refine ⟨fun same => ⟨rfl,(List.cons.inj same.1).2,same.2⟩,fun ⟨_,calls,all⟩ => ⟨?_,all⟩⟩
        exact congrArg (List.cons r.call) calls

/-- Reading the log back gives the calls that were logged, without a byte from outside the buffer,
exactly when no URL of it has a line end inside. -/
theorem logReplayExactly (beyond : Byte) (stale : Fin urlFileBufLen → Byte) (records : List LogRecord) :
    ngxHttpSnoopingLoadUrl beyond stale (records.flatMap LogRecord.text) = (records.map LogRecord.call,true) ↔
      ∀ r ∈ records,search crlf r.url = none := by
  refine loadExact beyond records ?_ _
  have few (rs : List LogRecord) : rs.length ≤ (rs.flatMap LogRecord.text).length := by
    induction rs with
    | nil => exact Nat.le_refl 0
    | cons r rs ih =>
      rw [List.flatMap_cons,List.length_append,LogRecord.text,logTextSplit,List.length_cons]
      simp only [List.length_append,List.length_cons]
      omega
  exact Nat.lt_succ_of_le (few records)

def splitUrl : LogRecord := ⟨true,ascii "a/b" ++ crlf ++ ascii ".mp4",by decide +kernel,by decide +kernel⟩

theorem splitUrlReplay :
    ((ngxHttpSpUrlHandle splitUrl.url .add).exec (ngxHttpSnoopingInit 0)).1 = some 32767 ∧
    ngxHttpSnoopingLoadUrl 0 (fun _ => 0) ([splitUrl].flatMap LogRecord.text) ≠ ([splitUrl].map LogRecord.call,true) := by
  decide

end MipsElfExec.Snooping
