import Mathlib.Data.List.TakeWhile
import MipsElfExec.Snooping.Page

/-! What the code reads of a complete header, and when the bytes behind it in the buffer
make no difference. -/
namespace MipsElfExec.Snooping
open CString

section ended
variable {a b s t stop : Bytes}

def Ended (stop s : Bytes) : Prop := (0 : Byte) ∉ s ∧ stop <:+ s

theorem endedBreak (ended : Ended stop s) (last : stop.getLast? = some 10) : s.getLast? = some 10 := by
  obtain ⟨_,front,rfl⟩ := ended
  rw [List.getLast?_append,last]
  rfl

theorem endedRest (ended : Ended stop (a ++ b)) (clean : (32 : Byte) ∉ stop) (blank : a.getLast? = some 32) :
    Ended stop b := by
  refine ⟨fun zero => ended.1 (List.mem_append_right a zero),?_⟩
  rcases List.suffix_or_suffix_of_suffix ended.2 (List.suffix_append a b) with inside | outside
  · exact inside
  · obtain ⟨front,rfl⟩ := outside
    obtain ⟨before,whole⟩ := ended.2
    rw [← List.append_assoc] at whole
    have same := List.append_cancel_right whole
    cases front using List.reverseRecOn with
    | nil => exact List.suffix_rfl
    | append_singleton front c =>
      rw [← same] at blank
      simp only [← List.append_assoc,List.getLast?_append,List.getLast?_singleton,Option.some_or] at blank
      cases Option.some.inj blank
      exact (clean (by simp)).elim

theorem searchInfix {pat : Bytes} (inside : pat <:+: s) : (search pat s).isSome = true := by
  obtain ⟨front,back,rfl⟩ := inside
  induction front with
  | nil =>
    cases pat with
    | nil => cases back <;> simp [search]
    | cons c pat => simp [search]
  | cons b front ih =>
    simp only [List.cons_append,search]
    split
    · rfl
    · simpa using ih

theorem strstrNoNul {pat : Bytes} (clean : (0 : Byte) ∉ s) : strstr s pat = search pat s := by
  unfold strstr
  rw [cstrOfNoNul clean]

theorem endedLine (ended : Ended httpEnd s) :
    ∃ e,strstr s crlf = some e ∧ Ended crlf (s.drop (e + crlf.length)) := by
  obtain ⟨clean,front,whole⟩ := ended
  obtain ⟨e,found⟩ := Option.isSome_iff_exists.mp (@searchInfix (front ++ crlf) crlf ⟨front,[],by simp⟩)
  have more : s = front ++ crlf ++ crlf := by rw [← whole,httpEnd,List.append_assoc]
  refine ⟨e,?_,fun zero => clean (List.mem_of_mem_drop zero),(front ++ crlf).drop (e + crlf.length),?_⟩
  · rw [strstrNoNul clean,more]
    exact searchExtends found crlf
  · rw [more,List.drop_append_of_le_length (searchBound found)]

end ended

section request
variable {header behind rest stop : Bytes}

def requestUrl (text : Bytes) : Option Bytes :=
  let (method,url) := requestMethod text
  if method = .none then none else (strchr url 32).map url.take

def requestServer (text : Bytes) : Option Bytes := (requestHead text).map RequestHead.serverName

def requestEnd (text : Bytes) : Int × SpState :=
  match requestHead text with
  | none => (0,.requestHeaderError)
  | some head =>
    if head.method = .get then (0,.done)
    else match requestLength head.rest with
    | .missing => (0,.done)
    | .bad => (requestRefused head.rest 0,.requestHeaderError)
    | .value n => (n,.dataLine)

def requestOwn (header behind : Bytes) : Bool :=
  let (method,url) := requestMethod header
  method == .none || match strchr url 32 with
  | none => (strchr behind 32).isNone
  | some n => httpSpUrlLenMax ≤ n || match requestHead header with
    | none => (strstr behind httpHost).isNone
    | some head =>
      head.method == .get || requestLength head.rest != .missing || (strstr behind httpContentLen).isNone

theorem endedEnds (ends : Ends header) : Ended httpEnd header := by
  refine ⟨headerNoNul ends,header.take (header.length - httpEnd.length),?_⟩
  have found := searchFound (show search httpEnd (cstr header) = _ from ends)
  rw [cstrOfNoNul (headerNoNul ends),Nat.sub_add_cancel (headerLong ends),List.drop_length,List.append_nil] at found
  exact found.symm

theorem endedFound {s pat : Bytes} {n : Nat} (ended : Ended stop s) (clean : (32 : Byte) ∉ stop)
    (found : strstr s pat = some n) (blank : pat.getLast? = some 32) : Ended stop (s.drop (n + pat.length)) := by
  rw [strstrNoNul ended.1] at found
  have same := searchFound found
  refine endedRest (a := s.take n ++ pat) (same ▸ ended) clean ?_
  rw [List.getLast?_append,blank]
  rfl

theorem endedBlank {s : Bytes} {n : Nat} (ended : Ended stop s) (clean : (32 : Byte) ∉ stop)
    (found : strchr s 32 = some n) : Ended stop (s.drop (n + 1)) := by
  unfold strchr at found
  rw [cstrOfNoNul ended.1] at found
  obtain ⟨small,here,_⟩ := List.findIdx?_eq_some_iff_getElem.mp found
  refine endedRest (a := s.take (n + 1)) (by rwa [List.take_append_drop]) clean ?_
  rw [List.getLast?_take,if_neg (Nat.succ_ne_zero n),Nat.add_sub_cancel,List.getElem?_eq_getElem small]
  simpa using here

theorem digitsBeyond {tail : Bytes} (inside : (13 : Byte) ∈ tail) (more : Bytes) :
    (13 ∈ (tail ++ more).take 11 ↔ 13 ∈ tail.take 11) ∧
    (13 ∈ tail.take 11 → ((tail ++ more).take 11).takeWhile (· ≠ 13) = (tail.take 11).takeWhile (· ≠ 13)) := by
  by_cases near : (13 : Byte) ∈ tail.take 11
  · have stops : ((tail.take 11).takeWhile (· ≠ 13)).length ≠ (tail.take 11).length := by
      intro whole
      have all := (List.takeWhile_prefix (fun b : Byte => decide (b ≠ 13)) (l := tail.take 11)).eq_of_length whole
      rw [← all] at near
      exact untilClean 13 _ near
    rw [List.take_append,List.takeWhile_append,if_neg stops]
    exact ⟨iff_of_true (List.mem_append_left _ near) near,fun _ => rfl⟩
  · have long : 11 ≤ tail.length := by
      rcases Nat.lt_or_ge tail.length 11 with short | long
      · exact (near (by rwa [List.take_of_length_le short.le])).elim
      · exact long
    rw [List.take_append_of_le_length long]
    exact ⟨Iff.rfl,fun _ => rfl⟩

theorem lengthBeyond (ended : Ended crlf rest)
    (own : requestLength rest ≠ .missing ∨ strstr behind httpContentLen = none) :
    requestLength (rest ++ behind) = requestLength rest ∧
    ∀ len,requestRefused (rest ++ behind) len = requestRefused rest len := by
  have last := endedBreak ended rfl
  cases found : strstr rest httpContentLen with
  | none =>
    have missing : requestLength rest = .missing := by
      unfold requestLength
      rw [found]
    have none_ := own.resolve_left fun more => more missing
    unfold requestLength requestRefused
    rw [strstrBeyond ended.1 last (by decide) found behind,none_,found]
    exact ⟨rfl,fun _ => rfl⟩
  | some n =>
    have tail := endedFound ended (by decide) found rfl
    have bound : n + httpContentLen.length ≤ rest.length := strstrBound found
    have inside : (13 : Byte) ∈ rest.drop (n + httpContentLen.length) := tail.2.subset (by decide)
    unfold requestLength requestRefused
    rw [strstrExtends found behind,found,cstrAppend,if_neg ended.1,cstrOfNoNul ended.1]
    dsimp only
    rw [List.drop_append_of_le_length bound]
    obtain ⟨near,same⟩ := digitsBeyond inside (cstr behind)
    by_cases here : (13 : Byte) ∈ (rest.drop (n + httpContentLen.length)).take 11
    · rw [if_pos (near.mpr here),if_pos here,same here]
      exact ⟨rfl,fun _ => by rw [if_pos (near.mpr here),if_pos here]⟩
    · have far := mt near.mp here
      rw [if_neg far,if_neg here]
      exact ⟨rfl,fun _ => by rw [if_neg far,if_neg here]⟩

theorem wordBeyond {pat : Bytes} (ended : Ended httpEnd header) (clean : (10 : Byte) ∉ pat)
    (blank : pat.getLast? = some 32) : pat.isPrefixOf (header ++ behind) = pat.isPrefixOf header ∧
    (pat.isPrefixOf header = true → (header ++ behind).drop pat.length = header.drop pat.length ++ behind ∧
      Ended httpEnd (header.drop pat.length)) := by
  refine ⟨prefixBeyond (endedBreak ended rfl) clean behind,fun here => ?_⟩
  obtain ⟨rest,rfl⟩ := List.isPrefixOf_iff_prefix.mp here
  rw [List.append_assoc,List.drop_left,List.drop_left]
  exact ⟨rfl,endedRest ended (by decide) blank⟩

theorem methodBeyond (ended : Ended httpEnd header) (behind : Bytes) :
    requestMethod (header ++ behind) = ((requestMethod header).1,(requestMethod header).2 ++ behind) ∧
    ((requestMethod header).1 ≠ .none → Ended httpEnd (requestMethod header).2) := by
  obtain ⟨get,gets⟩ := @wordBeyond _ behind (ascii "GET ") ended (by decide) (by decide)
  obtain ⟨post,posts⟩ := @wordBeyond _ behind (ascii "POST ") ended (by decide) (by decide)
  obtain ⟨put,puts⟩ := @wordBeyond _ behind (ascii "PUT ") ended (by decide) (by decide)
  obtain ⟨head,heads⟩ := @wordBeyond _ behind (ascii "HEAD ") ended (by decide) (by decide)
  unfold requestMethod
  rw [get,post,put,head]
  split
  · rename_i here
    exact ⟨Prod.ext rfl (gets here).1,fun _ => (gets here).2⟩
  split
  · rename_i here
    exact ⟨Prod.ext rfl (posts here).1,fun _ => (posts here).2⟩
  split
  · rename_i here
    exact ⟨Prod.ext rfl (puts here).1,fun _ => (puts here).2⟩
  split
  · rename_i here
    exact ⟨Prod.ext rfl (heads here).1,fun _ => (heads here).2⟩
  · exact ⟨rfl,fun some_ => (some_ rfl).elim⟩

theorem blankBeyond {s : Bytes} {n : Nat} (clean : (0 : Byte) ∉ s) (found : strchr s 32 = some n) (behind : Bytes) :
    strchr (s ++ behind) 32 = some n ∧ n < s.length := by
  constructor
  · rw [strchrAppend clean,found]
    rfl
  · unfold strchr at found
    rw [cstrOfNoNul clean] at found
    exact (List.findIdx?_eq_some_iff_getElem.mp found).1

theorem headBeyond (ended : Ended httpEnd header) (behind : Bytes) {head : RequestHead}
    (known : requestHead header = some head) :
    requestHead (header ++ behind) = some { head with rest := head.rest ++ behind } ∧ Ended crlf head.rest := by
  obtain ⟨method,rest⟩ := methodBeyond ended behind
  unfold requestHead at known ⊢
  rw [method]
  dsimp only at known ⊢
  split at known <;> try contradiction
  rename_i other
  have url := rest other
  rw [if_neg other]
  split at known <;> try contradiction
  rename_i n blank
  obtain ⟨blank',small⟩ := blankBeyond url.1 blank behind
  rw [blank']
  dsimp only
  split at known <;> try contradiction
  rename_i short
  rw [if_neg short,List.drop_append_of_le_length small]
  have fields := endedBlank url (by decide) blank
  split at known <;> try contradiction
  rename_i h host
  rw [strstrExtends host behind]
  dsimp only
  rw [List.drop_append_of_le_length (strstrBound host)]
  obtain ⟨e,line,tail⟩ := endedLine (endedFound fields (by decide) host rfl)
  rw [line] at known
  rw [strstrExtends line behind]
  cases Option.some.inj known
  dsimp only
  rw [List.take_append_of_le_length small.le,List.take_append_of_le_length (Nat.le_of_add_right_le (strstrBound line)),
    List.drop_append_of_le_length (strstrBound line)]
  exact ⟨rfl,tail⟩

theorem headMissing (ended : Ended httpEnd header) (behind : Bytes) (missing : requestHead header = none)
    (own : requestOwn header behind = true) : requestHead (header ++ behind) = none := by
  obtain ⟨method,rest⟩ := methodBeyond ended behind
  unfold requestOwn at own
  rw [missing] at own
  unfold requestHead at missing ⊢
  rw [method]
  dsimp only at own missing ⊢
  split at missing
  · rename_i none_
    rw [if_pos none_]
  rename_i other
  have url := rest other
  rw [if_neg other]
  rw [beq_eq_false_iff_ne.mpr other,Bool.false_or] at own
  cases blank : strchr (requestMethod header).2 32 with
  | none =>
    rw [blank] at own
    rw [strchrAppend url.1,blank,Option.isNone_iff_eq_none.mp own]
    rfl
  | some n =>
    obtain ⟨blank',small⟩ := blankBeyond url.1 blank behind
    rw [blank] at own missing
    rw [blank']
    dsimp only at own missing ⊢
    split at missing
    · rename_i long
      rw [if_pos long]
    rename_i short
    rw [decide_eq_false short,Bool.false_or] at own
    have fields := endedBlank url (by decide) blank
    rw [if_neg short,List.drop_append_of_le_length small]
    split at missing
    · rename_i host
      rw [strstrBeyond fields.1 (endedBreak fields rfl) (by decide) host behind,Option.isNone_iff_eq_none.mp own]
      rfl
    · rename_i h host
      obtain ⟨e,line,_⟩ := endedLine (endedFound fields (by decide) host rfl)
      rw [line] at missing
      cases missing

theorem urlBeyond (ended : Ended httpEnd header) (behind : Bytes) (own : requestOwn header behind = true) :
    requestUrl (header ++ behind) = requestUrl header := by
  obtain ⟨method,rest⟩ := methodBeyond ended behind
  unfold requestUrl
  rw [method]
  dsimp only
  split
  · rfl
  rename_i other
  have url := rest other
  cases blank : strchr (requestMethod header).2 32 with
  | none =>
    unfold requestOwn at own
    dsimp only at own
    rw [beq_eq_false_iff_ne.mpr other,Bool.false_or,blank] at own
    rw [strchrAppend url.1,blank,Option.isNone_iff_eq_none.mp own]
    rfl
  | some n =>
    obtain ⟨blank',small⟩ := blankBeyond url.1 blank behind
    rw [blank',Option.map_some,Option.map_some,List.take_append_of_le_length small.le]

theorem ownLength {head : RequestHead} (known : requestHead header = some head) (other : head.method ≠ .get)
    (own : requestOwn header behind = true) :
    requestLength head.rest ≠ .missing ∨ strstr behind httpContentLen = none := by
  unfold requestOwn at own
  rw [known] at own
  unfold requestHead at known
  dsimp only at own known
  split at known <;> try contradiction
  rename_i some_
  split at known <;> try contradiction
  rename_i n blank
  split at known <;> try contradiction
  rename_i short
  rw [beq_eq_false_iff_ne.mpr some_,blank] at own
  dsimp only at own
  rw [decide_eq_false short,beq_eq_false_iff_ne.mpr other] at own
  simpa using own

theorem endBeyond (ended : Ended httpEnd header) (behind : Bytes) (own : requestOwn header behind = true) :
    requestServer (header ++ behind) = requestServer header ∧ requestEnd (header ++ behind) = requestEnd header := by
  unfold requestServer requestEnd
  cases known : requestHead header with
  | none =>
    rw [headMissing ended behind known own]
    exact ⟨rfl,rfl⟩
  | some head =>
    obtain ⟨same,rest⟩ := headBeyond ended behind known
    rw [same]
    refine ⟨rfl,?_⟩
    dsimp only
    split
    · rfl
    · rename_i other
      obtain ⟨length,refused⟩ := lengthBeyond rest (ownLength known other own)
      rw [length,refused]

theorem ownCstr (header behind : Bytes) : requestOwn header (cstr behind) = requestOwn header behind := by
  unfold requestOwn
  simp only [strstrCstr,strchrCstr]

end request

section response
variable {header behind : Bytes}

def responseStatus (text : Bytes) : Option Bytes :=
  (strchr text 32).bind fun n => (strchr (text.drop (n + 1)) 32).map (text.drop (n + 1)).take

def responseType (text : Bytes) : Option Bytes :=
  if responseStatusOk text then responseContentType text else none

def responseEnd (con : Con) (text : Bytes) : EncodingType × Nat :=
  if responseStatusOk text = false then (con.encodingType,con.dataLen)
  else match responseContentType text with
  | none => (con.encodingType,con.dataLen)
  | some _ =>
    if (strstr text httpTransEncodingTypeChunked).isSome then (responseEncoding text,con.dataLen)
    else match responseContentLen text with
    | .missing => (con.encodingType,con.dataLen)
    | .bad => (con.encodingType,0)
    | .value n => (responseEncoding text,n)

def sole (pat header behind : Bytes) : Bool := (strstr header pat).isSome || (strstr behind pat).isNone

def acceptOwn (header behind : Bytes) : Bool :=
  if (strstr header httpTransEncodingTypeChunked).isSome then sole httpContentEncodingType header behind
  else (strstr behind httpTransEncodingTypeChunked).isNone && match responseContentLen header with
  | .missing => sole httpContentLen header behind
  | .bad => true
  | .value _ => sole httpContentEncodingType header behind

def responseOwn (header behind : Bytes) : Bool :=
  match responseStatus header with
  | none => (strchr behind 32).isNone
  | some _ => !responseStatusOk header || match responseContentType header with
    | none => (strstr behind httpContentType).isNone
    | some _ => acceptOwn header behind

theorem statusBeyond (ended : Ended httpEnd header) (behind : Bytes)
    (own : (responseStatus header).isSome = true ∨ strchr behind 32 = none) :
    responseStatus (header ++ behind) = responseStatus header ∧
    responseStatusOk (header ++ behind) = responseStatusOk header := by
  unfold responseStatus responseStatusOk at *
  cases first : strchr header 32 with
  | none =>
    rw [first] at own
    rw [strchrAppend ended.1,first,own.resolve_left Bool.false_ne_true]
    exact ⟨rfl,rfl⟩
  | some n =>
    obtain ⟨first',small⟩ := blankBeyond ended.1 first behind
    have tail := endedBlank ended (by decide) first
    rw [first'] at *
    rw [first] at own
    dsimp only [Option.bind_some] at own ⊢
    rw [List.drop_append_of_le_length small,prefixBeyond (endedBreak tail rfl) (by decide)]
    cases second : strchr (header.drop (n + 1)) 32 with
    | none =>
      rw [second] at own
      rw [strchrAppend tail.1,second,own.resolve_left Bool.false_ne_true]
      exact ⟨rfl,rfl⟩
    | some m =>
      obtain ⟨second',short⟩ := blankBeyond tail.1 second behind
      rw [second',Option.map_some,Option.map_some,List.take_append_of_le_length short.le]
      exact ⟨rfl,rfl⟩

theorem strstrSame {pat : Bytes} (ended : Ended httpEnd header) (clean : (10 : Byte) ∉ pat.dropLast) {behind : Bytes}
    (own : sole pat header behind = true) : strstr (header ++ behind) pat = strstr header pat := by
  cases found : strstr header pat with
  | none =>
    unfold sole at own
    rw [found,Option.isSome_none,Bool.false_or,Option.isNone_iff_eq_none] at own
    rw [strstrBeyond ended.1 (endedBreak ended rfl) clean found,own]
    rfl
  | some n => exact strstrExtends found behind

theorem typeBeyond (ended : Ended httpEnd header) (behind : Bytes)
    (own : sole httpContentType header behind = true) :
    responseContentType (header ++ behind) = responseContentType header := by
  unfold responseContentType
  rw [strstrSame ended (by decide) own]
  cases found : strstr header httpContentType with
  | none => rfl
  | some n =>
    obtain ⟨e,line,_⟩ := endedLine (endedFound ended (by decide) found rfl)
    dsimp only
    rw [List.drop_append_of_le_length (strstrBound found),strstrExtends line behind,line,Option.map_some,Option.map_some,
      List.take_append_of_le_length (Nat.le_of_add_right_le (strstrBound line))]

theorem contentLenBeyond (ended : Ended httpEnd header) (behind : Bytes)
    (own : sole httpContentLen header behind = true) :
    responseContentLen (header ++ behind) = responseContentLen header := by
  unfold responseContentLen
  rw [strstrSame ended (by decide) own]
  cases found : strstr header httpContentLen with
  | none => rfl
  | some n =>
    obtain ⟨e,line,_⟩ := endedLine (endedFound ended (by decide) found rfl)
    dsimp only
    rw [List.drop_append_of_le_length (strstrBound found),strstrExtends line behind,line]
    dsimp only
    rw [List.take_append_of_le_length (Nat.le_of_add_right_le (strstrBound line))]

theorem lenSole (found : responseContentLen header ≠ .missing) : sole httpContentLen header behind = true := by
  refine Bool.or_eq_true_iff.mpr (Or.inl (Option.isSome_iff_ne_none.mpr fun none_ => found ?_))
  unfold responseContentLen
  rw [none_]

theorem encodingBeyond (ended : Ended httpEnd header) (behind : Bytes)
    (own : sole httpContentEncodingType header behind = true) :
    responseEncoding (header ++ behind) = responseEncoding header := by
  unfold responseEncoding
  rw [strstrSame ended (by decide) own]
  cases found : strstr header httpContentEncodingType with
  | none => rfl
  | some n =>
    have tail := endedFound ended (by decide) found rfl
    dsimp only
    rw [List.drop_append_of_le_length (strstrBound found),prefixBeyond (endedBreak tail rfl) (by decide)]

theorem statusOkNone (none_ : responseStatus header = none) : responseStatusOk header = false := by
  unfold responseStatus at none_
  unfold responseStatusOk
  cases first : strchr header 32 with
  | none => rfl
  | some n =>
    rw [first] at none_
    dsimp only at none_ ⊢
    rw [Option.map_eq_none_iff.mp none_]
    rfl

theorem acceptBeyond (ended : Ended httpEnd header) (behind : Bytes) (con : Con) {type : Bytes}
    (ok : responseStatusOk header = true) (known : responseContentType header = some type)
    (status : responseStatusOk (header ++ behind) = true)
    (same : responseContentType (header ++ behind) = some type)
    (own : acceptOwn header behind = true) : responseEnd con (header ++ behind) = responseEnd con header := by
  unfold acceptOwn at own
  unfold responseEnd
  rw [ok,status,same,known]
  dsimp only
  cases chunked : (strstr header httpTransEncodingTypeChunked).isSome with
  | true =>
    rw [chunked,if_pos rfl] at own
    have sole_ : sole httpTransEncodingTypeChunked header behind = true := Bool.or_eq_true_iff.mpr (Or.inl chunked)
    rw [strstrSame ended (by decide) sole_,chunked,encodingBeyond ended behind own]
    rfl
  | false =>
    rw [chunked,if_neg Bool.false_ne_true,Bool.and_eq_true] at own
    obtain ⟨absent,own⟩ := own
    have sole_ : sole httpTransEncodingTypeChunked header behind = true := Bool.or_eq_true_iff.mpr (Or.inr absent)
    rw [strstrSame ended (by decide) sole_,chunked]
    cases length : responseContentLen header with
    | missing =>
      rw [length] at own
      rw [contentLenBeyond ended behind own,length]
      rfl
    | bad =>
      rw [contentLenBeyond ended behind (lenSole (by rw [length]; exact LengthField.noConfusion)),length]
      rfl
    | value n =>
      rw [length] at own
      rw [contentLenBeyond ended behind (lenSole (by rw [length]; exact LengthField.noConfusion)),length,
        encodingBeyond ended behind own]

theorem responseBeyond (ended : Ended httpEnd header) (behind : Bytes) (own : responseOwn header behind = true)
    (con : Con) : responseStatus (header ++ behind) = responseStatus header ∧
    responseType (header ++ behind) = responseType header ∧ responseEnd con (header ++ behind) = responseEnd con header := by
  unfold responseOwn at own
  cases status : responseStatus header with
  | none =>
    rw [status] at own
    obtain ⟨same,ok⟩ := statusBeyond ended behind (Or.inr (Option.isNone_iff_eq_none.mp own))
    have bad := statusOkNone status
    unfold responseType responseEnd
    rw [same,ok,bad,status]
    exact ⟨rfl,rfl,rfl⟩
  | some text =>
    rw [status] at own
    obtain ⟨same,ok⟩ := statusBeyond ended behind (Or.inl (by rw [status]; rfl))
    refine ⟨same.trans status,?_⟩
    cases good : responseStatusOk header with
    | false =>
      unfold responseType responseEnd
      rw [ok,good]
      exact ⟨rfl,rfl⟩
    | true =>
      dsimp only at own
      rw [good,Bool.not_true,Bool.false_or] at own
      cases known : responseContentType header with
      | none =>
        rw [known] at own
        have type := typeBeyond ended behind (Bool.or_eq_true_iff.mpr (Or.inr own))
        unfold responseType responseEnd
        rw [ok,good,type,known]
        exact ⟨rfl,rfl⟩
      | some type =>
        rw [known] at own
        have found : (strstr header httpContentType).isSome = true := by
          unfold responseContentType at known
          split at known <;> try contradiction
          rename_i n found
          rw [found]
          rfl
        have same := (typeBeyond ended behind (Bool.or_eq_true_iff.mpr (Or.inl found))).trans known
        refine ⟨?_,acceptBeyond ended behind con good known (ok.trans good) same own⟩
        unfold responseType
        rw [ok,good,same,known]

theorem responseOwnCstr (header behind : Bytes) : responseOwn header (cstr behind) = responseOwn header behind := by
  unfold responseOwn acceptOwn sole
  simp only [strstrCstr,strchrCstr]

end response

end MipsElfExec.Snooping
